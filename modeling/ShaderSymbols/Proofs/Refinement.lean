import ShaderSymbols.Proofs.Calls

/-!
# A symbol table is a table of nested blocks

A symbol table never looks at the scopes one by one: it resolves a name with one
look at an index.  This file shows that nobody can tell.  Whatever is asked of a
new table, it replies as nested blocks do, and whatever is looked up in between
is what a scan of the blocks finds.

## Main definitions

* `SymbolTable.Agrees t b` — every question about `t` has the answer that a scan of
  the blocks `b` gives.

## Main results

* `SymbolTable.callAll_agrees_with_blocks` — **a new table and new nested blocks
  reply alike to all calls and agree after each of them.**
-/

namespace ShaderSymbols
namespace SymbolTable

variable {P : Namespace → Type}

/-- Every question about a table has the answer that a scan of the blocks gives. -/
structure Agrees (t : SymbolTable P) (b : BlockTable Name P) : Prop where
  lookup : ∀ ns n, t.lookup ns n = (b.find? ⟨ns, n⟩).map fun (d, s) => ⟨n, ns, s, d⟩
  resolve : ∀ ns n, t.resolve ns n = (b.find? ⟨ns, n⟩).map (·.2)
  payload? : ∀ ns n, (t.payload? ns n).map (Symbol.mk ns) = (b.find? ⟨ns, n⟩).map (·.2)
  depthOf? : ∀ ns n, t.depthOf? ns n = (b.find? ⟨ns, n⟩).map (·.1)
  depth : t.depth = b.depth
  size : t.size = b.size
  isEmpty : t.isEmpty = decide (b.size = 0)

/-- What a name resolves to is the first entry of the blocks. -/
theorem Represents.lookup_eq {t : SymbolTable P} {b : BlockTable Name P} (h : Represents t b)
    (ns : Namespace) (n : Name) : t.lookup ns n = (b.live ⟨ns, n⟩).head? := by
  rw [← h.live ⟨ns, n⟩, List.head?_map]
  rfl

/-- A table agrees with the blocks that it represents. -/
theorem Represents.agrees {t : SymbolTable P} {b : BlockTable Name P} (h : Represents t b) :
    Agrees t b := by
  have hlookup : ∀ ns n, t.lookup ns n = (b.find? ⟨ns, n⟩).map fun (d, s) => ⟨n, ns, s, d⟩ := by
    intro ns n
    rw [h.lookup_eq, BlockTable.find?_eq_head?_live]
    cases he : (b.live ⟨ns, n⟩).head? with
    | none => rfl
    | some e =>
      obtain ⟨-, hname, hspace⟩ := BlockTable.mem_live (List.mem_of_head? he)
      obtain ⟨name, space, symbol, depth⟩ := e
      subst hname hspace
      rfl
  refine ⟨hlookup, fun ns n => ?_, fun ns n => ?_, fun ns n => ?_, h.depth, h.size, ?_⟩
  · rw [SymbolTable.resolve, hlookup, Option.map_map]
    rfl
  · -- the payload, tagged, is that of the entry looked up
    have hpayload : (t.payload? ns n).map (Symbol.mk ns) = (t.lookup ns n).map (·.payload) := by
      rw [SymbolTable.payload?, SymbolTable.lookup, Option.map_map, Option.map_map]
      rfl
    rw [hpayload, hlookup, Option.map_map]
    rfl
  · have hdepth : t.depthOf? ns n = (t.lookup ns n).map (·.depth) := by
      rw [SymbolTable.depthOf?, SymbolTable.lookup, Option.map_map]
      rfl
    rw [hdepth, hlookup, Option.map_map]
    rfl
  · rw [SymbolTable.isEmpty, h.size]

/-- **A new symbol table cannot be told from new nested blocks.**  They reply alike
to all calls, and after each call they agree on every question. -/
theorem callAll_agrees_with_blocks (cs : List (Call Name P)) :
    ((new : SymbolTable P).callAll cs).1 = ((BlockTable.new : BlockTable Name P).callAll cs).1 ∧
      ∀ k : Nat, Agrees ((new : SymbolTable P).callAll (cs.take k)).2
        ((BlockTable.new : BlockTable Name P).callAll (cs.take k)).2 := by
  obtain ⟨hreplies, -⟩ := Represents.callAll cs (represents_new (P := P))
  refine ⟨hreplies, ?_⟩
  -- after `k` calls the table represents the blocks, and so agrees with them
  intro k
  obtain ⟨-, hrep⟩ := Represents.callAll (cs.take k) (represents_new (P := P))
  exact hrep.agrees

end SymbolTable
end ShaderSymbols
