import ShaderSymbols.Proofs.BlocksByDepth
import ShaderSymbols.Proofs.Calls

/-!
# The two records of a symbol table

The scope stack of a table lists what each open scope declares; the indices list
what is live under each name.  The stack is read when a scope is left and the
indices are read when a name is resolved, and nothing in the table compares the
two.  This file says that they describe the same declarations at all times.

## Main definitions

* `SymbolTable.WellFormed` — each record is in order and they agree.

## Main results

* `SymbolTable.Represents.wellFormed` — a table that represents blocks is well formed.
* `SymbolTable.wellFormed_callAll` — **a table is well formed after any calls.**
-/

namespace ShaderSymbols

variable {P : Namespace → Type}

/-! ### Well-formed tables -/

namespace SymbolTable

/-- Each of the two records of a table is in order, and they describe the same
declarations. -/
structure WellFormed (t : SymbolTable P) : Prop where
  /-- The frames, outermost first, have the depths 0, 1, 2 and so on. -/
  depth_frame : ∀ (i : Nat) (f : Frame Name), t.scopes.frames[i]? = some f → f.depth = i
  /-- No frame declares a key twice. -/
  nodup_declared : ∀ f ∈ t.scopes.frames, f.declared.Nodup
  /-- A list that an index keeps is not empty. -/
  ne_nil : ∀ (ns : Namespace) (n : Name) (l : List (Entry (P ns))),
    (t.index.get ns).lists[n]? = some l → l ≠ []
  /-- From the innermost entry outwards, depths strictly decrease. -/
  pairwise_depth : ∀ (ns : Namespace) (n : Name) (l : List (Entry (P ns))),
    (t.index.get ns).lists[n]? = some l → l.Pairwise fun e e' => e'.depth < e.depth
  /-- An entry is no deeper than the current scope, and it carries the name and the
  namespace under which it is kept. -/
  entry_of_mem : ∀ (ns : Namespace) (n : Name) (l : List (Entry (P ns))),
    (t.index.get ns).lists[n]? = some l →
      ∀ e ∈ l, e.depth ≤ t.depth ∧ e.name = n ∧ e.space = ns
  /-- The frame at depth `i` declares a key if and only if the key has an entry of
  depth `i`. -/
  mem_declared_iff : ∀ (k : Key Name) (i : Nat),
    (∃ f, t.scopes.frames[i]? = some f ∧ k ∈ f.declared) ↔
      ∃ e ∈ t.shadows k.space k.name, e.depth = i
  /-- There are as many entries as declared keys. -/
  size_eq : t.size = (t.scopes.frames.map fun f => f.declared.length).sum

section

variable {t : SymbolTable P} {b : BlockTable Name P}

/-- What is kept under a name, tagged, are the entries of the blocks. -/
theorem Represents.map_eq_live (h : Represents t b) {ns : Namespace} {n : Name}
    {l : List (Entry (P ns))} (hl : (t.index.get ns).lists[n]? = some l) :
    l.map (·.map (Symbol.mk ns)) = b.live ⟨ns, n⟩ := by
  rw [← h.live ⟨ns, n⟩, shadows, ShadowIndex.shadows, hl, Option.getD_some]

/-- The frames are those of the blocks, by their depths. -/
theorem Represents.frame_eq (h : Represents t b) {i : Nat} {f : Frame Name}
    (hf : t.scopes.frames[i]? = some f) : f = Block.frame (b.blockAt i) i := by
  rw [h.scopes, BlockTable.getElem?_frames_stack] at hf
  split at hf
  · exact (Option.some.inj hf).symm
  · cases hf

/-- A table that represents nested blocks is well formed. -/
theorem Represents.wellFormed (h : Represents t b) : t.WellFormed where
  depth_frame := by
    intro i f hf
    rw [h.frame_eq hf]
    rfl
  nodup_declared := by
    intro f hf
    obtain ⟨i, hi⟩ := List.getElem?_of_mem hf
    rw [h.frame_eq hi]
    exact (List.reverse_perm _).nodup_iff.mpr (h.distinct.nodup_keys_blockAt i)
  ne_nil := by
    intro ns n l hl hnil
    exact h.trim ns n (by rw [hl, hnil])
  pairwise_depth := by
    intro ns n l hl
    have hlive := b.pairwise_live ⟨ns, n⟩
    rw [← h.map_eq_live hl, List.pairwise_map] at hlive
    exact hlive
  entry_of_mem := by
    intro ns n l hl e he
    have hmem : e.map (Symbol.mk ns) ∈ b.live ⟨ns, n⟩ := by
      rw [← h.map_eq_live hl]
      exact List.mem_map_of_mem he
    rw [h.depth]
    exact BlockTable.mem_live hmem
  mem_declared_iff := by
    intro k i
    have hframe : (∃ f, t.scopes.frames[i]? = some f ∧ k ∈ f.declared) ↔
        k ∈ Block.keys (b.blockAt i) := by
      rw [h.scopes, BlockTable.getElem?_frames_stack]
      split
      · simp [Block.frame]
      · next hlt => simp [BlockTable.blockAt_of_depth_lt (Nat.lt_of_not_le hlt)]
    have hentry : (∃ e ∈ t.shadows k.space k.name, e.depth = i) ↔
        ∃ e ∈ b.live k, e.depth = i := by
      rw [← h.live k]
      constructor
      · rintro ⟨e, he, hd⟩
        exact ⟨_, List.mem_map_of_mem he, hd⟩
      · rintro ⟨e, he, hd⟩
        obtain ⟨e', he', rfl⟩ := List.mem_map.mp he
        exact ⟨e', he', hd⟩
    rw [hframe, hentry, BlockTable.exists_mem_live_iff]
  size_eq := by
    rw [h.size, h.scopes, BlockTable.sum_length_frames_stack]

end

/-- **The two records agree at all times.**  Whatever calls a new table has served,
it is well formed. -/
theorem wellFormed_callAll (cs : List (Call Name P)) :
    ((new : SymbolTable P).callAll cs).2.WellFormed := by
  obtain ⟨-, hrep⟩ := Represents.callAll cs (represents_new (P := P))
  exact hrep.wellFormed

end SymbolTable
end ShaderSymbols
