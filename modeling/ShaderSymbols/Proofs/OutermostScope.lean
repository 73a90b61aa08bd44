import ShaderSymbols.Proofs.Representation

/-!
# Declaring at the outermost scope

There are two ways to declare a name.  One is for the current scope: it looks at the
first entry of the name, puts the new entry in front and notes the key in the innermost
frame.  The other is for the outermost scope: it looks at the last entry, puts the new
entry at the back and notes the key in the frame that is never left.  Where the outermost
scope is the current one, both are meant to be the same, though they work at opposite
ends of everything.

They are the same because there is nothing between the ends.  A name has at most one
entry for each open scope, so at depth 0 it has at most one, whatever scopes were entered
and left before.

## Main results

* `SymbolTable.Represents.length_shadows_le` — a name has at most one entry for each open
  scope.
* `ShadowIndex.pushBeneath_eq_push` — a first entry is put in front and at the back alike.
* `SymbolTable.declareGlobal_eq_declare` — **at the outermost scope there is one way to
  declare.**
-/

namespace ShaderSymbols

variable {P : Namespace → Type}

/-! ### Lists of at most one entry -/

/-- Entries of strictly decreasing depths, all below `d`, are at most `d` many. -/
theorem Entry.length_le_of_pairwise {α : Type} {l : List (Entry α)}
    (hl : l.Pairwise fun e e' => e'.depth < e.depth) {d : Nat} (h : ∀ e ∈ l, e.depth < d) :
    l.length ≤ d := by
  induction hl generalizing d with
  | nil => exact Nat.zero_le d
  | @cons e l hhead _ ih =>
    -- the depth of the first entry bounds the others
    have hrest : l.length ≤ e.depth := ih hhead
    have hfirst : e.depth < d := h e List.mem_cons_self
    rw [List.length_cons]
    omega

/-- The first entry of a name is put in front and at the back alike. -/
theorem ShadowIndex.pushBeneath_eq_push {α : Type} {x : ShadowIndex α} {e : Entry α}
    (h : x.shadows e.name = []) : x.pushBeneath e = x.push e := by
  refine congrArg mk (Std.ExtTreeMap.ext_getElem? fun n => ?_)
  rw [Std.ExtTreeMap.getElem?_alter, Std.ExtTreeMap.getElem?_alter]
  split
  · have hnil : x.lists[e.name]?.getD [] = [] := h
    rw [hnil]
    rfl
  · rfl

namespace SymbolTable

/-- Of a list of at most one entry both ends are the same. -/
theorem depthOf?_eq_bottomDepth? {t : SymbolTable P} {ns : Namespace} {n : Name}
    (h : (t.shadows ns n).length ≤ 1) : t.depthOf? ns n = t.bottomDepth? ns n := by
  rw [depthOf?_eq, bottomDepth?_eq]
  match t.shadows ns n, h with
  | [], _ => rfl
  | [_], _ => rfl

namespace Represents

variable {t : SymbolTable P} {b : BlockTable Name P}

/-- **A name has at most one entry for each open scope.** -/
theorem length_shadows_le (h : Represents t b) (ns : Namespace) (n : Name) :
    (t.shadows ns n).length ≤ t.depth + 1 :=
  Entry.length_le_of_pairwise (h.pairwise_shadows ns n) fun _ he =>
    Nat.lt_succ_of_le (h.depth_le_of_mem_shadows he)

/-! ### At depth zero -/

/-- At depth 0 no frame is open but the outermost one. -/
theorem inner_eq_nil (h : Represents t b) (hd : t.depth = 0) : t.scopes.inner = [] := by
  obtain ⟨inner, o⟩ := b
  rw [h.depth] at hd
  obtain rfl : inner = [] := List.length_eq_zero_iff.mp hd
  rw [h.scopes]
  rfl

/-- At depth 0 a name that can be declared has no entry. -/
theorem shadows_eq_nil (h : Represents t b) (hd : t.depth = 0) {ns : Namespace} {n : Name}
    (hfree : t.depthOf? ns n ≠ some 0) : t.shadows ns n = [] := by
  cases hs : t.shadows ns n with
  | nil => rfl
  | cons e es =>
    have hmem : e ∈ t.shadows ns n := by
      rw [hs]
      exact List.mem_cons_self
    have hdepth : e.depth = 0 := Nat.eq_zero_of_le_zero (hd ▸ h.depth_le_of_mem_shadows hmem)
    rw [depthOf?_eq, hs, List.head?_cons, Option.map_some, hdepth] at hfree
    exact absurd rfl hfree

end Represents

/-- **At the outermost scope there is one way to declare.**  Whatever scopes a table has
entered and left again, once it is back at depth 0 the outermost frame is the only one, no
name has more than one entry, and whatever is declared, the two ways to declare it give
the same answer and lead to the same table.  Only the log tells them apart. -/
theorem declareGlobal_eq_declare {t : SymbolTable P} (ht : t.Reachable) (hd : t.depth = 0) :
    t.scopes.frames = [t.scopes.current] ∧
    (∀ ns n, (t.shadows ns n).length ≤ 1) ∧
    ∀ (n : Name) (s : Symbol P), (t.declareGlobal n s).answer = (t.declare n s).answer ∧
      (t.declareGlobal n s).table = (t.declare n s).table := by
  obtain ⟨b, h⟩ := ht.exists_represents
  have hinner := h.inner_eq_nil hd
  have hlength : ∀ ns n, (t.shadows ns n).length ≤ 1 := by
    intro ns n
    have hle := h.length_shadows_le ns n
    rwa [hd] at hle
  refine ⟨?_, hlength, fun n s => ?_⟩
  · rw [ScopeStack.frames, ScopeStack.current, hinner]
    rfl
  · have hends : t.bottomDepth? s.space n = t.depthOf? s.space n :=
      (depthOf?_eq_bottomDepth? (hlength s.space n)).symm
    rw [declareGlobal, declare, hends, hd]
    split
    · exact ⟨rfl, rfl⟩
    · next hfree =>
      have hpush : (t.index.get s.space).pushBeneath ⟨n, s.space, s.payload, 0⟩ =
          (t.index.get s.space).push ⟨n, s.space, s.payload, 0⟩ :=
        ShadowIndex.pushBeneath_eq_push (h.shadows_eq_nil hd hfree)
      have hnote : t.scopes.noteOutermost ⟨s.space, n⟩ = t.scopes.note ⟨s.space, n⟩ :=
        ScopeStack.noteOutermost_eq_note hinner _
      rw [PerNamespace.modify, PerNamespace.modify, hpush, hnote]
      exact ⟨rfl, rfl⟩

/-- A table that is back at depth 0.  A name was declared twice inside and once, late, in
the outermost scope. -/
def unwound : SymbolTable fun _ => Nat :=
  (new.run [.enter, .declare ⟨7⟩ ⟨.var, 1⟩, .enter, .declare ⟨7⟩ ⟨.var, 2⟩,
    .declareGlobal ⟨7⟩ ⟨.var, 3⟩, .declare ⟨8⟩ ⟨.func, 4⟩, .leave, .leave]).table

theorem declareGlobal_eq_declare_unwound :
    unwound.depth = 0 ∧ unwound.scopes.frames = [⟨0, [⟨.var, ⟨7⟩⟩]⟩] ∧
    (unwound.shadows .var ⟨7⟩).length ≤ 1 ∧
    (unwound.declareGlobal ⟨7⟩ ⟨.var, 5⟩).answer = .error (.redeclared ⟨.var, ⟨7⟩⟩ 0) ∧
    (unwound.declareGlobal ⟨8⟩ ⟨.func, 6⟩).answer = .ok () ∧
    (unwound.declareGlobal ⟨8⟩ ⟨.func, 6⟩).table = (unwound.declare ⟨8⟩ ⟨.func, 6⟩).table := by
  have hd : unwound.depth = 0 := by decide
  obtain ⟨hframes, hlength, hsame⟩ := declareGlobal_eq_declare (t := unwound) ⟨_, rfl⟩ hd
  refine ⟨hd, hframes, hlength .var ⟨7⟩, ?_, ?_, (hsame ⟨8⟩ ⟨.func, 6⟩).2⟩
  · rw [(hsame ⟨7⟩ ⟨.var, 5⟩).1]
    rfl
  · rw [(hsame ⟨8⟩ ⟨.func, 6⟩).1]
    rfl

end SymbolTable
end ShaderSymbols
