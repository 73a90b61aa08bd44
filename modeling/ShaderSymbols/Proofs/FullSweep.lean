import ShaderSymbols.Proofs.EventLog

/-!
# Leaving a scope is as good as a full sweep

A table that leaves a scope does not search its indices for what has to go.  It takes
the first entry off the list of each key in the frame that it drops, and does not even
look at the depth of that entry.  The plain way is to go through every list and to
drop all entries of the depth that is left.  This file shows that both end in the same
table.

It takes the two records of a table to agree: a frame holds each key once, and a key
in the last frame has its deepest entry first in its list, with no other of that depth.

## Main definitions

* `ShadowIndex.sweep x d` — the index without its entries of depth `d`.
* `SymbolTable.sweep t` — the table without its last frame and without its entries of
  the current depth.

## Main results

* `BlockTable.filter_live_cons` — the entries that are deep enough to go are those of
  the innermost block.
* `SymbolTable.leave_eq_sweep` — **leaving a scope is a full sweep.**
-/

namespace ShaderSymbols

variable {P : Namespace → Type}

/-! ### Sweeping -/

namespace ShadowIndex

variable {α : Type}

/-- Goes through all lists and drops every entry of depth `d`, and every name that
keeps no entry. -/
def sweep (x : ShadowIndex α) (d : Nat) : ShadowIndex α :=
  ⟨x.lists.filterMap fun _ l =>
    match l.filter (·.depth ≠ d) with
    | [] => none
    | e :: es => some (e :: es)⟩

theorem shadows_sweep (x : ShadowIndex α) (d : Nat) (n : Name) :
    (x.sweep d).shadows n = (x.shadows n).filter (·.depth ≠ d) := by
  rw [shadows, shadows, sweep, Std.ExtTreeMap.getElem?_filterMap']
  cases x.lists[n]? with
  | none => rfl
  | some l =>
    rw [Option.bind_some, Option.getD_some]
    cases l.filter (·.depth ≠ d) <;> rfl

/-- A sweep leaves no name behind without an entry. -/
theorem trim_sweep (x : ShadowIndex α) (d : Nat) : (x.sweep d).Trim := by
  intro n
  rw [sweep, Std.ExtTreeMap.getElem?_filterMap']
  cases x.lists[n]? with
  | none => simp
  | some l =>
    rw [Option.bind_some]
    cases l.filter (·.depth ≠ d) <;> simp

end ShadowIndex

/-- Drops the last frame, and goes through all lists of all indices to drop every entry
of the current depth. -/
def SymbolTable.sweep (t : SymbolTable P) : SymbolTable P :=
  ⟨{ t.scopes with inner := t.scopes.inner.tail }, .ofFn fun ns => (t.index.get ns).sweep t.depth⟩

/-! ### The entries of the innermost block -/

/-- The entries that are not as deep as the innermost block are those of the blocks
outside it. -/
theorem BlockTable.filter_live_cons (b : Block Name P) (bs : List (Block Name P))
    (o : Block Name P) (k : Key Name) :
    ((⟨b :: bs, o⟩ : BlockTable Name P).live k).filter (·.depth ≠ bs.length + 1) =
      (⟨bs, o⟩ : BlockTable Name P).live k := by
  have hinnermost : (Block.entryAt b k (bs.length + 1)).toList.filter
      (·.depth ≠ bs.length + 1) = [] := by
    rw [List.filter_eq_nil_iff]
    intro e he
    have hdepth := (Block.mem_entryAt he).2.1
    simp [hdepth]
  have houter : ((⟨bs, o⟩ : BlockTable Name P).live k).filter (·.depth ≠ bs.length + 1) =
      (⟨bs, o⟩ : BlockTable Name P).live k := by
    rw [List.filter_eq_self]
    intro e he
    have hle : e.depth ≤ bs.length := (mem_live he).1
    simp only [ne_eq, decide_not, Bool.not_eq_true', decide_eq_false_iff_not]
    omega
  rw [live_cons, List.filter_append, hinnermost, houter, List.nil_append]

namespace SymbolTable

/-! ### Leaving a scope -/

namespace Represents

variable {t : SymbolTable P} {b : BlockTable Name P}

/-- Inside the outermost scope there is a frame to drop. -/
theorem exists_leave_scopes (h : Represents t b) (hd : 0 < t.depth) :
    ∃ f s, t.scopes.leave = .ok (f, s) := by
  obtain ⟨inner, o⟩ := b
  rw [h.depth] at hd
  cases inner with
  | nil => exact absurd hd (Nat.lt_irrefl 0)
  | cons c cs => exact ⟨_, _, by rw [h.scopes, BlockTable.leave_stack_cons]⟩

/-- **Leaving a scope drops the entries of its depth** and keeps the others in their
order. -/
theorem shadows_leave (h : Represents t b) (hd : 0 < t.depth) (ns : Namespace) (n : Name) :
    t.leave.table.shadows ns n = (t.shadows ns n).filter (·.depth ≠ t.depth) := by
  have hleft := h.leave.2.live ⟨ns, n⟩
  have hdepth := h.depth
  obtain ⟨inner, o⟩ := b
  cases inner with
  | nil =>
    rw [hdepth] at hd
    exact absurd hd (Nat.lt_irrefl 0)
  | cons c cs =>
    -- tagged and then filtered, the entries are those of the outer blocks
    have hlength : t.depth = cs.length + 1 := hdepth
    rw [BlockTable.step_leave_cons, ← BlockTable.filter_live_cons c, ← hlength,
      ← h.live ⟨ns, n⟩, List.filter_map] at hleft
    exact (List.map_inj_right (Entry.map_mk_inj ns)).mp hleft

/-- A name is absent after a scope was left exactly if it was absent before, or all its
entries were of that scope. -/
theorem lists_leave_eq_none_iff (h : Represents t b) (hd : 0 < t.depth) (ns : Namespace)
    (n : Name) : (t.leave.table.index.get ns).lists[n]? = none ↔
      (t.index.get ns).lists[n]? = none ∨ ∀ e ∈ t.shadows ns n, e.depth = t.depth := by
  have hbefore : (t.index.get ns).lists[n]? = none ↔ t.shadows ns n = [] :=
    (h.trim ns).getElem?_lists_eq_none_iff n
  have hafter : (t.leave.table.index.get ns).lists[n]? = none ↔
      t.leave.table.shadows ns n = [] :=
    (h.leave.2.trim ns).getElem?_lists_eq_none_iff n
  rw [hbefore, hafter, h.shadows_leave hd, List.filter_eq_nil_iff]
  constructor
  · intro hall
    refine .inr fun e he => ?_
    simpa using hall e he
  · rintro (hnil | hall) e he
    · rw [hnil] at he
      cases he
    · simpa using hall e he

/-- **Leaving a scope ends where a full sweep ends.** -/
theorem table_leave (h : Represents t b) (hd : 0 < t.depth) : t.leave.table = t.sweep := by
  obtain ⟨f, s, hs⟩ := h.exists_leave_scopes hd
  refine SymbolTable.ext ?_ (PerNamespace.ext_get fun ns => ?_)
  · rw [SymbolTable.leave, hs, sweep, ScopeStack.leave_eq_ok_iff.mp hs]
    rfl
  · -- trim indices are equal if their lists are
    rw [sweep, PerNamespace.get_ofFn]
    refine (h.leave.2.trim ns).eq_of_shadows (ShadowIndex.trim_sweep _ _) fun n => ?_
    rw [ShadowIndex.shadows_sweep]
    exact h.shadows_leave hd ns n

end Represents

/-- **Leaving a scope is a full sweep.**  Whatever state a table is in, if its current
scope can be left, then leaving it ends in the very table that dropping the last frame
and all entries of the current depth ends in.  Every list keeps its other entries, in
their order.  A name is absent from an index afterwards exactly if it was absent before
or had no other entry.  The other frames stay as they are, and as many entries go as the
frame that is left had keys. -/
theorem leave_eq_sweep {t : SymbolTable P} (ht : t.Reachable) (hd : 0 < t.depth) :
    t.leave.answer = .ok () ∧ t.leave.table = t.sweep ∧
    (∀ ns n, t.leave.table.shadows ns n = (t.shadows ns n).filter (·.depth ≠ t.depth)) ∧
    (∀ ns n, (t.leave.table.index.get ns).lists[n]? = none ↔
      (t.index.get ns).lists[n]? = none ∨ ∀ e ∈ t.shadows ns n, e.depth = t.depth) ∧
    t.leave.table.scopes.frames = t.scopes.frames.dropLast ∧
    t.leave.table.size + t.scopes.current.declared.length = t.size := by
  obtain ⟨b, h⟩ := ht.exists_represents
  obtain ⟨f, s, hs⟩ := h.exists_leave_scopes hd
  have hleave : t.leave.answer = .ok () ∧ t.leave.table.scopes = s := by
    rw [leave, hs]
    exact ⟨rfl, rfl⟩
  have hcurrent : t.scopes.current = f := by
    rw [ScopeStack.leave_eq_ok_iff.mp hs]
    rfl
  refine ⟨hleave.1, h.table_leave hd, h.shadows_leave hd, h.lists_leave_eq_none_iff hd, ?_, ?_⟩
  · rw [hleave.2, ScopeStack.frames_of_leave hs, List.dropLast_concat]
  · rw [hcurrent, Frame.length_declared]
    exact h.size_leave hs

/-- A table whose current scope hides a global function, declares a variable of the same
name, and declares a function that was also declared late in the outermost scope. -/
def crowded : SymbolTable fun _ => Nat :=
  (new.run [.declare ⟨7⟩ ⟨.func, 1⟩, .enter, .declare ⟨7⟩ ⟨.func, 2⟩, .declare ⟨7⟩ ⟨.var, 3⟩,
    .declare ⟨8⟩ ⟨.func, 4⟩, .declareGlobal ⟨8⟩ ⟨.func, 5⟩]).table

theorem leave_eq_sweep_crowded :
    0 < crowded.depth ∧ crowded.leave.table = crowded.sweep ∧
    crowded.leave.table.shadows .func ⟨7⟩ = [⟨⟨7⟩, .func, 1, 0⟩] ∧
    crowded.leave.table.shadows .func ⟨8⟩ = [⟨⟨8⟩, .func, 5, 0⟩] ∧
    (crowded.leave.table.index.get .var).lists[(⟨7⟩ : Name)]? = none ∧
    crowded.leave.table.size + 3 = crowded.size := by
  have hd : 0 < crowded.depth := by decide
  obtain ⟨-, hsweep, hshadows, habsent, -, hsize⟩ :=
    leave_eq_sweep (t := crowded) ⟨_, rfl⟩ hd
  refine ⟨hd, hsweep, ?_, ?_, (habsent .var ⟨7⟩).mpr (.inr (by decide)), hsize⟩
  · rw [hshadows]
    decide
  · rw [hshadows]
    decide

end SymbolTable
end ShaderSymbols
