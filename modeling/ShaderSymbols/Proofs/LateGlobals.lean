import ShaderSymbols.Proofs.Refinement

/-!
# A late global declaration is as good as an early one

A front end may come across a built-in function deep inside a shader and declare it
in the outermost scope from there.  This file shows that it need not have worried
about being late.  Had it made the declaration at any earlier point, every operation
since would have been answered as it was, and the table would be the same but for
the order in which the outermost scope lists its keys.

The outermost block only grows, so if a key is free there at the end of a run it was
free throughout, and nothing in between could have noticed it.

## Main definitions

* `hoist l i j` — the list `l` with its element at `i` moved to just before `j`.
* `BlockTable.Reordered` — the same blocks, up to the order in the outermost one.

## Main results

* `BlockTable.Reordered.step` — the order in the outermost block does not matter.
* `BlockTable.addOutermost_step` — no operation notices one more binding in the
  outermost block if it leaves the key free.
* `SymbolTable.run_hoist` — **an accepted global declaration can be made at any
  earlier point.**
-/

namespace ShaderSymbols

variable {ν : Type} {P : Namespace → Type}

/-! ### Moving an element forward -/

/-- The list with the element at `i` moved to just before the element at `j`. -/
def hoist {α : Type} (l : List α) (i j : Nat) : List α :=
  match l[i]? with
  | none => l
  | some a => (l.eraseIdx i).insertIdx j a

theorem getElem?_append_append {α : Type} (l m r : List α) (a : α) :
    (l ++ (m ++ a :: r))[l.length + m.length]? = some a := by
  rw [← List.append_assoc, ← List.length_append, List.getElem?_append_right (Nat.le_refl _),
    Nat.sub_self, List.getElem?_cons_zero]

theorem insertIdx_append_length {α : Type} (l l' : List α) (a : α) :
    (l ++ l').insertIdx l.length a = l ++ a :: l' := by
  induction l with
  | nil => rfl
  | cons b l ih =>
    rw [List.cons_append, List.length_cons, List.insertIdx_succ_cons, ih, List.cons_append]

theorem hoist_append {α : Type} (l m r : List α) (a : α) :
    hoist (l ++ (m ++ a :: r)) (l.length + m.length) l.length = l ++ a :: (m ++ r) := by
  have herase : (l ++ (m ++ a :: r)).eraseIdx (l.length + m.length) = l ++ (m ++ r) := by
    rw [← List.append_assoc, ← List.length_append,
      List.eraseIdx_append_of_length_le (Nat.le_refl _), Nat.sub_self, List.eraseIdx_cons_zero,
      List.append_assoc]
  rw [hoist, getElem?_append_append, herase]
  exact insertIdx_append_length l (m ++ r) a

/-- A list falls apart around two of its positions. -/
theorem exists_eq_append {α : Type} {l : List α} {i j : Nat} {a : α} (hji : j < i)
    (hi : l[i]? = some a) :
    ∃ pre mid post, l = pre ++ (mid ++ a :: post) ∧ pre.length = j ∧
      pre.length + mid.length = i := by
  obtain ⟨hlt, hget⟩ := List.getElem?_eq_some_iff.mp hi
  have hj : (l.take j).length = j := by
    rw [List.length_take]
    omega
  have hmid : ((l.take i).drop j).length = i - j := by
    rw [List.length_drop, List.length_take]
    omega
  refine ⟨l.take j, (l.take i).drop j, l.drop (i + 1), ?_, hj, by omega⟩
  have hpre : l.take j = (l.take i).take j := by
    rw [List.take_take, Nat.min_eq_left (Nat.le_of_lt hji)]
  rw [← List.append_assoc, hpre, List.take_append_drop, ← hget, ← List.drop_eq_getElem_cons hlt,
    List.take_append_drop]

/-! ### The order within a block -/

namespace Block

variable [DecidableEq ν]

/-- If no key is declared twice, a block binds a key to a symbol exactly if it holds
that binding. -/
theorem find?_eq_some_iff {b : Block ν P} (hb : (keys b).Nodup) {k : Key ν} {s : Symbol P} :
    find? b k = some s ↔ ∃ x ∈ b, x.key = k ∧ x.symbol = s := by
  induction b with
  | nil => simp
  | cons y b ih =>
    rw [keys_cons, List.nodup_cons] at hb
    rw [find?_cons]
    split
    · next hy =>
      constructor
      · intro hs
        exact ⟨y, List.mem_cons_self, hy, Option.some.inj hs⟩
      · rintro ⟨x, hx, rfl, rfl⟩
        rcases List.mem_cons.mp hx with rfl | hx
        · rfl
        · -- the key of `y` would be declared twice
          have hmem : y.key ∈ keys b := hy ▸ List.mem_map_of_mem hx
          exact absurd hmem hb.1
    · next hy =>
      rw [ih hb.2]
      constructor
      · rintro ⟨x, hx, h⟩
        exact ⟨x, List.mem_cons_of_mem _ hx, h⟩
      · rintro ⟨x, hx, rfl, rfl⟩
        rcases List.mem_cons.mp hx with rfl | hx
        · exact absurd rfl hy
        · exact ⟨x, hx, rfl, rfl⟩

/-- What a block binds a key to does not depend on the order of its bindings. -/
theorem find?_perm {b b' : Block ν P} (h : b.Perm b') (hb : (keys b).Nodup) (k : Key ν) :
    find? b k = find? b' k := by
  have hb' : (keys b').Nodup := (h.map Binding.key).nodup_iff.mp hb
  refine Option.ext fun s => ?_
  rw [find?_eq_some_iff hb, find?_eq_some_iff hb']
  constructor
  · rintro ⟨x, hx, hs⟩
    exact ⟨x, h.mem_iff.mp hx, hs⟩
  · rintro ⟨x, hx, hs⟩
    exact ⟨x, h.mem_iff.mpr hx, hs⟩

end Block

/-! ### The order of the outermost block -/

namespace BlockTable

/-- The same blocks, but for the order of the bindings in the outermost one. -/
structure Reordered (t t' : BlockTable ν P) : Prop where
  /-- The blocks inside the outermost one are the same. -/
  inner : t.inner = t'.inner
  /-- The outermost blocks hold the same bindings. -/
  outermost : t.outermost.Perm t'.outermost

namespace Reordered

theorem refl (t : BlockTable ν P) : Reordered t t := ⟨rfl, .refl _⟩

theorem symm {t t' : BlockTable ν P} (h : Reordered t t') : Reordered t' t :=
  ⟨h.inner.symm, h.outermost.symm⟩

theorem trans {t t' t'' : BlockTable ν P} (h : Reordered t t') (h' : Reordered t' t'') :
    Reordered t t'' :=
  ⟨h.inner.trans h'.inner, h.outermost.trans h'.outermost⟩

theorem addOutermost {t t' : BlockTable ν P} (h : Reordered t t') (x : Binding ν P) :
    Reordered (t.addOutermost x) (t'.addOutermost x) :=
  ⟨h.inner, h.outermost.cons x⟩

theorem depth {t t' : BlockTable ν P} (h : Reordered t t') : t.depth = t'.depth := by
  rw [BlockTable.depth, h.inner, BlockTable.depth]

theorem size {t t' : BlockTable ν P} (h : Reordered t t') : t.size = t'.size := by
  simp only [BlockTable.size, blocks, List.flatten_append, List.flatten_singleton,
    List.length_append, h.inner, h.outermost.length_eq]

theorem mem_keys_outermost {t t' : BlockTable ν P} (h : Reordered t t') (k : Key ν) :
    k ∈ Block.keys t.outermost ↔ k ∈ Block.keys t'.outermost :=
  (h.outermost.map Binding.key).mem_iff

/-- Both have the same entries. -/
theorem live {t t' : BlockTable Name P} (h : Reordered t t') (ht : t.Distinct) (k : Key Name) :
    t.live k = t'.live k := by
  have hnodup : (Block.keys t.outermost).Nodup := ht t.outermost (by simp [blocks])
  rw [BlockTable.live, BlockTable.live, h.inner, Block.entryAt, Block.entryAt,
    Block.find?_perm h.outermost hnodup]

end Reordered

variable [DecidableEq ν]

/-- In the outermost block, the two ways to declare are one. -/
theorem step_declare_nil (o : Block ν P) (n : ν) (s : Symbol P) :
    (⟨[], o⟩ : BlockTable ν P).step (.declare n s) =
      (⟨[], o⟩ : BlockTable ν P).step (.declareGlobal n s) := rfl

namespace Reordered

theorem step_declareGlobal {t t' : BlockTable ν P} (h : Reordered t t') (n : ν) (s : Symbol P) :
    (t.step (.declareGlobal n s)).1 = (t'.step (.declareGlobal n s)).1 ∧
      Reordered (t.step (.declareGlobal n s)).2 (t'.step (.declareGlobal n s)).2 := by
  have hmem := h.mem_keys_outermost ⟨s.space, n⟩
  by_cases hk : ⟨s.space, n⟩ ∈ Block.keys t.outermost
  · rw [step_declareGlobal_of_mem hk, step_declareGlobal_of_mem (hmem.mp hk)]
    exact ⟨rfl, h⟩
  · rw [step_declareGlobal_of_notMem hk, step_declareGlobal_of_notMem (mt hmem.mpr hk)]
    exact ⟨rfl, h.addOutermost ⟨n, s⟩⟩

/-- **The order in the outermost block does not matter.** -/
theorem step {t t' : BlockTable ν P} (h : Reordered t t') (a : Action ν P) :
    (t.step a).1 = (t'.step a).1 ∧ Reordered (t.step a).2 (t'.step a).2 := by
  cases a with
  | declareGlobal n s => exact h.step_declareGlobal n s
  | enter => exact ⟨rfl, congrArg ([] :: ·) h.inner, h.outermost⟩
  | leave =>
    obtain ⟨inner, o⟩ := t
    obtain ⟨inner', o'⟩ := t'
    obtain rfl : inner = inner' := h.inner
    cases inner with
    | nil => exact ⟨rfl, h⟩
    | cons b bs => exact ⟨rfl, rfl, h.outermost⟩
  | declare n s =>
    obtain ⟨inner, o⟩ := t
    obtain ⟨inner', o'⟩ := t'
    obtain rfl : inner = inner' := h.inner
    cases inner with
    | nil =>
      rw [step_declare_nil, step_declare_nil]
      exact h.step_declareGlobal n s
    | cons b bs =>
      by_cases hk : ⟨s.space, n⟩ ∈ Block.keys b
      · rw [step_declare_of_mem hk, step_declare_of_mem hk]
        exact ⟨rfl, h⟩
      · rw [step_declare_of_notMem hk, step_declare_of_notMem hk]
        exact ⟨rfl, rfl, h.outermost⟩

theorem run : ∀ (as : List (Action ν P)) {t t' : BlockTable ν P}, Reordered t t' →
    (t.run as).1 = (t'.run as).1 ∧ Reordered (t.run as).2 (t'.run as).2 := by
  intro as
  induction as with
  | nil => intro t t' h; exact ⟨rfl, h⟩
  | cons a as ih =>
    intro t t' h
    obtain ⟨hanswer, hstep⟩ := h.step a
    obtain ⟨hanswers, hrun⟩ := ih hstep
    rw [run_cons, run_cons, hanswer, hanswers]
    exact ⟨rfl, hrun⟩

end Reordered

/-! ### The outermost block only grows -/

theorem suffix_step_declareGlobal (t : BlockTable ν P) (n : ν) (s : Symbol P) :
    t.outermost <:+ (t.step (.declareGlobal n s)).2.outermost := by
  by_cases hk : ⟨s.space, n⟩ ∈ Block.keys t.outermost
  · simp only [step_declareGlobal_of_mem hk, List.suffix_rfl]
  · rw [step_declareGlobal_of_notMem hk]
    exact List.suffix_cons _ _

/-- No operation takes anything out of the outermost block. -/
theorem suffix_step (t : BlockTable ν P) (a : Action ν P) :
    t.outermost <:+ (t.step a).2.outermost := by
  obtain ⟨inner, o⟩ := t
  cases a with
  | enter => exact List.suffix_rfl
  | leave => cases inner <;> exact List.suffix_rfl
  | declareGlobal n s => exact suffix_step_declareGlobal _ n s
  | declare n s =>
    cases inner with
    | nil =>
      rw [step_declare_nil]
      exact suffix_step_declareGlobal _ n s
    | cons b bs =>
      by_cases hk : ⟨s.space, n⟩ ∈ Block.keys (⟨b :: bs, o⟩ : BlockTable ν P).current
      · simp only [step_declare_of_mem hk, List.suffix_rfl]
      · simp only [step_declare_of_notMem hk, addCurrent, List.suffix_rfl]

theorem suffix_run (as : List (Action ν P)) (t : BlockTable ν P) :
    t.outermost <:+ (t.run as).2.outermost := by
  induction as generalizing t with
  | nil => exact List.suffix_rfl
  | cons a as ih => exact (suffix_step t a).trans (ih _)

/-- A key that is free in the outermost block after a run was free before it. -/
theorem notMem_of_notMem_run {t : BlockTable ν P} {as : List (Action ν P)} {k : Key ν}
    (h : k ∉ Block.keys (t.run as).2.outermost) : k ∉ Block.keys t.outermost :=
  fun hk => h (((suffix_run as t).map Binding.key).subset hk)

/-! ### One more binding in the outermost block -/

theorem addOutermost_step_declareGlobal {t : BlockTable ν P} {x : Binding ν P} {n : ν}
    {s : Symbol P} (hx : x.key ∉ Block.keys (t.step (.declareGlobal n s)).2.outermost) :
    ((t.addOutermost x).step (.declareGlobal n s)).1 = (t.step (.declareGlobal n s)).1 ∧
      Reordered ((t.step (.declareGlobal n s)).2.addOutermost x)
        ((t.addOutermost x).step (.declareGlobal n s)).2 := by
  by_cases hk : ⟨s.space, n⟩ ∈ Block.keys t.outermost
  · have hk' : ⟨s.space, n⟩ ∈ Block.keys (t.addOutermost x).outermost :=
      List.mem_cons_of_mem _ hk
    rw [step_declareGlobal_of_mem hk, step_declareGlobal_of_mem hk']
    exact ⟨rfl, .refl _⟩
  · -- the declaration is of another key, as it leaves the key of `x` free
    rw [step_declareGlobal_of_notMem hk] at hx ⊢
    have hne : (⟨s.space, n⟩ : Key ν) ≠ x.key := fun h => hx (h ▸ List.mem_cons_self)
    have hk' : ⟨s.space, n⟩ ∉ Block.keys (t.addOutermost x).outermost := by
      intro hmem
      rcases List.mem_cons.mp hmem with h | h
      · exact hne h
      · exact hk h
    rw [step_declareGlobal_of_notMem hk']
    exact ⟨rfl, rfl, .swap _ _ _⟩

/-- **No operation notices one more binding in the outermost block**, if it leaves
the key of that binding free there. -/
theorem addOutermost_step {t : BlockTable ν P} {x : Binding ν P} {a : Action ν P}
    (hx : x.key ∉ Block.keys (t.step a).2.outermost) :
    ((t.addOutermost x).step a).1 = (t.step a).1 ∧
      Reordered ((t.step a).2.addOutermost x) ((t.addOutermost x).step a).2 := by
  obtain ⟨inner, o⟩ := t
  cases a with
  | enter => exact ⟨rfl, .refl _⟩
  | leave => cases inner <;> exact ⟨rfl, .refl _⟩
  | declareGlobal n s => exact addOutermost_step_declareGlobal hx
  | declare n s =>
    cases inner with
    | nil => exact addOutermost_step_declareGlobal hx
    | cons b bs =>
      -- the innermost block is another one
      have hcurrent : ((⟨b :: bs, o⟩ : BlockTable ν P).addOutermost x).current = b := rfl
      by_cases hk : ⟨s.space, n⟩ ∈ Block.keys b
      · rw [step_declare_of_mem hk, step_declare_of_mem (hcurrent ▸ hk)]
        exact ⟨rfl, .refl _⟩
      · rw [step_declare_of_notMem hk, step_declare_of_notMem (hcurrent ▸ hk)]
        exact ⟨rfl, .refl _⟩

/-- No run notices one more binding in the outermost block, if it leaves the key of
that binding free there. -/
theorem addOutermost_run {x : Binding ν P} : ∀ (as : List (Action ν P)) {t : BlockTable ν P},
    x.key ∉ Block.keys (t.run as).2.outermost →
    ((t.addOutermost x).run as).1 = (t.run as).1 ∧
      Reordered ((t.run as).2.addOutermost x) ((t.addOutermost x).run as).2 := by
  intro as
  induction as with
  | nil => intro t _; exact ⟨rfl, .refl _⟩
  | cons a as ih =>
    intro t hx
    rw [run_cons] at hx ⊢
    obtain ⟨hanswer, hstep⟩ := addOutermost_step (notMem_of_notMem_run hx)
    obtain ⟨hanswers, hrun⟩ := ih hx
    -- after the step, go on first from the blocks in the other order
    obtain ⟨hanswers', hrun'⟩ := hstep.run as
    rw [run_cons, hanswer, ← hanswers', hanswers]
    exact ⟨rfl, hrun.trans hrun'⟩

/-! ### Moving a global declaration -/

theorem notMem_of_step_declareGlobal {t : BlockTable ν P} {n : ν} {s : Symbol P}
    (h : (t.step (.declareGlobal n s)).1 = .ok ()) :
    ⟨s.space, n⟩ ∉ Block.keys t.outermost := by
  intro hk
  rw [step_declareGlobal_of_mem hk] at h
  cases h

/-- An accepted global declaration, made before `mid` instead of after it, is
accepted there, changes no other answer, and leads to the same blocks up to the
order in the outermost one. -/
theorem run_declareGlobal_first {t : BlockTable ν P} (mid post : List (Action ν P)) {n : ν}
    {s : Symbol P} (hok : ((t.run mid).2.step (.declareGlobal n s)).1 = .ok ()) :
    ∃ answers answers', answers.length = mid.length ∧
      (t.run (mid ++ .declareGlobal n s :: post)).1 = answers ++ .ok () :: answers' ∧
      (t.run (.declareGlobal n s :: (mid ++ post))).1 = .ok () :: (answers ++ answers') ∧
      Reordered (t.run (.declareGlobal n s :: (mid ++ post))).2
        (t.run (mid ++ .declareGlobal n s :: post)).2 := by
  have hlate := notMem_of_step_declareGlobal hok
  have hearly := notMem_of_notMem_run hlate
  obtain ⟨hmid, hmoved⟩ := addOutermost_run (x := ⟨n, s⟩) mid hlate
  obtain ⟨hpost, hend⟩ := hmoved.run post
  refine ⟨(t.run mid).1, (((t.run mid).2.addOutermost ⟨n, s⟩).run post).1,
    t.length_answers_run mid, ?_, ?_, ?_⟩
  · rw [run_append, run_cons, step_declareGlobal_of_notMem hlate]
  · rw [run_cons, step_declareGlobal_of_notMem hearly, run_append, hmid, hpost]
  · rw [run_cons, step_declareGlobal_of_notMem hearly, run_append, run_append, run_cons,
      step_declareGlobal_of_notMem hlate]
    exact hend.symm

/-- **An accepted global declaration can be made at any earlier point.** -/
theorem run_hoist_reordered {t : BlockTable ν P} {as : List (Action ν P)} {i j : Nat}
    (hji : j < i) {n : ν} {s : Symbol P} (hi : as[i]? = some (.declareGlobal n s))
    (hok : (t.run as).1[i]? = some (.ok ())) :
    (t.run (hoist as i j)).1 = hoist (t.run as).1 i j ∧
      Reordered (t.run (hoist as i j)).2 (t.run as).2 := by
  obtain ⟨pre, mid, post, rfl, rfl, rfl⟩ := exists_eq_append hji hi
  have hpre := t.length_answers_run pre
  -- the answer at `i` is that of the declaration after `pre` and `mid`
  have haccepted : (((t.run pre).2.run mid).2.step (.declareGlobal n s)).1 = .ok () := by
    have hmid := (t.run pre).2.length_answers_run mid
    rw [run_append, run_append, run_cons, ← hpre, ← hmid, getElem?_append_append] at hok
    exact Option.some.inj hok
  obtain ⟨answers, answers', hmid, hlate, hearly, hend⟩ := run_declareGlobal_first mid post haccepted
  rw [hoist_append, run_append, run_append, hlate, hearly, ← hpre, ← hmid, hoist_append]
  exact ⟨rfl, hend⟩

end BlockTable

/-! ### Runs of a symbol table -/

namespace SymbolTable

/-- Tables that represent the same blocks, up to the order in the outermost one,
differ at most in the order in which the outermost scope lists its keys. -/
theorem Represents.reordered {t t' : SymbolTable P} {b b' : BlockTable Name P}
    (h : Represents t b) (h' : Represents t' b') (hb : b.Reordered b') :
    t.index = t'.index ∧ t.size = t'.size ∧ t.depth = t'.depth ∧
      t.scopes.inner = t'.scopes.inner ∧
      t.scopes.outermost.declared.Perm t'.scopes.outermost.declared := by
  refine ⟨h.index_eq h' (hb.live h.distinct), ?_, ?_, ?_, ?_⟩
  · rw [h.size, h'.size, hb.size]
  · rw [h.depth, h'.depth, hb.depth]
  · rw [h.scopes, h'.scopes, BlockTable.stack, BlockTable.stack, hb.inner]
  · rw [h.scopes, h'.scopes]
    exact ((List.reverse_perm _).trans (hb.outermost.map Binding.key)).trans
      (List.reverse_perm _).symm

/-- **A late global declaration is as good as an early one.**  If a run of a new
table accepts a global declaration at `i`, then with that declaration moved to just
before any earlier operation every operation has the same answer as before, the
moved one included.  At the end, the depth, the number of entries, what every name
resolves to, the indices and all frames inside the outermost one are the same, and
the outermost frame holds the same keys. -/
theorem run_hoist {as : List (Action Name P)} {i j : Nat} (hji : j < i) {n : Name}
    {s : Symbol P} (hi : as[i]? = some (.declareGlobal n s))
    (hok : ((new : SymbolTable P).run as).answer[i]? = some (.ok ())) :
    ((new : SymbolTable P).run (hoist as i j)).answer =
        hoist ((new : SymbolTable P).run as).answer i j ∧
      ((new : SymbolTable P).run (hoist as i j)).table.depth =
        ((new : SymbolTable P).run as).table.depth ∧
      ((new : SymbolTable P).run (hoist as i j)).table.size =
        ((new : SymbolTable P).run as).table.size ∧
      (∀ ns m, ((new : SymbolTable P).run (hoist as i j)).table.lookup ns m =
        ((new : SymbolTable P).run as).table.lookup ns m) ∧
      ((new : SymbolTable P).run (hoist as i j)).table.index =
        ((new : SymbolTable P).run as).table.index ∧
      ((new : SymbolTable P).run (hoist as i j)).table.scopes.inner =
        ((new : SymbolTable P).run as).table.scopes.inner ∧
      ((new : SymbolTable P).run (hoist as i j)).table.scopes.outermost.declared.Perm
        ((new : SymbolTable P).run as).table.scopes.outermost.declared := by
  have hnew : Represents (new : SymbolTable P) .new := represents_new
  obtain ⟨hlate, hrlate⟩ := Represents.run as hnew
  obtain ⟨hearly, hrearly⟩ := Represents.run (hoist as i j) hnew
  rw [hlate] at hok
  obtain ⟨hanswers, hblocks⟩ := BlockTable.run_hoist_reordered hji hi hok
  obtain ⟨hindex, hsize, hdepth, hinner, houtermost⟩ := hrearly.reordered hrlate hblocks
  have hlookup : ∀ ns m, ((new : SymbolTable P).run (hoist as i j)).table.lookup ns m =
      ((new : SymbolTable P).run as).table.lookup ns m := by
    intro ns m
    rw [lookup, lookup, entry?, entry?, hindex]
  refine ⟨?_, hdepth, hsize, hlookup, hindex, hinner, houtermost⟩
  rw [hearly, hlate, hanswers]

/-- A walk that declares a function in the outermost scope from a scope that shadows
it, and tries to do so once more. -/
def lateBuiltin : List (Action Name fun _ => Nat) :=
  [.declare ⟨9⟩ ⟨.func, 1⟩, .enter, .declare ⟨7⟩ ⟨.func, 2⟩, .declareGlobal ⟨7⟩ ⟨.func, 3⟩,
    .leave, .declareGlobal ⟨7⟩ ⟨.func, 4⟩]

theorem run_hoist_lateBuiltin :
    lateBuiltin[3]? = some (.declareGlobal ⟨7⟩ ⟨.func, 3⟩) ∧
    ((new : SymbolTable fun _ => Nat).run lateBuiltin).answer[3]? = some (.ok ()) ∧
    hoist lateBuiltin 3 0 = .declareGlobal ⟨7⟩ ⟨.func, 3⟩ :: lateBuiltin.eraseIdx 3 ∧
    ((new : SymbolTable fun _ => Nat).run (hoist lateBuiltin 3 0)).answer =
      [.ok (), .ok (), .ok (), .ok (), .ok (), .error (.redeclared ⟨.func, ⟨7⟩⟩ 0)] ∧
    ((new : SymbolTable fun _ => Nat).run (hoist lateBuiltin 3 0)).table.index =
      ((new : SymbolTable fun _ => Nat).run lateBuiltin).table.index := by
  have hi : lateBuiltin[3]? = some (.declareGlobal ⟨7⟩ ⟨.func, 3⟩) := rfl
  have hok : ((new : SymbolTable fun _ => Nat).run lateBuiltin).answer[3]? = some (.ok ()) := rfl
  obtain ⟨hanswer, -, -, -, hindex, -⟩ := run_hoist (show 0 < 3 by decide) hi hok
  refine ⟨hi, hok, rfl, ?_, hindex⟩
  rw [hanswer]
  rfl

end SymbolTable
end ShaderSymbols
