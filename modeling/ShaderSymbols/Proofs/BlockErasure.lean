import ShaderSymbols.Proofs.Representation

/-!
# Blocks leave no trace

A front end walks into the blocks of a shader and out again.  When it is back where
it was, all that remains of the walk are the declarations that it made right there
and those that it sent to the outermost scope; everything that was declared further
in is gone, and so are the gaps it could have left.  A table that was told only of
what remains is the very same table.

## Main definitions

* `Action.lasts` — whether an operation outlives the blocks inside some depth.
* `SymbolTable.lasting` — the operations of a run that do, with their answers.
* `BlockTable.cut d` — nested blocks without those deeper than `d`.

## Main results

* `BlockTable.step_cut_of_lasts`, `BlockTable.cut_step_of_not_lasts` — an operation
  that lasts does the same to the cut blocks, and any other does not show there.
* `SymbolTable.Represents.run_lasting` — lasting operations alone, run from the cut
  blocks, lead to the cut blocks.
* `SymbolTable.run_eq_run_lasting` — **a run that comes back to the depth where it
  started does what its lasting operations do.**
-/

namespace ShaderSymbols

variable {ν : Type} {P : Namespace → Type}

/-- Whether an operation that is performed at the depth `current` outlives all
blocks deeper than `d`. -/
def Action.lasts (d current : Nat) : Action ν P → Bool
  | .enter | .leave => false
  | .declare _ _ => current = d
  | .declareGlobal _ _ => true

/-! ### Cutting nested blocks -/

namespace BlockTable

/-- Nested blocks without those deeper than `d`. -/
def cut (d : Nat) (t : BlockTable ν P) : BlockTable ν P :=
  { t with inner := t.inner.drop (t.depth - d) }

theorem cut_of_depth_eq {t : BlockTable ν P} {d : Nat} (h : t.depth = d) : t.cut d = t := by
  rw [cut, h, Nat.sub_self, List.drop_zero]

/-- The innermost block is cut off if it is deeper than `d`. -/
theorem cut_cons {d : Nat} {b : Block ν P} {bs : List (Block ν P)} {o : Block ν P}
    (h : d ≤ bs.length) : (⟨b :: bs, o⟩ : BlockTable ν P).cut d = (⟨bs, o⟩ : BlockTable ν P).cut d := by
  have hsucc : bs.length + 1 - d = bs.length - d + 1 := by omega
  rw [cut, cut, depth, depth, List.length_cons, hsucc, List.drop_succ_cons]

variable [DecidableEq ν]

theorem depth_step_declare (t : BlockTable ν P) (n : ν) (s : Symbol P) :
    (t.step (.declare n s)).2.depth = t.depth := by
  by_cases hk : ⟨s.space, n⟩ ∈ Block.keys t.current
  · rw [step_declare_of_mem hk]
  · rw [step_declare_of_notMem hk]
    exact t.depth_addCurrent _

/-- An operation that lasts does the same to the cut blocks. -/
theorem step_cut_of_lasts {t : BlockTable ν P} {d : Nat} {a : Action ν P}
    (h : a.lasts d t.depth = true) :
    (t.cut d).step a = ((t.step a).1, (t.step a).2.cut d) := by
  cases a with
  | enter => simp [Action.lasts] at h
  | leave => simp [Action.lasts] at h
  | declare n s =>
    -- nothing is cut off
    have hd : t.depth = d := of_decide_eq_true h
    rw [cut_of_depth_eq hd, cut_of_depth_eq ((t.depth_step_declare n s).trans hd)]
  | declareGlobal n s =>
    -- the outermost block is not cut off
    by_cases hk : ⟨s.space, n⟩ ∈ Block.keys t.outermost
    · have hcut : ⟨s.space, n⟩ ∈ Block.keys (t.cut d).outermost := hk
      rw [step_declareGlobal_of_mem hk, step_declareGlobal_of_mem hcut]
    · have hcut : ⟨s.space, n⟩ ∉ Block.keys (t.cut d).outermost := hk
      rw [step_declareGlobal_of_notMem hk, step_declareGlobal_of_notMem hcut]
      rfl

/-- Any other operation that stays at least as deep as `d` does not show in the cut
blocks. -/
theorem cut_step_of_not_lasts {t : BlockTable ν P} {d : Nat} {a : Action ν P}
    (hd : d ≤ t.depth) (hd' : d ≤ (t.step a).2.depth) (h : a.lasts d t.depth = false) :
    (t.step a).2.cut d = t.cut d := by
  obtain ⟨inner, outermost⟩ := t
  cases a with
  | enter => exact cut_cons hd
  | leave =>
    cases inner with
    | nil => rfl
    | cons b bs => exact (cut_cons hd').symm
  | declareGlobal n s => simp [Action.lasts] at h
  | declare n s =>
    -- the block of the declaration is deeper than `d`
    have hne : inner.length ≠ d := of_decide_eq_false h
    cases inner with
    | nil => exact absurd (Nat.le_zero.mp hd).symm hne
    | cons b bs =>
      have hle : d ≤ bs.length := by
        simp only [depth, List.length_cons] at hd hne
        omega
      by_cases hk : ⟨s.space, n⟩ ∈ Block.keys (⟨b :: bs, outermost⟩ : BlockTable ν P).current
      · rw [step_declare_of_mem hk]
      · rw [step_declare_of_notMem hk, addCurrent, cut_cons hle]
        exact (cut_cons hle).symm

/-! ### Runs of nested blocks -/

/-- The operations of a run that outlive all blocks deeper than `d`, with their
answers. -/
def lasting (d : Nat) (t : BlockTable ν P) : List (Action ν P) → List (Action ν P × Answer ν)
  | [] => []
  | a :: as =>
    if a.lasts d t.depth then (a, (t.step a).1) :: lasting d (t.step a).2 as
    else lasting d (t.step a).2 as

/-- A run that never leaves the depth `d` does to the cut blocks what its lasting
operations do. -/
theorem run_cut_lasting {d : Nat} : ∀ (as : List (Action ν P)) (t : BlockTable ν P),
    (∀ k ≤ as.length, d ≤ (t.run (as.take k)).2.depth) →
    (t.cut d).run ((lasting d t as).map Prod.fst) =
      ((lasting d t as).map Prod.snd, (t.run as).2.cut d) := by
  intro as
  induction as with
  | nil => intro t _; rfl
  | cons a as ih =>
    intro t hdeep
    have hd : d ≤ t.depth := hdeep 0 (Nat.zero_le _)
    have hd' : d ≤ (t.step a).2.depth := by
      have := hdeep 1 (by simp)
      simpa using this
    have hrest : ∀ k ≤ as.length, d ≤ ((t.step a).2.run (as.take k)).2.depth := by
      intro k hk
      have := hdeep (k + 1) (by simpa using hk)
      simpa using this
    -- the cut blocks take part in a step if it lasts, and sleep through it otherwise
    rw [lasting, run_cons]
    split
    · next hlasts =>
      rw [List.map_cons, List.map_cons, run_cons, step_cut_of_lasts hlasts, ih _ hrest]
    · next hlasts =>
      have hcut := cut_step_of_not_lasts hd hd' (Bool.eq_false_iff.mpr hlasts)
      rw [← hcut, ih _ hrest]

/-- Nothing lasts of a run that stays deeper than `d` and declares nothing in the
outermost block. -/
theorem lasting_eq_nil {d : Nat} : ∀ (as : List (Action ν P)) (t : BlockTable ν P),
    (∀ k ≤ as.length, d < (t.run (as.take k)).2.depth) →
    (∀ n s, Action.declareGlobal n s ∉ as) → lasting d t as = [] := by
  intro as
  induction as with
  | nil => intro t _ _; rfl
  | cons a as ih =>
    intro t hdeep hlocal
    have hd : d < t.depth := hdeep 0 (Nat.zero_le _)
    have hrest : ∀ k ≤ as.length, d < ((t.step a).2.run (as.take k)).2.depth := by
      intro k hk
      have := hdeep (k + 1) (by simpa using hk)
      simpa using this
    have hlasts : a.lasts d t.depth = false := by
      cases a with
      | enter => rfl
      | leave => rfl
      | declare n s => exact decide_eq_false (Nat.ne_of_gt hd)
      | declareGlobal n s => exact absurd List.mem_cons_self (hlocal n s)
    rw [lasting, hlasts, if_neg Bool.false_ne_true]
    exact ih _ hrest fun n s h => hlocal n s (List.mem_cons_of_mem _ h)

/-- Leaving the innermost block cuts it off. -/
theorem step_leave_eq_cut {t : BlockTable ν P} {d : Nat} (h : t.depth = d + 1) :
    (t.step .leave).2 = t.cut d := by
  obtain ⟨inner, outermost⟩ := t
  cases inner with
  | nil => simp [depth] at h
  | cons b bs =>
    have hbs : (⟨bs, outermost⟩ : BlockTable ν P).depth = d := Nat.succ.inj h
    rw [step_leave_cons, cut_cons (Nat.le_of_eq hbs.symm), cut_of_depth_eq hbs]

/-- Leaving all blocks cuts off all but the outermost. -/
theorem run_replicate_leave (t : BlockTable ν P) :
    (t.run (List.replicate t.depth .leave)).2 = t.cut 0 := by
  obtain ⟨inner, outermost⟩ := t
  rw [depth]
  induction inner with
  | nil => rfl
  | cons b bs ih =>
    rw [List.length_cons, List.replicate_succ, run_cons, step_leave_cons, ih,
      cut_cons (Nat.zero_le _)]

end BlockTable

/-! ### Runs of a symbol table -/

namespace SymbolTable

/-- The operations of a run that outlive all scopes deeper than `d`, with their
answers: every declaration in the outermost scope, and every declaration that is
made while the depth is `d`. -/
def lasting (d : Nat) (t : SymbolTable P) :
    List (Action Name P) → List (Action Name P × Answer Name)
  | [] => []
  | a :: as =>
    if a.lasts d t.depth then (a, (t.step a).answer) :: lasting d (t.step a).table as
    else lasting d (t.step a).table as

theorem Represents.lasting_eq (d : Nat) : ∀ (as : List (Action Name P)) {t : SymbolTable P}
    {b : BlockTable Name P}, Represents t b → lasting d t as = b.lasting d as := by
  intro as
  induction as with
  | nil => intro t b _; rfl
  | cons a as ih =>
    intro t b h
    obtain ⟨hanswer, hstep⟩ := h.step a
    rw [lasting, BlockTable.lasting, h.depth, hanswer, ih hstep]

/-- The depths along a run of a table are those along the run of its blocks. -/
theorem Represents.depth_run {t : SymbolTable P} {b : BlockTable Name P} (h : Represents t b)
    (as : List (Action Name P)) : (t.run as).table.depth = (b.run as).2.depth :=
  (Represents.run as h).2.depth

/-- Leaving all scopes leaves a table that represents the outermost block. -/
theorem Represents.leave_all {t : SymbolTable P} {b : BlockTable Name P} (h : Represents t b) :
    Represents (t.run (List.replicate t.depth .leave)).table (b.cut 0) := by
  obtain ⟨-, hleft⟩ := Represents.run (List.replicate t.depth .leave) h
  rw [← b.run_replicate_leave, ← h.depth]
  exact hleft

/-- If another table represents the cut blocks, then the lasting operations lead
from there to a table that represents the cut blocks at the end of the run. -/
theorem Represents.run_lasting {s s' : SymbolTable P} {b : BlockTable Name P} {d : Nat}
    (h : Represents s b) (h' : Represents s' (b.cut d)) {as : List (Action Name P)}
    (hdeep : ∀ k ≤ as.length, d ≤ (s.run (as.take k)).table.depth) :
    (s'.run ((lasting d s as).map Prod.fst)).answer = (lasting d s as).map Prod.snd ∧
      Represents (s'.run ((lasting d s as).map Prod.fst)).table ((b.run as).2.cut d) := by
  have hblocks : ∀ k ≤ as.length, d ≤ (b.run (as.take k)).2.depth := by
    intro k hk
    rw [← h.depth_run]
    exact hdeep k hk
  have hcut := BlockTable.run_cut_lasting as b hblocks
  rw [← h.lasting_eq d as] at hcut
  have hrun := Represents.run ((lasting d s as).map Prod.fst) h'
  rw [hcut] at hrun
  exact hrun

/-- **Blocks leave no trace.**

A run that never leaves the scope where it starts and ends in that scope does what
its lasting operations do alone: they lead to the same table and have the same
answers.  In particular, a block that declares nothing in the outermost scope
restores the table, and whoever leaves all scopes keeps just what was declared in
the outermost one. -/
theorem run_eq_run_lasting {s : SymbolTable P} (hs : s.Reachable) :
    (∀ as : List (Action Name P),
      (∀ k ≤ as.length, s.depth ≤ (s.run (as.take k)).table.depth) →
      (s.run as).table.depth = s.depth →
      (s.run as).table = (s.run ((lasting s.depth s as).map Prod.fst)).table ∧
      (s.run ((lasting s.depth s as).map Prod.fst)).answer =
        (lasting s.depth s as).map Prod.snd) ∧
    (∀ body : List (Action Name P),
      (∀ n x, Action.declareGlobal n x ∉ body) →
      (∀ k ≤ body.length, s.depth < (s.enter.table.run (body.take k)).table.depth) →
      (s.enter.table.run body).table.depth = s.depth + 1 →
      (s.enter.table.run body).table.leave.table = s) ∧
    (∀ as : List (Action Name P),
      ((s.run as).table.run (List.replicate (s.run as).table.depth .leave)).table =
        ((s.run (List.replicate s.depth .leave)).table.run
          ((lasting 0 s as).map Prod.fst)).table) := by
  obtain ⟨b, h⟩ := hs.exists_represents
  refine ⟨?_, ?_, ?_⟩
  · intro as hdeep hend
    -- at the depth where the run starts and ends, nothing is cut off
    have hstart : b.cut s.depth = b := BlockTable.cut_of_depth_eq h.depth.symm
    have hfinish : (b.run as).2.cut s.depth = (b.run as).2 :=
      BlockTable.cut_of_depth_eq ((h.depth_run as).symm.trans hend)
    obtain ⟨hanswer, hlasting⟩ := h.run_lasting (hstart.symm ▸ h) hdeep
    rw [hfinish] at hlasting
    exact ⟨(Represents.run as h).2.unique hlasting, hanswer⟩
  · intro body hlocal hdeep hend
    -- entering is cut off again, nothing of the body lasts, and leaving cuts it off
    have henter := h.enter
    have hstart : ({ b with inner := [] :: b.inner } : BlockTable Name P).cut s.depth = b := by
      rw [BlockTable.cut_cons (Nat.le_of_eq h.depth), BlockTable.cut_of_depth_eq h.depth.symm]
    have hblocks : ∀ k ≤ body.length,
        s.depth < (({ b with inner := [] :: b.inner } : BlockTable Name P).run
          (body.take k)).2.depth := by
      intro k hk
      rw [← henter.depth_run]
      exact hdeep k hk
    have hnil : lasting s.depth s.enter.table body = [] := by
      rw [henter.lasting_eq, BlockTable.lasting_eq_nil body _ hblocks hlocal]
    obtain ⟨-, hlasting⟩ := henter.run_lasting (hstart.symm ▸ h)
      fun k hk => Nat.le_of_lt (hdeep k hk)
    rw [hnil] at hlasting
    obtain ⟨-, hbody⟩ := Represents.run body henter
    obtain ⟨-, hleave⟩ := hbody.leave
    rw [BlockTable.step_leave_eq_cut (hbody.depth.symm.trans hend)] at hleave
    exact hleave.unique hlasting
  · intro as
    obtain ⟨-, hlasting⟩ := h.run_lasting h.leave_all fun k _ => Nat.zero_le _
    obtain ⟨-, hrun⟩ := Represents.run as h
    exact hrun.leave_all.unique hlasting

/-- A table that is open in a scope that shadows an outer name. -/
def shadowing : SymbolTable fun _ => Nat :=
  ((new : SymbolTable fun _ => Nat).run
    [.declare ⟨7⟩ ⟨.var, 1⟩, .enter, .declare ⟨7⟩ ⟨.var, 2⟩]).table

/-- A walk through an inner block, with late global declarations and with
declarations that are refused. -/
def walk : List (Action Name fun _ => Nat) :=
  [.enter, .declare ⟨7⟩ ⟨.var, 3⟩, .declareGlobal ⟨8⟩ ⟨.var, 4⟩, .declareGlobal ⟨7⟩ ⟨.var, 5⟩,
    .leave, .declare ⟨7⟩ ⟨.var, 6⟩, .declare ⟨9⟩ ⟨.func, 7⟩]

theorem run_eq_run_lasting_walk :
    shadowing.Reachable ∧
    (∀ k ≤ walk.length, shadowing.depth ≤ (shadowing.run (walk.take k)).table.depth) ∧
    (shadowing.run walk).table.depth = shadowing.depth ∧
    (shadowing.run walk).table =
      (shadowing.run [.declareGlobal ⟨8⟩ ⟨.var, 4⟩, .declareGlobal ⟨7⟩ ⟨.var, 5⟩,
        .declare ⟨7⟩ ⟨.var, 6⟩, .declare ⟨9⟩ ⟨.func, 7⟩]).table ∧
    (lasting shadowing.depth shadowing walk).map Prod.snd =
      [.ok (), .error (.redeclared ⟨.var, ⟨7⟩⟩ 0), .error (.redeclared ⟨.var, ⟨7⟩⟩ 1), .ok ()] ∧
    (shadowing.enter.table.run [.declare ⟨7⟩ ⟨.var, 3⟩, .enter, .leave]).table.leave.table =
      shadowing := by
  have hs : shadowing.Reachable := ⟨_, rfl⟩
  have hdeep : ∀ k ≤ walk.length,
      shadowing.depth ≤ (shadowing.run (walk.take k)).table.depth := by decide
  have hend : (shadowing.run walk).table.depth = shadowing.depth := by decide
  obtain ⟨herase, hblock, -⟩ := run_eq_run_lasting hs
  refine ⟨hs, hdeep, hend, (herase walk hdeep hend).1, rfl, ?_⟩
  exact hblock [.declare ⟨7⟩ ⟨.var, 3⟩, .enter, .leave] (by simp) (by decide) (by decide)

end SymbolTable
end ShaderSymbols
