import ShaderSymbols.Scope.Request

/-!
# Scopes open and close like brackets

A scope stack keeps the outermost frame apart from the others, and the innermost of those
in front.  What the frames hold can be told without any of this, from the requests alone:
to enter and to leave are brackets, and a frame holds what was noted between its brackets
and outside all others inside them.  Only the outermost frame has no brackets; what is
noted for it from elsewhere goes there too.

## Main definitions

* `ScopeRequest.balanced d rs` — the brackets of `rs` match, and `d` of them that close
  match none in `rs`.
* `ScopeRequest.noted d h rs` — what `rs`, made from depth `h` on, note in the frame at
  depth `d`.
* `ScopeStack.Graded` — the frames of a stack have the depths 0, 1, 2 and so on.
* `ScopeStack.Bracketed rs s` — `s` is what the requests `rs` call for.

## Main results

* `ScopeStack.Graded.performAll` — every stack that can come about is graded.
* `ScopeStack.Graded.declaredKeys_performAll` — while a scope is open, its frame gains what is
  noted for it and nothing else.
* `ScopeStack.exists_enter_current` — the current frame holds what was noted in it since
  the one bracket that matches.
* `ScopeStack.bracketed_performAll` — **a stack is what its brackets call for.**
-/

namespace ShaderSymbols

variable {ν : Type}

/-! ### Brackets -/

namespace ScopeRequest

/-- The depth after a request that is made at depth `h`. -/
def depthAfter (h : Nat) : ScopeRequest ν → Nat
  | .enter => h + 1
  | .leave => h - 1
  | .note _ | .noteOutermost _ => h

/-- `balanced d rs` says that all scopes entered by `rs` are left again, and so are `d`
scopes that were open before and no more. -/
def balanced : Nat → List (ScopeRequest ν) → Bool
  | d, [] => d == 0
  | d, .enter :: rs => balanced (d + 1) rs
  | 0, .leave :: _ => false
  | d + 1, .leave :: rs => balanced d rs
  | d, .note _ :: rs => balanced d rs
  | d, .noteOutermost _ :: rs => balanced d rs

/-- What a request at depth `h` notes in the frame at depth `d`. -/
def notes (d h : Nat) : ScopeRequest ν → List (Key ν)
  | .enter | .leave => []
  | .note k => if h = d then [k] else []
  | .noteOutermost k => if d = 0 then [k] else []

/-- What requests, the first of them at depth `h`, note in the frame at depth `d`, in
order. -/
def noted (d : Nat) : Nat → List (ScopeRequest ν) → List (Key ν)
  | _, [] => []
  | h, r :: rs => r.notes d h ++ noted d (r.depthAfter h) rs

@[simp] theorem noted_nil (d h : Nat) : noted d h ([] : List (ScopeRequest ν)) = [] := rfl

@[simp] theorem noted_cons (d h : Nat) (r : ScopeRequest ν) (rs : List (ScopeRequest ν)) :
    noted d h (r :: rs) = r.notes d h ++ noted d (r.depthAfter h) rs := rfl

/-- The first of some balanced requests leaves the others balanced, and the depth changes
by what they still have to close. -/
theorem exists_balanced_tail {d : Nat} {r : ScopeRequest ν} {rs : List (ScopeRequest ν)}
    (h : balanced d (r :: rs)) : ∃ d', balanced d' rs ∧ ∀ c, r.depthAfter (c + d) = c + d' := by
  cases r with
  | enter => exact ⟨d + 1, h, fun c => rfl⟩
  | leave =>
    cases d with
    | zero => cases h
    | succ d => exact ⟨d, h, fun c => rfl⟩
  | note k => exact ⟨d, h, fun c => rfl⟩
  | noteOutermost k => exact ⟨d, h, fun c => rfl⟩

/-- Requests determine what they are balanced against. -/
theorem balanced_inj : ∀ {rs : List (ScopeRequest ν)} {d d' : Nat},
    balanced d rs → balanced d' rs → d = d' := by
  intro rs
  induction rs with
  | nil =>
    intro d d' h h'
    exact (beq_iff_eq.mp h).trans (beq_iff_eq.mp h').symm
  | cons r rs ih =>
    intro d d' h h'
    obtain ⟨e, he, hd⟩ := exists_balanced_tail h
    obtain ⟨e', he', hd'⟩ := exists_balanced_tail h'
    obtain rfl := ih he he'
    -- above depth 0 a request moves all depths alike
    have hsame : r.depthAfter (1 + d) = r.depthAfter (1 + d') := (hd 1).trans (hd' 1).symm
    cases r <;> simp only [depthAfter] at hsame <;> omega

/-- What comes last of some balanced requests is balanced. -/
theorem exists_balanced_of_append : ∀ {rs rs' : List (ScopeRequest ν)} {d : Nat},
    balanced d (rs ++ rs') → ∃ d', balanced d' rs' := by
  intro rs
  induction rs with
  | nil =>
    intro rs' d h
    exact ⟨d, h⟩
  | cons r rs ih =>
    intro rs' d h
    obtain ⟨e, he, -⟩ := exists_balanced_tail h
    exact ih he

/-- An open bracket comes last at one place only. -/
theorem not_balanced_append_enter {rs inner : List (ScopeRequest ν)} (h : balanced 0 inner) :
    ¬ balanced 0 (rs ++ .enter :: inner) := by
  intro h'
  obtain ⟨d, hd⟩ := exists_balanced_of_append h'
  exact Nat.succ_ne_zero d (balanced_inj (d := d + 1) hd h)

theorem eq_nil_of_balanced {l inner inner' : List (ScopeRequest ν)}
    (heq : .enter :: inner = l ++ .enter :: inner') (h : balanced 0 inner)
    (h' : balanced 0 inner') : l = [] := by
  cases l with
  | nil => rfl
  | cons r l =>
    obtain ⟨-, rfl⟩ := List.cons.inj heq
    exact absurd h (not_balanced_append_enter h')

/-- The bracket that matches is the only one. -/
theorem enter_unique {before inner before' inner' : List (ScopeRequest ν)}
    (heq : before ++ .enter :: inner = before' ++ .enter :: inner') (h : balanced 0 inner)
    (h' : balanced 0 inner') : before = before' ∧ inner = inner' := by
  rcases List.append_eq_append_iff.mp heq with ⟨l, hl, hl'⟩ | ⟨l, hl, hl'⟩
  · obtain rfl := eq_nil_of_balanced hl' h h'
    exact ⟨by rw [hl, List.append_nil], (List.cons.inj hl').2⟩
  · obtain rfl := eq_nil_of_balanced hl' h' h
    exact ⟨by rw [hl, List.append_nil], (List.cons.inj hl').2.symm⟩

end ScopeRequest

namespace ScopeStack

open ScopeRequest

variable {s : ScopeStack ν} {rs : List (ScopeRequest ν)} {d : Nat}

/-! ### Depths -/

/-- The frames have the depths 0, 1, 2 and so on, outermost first. -/
def Graded (s : ScopeStack ν) : Prop := s.frames.map Frame.depth = List.range (s.inner.length + 1)

theorem graded_new : (new : ScopeStack ν).Graded := rfl

/-- In a graded stack the depth counts the frames inside the outermost one. -/
theorem Graded.depth_eq (h : s.Graded) : s.depth = s.inner.length := by
  obtain ⟨inner, outermost⟩ := s
  rw [Graded, List.range_succ] at h
  cases inner with
  | nil => exact (List.cons.inj h).1
  | cons f fs =>
    rw [frames, List.reverse_cons, ← List.cons_append, List.map_append] at h
    exact (List.cons.inj (List.append_inj_right' h rfl)).1

theorem Graded.enter (h : s.Graded) : s.enter.Graded := by
  have hlength : s.enter.inner.length = s.inner.length + 1 := rfl
  rw [Graded, frames_enter, List.map_append, h, List.map_singleton, Frame.depth_new, h.depth_eq,
    hlength, List.range_succ (n := s.inner.length + 1)]

theorem Graded.leave {s' : ScopeStack ν} {f : Frame ν} (h : s.Graded)
    (hs : s.leave = .ok (f, s')) : s'.Graded := by
  have hlength : s.inner.length = s'.inner.length + 1 := by
    rw [leave_eq_ok_iff.mp hs, List.length_cons]
  rw [Graded, frames_of_leave hs, hlength, List.range_succ, List.map_append] at h
  exact List.append_inj_left' h rfl

theorem map_depth_frames_note (s : ScopeStack ν) (k : Key ν) :
    (s.note k).frames.map Frame.depth = s.frames.map Frame.depth := by
  obtain ⟨inner, outermost⟩ := s
  cases inner <;> simp [note, noteOutermost, frames]

theorem length_inner_note (s : ScopeStack ν) (k : Key ν) :
    (s.note k).inner.length = s.inner.length := by
  obtain ⟨inner, outermost⟩ := s
  cases inner <;> rfl

theorem Graded.perform (h : s.Graded) (r : ScopeRequest ν) : (s.perform r).Graded := by
  cases r with
  | enter => exact h.enter
  | leave =>
    cases hs : s.leave with
    | error e =>
      rw [perform_leave_nil (leave_eq_error_iff.mp hs).1]
      exact h
    | ok p =>
      rw [perform_of_leave hs]
      exact h.leave hs
  | note k =>
    rw [ScopeStack.perform, Graded, map_depth_frames_note, length_inner_note]
    exact h
  | noteOutermost k => exact h

/-- **Every stack that can come about is graded.** -/
theorem Graded.performAll (h : s.Graded) (rs : List (ScopeRequest ν)) :
    (s.performAll rs).Graded := by
  induction rs generalizing s with
  | nil => exact h
  | cons r rs ih => exact ih (h.perform r)

theorem Graded.depth_perform (h : s.Graded) (r : ScopeRequest ν) :
    (s.perform r).depth = r.depthAfter s.depth := by
  cases r with
  | enter => rfl
  | leave =>
    rw [(h.perform .leave).depth_eq, h.depth_eq]
    obtain ⟨inner, outermost⟩ := s
    cases inner <;> rfl
  | note k => exact depth_note s k
  | noteOutermost k => exact depth_noteOutermost s k

theorem Graded.depth_add_perform (h : s.Graded) (r : ScopeRequest ν) :
    (s.perform r).depth + (if (s.reply r).frame?.isSome then 1 else 0) =
      s.depth + if r.isEnter then 1 else 0 := by
  rw [h.depth_perform]
  cases r with
  | enter => rfl
  | leave =>
    rw [h.depth_eq]
    obtain ⟨inner, outermost⟩ := s
    cases inner <;> rfl
  | note k => rfl
  | noteOutermost k => rfl

/-- The depth counts the scopes that were entered and not left. -/
theorem Graded.depth_add_performAll (h : s.Graded) (rs : List (ScopeRequest ν)) :
    (s.performAll rs).depth + (s.replies rs).countP (·.frame?.isSome) =
      s.depth + rs.countP (·.isEnter) := by
  induction rs generalizing s with
  | nil => rfl
  | cons r rs ih =>
    have hfirst := h.depth_add_perform r
    have hrest := ih (h.perform r)
    rw [performAll_cons, replies_cons, List.countP_cons, List.countP_cons]
    omega

/-! ### What is noted -/

/-- The keys of the innermost frame are found at its depth. -/
theorem Graded.declaredKeys_depth (h : s.Graded) :
    s.declaredKeys[s.depth]? = some s.current.declared := by
  have hlast : s.declaredKeys.length - 1 = s.depth := by
    rw [length_declaredKeys, h.depth_eq, Nat.add_sub_cancel]
  have hne : s.declaredKeys ≠ [] := List.ne_nil_of_length_pos (by rw [length_declaredKeys]; omega)
  rw [← hlast, ← List.getLast?_eq_getElem?, List.getLast?_eq_some_getLast hne,
    ← getLastD_declaredKeys, List.getLastD_eq_getLast?, List.getLast?_eq_some_getLast hne,
    Option.getD_some]

/-- **One request adds to a frame what it notes for it.**  The frame has to be there before
and after. -/
theorem Graded.declaredKeys_perform (h : s.Graded) (r : ScopeRequest ν) (hd : d ≤ s.depth)
    (hd' : d ≤ (s.perform r).depth) :
    (s.perform r).declaredKeys[d]? = s.declaredKeys[d]?.map (· ++ r.notes d s.depth) := by
  have hlength : s.declaredKeys.length = s.depth + 1 := by rw [length_declaredKeys, h.depth_eq]
  cases r with
  | enter =>
    rw [ScopeStack.perform, declaredKeys_enter, List.getElem?_append_left (by omega)]
    simp [notes]
  | leave =>
    cases hs : s.leave with
    | error e =>
      rw [perform_leave_nil (leave_eq_error_iff.mp hs).1]
      simp [notes]
    | ok p =>
      rw [perform_of_leave hs] at hd' ⊢
      have hlength' : p.2.declaredKeys.length = p.2.depth + 1 := by
        rw [length_declaredKeys, (h.leave hs).depth_eq]
      have hsplit : s.declaredKeys = p.2.declaredKeys ++ [p.1.declared] := by
        rw [declaredKeys, frames_of_leave hs, List.map_append, List.map_singleton, declaredKeys]
      rw [hsplit, List.getElem?_append_left (by omega)]
      simp [notes]
  | note k =>
    rw [ScopeStack.perform, declaredKeys_note, List.getElem?_modify, hlength, Nat.add_sub_cancel]
    by_cases hk : s.depth = d <;> simp [notes, hk]
  | noteOutermost k =>
    rw [ScopeStack.perform, declaredKeys_noteOutermost, List.getElem?_modify]
    by_cases hk : d = 0 <;> simp [notes, hk, eq_comm]

/-- **While a scope is open, its frame gains what is noted for it** and nothing else. -/
theorem Graded.declaredKeys_performAll (h : s.Graded)
    (hopen : ∀ l, l <+: rs → d ≤ (s.performAll l).depth) :
    (s.performAll rs).declaredKeys[d]? = s.declaredKeys[d]?.map (· ++ noted d s.depth rs) := by
  induction rs generalizing s with
  | nil => simp
  | cons r rs ih =>
    have hnow : d ≤ s.depth := hopen [] List.nil_prefix
    have hnext : d ≤ (s.perform r).depth := hopen [r] (List.prefix_append [r] rs)
    have hrest : ∀ l, l <+: rs → d ≤ ((s.perform r).performAll l).depth :=
      fun l hl => hopen (r :: l) (List.cons_prefix_cons.mpr ⟨rfl, hl⟩)
    rw [performAll_cons, ih (h.perform r) hrest, h.declaredKeys_perform r hnow hnext,
      h.depth_perform, noted_cons, Option.map_map]
    refine congrArg (Option.map · _) (funext fun ks => ?_)
    exact List.append_assoc ..

/-- Balanced requests leave open the scopes that they do not close. -/
theorem Graded.le_depth_of_balanced (h : s.Graded) {e : Nat} (hdepth : s.depth = d + e)
    (hb : balanced e rs) {l : List (ScopeRequest ν)} (hl : l <+: rs) :
    d ≤ (s.performAll l).depth := by
  induction rs generalizing s e l with
  | nil =>
    rw [List.prefix_nil.mp hl, performAll_nil]
    omega
  | cons r rs ih =>
    cases l with
    | nil => rw [performAll_nil]; omega
    | cons r' l =>
      obtain ⟨rfl, hl'⟩ := List.cons_prefix_cons.mp hl
      obtain ⟨e', hb', hafter⟩ := exists_balanced_tail hb
      have hnext : (s.perform r').depth = d + e' := by rw [h.depth_perform, hdepth, hafter]
      exact ih (h.perform r') hnext hb' hl'

theorem Graded.depth_of_balanced (h : s.Graded) {e : Nat} (hdepth : s.depth = d + e)
    (hb : balanced e rs) : (s.performAll rs).depth = d := by
  induction rs generalizing s e with
  | nil => rw [performAll_nil, hdepth, beq_iff_eq.mp hb, Nat.add_zero]
  | cons r rs ih =>
    obtain ⟨e', hb', hafter⟩ := exists_balanced_tail hb
    have hnext : (s.perform r).depth = d + e' := by rw [h.depth_perform, hdepth, hafter]
    exact ih (h.perform r) hnext hb'

/-! ### The matching bracket -/

/-- Requests that end inside the outermost scope either enter the scope in which they end,
or close all that lies between it and where they start. -/
theorem Graded.exists_enter_or_balanced (h : s.Graded) (hpos : 0 < (s.performAll rs).depth) :
    (∃ before inner, rs = before ++ .enter :: inner ∧ balanced 0 inner) ∨
      ∃ e, s.depth = (s.performAll rs).depth + e ∧ balanced e rs := by
  induction rs generalizing s with
  | nil => exact .inr ⟨0, rfl, rfl⟩
  | cons r rs ih =>
    rw [performAll_cons] at hpos ⊢
    rcases ih (h.perform r) hpos with ⟨before, inner, rfl, hb⟩ | ⟨e, hdepth, hb⟩
    · exact .inl ⟨r :: before, inner, rfl, hb⟩
    · rw [h.depth_perform] at hdepth
      cases r with
      | enter =>
        -- the scope in which they end may be the one just entered
        cases e with
        | zero => exact .inl ⟨[], rs, rfl, hb⟩
        | succ e => exact .inr ⟨e, Nat.succ_inj.mp hdepth, hb⟩
      | leave =>
        rw [depthAfter] at hdepth
        exact .inr ⟨e + 1, by omega, hb⟩
      | note k => exact .inr ⟨e, hdepth, hb⟩
      | noteOutermost k => exact .inr ⟨e, hdepth, hb⟩

/-- **A scope that is open was entered, and the brackets match since.** -/
theorem exists_enter (hpos : 0 < ((new : ScopeStack ν).performAll rs).depth) :
    ∃ before inner, rs = before ++ .enter :: inner ∧ balanced 0 inner := by
  rcases graded_new.exists_enter_or_balanced hpos with h | ⟨e, hdepth, -⟩
  · exact h
  · rw [depth_new] at hdepth
    omega

/-- The frame of a scope that was entered and is current again. -/
theorem Graded.current_of_balanced (h : s.Graded) (hb : balanced 0 rs) :
    (s.enter.performAll rs).current.depth = s.enter.depth ∧
    (s.enter.performAll rs).current.declared = noted s.enter.depth s.enter.depth rs := by
  have hstart : s.enter.depth = s.enter.depth + 0 := (Nat.add_zero _).symm
  have hdepth := h.enter.depth_of_balanced hstart hb
  have hkeys := h.enter.declaredKeys_performAll fun l => h.enter.le_depth_of_balanced hstart hb
  have hnew : s.enter.declaredKeys[s.enter.depth]? = some [] := by
    rw [h.enter.declaredKeys_depth, current_enter, Frame.declared_new]
  have hend := (h.enter.performAll rs).declaredKeys_depth
  rw [hdepth, hkeys, hnew, Option.map_some, List.nil_append, Option.some_inj] at hend
  exact ⟨hdepth, hend.symm⟩

/-- **The current frame, unless it is the outermost one, holds what was noted in it since
the one bracket that matches.** -/
theorem exists_enter_current (hpos : 0 < ((new : ScopeStack ν).performAll rs).depth) :
    ∃ before inner, (rs = before ++ .enter :: inner ∧ balanced 0 inner) ∧
      (∀ before' inner', rs = before' ++ .enter :: inner' ∧ balanced 0 inner' →
        before' = before ∧ inner' = inner) ∧
      (new.performAll rs).current.depth = (new.performAll (before ++ [.enter])).depth ∧
      (new.performAll rs).current.declared =
        noted (new.performAll rs).current.depth (new.performAll rs).current.depth inner := by
  obtain ⟨before, inner, rfl, hb⟩ := exists_enter hpos
  have hentered : (new : ScopeStack ν).performAll (before ++ [.enter]) =
      (new.performAll before).enter := performAll_append ..
  have hrun : (new : ScopeStack ν).performAll (before ++ .enter :: inner) =
      (new.performAll before).enter.performAll inner := performAll_append ..
  obtain ⟨hdepth, hdeclared⟩ := (graded_new.performAll before).current_of_balanced hb
  refine ⟨before, inner, ⟨rfl, hb⟩, ?_, ?_, ?_⟩
  · rintro before' inner' ⟨heq, hb'⟩
    exact enter_unique heq.symm hb' hb
  · rw [hrun, hentered, hdepth]
  · rw [hrun, hdepth, hdeclared]

/-! ### Runs -/

/-- The stack `s` is what the brackets of `rs` call for. -/
structure Bracketed (rs : List (ScopeRequest ν)) (s : ScopeStack ν) : Prop where
  /-- The depth is the number of scopes entered less the number of scopes left. -/
  depth_add : s.depth + ((new : ScopeStack ν).replies rs).countP (·.frame?.isSome) =
    rs.countP (·.isEnter)
  /-- The frames have the depths from 0 to the current one. -/
  depths : s.frames.map Frame.depth = List.range (s.depth + 1)
  /-- The outermost frame holds what was noted at depth 0, and what was noted for it
  anywhere. -/
  outermost : s.declaredKeys.head? = some (noted 0 0 rs)
  /-- To leave fails exactly if only the outermost frame is there. -/
  refused_iff : ∀ e, s.reply .leave = .left (.error e) ↔ s.frames.length = 1 ∧ e = .underflow
  /-- If it fails it changes nothing. -/
  unchanged : ∀ e, s.reply .leave = .left (.error e) → s.perform .leave = s
  /-- If it does not, there is one matching bracket.  The frame that is handed back has the
  depth to which this one led, and holds what was noted at that depth since. -/
  left : ∀ f, s.reply .leave = .left (.ok f) → ∃ before inner,
    (rs = before ++ .enter :: inner ∧ balanced 0 inner) ∧
    (∀ before' inner', rs = before' ++ .enter :: inner' ∧ balanced 0 inner' →
      before' = before ∧ inner' = inner) ∧
    f.depth = ((new : ScopeStack ν).performAll (before ++ [.enter])).depth ∧
    f.declared = noted f.depth f.depth inner

/-- **A stack is what its brackets call for.**  Whatever a stack was asked, its depth counts
the scopes entered and not left; the outermost frame holds what was noted at depth 0 or for
it; and a scope that is left hands back what was noted in it since it was entered, in order,
repeats included, and nothing from the scopes inside it or around it. -/
theorem bracketed_performAll (rs : List (ScopeRequest ν)) :
    Bracketed rs ((new : ScopeStack ν).performAll rs) := by
  have hgraded : ((new : ScopeStack ν).performAll rs).Graded := graded_new.performAll rs
  refine ⟨?_, ?_, ?_, fun e => ?_, fun e he => ?_, fun f hf => ?_⟩
  · rw [graded_new.depth_add_performAll, depth_new, Nat.zero_add]
  · rw [hgraded.depth_eq]
    exact hgraded
  · rw [List.head?_eq_getElem?, graded_new.declaredKeys_performAll fun l _ => Nat.zero_le _]
    rfl
  · rw [reply_leave_eq_error_iff, frames, List.length_cons, List.length_reverse, Nat.succ_inj,
      List.length_eq_zero_iff]
  · exact perform_leave_nil (reply_leave_eq_error_iff.mp he).1
  · obtain ⟨s', hs⟩ := reply_leave_eq_ok_iff.mp hf
    have hpos : 0 < ((new : ScopeStack ν).performAll rs).depth := by
      rw [hgraded.depth_eq, leave_eq_ok_iff.mp hs]
      exact Nat.succ_pos _
    rw [← current_of_leave hs]
    exact exists_enter_current hpos

/-- The inner scope hands back its own key alone, and the outer one its own, with the
repeat; the keys of a frame are kept newest first. -/
example :
    let a : Key Nat := ⟨.var, 3⟩
    let b : Key Nat := ⟨.type, 3⟩
    ((new : ScopeStack Nat).replies [.enter, .note a, .note b, .enter, .noteOutermost b, .note a,
      .leave, .note b, .leave, .leave]).filterMap ScopeReply.frame? =
        [⟨2, [a]⟩, ⟨1, [b, b, a]⟩] := by
  decide

end ScopeStack
end ShaderSymbols
