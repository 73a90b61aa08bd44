import Mathlib.Logic.Equiv.Defs
import ShaderSymbols.Proofs.Brackets

/-!
# Two layouts of a scope stack

There is always a scope, so one frame of a stack stands apart from the list of the others.
In `ScopeStack` it is the outermost one, which is never left.  It might as well be the
innermost one, which nearly all operations are about.  Then entering moves the current frame
to the end of the list, leaving takes it from there again, a note for the current scope
never looks at the list, and a note for the outermost scope has to ask whether the list
holds any frame.

Nothing of this shows.  The two layouts are one up to a change of coordinates, which
commutes with every operation, so that all requests are answered alike.

## Main definitions

* `SplitStack ν` — the current frame and the list of the frames around it, with the
  operations on them.
* `SplitStack.step`, `SplitStack.run` — the answer to one request, or to a list, with the
  stack afterwards.
* `ScopeStack.split`, `SplitStack.join` — from one layout to the other and back.

## Main results

* `ScopeStack.splitEquiv` — each stack of one layout is one stack of the other.
* `ScopeStack.split_enter`, `ScopeStack.split_leave`, `ScopeStack.split_note`,
  `ScopeStack.split_noteOutermost` — every operation does the same in both.
* `ScopeStack.run_split` — **both layouts answer all requests alike and stay in step.**
* `ScopeStack.Graded.toNat_succ_depth` — the next depth is the same in 32-bit words while
  fewer than 2^32 scopes are open.
-/

namespace ShaderSymbols

variable {ν : Type}

/-! ### The innermost frame apart -/

/-- The scopes that enclose a point, the innermost one apart. -/
@[ext] structure SplitStack (ν : Type) where
  /-- The innermost frame. -/
  current : Frame ν
  /-- The frames around it, outermost first. -/
  outer : List (Frame ν)
  deriving DecidableEq, Repr

namespace SplitStack

/-- The outermost scope alone, with nothing in it. -/
def new : SplitStack ν := ⟨.new 0, []⟩

/-- All frames, outermost first. -/
def frames (s : SplitStack ν) : List (Frame ν) := s.outer ++ [s.current]

/-- Enters a new scope, whose frame takes the place of the current one. -/
def enter (s : SplitStack ν) : SplitStack ν :=
  ⟨.new (s.current.depth + 1), s.outer ++ [s.current]⟩

/-- Leaves the innermost scope and gives back its frame.  The last of the frames around it
takes its place. -/
def leave (s : SplitStack ν) : Except (ScopeError ν) (Frame ν × SplitStack ν) :=
  match s.outer.getLast? with
  | none => .error .underflow
  | some parent => .ok (s.current, ⟨parent, s.outer.dropLast⟩)

/-- Notes a key in the innermost frame. -/
def note (s : SplitStack ν) (k : Key ν) : SplitStack ν := { s with current := s.current.note k }

/-- Notes a key in the outermost frame, which is the current one if there is no other. -/
def noteOutermost (s : SplitStack ν) (k : Key ν) : SplitStack ν :=
  match s.outer with
  | [] => s.note k
  | f :: fs => { s with outer := f.note k :: fs }

/-- The answer to a request, and the stack afterwards. -/
def step (s : SplitStack ν) : ScopeRequest ν → ScopeReply ν × SplitStack ν
  | .enter => (.done, s.enter)
  | .leave =>
    match s.leave with
    | .error e => (.left (.error e), s)
    | .ok (f, s') => (.left (.ok f), s')
  | .note k => (.done, s.note k)
  | .noteOutermost k => (.done, s.noteOutermost k)

/-- The answers to a list of requests in the same order, and the stack afterwards. -/
def run (s : SplitStack ν) : List (ScopeRequest ν) → List (ScopeReply ν) × SplitStack ν
  | [] => ([], s)
  | r :: rs =>
    let first := s.step r
    let rest := first.2.run rs
    (first.1 :: rest.1, rest.2)

/-- The same frames with the outermost one apart. -/
def join (s : SplitStack ν) : ScopeStack ν :=
  match s.outer with
  | [] => ⟨[], s.current⟩
  | o :: fs => ⟨s.current :: fs.reverse, o⟩

end SplitStack

namespace ScopeStack

/-! ### From one layout to the other -/

/-- The same frames with the innermost one apart. -/
def split (s : ScopeStack ν) : SplitStack ν :=
  match s.inner with
  | [] => ⟨s.outermost, []⟩
  | f :: fs => ⟨f, s.outermost :: fs.reverse⟩

@[simp] theorem join_split (s : ScopeStack ν) : s.split.join = s := by
  obtain ⟨inner, outermost⟩ := s
  cases inner with
  | nil => rfl
  | cons f fs =>
    show (⟨f :: fs.reverse.reverse, outermost⟩ : ScopeStack ν) = _
    rw [List.reverse_reverse]

@[simp] theorem split_join (s : SplitStack ν) : s.join.split = s := by
  obtain ⟨current, outer⟩ := s
  cases outer with
  | nil => rfl
  | cons o fs =>
    show (⟨current, o :: fs.reverse.reverse⟩ : SplitStack ν) = _
    rw [List.reverse_reverse]

/-- **Each stack of one layout is one stack of the other.** -/
def splitEquiv : ScopeStack ν ≃ SplitStack ν where
  toFun := split
  invFun := SplitStack.join
  left_inv := join_split
  right_inv := split_join

/-! ### One operation in both layouts -/

theorem split_new : (new : ScopeStack ν).split = .new := rfl

theorem current_split (s : ScopeStack ν) : s.split.current = s.current := by
  obtain ⟨inner, outermost⟩ := s
  cases inner <;> rfl

theorem frames_split (s : ScopeStack ν) : s.split.frames = s.frames := by
  obtain ⟨inner, outermost⟩ := s
  cases inner with
  | nil => rfl
  | cons f fs =>
    show outermost :: fs.reverse ++ [f] = outermost :: (f :: fs).reverse
    rw [List.reverse_cons, List.cons_append]

/-- The new list of surrounding frames is that of all frames before. -/
theorem split_enter (s : ScopeStack ν) : s.enter.split = s.split.enter := by
  have hframes := s.frames_split
  rw [SplitStack.frames] at hframes
  rw [SplitStack.enter, hframes, current_split]
  rfl

/-- Both give back the same frame, or fail together. -/
theorem split_leave (s : ScopeStack ν) :
    s.split.leave = s.leave.map fun left => (left.1, left.2.split) := by
  obtain ⟨inner, outermost⟩ := s
  rcases inner with _ | ⟨f, _ | ⟨g, gs⟩⟩
  · rfl
  · rfl
  · -- the frame before the last one is at the end of the list of the others
    have hlast : (outermost :: (g :: gs).reverse).getLast? = some g := by
      rw [List.reverse_cons, ← List.cons_append, List.getLast?_concat]
    have hothers : (outermost :: (g :: gs).reverse).dropLast = outermost :: gs.reverse := by
      rw [List.reverse_cons, ← List.cons_append, List.dropLast_concat]
    rw [split, SplitStack.leave, hlast, hothers]
    rfl

theorem split_note (s : ScopeStack ν) (k : Key ν) : (s.note k).split = s.split.note k := by
  obtain ⟨inner, outermost⟩ := s
  cases inner <;> rfl

theorem split_noteOutermost (s : ScopeStack ν) (k : Key ν) :
    (s.noteOutermost k).split = s.split.noteOutermost k := by
  obtain ⟨inner, outermost⟩ := s
  cases inner <;> rfl

/-! ### Runs -/

/-- Both layouts answer a request alike and stay in step. -/
theorem step_split (s : ScopeStack ν) (r : ScopeRequest ν) :
    s.split.step r = (s.reply r, (s.perform r).split) := by
  cases r with
  | enter =>
    rw [SplitStack.step, ← split_enter]
    rfl
  | leave =>
    rw [SplitStack.step, split_leave, reply, perform]
    cases s.leave <;> rfl
  | note k =>
    rw [SplitStack.step, ← split_note]
    rfl
  | noteOutermost k =>
    rw [SplitStack.step, ← split_noteOutermost]
    rfl

/-- **Both layouts answer all requests alike and stay in step.** -/
theorem run_split (s : ScopeStack ν) (rs : List (ScopeRequest ν)) :
    s.split.run rs = (s.replies rs, (s.performAll rs).split) := by
  induction rs generalizing s with
  | nil => rfl
  | cons r rs ih => rw [SplitStack.run, step_split, ih, replies_cons, performAll_cons]

/-- The same frames are open after the same requests. -/
theorem frames_run_new (rs : List (ScopeRequest ν)) :
    ((SplitStack.new : SplitStack ν).run rs).2.frames =
      ((new : ScopeStack ν).performAll rs).frames := by
  rw [← split_new, run_split, frames_split]

/-! ### Depths in words -/

/-- While fewer than 2^32 scopes are open, the next depth is the same in 32-bit words. -/
theorem Graded.toNat_succ_depth {s : ScopeStack ν} (h : s.Graded)
    (hopen : s.frames.length < UInt32.size) :
    (UInt32.ofNat s.depth + 1).toNat = s.enter.depth := by
  have hlt : s.depth + 1 < UInt32.size := by
    rw [h.depth_eq]
    simpa [frames] using hopen
  rw [depth_enter, ← UInt32.ofNat_one, ← UInt32.ofNat_add, UInt32.toNat_ofNat_of_lt' hlt]

end ScopeStack
end ShaderSymbols
