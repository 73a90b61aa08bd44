import ShaderSymbols.Scope.Error

/-!
# The scope stack

The scopes that enclose a point of a program, each with the keys declared in it.
There is always an outermost scope, at depth 0; it is kept apart from the scopes
entered inside it and can never be left.

Depths are natural numbers here and have no bound.  Where they are kept in 32-bit
words, what is proved of them is about runs with fewer than 2^32 scopes open at a
time: up to there a word counts as a number does.

## Main definitions

* `Frame ν` — one scope: its depth and its keys.
* `ScopeStack ν` — the outermost frame and the frames inside it.
* `ScopeStack.enter`, `ScopeStack.leave` — open and close the innermost scope.
* `ScopeStack.note`, `ScopeStack.noteOutermost` — note a key in the innermost
  or in the outermost frame.  Repeats are not refused here.
* `ScopeStack.frames` — all frames, outermost first.
* `ScopeStack.declaredKeys` — the keys of all frames, in the same order.
-/

namespace ShaderSymbols

variable {ν : Type}

/-! ### Frames -/

/-- One scope. -/
@[ext] structure Frame (ν : Type) where
  /-- How many scopes enclose it.  A 32-bit word holds this number as long as fewer than
  2^32 scopes are open at a time. -/
  depth : Nat
  /-- The keys noted in it, newest first. -/
  keys : List (Key ν)
  deriving DecidableEq, Repr

namespace Frame

/-- The frame of a scope in which nothing is declared yet. -/
def new (depth : Nat) : Frame ν := ⟨depth, []⟩

/-- Notes a key. -/
def note (f : Frame ν) (k : Key ν) : Frame ν := { f with keys := k :: f.keys }

/-- The keys in the order in which they were noted. -/
def declared (f : Frame ν) : List (Key ν) := f.keys.reverse

@[simp] theorem depth_new (depth : Nat) : (new depth : Frame ν).depth = depth := rfl

@[simp] theorem declared_new (depth : Nat) : (new depth : Frame ν).declared = [] := rfl

@[simp] theorem depth_note (f : Frame ν) (k : Key ν) : (f.note k).depth = f.depth := rfl

@[simp] theorem declared_note (f : Frame ν) (k : Key ν) :
    (f.note k).declared = f.declared ++ [k] := by
  simp [note, declared]

@[simp] theorem mem_declared {f : Frame ν} {k : Key ν} : k ∈ f.declared ↔ k ∈ f.keys := by
  simp [declared]

@[simp] theorem length_declared (f : Frame ν) : f.declared.length = f.keys.length := by
  simp [declared]

end Frame

/-! ### Stacks -/

/-- The scopes that enclose a point. -/
@[ext] structure ScopeStack (ν : Type) where
  /-- The frames inside the outermost one, innermost first. -/
  inner : List (Frame ν)
  /-- The frame at depth 0. -/
  outermost : Frame ν
  deriving DecidableEq, Repr

namespace ScopeStack

/-- The outermost scope alone, with nothing in it. -/
def new : ScopeStack ν := ⟨[], .new 0⟩

/-- The innermost frame. -/
def current (s : ScopeStack ν) : Frame ν := s.inner.headD s.outermost

/-- The depth of the innermost frame. -/
def depth (s : ScopeStack ν) : Nat := s.current.depth

/-- All frames, outermost first. -/
def frames (s : ScopeStack ν) : List (Frame ν) := s.outermost :: s.inner.reverse

/-- The keys of all frames, outermost frame first and oldest key first. -/
def declaredKeys (s : ScopeStack ν) : List (List (Key ν)) := s.frames.map Frame.declared

/-- Enters a new scope.  Its depth is one more than the current one, with no bound; in
32-bit words the sum is the same as long as fewer than 2^32 scopes are open. -/
def enter (s : ScopeStack ν) : ScopeStack ν := { s with inner := .new (s.depth + 1) :: s.inner }

/-- Leaves the innermost scope and gives back its frame. -/
def leave (s : ScopeStack ν) : Except (ScopeError ν) (Frame ν × ScopeStack ν) :=
  match s.inner with
  | [] => .error .underflow
  | f :: fs => .ok (f, { s with inner := fs })

/-- Notes a key in the outermost frame. -/
def noteOutermost (s : ScopeStack ν) (k : Key ν) : ScopeStack ν :=
  { s with outermost := s.outermost.note k }

/-- Notes a key in the innermost frame. -/
def note (s : ScopeStack ν) (k : Key ν) : ScopeStack ν :=
  match s.inner with
  | [] => s.noteOutermost k
  | f :: fs => { s with inner := f.note k :: fs }

/-! ### Equations -/

@[simp] theorem current_new : (new : ScopeStack ν).current = .new 0 := rfl

@[simp] theorem depth_new : (new : ScopeStack ν).depth = 0 := rfl

@[simp] theorem frames_new : (new : ScopeStack ν).frames = [.new 0] := rfl

@[simp] theorem current_enter (s : ScopeStack ν) : s.enter.current = .new (s.depth + 1) := rfl

@[simp] theorem depth_enter (s : ScopeStack ν) : s.enter.depth = s.depth + 1 := rfl

@[simp] theorem frames_enter (s : ScopeStack ν) :
    s.enter.frames = s.frames ++ [.new (s.depth + 1)] := by
  simp [frames, enter]

/-- Leaving undoes entering. -/
@[simp] theorem leave_enter (s : ScopeStack ν) :
    s.enter.leave = .ok (.new (s.depth + 1), s) := rfl

@[simp] theorem current_note (s : ScopeStack ν) (k : Key ν) :
    (s.note k).current = s.current.note k := by
  obtain ⟨inner, outermost⟩ := s
  cases inner <;> rfl

@[simp] theorem depth_note (s : ScopeStack ν) (k : Key ν) : (s.note k).depth = s.depth := by
  simp [depth]

@[simp] theorem depth_noteOutermost (s : ScopeStack ν) (k : Key ν) :
    (s.noteOutermost k).depth = s.depth := by
  obtain ⟨inner, outermost⟩ := s
  cases inner <;> rfl

/-- At the outermost scope the two ways to note a key are one. -/
theorem noteOutermost_eq_note {s : ScopeStack ν} (h : s.inner = []) (k : Key ν) :
    s.noteOutermost k = s.note k := by
  simp [note, h]

theorem leave_eq_error_iff {s : ScopeStack ν} {e : ScopeError ν} :
    s.leave = .error e ↔ s.inner = [] ∧ e = .underflow := by
  obtain ⟨inner, outermost⟩ := s
  cases inner <;> simp [leave, eq_comm]

theorem leave_eq_ok_iff {s s' : ScopeStack ν} {f : Frame ν} :
    s.leave = .ok (f, s') ↔ s = ⟨f :: s'.inner, s'.outermost⟩ := by
  obtain ⟨inner, outermost⟩ := s
  cases inner with
  | nil => simp [leave]
  | cons g gs =>
    obtain ⟨inner', outermost'⟩ := s'
    simp [leave, and_assoc]

/-- The frame that is left is the innermost one. -/
theorem current_of_leave {s s' : ScopeStack ν} {f : Frame ν} (h : s.leave = .ok (f, s')) :
    s.current = f := by
  rw [leave_eq_ok_iff.mp h]
  rfl

/-- A frame that is left is the last of the frames. -/
theorem frames_of_leave {s s' : ScopeStack ν} {f : Frame ν} (h : s.leave = .ok (f, s')) :
    s.frames = s'.frames ++ [f] := by
  obtain ⟨inner, outermost⟩ := s
  cases inner with
  | nil => simp [leave] at h
  | cons g gs =>
    simp only [leave, Except.ok.injEq, Prod.mk.injEq] at h
    obtain ⟨rfl, rfl⟩ := h
    simp [frames]

/-! ### The keys of all frames -/

@[simp] theorem declaredKeys_new : (new : ScopeStack ν).declaredKeys = [[]] := rfl

theorem length_declaredKeys (s : ScopeStack ν) :
    s.declaredKeys.length = s.inner.length + 1 := by
  simp [declaredKeys, frames]

theorem headD_declaredKeys (s : ScopeStack ν) :
    s.declaredKeys.headD [] = s.outermost.declared := rfl

/-- The innermost frame comes last. -/
theorem declaredKeys_cons (f : Frame ν) (fs : List (Frame ν)) (o : Frame ν) :
    (⟨f :: fs, o⟩ : ScopeStack ν).declaredKeys =
      (⟨fs, o⟩ : ScopeStack ν).declaredKeys ++ [f.declared] := by
  simp [declaredKeys, frames]

theorem getLastD_declaredKeys (s : ScopeStack ν) :
    s.declaredKeys.getLastD [] = s.current.declared := by
  obtain ⟨inner, outermost⟩ := s
  cases inner with
  | nil => rfl
  | cons f fs =>
    rw [declaredKeys_cons, List.getLastD_concat]
    rfl

theorem declaredKeys_enter (s : ScopeStack ν) :
    s.enter.declaredKeys = s.declaredKeys ++ [[]] := by
  rw [enter, declaredKeys_cons, Frame.declared_new]

/-- The frame that is left is dropped. -/
theorem declaredKeys_of_leave {s s' : ScopeStack ν} {f : Frame ν} (h : s.leave = .ok (f, s')) :
    s'.declaredKeys = s.declaredKeys.dropLast := by
  rw [declaredKeys, declaredKeys, frames_of_leave h, List.map_append, List.map_singleton,
    List.dropLast_concat]

theorem declaredKeys_noteOutermost (s : ScopeStack ν) (k : Key ν) :
    (s.noteOutermost k).declaredKeys = s.declaredKeys.modify 0 (· ++ [k]) := by
  simp [declaredKeys, frames, noteOutermost]

theorem declaredKeys_note (s : ScopeStack ν) (k : Key ν) :
    (s.note k).declaredKeys =
      s.declaredKeys.modify (s.declaredKeys.length - 1) (· ++ [k]) := by
  obtain ⟨inner, outermost⟩ := s
  cases inner with
  | nil => exact declaredKeys_noteOutermost ⟨[], outermost⟩ k
  | cons f fs =>
    rw [note, declaredKeys_cons, declaredKeys_cons, Frame.declared_note, List.length_append,
      List.length_singleton, Nat.add_sub_cancel, List.modify_eq_take_drop, List.take_left,
      List.drop_left]
    rfl

end ScopeStack
end ShaderSymbols
