import ShaderSymbols.Scope.Stack

/-!
# Requests to a scope stack

The ways to use a scope stack, as data, so that whole histories can be run.  A scope
stack on its own refuses no key, so the only request that can fail is to leave.

## Main definitions

* `ScopeRequest ν` — one use of a scope stack.
* `ScopeReply ν`, `ScopeStack.reply` — what a request is answered with.
* `ScopeStack.perform`, `ScopeStack.performAll` — the stack after one request, or after a
  list of them.
* `ScopeStack.replies` — the answers to a list of requests.
-/

namespace ShaderSymbols

variable {ν : Type}

/-- One use of a scope stack. -/
inductive ScopeRequest (ν : Type) where
  /-- Enter a new scope. -/
  | enter
  /-- Leave the innermost scope. -/
  | leave
  /-- Note a key in the innermost frame. -/
  | note (k : Key ν)
  /-- Note a key in the outermost frame. -/
  | noteOutermost (k : Key ν)
  deriving DecidableEq, Repr

/-- Whether a request enters a scope. -/
def ScopeRequest.isEnter : ScopeRequest ν → Bool
  | .enter => true
  | .leave | .note _ | .noteOutermost _ => false

/-- What a request is answered with. -/
inductive ScopeReply (ν : Type) where
  /-- Nothing; the request cannot fail. -/
  | done
  /-- The frame of the scope that was left, or why none was. -/
  | left (r : Except (ScopeError ν) (Frame ν))

/-- The frame that is handed back. -/
def ScopeReply.frame? : ScopeReply ν → Option (Frame ν)
  | .left (.ok f) => some f
  | .left (.error _) | .done => none

namespace ScopeStack

/-- The answer to a request. -/
def reply (s : ScopeStack ν) : ScopeRequest ν → ScopeReply ν
  | .leave => .left (s.leave.map (·.1))
  | .enter | .note _ | .noteOutermost _ => .done

/-- The stack that leaving gives back, or the one before if it failed. -/
def after (s : ScopeStack ν) : Except (ScopeError ν) (Frame ν × ScopeStack ν) → ScopeStack ν
  | .ok (_, s') => s'
  | .error _ => s

/-- The stack after a request. -/
def perform (s : ScopeStack ν) : ScopeRequest ν → ScopeStack ν
  | .enter => s.enter
  | .leave => s.after s.leave
  | .note k => s.note k
  | .noteOutermost k => s.noteOutermost k

/-- The stack after a list of requests. -/
def performAll (s : ScopeStack ν) (rs : List (ScopeRequest ν)) : ScopeStack ν :=
  rs.foldl perform s

/-- The answers to a list of requests, in the same order. -/
def replies (s : ScopeStack ν) : List (ScopeRequest ν) → List (ScopeReply ν)
  | [] => []
  | r :: rs => s.reply r :: (s.perform r).replies rs

/-! ### Equations -/

@[simp] theorem performAll_nil (s : ScopeStack ν) : s.performAll [] = s := rfl

@[simp] theorem performAll_cons (s : ScopeStack ν) (r : ScopeRequest ν)
    (rs : List (ScopeRequest ν)) : s.performAll (r :: rs) = (s.perform r).performAll rs := rfl

theorem performAll_append (s : ScopeStack ν) (rs rs' : List (ScopeRequest ν)) :
    s.performAll (rs ++ rs') = (s.performAll rs).performAll rs' :=
  List.foldl_append

@[simp] theorem replies_nil (s : ScopeStack ν) : s.replies [] = [] := rfl

@[simp] theorem replies_cons (s : ScopeStack ν) (r : ScopeRequest ν)
    (rs : List (ScopeRequest ν)) :
    s.replies (r :: rs) = s.reply r :: (s.perform r).replies rs := rfl

theorem perform_leave_nil {s : ScopeStack ν} (h : s.inner = []) : s.perform .leave = s := by
  rw [perform, leave_eq_error_iff.mpr ⟨h, rfl⟩, after]

theorem perform_of_leave {s s' : ScopeStack ν} {f : Frame ν} (h : s.leave = .ok (f, s')) :
    s.perform .leave = s' := by
  rw [perform, h, after]

theorem reply_leave_eq_ok_iff {s : ScopeStack ν} {f : Frame ν} :
    s.reply .leave = .left (.ok f) ↔ ∃ s', s.leave = .ok (f, s') := by
  rw [reply]
  cases h : s.leave with
  | error e => simp [Except.map]
  | ok p =>
    obtain ⟨g, s'⟩ := p
    simp [Except.map]

theorem reply_leave_eq_error_iff {s : ScopeStack ν} {e : ScopeError ν} :
    s.reply .leave = .left (.error e) ↔ s.inner = [] ∧ e = .underflow := by
  rw [← leave_eq_error_iff, reply]
  cases s.leave <;> simp [Except.map]

end ScopeStack
end ShaderSymbols
