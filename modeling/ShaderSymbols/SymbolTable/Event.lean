import ShaderSymbols.Name
import ShaderSymbols.Scope.Key

/-!
# The event log of a symbol table

Every operation that may change a symbol table reports what it did, as an event
for a log.  An event has a level, a fixed message and named fields.

## Main definitions

* `Event` — what an operation may report.
* `Event.level`, `Event.message`, `Event.fields` — how it reads in the log.
* `Event.replay` — the declared keys of all scopes, rebuilt from the log alone.
-/

namespace ShaderSymbols

/-- What an operation on a symbol table did. -/
inductive Event where
  /-- A scope was entered; it has this depth. -/
  | entered (depth : Nat)
  /-- The scope of this depth was left, which hid so many declarations. -/
  | left (depth hidden : Nat)
  /-- The outermost scope was to be left. -/
  | underflowed
  /-- A key was declared in the current scope, of this depth. -/
  | declared (key : Key Name) (depth : Nat)
  /-- The current scope already declares the key. -/
  | refused (key : Key Name) (depth : Nat)
  /-- A key was declared in the outermost scope. -/
  | declaredGlobal (key : Key Name)
  /-- The outermost scope already declares the key. -/
  | refusedGlobal (key : Key Name)
  deriving DecidableEq, Repr

/-- How much an event matters. -/
inductive Level where
  /-- Ordinary progress. -/
  | trace
  /-- A mistake in the shader. -/
  | debug
  /-- A mistake in whoever walks the shader. -/
  | error
  deriving DecidableEq, Repr

/-- The value of a field in the log. -/
inductive FieldValue where
  | number (n : Nat)
  | text (s : String)
  deriving DecidableEq, Repr

namespace Level

/-- The word for a level. -/
def word : Level → String
  | .trace => "TRACE"
  | .debug => "DEBUG"
  | .error => "ERROR"

end Level

namespace Event

/-! ### How an event reads -/

/-- The level of an event. -/
def level : Event → Level
  | .entered _ | .left .. | .declared .. | .declaredGlobal _ => .trace
  | .refused .. | .refusedGlobal _ => .debug
  | .underflowed => .error

/-- The message of an event. -/
def message : Event → String
  | .entered _ => "push scope"
  | .left .. => "pop scope"
  | .underflowed => "pop_scope called on the outermost scope"
  | .declared .. => "add symbol"
  | .refused .. => "redeclaration rejected"
  | .declaredGlobal _ => "add global symbol"
  | .refusedGlobal _ => "global redeclaration rejected"

/-- The fields that show a key. -/
def keyFields (k : Key Name) : List (String × FieldValue) :=
  [("name", .text (toString k.name)), ("namespace", .text (toString k.space))]

/-- The fields of an event. -/
def fields : Event → List (String × FieldValue)
  | .entered depth => [("depth", .number depth)]
  | .left depth hidden => [("depth", .number depth), ("hidden", .number hidden)]
  | .underflowed => []
  | .declared k depth | .refused k depth => keyFields k ++ [("depth", .number depth)]
  | .declaredGlobal k | .refusedGlobal k => keyFields k

/-! ### Replaying a log -/

/-- The declared keys of all scopes after an event, outermost scope first and
oldest key first. -/
def replay (scopes : List (List (Key Name))) : Event → List (List (Key Name))
  | .entered _ => scopes ++ [[]]
  | .left .. => scopes.dropLast
  | .declared k _ => scopes.modify (scopes.length - 1) (· ++ [k])
  | .declaredGlobal k => scopes.modify 0 (· ++ [k])
  | .underflowed | .refused .. | .refusedGlobal _ => scopes

/-- The declared keys of all scopes after a log that starts in one empty scope. -/
def replayAll (log : List Event) : List (List (Key Name)) := log.foldl replay [[]]

@[simp] theorem replayAll_nil : replayAll [] = [[]] := rfl

end Event
end ShaderSymbols
