import ShaderSymbols.Scope.Error
import ShaderSymbols.Symbol

/-!
# Actions on a scoped table

The operations that may change a scoped table, as data, so that whole histories
can be run on different tables, compared and rearranged.

## Main definitions

* `Action ν P` — one operation, over names of type `ν` and payloads `P`.
* `Action.key?` — the key it declares.
* `Answer ν` — what an operation answers.
-/

namespace ShaderSymbols

variable {ν μ : Type} {P : Namespace → Type}

/-- An operation that may change a table. -/
inductive Action (ν : Type) (P : Namespace → Type) where
  /-- Enter a scope. -/
  | enter
  /-- Leave the current scope. -/
  | leave
  /-- Declare a name in the current scope. -/
  | declare (name : ν) (symbol : Symbol P)
  /-- Declare a name in the outermost scope. -/
  | declareGlobal (name : ν) (symbol : Symbol P)

namespace Action

/-- The same operation on other names. -/
def map (f : ν → μ) : Action ν P → Action μ P
  | .enter => .enter
  | .leave => .leave
  | .declare n s => .declare (f n) s
  | .declareGlobal n s => .declareGlobal (f n) s

/-- The key an operation declares. -/
def key? : Action ν P → Option (Key ν)
  | .enter | .leave => none
  | .declare n s | .declareGlobal n s => some ⟨s.space, n⟩

end Action

/-- What every operation answers: nothing, or why it was refused. -/
abbrev Answer (ν : Type) := Except (ScopeError ν) Unit

end ShaderSymbols
