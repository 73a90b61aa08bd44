import ShaderSymbols.Interner
import ShaderSymbols.Scope.Key

/-!
# Scope errors

A declaration is refused when its key is taken in the scope it goes to, and the
outermost scope cannot be left.  The first is a mistake in the shader; the second
is a mistake in whoever walks the shader.

## Main definitions

* `ScopeError ν` — the two causes, over names of type `ν`.
* `ScopeError.message` — the text for a developer, with names as handles.
* `ScopeError.describe` — the text for the author of the shader, with the
  spelling looked up.
* `ScopeError.isInternal` — whether the shader is not to blame.
-/

namespace ShaderSymbols

/-- Why a scope operation was refused. -/
inductive ScopeError (ν : Type) where
  /-- The key is already declared in the scope of that depth. -/
  | redeclared (key : Key ν) (depth : Nat)
  /-- Only the outermost scope is left. -/
  | underflow
  deriving DecidableEq, Repr

namespace ScopeError

/-- The same error over other names. -/
def map {ν μ : Type} (f : ν → μ) : ScopeError ν → ScopeError μ
  | .redeclared k depth => .redeclared (k.map f) depth
  | .underflow => .underflow

/-- The text that names the handle and the depth. -/
def message : ScopeError Name → String
  | .redeclared k depth => s!"{k.space} {k.name} is already declared at scope depth {depth}"
  | .underflow => "scope underflow: cannot pop the outermost scope"

/-- The text that spells the name out.  It needs the interner the name is from. -/
def describe (names : Interner) : ScopeError Name → Except OutOfBounds String
  | .redeclared k _ => do
    let spelling ← names.spelling k.name
    return s!"{k.space} `{spelling}` is already declared in this scope"
  | .underflow => return message .underflow

/-- Whether the error is a failure of bookkeeping and not of the shader. -/
def isInternal {ν : Type} : ScopeError ν → Bool
  | .redeclared .. => false
  | .underflow => true

end ScopeError
end ShaderSymbols
