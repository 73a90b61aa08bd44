import ShaderSymbols.Namespace

/-!
# Keys of declarations

Within one scope a declaration is identified by its namespace and its name.

## Main definitions

* `Key ν` — a namespace with a name of type `ν`.
-/

namespace ShaderSymbols

/-- What identifies a declaration within a scope. -/
@[ext] structure Key (ν : Type) where
  /-- The namespace. -/
  space : Namespace
  /-- The name. -/
  name : ν
  deriving DecidableEq, Repr

/-- The same key with the name replaced. -/
def Key.map {ν μ : Type} (f : ν → μ) (k : Key ν) : Key μ := ⟨k.space, f k.name⟩

end ShaderSymbols
