import ShaderSymbols.Name
import ShaderSymbols.Declaration.Id

/-!
# Declarations

What a shader declares: variables with a type and a storage mode, types built
from a scalar kind, and functions with their overloads.  A declaration knows its
own name and refers to other declarations by handle.

## Main definitions

* `Variable`, `TypeDecl`, `Function` — the three kinds of declaration.
* `Function.overload?` — the overload with given parameter types.
* `Function.addOverload` — adds an overload unless its parameters are taken.
* `Decl ns` — the kind of declaration that belongs to the namespace `ns`.
* `Decl.name`, `Decl.named` — the name of a declaration of any kind, and the same
  declaration under another name.
-/

namespace ShaderSymbols

/-! ### Variables -/

/-- Where the value of a variable lives. -/
inductive StorageMode where
  /-- An ordinary local or global. -/
  | auto
  /-- A value set from outside, the same for a whole draw call. -/
  | uniform
  /-- An input of the shader. -/
  | input
  /-- An output of the shader. -/
  | output
  /-- A parameter that is copied in and back out. -/
  | inOut
  /-- A value the compiler introduced. -/
  | temporary
  deriving DecidableEq, Repr, Inhabited

/-- A variable. -/
structure Variable where
  name : Name
  /-- The type of its values. -/
  type : DeclId .type
  mode : StorageMode
  deriving DecidableEq, Repr

/-! ### Types -/

/-- The scalar kind a type is built from. -/
inductive BaseType where
  | void | bool | int | float | sampler | struct
  deriving DecidableEq, Repr, Inhabited

/-- A built-in type or a user struct. -/
structure TypeDecl where
  name : Name
  base : BaseType
  /-- The components of a vector or of a matrix column; 1 for a scalar. -/
  components : UInt8
  /-- The columns of a matrix; 1 for everything else. -/
  columns : UInt8
  deriving DecidableEq, Repr

namespace TypeDecl

/-- The scalar type of a kind. -/
def scalar (name : Name) (base : BaseType) : TypeDecl := ⟨name, base, 1, 1⟩

/-- Whether the type is a vector. -/
def isVector (t : TypeDecl) : Bool := t.components > 1 && t.columns = 1

/-- Whether the type is a matrix. -/
def isMatrix (t : TypeDecl) : Bool := t.columns > 1

end TypeDecl

/-! ### Functions -/

/-- One overload of a function. -/
structure Signature where
  /-- The type of the result. -/
  result : DeclId .type
  /-- The types of the parameters. -/
  params : List (DeclId .type)
  deriving DecidableEq, Repr

/-- A function.  All overloads of a name hang off one declaration. -/
structure Function where
  name : Name
  /-- The overloads, in the order in which they were added. -/
  overloads : List Signature
  deriving DecidableEq, Repr

namespace Function

/-- A function without overloads. -/
def new (name : Name) : Function := ⟨name, []⟩

/-- The overload whose parameter types are exactly `params`. -/
def overload? (f : Function) (params : List (DeclId .type)) : Option Signature :=
  f.overloads.find? (·.params = params)

/-- Adds an overload, and says whether it was added: the first overload with
given parameter types stays, whatever its result. -/
def addOverload (f : Function) (sig : Signature) : Bool × Function :=
  match f.overload? sig.params with
  | some _ => (false, f)
  | none => (true, { f with overloads := f.overloads ++ [sig] })

@[simp] theorem overload?_new (name : Name) (params : List (DeclId .type)) :
    (new name).overload? params = none := rfl

@[simp] theorem name_addOverload (f : Function) (sig : Signature) :
    (f.addOverload sig).2.name = f.name := by
  unfold addOverload
  split <;> rfl

end Function

/-! ### Declarations by namespace -/

/-- The kind of declaration that belongs to a namespace. -/
@[reducible] def Decl : Namespace → Type
  | .var => Variable
  | .type => TypeDecl
  | .func => Function

namespace Decl

instance : (ns : Namespace) → DecidableEq (Decl ns)
  | .var => inferInstanceAs (DecidableEq Variable)
  | .type => inferInstanceAs (DecidableEq TypeDecl)
  | .func => inferInstanceAs (DecidableEq Function)

/-- The name a declaration carries. -/
def name : {ns : Namespace} → Decl ns → Name
  | .var, d => Variable.name d
  | .type, d => TypeDecl.name d
  | .func, d => Function.name d

/-- The same declaration under another name. -/
def named : {ns : Namespace} → Decl ns → Name → Decl ns
  | .var, d, n => { d with name := n }
  | .type, d, n => { d with name := n }
  | .func, d, n => { d with name := n }

@[simp] theorem name_named {ns : Namespace} (d : Decl ns) (n : Name) : (d.named n).name = n := by
  cases ns <;> rfl

end Decl
end ShaderSymbols
