import ShaderSymbols.Bounds
import ShaderSymbols.Declaration
import ShaderSymbols.Namespace.Family

/-!
# The declarations of a compilation unit

All declarations of a unit are kept together, in one list for each namespace.
Handles are positions in these lists, so they are dense and stay good: nothing
is removed, and only the overloads of a function ever change.

## Main definitions

* `Declarations` — the three lists.
* `Declarations.alloc` — adds a declaration and hands out its handle.
* `Declarations.read` — the declaration behind a handle.
* `Declarations.addOverload` — adds an overload to a declared function.
-/

namespace ShaderSymbols

/-! ### Failure -/

/-- A list of declarations is so long that its next handle would be
`DeclId.invalid`. -/
structure ArenaFull where
  /-- Which list. -/
  space : Namespace
  deriving DecidableEq, Repr

/-- The text of the failure. -/
def ArenaFull.message (e : ArenaFull) : String :=
  s!"too many {e.space.word}s in one compilation unit"

/-! ### The lists -/

/-- Every declaration of a compilation unit. -/
@[ext] structure Declarations where
  /-- The declarations of each namespace, by position. -/
  lists : PerNamespace fun ns => Array (Decl ns)

namespace Declarations

/-- No declarations. -/
def empty : Declarations := ⟨.ofFn fun _ => #[]⟩

/-- The declarations of a namespace. -/
def list (a : Declarations) (ns : Namespace) : Array (Decl ns) := a.lists.get ns

/-- Adds a declaration at the end of its list. -/
def push (a : Declarations) (ns : Namespace) (d : Decl ns) : Declarations :=
  ⟨a.lists.modify ns (·.push d)⟩

/-- Adds a declaration and hands out its handle. -/
def alloc (a : Declarations) (ns : Namespace) (d : Decl ns) :
    Except ArenaFull (DeclId ns × Declarations) :=
  let n := (a.list ns).size
  if n < (DeclId.invalid : DeclId ns).index then .ok (⟨UInt32.ofNat n⟩, a.push ns d)
  else .error ⟨ns⟩

/-- The declaration behind a handle. -/
def read (a : Declarations) {ns : Namespace} (id : DeclId ns) : Except OutOfBounds (Decl ns) :=
  fetch (a.list ns) id.index

/-- Replaces a declared function. -/
def setFunction (a : Declarations) (id : DeclId .func) (f : Function) : Declarations :=
  ⟨a.lists.modify .func fun fs => fs.setIfInBounds id.index f⟩

/-- Adds an overload to a declared function, and says whether it was added. -/
def addOverload (a : Declarations) (id : DeclId .func) (sig : Signature) :
    Except OutOfBounds (Bool × Declarations) := do
  let f ← a.read id
  let (added, f) := Function.addOverload f sig
  return (added, a.setFunction id f)

/-- The overload of a declared function with given parameter types. -/
def overload? (a : Declarations) (id : DeclId .func) (params : List (DeclId .type)) :
    Except OutOfBounds (Option Signature) := do
  let f ← a.read id
  return Function.overload? f params

/-- How many declarations there are, of every kind. -/
def size (a : Declarations) : Nat := a.lists.total fun _ l => l.size

/-- Whether nothing is declared. -/
def isEmpty (a : Declarations) : Bool := a.size = 0

/-! ### Equations -/

@[simp] theorem list_empty (ns : Namespace) : empty.list ns = #[] := by simp [list, empty]

@[simp] theorem list_push_self (a : Declarations) (ns : Namespace) (d : Decl ns) :
    (a.push ns d).list ns = (a.list ns).push d := by
  simp [list, push]

theorem list_push_of_ne (a : Declarations) {ns ns' : Namespace} (d : Decl ns) (h : ns' ≠ ns) :
    (a.push ns d).list ns' = a.list ns' :=
  PerNamespace.get_modify_of_ne _ _ h

@[simp] theorem list_setFunction_self (a : Declarations) (id : DeclId .func) (f : Function) :
    (a.setFunction id f).list .func = (a.list .func).setIfInBounds id.index f := by
  simp [list, setFunction]

theorem list_setFunction_of_ne (a : Declarations) (id : DeclId .func) (f : Function)
    {ns : Namespace} (h : ns ≠ .func) : (a.setFunction id f).list ns = a.list ns :=
  PerNamespace.get_modify_of_ne _ _ h

@[simp] theorem size_push (a : Declarations) (ns : Namespace) (d : Decl ns) :
    (a.push ns d).size = a.size + 1 := by
  cases ns <;> simp [size, push, PerNamespace.total, PerNamespace.modify, PerNamespace.set,
    PerNamespace.get] <;> omega

@[simp] theorem size_setFunction (a : Declarations) (id : DeclId .func) (f : Function) :
    (a.setFunction id f).size = a.size := by
  simp [size, setFunction, PerNamespace.total, PerNamespace.modify, PerNamespace.set,
    PerNamespace.get]

/-! ### Outcomes -/

/-- A list that is not too long yet takes one more declaration. -/
theorem alloc_of_lt {a : Declarations} {ns : Namespace}
    (h : (a.list ns).size < (DeclId.invalid : DeclId ns).index) (d : Decl ns) :
    a.alloc ns d = .ok (⟨UInt32.ofNat (a.list ns).size⟩, a.push ns d) :=
  if_pos h

/-- A list that is too long takes no more declarations. -/
theorem alloc_of_not_lt {a : Declarations} {ns : Namespace}
    (h : ¬ (a.list ns).size < (DeclId.invalid : DeclId ns).index) (d : Decl ns) :
    a.alloc ns d = .error ⟨ns⟩ :=
  if_neg h

/-- The handle of the next declaration is the length of its list. -/
theorem index_ofNat_size {a : Declarations} {ns : Namespace}
    (h : (a.list ns).size < (DeclId.invalid : DeclId ns).index) :
    (⟨UInt32.ofNat (a.list ns).size⟩ : DeclId ns).index = (a.list ns).size := by
  rw [DeclId.index_invalid] at h
  exact UInt32.toNat_ofNat_of_lt (by omega)

/-- A declared function takes an overload, or has one with the same parameters. -/
theorem addOverload_of_read {a : Declarations} {id : DeclId .func} {f : Function}
    (h : a.read id = .ok f) (sig : Signature) :
    a.addOverload id sig =
      .ok ((Function.addOverload f sig).1, a.setFunction id (Function.addOverload f sig).2) := by
  rw [addOverload, h]
  rfl

/-- A handle past the end is refused. -/
theorem addOverload_of_le {a : Declarations} {id : DeclId .func}
    (h : (a.list .func).size ≤ id.index) (sig : Signature) :
    a.addOverload id sig = .error ⟨(a.list .func).size, id.index⟩ := by
  rw [addOverload, read, fetch_eq_error_iff.mpr ⟨h, rfl⟩]
  rfl

end Declarations
end ShaderSymbols
