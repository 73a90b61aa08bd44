import ShaderSymbols.Namespace

/-!
# Families indexed by namespace

Variables, types and functions are described by different data, so what is kept
per namespace may have a different type in each.  `PerNamespace α` holds one
value of `α ns` for every namespace `ns`.

## Main definitions

* `PerNamespace` — one component per namespace.
* `PerNamespace.get`, `PerNamespace.set`, `PerNamespace.modify` — reading and
  replacing the component of a namespace known only at run time.
* `PerNamespace.total` — the sum of a measure over the components.
-/

namespace ShaderSymbols

/-- One value for each namespace. -/
structure PerNamespace (α : Namespace → Type) where
  /-- The component for variables. -/
  var : α .var
  /-- The component for types. -/
  type : α .type
  /-- The component for functions. -/
  func : α .func

namespace PerNamespace

variable {α : Namespace → Type}

/-- The component of a namespace. -/
def get (f : PerNamespace α) : (ns : Namespace) → α ns
  | .var => f.var
  | .type => f.type
  | .func => f.func

/-- Replaces the component of one namespace. -/
def set (f : PerNamespace α) : (ns : Namespace) → α ns → PerNamespace α
  | .var, a => { f with var := a }
  | .type, a => { f with type := a }
  | .func, a => { f with func := a }

/-- Changes the component of one namespace. -/
def modify (f : PerNamespace α) (ns : Namespace) (g : α ns → α ns) : PerNamespace α :=
  f.set ns (g (f.get ns))

/-- The family given by a function. -/
def ofFn (g : (ns : Namespace) → α ns) : PerNamespace α := ⟨g .var, g .type, g .func⟩

/-- The sum of a measure over the three components. -/
def total (f : PerNamespace α) (measure : (ns : Namespace) → α ns → Nat) : Nat :=
  measure .var f.var + measure .type f.type + measure .func f.func

/-! ### Equations -/

@[simp] theorem get_ofFn (g : (ns : Namespace) → α ns) (ns : Namespace) :
    (ofFn g).get ns = g ns := by
  cases ns <;> rfl

@[simp] theorem get_set_self (f : PerNamespace α) (ns : Namespace) (a : α ns) :
    (f.set ns a).get ns = a := by
  cases ns <;> rfl

theorem get_set_of_ne (f : PerNamespace α) {ns ns' : Namespace} (a : α ns) (h : ns' ≠ ns) :
    (f.set ns a).get ns' = f.get ns' := by
  cases ns <;> cases ns' <;> first | rfl | exact absurd rfl h

@[simp] theorem get_modify_self (f : PerNamespace α) (ns : Namespace) (g : α ns → α ns) :
    (f.modify ns g).get ns = g (f.get ns) :=
  get_set_self ..

theorem get_modify_of_ne (f : PerNamespace α) {ns ns' : Namespace} (g : α ns → α ns)
    (h : ns' ≠ ns) : (f.modify ns g).get ns' = f.get ns' :=
  get_set_of_ne _ _ h

/-- Changing one component changes the sum by what it changes the measure there. -/
theorem total_modify (f : PerNamespace α) (measure : (ns : Namespace) → α ns → Nat)
    (ns : Namespace) (g : α ns → α ns) :
    (f.modify ns g).total measure + measure ns (f.get ns) =
      f.total measure + measure ns (g (f.get ns)) := by
  cases ns <;> simp only [total, modify, set, get] <;> omega

/-- If the measure of the component goes up by one, so does the sum. -/
theorem total_modify_succ (f : PerNamespace α) (measure : (ns : Namespace) → α ns → Nat)
    (ns : Namespace) (g : α ns → α ns)
    (h : measure ns (g (f.get ns)) = measure ns (f.get ns) + 1) :
    (f.modify ns g).total measure = f.total measure + 1 := by
  have htotal := f.total_modify measure ns g
  omega

/-- Families with equal components are equal. -/
theorem ext_get {f f' : PerNamespace α} (h : ∀ ns, f.get ns = f'.get ns) : f = f' := by
  cases f
  cases f'
  congr
  · exact h .var
  · exact h .type
  · exact h .func

end PerNamespace
end ShaderSymbols
