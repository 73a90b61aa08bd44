import ShaderSymbols.Name
import ShaderSymbols.Namespace

/-!
# Symbols and their entries

What a name is bound to depends on its namespace: each namespace has a payload
type of its own, given by a family `P`.  A symbol is a namespace together with a
payload of that namespace, so a type payload can never be bound as a variable.

## Main definitions

* `Symbol P` — a namespace with one of its payloads.
* `Symbol.payload?` — the payload, if the symbol belongs to a given namespace.
* `Entry α` — one live declaration, with a payload of type `α`.
-/

namespace ShaderSymbols

variable {P : Namespace → Type}

/-! ### Symbols -/

/-- A payload tagged with its namespace. -/
structure Symbol (P : Namespace → Type) where
  /-- The namespace. -/
  space : Namespace
  /-- What the name is bound to. -/
  payload : P space

namespace Symbol

instance [∀ ns, DecidableEq (P ns)] : DecidableEq (Symbol P) := fun ⟨a, p⟩ ⟨b, q⟩ =>
  if h : a = b then
    decidable_of_iff (h ▸ p = q) (by subst h; simp)
  else
    isFalse fun e => h (congrArg space e)

/-- The payload of a symbol of the namespace `ns`. -/
def payload? (s : Symbol P) (ns : Namespace) : Option (P ns) :=
  if h : s.space = ns then some (h ▸ s.payload) else none

@[simp] theorem payload?_self (ns : Namespace) (p : P ns) :
    (⟨ns, p⟩ : Symbol P).payload? ns = some p := by
  simp [payload?]

theorem payload?_eq_none_iff {s : Symbol P} {ns : Namespace} :
    s.payload? ns = none ↔ s.space ≠ ns := by
  simp [payload?]

end Symbol

/-! ### Entries -/

/-- One live declaration. -/
structure Entry (α : Type) where
  /-- The declared name. -/
  name : Name
  /-- The namespace it is declared in. -/
  space : Namespace
  /-- What it is bound to. -/
  payload : α
  /-- The depth of the declaring scope; 0 is the outermost. -/
  depth : Nat
  deriving DecidableEq, Repr

/-- The same declaration with another payload. -/
def Entry.map {α β : Type} (f : α → β) (e : Entry α) : Entry β :=
  ⟨e.name, e.space, f e.payload, e.depth⟩

end ShaderSymbols
