/-!
# Reading past the end of a list

Handles into a list may be forged or may come from elsewhere, so a read can miss.
A miss reports how long the list is and which index was asked for.

## Main definitions

* `OutOfBounds` — a read past the end.
* `fetch` — reads one element, or says why there is none.
-/

namespace ShaderSymbols

/-- A read past the end of a list. -/
structure OutOfBounds where
  /-- The length of the list. -/
  size : Nat
  /-- The index that was asked for. -/
  index : Nat
  deriving DecidableEq, Repr

/-- The text of the failure. -/
def OutOfBounds.message (e : OutOfBounds) : String :=
  s!"index out of bounds: the len is {e.size} but the index is {e.index}"

/-- The element at an index. -/
def fetch {α : Type} (xs : Array α) (i : Nat) : Except OutOfBounds α :=
  if h : i < xs.size then .ok xs[i] else .error ⟨xs.size, i⟩

theorem fetch_eq_ok_iff {α : Type} {xs : Array α} {i : Nat} {a : α} :
    fetch xs i = .ok a ↔ xs[i]? = some a := by
  unfold fetch
  split <;> simp_all

theorem fetch_eq_error_iff {α : Type} {xs : Array α} {i : Nat} {e : OutOfBounds} :
    fetch xs i = .error e ↔ xs.size ≤ i ∧ e = ⟨xs.size, i⟩ := by
  unfold fetch
  split <;> grind

end ShaderSymbols
