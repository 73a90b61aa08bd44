import ShaderSymbols.Namespace

/-!
# Declaration handles

A declaration is referred to by its position among the declarations of its
kind.  The namespace is part of the handle's type, so a type handle cannot be
taken for a variable handle.  One value of each kind, the largest word, means
"no declaration"; it is never handed out.

## Main definitions

* `DeclId ns` — a handle to a declaration of the kind `ns`.
* `DeclId.invalid` — the handle to nothing, which is also the default.
* `DeclId.isValid` — whether a handle is any other.
-/

namespace ShaderSymbols

/-- A handle to a declaration in the namespace `space`. -/
@[ext] structure DeclId (space : Namespace) where
  /-- The position, or the largest word for no declaration. -/
  raw : UInt32
  deriving DecidableEq, Repr

namespace DeclId

variable {ns : Namespace}

/-- No declaration. -/
def invalid : DeclId ns := ⟨0xFFFFFFFF⟩

instance : Inhabited (DeclId ns) := ⟨invalid⟩

/-- The position of the declaration in its list. -/
def index (id : DeclId ns) : Nat := id.raw.toNat

/-- Whether the handle may refer to a declaration. -/
def isValid (id : DeclId ns) : Bool := id ≠ invalid

/-- The handle with the given encoding, if it fits in 32 bits. -/
def ofNat? (n : Nat) : Option (DeclId ns) := if n < UInt32.size then some ⟨UInt32.ofNat n⟩ else none

/-- Handles show their kind and their position. -/
instance : ToString (DeclId ns) :=
  ⟨fun id => if id.isValid then s!"{ns.tag}Id({id.raw})" else s!"{ns.tag}Id::INVALID"⟩

@[simp] theorem isValid_eq_false_iff {id : DeclId ns} : id.isValid = false ↔ id = invalid := by
  simp [isValid]

theorem index_invalid : (invalid : DeclId ns).index = UInt32.size - 1 := rfl

theorem index_inj {a b : DeclId ns} : a.index = b.index ↔ a = b := by
  rw [index, index, UInt32.toNat_inj, DeclId.ext_iff]

theorem isValid_iff_index_lt {id : DeclId ns} : id.isValid = true ↔ id.index < UInt32.size - 1 := by
  have hlt := id.raw.toNat_lt
  simp only [isValid, ne_eq, decide_eq_true_eq, ← index_inj, index_invalid]
  simp only [index, UInt32.size] at *
  omega

theorem ofNat?_index (id : DeclId ns) : ofNat? id.index = some id := by
  simp [ofNat?, index, id.raw.toNat_lt]

theorem index_of_ofNat? {n : Nat} {id : DeclId ns} (h : ofNat? n = some id) : id.index = n := by
  unfold ofNat? at h
  split at h
  · next hn =>
    obtain rfl := Option.some.inj h
    exact UInt32.toNat_ofNat_of_lt hn
  · exact absurd h (by simp)

end DeclId
end ShaderSymbols
