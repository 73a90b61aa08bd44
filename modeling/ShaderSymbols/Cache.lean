import ShaderSymbols.Declaration.Id
import ShaderSymbols.Name

/-!
# Cached values

Names, handles and namespaces may be kept in a cache file and read back later.
A name or a handle is stored as the number it packs.  A namespace is stored as its
tag; read back, the tag may also stand as the only member of an object, with
nothing in it, which is how a cache writes a tag that could carry contents.

## Main definitions

* `CacheValue` — what a cache file may hold in such a place.
* `Name.toCache`, `DeclId.toCache`, `Namespace.toCache` — the stored form.
* `Name.ofCache?`, `DeclId.ofCache?`, `Namespace.ofCache?` — reading it back.

## Main results

* `Name.ofCache?_eq_some_iff`, `DeclId.ofCache?_eq_some_iff` — a name and a handle
  have one form only.
* `Namespace.ofCache?_eq_some_iff` — a namespace has two.
-/

namespace ShaderSymbols

/-- What a cache file may hold in the place of a name, a handle or a namespace. -/
inductive CacheValue where
  /-- A whole number that is not negative. -/
  | number (n : Nat)
  /-- A text. -/
  | text (s : String)
  /-- An object with one member, which holds nothing. -/
  | marked (tag : String)
  /-- Anything else. -/
  | other
  deriving DecidableEq, Repr

/-! ### Names -/

namespace Name

/-- A name is stored as its word. -/
def toCache (n : Name) : CacheValue := .number n.raw.toNat

/-- Reads a name back. -/
def ofCache? : CacheValue → Option Name
  | .number n => ofNat? n
  | _ => none

theorem ofCache?_eq_some_iff {v : CacheValue} {n : Name} : ofCache? v = some n ↔ v = n.toCache := by
  constructor
  · intro h
    cases v with
    | number m => rw [toCache, toNat_raw_of_ofNat? h]
    | _ => simp [ofCache?] at h
  · rintro rfl
    exact ofNat?_toNat_raw n

end Name

/-! ### Handles -/

namespace DeclId

variable {ns : Namespace}

/-- A handle is stored as its word. -/
def toCache (id : DeclId ns) : CacheValue := .number id.index

/-- Reads a handle back. -/
def ofCache? : CacheValue → Option (DeclId ns)
  | .number n => ofNat? n
  | _ => none

theorem ofCache?_eq_some_iff {v : CacheValue} {id : DeclId ns} :
    ofCache? v = some id ↔ v = id.toCache := by
  constructor
  · intro h
    cases v with
    | number m => rw [toCache, index_of_ofNat? h]
    | _ => simp [ofCache?] at h
  · rintro rfl
    exact ofNat?_index id

end DeclId

/-! ### Namespaces -/

namespace Namespace

/-- A namespace is stored as its tag. -/
def toCache (ns : Namespace) : CacheValue := .text ns.tag

/-- Reads a namespace back. -/
def ofCache? : CacheValue → Option Namespace
  | .text s | .marked s => ofTag? s
  | _ => none

theorem ofCache?_toCache (ns : Namespace) : ofCache? ns.toCache = some ns := ofTag?_tag ns

theorem ofCache?_eq_some_iff {v : CacheValue} {ns : Namespace} :
    ofCache? v = some ns ↔ v = .text ns.tag ∨ v = .marked ns.tag := by
  constructor
  · intro h
    cases v with
    | text s => exact .inl (congrArg _ (tag_of_ofTag? h).symm)
    | marked s => exact .inr (congrArg _ (tag_of_ofTag? h).symm)
    | _ => simp [ofCache?] at h
  · rintro (rfl | rfl) <;> exact ofTag?_tag ns

end Namespace
end ShaderSymbols
