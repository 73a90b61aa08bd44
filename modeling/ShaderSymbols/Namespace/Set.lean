import ShaderSymbols.Namespace

/-!
# Sets of namespaces

A query may ask about several namespaces at once.  A set of them is one byte,
the bit at a namespace's index saying whether it is a member.  The five high
bits mean nothing; they are kept as they come, so that a byte survives being
stored, but membership never looks at them.

## Main definitions

* `NamespaceSet` — a byte of flags.
* `NamespaceSet.has` — membership of one namespace.
* `NamespaceSet.compl` — the only operation that drops unknown bits.

## Main results

* `NamespaceSet.has_eq_testBit` — membership is the bit at the index.
-/

namespace ShaderSymbols

/-- A set of namespaces, one bit each. -/
@[ext] structure NamespaceSet where
  /-- The flags, unknown ones included. -/
  bits : UInt8
  deriving DecidableEq, Repr, Inhabited

namespace NamespaceSet

/-! ### Building sets -/

/-- No bit at all. -/
def empty : NamespaceSet := ⟨0⟩

/-- The three known bits. -/
def all : NamespaceSet := ⟨7⟩

/-- The set of one namespace. -/
def single : Namespace → NamespaceSet
  | .var => ⟨1⟩
  | .type => ⟨2⟩
  | .func => ⟨4⟩

/-- The known bits of a byte. -/
def truncate (b : UInt8) : NamespaceSet := ⟨b &&& all.bits⟩

/-- The set with exactly these bits, unless one of them is unknown. -/
def ofBits? (b : UInt8) : Option NamespaceSet :=
  if truncate b = ⟨b⟩ then some ⟨b⟩ else none

/-! ### Operations -/

/-- Bits of either set. -/
def union (a b : NamespaceSet) : NamespaceSet := ⟨a.bits ||| b.bits⟩

/-- Bits of both sets. -/
def inter (a b : NamespaceSet) : NamespaceSet := ⟨a.bits &&& b.bits⟩

/-- Bits of the first set only. -/
def diff (a b : NamespaceSet) : NamespaceSet := ⟨a.bits &&& ~~~b.bits⟩

/-- Bits of exactly one of the sets. -/
def symmDiff (a b : NamespaceSet) : NamespaceSet := ⟨a.bits ^^^ b.bits⟩

/-- The namespaces that are not members; unknown bits are cleared. -/
def compl (a : NamespaceSet) : NamespaceSet := truncate (~~~a.bits)

/-- The set of the namespaces in a list. -/
def ofList (l : List Namespace) : NamespaceSet := l.foldl (fun s ns => s.union (single ns)) empty

/-! ### Tests -/

/-- Whether all bits of `b` are in `a`. -/
def contains (a b : NamespaceSet) : Bool := a.inter b = b

/-- Whether some bit is in both sets. -/
def intersects (a b : NamespaceSet) : Bool := a.inter b ≠ empty

/-- Whether no bit is set, known or unknown. -/
def isEmpty (a : NamespaceSet) : Bool := a = empty

/-- Whether every known bit is set. -/
def isAll (a : NamespaceSet) : Bool := a.contains all

/-- Whether a namespace is a member. -/
def has (a : NamespaceSet) (ns : Namespace) : Bool := a.contains (single ns)

/-- The members, in index order. -/
def members (a : NamespaceSet) : List Namespace := Namespace.all.filter a.has

/-! ### Membership -/

theorem toNat_bits_single (ns : Namespace) : (single ns).bits.toNat = 1 <<< ns.index := by
  cases ns <;> rfl

/-- **Membership is the bit at the namespace's index**, whatever the others are. -/
theorem has_eq_testBit (a : NamespaceSet) (ns : Namespace) :
    a.has ns = a.bits.toNat.testBit ns.index := by
  rw [Bool.eq_iff_iff]
  simp only [has, contains, inter, decide_eq_true_eq, NamespaceSet.ext_iff, ← UInt8.toNat_inj,
    UInt8.toNat_and, toNat_bits_single, Nat.one_shiftLeft]
  constructor
  · intro h
    have := congrArg (·.testBit ns.index) h
    simpa using this
  · intro h
    refine Nat.eq_of_testBit_eq fun i => ?_
    by_cases hi : ns.index = i
    · subst hi; simp [h]
    · simp [Nat.testBit_two_pow_of_ne hi]

theorem has_union (a b : NamespaceSet) (ns : Namespace) :
    (a.union b).has ns = (a.has ns || b.has ns) := by
  simp [has_eq_testBit, union]

theorem has_inter (a b : NamespaceSet) (ns : Namespace) :
    (a.inter b).has ns = (a.has ns && b.has ns) := by
  simp [has_eq_testBit, inter]

@[simp] theorem has_all (ns : Namespace) : all.has ns = true := by cases ns <;> decide

/-- Clearing unknown bits adds and removes no member. -/
theorem has_truncate (b : UInt8) (ns : Namespace) :
    (truncate b).has ns = (⟨b⟩ : NamespaceSet).has ns := by
  have hinter : truncate b = (⟨b⟩ : NamespaceSet).inter all := rfl
  rw [hinter, has_inter, has_all, Bool.and_true]

theorem has_single (ns ns' : Namespace) : (single ns).has ns' = decide (ns' = ns) := by
  cases ns <;> cases ns' <;> decide

theorem mem_members {a : NamespaceSet} {ns : Namespace} : ns ∈ a.members ↔ a.has ns = true := by
  simp [members]

end NamespaceSet
end ShaderSymbols
