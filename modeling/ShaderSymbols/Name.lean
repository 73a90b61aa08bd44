/-!
# Interned names

A `Name` stands for a spelling held by an interner.  It is one 32-bit word, so
that names compare, order and key a table as a single number.  The top four bits
say which shard of the interner holds the spelling and the other twenty-eight
which slot of that shard.

## Main definitions

* `Name` — the packed word.
* `Name.pack` — the name of a slot of a shard.
* `Name.shard`, `Name.slot` — the two parts.
* `Name.empty` — the name of the empty spelling.

## Main results

* `Name.shard_pack`, `Name.slot_pack`, `Name.pack_shard_slot` — packing loses
  nothing and reaches every word.
* `Name.toNat_raw_pack` — as a number, a name is its shard times `numSlots` plus
  its slot, so names order by shard first and by slot within a shard.
-/

namespace ShaderSymbols

/-- The packed handle of an interned spelling. -/
@[ext] structure Name where
  /-- Shard in the top four bits, slot in the rest. -/
  raw : UInt32
  deriving DecidableEq, Repr

namespace Name

/-! ### Layout -/

/-- How many shards four bits can tell apart. -/
abbrev numShards : Nat := 16

/-- How many slots twenty-eight bits can tell apart. -/
abbrev numSlots : Nat := 0x10000000

/-- The largest slot that fits in a name. -/
def maxSlot : Nat := 0x0FFFFFFF

/-- The name of a slot of a shard. -/
def pack (shard : Fin numShards) (slot : Nat) : Name :=
  ⟨UInt32.ofNat shard <<< 28 ||| UInt32.ofNat slot⟩

/-- The shard that holds the spelling. -/
def shard (n : Name) : Fin numShards :=
  ⟨(n.raw >>> 28).toNat, by
    have := n.raw.toNat_lt
    simp only [UInt32.toNat_shiftRight, UInt32.reduceToNat, Nat.reduceMod,
      Nat.shiftRight_eq_div_pow, numShards]
    omega⟩

/-- The slot of the spelling in its shard. -/
def slot (n : Name) : Nat := (n.raw &&& 0x0FFFFFFF).toNat

/-- The name of the empty spelling. -/
def empty : Name := ⟨0⟩

instance : Inhabited Name := ⟨empty⟩

/-- The name with the given encoding, if it fits in 32 bits. -/
def ofNat? (n : Nat) : Option Name := if n < UInt32.size then some ⟨UInt32.ofNat n⟩ else none

/-- Names show their two parts, `Name(shard:slot)`. -/
instance : ToString Name := ⟨fun n => s!"Name({n.shard.val}:{n.slot})"⟩

/-! ### Order -/

/-- Names are ordered as words. -/
instance : Ord Name := ⟨compareOn raw⟩

instance : Std.TransOrd Name := inferInstanceAs (Std.TransCmp (compareOn raw))

instance : Std.LawfulEqOrd Name where
  eq_of_compare h := Name.ext (Std.LawfulEqOrd.eq_of_compare (α := UInt32) h)

/-! ### Packing and unpacking -/

theorem val_shard (n : Name) : n.shard.val = n.raw.toNat / numSlots := by
  simp [shard, Nat.shiftRight_eq_div_pow]

theorem slot_eq_mod (n : Name) : n.slot = n.raw.toNat % numSlots := by
  simpa [slot] using Nat.and_two_pow_sub_one_eq_mod n.raw.toNat 28

theorem slot_le_maxSlot (n : Name) : n.slot ≤ maxSlot := by
  simp only [slot_eq_mod, maxSlot, numSlots]
  omega

/-- **The number a name packs**: the shard counts in steps of `numSlots`. -/
theorem toNat_raw_pack (i : Fin numShards) {k : Nat} (hk : k ≤ maxSlot) :
    (pack i k).raw.toNat = i * numSlots + k := by
  have hi : i.val < 16 := i.isLt
  have hk' : k < 2 ^ 28 := by rw [maxSlot] at hk; omega
  have hshift : i.val <<< 28 = i * numSlots := Nat.shiftLeft_eq ..
  have hword : (UInt32.ofNat i <<< 28).toNat = i.val <<< 28 := by
    simp only [UInt32.toNat_shiftLeft, UInt32.toNat_ofNat', UInt32.reduceToNat, Nat.reduceMod,
      Nat.mod_eq_of_lt (show i.val < 2 ^ 32 by omega)]
    exact Nat.mod_eq_of_lt (by omega)
  rw [pack, UInt32.toNat_or, hword, UInt32.toNat_ofNat', Nat.mod_eq_of_lt (by omega),
    ← Nat.shiftLeft_add_eq_or_of_lt hk', hshift]

theorem shard_pack (i : Fin numShards) {k : Nat} (hk : k ≤ maxSlot) : (pack i k).shard = i := by
  apply Fin.ext
  rw [val_shard, toNat_raw_pack i hk]
  simp only [maxSlot, numSlots] at *
  omega

theorem slot_pack (i : Fin numShards) {k : Nat} (hk : k ≤ maxSlot) : (pack i k).slot = k := by
  rw [slot_eq_mod, toNat_raw_pack i hk]
  simp only [maxSlot, numSlots] at *
  omega

/-- Every word is the name of its own shard and slot. -/
theorem pack_shard_slot (n : Name) : pack n.shard n.slot = n := by
  apply Name.ext
  apply UInt32.toNat_inj.mp
  rw [toNat_raw_pack _ n.slot_le_maxSlot, val_shard, slot_eq_mod]
  exact Nat.div_add_mod' _ _

theorem ofNat?_toNat_raw (n : Name) : ofNat? n.raw.toNat = some n := by
  simp [ofNat?, n.raw.toNat_lt]

theorem toNat_raw_of_ofNat? {m : Nat} {n : Name} (h : ofNat? m = some n) : n.raw.toNat = m := by
  unfold ofNat? at h
  split at h
  · next hm =>
    obtain rfl := Option.some.inj h
    exact UInt32.toNat_ofNat_of_lt hm
  · exact absurd h (by simp)

end Name
end ShaderSymbols
