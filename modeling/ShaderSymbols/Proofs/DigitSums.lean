import Mathlib.Algebra.BigOperators.Fin
import Mathlib.Data.ZMod.Basic
import Mathlib.Tactic.Ring
import ShaderSymbols.Interner.Placement

/-!
# The shard of a spelling is a digit sum

The first bytes of a spelling are read as digits in base 31 by arithmetic on 32-bit
words, and only the remainder modulo 16 is kept.  Words drop what does not fit, but what
they drop is a multiple of `2 ^ 32`, and so of 16: the shard is the one that the exact
number would give.  Modulo 16 the base is -1, so it is also the remainder of the sum of
the bytes with alternating signs.

## Main definitions

* `digitSum base bytes` — the exact value of bytes read as digits, in any semiring.

## Main results

* `map_digitSum` — a change of semirings changes the base of a digit sum, and nothing else.
* `toNat_digest` — the word that bytes spell is their exact value up to wrapping.
* `digitSum_emod_sixteen` — base 31 and base -1 agree modulo 16.
* `shardOf_eq_digitSum` — **the shard of a spelling is the exact sum modulo 16**, in
  either base.
-/

namespace ShaderSymbols

/-! ### Exact sums -/

section DigitSum

variable {R S : Type} [CommSemiring R] [CommSemiring S]

/-- Bytes read as digits, the last one counting once and each other one `base` times as
much as the one after it. -/
def digitSum (base : R) (bytes : List UInt8) : R :=
  ∑ i : Fin bytes.length, (bytes[i].toNat : R) * base ^ (bytes.length - 1 - i)

@[simp] theorem digitSum_nil (base : R) : digitSum base [] = 0 := rfl

theorem digitSum_cons (base : R) (b : UInt8) (bytes : List UInt8) :
    digitSum base (b :: bytes) = b.toNat * base ^ bytes.length + digitSum base bytes := by
  have hexp : ∀ i : Fin bytes.length,
      (b :: bytes).length - 1 - (i.succ : ℕ) = bytes.length - 1 - i := by
    intro i
    rw [List.length_cons, Fin.val_succ]
    omega
  calc digitSum base (b :: bytes)
      = b.toNat * base ^ bytes.length + ∑ i : Fin bytes.length,
          (bytes[i].toNat : R) * base ^ ((b :: bytes).length - 1 - (i.succ : ℕ)) :=
        Fin.sum_univ_succ _
    _ = b.toNat * base ^ bytes.length + digitSum base bytes := by
        simp only [hexp, digitSum]

/-- One more digit at the end moves the others up by one place. -/
theorem digitSum_concat (base : R) (bytes : List UInt8) (b : UInt8) :
    digitSum base (bytes ++ [b]) = digitSum base bytes * base + b.toNat := by
  induction bytes with
  | nil => simp [digitSum_cons]
  | cons a bytes ih =>
    rw [List.cons_append, digitSum_cons, digitSum_cons, ih, List.length_append,
      List.length_singleton]
    ring

/-- **A change of semirings changes the base of a digit sum**, and nothing else. -/
theorem map_digitSum (f : R →+* S) (base : R) (bytes : List UInt8) :
    f (digitSum base bytes) = digitSum (f base) bytes := by
  simp only [digitSum, map_sum, map_mul, map_pow, map_natCast]

end DigitSum

/-! ### Words -/

theorem digest_concat (bytes : List UInt8) (b : UInt8) :
    digest (bytes ++ [b]) = digest bytes * 31 + b.toUInt32 := by
  rw [digest, List.foldl_append]
  rfl

/-- The word that bytes spell is their exact value, up to what does not fit in a word. -/
theorem toNat_digest (bytes : List UInt8) :
    (digest bytes).toNat = digitSum (31 : ℕ) bytes % 2 ^ 32 := by
  induction bytes using List.reverseRecOn with
  | nil => rfl
  | append_singleton bytes b ih =>
    -- each step wraps, and so does the whole
    rw [digest_concat, digitSum_concat, UInt32.toNat_add, UInt32.toNat_mul, ih,
      UInt8.toNat_toUInt32, Nat.cast_id]
    exact ((Nat.mod_modEq _ _).trans ((Nat.mod_modEq _ _).mul_right 31)).add_right b.toNat

/-! ### Base 31 and base -1 -/

/-- The digit sums in base 31 and in base -1 agree modulo 16, for so do the bases. -/
theorem digitSum_emod_sixteen (bytes : List UInt8) :
    ((digitSum (31 : ℕ) bytes : ℕ) : ℤ) % 16 = digitSum (-1 : ℤ) bytes % 16 := by
  have hbase : Nat.castRingHom (ZMod 16) 31 = Int.castRingHom (ZMod 16) (-1) := by decide
  have hring : Nat.castRingHom (ZMod 16) (digitSum 31 bytes) =
      Int.castRingHom (ZMod 16) (digitSum (-1) bytes) := by
    rw [map_digitSum, map_digitSum, hbase]
  rw [Nat.coe_castRingHom, Int.coe_castRingHom, ← Int.cast_natCast] at hring
  exact (ZMod.intCast_eq_intCast_iff' _ _ 16).mp hring

/-! ### The shard of a spelling -/

theorem length_leadingBytes (s : String) : (leadingBytes s).length = min 8 s.utf8ByteSize := by
  rw [leadingBytes, List.length_take, Array.length_toList, ByteArray.size_data,
    String.size_toByteArray]

theorem getElem?_leadingBytes (s : String) {i : Nat} (hi : i < 8) :
    (leadingBytes s)[i]? = s.toUTF8.data[i]? := by
  rw [leadingBytes, List.getElem?_take_of_lt hi, Array.getElem?_toList]
  rfl

/-- Spellings that agree in their first eight bytes have the same leading bytes. -/
theorem leadingBytes_congr {s t : String}
    (h : ∀ i < 8, s.toUTF8.data[i]? = t.toUTF8.data[i]?) : leadingBytes s = leadingBytes t := by
  apply List.ext_getElem?
  intro i
  by_cases hi : i < 8
  · rw [getElem?_leadingBytes s hi, getElem?_leadingBytes t hi, h i hi]
  · have hnone : ∀ u : String, (leadingBytes u)[i]? = none := by
      intro u
      rw [List.getElem?_eq_none_iff, length_leadingBytes]
      omega
    rw [hnone s, hnone t]

theorem val_shardOf_eq_mod (s : String) :
    (shardOf s).val = digitSum (31 : ℕ) (leadingBytes s) % 16 := by
  rw [val_shardOf, toNat_digest]
  exact Nat.mod_mod_of_dvd _ (by decide)

/-- **The shard of a spelling is the exact sum modulo 16.**  The bytes that decide are the
first eight of the spelling in UTF-8, or all if there are fewer.  The word that they spell
is their exact value in base 31 up to wrapping, and the shard does not see the wrapping:
it is the exact value modulo 16, and the sum with alternating signs modulo 16.  So it is
below 16, and spellings that agree in the first eight bytes share it, whatever follows. -/
theorem shardOf_eq_digitSum (s : String) :
    (leadingBytes s).length = min 8 s.utf8ByteSize ∧
    (∀ i < 8, (leadingBytes s)[i]? = s.toUTF8.data[i]?) ∧
    (digest (leadingBytes s)).toNat = digitSum (31 : ℕ) (leadingBytes s) % 2 ^ 32 ∧
    (shardOf s).val = digitSum (31 : ℕ) (leadingBytes s) % 16 ∧
    ((shardOf s).val : ℤ) = digitSum (-1 : ℤ) (leadingBytes s) % 16 ∧
    (shardOf s).val < 16 ∧
    ∀ t : String, (∀ i < 8, s.toUTF8.data[i]? = t.toUTF8.data[i]?) → shardOf s = shardOf t := by
  have hshard := val_shardOf_eq_mod s
  refine ⟨length_leadingBytes s, fun i hi => getElem?_leadingBytes s hi,
    toNat_digest _, hshard, ?_, (shardOf s).isLt, fun t h => ?_⟩
  · rw [hshard, Int.natCast_mod]
    exact digitSum_emod_sixteen _
  · exact shardOf_congr (leadingBytes_congr h)

/-- Two spellings that part inside a character, two bytes into it; the exact value of the
bytes before is too large for a word. -/
theorem shardOf_eq_digitSum_straddling :
    (∀ i < 8, "shader光".toUTF8.data[i]? = "shader兆 2".toUTF8.data[i]?) ∧
    2 ^ 32 ≤ digitSum (31 : ℕ) (leadingBytes "shader光") ∧
    shardOf "shader光" = shardOf "shader兆 2" ∧ (shardOf "shader光").val = 5 := by
  have hbytes : ∀ i < 8, "shader光".toUTF8.data[i]? = "shader兆 2".toUTF8.data[i]? := by
    decide +kernel
  obtain ⟨-, -, -, hshard, -, -, hcongr⟩ := shardOf_eq_digitSum "shader光"
  have hexact : digitSum (31 : ℕ) (leadingBytes "shader光") = 3259123511013 := by
    decide +kernel
  refine ⟨hbytes, by decide +kernel, hcongr _ hbytes, ?_⟩
  rw [hshard, hexact]

end ShaderSymbols
