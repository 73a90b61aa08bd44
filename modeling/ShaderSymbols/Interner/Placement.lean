import ShaderSymbols.Name

/-!
# Where a spelling is stored

An interner spreads its spellings over sixteen shards.  The shard of a spelling
is read off its first eight UTF-8 bytes, taken as the digits of a number in base
31; the arithmetic is that of 32-bit words.  A character that straddles the
eighth byte counts with the bytes before the cut.

## Main definitions

* `leadingBytes` — the bytes that decide.
* `digest` — the number they spell, as a word.
* `shardOf` — the shard of a spelling.
-/

namespace ShaderSymbols

/-- The bytes of a spelling that decide its shard: the first eight. -/
def leadingBytes (s : String) : List UInt8 := s.toByteArray.data.toList.take 8

/-- Bytes read as digits in base 31, in 32-bit arithmetic. -/
def digest (bytes : List UInt8) : UInt32 := bytes.foldl (fun h b => h * 31 + b.toUInt32) 0

/-- The shard that stores a spelling. -/
def shardOf (s : String) : Fin Name.numShards :=
  Fin.ofNat Name.numShards (digest (leadingBytes s)).toNat

theorem val_shardOf (s : String) : (shardOf s).val = (digest (leadingBytes s)).toNat % 16 := rfl

/-- A spelling without bytes has digest 0. -/
theorem shardOf_empty : shardOf "" = 0 := by decide +kernel

/-- Spellings with the same first eight bytes share a shard. -/
theorem shardOf_congr {s t : String} (h : leadingBytes s = leadingBytes t) :
    shardOf s = shardOf t := by
  rw [shardOf, shardOf, h]

end ShaderSymbols
