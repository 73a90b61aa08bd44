import Std.Data.ExtTreeMap
import ShaderSymbols.Bounds

/-!
# Shards of an interner

A shard stores spellings in slots numbered from zero, in the order in which they
came.  The slot of a spelling is looked up in a map kept beside the list.

## Main definitions

* `Shard` — the list of spellings with its index.
* `Shard.slot?` — the slot of a spelling.
* `Shard.spelling` — the spelling in a slot.
* `Shard.push` — stores a spelling in the next slot.
-/

namespace ShaderSymbols

/-- Spellings by slot, and slots by spelling. -/
structure Shard where
  /-- The slot of every stored spelling. -/
  slots : Std.ExtTreeMap String Nat
  /-- The stored spellings, by slot. -/
  spellings : Array String

namespace Shard

/-- The shard without spellings. -/
def empty : Shard := ⟨∅, #[]⟩

/-- How many spellings are stored; also the next free slot. -/
def size (t : Shard) : Nat := t.spellings.size

/-- The slot of a spelling, if it is stored. -/
def slot? (t : Shard) (s : String) : Option Nat := t.slots[s]?

/-- The spelling in a slot. -/
def spelling (t : Shard) (slot : Nat) : Except OutOfBounds String := fetch t.spellings slot

/-- Stores a spelling in the next free slot. -/
def push (t : Shard) (s : String) : Shard := ⟨t.slots.insert s t.size, t.spellings.push s⟩

@[simp] theorem size_empty : empty.size = 0 := rfl

@[simp] theorem slot?_empty (s : String) : empty.slot? s = none := by simp [slot?, empty]

@[simp] theorem size_push (t : Shard) (s : String) : (t.push s).size = t.size + 1 := by
  simp [push, size]

@[simp] theorem slot?_push_self (t : Shard) (s : String) : (t.push s).slot? s = some t.size := by
  simp [push, slot?]

theorem slot?_push_of_ne (t : Shard) {s s' : String} (h : s' ≠ s) :
    (t.push s).slot? s' = t.slot? s' := by
  simp [push, slot?, Std.ExtTreeMap.getElem?_insert, Ne.symm h]

theorem spellings_push (t : Shard) (s : String) : (t.push s).spellings = t.spellings.push s := rfl

end Shard
end ShaderSymbols
