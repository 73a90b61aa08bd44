import ShaderSymbols.Interner.Placement
import ShaderSymbols.Interner.Shard

/-!
# The string interner

An interner hands out one `Name` for every spelling it is given and finds the
spelling again from the name.  Spellings are never dropped, so a name keeps its
meaning for as long as the interner lives.  A new interner already holds the
empty spelling, as `Name.empty`, and the words that every shader may use.

## Main definitions

* `Interner` — sixteen shards and a count of the spellings in them.
* `Interner.new` — the interner that holds `Interner.initialSpellings`.
* `Interner.seeded` — the interner that holds the empty spelling alone, written
  straight into its place.
* `Interner.get?` — the name of a spelling that is already held.
* `Interner.tryIntern`, `Interner.intern`, `Interner.getOrIntern` — three routes
  to the name of a spelling, each of which stores it if it is new.
* `Interner.spelling` — the spelling of a name.

## Main results

* `Interner.tryIntern_cases` — all that interning can do.
* `Interner.new_eq_internAll_seeded` — it makes no difference whether the empty
  spelling is interned first or written straight into its place.
-/

namespace ShaderSymbols

/-! ### Failure -/

/-- Why a spelling could not be stored. -/
inductive InternError where
  /-- The shard has no free slot that a name could hold. -/
  | shardFull (shard count : Nat)
  deriving DecidableEq, Repr

/-- The text of the failure. -/
def InternError.message : InternError → String
  | .shardFull shard count =>
    s!"interner shard {shard} is full: {count} identifiers, max is {Name.maxSlot}"

/-! ### Interners -/

/-- Spellings and their names. -/
structure Interner where
  /-- The stored spellings, by shard. -/
  shards : Vector Shard Name.numShards
  /-- How many spellings all shards hold together. -/
  count : Nat

namespace Interner

/-- A shard by its number. -/
def shard (t : Interner) (i : Fin Name.numShards) : Shard := t.shards[i]

/-- The shard that stores a spelling, or would store it. -/
def shardFor (t : Interner) (s : String) : Shard := t.shard (shardOf s)

/-- The name of a spelling, if it is held. -/
def get? (t : Interner) (s : String) : Option Name :=
  (t.shardFor s).slot? s |>.map (Name.pack (shardOf s))

/-- Stores a spelling in the next slot of its shard. -/
def store (t : Interner) (s : String) : Interner :=
  ⟨t.shards.set (shardOf s) ((t.shardFor s).push s), t.count + 1⟩

/-- The name of a spelling, which is stored if it is new.  The interner comes
back even when the shard is full; it is then the one given. -/
def tryIntern (t : Interner) (s : String) : Except InternError Name × Interner :=
  match t.get? s with
  | some n => (.ok n, t)
  | none =>
    let slot := (t.shardFor s).size
    if slot ≤ Name.maxSlot then (.ok (Name.pack (shardOf s) slot), t.store s)
    else (.error (.shardFull (shardOf s) slot), t)

/-- The name of a spelling with the interner that holds it. -/
def intern (t : Interner) (s : String) : Except InternError (Name × Interner) :=
  match t.tryIntern s with
  | (.ok n, t') => .ok (n, t')
  | (.error e, _) => .error e

/-- The same, with the question whether the spelling is held asked first, so that
its text is handed over only if it is new. -/
def getOrIntern (t : Interner) (s : String) : Except InternError (Name × Interner) :=
  match t.get? s with
  | some n => .ok (n, t)
  | none => t.intern s

/-- The spelling of a name. -/
def spelling (t : Interner) (n : Name) : Except OutOfBounds String :=
  (t.shard n.shard).spelling n.slot

/-- Whether nothing but the empty spelling is held. -/
def isEmpty (t : Interner) : Bool := t.count ≤ 1

/-! ### The initial spellings -/

/-- The words every shader may use, in the order in which they are interned. -/
def builtins : List String :=
  [ -- storage and control
    "attribute", "const", "uniform", "varying", "in", "out", "inout", "centroid", "invariant",
    "struct", "if", "else", "for", "while", "do", "break", "continue", "return", "discard",
    -- types
    "void", "bool", "int", "float", "vec2", "vec3", "vec4", "bvec2", "bvec3", "bvec4", "ivec2",
    "ivec3", "ivec4", "mat2", "mat3", "mat4", "sampler2D", "samplerCube",
    -- variables
    "gl_Position", "gl_FragColor", "gl_FragCoord",
    -- the entry point
    "main" ]

/-- The interner that holds nothing. -/
def empty : Interner := ⟨Vector.replicate Name.numShards .empty, 0⟩

/-- Interns the spellings of a list in order. -/
def internAll (t : Interner) (l : List String) : Interner :=
  l.foldl (fun t s => (t.tryIntern s).2) t

/-- What a new interner holds, in the order in which it is stored. -/
def initialSpellings : List String := "" :: builtins

/-- The interner that holds the empty spelling and the built-in words. -/
def new : Interner := empty.internAll initialSpellings

/-- The interner that holds the empty spelling alone.  Nothing is interned: the map and
the list of the first shard are written as they have to be for `Name.empty`, and the
count is set. -/
def seeded : Interner :=
  ⟨empty.shards.set 0 ⟨(∅ : Std.ExtTreeMap String Nat).insert "" 0, #[""]⟩ (by decide), 1⟩

/-! ### Equations -/

theorem tryIntern_of_get? {t : Interner} {s : String} {n : Name} (h : t.get? s = some n) :
    t.tryIntern s = (.ok n, t) := by
  simp [tryIntern, h]

theorem tryIntern_of_free {t : Interner} {s : String} (h : t.get? s = none)
    (hfree : (t.shardFor s).size ≤ Name.maxSlot) :
    t.tryIntern s = (.ok (Name.pack (shardOf s) (t.shardFor s).size), t.store s) := by
  simp [tryIntern, h, hfree]

theorem tryIntern_of_full {t : Interner} {s : String} (h : t.get? s = none)
    (hfull : ¬ (t.shardFor s).size ≤ Name.maxSlot) :
    t.tryIntern s = (.error (.shardFull (shardOf s) (t.shardFor s).size), t) := by
  simp [tryIntern, h, hfull]

/-- All that interning can do: the spelling is held, or it is stored, or its shard is full. -/
theorem tryIntern_cases (t : Interner) (s : String) :
    (∃ n, t.get? s = some n ∧ t.tryIntern s = (.ok n, t)) ∨
    (t.get? s = none ∧ (t.shardFor s).size ≤ Name.maxSlot ∧
      t.tryIntern s = (.ok (Name.pack (shardOf s) (t.shardFor s).size), t.store s)) ∨
    (t.get? s = none ∧ ¬ (t.shardFor s).size ≤ Name.maxSlot ∧
      t.tryIntern s = (.error (.shardFull (shardOf s) (t.shardFor s).size), t)) := by
  cases hget : t.get? s with
  | some n => exact .inl ⟨n, rfl, tryIntern_of_get? hget⟩
  | none =>
    by_cases hfree : (t.shardFor s).size ≤ Name.maxSlot
    · exact .inr (.inl ⟨rfl, hfree, tryIntern_of_free hget hfree⟩)
    · exact .inr (.inr ⟨rfl, hfree, tryIntern_of_full hget hfree⟩)

@[simp] theorem shard_empty (i : Fin Name.numShards) : empty.shard i = .empty := by
  simp [shard, empty]

/-- Where the empty spelling is stored first, it is in the place written in `seeded`. -/
theorem store_empty : empty.store "" = seeded := by
  rw [store, shardFor, shard_empty, seeded]
  simp only [shardOf_empty]
  rfl

/-- Interned first, the empty spelling has the zero word for a name. -/
theorem tryIntern_empty : empty.tryIntern "" = (.ok Name.empty, seeded) := by
  have hget : empty.get? "" = none := by
    rw [get?, shardFor, shard_empty, Shard.slot?_empty, Option.map_none]
  have hsize : (empty.shardFor "").size = 0 := by
    rw [shardFor, shard_empty, Shard.size_empty]
  have hfree : (empty.shardFor "").size ≤ Name.maxSlot := by
    rw [hsize]
    exact Nat.zero_le _
  rw [tryIntern_of_free hget hfree, hsize, shardOf_empty, store_empty]
  rfl

/-- **A new interner is the seeded one after the built-in words.** -/
theorem new_eq_internAll_seeded : new = seeded.internAll builtins := by
  rw [new, initialSpellings, internAll, List.foldl_cons, tryIntern_empty]
  rfl

@[simp] theorem shardFor_store_self (t : Interner) (s : String) :
    (t.store s).shardFor s = (t.shardFor s).push s := by
  simp [store, shardFor, shard]

theorem shard_store_of_ne (t : Interner) (s : String) {i : Fin Name.numShards}
    (h : i ≠ shardOf s) : (t.store s).shard i = t.shard i := by
  simp only [store, shard, Fin.getElem_fin]
  rw [Vector.getElem_set_ne]
  exact fun h' => h (Fin.ext h'.symm)

end Interner
end ShaderSymbols
