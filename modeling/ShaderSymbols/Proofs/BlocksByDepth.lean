import Mathlib.Algebra.GroupWithZero.Nat
import Mathlib.Data.List.Basic
import ShaderSymbols.Proofs.NestedBlocks

/-!
# Blocks by their depth

Nested blocks are kept innermost first, while a declaration goes to a block of known
depth: that of the current block, or zero.  Seen by depth, blocks are a function on
the depths of the open blocks, and both records of a table can be read off this
function.  A declaration changes it at one depth, wherever that is.

## Main definitions

* `Binding.entry x d` — the entry of the binding `x` in a block at depth `d`.
* `BlockTable.blockAt t d` — the block at depth `d`.
* `BlockTable.Adds t d x t'` — the blocks `t'` are `t` with the binding `x` added at
  depth `d`.

## Main results

* `BlockTable.ext_blockAt` — nested blocks are determined by the blocks at all depths.
* `BlockTable.frames_stack_eq_map`, `BlockTable.live_eq_liveAt` — both records of a
  table, read off depth by depth.
* `BlockTable.exists_mem_live_iff` — at which depths a key has an entry.
* `BlockTable.Adds.frames_stack`, `BlockTable.Adds.live_self`,
  `BlockTable.Adds.live_of_ne` — **one more binding is one more key in one frame and
  one more entry in one list.**
-/

namespace ShaderSymbols

variable {ν : Type} {P : Namespace → Type}

/-- The entry of a binding in a block at depth `d`. -/
def Binding.entry (x : Binding Name P) (d : Nat) : Entry (Symbol P) :=
  ⟨x.name, x.symbol.space, x.symbol, d⟩

namespace BlockTable

/-! ### The block at a depth -/

/-- The block at depth `d`.  Where no block is open, it is empty. -/
def blockAt (t : BlockTable ν P) (d : Nat) : Block ν P := t.blocks.reverse[d]?.getD []

theorem length_reverse_blocks (t : BlockTable ν P) : t.blocks.reverse.length = t.depth + 1 := by
  rw [List.length_reverse, blocks, List.length_append, List.length_singleton, depth]

theorem blockAt_cons (b : Block ν P) (bs : List (Block ν P)) (o : Block ν P) (d : Nat) :
    (⟨b :: bs, o⟩ : BlockTable ν P).blockAt d =
      if d = bs.length + 1 then b else (⟨bs, o⟩ : BlockTable ν P).blockAt d := by
  have hreverse : (⟨b :: bs, o⟩ : BlockTable ν P).blocks.reverse =
      (⟨bs, o⟩ : BlockTable ν P).blocks.reverse ++ [b] := by
    rw [blocks, blocks, List.cons_append, List.reverse_cons]
  have hlength : (⟨bs, o⟩ : BlockTable ν P).blocks.reverse.length = bs.length + 1 :=
    length_reverse_blocks _
  rw [blockAt, blockAt, hreverse]
  rcases Nat.lt_trichotomy d (bs.length + 1) with hlt | rfl | hgt
  · rw [List.getElem?_append_left (by omega), if_neg (Nat.ne_of_lt hlt)]
  · rw [List.getElem?_append_right (by omega), hlength, Nat.sub_self, if_pos rfl]
    rfl
  · -- no block is open that deep
    rw [List.getElem?_eq_none_iff.mpr (by rw [List.length_append, List.length_singleton]; omega),
      if_neg (Nat.ne_of_gt hgt), List.getElem?_eq_none_iff.mpr (by omega)]

/-- The blocks outside the innermost one are where they were before it was entered. -/
theorem blockAt_cons_of_lt (b : Block ν P) {bs : List (Block ν P)} {d : Nat}
    (h : d < bs.length + 1) (o : Block ν P) :
    (⟨b :: bs, o⟩ : BlockTable ν P).blockAt d = (⟨bs, o⟩ : BlockTable ν P).blockAt d := by
  rw [blockAt_cons, if_neg (Nat.ne_of_lt h)]

@[simp] theorem blockAt_zero (t : BlockTable ν P) : t.blockAt 0 = t.outermost := by
  obtain ⟨inner, o⟩ := t
  rw [blockAt, blocks, List.reverse_append]
  rfl

@[simp] theorem blockAt_depth (t : BlockTable ν P) : t.blockAt t.depth = t.current := by
  obtain ⟨inner, o⟩ := t
  cases inner with
  | nil => rfl
  | cons b bs =>
    rw [blockAt_cons]
    exact if_pos rfl

/-- No block is open deeper than the current one. -/
theorem blockAt_of_depth_lt {t : BlockTable ν P} {d : Nat} (h : t.depth < d) :
    t.blockAt d = [] := by
  have hlength := t.length_reverse_blocks
  rw [blockAt, List.getElem?_eq_none_iff.mpr (by omega), Option.getD_none]

/-- If no block declares a key twice, the block at any depth does not. -/
theorem Distinct.nodup_keys_blockAt {t : BlockTable ν P} (h : t.Distinct) (d : Nat) :
    (Block.keys (t.blockAt d)).Nodup := by
  rw [blockAt]
  cases hd : t.blocks.reverse[d]? with
  | none => exact .nil
  | some b => exact h b (List.mem_reverse.mp (List.mem_of_getElem? hd))

/-- The blocks, outermost first, are the blocks at the depths from zero on. -/
theorem reverse_blocks_eq_map (t : BlockTable ν P) :
    t.blocks.reverse = (List.range (t.depth + 1)).map t.blockAt := by
  have hlength := t.length_reverse_blocks
  refine List.ext_getElem? fun d => ?_
  rw [List.getElem?_map]
  rcases Nat.lt_or_ge d (t.depth + 1) with hlt | hge
  · rw [List.getElem?_range hlt, Option.map_some, blockAt,
      List.getElem?_eq_getElem (by omega), Option.getD_some]
  · rw [List.getElem?_eq_none_iff.mpr (by omega),
      List.getElem?_eq_none_iff.mpr (by rw [List.length_range]; omega), Option.map_none]

/-- **Nested blocks are determined by the blocks at all depths.** -/
theorem ext_blockAt {t t' : BlockTable ν P} (hdepth : t.depth = t'.depth)
    (h : ∀ d, t.blockAt d = t'.blockAt d) : t = t' := by
  have hblocks : t.blocks = t'.blocks := by
    rw [← List.reverse_inj, reverse_blocks_eq_map, reverse_blocks_eq_map, hdepth, funext h]
  obtain ⟨hinner, houtermost⟩ := List.append_inj' hblocks rfl
  obtain ⟨inner, o⟩ := t
  obtain ⟨inner', o'⟩ := t'
  obtain rfl : inner = inner' := hinner
  obtain rfl : o = o' := List.singleton_inj.mp houtermost
  rfl

/-! ### The two records, depth by depth -/

/-- The frames, outermost first, are those of the blocks at the depths from zero on. -/
theorem frames_stack_eq_map (t : BlockTable ν P) :
    t.stack.frames = (List.range (t.depth + 1)).map fun d => Block.frame (t.blockAt d) d := by
  obtain ⟨inner, o⟩ := t
  induction inner with
  | nil => rfl
  | cons b bs ih =>
    have hframes : (⟨b :: bs, o⟩ : BlockTable ν P).stack.frames =
        (⟨bs, o⟩ : BlockTable ν P).stack.frames ++ [Block.frame b (bs.length + 1)] :=
      ScopeStack.frames_of_leave (leave_stack_cons b bs o)
    have hrange : List.range ((⟨b :: bs, o⟩ : BlockTable ν P).depth + 1) =
        List.range ((⟨bs, o⟩ : BlockTable ν P).depth + 1) ++ [bs.length + 1] :=
      List.range_succ
    rw [hframes, ih, hrange, List.map_append, List.map_singleton, blockAt_cons, if_pos rfl]
    refine congrArg (· ++ _) (List.map_congr_left fun d hd => ?_)
    rw [blockAt_cons_of_lt b (List.mem_range.mp hd)]

theorem getElem?_frames_stack (t : BlockTable ν P) (i : Nat) :
    t.stack.frames[i]? = if i ≤ t.depth then some (Block.frame (t.blockAt i) i) else none := by
  rw [frames_stack_eq_map, List.getElem?_map]
  split
  · next hle => rw [List.getElem?_range (Nat.lt_succ_of_le hle), Option.map_some]
  · next hlt =>
    rw [List.getElem?_eq_none_iff.mpr (by rw [List.length_range]; omega), Option.map_none]

/-- The frames hold as many keys as the blocks hold bindings. -/
theorem sum_length_frames_stack (t : BlockTable ν P) :
    (t.stack.frames.map fun f => f.declared.length).sum = t.size := by
  have hlength : (t.stack.frames.map fun f => f.declared.length) =
      t.blocks.reverse.map List.length := by
    rw [frames_stack_eq_map, reverse_blocks_eq_map, List.map_map, List.map_map]
    refine List.map_congr_left fun d _ => ?_
    simp [Block.frame]
  rw [hlength, List.map_reverse, List.sum_reverse, size, List.length_flatten]

/-- The entries of a key in the blocks at the given depths. -/
def liveAt (t : BlockTable Name P) (k : Key Name) (depths : List Nat) : List (Entry (Symbol P)) :=
  depths.flatMap fun d => (Block.entryAt (t.blockAt d) k d).toList

theorem liveAt_append_cons (t : BlockTable Name P) (k : Key Name) (l r : List Nat) (d : Nat) :
    t.liveAt k (l ++ d :: r) =
      t.liveAt k l ++ ((Block.entryAt (t.blockAt d) k d).toList ++ t.liveAt k r) := by
  rw [liveAt, List.flatMap_append, List.flatMap_cons]
  rfl

theorem depth_mem_of_mem_liveAt {t : BlockTable Name P} {k : Key Name} {depths : List Nat}
    {e : Entry (Symbol P)} (h : e ∈ t.liveAt k depths) : e.depth ∈ depths := by
  obtain ⟨d, hd, he⟩ := List.mem_flatMap.mp h
  rwa [(Block.mem_entryAt he).2.1]

/-- The entries at the given depths depend on the blocks at these depths only. -/
theorem liveAt_congr {t t' : BlockTable Name P} {k : Key Name} {depths : List Nat}
    (h : ∀ d ∈ depths, Block.entryAt (t.blockAt d) k d = Block.entryAt (t'.blockAt d) k d) :
    t.liveAt k depths = t'.liveAt k depths :=
  List.flatMap_congr fun d hd => congrArg Option.toList (h d hd)

/-- The entries of a key are those at all depths, the deepest first. -/
theorem live_eq_liveAt (t : BlockTable Name P) (k : Key Name) :
    t.live k = t.liveAt k (List.range (t.depth + 1)).reverse := by
  obtain ⟨inner, o⟩ := t
  induction inner with
  | nil => exact (List.append_nil _).symm
  | cons b bs ih =>
    have hrange : (List.range ((⟨b :: bs, o⟩ : BlockTable Name P).depth + 1)).reverse =
        [] ++ (bs.length + 1) ::
          (List.range ((⟨bs, o⟩ : BlockTable Name P).depth + 1)).reverse := by
      rw [depth, List.length_cons, List.range_succ, List.reverse_append]
      rfl
    rw [live_cons, ih, hrange, liveAt_append_cons, blockAt_cons, if_pos rfl]
    refine congrArg (_ ++ ·) (liveAt_congr fun d hd => ?_)
    rw [List.mem_reverse, List.mem_range] at hd
    rw [blockAt_cons_of_lt b hd]

/-- A key has an entry of depth `i` if and only if the block at depth `i` declares it. -/
theorem exists_mem_live_iff {t : BlockTable Name P} {k : Key Name} {i : Nat} :
    (∃ e ∈ t.live k, e.depth = i) ↔ k ∈ Block.keys (t.blockAt i) := by
  rw [live_eq_liveAt]
  constructor
  · rintro ⟨e, he, rfl⟩
    obtain ⟨d, -, hd⟩ := List.mem_flatMap.mp he
    obtain ⟨hk, rfl, -⟩ := Block.mem_entryAt hd
    exact hk
  · intro hk
    have hle : i ≤ t.depth := by
      by_contra hlt
      rw [blockAt_of_depth_lt (Nat.lt_of_not_le hlt)] at hk
      cases hk
    have hi : i ∈ (List.range (t.depth + 1)).reverse :=
      List.mem_reverse.mpr (List.mem_range.mpr (Nat.lt_succ_of_le hle))
    obtain ⟨s, hs⟩ := Block.entryAt_eq_some hk i
    refine ⟨⟨k.name, k.space, s, i⟩, List.mem_flatMap.mpr ⟨i, hi, ?_⟩, rfl⟩
    rw [hs]
    exact List.mem_singleton_self _

/-! ### One more binding -/

/-- The blocks `t'` are the blocks `t` with the binding `x` added at depth `d`. -/
structure Adds (t : BlockTable ν P) (d : Nat) (x : Binding ν P) (t' : BlockTable ν P) : Prop where
  /-- No block is entered or left. -/
  depth : t'.depth = t.depth
  /-- The block at depth `d` grows, and no other block changes. -/
  blockAt : ∀ i, t'.blockAt i = if i = d then x :: t.blockAt i else t.blockAt i

theorem adds_addOutermost (t : BlockTable ν P) (x : Binding ν P) :
    Adds t 0 x (t.addOutermost x) where
  depth := rfl
  blockAt := by
    intro i
    obtain ⟨inner, o⟩ := t
    cases i with
    | zero =>
      rw [blockAt_zero, if_pos rfl, blockAt_zero]
      rfl
    | succ i =>
      rw [if_neg (Nat.succ_ne_zero i)]
      simp [BlockTable.blockAt, blocks, addOutermost]

theorem adds_addCurrent (t : BlockTable ν P) (x : Binding ν P) :
    Adds t t.depth x (t.addCurrent x) where
  depth := t.depth_addCurrent x
  blockAt := by
    intro i
    obtain ⟨inner, o⟩ := t
    cases inner with
    | nil => exact (adds_addOutermost ⟨[], o⟩ x).blockAt i
    | cons b bs =>
      rw [addCurrent, blockAt_cons, blockAt_cons]
      show _ = if i = bs.length + 1 then _ else _
      split <;> rfl

namespace Adds

variable {t t' : BlockTable ν P} {d : Nat} {x : Binding ν P}

/-- The binding goes to a block that is open. -/
theorem le_depth (h : Adds t d x t') : d ≤ t.depth := by
  by_contra hlt
  have hempty := blockAt_of_depth_lt (t := t') (d := d) (by rw [h.depth]; omega)
  rw [h.blockAt, if_pos rfl] at hempty
  cases hempty

/-- A block declares what it did, and the new key if it is the block that grows. -/
theorem mem_keys_blockAt (h : Adds t d x t') (k : Key ν) (i : Nat) :
    k ∈ Block.keys (t'.blockAt i) ↔ (k = x.key ∧ i = d) ∨ k ∈ Block.keys (t.blockAt i) := by
  rw [h.blockAt]
  split
  · next hi => simp [hi]
  · next hi => simp [hi]

/-- **One more binding is one more key in one frame.** -/
theorem frames_stack (h : Adds t d x t') :
    t'.stack.frames = t.stack.frames.modify d (·.note x.key) := by
  refine List.ext_getElem? fun i => ?_
  rw [List.getElem?_modify, getElem?_frames_stack, getElem?_frames_stack, h.depth, h.blockAt]
  by_cases hi : i = d
  · subst hi
    split <;> simp [Block.frame, Frame.note]
  · simp [hi, Ne.symm hi]

end Adds

namespace Adds

variable {t t' : BlockTable Name P} {d : Nat} {x : Binding Name P}

/-- The entries of other keys stay as they are. -/
theorem live_of_ne (h : Adds t d x t') {k : Key Name} (hk : k ≠ x.key) : t'.live k = t.live k := by
  rw [live_eq_liveAt, live_eq_liveAt, h.depth]
  refine liveAt_congr fun i _ => ?_
  rw [h.blockAt]
  split
  · rw [Block.entryAt_cons, if_neg (Ne.symm hk)]
  · rfl

/-- At other depths the entries stay as they are. -/
theorem liveAt_of_notMem (h : Adds t d x t') {depths : List Nat} (hd : d ∉ depths)
    (k : Key Name) : t'.liveAt k depths = t.liveAt k depths := by
  refine liveAt_congr fun i hi => ?_
  have hne : i ≠ d := fun hid => hd (hid ▸ hi)
  rw [h.blockAt, if_neg hne]

/-- **One more binding is one more entry in one list.**  It stands between the deeper
entries and the others. -/
theorem live_self (h : Adds t d x t') (hx : x.key ∉ Block.keys (t.blockAt d)) :
    ∃ deeper others, t.live x.key = deeper ++ others ∧
      t'.live x.key = deeper ++ x.entry d :: others ∧
      (∀ e ∈ deeper, d < e.depth) ∧ ∀ e ∈ others, e.depth < d := by
  -- the open depths are those above `d`, then `d`, then those below
  obtain ⟨below, above, hrange⟩ :=
    List.append_of_mem (List.mem_range.mpr (Nat.lt_succ_of_le h.le_depth))
  have hreverse : (List.range (t.depth + 1)).reverse = above.reverse ++ d :: below.reverse := by
    rw [hrange, List.reverse_append, List.reverse_cons, List.append_assoc, List.singleton_append]
  have hsorted := List.pairwise_lt_range (n := t.depth + 1)
  rw [hrange, List.pairwise_append, List.pairwise_cons] at hsorted
  obtain ⟨-, ⟨habove, -⟩, hbelow⟩ := hsorted
  have hdeeper : ∀ i ∈ above.reverse, d < i := fun i hi => habove i (List.mem_reverse.mp hi)
  have hothers : ∀ i ∈ below.reverse, i < d :=
    fun i hi => hbelow i (List.mem_reverse.mp hi) d List.mem_cons_self
  refine ⟨t.liveAt x.key above.reverse, t.liveAt x.key below.reverse, ?_, ?_, ?_, ?_⟩
  · rw [live_eq_liveAt, hreverse, liveAt_append_cons, Block.entryAt_eq_none_iff.mpr hx]
    rfl
  · rw [live_eq_liveAt, h.depth, hreverse, liveAt_append_cons, h.blockAt, if_pos rfl,
      Block.entryAt_cons, if_pos rfl,
      h.liveAt_of_notMem fun hd => Nat.lt_irrefl d (hdeeper d hd),
      h.liveAt_of_notMem fun hd => Nat.lt_irrefl d (hothers d hd)]
    rfl
  · exact fun e he => hdeeper e.depth (depth_mem_of_mem_liveAt he)
  · exact fun e he => hothers e.depth (depth_mem_of_mem_liveAt he)

end Adds
end BlockTable
end ShaderSymbols
