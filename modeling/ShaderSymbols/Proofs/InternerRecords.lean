import Mathlib.Algebra.BigOperators.Fin
import ShaderSymbols.Proofs.FirstOccurrences

/-!
# The records of an interner

An interner keeps what it holds three times: in the list of each shard, in the map beside
it, and as one number that counts the spellings of all shards.  Nothing in the interner
compares the three.  This file says that they agree at all times, and that whatever is
packed into a name fits into it.

## Main definitions

* `Interner.Counted t` — the count is that of all shards together.
* `Interner.Packs t` — any name that `t` answers with is packed from the place of a
  spelling, and the place fits.
* `Interner.WellFormed t past` — the records of `t` are in order, and they hold what the
  history `past` brought.

## Main results

* `Interner.Counted.store`, `Interner.Counted.internAll` — the count goes up with the
  shards.
* `Interner.Consistent.packs` — what is packed fits.
* `Interner.wellFormed_performAll` — **the records agree after any requests.**
-/

namespace ShaderSymbols

/-! ### Lists without repeats -/

/-- No spelling is in two slots, for the map knows only one. -/
theorem Shard.Consistent.nodup_spellings {t : Shard} {i : Fin Name.numShards}
    (h : t.Consistent i) : t.spellings.toList.Nodup := by
  rw [List.nodup_iff_getElem?_ne_getElem?]
  intro k k' hlt hk' heq
  rw [List.getElem?_eq_getElem hk', Array.getElem?_toList] at heq
  have hslot := (h.slot?_eq_some_iff _ k).mpr heq
  have hslot' := (h.slot?_eq_some_iff t.spellings.toList[k'] k').mpr (by simp)
  rw [hslot, Option.some.injEq] at hslot'
  omega

/-! ### Names asked for and names given -/

/-- The name in an answer, if there is one. -/
def InternReply.name? : InternReply → Option Name
  | .named (.ok n) => some n
  | .held n? => n?
  | .named (.error _) | .spelled _ => none

/-- The spelling whose name a request asks for, interning it or not. -/
def InternRequest.asked? : InternRequest → Option String
  | .intern s | .tryIntern s | .getOrIntern s | .get s => some s
  | .spelling _ => none

theorem InternRequest.asked?_of_stored? {r : InternRequest} {s : String}
    (h : r.stored? = some s) : r.asked? = some s := by
  cases r with
  | intern s' => exact h
  | tryIntern s' => exact h
  | getOrIntern s' => exact h
  | get s' => cases h
  | spelling n => cases h

namespace Interner

/-! ### Counting -/

/-- The count of an interner is that of all its shards together. -/
structure Counted (t : Interner) : Prop where
  eq_sum : t.count = ∑ i, (t.shard i).size

theorem counted_empty : empty.Counted where
  eq_sum := by
    simp only [shard_empty, Shard.size_empty, Finset.sum_const_zero]
    rfl

/-- Storing a spelling fills one slot of its shard, and none of the others. -/
theorem size_shard_store (t : Interner) (s : String) (i : Fin Name.numShards) :
    ((t.store s).shard i).size = (t.shard i).size + if i = shardOf s then 1 else 0 := by
  by_cases hi : i = shardOf s
  · subst hi
    show ((t.store s).shardFor s).size = _
    rw [shardFor_store_self, Shard.size_push, if_pos rfl, shardFor]
  · rw [shard_store_of_ne t s hi, if_neg hi, Nat.add_zero]

namespace Counted

variable {t : Interner}

theorem store (h : t.Counted) (s : String) : (t.store s).Counted where
  eq_sum :=
    calc (t.store s).count
        = t.count + 1 := rfl
      _ = ∑ i, (t.shard i).size + 1 := by rw [h.eq_sum]
      _ = ∑ i, ((t.shard i).size + if i = shardOf s then 1 else 0) := by
        rw [Finset.sum_add_distrib, Finset.sum_ite_eq', if_pos (Finset.mem_univ _)]
      _ = ∑ i, ((t.store s).shard i).size := by simp only [size_shard_store]

theorem internAll (h : t.Counted) (l : List String) : (t.internAll l).Counted :=
  keep_internAll (fun _ s h _ _ => h.store s) h l

end Counted

theorem counted_performAll (rs : List InternRequest) : (new.performAll rs).Counted := by
  rw [performAll_new]
  exact counted_empty.internAll (history rs)

/-- The different spellings of a history are those of its shards. -/
theorem sum_card_occurring (past : List String) :
    ∑ i, (occurring past i).card = past.toFinset.card := by
  have hmaps : Set.MapsTo shardOf past.toFinset (Finset.univ : Finset (Fin Name.numShards)) :=
    fun s _ => Finset.mem_coe.mpr (Finset.mem_univ (shardOf s))
  exact (Finset.card_eq_sum_card_fiberwise hmaps).symm

/-! ### Packing -/

/-- Whatever name a request is answered with, it is packed from the shard of the spelling
that was asked for and the slot that the map has for it afterwards, and both fit.  A request
packs no other name than the one that it answers with. -/
def Packs (t : Interner) : Prop :=
  ∀ (r : InternRequest) (n : Name), (t.reply r).name? = some n →
    ∃ s k, r.asked? = some s ∧ ((t.perform r).shardFor s).slot? s = some k ∧
      n = Name.pack (shardOf s) k ∧ (shardOf s).val < 16 ∧ k ≤ Name.maxSlot

namespace Consistent

variable {t : Interner}

/-- The name of a spelling is packed from its slot, and the slot fits. -/
theorem exists_slot?_of_get? (h : t.Consistent) {s : String} {n : Name}
    (hs : t.get? s = some n) :
    ∃ k, (t.shardFor s).slot? s = some k ∧ n = Name.pack (shardOf s) k ∧ k ≤ Name.maxSlot := by
  obtain ⟨hi, hslot⟩ := h.get?_eq_some_iff_slot?.mp hs
  exact ⟨n.slot, hslot, by rw [← hi, Name.pack_shard_slot], n.slot_le_maxSlot⟩

/-- **What is packed fits.** -/
theorem packs (h : t.Consistent) : t.Packs := by
  intro r n hn
  cases hr : r.stored? with
  | some s =>
    rw [reply_of_stored? t hr] at hn
    cases htry : t.tryIntern s with
    | mk answer t' =>
      rw [htry] at hn
      cases answer with
      | error e => cases hn
      | ok m =>
        cases hn
        have hc : t'.Consistent := by
          have hc := h.tryIntern s
          rwa [htry] at hc
        have hget := hc.get?_eq_some_iff.mpr (h.spelling_of_tryIntern htry)
        obtain ⟨k, hslot, hname, hk⟩ := hc.exists_slot?_of_get? hget
        rw [perform_of_stored? t hr, htry]
        exact ⟨s, k, InternRequest.asked?_of_stored? hr, hslot, hname, (shardOf s).isLt, hk⟩
  | none =>
    rw [perform_of_stored?_eq_none t hr]
    cases r with
    | intern s => cases hr
    | tryIntern s => cases hr
    | getOrIntern s => cases hr
    | get s =>
      obtain ⟨k, hslot, hname, hk⟩ := h.exists_slot?_of_get? hn
      exact ⟨s, k, rfl, hslot, hname, (shardOf s).isLt, hk⟩
    | spelling m => cases hn

end Consistent

/-! ### All records -/

/-- The records of an interner are in order, they agree, and they hold what the history
`past` brought. -/
structure WellFormed (t : Interner) (past : List String) : Prop where
  /-- The map of a shard has the slot of a spelling exactly if the list has the spelling in
  that slot. -/
  slot?_eq_some_iff : ∀ (i : Fin Name.numShards) (s : String) (k : Nat),
    (t.shard i).slot? s = some k ↔ (t.shard i).spellings[k]? = some s
  /-- No list has a spelling twice. -/
  nodup_spellings : ∀ i, (t.shard i).spellings.toList.Nodup
  /-- A spelling is in its own shard. -/
  shardOf_eq : ∀ (i : Fin Name.numShards) (k : Nat) (s : String),
    (t.shard i).spellings[k]? = some s → shardOf s = i
  /-- The empty spelling is the first of the first shard. -/
  getElem?_zero : (t.shard 0).spellings[0]? = some ""
  /-- Every slot fits into a name. -/
  slot_le : ∀ (i : Fin Name.numShards) (s : String) (k : Nat),
    (t.shard i).slot? s = some k → k ≤ Name.maxSlot
  /-- So does whatever is packed. -/
  packs : t.Packs
  /-- The count is that of all shards together. -/
  count_eq_sum : t.count = ∑ i, (t.shard i).size
  /-- It is the number of different spellings that came. -/
  count_eq_card : t.count = past.toFinset.card
  /-- It is never so low that the interner passes for empty. -/
  isEmpty_eq_false : t.isEmpty = false

/-- The empty spelling stays where it was put first. -/
theorem spellings_zero_performAll (rs : List InternRequest) :
    ((new.performAll rs).shard 0).spellings[0]? = some "" := by
  have hgrown : seeded.Extends (new.performAll rs) := by
    rw [new_eq_internAll_seeded]
    exact (seeded.extends_internAll builtins).trans (extends_performAll _ rs)
  have hseeded : seeded.spelling Name.empty = .ok "" := rfl
  have hempty := hgrown.spelling hseeded
  rwa [Interner.spelling, Shard.spelling, fetch_eq_ok_iff] at hempty

/-- There are at least two spellings in any history. -/
theorem one_lt_card_history (rs : List InternRequest) : 1 < (history rs).toFinset.card := by
  have hmem : ∀ s ∈ initialSpellings, s ∈ (history rs).toFinset := fun s hs =>
    List.mem_toFinset.mpr (List.mem_append_left _ hs)
  exact Finset.one_lt_card.mpr
    ⟨"", hmem _ (by decide), "main", hmem _ (by decide), by decide⟩

/-- **The records agree after any requests.**  Say an interner that has room has served the
requests `rs`.  Its maps and lists are inverse to each other, each spelling is in its own
shard and the empty one comes first, all slots fit into names, and the count is that of all
shards together, which is the number of different spellings that came, the initial ones
included.  Names are packed from what fits, also while the initial spellings come in. -/
theorem wellFormed_performAll (rs : List InternRequest) (hroom : (new.performAll rs).Roomy) :
    (new.performAll rs).WellFormed (history rs) ∧
    ∀ l, l <+: initialSpellings → (empty.internAll l).Packs := by
  have hc := consistent_performAll rs
  have hsum := counted_performAll rs
  have hcard : (new.performAll rs).count = (history rs).toFinset.card := by
    rw [hsum.eq_sum, ← sum_card_occurring]
    exact Finset.sum_congr rfl fun i _ => (follows_performAll hroom).size_shard i
  refine ⟨?_, fun l _ => (consistent_empty.internAll l).packs⟩
  exact {
    slot?_eq_some_iff := fun i => (hc i).slot?_eq_some_iff
    nodup_spellings := fun i => (hc i).nodup_spellings
    shardOf_eq := fun i => (hc i).shardOf_eq
    getElem?_zero := spellings_zero_performAll rs
    slot_le := fun i s k hk => (hc i).slot_le_maxSlot (((hc i).slot?_eq_some_iff s k).mp hk)
    packs := hc.packs
    count_eq_sum := hsum.eq_sum
    count_eq_card := hcard
    isEmpty_eq_false := by
      have hlt := one_lt_card_history rs
      rw [isEmpty, hcard, decide_eq_false_iff_not]
      exact Nat.not_le_of_lt hlt }

/-- The four requests of `repeated` bring three spellings, beside the forty-two that are
there from the start. -/
theorem wellFormed_performAll_repeated :
    (new.performAll repeated).Roomy ∧ (new.performAll repeated).count = 45 ∧
    ∑ i, ((new.performAll repeated).shard i).size = 45 ∧
    (new.performAll repeated).isEmpty = false := by
  have hroom : (new.performAll repeated).Roomy := by
    rw [Roomy]
    decide +kernel
  obtain ⟨h, -⟩ := wellFormed_performAll repeated hroom
  have hcard : (history repeated).toFinset.card = 45 := by decide +kernel
  have hcount := h.count_eq_card.trans hcard
  exact ⟨hroom, hcount, h.count_eq_sum.symm.trans hcount, h.isEmpty_eq_false⟩

end Interner
end ShaderSymbols
