import Mathlib.Data.Finset.Card
import Mathlib.Data.Finset.Dedup
import ShaderSymbols.Proofs.Interning

/-!
# Names follow first occurrences

An interner gives a spelling the next free slot of its shard when the spelling first
comes, and never again.  So the name of a spelling can be told from the history of
the interner alone, that is, from the spellings that came into it, in order: the slot
of a spelling counts the different spellings of its shard that came before it.

## Main definitions

* `Interner.history rs` — the spellings that come into a new interner on the requests
  `rs`, the initial ones included.
* `Interner.occurring`, `Interner.earlier` — the different spellings of a shard in a
  history, and those that occur before a given one.
* `Interner.Follows t past` — the names and the sizes of `t` are those that the history
  `past` calls for.
* `Interner.SameOrder i` — two histories bring the spellings of shard `i` in the same
  order, repeats apart.

## Main results

* `Interner.Follows.tryIntern` — one more spelling.
* `Interner.Follows.internAll` — an interner that has room follows its history.
* `Interner.slot_eq_card_earlier` — **a name is told from the order of first
  occurrences in its shard.**
-/

namespace ShaderSymbols
namespace Interner

/-! ### Histories -/

/-- The spellings that come into a new interner, the initial ones included. -/
def history (rs : List InternRequest) : List String :=
  initialSpellings ++ rs.filterMap InternRequest.stored?

theorem performAll_new (rs : List InternRequest) :
    new.performAll rs = empty.internAll (history rs) := by
  rw [performAll_eq_internAll, history, internAll_append, new]

/-- The different spellings of a shard in a history. -/
def occurring (past : List String) (i : Fin Name.numShards) : Finset String :=
  past.toFinset.filter fun t => shardOf t = i

/-- The different spellings of the shard of `s` that first occur before `s` does. -/
def earlier (past : List String) (s : String) : Finset String :=
  past.toFinset.filter fun t =>
    shardOf t = shardOf s ∧ past.idxOf t < past.idxOf s

section Occurrences

variable {past : List String}

theorem mem_occurring {i : Fin Name.numShards} {t : String} :
    t ∈ occurring past i ↔ t ∈ past ∧ shardOf t = i := by
  rw [occurring, Finset.mem_filter, List.mem_toFinset]

theorem mem_earlier {s t : String} :
    t ∈ earlier past s ↔
      t ∈ past ∧ shardOf t = shardOf s ∧ past.idxOf t < past.idxOf s := by
  rw [earlier, Finset.mem_filter, List.mem_toFinset]

/-- A repeat brings nothing new. -/
theorem occurring_concat_of_mem {s : String} (hs : s ∈ past) (i : Fin Name.numShards) :
    occurring (past ++ [s]) i = occurring past i := by
  ext t
  rw [mem_occurring, mem_occurring, List.mem_append, List.mem_singleton]
  refine and_congr_left fun _ => or_iff_left_of_imp ?_
  rintro rfl
  exact hs

theorem card_occurring_concat_self {s : String} (hs : s ∉ past) :
    (occurring (past ++ [s]) (shardOf s)).card =
      (occurring past (shardOf s)).card + 1 := by
  have hinsert : occurring (past ++ [s]) (shardOf s) =
      insert s (occurring past (shardOf s)) := by
    ext t
    rw [Finset.mem_insert, mem_occurring, mem_occurring, List.mem_append, List.mem_singleton]
    constructor
    · rintro ⟨ht | rfl, hshard⟩
      · exact .inr ⟨ht, hshard⟩
      · exact .inl rfl
    · rintro (rfl | ⟨ht, hshard⟩)
      · exact ⟨.inr rfl, rfl⟩
      · exact ⟨.inl ht, hshard⟩
  rw [hinsert, Finset.card_insert_of_notMem]
  exact fun hmem => hs (mem_occurring.mp hmem).1

/-- A spelling does not occur in the other shards. -/
theorem occurring_concat_of_ne {s : String} {i : Fin Name.numShards} (hi : i ≠ shardOf s) :
    occurring (past ++ [s]) i = occurring past i := by
  ext t
  rw [mem_occurring, mem_occurring, List.mem_append, List.mem_singleton]
  constructor
  · rintro ⟨ht | rfl, hshard⟩
    · exact ⟨ht, hshard⟩
    · exact absurd hshard.symm hi
  · rintro ⟨ht, hshard⟩
    exact ⟨.inl ht, hshard⟩

/-- What comes later does not change what came before a spelling. -/
theorem earlier_append_of_mem {s : String} (hs : s ∈ past) (later : List String) :
    earlier (past ++ later) s = earlier past s := by
  ext t
  rw [mem_earlier, mem_earlier, List.mem_append, List.idxOf_append_of_mem hs]
  by_cases ht : t ∈ past
  · rw [List.idxOf_append_of_mem ht, or_iff_left_of_imp fun _ => ht]
  · -- `t` first occurs after the whole of `past`
    have hlt := List.idxOf_lt_length_of_mem hs
    rw [List.idxOf_append_of_notMem ht]
    refine iff_of_false ?_ ?_
    · rintro ⟨-, -, hidx⟩
      omega
    · rintro ⟨hmem, -⟩
      exact ht hmem

/-- Before a new spelling come all that are there. -/
theorem earlier_concat_self {s : String} (hs : s ∉ past) :
    earlier (past ++ [s]) s = occurring past (shardOf s) := by
  ext t
  rw [mem_earlier, mem_occurring, List.mem_append, List.mem_singleton,
    List.idxOf_append_of_notMem hs]
  constructor
  · rintro ⟨ht | rfl, hshard, hidx⟩
    · exact ⟨ht, hshard⟩
    · rw [List.idxOf_append_of_notMem hs] at hidx
      exact absurd hidx (Nat.lt_irrefl _)
  · rintro ⟨ht, hshard⟩
    have hlt := List.idxOf_lt_length_of_mem ht
    rw [List.idxOf_append_of_mem ht]
    exact ⟨.inl ht, hshard, by omega⟩

end Occurrences

/-! ### Storing a spelling -/

/-- A spelling just stored has the next slot. -/
theorem get?_store_self (t : Interner) (s : String) :
    (t.store s).get? s = some (Name.pack (shardOf s) (t.shardFor s).size) := by
  rw [get?, shardFor_store_self, Shard.slot?_push_self, Option.map_some]

/-- Storing a spelling does not change the names of others. -/
theorem get?_store_of_ne (t : Interner) {s s' : String} (h : s' ≠ s) :
    (t.store s).get? s' = t.get? s' := by
  rw [get?, get?]
  by_cases hi : shardOf s' = shardOf s
  · have hshard : (t.store s).shardFor s' = (t.shardFor s').push s := by
      rw [shardFor, shardFor, hi]
      exact shardFor_store_self t s
    rw [hshard, Shard.slot?_push_of_ne _ h]
  · rw [shardFor, shard_store_of_ne t s hi, shardFor]

/-! ### Following a history -/

/-- The names and the sizes of an interner are those that a history calls for. -/
structure Follows (t : Interner) (past : List String) : Prop where
  /-- Every spelling that came has the slot that counts those before it. -/
  get?_eq_some_iff : ∀ s n, t.get? s = some n ↔
    s ∈ past ∧ n = Name.pack (shardOf s) (earlier past s).card
  /-- A shard holds the different spellings that came into it. -/
  size_shard : ∀ i, (t.shard i).size = (occurring past i).card

theorem follows_empty : empty.Follows [] where
  get?_eq_some_iff := by simp [get?, shardFor]
  size_shard := by simp [occurring]

namespace Follows

variable {t : Interner} {past : List String}

theorem get?_of_mem (h : t.Follows past) {s : String} (hs : s ∈ past) :
    t.get? s = some (Name.pack (shardOf s) (earlier past s).card) :=
  (h.get?_eq_some_iff s _).mpr ⟨hs, rfl⟩

theorem get?_eq_none_iff (h : t.Follows past) {s : String} :
    t.get? s = none ↔ s ∉ past := by
  rw [Option.eq_none_iff_forall_ne_some]
  constructor
  · intro hnone hs
    exact hnone _ (h.get?_of_mem hs)
  · intro hs n hn
    exact hs ((h.get?_eq_some_iff s n).mp hn).1

/-- There are no more spellings before a given one than its shard holds. -/
theorem card_earlier_le (h : t.Follows past) (s : String) :
    (earlier past s).card ≤ (t.shardFor s).size := by
  rw [shardFor, h.size_shard]
  refine Finset.card_le_card fun s' hs' => ?_
  obtain ⟨hmem, hshard, -⟩ := mem_earlier.mp hs'
  exact mem_occurring.mpr ⟨hmem, hshard⟩

/-- A spelling that is new gets the next slot of its shard. -/
theorem store (h : t.Follows past) {s : String} (hs : s ∉ past) :
    (t.store s).Follows (past ++ [s]) where
  get?_eq_some_iff := by
    intro s' n
    by_cases hs' : s' = s
    · subst hs'
      rw [get?_store_self, earlier_concat_self hs, shardFor, h.size_shard, Option.some_inj]
      constructor
      · rintro rfl
        exact ⟨List.mem_append_right _ (List.mem_singleton_self _), rfl⟩
      · rintro ⟨-, rfl⟩
        rfl
    · rw [get?_store_of_ne t hs', h.get?_eq_some_iff, List.mem_append, List.mem_singleton,
        or_iff_left hs']
      refine and_congr_right fun hmem => ?_
      rw [earlier_append_of_mem hmem]
  size_shard := by
    intro i
    by_cases hi : i = shardOf s
    · subst hi
      rw [card_occurring_concat_self hs, ← h.size_shard]
      show ((t.store s).shardFor s).size = _
      rw [shardFor_store_self, Shard.size_push, shardFor]
    · rw [shard_store_of_ne t s hi, occurring_concat_of_ne hi, h.size_shard]

/-- **One more spelling.**  It is answered with the name that the history calls for. -/
theorem tryIntern (h : t.Follows past) {s : String}
    (hfree : (t.shardFor s).size ≤ Name.maxSlot) :
    (t.tryIntern s).1 = .ok (Name.pack (shardOf s) (earlier (past ++ [s]) s).card) ∧
      (t.tryIntern s).2.Follows (past ++ [s]) := by
  by_cases hs : s ∈ past
  · rw [tryIntern_of_get? (h.get?_of_mem hs), earlier_append_of_mem hs]
    refine ⟨rfl, ⟨fun s' n => ?_, fun i => ?_⟩⟩
    · have hmem : s' ∈ past ++ [s] ↔ s' ∈ past := by
        rw [List.mem_append, List.mem_singleton]
        refine or_iff_left_of_imp ?_
        rintro rfl
        exact hs
      rw [h.get?_eq_some_iff, hmem]
      refine and_congr_right fun hs' => ?_
      rw [earlier_append_of_mem hs']
    · rw [occurring_concat_of_mem hs, h.size_shard]
  · have hsize : (t.shardFor s).size = (occurring past (shardOf s)).card :=
      h.size_shard (shardOf s)
    rw [tryIntern_of_free (h.get?_eq_none_iff.mpr hs) hfree, earlier_concat_self hs, hsize]
    exact ⟨rfl, h.store hs⟩

end Follows

theorem extends_internAll (t : Interner) (l : List String) : t.Extends (t.internAll l) :=
  keep_internAll (fun t' s h _ _ => h.trans (t'.extends_store s)) (.refl t) l

/-- Room in an interner is a free slot for every spelling. -/
theorem Roomy.size_shardFor_le {t : Interner} (h : t.Roomy) (s : String) :
    (t.shardFor s).size ≤ Name.maxSlot :=
  Nat.le_of_lt_succ (h (shardOf s))

/-- **An interner that has room follows its history.** -/
theorem Follows.internAll : ∀ (l : List String) {t : Interner} {past : List String},
    t.Follows past → (t.internAll l).Roomy → (t.internAll l).Follows (past ++ l) := by
  intro l
  induction l with
  | nil =>
    intro t past h _
    rw [List.append_nil]
    exact h
  | cons s l ih =>
    intro t past h hroom
    have hnow : t.Roomy := (t.extends_internAll (s :: l)).roomy hroom
    obtain ⟨-, hnext⟩ := h.tryIntern (hnow.size_shardFor_le s)
    rw [List.append_cons]
    exact ih hnext hroom

theorem roomy_new : new.Roomy := by
  rw [Roomy]
  decide +kernel

theorem follows_new : new.Follows initialSpellings := by
  have hroom := roomy_new
  rw [new] at hroom ⊢
  exact follows_empty.internAll initialSpellings hroom

theorem follows_performAll {rs : List InternRequest} (hroom : (new.performAll rs).Roomy) :
    (new.performAll rs).Follows (history rs) := by
  rw [performAll_new] at hroom ⊢
  exact follows_empty.internAll (history rs) hroom

/-! ### Requests -/

theorem history_append (rs rs' : List InternRequest) :
    history (rs ++ rs') = history rs ++ rs'.filterMap InternRequest.stored? := by
  rw [history, history, List.filterMap_append, List.append_assoc]

theorem consistent_performAll (rs : List InternRequest) : (new.performAll rs).Consistent := by
  rw [performAll_eq_internAll]
  exact consistent_new.internAll _

theorem extends_performAll (t : Interner) (rs : List InternRequest) :
    t.Extends (t.performAll rs) := by
  rw [performAll_eq_internAll]
  exact t.extends_internAll _

/-- Room after all requests is room after the first of them. -/
theorem roomy_performAll_take {rs : List InternRequest} (hroom : (new.performAll rs).Roomy)
    (i : Nat) : (new.performAll (rs.take i)).Roomy := by
  have happend : new.performAll rs = (new.performAll (rs.take i)).performAll (rs.drop i) := by
    rw [← performAll_append, List.take_append_drop]
  rw [happend] at hroom
  exact (extends_performAll _ _).roomy hroom

/-- The spelling that a request brings in belongs to the history. -/
theorem mem_history_of_getElem? {rs : List InternRequest} {i : Nat} {r : InternRequest}
    {s : String} (hr : rs[i]? = some r) (hs : r.stored? = some s) : s ∈ history rs :=
  List.mem_append_right _ (List.mem_filterMap.mpr ⟨r, List.mem_of_getElem? hr, hs⟩)

/-- The history splits at a request that brings in a spelling. -/
theorem exists_history_eq {rs : List InternRequest} {i : Nat} {r : InternRequest} {s : String}
    (hr : rs[i]? = some r) (hs : r.stored? = some s) :
    ∃ later, history rs = history (rs.take i) ++ [s] ++ later := by
  obtain ⟨hi, rfl⟩ := List.getElem?_eq_some_iff.mp hr
  refine ⟨(rs.drop (i + 1)).filterMap InternRequest.stored?, ?_⟩
  have hsplit : rs = rs.take i ++ rs[i] :: rs.drop (i + 1) := by
    rw [← List.drop_eq_getElem_cons hi, List.take_append_drop]
  conv_lhs => rw [hsplit]
  rw [history_append, List.filterMap_cons_some hs, List.append_assoc, List.singleton_append]

/-- **Every request that brings in a spelling is answered with its name.** -/
theorem reply_performAll_take {rs : List InternRequest} (hroom : (new.performAll rs).Roomy)
    {i : Nat} {r : InternRequest} {s : String} (hr : rs[i]? = some r)
    (hs : r.stored? = some s) :
    ∃ n, (new.performAll (rs.take i)).reply r = .named (.ok n) ∧
      (new.performAll rs).get? s = some n := by
  have hnow := roomy_performAll_take hroom i
  obtain ⟨hname, -⟩ := (follows_performAll hnow).tryIntern (hnow.size_shardFor_le s)
  obtain ⟨later, hlater⟩ := exists_history_eq hr hs
  have hmem : s ∈ history (rs.take i) ++ [s] :=
    List.mem_append_right _ (List.mem_singleton_self s)
  refine ⟨_, by rw [reply_of_stored? _ hs, hname], ?_⟩
  rw [(follows_performAll hroom).get?_of_mem (mem_history_of_getElem? hr hs), hlater,
    earlier_append_of_mem hmem]

/-- A new interner has a name for each initial spelling, and it stays the name. -/
theorem exists_get?_initial (rs : List InternRequest) {s : String}
    (hs : s ∈ initialSpellings) :
    ∃ n, new.get? s = some n ∧ (new.performAll rs).get? s = some n := by
  have hget := follows_new.get?_of_mem hs
  refine ⟨_, hget, ?_⟩
  rw [(consistent_performAll rs).get?_eq_some_iff]
  exact (extends_performAll new rs).spelling (consistent_new.get?_eq_some_iff.mp hget)

/-! ### Histories that agree -/

/-- Two histories bring the spellings of a shard in the same order, repeats apart. -/
structure SameOrder (i : Fin Name.numShards) (past past' : List String) : Prop where
  /-- The same spellings come. -/
  mem_iff : ∀ s, shardOf s = i → (s ∈ past ↔ s ∈ past')
  /-- Of two of them the same one comes first. -/
  idxOf_lt_iff : ∀ s s', shardOf s = i → shardOf s' = i → s ∈ past → s' ∈ past →
    (past.idxOf s < past.idxOf s' ↔ past'.idxOf s < past'.idxOf s')

theorem SameOrder.earlier_eq {i : Fin Name.numShards} {past past' : List String}
    (h : SameOrder i past past') {s : String} (hi : shardOf s = i) (hs : s ∈ past) :
    earlier past s = earlier past' s := by
  subst hi
  ext t
  rw [mem_earlier, mem_earlier]
  constructor
  · rintro ⟨ht, hshard, hidx⟩
    exact ⟨(h.mem_iff t hshard).mp ht, hshard, (h.idxOf_lt_iff t s hshard rfl ht hs).mp hidx⟩
  · rintro ⟨ht, hshard, hidx⟩
    have ht' := (h.mem_iff t hshard).mpr ht
    exact ⟨ht', hshard, (h.idxOf_lt_iff t s hshard rfl ht' hs).mpr hidx⟩

/-- Interners whose histories agree in a shard have the same names there. -/
theorem Follows.get?_eq {t t' : Interner} {past past' : List String} (h : t.Follows past)
    (h' : t'.Follows past') {s : String} (hsame : SameOrder (shardOf s) past past') :
    t.get? s = t'.get? s := by
  by_cases hs : s ∈ past
  · rw [h.get?_of_mem hs, h'.get?_of_mem ((hsame.mem_iff s rfl).mp hs),
      hsame.earlier_eq rfl hs]
  · rw [h.get?_eq_none_iff.mpr hs, h'.get?_eq_none_iff.mpr (mt (hsame.mem_iff s rfl).mpr hs)]

/-- **A name is told from the order of first occurrences in its shard.**  Say an
interner that has room has served the requests `rs`.  Every spelling that came has a
name in its own shard, whose slot is the number of different spellings of that shard
that came before it; this name answered every request to intern the spelling.  So
another interner, to which the spellings of a shard came in the same order, has the
same names in it; and the initial spellings have the same names in all interners. -/
theorem slot_eq_card_earlier (rs : List InternRequest) (hroom : (new.performAll rs).Roomy) :
    (∀ s ∈ history rs, ∃ n, (new.performAll rs).get? s = some n ∧ n.shard = shardOf s ∧
      n.slot = (earlier (history rs) s).card) ∧
    (∀ (i : Nat) (r : InternRequest) (s : String), rs[i]? = some r → r.stored? = some s →
      ∃ n, (new.performAll (rs.take i)).reply r = .named (.ok n) ∧
        (new.performAll rs).get? s = some n) ∧
    (∀ rs' : List InternRequest, (new.performAll rs').Roomy →
      ∀ i, SameOrder i (history rs) (history rs') →
        ∀ s, shardOf s = i → (new.performAll rs).get? s = (new.performAll rs').get? s) ∧
    ∀ s ∈ initialSpellings, ∃ n, new.get? s = some n ∧ (new.performAll rs).get? s = some n := by
  have hfollows := follows_performAll hroom
  refine ⟨fun s hs => ?_, ?_, ?_, fun s hs => exists_get?_initial rs hs⟩
  · have hle : (earlier (history rs) s).card ≤ Name.maxSlot :=
      Nat.le_trans (hfollows.card_earlier_le s) (hroom.size_shardFor_le s)
    exact ⟨_, hfollows.get?_of_mem hs, Name.shard_pack _ hle, Name.slot_pack _ hle⟩
  · intro i r s hr hs
    exact reply_performAll_take hroom hr hs
  · rintro rs' hroom' i hsame s rfl
    exact hfollows.get?_eq (follows_performAll hroom') hsame

/-- Two spellings of one shard, one of them twice, and one of another shard. -/
def repeated : List InternRequest :=
  [.intern "light", .tryIntern "dir", .getOrIntern "light", .intern "Light"]

/-- The two spellings of one shard alone. -/
def plain : List InternRequest := [.get "Light", .getOrIntern "light", .tryIntern "Light"]

theorem sameOrder_repeated_plain : SameOrder 6 (history repeated) (history plain) := by
  have hleft : ∀ s ∈ history repeated, shardOf s = 6 → s ∈ history plain := by decide +kernel
  have hright : ∀ s ∈ history plain, shardOf s = 6 → s ∈ history repeated := by decide +kernel
  have hidx : ∀ s ∈ history repeated, shardOf s = 6 → ∀ s' ∈ history repeated, shardOf s' = 6 →
      ((history repeated).idxOf s < (history repeated).idxOf s' ↔
        (history plain).idxOf s < (history plain).idxOf s') := by decide +kernel
  refine ⟨fun s hi => ⟨fun hs => hleft s hs hi, fun hs => hright s hs hi⟩, ?_⟩
  intro s s' hi hi' hs hs'
  exact hidx s hs hi s' hs' hi'

theorem slot_eq_card_earlier_repeated :
    (new.performAll repeated).Roomy ∧
    (∃ n, (new.performAll repeated).get? "Light" = some n ∧ n.shard = 6 ∧ n.slot = 1) ∧
    (new.performAll repeated).get? "Light" = (new.performAll plain).get? "Light" := by
  have hroom : (new.performAll repeated).Roomy := by
    rw [Roomy]
    decide +kernel
  have hroom' : (new.performAll plain).Roomy := by
    rw [Roomy]
    decide +kernel
  obtain ⟨hslot, -, hsame, -⟩ := slot_eq_card_earlier repeated hroom
  obtain ⟨n, hn, hshard, hcard⟩ := hslot "Light" (by decide +kernel)
  have hone : (earlier (history repeated) "Light").card = 1 := by decide +kernel
  have hsix : shardOf "Light" = 6 := by decide +kernel
  exact ⟨hroom, ⟨n, hn, hshard.trans hsix, hcard.trans hone⟩,
    hsame plain hroom' 6 sameOrder_repeated_plain "Light" hsix⟩

end Interner
end ShaderSymbols
