import ShaderSymbols.Proofs.FirstOccurrences

/-!
# The order of names

Names are ordered as words.  Since the shard stands in the high bits, this is the order by
shard and, within a shard, by slot.  Slots are handed out in order, so two spellings of one
shard have names in the order in which they first came.  That a shard may be full, and then
refuses what comes, makes no difference to the spellings that it holds.

## Main definitions

* `Interner.Arrived t past` — `t` holds spellings of the history `past`, within a shard in
  the order in which they first came, and has refused none but for want of a slot.

## Main results

* `Name.compare_eq_then` — names are ordered by shard first and by slot within a shard.
* `Interner.Arrived.tryIntern`, `Interner.arrived_performAll` — one more spelling, and any
  requests.
* `Interner.names_in_order` — **names are packed without loss, and they are ordered by
  shard and then by first occurrence.**
-/

namespace ShaderSymbols

/-! ### Names as numbers -/

/-- Two numbers compare as two others that are in the same order. -/
theorem compare_congr {a b c d : Nat} (hlt : a < b → c < d) (heq : a = b → c = d)
    (hgt : b < a → d < c) : compare a b = compare c d := by
  rcases Nat.lt_trichotomy a b with h | h | h
  · rw [Nat.compare_eq_lt.mpr h, Nat.compare_eq_lt.mpr (hlt h)]
  · rw [Nat.compare_eq_eq.mpr h, Nat.compare_eq_eq.mpr (heq h)]
  · rw [Nat.compare_eq_gt.mpr h, Nat.compare_eq_gt.mpr (hgt h)]

namespace Name

/-- As a number, a name counts its shard in steps of `numSlots`. -/
theorem toNat_raw (n : Name) : n.raw.toNat = n.shard.val * numSlots + n.slot := by
  rw [val_shard, slot_eq_mod, Nat.div_add_mod']

theorem slot_lt (n : Name) : n.slot < numSlots := by
  rw [slot_eq_mod]
  exact Nat.mod_lt _ (by decide)

theorem compare_eq_toNat (a b : Name) : compare a b = compare a.raw.toNat b.raw.toNat := by
  show compareOfLessAndEq a.raw b.raw = _
  simp only [compareOfLessAndEq, UInt32.lt_iff_toNat_lt, ← UInt32.toNat_inj]
  rfl

/-- **Names are ordered by shard first, and by slot within a shard.** -/
theorem compare_eq_then (a b : Name) :
    compare a b = (compare a.shard.val b.shard.val).then (compare a.slot b.slot) := by
  have ha := a.slot_lt
  have hb := b.slot_lt
  rw [compare_eq_toNat, toNat_raw, toNat_raw]
  -- a slot never reaches the next shard
  rcases Nat.lt_trichotomy a.shard.val b.shard.val with h | h | h
  · have hlt : a.shard.val * numSlots + a.slot < b.shard.val * numSlots + b.slot := by
      simp only [numSlots] at ha hb ⊢
      omega
    rw [Nat.compare_eq_lt.mpr h, Nat.compare_eq_lt.mpr hlt]
    rfl
  · rw [h, Nat.compare_eq_eq.mpr rfl, Ordering.eq_then]
    exact compare_congr (by omega) (by omega) (by omega)
  · have hgt : b.shard.val * numSlots + b.slot < a.shard.val * numSlots + a.slot := by
      simp only [numSlots] at ha hb ⊢
      omega
    rw [Nat.compare_eq_gt.mpr h, Nat.compare_eq_gt.mpr hgt]
    rfl

end Name

namespace Interner

/-! ### The order of arrival -/

/-- The interner holds spellings of a history, within a shard in the order in which they
first came, and has refused none but for want of a slot. -/
structure Arrived (t : Interner) (past : List String) : Prop where
  /-- What is held has come. -/
  mem_of_get? : ∀ s n, t.get? s = some n → s ∈ past
  /-- What has come is held, unless its shard is full. -/
  held_or_full : ∀ s ∈ past, (∃ n, t.get? s = some n) ∨ Name.maxSlot < (t.shardFor s).size
  /-- Of two spellings of one shard, the one in the lower slot came first. -/
  idxOf_lt : ∀ s s' n n', t.get? s = some n → t.get? s' = some n' → shardOf s = shardOf s' →
    n.slot < n'.slot → past.idxOf s < past.idxOf s'

theorem arrived_empty : empty.Arrived [] where
  mem_of_get? := by simp [get?, shardFor]
  held_or_full := by simp
  idxOf_lt := by simp [get?, shardFor]

/-- A name in an interner that has just stored a spelling is that of the spelling, or was
there before. -/
theorem get?_store_eq_some_iff (t : Interner) {s s' : String} {n : Name} :
    (t.store s).get? s' = some n ↔
      s' = s ∧ n = Name.pack (shardOf s) (t.shardFor s).size ∨ s' ≠ s ∧ t.get? s' = some n := by
  by_cases hs' : s' = s
  · subst hs'
    simp [get?_store_self, eq_comm]
  · simp [get?_store_of_ne t hs', hs']

/-- What is new comes last. -/
theorem idxOf_lt_of_new {past : List String} {s s' : String} (hs : s ∈ past) (hs' : s' ∉ past) :
    (past ++ [s']).idxOf s < (past ++ [s']).idxOf s' := by
  rw [List.idxOf_append_of_mem hs, List.idxOf_append_of_notMem hs']
  exact Nat.lt_of_lt_of_le (List.idxOf_lt_length_of_mem hs) (Nat.le_add_right _ _)

/-- A spelling that is held has a slot below the next free one. -/
theorem Consistent.slot_lt_size {t : Interner} (h : t.Consistent) {s : String} {n : Name}
    (hs : t.get? s = some n) : n.slot < (t.shardFor s).size := by
  obtain ⟨-, hslot⟩ := h.get?_eq_some_iff_slot?.mp hs
  exact (Array.getElem?_eq_some_iff.mp (((h _).slot?_eq_some_iff s n.slot).mp hslot)).1

namespace Arrived

variable {t : Interner} {past : List String}

/-- A spelling that changes nothing: it is held, or its shard is full. -/
theorem concat (h : t.Arrived past) {s : String}
    (hs : (∃ n, t.get? s = some n) ∨ Name.maxSlot < (t.shardFor s).size) :
    t.Arrived (past ++ [s]) where
  mem_of_get? := fun s' n hn => List.mem_append_left _ (h.mem_of_get? s' n hn)
  held_or_full := by
    intro s' hs'
    rcases List.mem_append.mp hs' with hs' | hs'
    · exact h.held_or_full s' hs'
    · rwa [List.mem_singleton.mp hs']
  idxOf_lt := by
    intro s₁ s₂ n₁ n₂ h₁ h₂ hi hlt
    rw [List.idxOf_append_of_mem (h.mem_of_get? s₁ n₁ h₁),
      List.idxOf_append_of_mem (h.mem_of_get? s₂ n₂ h₂)]
    exact h.idxOf_lt s₁ s₂ n₁ n₂ h₁ h₂ hi hlt

/-- A spelling for which there is room, and which is not held, has not come before. -/
theorem notMem (h : t.Arrived past) {s : String} (hnew : t.get? s = none)
    (hfree : (t.shardFor s).size ≤ Name.maxSlot) : s ∉ past := by
  intro hs
  rcases h.held_or_full s hs with ⟨n, hn⟩ | hfull
  · rw [hnew] at hn
    cases hn
  · exact absurd hfree (Nat.not_le_of_lt hfull)

/-- A new spelling comes after all others and gets a higher slot than those of its shard. -/
theorem store (h : t.Arrived past) (hc : t.Consistent) {s : String} (hnew : t.get? s = none)
    (hfree : (t.shardFor s).size ≤ Name.maxSlot) : (t.store s).Arrived (past ++ [s]) where
  mem_of_get? := by
    intro s' n hn
    rcases (get?_store_eq_some_iff t).mp hn with ⟨rfl, -⟩ | ⟨-, hn⟩
    · exact List.mem_append_right _ (List.mem_singleton_self s')
    · exact List.mem_append_left _ (h.mem_of_get? s' n hn)
  held_or_full := by
    intro s' hs'
    by_cases heq : s' = s
    · subst heq
      exact .inl ⟨_, get?_store_self t s'⟩
    · have hpast : s' ∈ past := by
        rw [List.mem_append, List.mem_singleton] at hs'
        exact hs'.resolve_right heq
      rw [get?_store_of_ne t heq]
      refine (h.held_or_full s' hpast).imp_right fun hfull => ?_
      exact Nat.lt_of_lt_of_le hfull ((t.extends_store s).size_le (shardOf s'))
  idxOf_lt := by
    intro s₁ s₂ n₁ n₂ h₁ h₂ hi hlt
    rcases (get?_store_eq_some_iff t).mp h₁ with ⟨rfl, rfl⟩ | ⟨-, h₁⟩
    · -- no slot of the shard is above that of the new spelling
      have hle : n₂.slot ≤ (t.shardFor s₁).size := by
        rcases (get?_store_eq_some_iff t).mp h₂ with ⟨rfl, rfl⟩ | ⟨-, h₂⟩
        · exact Nat.le_of_eq (Name.slot_pack _ hfree)
        · rw [shardFor, hi]
          exact Nat.le_of_lt (hc.slot_lt_size h₂)
      rw [Name.slot_pack _ hfree] at hlt
      exact absurd hle (Nat.not_le_of_lt hlt)
    · have hmem := h.mem_of_get? s₁ n₁ h₁
      rcases (get?_store_eq_some_iff t).mp h₂ with ⟨rfl, -⟩ | ⟨-, h₂⟩
      · exact idxOf_lt_of_new hmem (h.notMem hnew hfree)
      · rw [List.idxOf_append_of_mem hmem, List.idxOf_append_of_mem (h.mem_of_get? s₂ n₂ h₂)]
        exact h.idxOf_lt s₁ s₂ n₁ n₂ h₁ h₂ hi hlt

/-- **One more spelling**, whether it is held, stored or refused. -/
theorem tryIntern (h : t.Arrived past) (hc : t.Consistent) (s : String) :
    (t.tryIntern s).2.Arrived (past ++ [s]) := by
  rcases t.tryIntern_cases s with ⟨n, hget, htry⟩ | ⟨hget, hfree, htry⟩ | ⟨-, hfull, htry⟩
  · rw [htry]
    exact h.concat (.inl ⟨n, hget⟩)
  · rw [htry]
    exact h.store hc hget hfree
  · rw [htry]
    exact h.concat (.inr (Nat.lt_of_not_le hfull))

theorem internAll : ∀ (l : List String) {t : Interner} {past : List String},
    t.Arrived past → t.Consistent → (t.internAll l).Arrived (past ++ l) := by
  intro l
  induction l with
  | nil =>
    intro t past h _
    rw [List.append_nil]
    exact h
  | cons s l ih =>
    intro t past h hc
    rw [List.append_cons]
    exact ih (h.tryIntern hc s) (hc.tryIntern s)

/-! ### Names in order -/

/-- Slots of one shard are in the order in which their spellings first came. -/
theorem compare_slot (h : t.Arrived past) (hc : t.Consistent) {s s' : String} {n n' : Name}
    (hs : t.get? s = some n) (hs' : t.get? s' = some n') (hi : shardOf s = shardOf s') :
    compare n.slot n'.slot = compare (past.idxOf s) (past.idxOf s') := by
  refine compare_congr (h.idxOf_lt s s' n n' hs hs' hi) (fun hslot => ?_)
    (h.idxOf_lt s' s n' n hs' hs hi.symm)
  -- two spellings in one slot are the same
  obtain ⟨hn, -⟩ := hc.get?_eq_some_iff_slot?.mp hs
  obtain ⟨hn', -⟩ := hc.get?_eq_some_iff_slot?.mp hs'
  have hname : n = n' := by
    rw [← Name.pack_shard_slot n, ← Name.pack_shard_slot n', hn, hn', hi, hslot]
  have hspelling := hc.get?_eq_some_iff.mp hs
  rw [hname, hc.get?_eq_some_iff.mp hs'] at hspelling
  rw [Except.ok.inj hspelling]

/-- Names are in the order of the shards of their spellings, and within a shard in the
order in which the spellings first came. -/
theorem compare_eq_then (h : t.Arrived past) (hc : t.Consistent) {s s' : String} {n n' : Name}
    (hs : t.get? s = some n) (hs' : t.get? s' = some n') :
    (shardOf s = shardOf s' → compare n n' = compare (past.idxOf s) (past.idxOf s')) ∧
    (shardOf s ≠ shardOf s' → compare n n' = compare (shardOf s).val (shardOf s').val) := by
  obtain ⟨hn, -⟩ := hc.get?_eq_some_iff_slot?.mp hs
  obtain ⟨hn', -⟩ := hc.get?_eq_some_iff_slot?.mp hs'
  rw [Name.compare_eq_then, hn, hn']
  constructor
  · intro hi
    rw [hi, Nat.compare_eq_eq.mpr rfl, Ordering.eq_then]
    exact h.compare_slot hc hs hs' hi
  · intro hi
    cases hshard : compare (shardOf s).val (shardOf s').val with
    | lt => rfl
    | eq => exact absurd (Fin.ext (Nat.compare_eq_eq.mp hshard)) hi
    | gt => rfl

end Arrived

theorem arrived_performAll (rs : List InternRequest) :
    (new.performAll rs).Arrived (history rs) := by
  rw [performAll_new]
  exact arrived_empty.internAll (history rs) consistent_empty

/-- **Names are packed without loss, and they are in order.**  A name gives back the shard
and the slot that it was packed from; every word has a shard and a slot that fit, and is the
name packed from them.  Names are ordered by shard first and by slot within a shard.  So
after any requests, whether or not a shard is full, the names of two spellings are in the
order of their shards, and within a shard in the order in which the spellings first came. -/
theorem names_in_order (rs : List InternRequest) :
    (∀ (i : Fin Name.numShards) (k : Nat), k ≤ Name.maxSlot →
      (Name.pack i k).shard = i ∧ (Name.pack i k).slot = k) ∧
    (∀ w : UInt32, (Name.mk w).shard.val < 16 ∧ (Name.mk w).slot ≤ Name.maxSlot ∧
      Name.pack (Name.mk w).shard (Name.mk w).slot = Name.mk w) ∧
    (∀ a b : Name,
      compare a b = (compare a.shard.val b.shard.val).then (compare a.slot b.slot)) ∧
    ∀ s s' n n', (new.performAll rs).get? s = some n → (new.performAll rs).get? s' = some n' →
      (shardOf s = shardOf s' →
        compare n n' = compare ((history rs).idxOf s) ((history rs).idxOf s')) ∧
      (shardOf s ≠ shardOf s' → compare n n' = compare (shardOf s).val (shardOf s').val) := by
  refine ⟨fun i k hk => ⟨Name.shard_pack i hk, Name.slot_pack i hk⟩, fun w => ?_,
    Name.compare_eq_then, fun s s' n n' hs hs' => ?_⟩
  · exact ⟨(Name.mk w).shard.isLt, (Name.mk w).slot_le_maxSlot, Name.pack_shard_slot _⟩
  · exact (arrived_performAll rs).compare_eq_then (consistent_performAll rs) hs hs'

/-- Of the spellings of `repeated`, two share a shard; the third comes between them, and its
name follows both. -/
theorem names_in_order_repeated :
    (new.performAll repeated).get? "light" = some ⟨0x60000000⟩ ∧
    (new.performAll repeated).get? "Light" = some ⟨0x60000001⟩ ∧
    (new.performAll repeated).get? "dir" = some ⟨0xD0000001⟩ ∧
    compare (Name.mk 0x60000000) ⟨0x60000001⟩ = .lt ∧
    compare (Name.mk 0x60000001) ⟨0xD0000001⟩ = .lt := by
  have hlight : (new.performAll repeated).get? "light" = some ⟨0x60000000⟩ := by
    decide +kernel
  have hLight : (new.performAll repeated).get? "Light" = some ⟨0x60000001⟩ := by
    decide +kernel
  have hdir : (new.performAll repeated).get? "dir" = some ⟨0xD0000001⟩ := by decide +kernel
  obtain ⟨-, -, -, horder⟩ := names_in_order repeated
  have hidx : compare ((history repeated).idxOf "light") ((history repeated).idxOf "Light") =
      .lt := by decide +kernel
  have hshards : compare (shardOf "Light").val (shardOf "dir").val = .lt := by decide +kernel
  refine ⟨hlight, hLight, hdir, ?_, ?_⟩
  · exact ((horder _ _ _ _ hlight hLight).1 (by decide +kernel)).trans hidx
  · exact ((horder _ _ _ _ hLight hdir).2 (by decide +kernel)).trans hshards

end Interner
end ShaderSymbols
