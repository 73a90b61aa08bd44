import ShaderSymbols.Interner.Request

/-!
# Names and spellings belong together

An interner keeps every spelling twice, in the list that finds the spelling of a
name and in the map that finds the name of a spelling.  In every interner that can
come about the two are inverse to each other, and they stay so for good, because an
interner only ever grows.

## Main definitions

* `Shard.Consistent`, `Interner.Consistent` — map and list of each shard are inverse
  to each other, and hold what belongs there.
* `Interner.Extends t t'` — `t'` holds what `t` holds, in the same places.

## Main results

* `Interner.Consistent.get?_eq_some_iff` — a name belongs to a spelling if and only
  if the spelling belongs to the name.
* `Interner.Extends.spelling` — a name keeps its spelling.
* `Interner.Consistent.exists_intern` — while there is room, interning succeeds.
-/

namespace ShaderSymbols

/-! ### One shard -/

namespace Shard

/-- The map of a shard is inverse to its list; the list holds spellings of this shard
only and is not longer than a name can count. -/
structure Consistent (t : Shard) (i : Fin Name.numShards) : Prop where
  slot?_eq_some_iff : ∀ (s : String) (k : Nat), t.slot? s = some k ↔ t.spellings[k]? = some s
  shardOf_eq : ∀ (k : Nat) (s : String), t.spellings[k]? = some s → shardOf s = i
  size_le : t.size ≤ Name.numSlots

theorem consistent_empty (i : Fin Name.numShards) : empty.Consistent i where
  slot?_eq_some_iff := by simp [empty, slot?]
  shardOf_eq := by simp [empty]
  size_le := Nat.zero_le _

namespace Consistent

variable {t : Shard} {i : Fin Name.numShards}

theorem slot_le_maxSlot (h : t.Consistent i) {k : Nat} {s : String}
    (hk : t.spellings[k]? = some s) : k ≤ Name.maxSlot := by
  have hlt : k < t.size := (Array.getElem?_eq_some_iff.mp hk).1
  have hle := h.size_le
  simp only [Name.numSlots, Name.maxSlot] at hle ⊢
  omega

/-- Storing a new spelling where it belongs keeps a shard consistent. -/
theorem push (h : t.Consistent i) {s : String} (hs : shardOf s = i) (hnew : t.slot? s = none)
    (hfree : t.size ≤ Name.maxSlot) : (t.push s).Consistent i where
  slot?_eq_some_iff := by
    intro s' k
    rw [spellings_push, Array.getElem?_push]
    by_cases hs' : s' = s
    · subst hs'
      rw [slot?_push_self, Option.some.injEq]
      constructor
      · rintro rfl
        exact if_pos rfl
      · intro hk
        split at hk
        · next hsize => exact hsize.symm
        · -- the spelling would have been stored before
          rw [(h.slot?_eq_some_iff s' k).mpr hk] at hnew
          exact absurd hnew (Option.some_ne_none k)
    · rw [slot?_push_of_ne t hs', h.slot?_eq_some_iff]
      split
      · next hsize =>
        have hnone : t.spellings[k]? = none := by rw [hsize]; simp
        rw [hnone]
        exact iff_of_false (Option.some_ne_none s').symm fun he => hs' (Option.some.inj he).symm
      · rfl
  shardOf_eq := by
    intro k s' hk
    rw [spellings_push, Array.getElem?_push] at hk
    split at hk
    · rw [← Option.some.inj hk, hs]
    · exact h.shardOf_eq k s' hk
  size_le := by
    rw [size_push]
    simp only [Name.maxSlot, Name.numSlots] at hfree ⊢
    omega

end Consistent
end Shard

namespace Interner

/-! ### Growing -/

/-- One interner holds what the other holds, in the same places. -/
def Extends (t t' : Interner) : Prop :=
  ∀ i, (t.shard i).spellings.toList <+: (t'.shard i).spellings.toList

theorem Extends.refl (t : Interner) : t.Extends t := fun _ => List.prefix_rfl

theorem Extends.trans {t t' t'' : Interner} (h : t.Extends t') (h' : t'.Extends t'') :
    t.Extends t'' :=
  fun i => (h i).trans (h' i)

/-- A name keeps its spelling. -/
theorem Extends.spelling {t t' : Interner} (h : t.Extends t') {n : Name} {s : String}
    (hs : t.spelling n = .ok s) : t'.spelling n = .ok s := by
  rw [Interner.spelling, Shard.spelling, fetch_eq_ok_iff, ← Array.getElem?_toList] at hs ⊢
  obtain ⟨rest, hrest⟩ := h n.shard
  have hlt := (List.getElem?_eq_some_iff.mp hs).1
  rw [← hrest, List.getElem?_append_left hlt]
  exact hs

theorem Extends.size_le {t t' : Interner} (h : t.Extends t') (i : Fin Name.numShards) :
    (t.shard i).size ≤ (t'.shard i).size :=
  (h i).length_le

/-- Room in an interner means room in all that it grew from. -/
theorem Extends.roomy {t t' : Interner} (h : t.Extends t') (hroom : t'.Roomy) : t.Roomy :=
  fun i => Nat.lt_of_le_of_lt (h.size_le i) (hroom i)

theorem extends_store (t : Interner) (s : String) : t.Extends (t.store s) := by
  intro i
  by_cases hi : i = shardOf s
  · subst hi
    show _ <+: ((t.store s).shardFor s).spellings.toList
    rw [shardFor_store_self, Shard.spellings_push, Array.toList_push]
    exact List.prefix_append _ _
  · have hsame : (t.store s).shard i = t.shard i := shard_store_of_ne t s hi
    exact ⟨[], by rw [List.append_nil, hsame]⟩

/-- Interning is `tryIntern` with the interner kept only when there is a name. -/
theorem tryIntern_of_intern {t t' : Interner} {s : String} {n : Name}
    (h : t.intern s = .ok (n, t')) : t.tryIntern s = (.ok n, t') := by
  rw [intern] at h
  split at h
  · next hs =>
    cases h
    exact hs
  · cases h

theorem extends_tryIntern (t : Interner) (s : String) : t.Extends (t.tryIntern s).2 :=
  keep_tryIntern (fun t' s' h _ _ => h.trans (t'.extends_store s')) (.refl t) s

theorem extends_intern {t t' : Interner} {s : String} {n : Name}
    (h : t.intern s = .ok (n, t')) : t.Extends t' := by
  have hext := t.extends_tryIntern s
  rw [tryIntern_of_intern h] at hext
  exact hext

theorem extends_perform (t : Interner) (r : InternRequest) : t.Extends (t.perform r) := by
  cases hr : r.stored? with
  | none =>
    rw [perform_of_stored?_eq_none t hr]
    exact .refl t
  | some s =>
    rw [perform_of_stored? t hr]
    exact t.extends_tryIntern s

/-! ### Consistency -/

/-- Every shard is consistent. -/
def Consistent (t : Interner) : Prop := ∀ i, (t.shard i).Consistent i

theorem consistent_empty : empty.Consistent := by
  intro i
  rw [shard_empty]
  exact Shard.consistent_empty i

namespace Consistent

variable {t : Interner}

/-- The name of a spelling says where the spelling is. -/
theorem get?_eq_some_iff_slot? (h : t.Consistent) {s : String} {n : Name} :
    t.get? s = some n ↔ n.shard = shardOf s ∧ (t.shardFor s).slot? s = some n.slot := by
  rw [get?, Option.map_eq_some_iff]
  constructor
  · -- the slot fits into a name, so the name gives it back
    rintro ⟨k, hslot, rfl⟩
    have hk := ((h (shardOf s)).slot?_eq_some_iff s k).mp hslot
    have hle := (h (shardOf s)).slot_le_maxSlot hk
    rw [Name.shard_pack _ hle, Name.slot_pack _ hle]
    exact ⟨rfl, hslot⟩
  · rintro ⟨hi, hslot⟩
    exact ⟨n.slot, hslot, by rw [← hi, Name.pack_shard_slot]⟩

/-- **A name belongs to a spelling if and only if the spelling belongs to the name.** -/
theorem get?_eq_some_iff (h : t.Consistent) {s : String} {n : Name} :
    t.get? s = some n ↔ t.spelling n = .ok s := by
  rw [h.get?_eq_some_iff_slot?, Interner.spelling, Shard.spelling, fetch_eq_ok_iff]
  constructor
  · rintro ⟨hi, hslot⟩
    rw [hi]
    exact ((h (shardOf s)).slot?_eq_some_iff s n.slot).mp hslot
  · -- the spelling is stored in the shard where it is looked for
    intro hk
    have hi := (h n.shard).shardOf_eq n.slot s hk
    refine ⟨hi.symm, ?_⟩
    rw [shardFor, hi]
    exact ((h n.shard).slot?_eq_some_iff s n.slot).mpr hk

/-- Different names have different spellings. -/
theorem spelling_inj (h : t.Consistent) {n n' : Name} {s : String} (hn : t.spelling n = .ok s)
    (hn' : t.spelling n' = .ok s) : n = n' := by
  rw [← h.get?_eq_some_iff] at hn hn'
  exact Option.some.inj (hn.symm.trans hn')

theorem store (h : t.Consistent) {s : String} (hnew : t.get? s = none)
    (hfree : (t.shardFor s).size ≤ Name.maxSlot) : (t.store s).Consistent := by
  intro i
  by_cases hi : i = shardOf s
  · subst hi
    show ((t.store s).shardFor s).Consistent _
    rw [shardFor_store_self]
    rw [get?, Option.map_eq_none_iff] at hnew
    exact (h (shardOf s)).push rfl hnew hfree
  · rw [shard_store_of_ne t s hi]
    exact h i

theorem tryIntern (h : t.Consistent) (s : String) : (t.tryIntern s).2.Consistent :=
  keep_tryIntern (fun _ _ h => h.store) h s

theorem perform (h : t.Consistent) (r : InternRequest) : (t.perform r).Consistent := by
  cases hr : r.stored? with
  | none =>
    rw [perform_of_stored?_eq_none t hr]
    exact h
  | some s =>
    rw [perform_of_stored? t hr]
    exact h.tryIntern s

theorem internAll (h : t.Consistent) (l : List String) : (t.internAll l).Consistent :=
  keep_internAll (fun _ _ h => h.store) h l

/-- A spelling just stored has the next name of its shard. -/
theorem spelling_store (t : Interner) {s : String} (hfree : (t.shardFor s).size ≤ Name.maxSlot) :
    (t.store s).spelling (Name.pack (shardOf s) (t.shardFor s).size) = .ok s := by
  rw [Interner.spelling, Name.shard_pack _ hfree, Name.slot_pack _ hfree]
  show ((t.store s).shardFor s).spelling _ = _
  rw [shardFor_store_self, Shard.spelling, fetch_eq_ok_iff, Shard.spellings_push, Shard.size,
    Array.getElem?_push_size]

/-- While there is room, interning succeeds, and the name that it gives has the
spelling. -/
theorem exists_intern (h : t.Consistent) (hroom : t.Roomy) (s : String) :
    ∃ n t', t.intern s = .ok (n, t') ∧ t' = (t.tryIntern s).2 ∧ t'.spelling n = .ok s := by
  cases hget : t.get? s with
  | some n =>
    refine ⟨n, t, ?_, ?_, h.get?_eq_some_iff.mp hget⟩ <;> simp [intern, tryIntern_of_get? hget]
  | none =>
    have hfree : (t.shardFor s).size ≤ Name.maxSlot := Nat.le_of_lt_succ (hroom (shardOf s))
    refine ⟨_, t.store s, ?_, ?_, spelling_store t hfree⟩ <;>
      simp [intern, tryIntern_of_free hget hfree]

theorem of_intern (h : t.Consistent) {s : String} {n : Name} {t' : Interner}
    (hs : t.intern s = .ok (n, t')) : t'.Consistent := by
  have hc := h.tryIntern s
  rw [tryIntern_of_intern hs] at hc
  exact hc

/-- The name that interning gives has the spelling. -/
theorem spelling_of_tryIntern (h : t.Consistent) {s : String} {n : Name} {t' : Interner}
    (hs : t.tryIntern s = (.ok n, t')) : t'.spelling n = .ok s := by
  rcases t.tryIntern_cases s with ⟨m, hget, htry⟩ | ⟨-, hfree, htry⟩ | ⟨-, -, htry⟩
  · cases htry.symm.trans hs
    exact h.get?_eq_some_iff.mp hget
  · cases htry.symm.trans hs
    exact spelling_store t hfree
  · cases htry.symm.trans hs

theorem spelling_of_intern (h : t.Consistent) {s : String} {n : Name} {t' : Interner}
    (hs : t.intern s = .ok (n, t')) : t'.spelling n = .ok s :=
  h.spelling_of_tryIntern (tryIntern_of_intern hs)

end Consistent

theorem consistent_new : new.Consistent := consistent_empty.internAll initialSpellings

end Interner
end ShaderSymbols
