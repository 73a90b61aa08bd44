import ShaderSymbols.Proofs.HandedOut

/-!
# The routes to a name

There are three ways to intern a spelling.  One gives up when the shard is full and one
goes on; the third first asks whether the spelling is held, so that its text is given away
only if it is new, and then goes the way of the others.  This file shows that none of this
can be told from the answer or from the interner that comes back, and what exactly comes
back: nothing has changed if the spelling was held, and one slot has been filled if not.

## Main definitions

* `Interner.Holds t s` — some shard of `t` has the spelling `s` in a slot.
* `Interner.Gains t s n t'` — `t'` has `s` in one more slot, with the name `n`, and is `t`
  otherwise.
* `Interner.Leads t s n t'` — all routes to a name for `s` lead from `t` to `n` and `t'`.

## Main results

* `Interner.Consistent.get?_eq_none_iff_not_holds` — the spellings without a name are those
  that are not held.
* `Interner.Consistent.gains_store` — storing a new spelling fills one slot and leaves
  everything else as it is.
* `Interner.leads_performAll` — **all routes lead to the same name and the same interner.**
-/

namespace ShaderSymbols
namespace Interner

/-! ### Holding a spelling -/

/-- Some shard has the spelling in a slot. -/
def Holds (t : Interner) (s : String) : Prop :=
  ∃ (i : Fin Name.numShards) (k : Nat), (t.shard i).spellings[k]? = some s

namespace Consistent

variable {t : Interner}

/-- The spellings that have a name are those that are held. -/
theorem exists_get?_iff_holds (h : t.Consistent) (s : String) :
    (∃ n, t.get? s = some n) ↔ t.Holds s := by
  constructor
  · rintro ⟨n, hn⟩
    have hspelling := h.get?_eq_some_iff.mp hn
    rw [Interner.spelling, Shard.spelling, fetch_eq_ok_iff] at hspelling
    exact ⟨n.shard, n.slot, hspelling⟩
  · rintro ⟨i, k, hk⟩
    -- a spelling is held by its own shard only, and that is where it is looked for
    obtain rfl := (h i).shardOf_eq k s hk
    have hslot := ((h (shardOf s)).slot?_eq_some_iff s k).mpr hk
    exact ⟨Name.pack (shardOf s) k, by rw [Interner.get?, shardFor, hslot, Option.map_some]⟩

/-- The spellings without a name are those that are not held. -/
theorem get?_eq_none_iff_not_holds (h : t.Consistent) (s : String) :
    t.get? s = none ↔ ¬ t.Holds s := by
  rw [← h.exists_get?_iff_holds, Option.eq_none_iff_forall_ne_some, not_exists]

end Consistent

/-! ### Gaining a spelling -/

/-- `t'` has the spelling `s` in one more slot, with the name `n`, and is `t` otherwise. -/
structure Gains (t : Interner) (s : String) (n : Name) (t' : Interner) : Prop where
  /-- The slot is the next one of the shard of the spelling, and no other is filled there. -/
  spellings_shardFor : (t'.shardFor s).spellings = (t.shardFor s).spellings.push s
  /-- The name says where the spelling is. -/
  name : n.shard = shardOf s ∧ n.slot = (t.shardFor s).size
  /-- Other shards are as they were. -/
  shard_of_ne : ∀ i, i ≠ shardOf s → t'.shard i = t.shard i
  /-- One more spelling is counted. -/
  count : t'.count = t.count + 1
  /-- Other spellings have the names they had, if any. -/
  get?_of_ne : ∀ s', s' ≠ s → t'.get? s' = t.get? s'
  /-- Other spellings belong to the names they belonged to. -/
  spelling_iff_of_ne : ∀ n' s', s' ≠ s → (t'.spelling n' = .ok s' ↔ t.spelling n' = .ok s')

/-- **Storing a new spelling fills one slot and leaves everything else as it is.** -/
theorem Consistent.gains_store {t : Interner} (h : t.Consistent) {s : String}
    (hnew : t.get? s = none) (hfree : (t.shardFor s).size ≤ Name.maxSlot) :
    t.Gains s (Name.pack (shardOf s) (t.shardFor s).size) (t.store s) where
  spellings_shardFor := by rw [shardFor_store_self, Shard.spellings_push]
  name := ⟨Name.shard_pack _ hfree, Name.slot_pack _ hfree⟩
  shard_of_ne := fun i hi => shard_store_of_ne t s hi
  count := rfl
  get?_of_ne := fun s' hs' => get?_store_of_ne t hs'
  spelling_iff_of_ne := by
    intro n' s' hs'
    rw [← (h.store hnew hfree).get?_eq_some_iff, get?_store_of_ne t hs', h.get?_eq_some_iff]

/-! ### All routes -/

/-- All routes to a name for the spelling `s` lead from `t` to `n` and `t'`. -/
structure Leads (t : Interner) (s : String) (n : Name) (t' : Interner) : Prop where
  /-- Whichever way the spelling is interned, the answer is the name, and the same interner
  comes back. -/
  intern : ∀ r : InternRequest, r.stored? = some s →
    t.reply r = .named (.ok n) ∧ t.perform r = t'
  /-- To ask changes nothing. -/
  ask : t.perform (.get s) = t
  /-- If the spelling was held, the name is found beforehand, and nothing has changed. -/
  of_holds : t.Holds s → t.reply (.get s) = .held (some n) ∧ t' = t
  /-- If not, no name is found beforehand, and the spelling has come in. -/
  of_not_holds : ¬ t.Holds s → t.reply (.get s) = .held none ∧ t.Gains s n t'
  /-- Afterwards the name and the spelling belong together, so to go any of the routes again
  gives the same name and changes nothing. -/
  belong : t'.Belong n s

theorem Consistent.exists_leads {t : Interner} (h : t.Consistent) (s : String)
    (hfree : (t.shardFor s).size ≤ Name.maxSlot) : ∃ n t', t.Leads s n t' := by
  have hroutes : ∀ {n : Name} {t' : Interner}, t.tryIntern s = (.ok n, t') →
      ∀ r : InternRequest, r.stored? = some s →
        t.reply r = .named (.ok n) ∧ t.perform r = t' := by
    intro n t' htry r hr
    rw [reply_of_stored? t hr, perform_of_stored? t hr, htry]
    exact ⟨rfl, rfl⟩
  rcases t.tryIntern_cases s with ⟨n, hget, htry⟩ | ⟨hget, -, htry⟩ | ⟨-, hfull, -⟩
  · have hholds : t.Holds s := (h.exists_get?_iff_holds s).mp ⟨n, hget⟩
    exact ⟨n, t, {
      intern := hroutes htry
      ask := rfl
      of_holds := fun _ => ⟨by rw [reply, hget], rfl⟩
      of_not_holds := fun hnot => absurd hholds hnot
      belong := h.belong (h.get?_eq_some_iff.mp hget) }⟩
  · have hnot : ¬ t.Holds s := (h.get?_eq_none_iff_not_holds s).mp hget
    exact ⟨_, t.store s, {
      intern := hroutes htry
      ask := rfl
      of_holds := fun hholds => absurd hholds hnot
      of_not_holds := fun _ => ⟨by rw [reply, hget], h.gains_store hget hfree⟩
      belong := (h.store hget hfree).belong (spelling_store t hfree) }⟩
  · exact absurd hfree hfull

/-- **All routes lead to the same name and the same interner.**  Say an interner that has
room has served the requests `rs`.  Then every spelling is interned, and whichever way it
is, the name and the interner that comes back are the same.  If the spelling was held, they
are the name that could be found beforehand and the interner as it was.  If not, no name
could be found beforehand; one slot of the shard of the spelling has been filled, one more
spelling is counted, and the names and spellings of all others are as they were.  To go any
of the routes again changes nothing. -/
theorem leads_performAll (rs : List InternRequest) (hroom : (new.performAll rs).Roomy)
    (s : String) : ∃ n t', (new.performAll rs).Leads s n t' :=
  (consistent_performAll rs).exists_leads s (hroom.size_shardFor_le s)

/-- After the requests of `session`, one of its spellings and a spelling of the same shard
that is new. -/
theorem leads_performAll_session :
    (new.performAll session).Roomy ∧
    (∃ t', (new.performAll session).Leads "light" ⟨0x60000000⟩ t' ∧
      t' = new.performAll session) ∧
    ∃ t', (new.performAll session).Leads "Light" ⟨0x60000001⟩ t' ∧
      (new.performAll session).Gains "Light" ⟨0x60000001⟩ t' := by
  have hroom : (new.performAll session).Roomy := by
    rw [Roomy]
    decide +kernel
  have hc := consistent_performAll session
  have hold : (new.performAll session).get? "light" = some ⟨0x60000000⟩ := by decide +kernel
  have hnew : (new.performAll session).get? "Light" = none := by decide +kernel
  have hsize : ((new.performAll session).shardFor "Light").size = 1 := by decide +kernel
  have hname : Name.pack (shardOf "Light") 1 = ⟨0x60000001⟩ := by decide +kernel
  obtain ⟨n, t, hlight⟩ := leads_performAll session hroom "light"
  obtain ⟨n', t', hLight⟩ := leads_performAll session hroom "Light"
  obtain ⟨hheld, hsame⟩ := hlight.of_holds ((hc.exists_get?_iff_holds _).mp ⟨_, hold⟩)
  obtain ⟨-, hgains⟩ := hLight.of_not_holds ((hc.get?_eq_none_iff_not_holds _).mp hnew)
  rw [reply, hold] at hheld
  cases hheld
  have hn' : n' = ⟨0x60000001⟩ := by
    rw [← hname, ← hsize, ← hgains.name.2, ← hgains.name.1, Name.pack_shard_slot]
  subst hn'
  exact ⟨hroom, ⟨t, hlight, hsame⟩, t', hLight, hgains⟩

end Interner
end ShaderSymbols
