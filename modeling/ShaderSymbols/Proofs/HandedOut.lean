import Mathlib.Data.List.Induction
import ShaderSymbols.Proofs.FirstOccurrences

/-!
# Names that have been handed out

Any word can be taken for a name, but only a name that the interner has handed out has
a spelling.  Such a name and its spelling belong together: each is found from the other,
interning the spelling gives the name and stores nothing, and all this stays so whatever
the interner is asked later.

## Main definitions

* `Interner.HandedOut rs n` — the name `n` came with a new interner, or it answered one
  of the requests `rs`.
* `Interner.GivenFor rs n s` — the same, for the spelling `s`.
* `Interner.Belong t n s` — all routes of `t` lead from `n` to `s` and back.

## Main results

* `Interner.Belong.performAll` — a name and a spelling that belong together do so for
  good.
* `Interner.spelling_eq_ok_iff_givenFor` — a name has the spelling that it was given for.
* `Interner.exists_spelling_iff_handedOut` — the names that have spellings are those that
  were handed out.
* `Interner.belong_performAll` — **names and spellings belong together, one to one and
  for good.**
-/

namespace ShaderSymbols
namespace Interner

/-! ### Belonging together -/

/-- A name and a spelling belong together: all routes lead from one to the other. -/
structure Belong (t : Interner) (n : Name) (s : String) : Prop where
  /-- The name has the spelling. -/
  spelling : t.spelling n = .ok s
  /-- The spelling has the name. -/
  get? : t.get? s = some n
  /-- Whichever way the spelling is interned, the answer is the name, and the interner
  stays as it is. -/
  intern : ∀ r : InternRequest, r.stored? = some s →
    t.reply r = .named (.ok n) ∧ t.perform r = t

theorem Consistent.belong {t : Interner} (h : t.Consistent) {n : Name} {s : String}
    (hn : t.spelling n = .ok s) : t.Belong n s where
  spelling := hn
  get? := h.get?_eq_some_iff.mpr hn
  intern := by
    intro r hr
    have hget : t.get? s = some n := h.get?_eq_some_iff.mpr hn
    rw [reply_of_stored? t hr, perform_of_stored? t hr, tryIntern_of_get? hget]
    exact ⟨rfl, rfl⟩

/-- One of the two routes between a name and a spelling is enough for all. -/
theorem belong_of_spelling_or_get? {rs : List InternRequest} {n : Name} {s : String}
    (h : (new.performAll rs).spelling n = .ok s ∨ (new.performAll rs).get? s = some n) :
    (new.performAll rs).Belong n s := by
  have hc := consistent_performAll rs
  apply hc.belong
  rcases h with hn | hs
  · exact hn
  · exact hc.get?_eq_some_iff.mp hs

/-- **What belongs together does so for good.** -/
theorem Belong.performAll {rs : List InternRequest} {n : Name} {s : String}
    (h : (new.performAll rs).Belong n s) (rs' : List InternRequest) :
    (new.performAll (rs ++ rs')).Belong n s := by
  apply belong_of_spelling_or_get?
  rw [performAll_append]
  exact .inl ((extends_performAll _ rs').spelling h.spelling)

/-- Of two pairs that belong together, the names are equal exactly if the spellings are. -/
theorem Belong.name_eq_iff {t : Interner} {n n' : Name} {s s' : String} (h : t.Belong n s)
    (h' : t.Belong n' s') : n = n' ↔ s = s' := by
  constructor
  · rintro rfl
    exact Except.ok.inj (h.spelling.symm.trans h'.spelling)
  · rintro rfl
    exact Option.some.inj (h.get?.symm.trans h'.get?)

/-! ### Handing out -/

/-- A name that came with a new interner, or that answered a request. -/
inductive HandedOut (rs : List InternRequest) (n : Name) : Prop
  /-- It is the name of an initial spelling. -/
  | initial (s : String) (hs : s ∈ initialSpellings) (hn : new.get? s = some n)
  /-- A request to intern a spelling was answered with it. -/
  | answered (i : Nat) (r : InternRequest) (s : String) (hr : rs[i]? = some r)
    (hs : r.stored? = some s) (hn : (new.performAll (rs.take i)).reply r = .named (.ok n))

section HandedOut

variable {rs : List InternRequest}

/-- The names of initial spellings belong to them in every interner. -/
theorem belong_of_initial (rs : List InternRequest) {n : Name} {s : String}
    (hs : s ∈ initialSpellings) (hn : new.get? s = some n) : (new.performAll rs).Belong n s := by
  obtain ⟨n', hnew, hget⟩ := exists_get?_initial rs hs
  obtain rfl : n' = n := Option.some.inj (hnew.symm.trans hn)
  exact belong_of_spelling_or_get? (.inr hget)

/-- The answer to a request to intern a spelling belongs to the spelling. -/
theorem exists_reply_belong (hroom : (new.performAll rs).Roomy) {i : Nat} {r : InternRequest}
    {s : String} (hr : rs[i]? = some r) (hs : r.stored? = some s) :
    ∃ n, (new.performAll (rs.take i)).reply r = .named (.ok n) ∧
      (new.performAll rs).Belong n s := by
  obtain ⟨n, hreply, hget⟩ := reply_performAll_take hroom hr hs
  exact ⟨n, hreply, belong_of_spelling_or_get? (.inr hget)⟩

end HandedOut

/-! ### What a name was given for -/

/-- The name was given for the spelling, at the start or in answer to a request. -/
inductive GivenFor (rs : List InternRequest) (n : Name) (s : String) : Prop
  /-- The spelling is an initial one, and the name is its name. -/
  | initial (hs : s ∈ initialSpellings) (hn : new.get? s = some n)
  /-- A request to intern the spelling was answered with the name. -/
  | answered (i : Nat) (r : InternRequest) (hr : rs[i]? = some r) (hs : r.stored? = some s)
    (hn : (new.performAll (rs.take i)).reply r = .named (.ok n))

section GivenFor

variable {rs : List InternRequest} {n : Name} {s : String}

theorem handedOut_iff_givenFor : HandedOut rs n ↔ ∃ s, GivenFor rs n s := by
  constructor
  · rintro (⟨s, hs, hn⟩ | ⟨i, r, s, hr, hs, hn⟩)
    · exact ⟨s, .initial hs hn⟩
    · exact ⟨s, .answered i r hr hs hn⟩
  · rintro ⟨s, ⟨hs, hn⟩ | ⟨i, r, hr, hs, hn⟩⟩
    · exact .initial s hs hn
    · exact .answered i r s hr hs hn

/-- What was given stays given. -/
theorem GivenFor.append (h : GivenFor rs n s) (rs' : List InternRequest) :
    GivenFor (rs ++ rs') n s := by
  cases h with
  | initial hs hn => exact .initial hs hn
  | answered i r hr hs hn =>
    have hi : i < rs.length := (List.getElem?_eq_some_iff.mp hr).1
    refine .answered i r ?_ hs ?_
    · rw [List.getElem?_append_left hi, hr]
    · rw [List.take_append_of_le_length (Nat.le_of_lt hi), hn]

/-- A spelling that a name has after a request was there before, or the request was to
intern it and was answered with the name. -/
theorem Consistent.spelling_of_perform {t : Interner} (h : t.Consistent) {r : InternRequest}
    (hn : (t.perform r).spelling n = .ok s) :
    t.spelling n = .ok s ∨ r.stored? = some s ∧ t.reply r = .named (.ok n) := by
  cases hr : r.stored? with
  | none =>
    rw [perform_of_stored?_eq_none t hr] at hn
    exact .inl hn
  | some s' =>
    rw [reply_of_stored? t hr]
    rw [perform_of_stored? t hr] at hn
    rcases t.tryIntern_cases s' with ⟨n', -, htry⟩ | ⟨hget, hfree, htry⟩ | ⟨-, -, htry⟩
    · rw [htry] at hn
      exact .inl hn
    · rw [htry] at hn ⊢
      rw [← (h.store hget hfree).get?_eq_some_iff] at hn
      by_cases hs : s = s'
      · subst hs
        rw [get?_store_self, Option.some_inj] at hn
        exact .inr ⟨rfl, by rw [hn]⟩
      · rw [get?_store_of_ne t hs] at hn
        exact .inl (h.get?_eq_some_iff.mp hn)
    · rw [htry] at hn
      exact .inl hn

theorem givenFor_of_spelling : ∀ {rs : List InternRequest},
    (new.performAll rs).spelling n = .ok s → GivenFor rs n s := by
  intro rs
  induction rs using List.reverseRecOn with
  | nil =>
    intro hn
    rw [performAll_nil] at hn
    have hget := consistent_new.get?_eq_some_iff.mpr hn
    exact .initial ((follows_new.get?_eq_some_iff s n).mp hget).1 hget
  | append_singleton rs r ih =>
    intro hn
    rw [performAll_append] at hn
    rcases (consistent_performAll rs).spelling_of_perform hn with hbefore | ⟨hs, hreply⟩
    · exact (ih hbefore).append [r]
    · refine .answered rs.length r ?_ hs ?_
      · rw [List.getElem?_append_right (Nat.le_refl _), Nat.sub_self]
        rfl
      · rwa [List.take_left]

theorem GivenFor.spelling (h : GivenFor rs n s) : (new.performAll rs).spelling n = .ok s := by
  cases h with
  | initial hs hn => exact (belong_of_initial rs hs hn).spelling
  | answered i r hr hs hn =>
    obtain ⟨hi, rfl⟩ := List.getElem?_eq_some_iff.mp hr
    have hsplit : new.performAll rs =
        ((new.performAll (rs.take i)).perform rs[i]).performAll (rs.drop (i + 1)) := by
      rw [← performAll_cons, ← List.drop_eq_getElem_cons hi, ← performAll_append,
        List.take_append_drop]
    rw [reply_of_stored? _ hs, InternReply.named.injEq] at hn
    have hthen : ((new.performAll (rs.take i)).perform rs[i]).spelling n = .ok s := by
      rw [perform_of_stored? _ hs]
      exact (consistent_performAll _).spelling_of_tryIntern (Prod.ext hn rfl)
    rw [hsplit]
    exact (extends_performAll _ _).spelling hthen

/-- **A name has the spelling that it was given for**, and no other name has any. -/
theorem spelling_eq_ok_iff_givenFor :
    (new.performAll rs).spelling n = .ok s ↔ GivenFor rs n s :=
  ⟨givenFor_of_spelling, GivenFor.spelling⟩

/-- **The names that have spellings are those that were handed out.** -/
theorem exists_spelling_iff_handedOut :
    (∃ s, (new.performAll rs).spelling n = .ok s) ↔ HandedOut rs n := by
  rw [handedOut_iff_givenFor]
  exact exists_congr fun s => spelling_eq_ok_iff_givenFor

end GivenFor

/-! ### Names and spellings -/

/-- **Names and spellings belong together, one to one and for good.**  Say an interner
that has room has served the requests `rs`.  A name has a spelling exactly if it was
handed out; then, and also when it is found from the spelling, the two belong together,
now and after any further requests `rs'`.  Every initial spelling has a name, every
request to intern a spelling was answered with its name, and two names are equal exactly
if their spellings are. -/
theorem belong_performAll (rs : List InternRequest) (hroom : (new.performAll rs).Roomy) :
    (∀ n, (∃ s, (new.performAll rs).spelling n = .ok s) ↔ HandedOut rs n) ∧
    (∀ n s, (new.performAll rs).spelling n = .ok s ∨ (new.performAll rs).get? s = some n →
      ∀ rs', (new.performAll (rs ++ rs')).Belong n s) ∧
    (∀ s ∈ initialSpellings, ∃ n, new.get? s = some n ∧ (new.performAll rs).Belong n s) ∧
    (∀ (i : Nat) (r : InternRequest) (s : String), rs[i]? = some r → r.stored? = some s →
      ∃ n, (new.performAll (rs.take i)).reply r = .named (.ok n) ∧
        (new.performAll rs).Belong n s) ∧
    ∀ n n' s s', (new.performAll rs).Belong n s → (new.performAll rs).Belong n' s' →
      (n = n' ↔ s = s') := by
  refine ⟨fun n => exists_spelling_iff_handedOut, ?_, ?_, ?_, ?_⟩
  · intro n s h rs'
    exact (belong_of_spelling_or_get? h).performAll rs'
  · intro s hs
    obtain ⟨n, hnew, -⟩ := exists_get?_initial rs hs
    exact ⟨n, hnew, belong_of_initial rs hs hnew⟩
  · intro i r s hr hs
    exact exists_reply_belong hroom hr hs
  · intro n n' s s' h h'
    exact h.name_eq_iff h'

/-- A session that interns a spelling twice, and asks for the spelling of a forged name. -/
def session : List InternRequest :=
  [.intern "light", .spelling ⟨0xF0000009⟩, .getOrIntern "light", .tryIntern "dir"]

theorem belong_performAll_session :
    (new.performAll session).Roomy ∧
    HandedOut session ⟨0x60000000⟩ ∧ ¬ HandedOut session ⟨0xF0000009⟩ ∧
    ∀ rs', (new.performAll (session ++ rs')).Belong ⟨0x60000000⟩ "light" := by
  have hroom : (new.performAll session).Roomy := by
    rw [Roomy]
    decide +kernel
  obtain ⟨hspelling, hbelong, -⟩ := belong_performAll session hroom
  have hlight : (new.performAll session).spelling ⟨0x60000000⟩ = .ok "light" := by
    rw [Interner.spelling, Shard.spelling, fetch_eq_ok_iff]
    decide +kernel
  have hforged : ∀ s, (new.performAll session).spelling ⟨0xF0000009⟩ ≠ .ok s := by
    intro s hs
    rw [Interner.spelling, Shard.spelling, fetch_eq_ok_iff] at hs
    have hnone : ((new.performAll session).shard (Name.mk 0xF0000009).shard).spellings[
        (Name.mk 0xF0000009).slot]? = none := by decide +kernel
    rw [hnone] at hs
    cases hs
  refine ⟨hroom, (hspelling _).mp ⟨_, hlight⟩, ?_, hbelong _ _ (.inl hlight)⟩
  intro hout
  obtain ⟨s, hs⟩ := (hspelling _).mpr hout
  exact hforged s hs

end Interner
end ShaderSymbols
