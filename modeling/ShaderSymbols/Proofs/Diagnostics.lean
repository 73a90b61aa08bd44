import ShaderSymbols.Proofs.HandedOut
import ShaderSymbols.Proofs.Texts

/-!
# What the author of a shader is told

A refused declaration is reported with the spelling of its name, which is looked up when
the text is made.  The interner may have grown since, the spelling may hold anything, the
backticks around it included, and the name may be forged.  This file shows that the text
names the spelling that the name was given for, that errors about different keys have
different texts, and that there is no text for a name that was never given.

Nothing here needs room in the interner: a shard that is full refuses spellings, but the
names it gave stay as good as they were.

## Main definitions

* `ScopeError.key?` — the key that an error is about, if it is about one.
* `ScopeError.Known rs e` — the name in the error `e`, if there is one, was handed out.

## Main results

* `ScopeError.describe_of_spelling`, `ScopeError.describe_of_not_handedOut` — what is told.
* `ScopeError.describe_performAll` — **a diagnostic names the right symbol.**
-/

namespace ShaderSymbols

/-! ### What is told -/

namespace ScopeError

open Interner

/-- The key that the error is about, if it is about one. -/
def key? {ν : Type} : ScopeError ν → Option (Key ν)
  | .redeclared k _ => some k
  | .underflow => none

/-- The name in the error, if there is one, was handed out. -/
def Known (rs : List InternRequest) (e : ScopeError Name) : Prop :=
  ∀ k, e.key? = some k → HandedOut rs k.name

/-- What is told about a key whose name has a spelling. -/
def declaredText (ns : Namespace) (s : String) : String :=
  ns.word ++ (" `" ++ (s ++ "` is already declared in this scope"))

/-- The spelling can be told from the text, whatever it holds, and so can the namespace. -/
theorem declaredText_inj {ns ns' : Namespace} {s s' : String} :
    declaredText ns s = declaredText ns' s' ↔ ns = ns' ∧ s = s' := by
  rw [declaredText, declaredText, Namespace.word_append_inj, String.append_right_inj,
    String.append_left_inj]

theorem describe_of_spelling {t : Interner} {k : Key Name} {s : String}
    (h : t.spelling k.name = .ok s) (depth : Nat) :
    describe t (.redeclared k depth) = .ok (declaredText k.space s) := by
  have htext : s!"{k.space} `{s}` is already declared in this scope" =
      declaredText k.space s := by
    show k.space.word ++ " `" ++ s ++ "` is already declared in this scope" = _
    rw [declaredText, String.append_assoc, String.append_assoc]
  rw [describe, h, ← htext]
  rfl

theorem describe_of_not_handedOut {rs : List InternRequest} {k : Key Name}
    (h : ¬ HandedOut rs k.name) (depth : Nat) :
    describe (new.performAll rs) (.redeclared k depth) =
      .error ⟨((new.performAll rs).shard k.name.shard).size, k.name.slot⟩ := by
  cases hs : (new.performAll rs).spelling k.name with
  | ok s =>
    exact absurd (exists_spelling_iff_handedOut.mp ⟨s, hs⟩) h
  | error e =>
    rw [describe, hs]
    rw [Interner.spelling, Shard.spelling, fetch_eq_error_iff] at hs
    rw [hs.2]
    rfl

/-- The text of an error that is known. -/
theorem exists_describe {rs : List InternRequest} {e : ScopeError Name} (h : e.Known rs) :
    (e = .underflow ∧ e.describe (new.performAll rs) = .ok (message .underflow)) ∨
      ∃ k depth s, e = .redeclared k depth ∧ (new.performAll rs).spelling k.name = .ok s ∧
        e.describe (new.performAll rs) = .ok (declaredText k.space s) := by
  cases e with
  | redeclared k depth =>
    obtain ⟨s, hs⟩ := exists_spelling_iff_handedOut.mpr (h k rfl)
    exact .inr ⟨k, depth, s, rfl, hs, describe_of_spelling hs depth⟩
  | underflow => exact .inl ⟨rfl, rfl⟩

/-- **Errors about different keys have different texts.** -/
theorem exists_describe_describe {rs : List InternRequest} {e e' : ScopeError Name}
    (h : e.Known rs) (h' : e'.Known rs) :
    ∃ x x', e.describe (new.performAll rs) = .ok x ∧ e'.describe (new.performAll rs) = .ok x' ∧
      (x = x' ↔ e.key? = e'.key?) := by
  rcases exists_describe h with ⟨rfl, hx⟩ | ⟨k, depth, s, rfl, hs, hx⟩
  · rcases exists_describe h' with ⟨rfl, hx'⟩ | ⟨k', depth', s', rfl, hs', hx'⟩
    · exact ⟨_, _, hx, hx', iff_of_true rfl rfl⟩
    · exact ⟨_, _, hx, hx', iff_of_false (word_append_ne_underflow _ _).symm nofun⟩
  · rcases exists_describe h' with ⟨rfl, hx'⟩ | ⟨k', depth', s', rfl, hs', hx'⟩
    · exact ⟨_, _, hx, hx', iff_of_false (word_append_ne_underflow _ _) nofun⟩
    · refine ⟨_, _, hx, hx', ?_⟩
      rw [declaredText_inj, key?, key?, Option.some_inj, Key.ext_iff]
      refine and_congr_right fun _ => ?_
      -- names and spellings belong together, so one may be compared for the other
      have hc := consistent_performAll rs
      exact ((hc.belong hs).name_eq_iff (hc.belong hs')).symm

/-- **A diagnostic names the right symbol.**  Say a name was given for a spelling.  However
far the interner has grown since, the text about a key with this name is the word for the
namespace, the spelling in backticks and what is wrong.  Two errors whose names are known
both have texts; these are equal exactly if both errors are about the same key, or neither
is about one, so nothing but the depth is lost.  For a name that was never handed out there
is no text. -/
theorem describe_performAll (rs : List InternRequest) :
    (∀ (n : Name) (s : String), GivenFor rs n s →
      ∀ (rs' : List InternRequest) (ns : Namespace) (depth : Nat),
        describe (new.performAll (rs ++ rs')) (.redeclared ⟨ns, n⟩ depth) =
          .ok (ns.word ++ (" `" ++ (s ++ "` is already declared in this scope")))) ∧
    (∀ e e' : ScopeError Name, e.Known rs → e'.Known rs →
      ∃ x x', e.describe (new.performAll rs) = .ok x ∧
        e'.describe (new.performAll rs) = .ok x' ∧ (x = x' ↔ e.key? = e'.key?)) ∧
    ∀ n : Name, ¬ HandedOut rs n → ∀ (ns : Namespace) (depth : Nat),
      describe (new.performAll rs) (.redeclared ⟨ns, n⟩ depth) =
        .error ⟨((new.performAll rs).shard n.shard).size, n.slot⟩ := by
  refine ⟨fun n s hgiven rs' ns depth => ?_, fun e e' h h' => exists_describe_describe h h',
    fun n hn ns depth => describe_of_not_handedOut hn depth⟩
  exact describe_of_spelling (k := ⟨ns, n⟩) (hgiven.append rs').spelling depth

/-- Two spellings that hold backticks, one of them the other in backticks. -/
def quoted : List InternRequest := [.intern "a`b", .tryIntern "`a`b`"]

theorem describe_performAll_quoted :
    GivenFor quoted ⟨0x30000002⟩ "a`b" ∧
    (∀ (rs' : List InternRequest) (depth : Nat),
      describe (new.performAll (quoted ++ rs')) (.redeclared ⟨.var, ⟨0x30000002⟩⟩ depth) =
        .ok "variable `a`b` is already declared in this scope") ∧
    Known quoted (.redeclared ⟨.var, ⟨0x30000002⟩⟩ 1) ∧
    Known quoted (.redeclared ⟨.var, ⟨0xD0000001⟩⟩ 1) ∧
    describe (new.performAll quoted) (.redeclared ⟨.var, ⟨0x30000002⟩⟩ 1) ≠
      describe (new.performAll quoted) (.redeclared ⟨.var, ⟨0xD0000001⟩⟩ 1) ∧
    ¬ HandedOut quoted ⟨0xF0000009⟩ ∧
    describe (new.performAll quoted) (.redeclared ⟨.type, ⟨0xF0000009⟩⟩ 0) = .error ⟨3, 9⟩ := by
  obtain ⟨htext, hdiffer, hforged⟩ := describe_performAll quoted
  have hc := consistent_performAll quoted
  have hab : GivenFor quoted ⟨0x30000002⟩ "a`b" :=
    givenFor_of_spelling (hc.get?_eq_some_iff.mp (by decide +kernel))
  have hquoted : GivenFor quoted ⟨0xD0000001⟩ "`a`b`" :=
    givenFor_of_spelling (hc.get?_eq_some_iff.mp (by decide +kernel))
  have hknown : Known quoted (.redeclared ⟨.var, ⟨0x30000002⟩⟩ 1) := by
    rintro k ⟨⟩
    exact handedOut_iff_givenFor.mpr ⟨_, hab⟩
  have hknown' : Known quoted (.redeclared ⟨.var, ⟨0xD0000001⟩⟩ 1) := by
    rintro k ⟨⟩
    exact handedOut_iff_givenFor.mpr ⟨_, hquoted⟩
  have hnone : ((new.performAll quoted).shard (Name.mk 0xF0000009).shard).spellings[
      (Name.mk 0xF0000009).slot]? = none := by decide +kernel
  have hmiss : OutOfBounds.mk ((new.performAll quoted).shard (Name.mk 0xF0000009).shard).size
      (Name.mk 0xF0000009).slot = ⟨3, 9⟩ := by decide +kernel
  have hnot : ¬ HandedOut quoted ⟨0xF0000009⟩ := by
    intro hout
    obtain ⟨s, hs⟩ := handedOut_iff_givenFor.mp hout
    have hspelling := hs.spelling
    rw [Interner.spelling, Shard.spelling, fetch_eq_ok_iff, hnone] at hspelling
    cases hspelling
  obtain ⟨x, x', hx, hx', hiff⟩ := hdiffer _ _ hknown hknown'
  refine ⟨hab, fun rs' depth => htext _ _ hab rs' .var depth, hknown, hknown', ?_, hnot, ?_⟩
  · intro heq
    rw [hx, hx', Except.ok.injEq, hiff] at heq
    exact absurd heq (by decide)
  · rw [hforged _ hnot, hmiss]

end ScopeError
end ShaderSymbols
