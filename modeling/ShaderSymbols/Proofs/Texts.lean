import Mathlib.Data.List.Basic
import ShaderSymbols.Declaration.Id
import ShaderSymbols.Scope.Error

/-!
# Texts that tell things apart

Names, handles and errors have texts for a developer to read, put together from words and
decimal numbers without separators of their own.  Such a text could be ambiguous: one
number might run into the next, or one word begin another.  This file shows that none is.
Words are told apart by their first letters, and a number ends where no digit follows; so
a text can be taken apart from the front, one piece after the other.

All lemmas here have the form `text a ++ x = text b ++ y ↔ a = b ∧ x = y`: whatever
follows, the first piece can be told.

## Main definitions

* `EndsNumber x` — the text `x` does not begin with a digit, so no number goes on in it.

## Main results

* `Namespace.append_inj` — words with different first letters.
* `numeral_append_inj` — decimal numbers.
* `Name.toString_append_inj` — names.
* `texts_inj` — **different names, handles and errors have different texts.**
-/

namespace ShaderSymbols

/-! ### Words -/

namespace Namespace

/-- Words for namespaces are told apart whatever follows, if their first letters differ. -/
theorem append_inj {f : Namespace → String} (hne : ∀ ns, (f ns).toList ≠ [])
    (hhead : ∀ a b, (f a).toList.head? = (f b).toList.head? → a = b) {a b : Namespace}
    {x y : String} : f a ++ x = f b ++ y ↔ a = b ∧ x = y := by
  constructor
  · intro h
    have hfirst := congrArg (fun text => text.toList.head?) h
    simp only [String.toList_append, List.head?_append_of_ne_nil _ (hne _)] at hfirst
    obtain rfl := hhead a b hfirst
    exact ⟨rfl, (String.append_right_inj _).mp h⟩
  · rintro ⟨rfl, rfl⟩
    rfl

theorem word_append_inj {a b : Namespace} {x y : String} :
    a.word ++ x = b.word ++ y ↔ a = b ∧ x = y := by
  refine append_inj (fun ns => ?_) (fun a b => ?_)
  · cases ns <;> decide
  · cases a <;> cases b <;> decide

theorem tag_append_inj {a b : Namespace} {x y : String} :
    a.tag ++ x = b.tag ++ y ↔ a = b ∧ x = y := by
  refine append_inj (fun ns => ?_) (fun a b => ?_)
  · cases ns <;> decide
  · cases a <;> cases b <;> decide

end Namespace

/-! ### Numbers -/

/-- The text does not begin with a digit. -/
def EndsNumber (x : String) : Prop := x.toList.takeWhile Char.isDigit = []

theorem endsNumber_empty : EndsNumber "" := rfl

/-- The digits in front are those of the number. -/
theorem takeWhile_isDigit_numeral (n : Nat) {x : String} (hx : EndsNumber x) :
    (toString n ++ x).toList.takeWhile Char.isDigit = Nat.toDigits 10 n := by
  have hdigits : ∀ c ∈ Nat.toDigits 10 n, c.isDigit = true :=
    fun c hc => Nat.isDigit_of_mem_toDigits (by decide) (by decide) hc
  rw [String.toList_append, Nat.toString_eq_repr, Nat.toList_repr,
    List.takeWhile_append_of_pos hdigits, hx, List.append_nil]

/-- Numbers are told apart if what follows does not begin with a digit. -/
theorem numeral_append_inj {m n : Nat} {x y : String} (hx : EndsNumber x) (hy : EndsNumber y) :
    toString m ++ x = toString n ++ y ↔ m = n ∧ x = y := by
  constructor
  · intro h
    have hdigits : Nat.toDigits 10 m = Nat.toDigits 10 n := by
      rw [← takeWhile_isDigit_numeral m hx, h, takeWhile_isDigit_numeral n hy]
    obtain rfl : m = n := by
      rw [← Nat.ofDigitChars_ten_toDigits (n := m), hdigits, Nat.ofDigitChars_ten_toDigits]
    exact ⟨rfl, (String.append_right_inj _).mp h⟩
  · rintro ⟨rfl, rfl⟩
    rfl

theorem numeral_inj {m n : Nat} : toString m = toString n ↔ m = n := by
  constructor
  · intro h
    have happend : toString m ++ "" = toString n ++ "" := congrArg (· ++ "") h
    exact ((numeral_append_inj endsNumber_empty endsNumber_empty).mp happend).1
  · rintro rfl
    rfl

/-! ### Names -/

namespace Name

theorem toString_eq (n : Name) :
    toString n = "Name(" ++ (toString n.shard.val ++ (":" ++ (toString n.slot ++ ")"))) := by
  show "Name(" ++ toString n.shard.val ++ ":" ++ toString n.slot ++ ")" = _
  simp only [String.append_assoc]

/-- A name ends with its bracket, so it is told whatever follows. -/
theorem toString_append_inj {a b : Name} {x y : String} :
    toString a ++ x = toString b ++ y ↔ a = b ∧ x = y := by
  constructor
  · intro h
    simp only [toString_eq, String.append_assoc, String.append_right_inj] at h
    have hcolon : ∀ z, EndsNumber (":" ++ z) := fun z => by simp [EndsNumber]
    have hbracket : ∀ z, EndsNumber (")" ++ z) := fun z => by simp [EndsNumber]
    obtain ⟨hshard, hrest⟩ := (numeral_append_inj (hcolon _) (hcolon _)).mp h
    rw [String.append_right_inj] at hrest
    obtain ⟨hslot, hend⟩ :=
      (numeral_append_inj (hbracket _) (hbracket _)).mp hrest
    -- the two numbers are all there is to a name
    have hname : a = b := by rw [← pack_shard_slot a, ← pack_shard_slot b, Fin.ext hshard, hslot]
    exact ⟨hname, (String.append_right_inj _).mp hend⟩
  · rintro ⟨rfl, rfl⟩
    rfl

theorem toString_inj {a b : Name} : toString a = toString b ↔ a = b := by
  constructor
  · intro h
    exact (toString_append_inj.mp (congrArg (· ++ "") h)).1
  · rintro rfl
    rfl

end Name

/-! ### Handles -/

namespace DeclId

variable {ns ns' : Namespace}

/-- What the text of a handle says after the kind. -/
def place (id : DeclId ns) : String :=
  if id.isValid then "Id(" ++ (toString id.index ++ ")") else "Id::INVALID"

theorem toString_eq (id : DeclId ns) : toString id = ns.tag ++ id.place := by
  show (if id.isValid then ns.tag ++ "Id(" ++ toString id.index ++ ")"
    else ns.tag ++ "Id::INVALID") = _
  rw [place]
  split <;> simp only [String.append_assoc]

theorem place_inj {a b : DeclId ns} : a.place = b.place ↔ a = b := by
  constructor
  · intro h
    have hmixed : ∀ x, "Id(" ++ x ≠ "Id::INVALID" := fun x hx => by
      simpa using congrArg String.toList hx
    unfold place at h
    split at h
    · split at h
      · rw [String.append_right_inj] at h
        have hbracket : EndsNumber ")" := rfl
        exact index_inj.mp ((numeral_append_inj hbracket hbracket).mp h).1
      · exact absurd h (hmixed _)
    · next ha =>
      split at h
      · exact absurd h.symm (hmixed _)
      · next hb =>
        rw [Bool.not_eq_true, isValid_eq_false_iff] at ha hb
        rw [ha, hb]
  · rintro rfl
    rfl

/-- The kind of a handle is told from its text as well. -/
theorem toString_inj {a : DeclId ns} {b : DeclId ns'} :
    toString a = toString b ↔ (⟨ns, a⟩ : (ns : Namespace) × DeclId ns) = ⟨ns', b⟩ := by
  constructor
  · intro h
    rw [toString_eq, toString_eq, Namespace.tag_append_inj] at h
    obtain ⟨rfl, hplace⟩ := h
    rw [place_inj.mp hplace]
  · intro h
    cases h
    rfl

end DeclId

/-! ### Errors -/

namespace ScopeError

theorem message_redeclared (k : Key Name) (depth : Nat) :
    message (.redeclared k depth) = k.space.word ++ (" " ++ (toString k.name ++
      (" is already declared at scope depth " ++ toString depth))) := by
  show k.space.word ++ " " ++ toString k.name ++ " is already declared at scope depth " ++
    toString depth = _
  simp only [String.append_assoc]

/-- No word for a namespace begins the text that the outermost scope cannot be left. -/
theorem word_append_ne_underflow (ns : Namespace) (x : String) :
    ns.word ++ x ≠ message .underflow := by
  intro h
  have hfirst := congrArg (fun text => text.toList.head?) h
  cases ns <;> simp [Namespace.word, message] at hfirst

theorem message_redeclared_inj {k k' : Key Name} {depth depth' : Nat} :
    message (.redeclared k depth) = message (.redeclared k' depth') ↔
      k.space = k'.space ∧ k.name = k'.name ∧ depth = depth' := by
  rw [message_redeclared, message_redeclared, Namespace.word_append_inj, String.append_right_inj,
    Name.toString_append_inj, String.append_right_inj, numeral_inj]

theorem message_inj {e e' : ScopeError Name} : e.message = e'.message ↔ e = e' := by
  cases e with
  | redeclared k depth =>
    cases e' with
    | redeclared k' depth' =>
      rw [message_redeclared_inj, redeclared.injEq, Key.ext_iff, and_assoc]
    | underflow =>
      rw [message_redeclared]
      exact iff_of_false (word_append_ne_underflow _ _) nofun
  | underflow =>
    cases e' with
    | redeclared k' depth' =>
      rw [message_redeclared]
      exact iff_of_false (word_append_ne_underflow _ _).symm nofun
    | underflow => exact iff_of_true rfl rfl

end ScopeError

/-! ### All texts -/

/-- **Different names, handles and errors have different texts.**  The texts of two names
are equal exactly if the names are; those of two handles, of whatever kinds, exactly if
both the kinds and the handles are, the invalid ones included; and those of two errors
exactly if the errors are.  So the message that a key is already declared gives away its
namespace, its name and the depth. -/
theorem texts_inj :
    (∀ a b : Name, toString a = toString b ↔ a = b) ∧
    (∀ (ns ns' : Namespace) (a : DeclId ns) (b : DeclId ns'),
      toString a = toString b ↔ (⟨ns, a⟩ : (ns : Namespace) × DeclId ns) = ⟨ns', b⟩) ∧
    (∀ e e' : ScopeError Name, e.message = e'.message ↔ e = e') ∧
    ∀ (k k' : Key Name) (depth depth' : Nat),
      ScopeError.message (.redeclared k depth) = ScopeError.message (.redeclared k' depth') ↔
        k.space = k'.space ∧ k.name = k'.name ∧ depth = depth' :=
  ⟨fun _ _ => Name.toString_inj, fun _ _ _ _ => DeclId.toString_inj,
    fun _ _ => ScopeError.message_inj, fun _ _ _ _ => ScopeError.message_redeclared_inj⟩

end ShaderSymbols
