import ShaderSymbols.Interner

/-!
# Requests to an interner

The ways to use an interner, as data, so that whole histories can be run.

## Main definitions

* `InternRequest` — one use of an interner.
* `InternRequest.stored?` — the spelling it stores, if that is new.
* `InternReply`, `Interner.reply` — what a request is answered with.
* `Interner.perform`, `Interner.performAll` — the interner after one request, or
  after a list of them.
* `Interner.Roomy` — every shard has a slot left that a name can hold.

## Main results

* `Interner.performAll_eq_internAll` — requests lead where interning their spellings leads.
* `Interner.keep_internAll` — what storing one new spelling keeps, interning any keeps.
-/

namespace ShaderSymbols

/-- One use of an interner. -/
inductive InternRequest where
  /-- Intern a spelling, giving up if its shard is full. -/
  | intern (s : String)
  /-- Intern a spelling, going on if its shard is full. -/
  | tryIntern (s : String)
  /-- Intern a spelling after asking whether it is held. -/
  | getOrIntern (s : String)
  /-- Ask for the name of a spelling. -/
  | get (s : String)
  /-- Ask for the spelling of a name. -/
  | spelling (n : Name)
  deriving DecidableEq, Repr

/-- The spelling that a request stores, if it is new. -/
def InternRequest.stored? : InternRequest → Option String
  | .intern s | .tryIntern s | .getOrIntern s => some s
  | .get _ | .spelling _ => none

/-- What a request is answered with. -/
inductive InternReply where
  /-- The name of the spelling, or why it could not be stored. -/
  | named (r : Except InternError Name)
  /-- The name of the spelling, if it is held. -/
  | held (n? : Option Name)
  /-- The spelling of the name. -/
  | spelled (r : Except OutOfBounds String)

namespace Interner

/-- The answer to a request. -/
def reply (t : Interner) : InternRequest → InternReply
  | .intern s => .named ((t.intern s).map (·.1))
  | .tryIntern s => .named (t.tryIntern s).1
  | .getOrIntern s => .named ((t.getOrIntern s).map (·.1))
  | .get s => .held (t.get? s)
  | .spelling n => .spelled (t.spelling n)

/-- The interner that a route gives back, or the one before if it failed. -/
def after (t : Interner) : Except InternError (Name × Interner) → Interner
  | .ok (_, t') => t'
  | .error _ => t

/-- The interner after a request. -/
def perform (t : Interner) : InternRequest → Interner
  | .intern s => t.after (t.intern s)
  | .tryIntern s => (t.tryIntern s).2
  | .getOrIntern s => t.after (t.getOrIntern s)
  | .get _ | .spelling _ => t

/-- The interner after a list of requests. -/
def performAll (t : Interner) (rs : List InternRequest) : Interner := rs.foldl perform t

/-- Whether every shard has a slot left that a name can hold. -/
def Roomy (t : Interner) : Prop := ∀ i : Fin Name.numShards, (t.shard i).size < Name.numSlots

/-! ### Equations -/

@[simp] theorem performAll_nil (t : Interner) : t.performAll [] = t := rfl

@[simp] theorem performAll_cons (t : Interner) (r : InternRequest) (rs : List InternRequest) :
    t.performAll (r :: rs) = (t.perform r).performAll rs := rfl

theorem performAll_append (t : Interner) (rs rs' : List InternRequest) :
    t.performAll (rs ++ rs') = (t.performAll rs).performAll rs' :=
  List.foldl_append

/-- Whichever way a spelling is interned, the same interner comes back. -/
theorem after_intern (t : Interner) (s : String) : t.after (t.intern s) = (t.tryIntern s).2 := by
  unfold intern tryIntern
  cases t.get? s with
  | some n => rfl
  | none => by_cases h : (t.shardFor s).size ≤ Name.maxSlot <;> simp [h, after]

/-- Whichever way a spelling is interned, the same interner comes back. -/
theorem after_getOrIntern (t : Interner) (s : String) :
    t.after (t.getOrIntern s) = (t.tryIntern s).2 := by
  unfold getOrIntern
  cases h : t.get? s with
  | some n => simp [after, tryIntern_of_get? h]
  | none => exact after_intern t s

/-- Whichever way a spelling is interned, the same name comes back. -/
theorem map_fst_intern (t : Interner) (s : String) :
    (t.intern s).map (·.1) = (t.tryIntern s).1 := by
  unfold intern
  rcases t.tryIntern s with ⟨_ | n, t'⟩ <;> rfl

/-- Whichever way a spelling is interned, the same name comes back. -/
theorem map_fst_getOrIntern (t : Interner) (s : String) :
    (t.getOrIntern s).map (·.1) = (t.tryIntern s).1 := by
  unfold getOrIntern
  cases h : t.get? s with
  | some n => rw [tryIntern_of_get? h]; rfl
  | none => exact map_fst_intern t s

/-- A request that interns a spelling is answered as `tryIntern` answers. -/
theorem reply_of_stored? (t : Interner) {r : InternRequest} {s : String}
    (h : r.stored? = some s) : t.reply r = .named (t.tryIntern s).1 := by
  cases r with
  | intern s' => cases h; rw [reply, map_fst_intern]
  | tryIntern s' => cases h; rfl
  | getOrIntern s' => cases h; rw [reply, map_fst_getOrIntern]
  | get s' => cases h
  | spelling n => cases h

/-- A request that interns a spelling leads where `tryIntern` leads. -/
theorem perform_of_stored? (t : Interner) {r : InternRequest} {s : String}
    (h : r.stored? = some s) : t.perform r = (t.tryIntern s).2 := by
  cases r with
  | intern s' => cases h; exact after_intern t s
  | tryIntern s' => cases h; rfl
  | getOrIntern s' => cases h; exact after_getOrIntern t s
  | get s' => cases h
  | spelling n => cases h

/-- A request that only asks changes nothing. -/
theorem perform_of_stored?_eq_none (t : Interner) {r : InternRequest} (h : r.stored? = none) :
    t.perform r = t := by
  cases r with
  | intern s => cases h
  | tryIntern s => cases h
  | getOrIntern s => cases h
  | get s => rfl
  | spelling n => rfl

@[simp] theorem internAll_nil (t : Interner) : t.internAll [] = t := rfl

@[simp] theorem internAll_cons (t : Interner) (s : String) (l : List String) :
    t.internAll (s :: l) = (t.tryIntern s).2.internAll l := rfl

theorem internAll_append (t : Interner) (l l' : List String) :
    t.internAll (l ++ l') = (t.internAll l).internAll l' :=
  List.foldl_append

/-- What storing a new spelling keeps, interning keeps. -/
theorem keep_tryIntern {p : Interner → Prop}
    (hstore : ∀ t s, p t → t.get? s = none → (t.shardFor s).size ≤ Name.maxSlot → p (t.store s))
    {t : Interner} (h : p t) (s : String) : p (t.tryIntern s).2 := by
  rcases t.tryIntern_cases s with ⟨n, -, htry⟩ | ⟨hget, hfree, htry⟩ | ⟨-, -, htry⟩
  · rwa [htry]
  · rw [htry]
    exact hstore t s h hget hfree
  · rwa [htry]

/-- What storing a new spelling keeps, interning any spellings keeps. -/
theorem keep_internAll {p : Interner → Prop}
    (hstore : ∀ t s, p t → t.get? s = none → (t.shardFor s).size ≤ Name.maxSlot → p (t.store s))
    {t : Interner} (h : p t) (l : List String) : p (t.internAll l) := by
  induction l generalizing t with
  | nil => exact h
  | cons s l ih => exact ih (keep_tryIntern hstore h s)

/-- Requests lead where interning their spellings leads. -/
theorem performAll_eq_internAll (t : Interner) (rs : List InternRequest) :
    t.performAll rs = t.internAll (rs.filterMap InternRequest.stored?) := by
  induction rs generalizing t with
  | nil => rfl
  | cons r rs ih =>
    rw [performAll_cons, ih]
    cases h : r.stored? with
    | none => rw [List.filterMap_cons_none h, perform_of_stored?_eq_none t h]
    | some s => rw [List.filterMap_cons_some h, internAll_cons, perform_of_stored? t h]

end Interner
end ShaderSymbols
