import ShaderSymbols.Proofs.Payloads

/-!
# How long a declaration lives

An accepted declaration puts one entry into a symbol table.  The entry stays there,
with its payload, exactly as long as the depth does not fall below that of the scope
it was declared in.  Whatever is found under the same key at the same depth later on
is from a later declaration.

To tell entries of equal content apart, every call stamps its number on the payload
that it brings.  A table does not look at payloads, so the stamps change nothing.

## Main definitions

* `SymbolTable.after cs m` — the table after the first `m` of the calls `cs`.
* `SymbolTable.stampAll cs` — the calls with their numbers on their payloads.
* `SymbolTable.Declared cs i e` — call `i` is an accepted declaration, and makes the
  entry `e`.
* `SymbolTable.Stays cs i m d` — from call `i` up to point `m` the depth is never
  less than `d`.
* `SymbolTable.Live cs m i e` — call `i` made the entry `e`, and its scope is still
  open at point `m`.

## Main results

* `BlockTable.mem_live_step` — which entries there are after one operation.
* `SymbolTable.mem_entries_after` — the entries of a table are the live ones.
* `SymbolTable.declared_lifetime` — **an accepted declaration lives as long as its
  scope, and a name resolves to the deepest of its live declarations.**
-/

namespace ShaderSymbols

variable {P Q : Namespace → Type}

/-! ### Entries of decreasing depth -/

namespace Entry

variable {α : Type}

/-- What an entry is found under. -/
def key (e : Entry α) : Key Name := ⟨e.space, e.name⟩

theorem eq_of_depth_eq {l : List (Entry α)} (hl : l.Pairwise fun e e' => e'.depth < e.depth)
    {e e' : Entry α} (he : e ∈ l) (he' : e' ∈ l) (hd : e.depth = e'.depth) : e = e' := by
  induction hl with
  | nil => cases he
  | cons hhead _ ih =>
    rcases List.mem_cons.mp he with rfl | hmem <;> rcases List.mem_cons.mp he' with rfl | hmem'
    · rfl
    · have := hhead _ hmem'
      omega
    · have := hhead _ hmem
      omega
    · exact ih hmem hmem'

/-- The first entry is the deepest. -/
theorem head?_eq_some_iff {l : List (Entry α)} (hl : l.Pairwise fun e e' => e'.depth < e.depth)
    {e : Entry α} : l.head? = some e ↔ e ∈ l ∧ ∀ e' ∈ l, e'.depth ≤ e.depth := by
  cases hl with
  | nil => simp
  | @cons x l hhead htail =>
    rw [List.head?_cons, Option.some_inj]
    constructor
    · rintro rfl
      refine ⟨List.mem_cons_self, fun e' he' => ?_⟩
      rcases List.mem_cons.mp he' with rfl | hmem
      · exact Nat.le_refl _
      · exact Nat.le_of_lt (hhead e' hmem)
    · rintro ⟨he, hmax⟩
      have hle := hmax x List.mem_cons_self
      rcases List.mem_cons.mp he with rfl | hmem
      · rfl
      · have := hhead e hmem
        omega

/-- Membership in a list to which an entry was added if it belongs there. -/
theorem mem_ite_iff {l l' : List (Entry α)} {e : Entry α} {k : Key Name} (made : Entry α)
    (hl : made.key = k → (e ∈ l' ↔ e ∈ l ∨ e = made)) :
    e ∈ (if made.key = k then l' else l) ↔ e ∈ l ∨ e = made ∧ e.key = k := by
  split
  · next hk =>
    rw [hl hk]
    refine or_congr_right ⟨fun he => ⟨he, ?_⟩, And.left⟩
    rw [he, hk]
  · next hk =>
    refine ⟨.inl, ?_⟩
    rintro (he | ⟨rfl, hkey⟩)
    · exact he
    · exact absurd hkey hk

end Entry

/-! ### The entries after one operation -/

/-- The entry that an operation makes, if it is accepted, when the current scope has
the given depth. -/
def Action.made? (depth : Nat) : Action Name P → Option (Entry (Symbol P))
  | .enter | .leave => none
  | .declare n s => some ⟨n, s.space, s, depth⟩
  | .declareGlobal n s => some ⟨n, s.space, s, 0⟩

theorem Action.made?_rebind (f : ∀ ns, P ns → Q ns) (depth : Nat) (a : Action Name P) :
    (a.rebind f).made? depth = (a.made? depth).map (Entry.map (Symbol.map f)) := by
  cases a <;> rfl

namespace BlockTable

theorem mem_live_addCurrent {t : BlockTable Name P} {x : Binding Name P}
    (hx : x.key ∉ Block.keys t.current) (k : Key Name) (e : Entry (Symbol P)) :
    e ∈ (t.addCurrent x).live k ↔
      e ∈ t.live k ∨ e = ⟨x.name, x.symbol.space, x.symbol, t.depth⟩ ∧ e.key = k := by
  rw [live_addCurrent hx]
  refine Entry.mem_ite_iff ⟨x.name, x.symbol.space, x.symbol, t.depth⟩ fun hk => ?_
  subst hk
  rw [List.mem_cons, Or.comm]
  rfl

theorem mem_live_addOutermost {t : BlockTable Name P} {x : Binding Name P}
    (hx : x.key ∉ Block.keys t.outermost) (k : Key Name) (e : Entry (Symbol P)) :
    e ∈ (t.addOutermost x).live k ↔
      e ∈ t.live k ∨ e = ⟨x.name, x.symbol.space, x.symbol, 0⟩ ∧ e.key = k := by
  rw [live_addOutermost hx]
  refine Entry.mem_ite_iff ⟨x.name, x.symbol.space, x.symbol, 0⟩ fun hk => ?_
  subst hk
  rw [List.mem_append, List.mem_singleton]
  rfl

/-- **After an operation there are the entries that are not too deep, and the one
that it made.** -/
theorem mem_live_step (t : BlockTable Name P) (a : Action Name P) (k : Key Name)
    (e : Entry (Symbol P)) :
    e ∈ (t.step a).2.live k ↔
      e ∈ t.live k ∧ e.depth ≤ (t.step a).2.depth ∨
        (t.step a).1.isOk ∧ a.made? t.depth = some e ∧ e.key = k := by
  -- what is there already is not too deep, as long as no scope is left
  have hdepth : ∀ d, t.depth ≤ d → (e ∈ t.live k ∧ e.depth ≤ d ↔ e ∈ t.live k) := by
    intro d hd
    refine ⟨And.left, fun he => ⟨he, ?_⟩⟩
    have := (mem_live he).1
    omega
  cases a with
  | enter =>
    have hopen : (t.step .enter).2.depth = t.depth + 1 := rfl
    rw [hopen, hdepth _ (Nat.le_succ _)]
    simp [step_enter, live_enter, Action.made?]
  | leave =>
    obtain ⟨inner, o⟩ := t
    cases inner with
    | nil =>
      rw [step_leave_nil, hdepth _ (Nat.le_refl _)]
      simp [Action.made?]
    | cons b bs =>
      rw [step_leave_cons, live_cons, List.mem_append]
      constructor
      · intro he
        exact .inl ⟨.inr he, (mem_live he).1⟩
      · rintro (⟨hmem | he, hle⟩ | ⟨-, hnone, -⟩)
        · -- the entries of the block that is left are too deep
          have hd := (Block.mem_entryAt hmem).2.1
          simp only [depth] at hle
          omega
        · exact he
        · cases hnone
  | declare n s =>
    by_cases hk : ⟨s.space, n⟩ ∈ Block.keys t.current
    · rw [step_declare_of_mem hk, hdepth _ (Nat.le_refl _)]
      simp [Except.isOk, Except.toBool]
    · rw [step_declare_of_notMem hk, depth_addCurrent, hdepth _ (Nat.le_refl _),
        mem_live_addCurrent hk]
      simp [Except.isOk, Except.toBool, Action.made?, eq_comm]
  | declareGlobal n s =>
    by_cases hk : ⟨s.space, n⟩ ∈ Block.keys t.outermost
    · rw [step_declareGlobal_of_mem hk, hdepth _ (Nat.le_refl _)]
      simp [Except.isOk, Except.toBool]
    · have hsame : (t.addOutermost ⟨n, s⟩).depth = t.depth := rfl
      rw [step_declareGlobal_of_notMem hk, hsame, hdepth _ (Nat.le_refl _),
        mem_live_addOutermost hk]
      simp [Except.isOk, Except.toBool, Action.made?, eq_comm]

end BlockTable

/-! ### The entries after a list of calls -/

namespace SymbolTable

/-- The table after the first `m` calls. -/
def after (cs : List (Call Name P)) (m : Nat) : SymbolTable P := (new.callAll (cs.take m)).2

theorem after_succ {cs : List (Call Name P)} {m : Nat} {c : Call Name P} (h : cs[m]? = some c) :
    after cs (m + 1) = ((after cs m).call c).table := by
  rw [after, List.take_add_one, h, Option.toList_some, callAll_append]
  rfl

theorem after_succ_of_none {cs : List (Call Name P)} {m : Nat} (h : cs[m]? = none) :
    after cs (m + 1) = after cs m := by
  rw [after, List.take_add_one, h, Option.toList_none, List.append_nil, after]

theorem exists_represents_after (cs : List (Call Name P)) (m : Nat) :
    ∃ b, Represents (after cs m) b :=
  ⟨_, (Represents.callAll (cs.take m) represents_new).2⟩

namespace Represents

variable {t : SymbolTable P} {b : BlockTable Name P}

theorem pairwise_entries (h : Represents t b) (k : Key Name) :
    (t.entries k).Pairwise fun e e' => e'.depth < e.depth := by
  rw [h.entries_eq]
  exact b.pairwise_live k

theorem depth_le (h : Represents t b) {k : Key Name} {e : Entry (Symbol P)}
    (he : e ∈ t.entries k) : e.depth ≤ t.depth := by
  rw [h.entries_eq] at he
  rw [h.depth]
  exact (BlockTable.mem_live he).1

/-- After a call there are the entries that are not too deep, and the one that it
made. -/
theorem mem_entries_call (h : Represents t b) (c : Call Name P) (k : Key Name)
    (e : Entry (Symbol P)) :
    e ∈ (t.call c).table.entries k ↔
      e ∈ t.entries k ∧ e.depth ≤ (t.call c).table.depth ∨
        (t.call c).answer.isOk ∧ c.action.made? t.depth = some e ∧ e.key = k := by
  obtain ⟨hanswer, hstep⟩ := h.step c.action
  rw [table_call, isOk_answer_call, hstep.entries_eq, hstep.depth, hanswer, h.entries_eq, h.depth]
  exact b.mem_live_step c.action k e

end Represents

/-- Call `i` is an accepted declaration, and makes the entry `e`. -/
def Declared (cs : List (Call Name P)) (i : Nat) (e : Entry (Symbol P)) : Prop :=
  ∃ c, cs[i]? = some c ∧ ((after cs i).call c).answer.isOk ∧
    c.action.made? (after cs i).depth = some e

/-- An accepted declaration makes an entry that is not too deep. -/
theorem Declared.depth_le {cs : List (Call Name P)} {i : Nat} {e : Entry (Symbol P)}
    (h : Declared cs i e) : e.depth ≤ (after cs (i + 1)).depth := by
  obtain ⟨c, hc, hok, hentry⟩ := h
  obtain ⟨b, hb⟩ := exists_represents_after cs i
  have hmem : e ∈ ((after cs i).call c).table.entries e.key :=
    (hb.mem_entries_call c e.key e).mpr (.inr ⟨hok, hentry, rfl⟩)
  rw [after_succ hc]
  exact (hb.call c).2.depth_le hmem

/-- From call `i` up to point `m`, the depth is never less than `d`. -/
def Stays (cs : List (Call Name P)) (i m d : Nat) : Prop :=
  ∀ j, i < j → j ≤ m → d ≤ (after cs j).depth

instance (cs : List (Call Name P)) (i m d : Nat) : Decidable (Stays cs i m d) :=
  decidable_of_iff (∀ j ≤ m, i < j → d ≤ (after cs j).depth)
    ⟨fun h j hij hjm => h j hjm hij, fun h j hjm hij => h j hij hjm⟩

theorem stays_succ_iff {cs : List (Call Name P)} {i m d : Nat} (h : i ≤ m) :
    Stays cs i (m + 1) d ↔ Stays cs i m d ∧ d ≤ (after cs (m + 1)).depth := by
  constructor
  · intro hs
    exact ⟨fun j hij hjm => hs j hij (by omega), hs (m + 1) (by omega) (Nat.le_refl _)⟩
  · rintro ⟨hs, hlast⟩ j hij hjm
    rcases Nat.lt_or_eq_of_le hjm with hlt | rfl
    · exact hs j hij (by omega)
    · exact hlast

theorem stays_self (cs : List (Call Name P)) (i d : Nat) : Stays cs i i d := by
  intro j hij hji
  omega

/-- Call `i`, one of the first `m`, made the entry `e`, and the scope it was made in
is still open. -/
structure Live (cs : List (Call Name P)) (m i : Nat) (e : Entry (Symbol P)) : Prop where
  /-- The call was made. -/
  lt : i < m
  /-- It made the entry. -/
  declared : Declared cs i e
  /-- The scope was not left. -/
  stays : Stays cs i m e.depth

/-- Right after the call, a declaration is live. -/
theorem Declared.live {cs : List (Call Name P)} {i : Nat} {e : Entry (Symbol P)}
    (h : Declared cs i e) : Live cs (i + 1) i e := by
  have hstays := (stays_succ_iff (Nat.le_refl i)).mpr ⟨stays_self cs i e.depth, h.depth_le⟩
  exact ⟨Nat.lt_succ_self i, h, hstays⟩

/-- What is live was live before. -/
theorem Live.earlier {cs : List (Call Name P)} {m m' i : Nat} {e : Entry (Symbol P)}
    (h : Live cs m i e) (hi : i < m') (hm : m' ≤ m) : Live cs m' i e :=
  ⟨hi, h.declared, fun j hij hjm => h.stays j hij (Nat.le_trans hjm hm)⟩

/-- A declaration is live after one more call exactly if it was and its scope is
not left, or if this call made it. -/
theorem live_succ_iff {cs : List (Call Name P)} {m i : Nat} {e : Entry (Symbol P)} :
    Live cs (m + 1) i e ↔
      Live cs m i e ∧ e.depth ≤ (after cs (m + 1)).depth ∨ i = m ∧ Declared cs m e := by
  constructor
  · rintro ⟨hi, hdecl, hstays⟩
    rcases Nat.lt_or_eq_of_le (Nat.le_of_lt_succ hi) with hlt | rfl
    · obtain ⟨hbefore, hlast⟩ := (stays_succ_iff (Nat.le_of_lt hlt)).mp hstays
      exact .inl ⟨⟨hlt, hdecl, hbefore⟩, hlast⟩
    · exact .inr ⟨rfl, hdecl⟩
  · rintro (⟨⟨hi, hdecl, hstays⟩, hlast⟩ | ⟨rfl, hdecl⟩)
    · exact ⟨by omega, hdecl, (stays_succ_iff (Nat.le_of_lt hi)).mpr ⟨hstays, hlast⟩⟩
    · exact hdecl.live

/-- **The entries of a table are its live declarations.** -/
theorem mem_entries_after (cs : List (Call Name P)) (m : Nat) (k : Key Name)
    (e : Entry (Symbol P)) :
    e ∈ (after cs m).entries k ↔ e.key = k ∧ ∃ i, Live cs m i e := by
  induction m with
  | zero =>
    refine iff_of_false ?_ ?_
    · simp [after, entries]
    · rintro ⟨-, i, hlive⟩
      exact Nat.not_lt_zero i hlive.lt
  | succ m ih =>
    obtain ⟨b, hb⟩ := exists_represents_after cs m
    have hlive : (∃ i, Live cs (m + 1) i e) ↔
        (∃ i, Live cs m i e) ∧ e.depth ≤ (after cs (m + 1)).depth ∨ Declared cs m e := by
      simp only [live_succ_iff, exists_or, exists_and_right, exists_eq, true_and]
    rw [hlive]
    cases hc : cs[m]? with
    | none =>
      -- there is no such call, so nothing changes
      have hnot : ¬ Declared cs m e := by
        rintro ⟨c, hc', -⟩
        rw [hc] at hc'
        cases hc'
      rw [after_succ_of_none hc, ih]
      constructor
      · rintro ⟨hk, hlive⟩
        have hmem := ih.mpr ⟨hk, hlive⟩
        exact ⟨hk, .inl ⟨hlive, hb.depth_le hmem⟩⟩
      · rintro ⟨hk, ⟨hlive, -⟩ | hdecl⟩
        · exact ⟨hk, hlive⟩
        · exact absurd hdecl hnot
    | some c =>
      have hdecl : Declared cs m e ↔ ((after cs m).call c).answer.isOk ∧
          c.action.made? (after cs m).depth = some e := by
        simp [Declared, hc]
      rw [after_succ hc, hb.mem_entries_call, ih, hdecl]
      constructor
      · rintro (⟨⟨hk, hlive⟩, hle⟩ | ⟨hok, hentry, hk⟩)
        · exact ⟨hk, .inl ⟨hlive, hle⟩⟩
        · exact ⟨hk, .inr ⟨hok, hentry⟩⟩
      · rintro ⟨hk, ⟨hlive, hle⟩ | ⟨hok, hentry⟩⟩
        · exact .inl ⟨⟨hk, hlive⟩, hle⟩
        · exact .inr ⟨hok, hentry, hk⟩

/-! ### What a name resolves to -/

theorem lookup_eq_some_iff (cs : List (Call Name P)) (m : Nat) (k : Key Name)
    (e : Entry (Symbol P)) :
    (after cs m).lookup k.space k.name = some e ↔
      (e.key = k ∧ ∃ i, Live cs m i e) ∧
        ∀ i' e', Live cs m i' e' → e'.key = k → e'.depth ≤ e.depth := by
  obtain ⟨b, hb⟩ := exists_represents_after cs m
  rw [lookup_eq_head?_entries, Entry.head?_eq_some_iff (hb.pairwise_entries k), mem_entries_after]
  refine and_congr_right fun _ => ⟨fun hmax i' e' hlive hk => ?_, fun hmax e' he' => ?_⟩
  · exact hmax e' ((mem_entries_after cs m k e').mpr ⟨hk, i', hlive⟩)
  · obtain ⟨hk, i', hlive⟩ := (mem_entries_after cs m k e').mp he'
    exact hmax i' e' hlive hk

theorem lookup_eq_none_iff (cs : List (Call Name P)) (m : Nat) (k : Key Name) :
    (after cs m).lookup k.space k.name = none ↔ ∀ i e, Live cs m i e → e.key ≠ k := by
  rw [lookup_eq_head?_entries, List.head?_eq_none_iff, List.eq_nil_iff_forall_not_mem]
  constructor
  · intro hnone i e hlive hk
    exact hnone e ((mem_entries_after cs m k e).mpr ⟨hk, i, hlive⟩)
  · intro hnone e he
    obtain ⟨hk, i, hlive⟩ := (mem_entries_after cs m k e).mp he
    exact hnone i e hlive hk

end SymbolTable

/-! ### Which call an entry is from -/

/-- A payload with the number of the call that brought it. -/
structure Stamped (α : Type) where
  /-- The payload. -/
  value : α
  /-- The number of the call. -/
  call : Nat
  deriving DecidableEq

namespace SymbolTable

/-- The calls with their numbers on their payloads. -/
def stampAll (cs : List (Call Name P)) : List (Call Name fun ns => Stamped (P ns)) :=
  cs.mapIdx fun i c => c.rebind fun _ p => ⟨p, i⟩

theorem getElem?_stampAll (cs : List (Call Name P)) (i : Nat) :
    (stampAll cs)[i]? = cs[i]?.map (Call.rebind fun _ p => ⟨p, i⟩) :=
  List.getElem?_mapIdx

/-- Without their stamps the calls are the same. -/
theorem map_rebind_stampAll (cs : List (Call Name P)) :
    (stampAll cs).map (Call.rebind fun _ => Stamped.value) = cs := by
  refine List.ext_getElem? fun i => ?_
  rw [List.getElem?_map, getElem?_stampAll, Option.map_map]
  have herase : (Call.rebind fun _ => Stamped.value) ∘ (Call.rebind fun _ p => ⟨p, i⟩) =
      (id : Call Name P → Call Name P) :=
    funext fun c => c.rebind_rebind fun _ _ => rfl
  rw [herase, Option.map_id, id]

/-- Without their stamps the tables are the same. -/
theorem rebound_after_stampAll (cs : List (Call Name P)) (m : Nat) :
    Rebound (fun _ => Stamped.value) (after (stampAll cs) m) (after cs m) := by
  have h := (Rebound.callAll ((stampAll cs).take m) (Rebound.new fun _ => Stamped.value)).2
  rw [List.map_take, map_rebind_stampAll] at h
  exact h

theorem answers_stampAll (cs : List (Call Name P)) :
    (new.callAll (stampAll cs)).1 = (new.callAll cs).1 := by
  have h := (Rebound.callAll (stampAll cs) (Rebound.new fun _ => Stamped.value)).1
  rw [map_rebind_stampAll] at h
  exact h.symm

theorem depth_after_stampAll (cs : List (Call Name P)) (m : Nat) :
    (after (stampAll cs) m).depth = (after cs m).depth :=
  (rebound_after_stampAll cs m).depth.symm

theorem stays_stampAll_iff (cs : List (Call Name P)) (i m d : Nat) :
    Stays (stampAll cs) i m d ↔ Stays cs i m d := by
  simp only [Stays, depth_after_stampAll]

/-- A stamped call makes the entry that the call makes, with the stamp. -/
theorem declared_stampAll_iff (cs : List (Call Name P)) (i : Nat)
    (e' : Entry (Symbol fun ns => Stamped (P ns))) :
    Declared (stampAll cs) i e' ↔
      ∃ e, Declared cs i e ∧ e' = e.map (Symbol.map fun _ p => ⟨p, i⟩) := by
  cases hc : cs[i]? with
  | none => simp [Declared, getElem?_stampAll, hc]
  | some c =>
    have hanswer : ((after (stampAll cs) i).call (c.rebind fun _ p => ⟨p, i⟩)).answer =
        ((after cs i).call c).answer := by
      have h := ((rebound_after_stampAll cs i).call (c.rebind fun _ p => ⟨p, i⟩)).1
      rw [Call.rebind_rebind fun _ _ => rfl] at h
      exact h.symm
    constructor
    · rintro ⟨c', hc', hok, hentry⟩
      rw [getElem?_stampAll, hc] at hc'
      cases hc'
      rw [depth_after_stampAll, Call.action_rebind, Action.made?_rebind] at hentry
      obtain ⟨e, he, rfl⟩ := Option.map_eq_some_iff.mp hentry
      exact ⟨e, ⟨c, hc, hanswer ▸ hok, he⟩, rfl⟩
    · rintro ⟨e, ⟨c', hc', hok, hentry⟩, rfl⟩
      rw [hc] at hc'
      cases hc'
      refine ⟨c.rebind fun _ p => ⟨p, i⟩, ?_, hanswer ▸ hok, ?_⟩
      · rw [getElem?_stampAll, hc, Option.map_some]
      · rw [depth_after_stampAll, Call.action_rebind, Action.made?_rebind, hentry,
          Option.map_some]

theorem live_stampAll_iff (cs : List (Call Name P)) (m i : Nat)
    (e' : Entry (Symbol fun ns => Stamped (P ns))) :
    Live (stampAll cs) m i e' ↔
      ∃ e, Live cs m i e ∧ e' = e.map (Symbol.map fun _ p => ⟨p, i⟩) := by
  constructor
  · rintro ⟨hi, hdecl, hstays⟩
    obtain ⟨e, he, rfl⟩ := (declared_stampAll_iff cs i e').mp hdecl
    exact ⟨e, ⟨hi, he, (stays_stampAll_iff ..).mp hstays⟩, rfl⟩
  · rintro ⟨e, ⟨hi, he, hstays⟩, rfl⟩
    exact ⟨hi, (declared_stampAll_iff cs i _).mpr ⟨e, he, rfl⟩, (stays_stampAll_iff ..).mpr hstays⟩

/-- A live declaration has an entry with its stamp. -/
theorem Live.mem_entries_stampAll {cs : List (Call Name P)} {m i : Nat} {e : Entry (Symbol P)}
    (h : Live cs m i e) :
    e.map (Symbol.map fun _ p => ⟨p, i⟩) ∈ (after (stampAll cs) m).entries e.key :=
  (mem_entries_after (stampAll cs) m e.key _).mpr
    ⟨rfl, i, (live_stampAll_iff cs m i _).mpr ⟨e, h, rfl⟩⟩

/-- No two live declarations of a key have the same depth. -/
theorem Live.call_unique {cs : List (Call Name P)} {m i i' : Nat} {e e' : Entry (Symbol P)}
    (h : Live cs m i e) (h' : Live cs m i' e') (hk : e.key = e'.key) (hd : e.depth = e'.depth) :
    i = i' := by
  obtain ⟨b, hb⟩ := exists_represents_after (stampAll cs) m
  have hmem := h.mem_entries_stampAll
  rw [hk] at hmem
  have heq := Entry.eq_of_depth_eq (hb.pairwise_entries e'.key) hmem h'.mem_entries_stampAll hd
  exact congrArg (·.payload.payload.call) heq

/-- If the scope of a declaration was left, a live declaration of the same key at the
same depth is from a later call. -/
theorem Live.lt_of_not_stays {cs : List (Call Name P)} {m i j : Nat} {e e' : Entry (Symbol P)}
    (h : Live cs m j e') (hdecl : Declared cs i e) (hleft : ¬ Stays cs i m e.depth)
    (hk : e.key = e'.key) (hd : e.depth = e'.depth) : i < j := by
  rcases Nat.lt_trichotomy i j with hlt | rfl | hgt
  · exact hlt
  · exact absurd (hd ▸ h.stays) hleft
  · -- right after call `i` both would be live, unless that is later than `m`
    by_cases him : i < m
    · have hboth := hdecl.live.call_unique (h.earlier (by omega) him) hk hd
      omega
    · exact absurd (fun j' hj hj' => by omega) hleft

/-- The entries of the stamped run are the live declarations, each with its stamp. -/
theorem mem_shadows_stampAll_iff (cs : List (Call Name P)) (m : Nat) (ns : Namespace) (n : Name)
    (e : Entry (Stamped (P ns))) :
    e ∈ (after (stampAll cs) m).shadows ns n ↔
      ∃ q j d, e = ⟨n, ns, ⟨q, j⟩, d⟩ ∧ Live cs m j ⟨n, ns, ⟨ns, q⟩, d⟩ := by
  constructor
  · intro he
    have htag : e.map (Symbol.mk (P := fun ns => Stamped (P ns)) ns) ∈
        (after (stampAll cs) m).entries ⟨ns, n⟩ := List.mem_map_of_mem he
    obtain ⟨hk, i, hlive⟩ := (mem_entries_after (stampAll cs) m ⟨ns, n⟩ _).mp htag
    obtain ⟨⟨n', ns', ⟨space, q⟩, d⟩, hlive', heq⟩ := (live_stampAll_iff cs m i _).mp hlive
    rw [heq] at hk
    obtain ⟨rfl, rfl⟩ := Key.mk.inj hk
    obtain ⟨n, ns, p, d⟩ := e
    cases heq
    exact ⟨q, i, d, rfl, hlive'⟩
  · rintro ⟨q, j, d, rfl, hlive⟩
    obtain ⟨e, he, htag⟩ := List.mem_map.mp hlive.mem_entries_stampAll
    have heq : e = ⟨n, ns, ⟨q, j⟩, d⟩ :=
      Entry.map_mk_inj (P := fun ns => Stamped (P ns)) ns e ⟨n, ns, ⟨q, j⟩, d⟩ htag
    exact heq ▸ he

/-! ### Lifetimes -/

/-- **An accepted declaration lives as long as its scope.**  Say call `i` declared the
name `n`, with payload `p`, in the scope at depth `d`, and look at any point `m` after
the call.  The entry of that very call is there if and only if the depth has not been
less than `d` since; if it has, an entry of the same key at the same depth is from a
later declaration; and a declaration in the outermost scope is always there.  A key
resolves to the deepest of its live declarations. -/
theorem declared_lifetime (cs : List (Call Name P)) {i m : Nat} {n : Name} {ns : Namespace}
    {p : P ns} {d : Nat} (hdecl : Declared cs i ⟨n, ns, ⟨ns, p⟩, d⟩) (him : i < m) :
    (⟨n, ns, ⟨p, i⟩, d⟩ ∈ (after (stampAll cs) m).shadows ns n ↔ Stays cs i m d) ∧
    (¬ Stays cs i m d → ∀ e ∈ (after (stampAll cs) m).shadows ns n, e.depth = d →
      i < e.payload.call ∧ e.payload.call < m ∧
        Declared cs e.payload.call ⟨n, ns, ⟨ns, e.payload.value⟩, d⟩) ∧
    (d = 0 → ⟨n, ns, ⟨p, i⟩, d⟩ ∈ (after (stampAll cs) m).shadows ns n) ∧
    -- the stamps tell which call an entry is from, and change nothing
    (new.callAll (stampAll cs)).1 = (new.callAll cs).1 ∧
    (∀ ns' n', ((after (stampAll cs) m).shadows ns' n').map (Entry.map Stamped.value) =
      (after cs m).shadows ns' n') ∧
    ∀ k : Key Name,
      (∀ e, (after cs m).lookup k.space k.name = some e ↔
        (e.key = k ∧ ∃ j, Live cs m j e) ∧
          ∀ j' e', Live cs m j' e' → e'.key = k → e'.depth ≤ e.depth) ∧
      ((after cs m).lookup k.space k.name = none ↔ ∀ j e, Live cs m j e → e.key ≠ k) := by
  have hmem : ⟨n, ns, ⟨p, i⟩, d⟩ ∈ (after (stampAll cs) m).shadows ns n ↔ Stays cs i m d := by
    rw [mem_shadows_stampAll_iff]
    constructor
    · rintro ⟨q, j, d', heq, hlive⟩
      cases heq
      exact hlive.stays
    · intro hstays
      exact ⟨p, i, d, rfl, him, hdecl, hstays⟩
  refine ⟨hmem, ?_, ?_, answers_stampAll cs, ?_, ?_⟩
  · intro hleft e he hd
    obtain ⟨q, j, d', rfl, hlive⟩ := (mem_shadows_stampAll_iff cs m ns n e).mp he
    obtain rfl : d' = d := hd
    refine ⟨?_, hlive.lt, hlive.declared⟩
    exact hlive.lt_of_not_stays hdecl hleft rfl rfl
  · rintro rfl
    exact hmem.mpr fun j _ _ => Nat.zero_le _
  · intro ns' n'
    exact ((rebound_after_stampAll cs m).shadows ns' n').symm
  · intro k
    exact ⟨lookup_eq_some_iff cs m k, lookup_eq_none_iff cs m k⟩

/-- A walk that declares a name in a scope and in the one around it, and declares it
again, with the same payload, in the next scope. -/
def revisited : List (Call Name fun _ => Nat) :=
  [.act .enter, .act (.declare ⟨7⟩ ⟨.var, 1⟩), .declareGlobalIfFree ⟨7⟩ ⟨.var, 2⟩, .act .leave,
    .act .enter, .declareIfFree ⟨7⟩ ⟨.var, 1⟩]

theorem declared_lifetime_revisited :
    Declared revisited 1 ⟨⟨7⟩, .var, ⟨.var, 1⟩, 1⟩ ∧
    ⟨⟨7⟩, .var, ⟨1, 1⟩, 1⟩ ∈ (after (stampAll revisited) 3).shadows .var ⟨7⟩ ∧
    ⟨⟨7⟩, .var, ⟨1, 1⟩, 1⟩ ∉ (after (stampAll revisited) 6).shadows .var ⟨7⟩ ∧
    (∀ e ∈ (after (stampAll revisited) 6).shadows .var ⟨7⟩, e.depth = 1 →
      1 < e.payload.call) ∧
    (after revisited 6).lookup .var ⟨7⟩ = some ⟨⟨7⟩, .var, ⟨.var, 1⟩, 1⟩ := by
  have hdecl : Declared revisited 1 ⟨⟨7⟩, .var, ⟨.var, 1⟩, 1⟩ := ⟨_, rfl, rfl, rfl⟩
  obtain ⟨hearly, -⟩ := declared_lifetime revisited hdecl (show 1 < 3 by decide)
  obtain ⟨hlate, hother, -⟩ := declared_lifetime revisited hdecl (show 1 < 6 by decide)
  have hopen : Stays revisited 1 3 1 := by decide
  have hleft : ¬ Stays revisited 1 6 1 := by decide
  refine ⟨hdecl, hearly.mpr hopen, mt hlate.mp hleft, fun e he hd => ?_, by decide⟩
  exact (hother hleft e he hd).1

end SymbolTable
end ShaderSymbols
