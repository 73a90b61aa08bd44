import ShaderSymbols.Proofs.LateGlobals
import ShaderSymbols.Proofs.Refusals

/-!
# What the current scope lists

A frame holds keys and no payloads.  To list what the current scope declares, a table
resolves every key of the current frame again and drops what it finds at another depth.
If the two records of the table disagreed, a declaration would vanish from the list
without an error.  This file shows that none does: the list is the history of the scope,
one entry for each declaration that it has accepted since it was entered, oldest first.

The history is read off the calls alone.  A call counts for the scope at depth `d` if it
is accepted and makes an entry of depth `d`; so a global declaration counts for the
outermost scope wherever it is made.

## Main definitions

* `BlockTable.entriesAt t d` — the entries of the block at depth `d`, oldest first.
* `SymbolTable.OpenSince cs m d a` — the scope at depth `d` that is open at point `m` has
  been open since point `a`.
* `SymbolTable.acceptedSince cs a m d` — the entries of depth `d` that the calls from
  point `a` to point `m` made, oldest first.

## Main results

* `BlockTable.entriesAt_step` — an operation adds what it makes to the end of the entries
  of one depth.
* `SymbolTable.mem_acceptedSince_iff` — what the history lists are the accepted
  declarations.
* `SymbolTable.exists_represents_acceptedSince` — the entries at each depth are those
  made since the scope of that depth was entered.
* `SymbolTable.currentEntries_after` — **the list of the current scope loses and invents
  nothing.**
-/

namespace ShaderSymbols

variable {P : Namespace → Type}

/-! ### The entries of a block -/

namespace BlockTable

/-- The entry that an operation makes, if it is accepted. -/
def accepted? (t : BlockTable Name P) (a : Action Name P) : Option (Entry (Symbol P)) :=
  if (t.step a).1.isOk then a.made? t.depth else none

/-- The entries of the block at depth `d`, in the order of declaration. -/
def entriesAt (t : BlockTable Name P) (d : Nat) : List (Entry (Symbol P)) :=
  (t.blockAt d).reverse.map (·.entry d)

theorem entriesAt_step_of_made {t : BlockTable Name P} {a : Action Name P} {x : Binding Name P}
    {i : Nat} (ha : a.made? t.depth = some (x.entry i)) (d : Nat) :
    (t.step a).2.entriesAt d =
      t.entriesAt d ++ ((t.accepted? a).filter (·.depth = d)).toList := by
  by_cases hk : x.key ∈ Block.keys (t.blockAt i)
  · rw [accepted?, step_of_mem_blockAt ha hk]
    exact (List.append_nil _).symm
  · obtain ⟨hok, hadds⟩ := adds_step ha hk
    have haccepted : t.accepted? a = some (x.entry i) := by
      rw [accepted?, hok, ← ha]
      rfl
    rw [haccepted, entriesAt, entriesAt, hadds.blockAt]
    by_cases hd : d = i
    · subst hd
      have hsame : (some (x.entry d)).filter (·.depth = d) = some (x.entry d) := by
        simp [Option.filter_eq_some_iff, Binding.entry]
      rw [if_pos rfl, hsame, List.reverse_cons, List.map_append]
      rfl
    · have hne : (x.entry i).depth ≠ d := fun h => hd h.symm
      simp [hd, hne]

/-- **An operation adds what it makes to the end of the entries of one depth**, and
changes nothing else at the depths of the blocks that stay open. -/
theorem entriesAt_step (t : BlockTable Name P) (a : Action Name P) {d : Nat} (hd : d ≤ t.depth)
    (hd' : d ≤ (t.step a).2.depth) :
    (t.step a).2.entriesAt d =
      t.entriesAt d ++ ((t.accepted? a).filter (·.depth = d)).toList := by
  cases a with
  | enter =>
    have hsame : (t.step .enter).2.blockAt d = t.blockAt d :=
      blockAt_cons_of_lt [] (Nat.lt_succ_of_le hd) t.outermost
    rw [entriesAt, hsame]
    exact (List.append_nil _).symm
  | leave =>
    obtain ⟨inner, o⟩ := t
    cases inner with
    | nil => exact (List.append_nil _).symm
    | cons b bs =>
      have hsame : (⟨bs, o⟩ : BlockTable Name P).blockAt d =
          (⟨b :: bs, o⟩ : BlockTable Name P).blockAt d :=
        (blockAt_cons_of_lt b (Nat.lt_succ_of_le hd') o).symm
      rw [step_leave_cons, entriesAt, hsame]
      exact (List.append_nil _).symm
  | declare n s => exact entriesAt_step_of_made (x := ⟨n, s⟩) rfl d
  | declareGlobal n s => exact entriesAt_step_of_made (x := ⟨n, s⟩) rfl d

/-- Only entering a scope makes the depth greater, and makes it greater by one. -/
theorem depth_step (t : BlockTable Name P) (a : Action Name P) :
    (t.step a).2.depth ≤ t.depth ∨ a = .enter ∧ (t.step a).2.depth = t.depth + 1 := by
  cases a with
  | enter => exact .inr ⟨rfl, rfl⟩
  | leave =>
    obtain ⟨inner, o⟩ := t
    cases inner with
    | nil => exact .inl (Nat.le_refl _)
    | cons b bs => exact .inl (Nat.le_succ _)
  | declare n s => exact .inl (Nat.le_of_eq (depth_step_of_made (x := ⟨n, s⟩) rfl))
  | declareGlobal n s => exact .inl (Nat.le_of_eq (depth_step_of_made (x := ⟨n, s⟩) rfl))

/-- A key of the innermost block resolves to its entry there. -/
theorem head?_live_of_mem {t : BlockTable Name P} {k : Key Name} (hk : k ∈ Block.keys t.current) :
    (t.live k).head? = Block.entryAt t.current k t.depth := by
  obtain ⟨inner, o⟩ := t
  cases inner with
  | nil =>
    rw [live_nil]
    exact Option.head?_toList
  | cons b bs =>
    obtain ⟨s, hs⟩ : ∃ s, Block.entryAt b k (bs.length + 1) = some ⟨k.name, k.space, s, _⟩ :=
      Block.entryAt_eq_some hk (bs.length + 1)
    rw [live_cons, hs]
    exact hs.symm

end BlockTable

/-- In a block without repeats, every binding has its own entry. -/
theorem Block.entryAt_of_mem {b : Block Name P} (hb : (keys b).Nodup) {x : Binding Name P}
    (hx : x ∈ b) (d : Nat) : entryAt b x.key d = some (x.entry d) := by
  have hfind : find? b x.key = some x.symbol :=
    (find?_eq_some_iff hb).mpr ⟨x, hx, rfl, rfl⟩
  rw [entryAt, hfind]
  rfl

namespace SymbolTable

/-! ### The history of a scope -/

/-- The entry that a call makes, if it is an accepted declaration. -/
def accepted? (t : SymbolTable P) (c : Call Name P) : Option (Entry (Symbol P)) :=
  if (t.call c).answer.isOk then c.action.made? t.depth else none

/-- The entry that call `i` makes, if there is such a call and it is an accepted
declaration. -/
def acceptedAt (cs : List (Call Name P)) (i : Nat) : Option (Entry (Symbol P)) :=
  cs[i]?.bind (after cs i).accepted?

/-- The entries of depth `d` that the calls from point `a` to point `m` made, in the
order of the calls. -/
def acceptedSince (cs : List (Call Name P)) (a m d : Nat) : List (Entry (Symbol P)) :=
  (List.range' a (m - a)).filterMap fun i => (acceptedAt cs i).filter (·.depth = d)

/-- The scope at depth `d` that is open at point `m` has been open since point `a`. -/
inductive OpenSince (cs : List (Call Name P)) (m : Nat) : Nat → Nat → Prop where
  /-- The outermost scope has always been open. -/
  | outermost : OpenSince cs m 0 0
  /-- Any other scope was entered by a call, and the depth was never less since. -/
  | entered {i : Nat} : i < m → cs[i]? = some (.act .enter) →
      Stays cs i m ((after cs i).depth + 1) → OpenSince cs m ((after cs i).depth + 1) (i + 1)

theorem acceptedAt_eq_some_iff {cs : List (Call Name P)} {i : Nat} {e : Entry (Symbol P)} :
    acceptedAt cs i = some e ↔ Declared cs i e := by
  cases hc : cs[i]? with
  | none => simp [acceptedAt, Declared, hc]
  | some c => simp [acceptedAt, Declared, hc, accepted?]

/-- What is listed are the accepted declarations. -/
theorem mem_acceptedSince_iff {cs : List (Call Name P)} {a m d : Nat} {e : Entry (Symbol P)} :
    e ∈ acceptedSince cs a m d ↔ ∃ i, a ≤ i ∧ i < m ∧ Declared cs i e ∧ e.depth = d := by
  unfold acceptedSince
  simp only [List.mem_filterMap, List.mem_range'_1, Option.filter_eq_some_iff,
    acceptedAt_eq_some_iff, decide_eq_true_eq]
  constructor
  · rintro ⟨i, ⟨hai, him⟩, hdecl, hd⟩
    exact ⟨i, hai, by omega, hdecl, hd⟩
  · rintro ⟨i, hai, him, hdecl, hd⟩
    exact ⟨i, ⟨hai, by omega⟩, hdecl, hd⟩

theorem acceptedSince_self (cs : List (Call Name P)) (a d : Nat) : acceptedSince cs a a d = [] := by
  rw [acceptedSince, Nat.sub_self]
  rfl

theorem acceptedSince_succ (cs : List (Call Name P)) {a m : Nat} (h : a ≤ m) (d : Nat) :
    acceptedSince cs a (m + 1) d =
      acceptedSince cs a m d ++ ((acceptedAt cs m).filter (·.depth = d)).toList := by
  have hlength : m + 1 - a = (m - a) + 1 := by omega
  have hlast : a + (m - a) = m := by omega
  rw [acceptedSince, hlength, List.range'_1_concat, hlast, List.filterMap_append]
  refine congrArg (_ ++ ·) ?_
  cases hm : (acceptedAt cs m).filter (·.depth = d) with
  | none => exact List.filterMap_cons_none hm
  | some e => exact List.filterMap_cons_some hm

namespace OpenSince

variable {cs : List (Call Name P)} {m d a a' : Nat}

theorem le (h : OpenSince cs m d a) : a ≤ m := by
  cases h with
  | outermost => exact Nat.zero_le m
  | entered hi _ _ => exact hi

/-- An open scope is no deeper than the current one. -/
theorem depth_le (h : OpenSince cs m d a) : d ≤ (after cs m).depth := by
  cases h with
  | outermost => exact Nat.zero_le _
  | entered hi _ hstays => exact hstays m hi (Nat.le_refl m)

/-- A scope was entered only once: the depth was less when it was entered, and never
since. -/
theorem unique (h : OpenSince cs m d a) (h' : OpenSince cs m d a') : a = a' := by
  -- of two calls that entered it, the later one would have left the depth as it was
  have hlt : ∀ {i i' : Nat}, i < i' → i' < m → Stays cs i m ((after cs i').depth + 1) → False := by
    intro i i' hii' hi'm hstays
    have := hstays i' hii' (Nat.le_of_lt hi'm)
    omega
  generalize hd : d = d' at h'
  cases h with
  | outermost =>
    cases h' with
    | outermost => rfl
    | entered => cases hd
  | @entered i hi _ hstays =>
    cases h' with
    | outermost => cases hd
    | @entered i' hi' _ hstays' =>
      rcases Nat.lt_trichotomy i i' with hlt' | rfl | hgt
      · exact (hlt hlt' hi' (hd ▸ hstays)).elim
      · rfl
      · exact (hlt hgt hi (hd ▸ hstays')).elim

end OpenSince

/-- A scope is open after one more call exactly if it was and is not left, or if this
call entered it. -/
theorem openSince_succ_iff {cs : List (Call Name P)} {m d a : Nat} :
    OpenSince cs (m + 1) d a ↔
      OpenSince cs m d a ∧ d ≤ (after cs (m + 1)).depth ∨
        cs[m]? = some (.act .enter) ∧ d = (after cs m).depth + 1 ∧ a = m + 1 := by
  constructor
  · intro h
    have hle := h.depth_le
    cases h with
    | outermost => exact .inl ⟨.outermost, hle⟩
    | @entered i hi henter hstays =>
      rcases Nat.lt_or_eq_of_le (Nat.le_of_lt_succ hi) with hlt | rfl
      · have hbefore := ((stays_succ_iff (Nat.le_of_lt hlt)).mp hstays).1
        exact .inl ⟨.entered hlt henter hbefore, hle⟩
      · exact .inr ⟨henter, rfl, rfl⟩
  · rintro (⟨h, hle⟩ | ⟨henter, rfl, rfl⟩)
    · cases h with
      | outermost => exact .outermost
      | entered hi henter hstays =>
        exact .entered (Nat.lt_succ_of_lt hi) henter
          ((stays_succ_iff (Nat.le_of_lt hi)).mpr ⟨hstays, hle⟩)
    · have hdepth : (after cs m).depth + 1 ≤ (after cs (m + 1)).depth := by
        rw [after_succ henter]
        exact Nat.le_refl _
      exact .entered (Nat.lt_succ_self m) henter
        ((stays_succ_iff (Nat.le_refl m)).mpr ⟨stays_self cs m _, hdepth⟩)

theorem Represents.depth_call {t : SymbolTable P} {b : BlockTable Name P} (h : Represents t b)
    (c : Call Name P) :
    (t.call c).table.depth ≤ t.depth ∨
      c = .act .enter ∧ (t.call c).table.depth = t.depth + 1 := by
  obtain ⟨-, hstep⟩ := h.step c.action
  rw [table_call, hstep.depth, h.depth]
  refine (b.depth_step c.action).imp_right fun ⟨henter, hdepth⟩ => ⟨?_, hdepth⟩
  cases c with
  | act a => exact congrArg Call.act henter
  | declareIfFree => cases henter
  | declareGlobalIfFree => cases henter

/-- Every scope that is open was entered at some point. -/
theorem exists_openSince (cs : List (Call Name P)) : ∀ {m d : Nat}, d ≤ (after cs m).depth →
    ∃ a, OpenSince cs m d a := by
  intro m
  induction m with
  | zero =>
    intro d hd
    obtain rfl : d = 0 := Nat.le_zero.mp hd
    exact ⟨0, .outermost⟩
  | succ m ih =>
    intro d hd
    by_cases hbefore : d ≤ (after cs m).depth
    · obtain ⟨a, ha⟩ := ih hbefore
      exact ⟨a, openSince_succ_iff.mpr (.inl ⟨ha, hd⟩)⟩
    · -- the depth has become greater, so the last call entered the scope
      cases hc : cs[m]? with
      | none =>
        rw [after_succ_of_none hc] at hd
        exact absurd hd hbefore
      | some c =>
        obtain ⟨b, hb⟩ := exists_represents_after cs m
        rw [after_succ hc] at hd
        rcases hb.depth_call c with hle | ⟨rfl, hdepth⟩
        · exact absurd (Nat.le_trans hd hle) hbefore
        · exact ⟨m + 1, openSince_succ_iff.mpr (.inr ⟨hc, by omega, rfl⟩)⟩

/-- A call makes the entry that its operation makes in the blocks. -/
theorem Represents.accepted?_eq {t : SymbolTable P} {b : BlockTable Name P} (h : Represents t b)
    (c : Call Name P) : t.accepted? c = b.accepted? c.action := by
  rw [accepted?, isOk_answer_call, (h.step c.action).1, h.depth]
  rfl

/-- **The entries at each depth are those made since the scope of that depth was
entered.** -/
theorem exists_represents_acceptedSince (cs : List (Call Name P)) (m : Nat) :
    ∃ b, Represents (after cs m) b ∧
      ∀ d a, OpenSince cs m d a → b.entriesAt d = acceptedSince cs a m d := by
  induction m with
  | zero =>
    refine ⟨.new, represents_new, fun d a h => ?_⟩
    cases h with
    | outermost => rfl
    | entered hi => exact absurd hi (Nat.not_lt_zero _)
  | succ m ih =>
    obtain ⟨b, hb, hentries⟩ := ih
    cases hc : cs[m]? with
    | none =>
      have hnone : acceptedAt cs m = none := by rw [acceptedAt, hc, Option.bind_none]
      rw [after_succ_of_none hc]
      refine ⟨b, hb, fun d a h => ?_⟩
      rcases openSince_succ_iff.mp h with ⟨hbefore, -⟩ | ⟨henter, -⟩
      · rw [acceptedSince_succ cs hbefore.le, hnone, hentries d a hbefore]
        exact (List.append_nil _).symm
      · rw [hc] at henter
        cases henter
    | some c =>
      have haccepted : acceptedAt cs m = b.accepted? c.action := by
        rw [acceptedAt, hc, Option.bind_some, hb.accepted?_eq]
      obtain ⟨-, hstep⟩ := hb.step c.action
      rw [← table_call, ← after_succ hc] at hstep
      refine ⟨_, hstep, fun d a h => ?_⟩
      have hle := h.depth_le
      rw [hstep.depth] at hle
      rcases openSince_succ_iff.mp h with ⟨hbefore, -⟩ | ⟨henter, rfl, rfl⟩
      · have hle' := hbefore.depth_le
        rw [hb.depth] at hle'
        rw [acceptedSince_succ cs hbefore.le, haccepted, ← hentries d a hbefore]
        exact b.entriesAt_step c.action hle' hle
      · -- nothing is declared yet in a scope that was just entered
        obtain rfl : c = .act .enter := Option.some.inj (hc.symm.trans henter)
        have hnew : (b.step (Call.act .enter).action).2.blockAt ((after cs m).depth + 1) = [] := by
          rw [hb.depth]
          exact BlockTable.blockAt_depth { b with inner := [] :: b.inner }
        rw [acceptedSince_self, BlockTable.entriesAt, hnew]
        rfl

/-! ### What is listed -/

/-- The current frame holds the keys of the innermost block. -/
theorem Represents.declared_current {t : SymbolTable P} {b : BlockTable Name P}
    (h : Represents t b) : t.scopes.current.declared = b.current.reverse.map Binding.key := by
  rw [h.scopes, BlockTable.current_stack, Frame.declared, Block.frame, Block.keys,
    List.map_reverse]

/-- What a table lists are the entries of the innermost block. -/
theorem Represents.currentEntries_eq {t : SymbolTable P} {b : BlockTable Name P}
    (h : Represents t b) : t.currentEntries = b.entriesAt t.depth := by
  have hcurrent : b.blockAt t.depth = b.current := by rw [h.depth, BlockTable.blockAt_depth]
  have hnodup : (Block.keys b.current).Nodup := by
    rw [← hcurrent]
    exact h.distinct.nodup_keys_blockAt t.depth
  rw [currentEntries, h.declared_current, List.filterMap_map, BlockTable.entriesAt, hcurrent,
    ← List.filterMap_eq_map]
  refine List.filterMap_congr fun x hx => ?_
  rw [List.mem_reverse] at hx
  have hlookup : t.lookup x.key.space x.key.name = some (x.entry t.depth) := by
    rw [h.lookup_eq, BlockTable.head?_live_of_mem (List.mem_map_of_mem hx),
      Block.entryAt_of_mem hnodup hx, h.depth]
  simp [hlookup, Binding.entry]

/-- **The list of the current scope loses and invents nothing.**  Whatever calls a new
table has served, the scope it stands in was entered at one point `a`, and since then was
never left; for the outermost scope that is the start.  What the table lists are the
declarations that this scope has accepted since, one entry for each and in their order,
with the name, the namespace and the payload of the declaration and at the current depth.
So every key that the frame holds is listed, no key is listed twice, and a key is listed
exactly if it resolves to a declaration at the current depth. -/
theorem currentEntries_after (cs : List (Call Name P)) (m : Nat) :
    ∃ a, OpenSince cs m (after cs m).depth a ∧
      (∀ a', OpenSince cs m (after cs m).depth a' → a' = a) ∧
      (after cs m).currentEntries = acceptedSince cs a m (after cs m).depth ∧
      (after cs m).currentEntries.map Entry.key = (after cs m).scopes.current.declared ∧
      ((after cs m).currentEntries.map Entry.key).Nodup ∧
      ∀ k : Key Name, k ∈ (after cs m).currentEntries.map Entry.key ↔
        (after cs m).depthOf? k.space k.name = some (after cs m).depth := by
  obtain ⟨a, hopen⟩ := exists_openSince cs (Nat.le_refl (after cs m).depth)
  obtain ⟨b, hb, hentries⟩ := exists_represents_acceptedSince cs m
  have hkeys : (after cs m).currentEntries.map Entry.key =
      (after cs m).scopes.current.declared := by
    rw [hb.currentEntries_eq, hb.declared_current, BlockTable.entriesAt, hb.depth,
      BlockTable.blockAt_depth, List.map_map]
    rfl
  refine ⟨a, hopen, fun a' h' => h'.unique hopen, ?_, hkeys, ?_, fun k => ?_⟩
  · rw [hb.currentEntries_eq, hentries _ a hopen]
  · rw [hkeys, hb.declared_current, List.map_reverse, (List.reverse_perm _).nodup_iff]
    rw [← BlockTable.blockAt_depth]
    exact hb.distinct.nodup_keys_blockAt b.depth
  · rw [hkeys, hb.declared_current, List.map_reverse, List.mem_reverse,
      hb.depthOf?_eq_depth_iff]
    rfl

/-- A global declaration made in an inner scope is listed where it was made. -/
example :
    let cs : List (Call Name fun _ => Nat) := [.declareIfFree ⟨9⟩ ⟨.var, 1⟩, .act .enter,
      .act (.declareGlobal ⟨7⟩ ⟨.func, 2⟩), .declareIfFree ⟨6⟩ ⟨.var, 3⟩, .act .leave,
      .act (.declare ⟨8⟩ ⟨.type, 4⟩)]
    (after cs 6).currentEntries = [⟨⟨9⟩, .var, ⟨.var, 1⟩, 0⟩, ⟨⟨7⟩, .func, ⟨.func, 2⟩, 0⟩,
      ⟨⟨8⟩, .type, ⟨.type, 4⟩, 0⟩] := by
  decide

end SymbolTable
end ShaderSymbols
