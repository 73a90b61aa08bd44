import ShaderSymbols.Proofs.BlocksByDepth
import ShaderSymbols.Proofs.CurrentKeys

/-!
# What the indices take for granted

An index puts an entry in front of the others of its name and trusts that they are less
deep; it puts an entry at the back and trusts that none of the others has depth 0; and it
takes the first entry off a list and trusts that there is one, of the depth of the scope
that is left.  None of this is checked when a program runs.  This file shows that it holds
whenever an index is changed.

For declarations that is a fact about the table before the change.  A scope that is left
is another matter: its keys are unlinked one by one, and while this goes on the indices and
the frames do not agree.  What carries the loop is a statement about the keys that are
still to come, `Pending`: they are distinct, and each has an entry of the right depth in
front.  Unlinking one key does not touch the lists of the others.

## Main definitions

* `ShadowIndex.FitsAbove`, `ShadowIndex.FitsBeneath`, `ShadowIndex.TopsAt` — what an index
  takes for granted, for each way to change it.
* `SymbolTable.Pending index ks d` — the keys `ks` can be unlinked from a scope of depth
  `d`.
* `SymbolTable.Guarded t` — every change to the indices of `t` finds what it takes for
  granted.

## Main results

* `SymbolTable.Pending.hide`, `SymbolTable.Pending.foldl_hide` — unlinking one key, or
  several, leaves the other keys pending.
* `SymbolTable.Represents.pending` — the keys of the current frame are pending when its
  scope is left.
* `SymbolTable.guarded_run` — **nothing that is taken for granted ever fails.**
-/

namespace ShaderSymbols

variable {P : Namespace → Type}

/-! ### What is taken for granted -/

namespace ShadowIndex

variable {α : Type}

/-- The entry is deeper than the first of its name, which it is to hide. -/
def FitsAbove (x : ShadowIndex α) (e : Entry α) : Prop :=
  ∀ e', x.visible? e.name = some e' → e'.depth < e.depth

/-- The last entry of the name, which is to hide the new one, is not at depth 0. -/
def FitsBeneath (x : ShadowIndex α) (e : Entry α) : Prop :=
  ∀ e', x.bottom? e.name = some e' → 0 < e'.depth

/-- The name has a list, and the first entry there has depth `d`. -/
def TopsAt (x : ShadowIndex α) (n : Name) (d : Nat) : Prop :=
  ∃ e es, x.lists[n]? = some (e :: es) ∧ e.depth = d

end ShadowIndex

namespace SymbolTable

/-! ### Unlinking the keys of a scope -/

/-- Hiding a key leaves what is kept for other keys alone. -/
theorem getElem?_lists_hide_of_ne (index : PerNamespace fun ns => ShadowIndex (P ns))
    {k k' : Key Name} (h : k' ≠ k) : ((hide index k).get k'.space).lists[k'.name]? =
      (index.get k'.space).lists[k'.name]? := by
  obtain ⟨space, n⟩ := k
  obtain ⟨space', n'⟩ := k'
  by_cases hs : space' = space
  · subst hs
    have hn : n ≠ n' := fun hn => h (by rw [hn])
    rw [hide, PerNamespace.get_modify_self, ShadowIndex.drop, Std.ExtTreeMap.getElem?_alter,
      if_neg (by rwa [Std.compare_eq_iff_eq])]
  · rw [hide, PerNamespace.get_modify_of_ne _ _ hs]

/-- The keys `ks` can be unlinked, one after the other, from a scope of depth `d`. -/
structure Pending (index : PerNamespace fun ns => ShadowIndex (P ns)) (ks : List (Key Name))
    (d : Nat) : Prop where
  /-- No key comes twice. -/
  nodup : ks.Nodup
  /-- Each has an entry of the scope in front. -/
  topsAt : ∀ k ∈ ks, (index.get k.space).TopsAt k.name d

namespace Pending

variable {index : PerNamespace fun ns => ShadowIndex (P ns)} {d : Nat}

/-- When one key is unlinked, the others stay pending. -/
theorem hide {k : Key Name} {ks : List (Key Name)} (h : Pending index (k :: ks) d) :
    Pending (hide index k) ks d where
  nodup := (List.nodup_cons.mp h.nodup).2
  topsAt := by
    intro k' hk'
    have hne : k' ≠ k := fun heq => (List.nodup_cons.mp h.nodup).1 (heq ▸ hk')
    rw [ShadowIndex.TopsAt, getElem?_lists_hide_of_ne index hne]
    exact h.topsAt k' (List.mem_cons_of_mem _ hk')

/-- **When some keys are unlinked, the others stay pending.** -/
theorem foldl_hide : ∀ (done : List (Key Name)) {rest : List (Key Name)}
    {index : PerNamespace fun ns => ShadowIndex (P ns)}, Pending index (done ++ rest) d →
    Pending (done.foldl SymbolTable.hide index) rest d := by
  intro done
  induction done with
  | nil => intro rest index h; exact h
  | cons k done ih => intro rest index h; exact ih h.hide

end Pending

namespace Represents

variable {t : SymbolTable P} {b : BlockTable Name P}

/-- A key of the current frame has an entry of the current depth in front. -/
theorem topsAt (h : Represents t b) {k : Key Name} (hk : k ∈ t.scopes.current.declared) :
    (t.index.get k.space).TopsAt k.name t.depth := by
  have hfirst := (h.depthOf?_eq_depth_iff_declared k.space k.name).mpr hk
  rw [depthOf?_eq, Option.map_eq_some_iff] at hfirst
  obtain ⟨e, he, hd⟩ := hfirst
  obtain ⟨es, hes⟩ : ∃ es, (t.index.get k.space).shadows k.name = e :: es :=
    List.head?_eq_some_iff.mp he
  have hlists := (h.trim k.space).getElem?_lists k.name
  rw [hes, if_neg (List.cons_ne_nil e es)] at hlists
  exact ⟨e, es, hlists, hd⟩

/-- The keys of the current frame are pending when its scope is left. -/
theorem pending (h : Represents t b) {f : Frame Name} {s : ScopeStack Name}
    (hs : t.scopes.leave = .ok (f, s)) : Pending t.index f.keys f.depth := by
  have hcurrent := ScopeStack.current_of_leave hs
  have hdepth : t.depth = f.depth := by rw [SymbolTable.depth, ScopeStack.depth, hcurrent]
  refine ⟨?_, fun k hk => ?_⟩
  · have hframe : f = Block.frame b.current b.depth := by
      rw [← hcurrent, h.scopes, BlockTable.current_stack]
    rw [hframe, ← BlockTable.blockAt_depth]
    exact h.distinct.nodup_keys_blockAt b.depth
  · have hdeclared : k ∈ t.scopes.current.declared := by
      rw [hcurrent]
      exact Frame.mem_declared.mpr hk
    rw [← hdepth]
    exact h.topsAt hdeclared

/-! ### Declaring -/

/-- No entry is deeper than the current scope, so one that is not of the current depth is
less deep. -/
theorem fitsAbove (h : Represents t b) {ns : Namespace} {n : Name}
    (hfree : t.depthOf? ns n ≠ some t.depth) (p : P ns) :
    (t.index.get ns).FitsAbove ⟨n, ns, p, t.depth⟩ := by
  intro e he
  have hne : e.depth ≠ t.depth := by
    rintro hd
    rw [depthOf?, entry?, he, Option.map_some, hd] at hfree
    exact hfree rfl
  exact Nat.lt_of_le_of_ne (h.depth_le_of_mem_shadows (List.mem_of_head? he)) hne

end Represents

theorem fitsBeneath {t : SymbolTable P} {ns : Namespace} {n : Name}
    (hfree : t.bottomDepth? ns n ≠ some 0) (p : P ns) :
    (t.index.get ns).FitsBeneath ⟨n, ns, p, 0⟩ := by
  intro e he
  refine Nat.pos_of_ne_zero fun hd => hfree ?_
  rw [bottomDepth?, he, Option.map_some, hd]

/-! ### All changes -/

/-- Every change to the indices of a table finds what it takes for granted. -/
structure Guarded (t : SymbolTable P) : Prop where
  /-- An accepted declaration puts its entry in front, where it fits. -/
  declare : ∀ (n : Name) (s : Symbol P), (t.declare n s).answer = .ok () →
    (t.declare n s).table.index =
      t.index.modify s.space (·.push ⟨n, s.space, s.payload, t.depth⟩) ∧
    (t.index.get s.space).FitsAbove ⟨n, s.space, s.payload, t.depth⟩
  /-- An accepted global declaration puts its entry at the back, where it fits. -/
  declareGlobal : ∀ (n : Name) (s : Symbol P), (t.declareGlobal n s).answer = .ok () →
    (t.declareGlobal n s).table.index =
      t.index.modify s.space (·.pushBeneath ⟨n, s.space, s.payload, 0⟩) ∧
    (t.index.get s.space).FitsBeneath ⟨n, s.space, s.payload, 0⟩
  /-- A scope that is left has its keys unlinked one by one, newest first.  When the turn
  of a key comes, after those in `done`, an entry of the scope is in front. -/
  leave : ∀ (f : Frame Name) (s : ScopeStack Name), t.scopes.leave = .ok (f, s) →
    t.leave.table.index = f.keys.foldl hide t.index ∧
    ∀ (done : List (Key Name)) (k : Key Name) (rest : List (Key Name)),
      f.keys = done ++ k :: rest →
      ((done.foldl hide t.index).get k.space).TopsAt k.name f.depth

theorem Represents.guarded {t : SymbolTable P} {b : BlockTable Name P} (h : Represents t b) :
    t.Guarded where
  declare := by
    intro n s hok
    have hfree : t.depthOf? s.space n ≠ some t.depth := by
      rw [← isOk_declare_iff, hok]
      rfl
    rw [SymbolTable.declare, if_neg hfree]
    exact ⟨rfl, h.fitsAbove hfree s.payload⟩
  declareGlobal := by
    intro n s hok
    have hfree : t.bottomDepth? s.space n ≠ some 0 := by
      rw [← isOk_declareGlobal_iff, hok]
      rfl
    rw [SymbolTable.declareGlobal, if_neg hfree]
    exact ⟨rfl, fitsBeneath hfree s.payload⟩
  leave := by
    intro f s hs
    refine ⟨by rw [SymbolTable.leave, hs], fun done k rest hkeys => ?_⟩
    have hpending : Pending t.index (done ++ k :: rest) f.depth := hkeys ▸ h.pending hs
    exact (Pending.foldl_hide done hpending).topsAt k List.mem_cons_self

/-- **Nothing that is taken for granted ever fails.**  Whatever operations a table has
performed, an entry that the next one puts in front of the others of its name is deeper
than they are, one that it puts at the back finds no other of depth 0, and when a scope is
left, every key of its frame has a list when its turn comes, with an entry of that very
scope in front. -/
theorem guarded_run (as : List (Action Name P)) : ((new : SymbolTable P).run as).table.Guarded :=
  (Represents.run as represents_new).2.guarded

/-- Half way through leaving a scope that declares a variable and a type of one name, the
frame still holds both keys and the variable is still there. -/
example :
    let t : SymbolTable fun _ => Nat := (new.run [.declare ⟨7⟩ ⟨.var, 1⟩, .enter,
      .declare ⟨7⟩ ⟨.var, 2⟩, .declare ⟨7⟩ ⟨.type, 3⟩]).table
    let index := [⟨.type, ⟨7⟩⟩].foldl hide t.index
    t.scopes.current.keys = [⟨.type, ⟨7⟩⟩, ⟨.var, ⟨7⟩⟩] ∧
      (index.get .type).lists[(⟨7⟩ : Name)]? = none ∧
      (index.get .var).lists[(⟨7⟩ : Name)]? =
        some [⟨⟨7⟩, .var, 2, 1⟩, ⟨⟨7⟩, .var, 1, 0⟩] := by
  decide

end SymbolTable
end ShaderSymbols
