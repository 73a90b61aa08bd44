import ShaderSymbols.Proofs.NestedBlocks
import ShaderSymbols.SymbolTable.Run

/-!
# What a symbol table stands for

A symbol table keeps two records of the same declarations, a stack of declared
keys and an index of live entries.  Both can be read off nested blocks, and a
table *represents* the blocks that they are read off from.  Every operation keeps
a table in step with its blocks, so whatever is true of nested blocks is true of
the table; and since a table is nothing but its two records, the blocks determine
it.

## Main definitions

* `ShadowIndex.Trim` — no name is kept without an entry.
* `SymbolTable.Represents t b` — the records of `t` are those of the blocks `b`.

## Main results

* `SymbolTable.Represents.step`, `SymbolTable.Represents.run` — **a table and the
  blocks that it represents answer alike, and the table goes on to represent the
  blocks.**
* `SymbolTable.Represents.unique` — blocks are represented by one table only.
* `SymbolTable.Reachable.exists_represents` — every reachable table represents
  some blocks.
-/

namespace ShaderSymbols

variable {P : Namespace → Type}

/-! ### Names without entries -/

namespace ShadowIndex

variable {α : Type}

/-- No name is kept without an entry. -/
def Trim (x : ShadowIndex α) : Prop := ∀ n : Name, x.lists[n]? ≠ some []

theorem trim_empty : (empty : ShadowIndex α).Trim := by
  intro n
  simp [empty]

/-- Changing one list keeps an index trim if the new list is not empty. -/
theorem Trim.alter {x : ShadowIndex α} (h : x.Trim) (n : Name)
    {f : Option (List (Entry α)) → Option (List (Entry α))} (hf : ∀ l?, f l? ≠ some []) :
    (⟨x.lists.alter n f⟩ : ShadowIndex α).Trim := by
  intro m
  rw [Std.ExtTreeMap.getElem?_alter]
  split
  · exact hf _
  · exact h m

theorem Trim.push {x : ShadowIndex α} (h : x.Trim) (e : Entry α) : (x.push e).Trim :=
  h.alter e.name fun l? => by simp

theorem Trim.pushBeneath {x : ShadowIndex α} (h : x.Trim) (e : Entry α) :
    (x.pushBeneath e).Trim :=
  h.alter e.name fun l? => by simp

theorem Trim.drop {x : ShadowIndex α} (h : x.Trim) (n : Name) : (x.drop n).Trim := by
  refine h.alter n fun l? => ?_
  rcases l?.getD [] with _ | ⟨_, _ | ⟨_, _⟩⟩ <;> simp

/-- What a trim index keeps under a name is the list of its entries. -/
theorem Trim.getElem?_lists {x : ShadowIndex α} (h : x.Trim) (n : Name) :
    x.lists[n]? = if x.shadows n = [] then none else some (x.shadows n) := by
  rw [shadows]
  cases hl : x.lists[n]? with
  | none => rfl
  | some l =>
    have hne : l ≠ [] := fun he => h n (by rw [hl, he])
    simp [hne]

/-- From a trim index exactly the names without entries are absent. -/
theorem Trim.getElem?_lists_eq_none_iff {x : ShadowIndex α} (h : x.Trim) (n : Name) :
    x.lists[n]? = none ↔ x.shadows n = [] := by
  rw [h.getElem?_lists]
  split
  · next hnil => exact iff_of_true rfl hnil
  · next hne => exact iff_of_false (by simp) hne

/-- Trim indices with the same entries are equal. -/
theorem Trim.eq_of_shadows {x y : ShadowIndex α} (hx : x.Trim) (hy : y.Trim)
    (h : ∀ n, x.shadows n = y.shadows n) : x = y := by
  obtain ⟨lists⟩ := x
  obtain ⟨lists'⟩ := y
  refine congrArg mk (Std.ExtTreeMap.ext_getElem? fun n => ?_)
  have hn := hx.getElem?_lists n
  rw [h n, ← hy.getElem?_lists n] at hn
  exact hn

end ShadowIndex

namespace SymbolTable

/-- Changing the index of one namespace keeps all of them trim if it keeps that one. -/
theorem trim_modify {index : PerNamespace fun ns => ShadowIndex (P ns)}
    (h : ∀ ns, (index.get ns).Trim) {ns : Namespace}
    {change : ShadowIndex (P ns) → ShadowIndex (P ns)} (hchange : (change (index.get ns)).Trim)
    (ns' : Namespace) : ((index.modify ns change).get ns').Trim := by
  by_cases hns : ns' = ns
  · subst hns
    rw [PerNamespace.get_modify_self]
    exact hchange
  · rw [PerNamespace.get_modify_of_ne _ _ hns]
    exact h ns'

/-! ### Leaving a scope -/

section Hide

variable (index : PerNamespace fun ns => ShadowIndex (P ns))

/-- Hiding distinct keys takes the innermost entry off the list of each. -/
theorem shadows_foldl_hide (ns : Namespace) (n : Name) : ∀ ks : List (Key Name), ks.Nodup →
    ((ks.foldl hide index).get ns).shadows n =
      if ⟨ns, n⟩ ∈ ks then ((index.get ns).shadows n).tail else (index.get ns).shadows n := by
  intro ks
  induction ks generalizing index with
  | nil => intro _; simp
  | cons k ks ih =>
    intro hks
    rw [List.nodup_cons] at hks
    rw [List.foldl_cons, ih _ hks.2, shadows_hide]
    -- `k` does not occur again, so no list loses two entries
    by_cases hk : k = ⟨ns, n⟩
    · subst hk
      simp [hks.1]
    · simp [hk, Ne.symm hk]

theorem trim_hide {index : PerNamespace fun ns => ShadowIndex (P ns)}
    (h : ∀ ns, (index.get ns).Trim) (k : Key Name) (ns : Namespace) :
    ((hide index k).get ns).Trim :=
  trim_modify h ((h k.space).drop k.name) ns

theorem trim_foldl_hide {index : PerNamespace fun ns => ShadowIndex (P ns)}
    (h : ∀ ns, (index.get ns).Trim) (ks : List (Key Name)) (ns : Namespace) :
    ((ks.foldl hide index).get ns).Trim := by
  induction ks generalizing index with
  | nil => exact h ns
  | cons k ks ih => exact ih fun ns' => trim_hide h k ns'

/-- Hiding a key that has an entry takes one entry away. -/
theorem total_hide {k : Key Name} (h : (index.get k.space).shadows k.name ≠ []) :
    (hide index k).total (fun _ x => x.size) + 1 = index.total fun _ x => x.size := by
  have htotal := index.total_modify (fun _ x => x.size) k.space (·.drop k.name)
  have hsize := ShadowIndex.size_drop h
  rw [hide]
  omega

/-- Hiding distinct keys that have entries takes as many entries away. -/
theorem total_foldl_hide : ∀ ks : List (Key Name), ks.Nodup →
    (∀ k ∈ ks, (index.get k.space).shadows k.name ≠ []) →
    (ks.foldl hide index).total (fun _ x => x.size) + ks.length =
      index.total fun _ x => x.size := by
  intro ks
  induction ks generalizing index with
  | nil => intro _ _; rfl
  | cons k ks ih =>
    intro hks hne
    rw [List.nodup_cons] at hks
    -- hiding `k` leaves the lists of the other keys alone
    have hrest : ∀ k' ∈ ks, ((hide index k).get k'.space).shadows k'.name ≠ [] := by
      intro k' hk'
      have hkk' : k ≠ k' := fun h => hks.1 (h ▸ hk')
      rw [shadows_hide, if_neg (by simpa using hkk')]
      exact hne k' (List.mem_cons_of_mem _ hk')
    have hfirst := total_hide index (hne k List.mem_cons_self)
    have := ih (hide index k) hks.2 hrest
    rw [List.foldl_cons, List.length_cons]
    omega

end Hide

end SymbolTable

/-- Tagging a payload with its namespace loses nothing. -/
theorem Entry.map_mk_inj (ns : Namespace) (e e' : Entry (P ns))
    (h : e.map (Symbol.mk ns) = e'.map (Symbol.mk ns)) : e = e' := by
  obtain ⟨n, space, p, d⟩ := e
  obtain ⟨n', space', p', d'⟩ := e'
  simpa [Entry.map] using h

namespace SymbolTable

/-! ### Representing nested blocks -/

/-- The records of a table are those of nested blocks. -/
structure Represents (t : SymbolTable P) (b : BlockTable Name P) : Prop where
  /-- The scope stack holds the keys of the blocks. -/
  scopes : t.scopes = b.stack
  /-- The indices hold the entries of the blocks. -/
  live : ∀ k : Key Name,
    (t.shadows k.space k.name).map (·.map (Symbol.mk k.space)) = b.live k
  /-- The indices hold nothing else. -/
  trim : ∀ ns, (t.index.get ns).Trim
  /-- There are as many entries as bindings. -/
  size : t.size = b.size
  /-- No block declares a key twice. -/
  distinct : b.Distinct

theorem represents_new : (new : SymbolTable P).Represents .new where
  scopes := rfl
  live := by simp
  trim := by simp [new, ShadowIndex.trim_empty]
  size := by simp [size, new, PerNamespace.total, PerNamespace.ofFn, BlockTable.size,
    BlockTable.blocks, BlockTable.new]
  distinct := BlockTable.distinct_new

namespace Represents

variable {t : SymbolTable P} {b : BlockTable Name P}

theorem depth (h : Represents t b) : t.depth = b.depth := by
  rw [SymbolTable.depth, h.scopes, BlockTable.depth_stack]

/-- The entries of a table are those of its blocks. -/
theorem entries_eq (h : Represents t b) (k : Key Name) : t.entries k = b.live k := h.live k

/-- The depths in a list of entries do not depend on how the payloads are tagged. -/
private theorem depth_map_entry {ns : Namespace} (e? : Option (Entry (P ns))) :
    (e?.map (·.map (Symbol.mk ns))).map (·.depth) = e?.map (·.depth) := by
  cases e? <;> rfl

theorem depthOf?_eq_depth_iff (h : Represents t b) (ns : Namespace) (n : Name) :
    t.depthOf? ns n = some t.depth ↔ ⟨ns, n⟩ ∈ Block.keys b.current := by
  rw [← b.declares_current_iff, ← h.live ⟨ns, n⟩, List.head?_map, depth_map_entry, h.depth,
    depthOf?_eq]

theorem bottomDepth?_eq_zero_iff (h : Represents t b) (ns : Namespace) (n : Name) :
    t.bottomDepth? ns n = some 0 ↔ ⟨ns, n⟩ ∈ Block.keys b.outermost := by
  rw [← b.declares_outermost_iff, ← h.live ⟨ns, n⟩, List.getLast?_map, depth_map_entry,
    bottomDepth?_eq]

/-- An entry is no deeper than the current scope. -/
theorem depth_le_of_mem_shadows (h : Represents t b) {ns : Namespace} {n : Name}
    {e : Entry (P ns)} (he : e ∈ t.shadows ns n) : e.depth ≤ t.depth := by
  have hmem : e.map (Symbol.mk ns) ∈ b.live ⟨ns, n⟩ := by
    rw [← h.live ⟨ns, n⟩]
    exact List.mem_map_of_mem he
  rw [h.depth]
  exact (BlockTable.mem_live hmem).1

/-- The entries of a name have strictly decreasing depths. -/
theorem pairwise_shadows (h : Represents t b) (ns : Namespace) (n : Name) :
    (t.shadows ns n).Pairwise fun e e' => e'.depth < e.depth := by
  have hlive := b.pairwise_live ⟨ns, n⟩
  rw [← h.live ⟨ns, n⟩, List.pairwise_map] at hlive
  exact hlive

/-- Tables that represent blocks with the same entries have the same indices. -/
theorem index_eq {t' : SymbolTable P} {b' : BlockTable Name P} (h : Represents t b)
    (h' : Represents t' b') (hlive : ∀ k, b.live k = b'.live k) : t.index = t'.index := by
  refine PerNamespace.ext_get fun ns => (h.trim ns).eq_of_shadows (h'.trim ns) fun n => ?_
  have hentries : t.entries ⟨ns, n⟩ = t'.entries ⟨ns, n⟩ := by
    rw [h.entries_eq, h'.entries_eq, hlive]
  exact (List.map_inj_right (Entry.map_mk_inj ns)).mp hentries

/-- **Blocks are represented by one table only.** -/
theorem unique {t' : SymbolTable P} (h : Represents t b) (h' : Represents t' b) : t = t' :=
  SymbolTable.ext (h.scopes.trans h'.scopes.symm) (h.index_eq h' fun _ => rfl)

/-! ### One operation -/

theorem enter (h : Represents t b) :
    Represents t.enter.table { b with inner := [] :: b.inner } where
  scopes := by
    rw [SymbolTable.enter, h.scopes, ScopeStack.enter, BlockTable.depth_stack]
    rfl
  live := by
    intro k
    rw [BlockTable.live_enter, shadows_enter]
    exact h.live k
  trim := h.trim
  size := h.size
  distinct := by
    intro c hc
    rcases List.mem_cons.mp hc with rfl | hc
    · exact .nil
    · exact h.distinct c hc

/-- The table and the blocks give the same answer to an attempt to leave the
current scope, and stay in step. -/
theorem leave (h : Represents t b) :
    t.leave.answer = (b.step .leave).1 ∧ Represents t.leave.table (b.step .leave).2 := by
  obtain ⟨inner, outermost⟩ := b
  cases inner with
  | nil =>
    rw [SymbolTable.leave, h.scopes, BlockTable.leave_stack_nil, BlockTable.step_leave_nil]
    exact ⟨rfl, h⟩
  | cons c cs =>
    have hc : (Block.keys c).Nodup := h.distinct c List.mem_cons_self
    have hlive : ∀ k : Key Name,
        ((((Block.keys c).foldl hide t.index).get k.space).shadows k.name).map
          (·.map (Symbol.mk k.space)) = (⟨cs, outermost⟩ : BlockTable Name P).live k := by
      intro k
      rw [shadows_foldl_hide _ _ _ _ hc, BlockTable.live_tail c, ← h.live k]
      split
      · rw [List.map_tail]
        rfl
      · rfl
    -- each key of the left block has an entry, and leaving takes one of them away
    have hne : ∀ k ∈ Block.keys c, (t.index.get k.space).shadows k.name ≠ [] := by
      intro k hk hnil
      have hentry := h.live k
      rw [shadows, hnil, BlockTable.live_cons] at hentry
      obtain ⟨s, hs⟩ := Block.entryAt_eq_some hk (cs.length + 1)
      simp [hs] at hentry
    have hsize : ((Block.keys c).foldl hide t.index).total (fun _ x => x.size) =
        (⟨cs, outermost⟩ : BlockTable Name P).size := by
      have htotal := total_foldl_hide t.index (Block.keys c) hc hne
      have hbefore := h.size
      simp only [SymbolTable.size, BlockTable.size, BlockTable.blocks, List.cons_append,
        List.flatten_cons, List.length_append, Block.length_keys] at htotal hbefore ⊢
      omega
    have hdistinct : (⟨cs, outermost⟩ : BlockTable Name P).Distinct := by
      intro d hd
      exact h.distinct d (List.mem_cons_of_mem _ hd)
    rw [SymbolTable.leave, h.scopes, BlockTable.leave_stack_cons, BlockTable.step_leave_cons]
    exact ⟨rfl, rfl, hlive, trim_foldl_hide h.trim _, hsize, hdistinct⟩

/-- What the current scope accepts is one more binding in the current block. -/
theorem declared (h : Represents t b) {n : Name} {s : Symbol P}
    (hk : ⟨s.space, n⟩ ∉ Block.keys b.current) :
    Represents (t.declare n s).table (b.addCurrent ⟨n, s⟩) := by
  have hfree := mt (h.depthOf?_eq_depth_iff s.space n).mp hk
  exact {
    scopes := by
      rw [SymbolTable.declare, if_neg hfree, BlockTable.stack_addCurrent, ← h.scopes]
      rfl
    live := fun k => by
      show (t.declare n s).table.entries k = _
      rw [entries_declare hfree, BlockTable.live_addCurrent hk, h.entries_eq, h.depth]
      rfl
    trim := by
      rw [SymbolTable.declare, if_neg hfree]
      exact trim_modify h.trim ((h.trim s.space).push _)
    size := by rw [size_declare hfree, BlockTable.size_addCurrent, h.size]
    distinct := h.distinct.addCurrent hk }

/-- What the outermost scope accepts is one more binding in the outermost block. -/
theorem declaredGlobal (h : Represents t b) {n : Name} {s : Symbol P}
    (hk : ⟨s.space, n⟩ ∉ Block.keys b.outermost) :
    Represents (t.declareGlobal n s).table (b.addOutermost ⟨n, s⟩) := by
  have hfree := mt (h.bottomDepth?_eq_zero_iff s.space n).mp hk
  exact {
    scopes := by
      rw [SymbolTable.declareGlobal, if_neg hfree, BlockTable.stack_addOutermost, ← h.scopes]
      rfl
    live := fun k => by
      show (t.declareGlobal n s).table.entries k = _
      rw [entries_declareGlobal hfree, BlockTable.live_addOutermost hk, h.entries_eq]
      rfl
    trim := by
      rw [SymbolTable.declareGlobal, if_neg hfree]
      exact trim_modify h.trim ((h.trim s.space).pushBeneath _)
    size := by rw [size_declareGlobal hfree, BlockTable.size_addOutermost, h.size]
    distinct := h.distinct.addOutermost hk }

theorem declare (h : Represents t b) (n : Name) (s : Symbol P) :
    (t.declare n s).answer = (b.step (.declare n s)).1 ∧
      Represents (t.declare n s).table (b.step (.declare n s)).2 := by
  have hiff := h.depthOf?_eq_depth_iff s.space n
  by_cases hk : ⟨s.space, n⟩ ∈ Block.keys b.current
  · rw [BlockTable.step_declare_of_mem hk, SymbolTable.declare, if_pos (hiff.mpr hk), h.depth]
    exact ⟨rfl, h⟩
  · rw [BlockTable.step_declare_of_notMem hk]
    refine ⟨?_, h.declared hk⟩
    rw [SymbolTable.declare, if_neg (mt hiff.mp hk)]

theorem declareGlobal (h : Represents t b) (n : Name) (s : Symbol P) :
    (t.declareGlobal n s).answer = (b.step (.declareGlobal n s)).1 ∧
      Represents (t.declareGlobal n s).table (b.step (.declareGlobal n s)).2 := by
  have hiff := h.bottomDepth?_eq_zero_iff s.space n
  by_cases hk : ⟨s.space, n⟩ ∈ Block.keys b.outermost
  · rw [BlockTable.step_declareGlobal_of_mem hk, SymbolTable.declareGlobal,
      if_pos (hiff.mpr hk)]
    exact ⟨rfl, h⟩
  · rw [BlockTable.step_declareGlobal_of_notMem hk]
    refine ⟨?_, h.declaredGlobal hk⟩
    rw [SymbolTable.declareGlobal, if_neg (mt hiff.mp hk)]

/-- **A table and its blocks answer every operation alike and stay in step.** -/
theorem step (h : Represents t b) (a : Action Name P) :
    (t.step a).answer = (b.step a).1 ∧ Represents (t.step a).table (b.step a).2 := by
  cases a with
  | enter =>
    rw [BlockTable.step_enter]
    exact ⟨rfl, h.enter⟩
  | leave => exact h.leave
  | declare n s => exact h.declare n s
  | declareGlobal n s => exact h.declareGlobal n s

/-! ### Runs -/

theorem run : ∀ (as : List (Action Name P)) {t : SymbolTable P} {b : BlockTable Name P},
    Represents t b →
    (t.run as).answer = (b.run as).1 ∧ Represents (t.run as).table (b.run as).2 := by
  intro as
  induction as with
  | nil => intro t b h; exact ⟨rfl, h⟩
  | cons a as ih =>
    intro t b h
    -- the blocks move on with the table, hence both are general in the induction
    obtain ⟨hanswer, hstep⟩ := h.step a
    obtain ⟨hanswers, hrun⟩ := ih hstep
    rw [answer_run_cons, table_run_cons, BlockTable.run_cons, hanswer, hanswers]
    exact ⟨rfl, hrun⟩

end Represents

/-- Every reachable table represents some blocks. -/
theorem Reachable.exists_represents {t : SymbolTable P} (h : t.Reachable) :
    ∃ b, Represents t b := by
  obtain ⟨as, rfl⟩ := h
  exact ⟨_, (Represents.run as represents_new).2⟩

end SymbolTable
end ShaderSymbols
