import ShaderSymbols.Proofs.Refusals

/-!
# Declarations with different targets commute

A declaration has a target: a key, and the depth of the scope it goes to, which is that
of the current scope or zero.  Two declarations may be of one key and still have
different targets, and then both work on one list of entries, one at each end.  This file
shows that the order of two declarations with different targets matters for nothing but
the order in which a frame lists its keys, and for that only if they go to the same frame.

One binding more in one block is seen at that depth and by that key only.  So whether the
second declaration is accepted does not depend on the first, and what both add is the
same block by block.

## Main results

* `BlockTable.answer_step_step` — a declaration has the same answer before and after one
  with another target.
* `BlockTable.step_step_cases` — either the order makes no difference, or both orders add
  both bindings.
* `BlockTable.Adds.comm`, `BlockTable.Adds.live_comm` — two bindings added in different
  blocks, and in the same block.
* `SymbolTable.run_comm` — **two declarations with different targets commute.**
-/

namespace ShaderSymbols

variable {P : Namespace → Type}

namespace BlockTable

/-! ### Two bindings -/

namespace Adds

variable {t u v w w' : BlockTable Name P} {d d' : Nat} {x y : Binding Name P}

/-- Bindings added at different depths may be added in any order. -/
theorem comm (hx : Adds t d x u) (hxy : Adds u d' y w) (hy : Adds t d' y v) (hyx : Adds v d x w')
    (hd : d ≠ d') : w = w' := by
  apply ext_blockAt
  · rw [hxy.depth, hx.depth, hyx.depth, hy.depth]
  · intro i
    rw [hxy.blockAt, hx.blockAt, hyx.blockAt, hy.blockAt]
    by_cases hi : i = d
    · subst hi
      simp [hd]
    · simp [hi]

/-- If two bindings of different keys are added at the same depth, the order does not show
in the entries. -/
theorem live_comm (hx : Adds t d x u) (hxy : Adds u d y w) (hy : Adds t d y v)
    (hyx : Adds v d x w') (hkey : x.key ≠ y.key) (k : Key Name) : w.live k = w'.live k := by
  have hdepth : w.depth = w'.depth := by rw [hxy.depth, hx.depth, hyx.depth, hy.depth]
  rw [live_eq_liveAt, live_eq_liveAt, hdepth]
  refine liveAt_congr fun i _ => ?_
  rw [hxy.blockAt, hx.blockAt, hyx.blockAt, hy.blockAt]
  split
  · -- at most one of the two bindings is of the key `k`
    rw [Block.entryAt_cons, Block.entryAt_cons, Block.entryAt_cons, Block.entryAt_cons]
    by_cases hk : x.key = k
    · subst hk
      simp [Ne.symm hkey]
    · simp [hk]
  · rfl

/-- Two bindings added at one depth are two more keys in one frame. -/
theorem frames_stack_twice (hx : Adds t d x u) (hxy : Adds u d y w) :
    w.stack.frames = t.stack.frames.modify d fun frame => (frame.note x.key).note y.key := by
  rw [hxy.frames_stack, hx.frames_stack, List.modify_modify_eq]
  rfl

end Adds

/-! ### Two declarations -/

variable {t : BlockTable Name P} {a b : Action Name P} {x y : Binding Name P} {d d' : Nat}

/-- After a declaration, another target is taken exactly if it was taken before. -/
theorem mem_keys_blockAt_step (ha : a.made? t.depth = some (x.entry d))
    (hne : ¬ (x.key = y.key ∧ d = d')) :
    y.key ∈ Block.keys ((t.step a).2.blockAt d') ↔ y.key ∈ Block.keys (t.blockAt d') := by
  by_cases hk : x.key ∈ Block.keys (t.blockAt d)
  · rw [step_of_mem_blockAt ha hk]
  · rw [(adds_step ha hk).2.mem_keys_blockAt]
    exact or_iff_right fun h => hne ⟨h.1.symm, h.2.symm⟩

/-- **A declaration has the same answer before and after one with another target.** -/
theorem answer_step_step (ha : a.made? t.depth = some (x.entry d))
    (hb : b.made? t.depth = some (y.entry d')) (hne : ¬ (x.key = y.key ∧ d = d')) :
    ((t.step a).2.step b).1 = (t.step b).1 := by
  have hmem := mem_keys_blockAt_step ha hne
  have hb' : b.made? (t.step a).2.depth = some (y.entry d') := by rw [depth_step_of_made ha, hb]
  by_cases hk : y.key ∈ Block.keys (t.blockAt d')
  · rw [step_of_mem_blockAt hb' (hmem.mpr hk), step_of_mem_blockAt hb hk]
  · rw [(adds_step hb' (mt hmem.mp hk)).1, (adds_step hb hk).1]

/-- A declaration that is refused might as well not be made, before or after one with
another target. -/
theorem step_step_of_mem (ha : a.made? t.depth = some (x.entry d))
    (hb : b.made? t.depth = some (y.entry d')) (hne : ¬ (x.key = y.key ∧ d = d'))
    (hk : x.key ∈ Block.keys (t.blockAt d)) :
    ((t.step a).2.step b).2 = ((t.step b).2.step a).2 := by
  have hne' : ¬ (y.key = x.key ∧ d' = d) := fun h => hne ⟨h.1.symm, h.2.symm⟩
  have ha' : a.made? (t.step b).2.depth = some (x.entry d) := by rw [depth_step_of_made hb, ha]
  rw [step_of_mem_blockAt ha hk,
    step_of_mem_blockAt ha' ((mem_keys_blockAt_step hb hne').mpr hk)]

/-- **Either the order of two declarations with different targets makes no difference, or
both orders add both bindings.** -/
theorem step_step_cases (ha : a.made? t.depth = some (x.entry d))
    (hb : b.made? t.depth = some (y.entry d')) (hne : ¬ (x.key = y.key ∧ d = d')) :
    ((t.step a).2.step b).2 = ((t.step b).2.step a).2 ∨
      (Adds t d x (t.step a).2 ∧ Adds (t.step a).2 d' y ((t.step a).2.step b).2) ∧
        Adds t d' y (t.step b).2 ∧ Adds (t.step b).2 d x ((t.step b).2.step a).2 := by
  have hne' : ¬ (y.key = x.key ∧ d' = d) := fun h => hne ⟨h.1.symm, h.2.symm⟩
  by_cases hx : x.key ∈ Block.keys (t.blockAt d)
  · exact .inl (step_step_of_mem ha hb hne hx)
  by_cases hy : y.key ∈ Block.keys (t.blockAt d')
  · exact .inl (step_step_of_mem hb ha hne' hy).symm
  -- each is accepted, whether it is the first or the second
  have ha' : a.made? (t.step b).2.depth = some (x.entry d) := by rw [depth_step_of_made hb, ha]
  have hb' : b.made? (t.step a).2.depth = some (y.entry d') := by rw [depth_step_of_made ha, hb]
  have hx' := mt (mem_keys_blockAt_step hb hne').mp hx
  have hy' := mt (mem_keys_blockAt_step ha hne).mp hy
  exact .inr ⟨⟨(adds_step ha hx).2, (adds_step hb' hy').2⟩,
    (adds_step hb hy).2, (adds_step ha' hx').2⟩

end BlockTable

namespace SymbolTable

/-! ### Two declarations to a symbol table -/

/-- **Two declarations with different targets commute.**  Let `a` and `b` be declarations,
each in the current or in the outermost scope of a table in any state, that would make the
entries `e` and `f`, of different keys or of different depths.  Each has the same answer
whether it comes first or second, and both orders end with the same indices.  If the depths
differ, also if the keys do not, both orders end in the same table.  If the depths are
equal, the tables are the same or differ in one frame only, where the two newest keys are
in the other order. -/
theorem run_comm {t : SymbolTable P} (ht : t.Reachable) {a b : Action Name P}
    {e f : Entry (Symbol P)} (ha : a.made? t.depth = some e) (hb : b.made? t.depth = some f)
    (hne : ¬ (e.key = f.key ∧ e.depth = f.depth)) :
    (t.run [a, b]).answer = [(t.step a).answer, (t.step b).answer] ∧
    (t.run [b, a]).answer = [(t.step b).answer, (t.step a).answer] ∧
    (t.run [a, b]).table.index = (t.run [b, a]).table.index ∧
    (e.depth ≠ f.depth → (t.run [a, b]).table = (t.run [b, a]).table) ∧
    (e.depth = f.depth → (t.run [a, b]).table = (t.run [b, a]).table ∨
      (t.run [a, b]).table.scopes.frames =
          t.scopes.frames.modify e.depth (fun frame => (frame.note e.key).note f.key) ∧
        (t.run [b, a]).table.scopes.frames =
          t.scopes.frames.modify e.depth (fun frame => (frame.note f.key).note e.key)) := by
  obtain ⟨c, h⟩ := ht.exists_represents
  obtain ⟨x, he, -⟩ := Action.exists_binding_of_made? ha
  obtain ⟨y, hf, -⟩ := Action.exists_binding_of_made? hb
  generalize e.depth = d at he hne ⊢
  generalize f.depth = d' at hf hne ⊢
  subst he hf
  rw [h.depth] at ha hb
  have hne' : ¬ (y.key = x.key ∧ d' = d) := fun h => hne ⟨h.1.symm, h.2.symm⟩
  obtain ⟨hanswer_a, ha_rep⟩ := h.step a
  obtain ⟨hanswer_b, hb_rep⟩ := h.step b
  obtain ⟨hanswer_ab, hab_rep⟩ := ha_rep.step b
  obtain ⟨hanswer_ba, hba_rep⟩ := hb_rep.step a
  have hanswers : (t.run [a, b]).answer = [(t.step a).answer, (t.step b).answer] := by
    rw [answer_run_cons, answer_run_cons, run_nil, hanswer_ab,
      BlockTable.answer_step_step ha hb hne, hanswer_b]
  have hanswers' : (t.run [b, a]).answer = [(t.step b).answer, (t.step a).answer] := by
    rw [answer_run_cons, answer_run_cons, run_nil, hanswer_ba,
      BlockTable.answer_step_step hb ha hne', hanswer_a]
  refine ⟨hanswers, hanswers', ?_⟩
  -- the same blocks are represented by the same table
  have hsame_table : ((c.step a).2.step b).2 = ((c.step b).2.step a).2 →
      (t.run [a, b]).table = (t.run [b, a]).table := by
    intro hsame
    rw [hsame] at hab_rep
    exact hab_rep.unique hba_rep
  rcases BlockTable.step_step_cases ha hb hne with hsame | ⟨⟨hx, hxy⟩, hy, hyx⟩
  · have htable := hsame_table hsame
    exact ⟨congrArg (·.index) htable, fun _ => htable, fun _ => .inl htable⟩
  · by_cases hd : d = d'
    · subst hd
      have hkey : x.key ≠ y.key := fun hk => hne ⟨hk, rfl⟩
      refine ⟨hab_rep.index_eq hba_rep (hx.live_comm hxy hy hyx hkey), fun h => absurd rfl h,
        fun _ => .inr ⟨?_, ?_⟩⟩
      · rw [h.scopes]
        exact hab_rep.scopes ▸ hx.frames_stack_twice hxy
      · rw [h.scopes]
        exact hba_rep.scopes ▸ hy.frames_stack_twice hyx
    · have htable := hsame_table (hx.comm hxy hy hyx hd)
      exact ⟨congrArg (·.index) htable, fun _ => htable, fun h => absurd h hd⟩

/-- A local and a global declaration of one name end in the same table, whichever comes
first.  Two local ones end in the same indices, but the frame tells which came first. -/
theorem run_comm_veiled :
    (veiled.run [.declare ⟨8⟩ ⟨.var, 3⟩, .declareGlobal ⟨8⟩ ⟨.var, 4⟩]).table =
      (veiled.run [.declareGlobal ⟨8⟩ ⟨.var, 4⟩, .declare ⟨8⟩ ⟨.var, 3⟩]).table ∧
    (veiled.run [.declareGlobal ⟨8⟩ ⟨.var, 4⟩, .declare ⟨8⟩ ⟨.var, 3⟩]).answer = [.ok (), .ok ()] ∧
    (veiled.run [.declare ⟨8⟩ ⟨.var, 3⟩, .declare ⟨9⟩ ⟨.var, 4⟩]).table.index =
      (veiled.run [.declare ⟨9⟩ ⟨.var, 4⟩, .declare ⟨8⟩ ⟨.var, 3⟩]).table.index ∧
    (veiled.run [.declare ⟨8⟩ ⟨.var, 3⟩, .declare ⟨9⟩ ⟨.var, 4⟩]).table.scopes ≠
      (veiled.run [.declare ⟨9⟩ ⟨.var, 4⟩, .declare ⟨8⟩ ⟨.var, 3⟩]).table.scopes := by
  obtain ⟨-, hanswers, -, htable, -⟩ := run_comm (t := veiled) ⟨_, rfl⟩
    (a := .declare ⟨8⟩ ⟨.var, 3⟩) (b := .declareGlobal ⟨8⟩ ⟨.var, 4⟩) rfl rfl (by decide)
  obtain ⟨-, -, hindex, -⟩ := run_comm (t := veiled) ⟨_, rfl⟩
    (a := .declare ⟨8⟩ ⟨.var, 3⟩) (b := .declare ⟨9⟩ ⟨.var, 4⟩) rfl rfl (by decide)
  exact ⟨htable (by decide), hanswers, hindex, by decide⟩

end SymbolTable
end ShaderSymbols
