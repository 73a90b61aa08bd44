import ShaderSymbols.Proofs.Refinement

/-!
# Keys do not notice each other

A table keeps the keys of one scope together and the entries of one namespace
together, but what it does with a key depends on that key alone.  If some keys are
of no interest, say all that are not types or all but one, then the declarations
of the others can be struck out of a run: the rest of the run is answered as
before, and as far as the interesting keys go it leads to the same table.

A set of keys is given by a test `K`.

## Main definitions

* `Action.concerns K` — an operation that is not a declaration of a key outside `K`.
* `Block.restrict K`, `BlockTable.restrict K` — blocks without the keys outside `K`.

## Main results

* `BlockTable.step_restrict`, `BlockTable.restrict_step` — an operation that concerns
  `K` does the same to the restricted blocks, and any other does not show there.
* `SymbolTable.run_filter_concerns` — **striking out the declarations of other keys
  changes nothing for the keys that stay.**
-/

namespace ShaderSymbols

variable {ν : Type} {P : Namespace → Type}

/-- Whether an operation is something else than a declaration of a key outside `K`. -/
def Action.concerns (K : Key ν → Bool) (a : Action ν P) : Bool := a.key?.all K

/-! ### One block -/

namespace Block

variable {K : Key ν → Bool}

/-- The bindings of a block whose keys are in `K`. -/
def restrict (K : Key ν → Bool) (b : Block ν P) : Block ν P := b.filter fun x => K x.key

theorem restrict_cons_of_pos {x : Binding ν P} (hx : K x.key = true) (b : Block ν P) :
    restrict K (x :: b) = x :: restrict K b :=
  List.filter_cons_of_pos hx

theorem restrict_cons_of_neg {x : Binding ν P} (hx : K x.key = false) (b : Block ν P) :
    restrict K (x :: b) = restrict K b :=
  List.filter_cons_of_neg (by simp [hx])

theorem keys_restrict (b : Block ν P) : keys (restrict K b) = (keys b).filter K := by
  rw [keys, keys, List.filter_map]
  rfl

theorem mem_keys_restrict {k : Key ν} (hk : K k = true) {b : Block ν P} :
    k ∈ keys (restrict K b) ↔ k ∈ keys b := by
  rw [keys_restrict, List.mem_filter]
  exact and_iff_left hk

/-- A block without the keys outside `K` has the same bindings for the keys in `K`. -/
theorem find?_restrict [DecidableEq ν] {k : Key ν} (hk : K k = true) (b : Block ν P) :
    find? (restrict K b) k = find? b k := by
  induction b with
  | nil => rfl
  | cons x b ih =>
    cases hx : K x.key with
    | true => rw [restrict_cons_of_pos hx, find?_cons, find?_cons, ih]
    | false =>
      have hne : x.key ≠ k := by
        rintro rfl
        rw [hk] at hx
        cases hx
      rw [restrict_cons_of_neg hx, find?_cons, if_neg hne, ih]

end Block

/-! ### Nested blocks -/

namespace BlockTable

variable {K : Key ν → Bool}

/-- The bindings of nested blocks whose keys are in `K`. -/
def restrict (K : Key ν → Bool) (t : BlockTable ν P) : BlockTable ν P :=
  ⟨t.inner.map (Block.restrict K), Block.restrict K t.outermost⟩

theorem restrict_new : (new : BlockTable ν P).restrict K = new := rfl

@[simp] theorem depth_restrict (t : BlockTable ν P) : (t.restrict K).depth = t.depth :=
  List.length_map _

theorem current_restrict (t : BlockTable ν P) :
    (t.restrict K).current = Block.restrict K t.current := by
  obtain ⟨inner, outermost⟩ := t
  cases inner <;> rfl

theorem addOutermost_restrict {x : Binding ν P} (hx : K x.key = true) (t : BlockTable ν P) :
    (t.restrict K).addOutermost x = (t.addOutermost x).restrict K := by
  simp only [restrict, addOutermost, Block.restrict_cons_of_pos hx]

theorem addCurrent_restrict {x : Binding ν P} (hx : K x.key = true) (t : BlockTable ν P) :
    (t.restrict K).addCurrent x = (t.addCurrent x).restrict K := by
  obtain ⟨inner, outermost⟩ := t
  cases inner with
  | nil => exact addOutermost_restrict hx _
  | cons b bs => simp only [restrict, addCurrent, List.map_cons, Block.restrict_cons_of_pos hx]

theorem restrict_addOutermost {x : Binding ν P} (hx : K x.key = false) (t : BlockTable ν P) :
    (t.addOutermost x).restrict K = t.restrict K := by
  simp only [restrict, addOutermost, Block.restrict_cons_of_neg hx]

theorem restrict_addCurrent {x : Binding ν P} (hx : K x.key = false) (t : BlockTable ν P) :
    (t.addCurrent x).restrict K = t.restrict K := by
  obtain ⟨inner, outermost⟩ := t
  cases inner with
  | nil => exact restrict_addOutermost hx _
  | cons b bs => simp only [restrict, addCurrent, List.map_cons, Block.restrict_cons_of_neg hx]

section Step

variable [DecidableEq ν]

/-- **An operation that concerns `K` does the same to the restricted blocks.** -/
theorem step_restrict {a : Action ν P} (ha : a.concerns K = true) (t : BlockTable ν P) :
    (t.restrict K).step a = ((t.step a).1, (t.step a).2.restrict K) := by
  cases a with
  | enter => rfl
  | leave =>
    obtain ⟨inner, outermost⟩ := t
    cases inner <;> rfl
  | declare n s =>
    have hK : K ⟨s.space, n⟩ = true := ha
    have hiff : ⟨s.space, n⟩ ∈ Block.keys (t.restrict K).current ↔
        ⟨s.space, n⟩ ∈ Block.keys t.current := by
      rw [current_restrict, Block.mem_keys_restrict hK]
    by_cases hk : ⟨s.space, n⟩ ∈ Block.keys t.current
    · rw [step_declare_of_mem hk, step_declare_of_mem (hiff.mpr hk), depth_restrict]
    · rw [step_declare_of_notMem hk, step_declare_of_notMem (mt hiff.mp hk),
        addCurrent_restrict hK]
  | declareGlobal n s =>
    have hK : K ⟨s.space, n⟩ = true := ha
    have hiff : ⟨s.space, n⟩ ∈ Block.keys (t.restrict K).outermost ↔
        ⟨s.space, n⟩ ∈ Block.keys t.outermost := Block.mem_keys_restrict hK
    by_cases hk : ⟨s.space, n⟩ ∈ Block.keys t.outermost
    · rw [step_declareGlobal_of_mem hk, step_declareGlobal_of_mem (hiff.mpr hk)]
    · rw [step_declareGlobal_of_notMem hk, step_declareGlobal_of_notMem (mt hiff.mp hk),
        addOutermost_restrict hK]

/-- **Any other operation does not show in the restricted blocks.** -/
theorem restrict_step {a : Action ν P} (ha : a.concerns K = false) (t : BlockTable ν P) :
    (t.step a).2.restrict K = t.restrict K := by
  cases a with
  | enter => cases ha
  | leave => cases ha
  | declare n s =>
    have hK : K ⟨s.space, n⟩ = false := ha
    by_cases hk : ⟨s.space, n⟩ ∈ Block.keys t.current
    · rw [step_declare_of_mem hk]
    · rw [step_declare_of_notMem hk]
      exact restrict_addCurrent hK t
  | declareGlobal n s =>
    have hK : K ⟨s.space, n⟩ = false := ha
    by_cases hk : ⟨s.space, n⟩ ∈ Block.keys t.outermost
    · rw [step_declareGlobal_of_mem hk]
    · rw [step_declareGlobal_of_notMem hk]
      exact restrict_addOutermost hK t

/-- The operations that concern `K` do to the restricted blocks what the whole run
does to the blocks, and they are answered as in the whole run. -/
theorem run_restrict : ∀ (as : List (Action ν P)) (t : BlockTable ν P),
    (t.restrict K).run (as.filter (Action.concerns K)) =
      (((as.zip (t.run as).1).filter fun p => p.1.concerns K).map Prod.snd,
        (t.run as).2.restrict K) := by
  intro as
  induction as with
  | nil => intro t; rfl
  | cons a as ih =>
    intro t
    rw [run_cons, List.zip_cons_cons, List.filter_cons, List.filter_cons]
    cases ha : a.concerns K with
    | true => rw [if_pos rfl, if_pos rfl, run_cons, step_restrict ha, ih, List.map_cons]
    | false =>
      rw [if_neg Bool.false_ne_true, if_neg Bool.false_ne_true, ← restrict_step ha, ih]

end Step

/-! ### What is left of the two records -/

/-- A key in `K` keeps its entries. -/
theorem live_restrict {K : Key Name → Bool} {k : Key Name} (hk : K k = true)
    (t : BlockTable Name P) : (t.restrict K).live k = t.live k := by
  have hentry : ∀ (b : Block Name P) (depth : Nat),
      Block.entryAt (Block.restrict K b) k depth = Block.entryAt b k depth := by
    intro b depth
    rw [Block.entryAt, Block.entryAt, Block.find?_restrict hk]
  have hinner : ∀ bs : List (Block Name P),
      liveInner k (bs.map (Block.restrict K)) = liveInner k bs := by
    intro bs
    induction bs with
    | nil => rfl
    | cons b bs ih => rw [List.map_cons, liveInner, liveInner, hentry, ih, List.length_map]
  rw [live, live, restrict, hinner, hentry]

/-- Every frame keeps the keys in `K`, in their order. -/
theorem declaredKeys_restrict (t : BlockTable ν P) :
    (t.restrict K).stack.declaredKeys = t.stack.declaredKeys.map (List.filter K) := by
  have hblocks : (t.restrict K).blocks = t.blocks.map (Block.restrict K) := by
    rw [blocks, blocks, restrict, List.map_append, List.map_singleton]
  rw [declaredKeys_stack, declaredKeys_stack, hblocks, ← List.map_reverse, List.map_map,
    List.map_map]
  refine List.map_congr_left fun b _ => ?_
  rw [Function.comp_apply, Function.comp_apply, Block.keys_restrict, List.filter_reverse]

end BlockTable

/-! ### Runs of a symbol table -/

namespace SymbolTable

/-- **Keys do not notice each other.**  Strike out of a run of a new table all
declarations of keys outside `K`.  What is left is answered as in the whole run and
ends at the same depth; the keys in `K` resolve to the same declarations; and every
scope declares, in the same order, those of its keys that are in `K`. -/
theorem run_filter_concerns (K : Key Name → Bool) (as : List (Action Name P)) :
    ((new : SymbolTable P).run (as.filter (Action.concerns K))).answer =
        ((as.zip ((new : SymbolTable P).run as).answer).filter
          fun p => p.1.concerns K).map Prod.snd ∧
      ((new : SymbolTable P).run (as.filter (Action.concerns K))).table.depth =
        ((new : SymbolTable P).run as).table.depth ∧
      (∀ k : Key Name, K k = true →
        ((new : SymbolTable P).run (as.filter (Action.concerns K))).table.lookup k.space k.name =
            ((new : SymbolTable P).run as).table.lookup k.space k.name ∧
          ((new : SymbolTable P).run (as.filter (Action.concerns K))).table.depthOf? k.space k.name =
            ((new : SymbolTable P).run as).table.depthOf? k.space k.name) ∧
      ((new : SymbolTable P).run (as.filter (Action.concerns K))).table.scopes.declaredKeys =
        ((new : SymbolTable P).run as).table.scopes.declaredKeys.map (List.filter K) := by
  have hnew : Represents (new : SymbolTable P) .new := represents_new
  obtain ⟨hanswers, hwhole⟩ := Represents.run as hnew
  obtain ⟨hkept, hpart⟩ := Represents.run (as.filter (Action.concerns K)) hnew
  -- nothing is struck out of new blocks, so the shorter run leads to the restricted blocks
  have hrun := BlockTable.run_restrict (K := K) as .new
  rw [BlockTable.restrict_new] at hrun
  rw [hrun] at hkept hpart
  refine ⟨?_, ?_, ?_, ?_⟩
  · rw [hkept, hanswers]
  · rw [hpart.depth, hwhole.depth, BlockTable.depth_restrict]
  · intro k hk
    have hlive := BlockTable.live_restrict hk
      ((BlockTable.new : BlockTable Name P).run as).2
    have hfind := BlockTable.find?_eq_head?_live
      (((BlockTable.new : BlockTable Name P).run as).2.restrict K) k
    rw [hlive, ← BlockTable.find?_eq_head?_live] at hfind
    refine ⟨?_, ?_⟩
    · rw [hpart.lookup_eq, hwhole.lookup_eq, hlive]
    · rw [hpart.agrees.depthOf?, hwhole.agrees.depthOf?, hfind]
  · rw [hpart.scopes, hwhole.scopes, BlockTable.declaredKeys_restrict]

/-- A walk through a scope that declares one name in two namespaces, the types twice
and once more from inside. -/
def mixed : List (Action Name fun _ => Nat) :=
  [.declare ⟨7⟩ ⟨.type, 1⟩, .declare ⟨7⟩ ⟨.var, 2⟩, .declare ⟨7⟩ ⟨.type, 3⟩, .enter,
    .declare ⟨7⟩ ⟨.var, 4⟩, .declareGlobal ⟨8⟩ ⟨.type, 5⟩]

theorem run_filter_concerns_mixed :
    mixed.filter (Action.concerns (·.space = .type)) =
      [.declare ⟨7⟩ ⟨.type, 1⟩, .declare ⟨7⟩ ⟨.type, 3⟩, .enter, .declareGlobal ⟨8⟩ ⟨.type, 5⟩] ∧
    ((new : SymbolTable fun _ => Nat).run
      (mixed.filter (Action.concerns (·.space = .type)))).answer =
        [.ok (), .error (.redeclared ⟨.type, ⟨7⟩⟩ 0), .ok (), .ok ()] ∧
    ((new : SymbolTable fun _ => Nat).run
      (mixed.filter (Action.concerns (·.space = .type)))).table.lookup .type ⟨7⟩ =
        some ⟨⟨7⟩, .type, ⟨.type, 1⟩, 0⟩ ∧
    ((new : SymbolTable fun _ => Nat).run
      (mixed.filter (Action.concerns (·.space = .type)))).table.scopes.declaredKeys =
        [[⟨.type, ⟨7⟩⟩, ⟨.type, ⟨8⟩⟩], []] := by
  obtain ⟨hanswer, -, hlookup, hkeys⟩ := run_filter_concerns (·.space = .type) mixed
  obtain ⟨htype, -⟩ := hlookup ⟨.type, ⟨7⟩⟩ rfl
  refine ⟨rfl, ?_, ?_, ?_⟩
  · rw [hanswer]
    rfl
  · rw [htype]
    decide
  · rw [hkeys]
    decide

end SymbolTable
end ShaderSymbols
