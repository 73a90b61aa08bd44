import ShaderSymbols.BlockTable
import ShaderSymbols.Scope.Stack

/-!
# The live declarations of nested blocks

Nested blocks keep no record of what a name resolves to; the record can be read
off them.  This file reads off both records of an indexed table — the stack of
declared keys and, for every key, the entries that are live — and says how each
operation on the blocks changes them.

## Main definitions

* `Block.keys`, `Block.entryAt` — the keys of a block, and its entry for a key.
* `BlockTable.addCurrent`, `BlockTable.addOutermost` — what an accepted
  declaration does.
* `BlockTable.stack` — the scope stack with the keys of every block.
* `BlockTable.live` — the entries of a key, innermost first.
* `BlockTable.Distinct` — no block declares a key twice.

## Main results

* `BlockTable.find?_eq_head?_live` — a key resolves to the first of its entries.
* `BlockTable.declares_current_iff`, `BlockTable.declares_outermost_iff` — whether
  the innermost or the outermost block declares a key shows at the two ends of
  its entries.
* `BlockTable.live_addCurrent`, `BlockTable.live_addOutermost` — a declaration
  adds one entry, at one of the ends.
-/

namespace ShaderSymbols

variable {ν : Type} {P : Namespace → Type}

/-! ### One block -/

namespace Block

/-- The keys of a block, newest first. -/
def keys (b : Block ν P) : List (Key ν) := b.map Binding.key

@[simp] theorem keys_nil : keys ([] : Block ν P) = [] := rfl

@[simp] theorem keys_cons (x : Binding ν P) (b : Block ν P) : keys (x :: b) = x.key :: keys b := rfl

@[simp] theorem length_keys (b : Block ν P) : (keys b).length = b.length := List.length_map _

/-- The frame of a block at a given depth. -/
def frame (b : Block ν P) (depth : Nat) : Frame ν := ⟨depth, keys b⟩

@[simp] theorem declares_eq_true_iff [DecidableEq ν] {b : Block ν P} {k : Key ν} :
    declares b k = true ↔ k ∈ keys b := by
  simp [declares, keys]

theorem find?_eq_none_iff [DecidableEq ν] {b : Block ν P} {k : Key ν} :
    find? b k = none ↔ k ∉ keys b := by
  rw [← declares_eq_true_iff, ← isSome_find?]
  simp

/-- The entry that a block at a given depth has for a key. -/
def entryAt (b : Block Name P) (k : Key Name) (depth : Nat) : Option (Entry (Symbol P)) :=
  (find? b k).map fun s => ⟨k.name, k.space, s, depth⟩

theorem entryAt_cons (x : Binding Name P) (b : Block Name P) (k : Key Name) (depth : Nat) :
    entryAt (x :: b) k depth =
      if x.key = k then some ⟨k.name, k.space, x.symbol, depth⟩ else entryAt b k depth := by
  rw [entryAt, entryAt, find?_cons]
  split <;> rfl

theorem entryAt_eq_none_iff {b : Block Name P} {k : Key Name} {depth : Nat} :
    entryAt b k depth = none ↔ k ∉ keys b := by
  rw [← find?_eq_none_iff, entryAt, Option.map_eq_none_iff]

/-- A block has an entry for every key it declares. -/
theorem entryAt_eq_some {b : Block Name P} {k : Key Name} (h : k ∈ keys b) (depth : Nat) :
    ∃ s, entryAt b k depth = some ⟨k.name, k.space, s, depth⟩ := by
  cases hf : find? b k with
  | none => exact absurd h (find?_eq_none_iff.mp hf)
  | some s => exact ⟨s, by rw [entryAt, hf, Option.map_some]⟩

/-- What a block's entry shows of the key and of the block. -/
theorem mem_entryAt {b : Block Name P} {k : Key Name} {depth : Nat} {e : Entry (Symbol P)}
    (h : e ∈ (entryAt b k depth).toList) :
    k ∈ keys b ∧ e.depth = depth ∧ e.name = k.name ∧ e.space = k.space := by
  by_cases hk : k ∈ keys b
  · obtain ⟨s, hs⟩ := entryAt_eq_some hk depth
    rw [hs, Option.toList_some, List.mem_singleton] at h
    subst h
    exact ⟨hk, rfl, rfl, rfl⟩
  · rw [entryAt_eq_none_iff.mpr hk] at h
    simp at h

end Block

namespace BlockTable

/-! ### What a declaration does -/

/-- The innermost block. -/
def current (t : BlockTable ν P) : Block ν P := t.inner.headD t.outermost

/-- Adds a binding to the outermost block. -/
def addOutermost (t : BlockTable ν P) (x : Binding ν P) : BlockTable ν P :=
  { t with outermost := x :: t.outermost }

/-- Adds a binding to the innermost block. -/
def addCurrent (t : BlockTable ν P) (x : Binding ν P) : BlockTable ν P :=
  match t.inner with
  | [] => t.addOutermost x
  | b :: bs => { t with inner := (x :: b) :: bs }

section Step

variable [DecidableEq ν]

theorem step_enter (t : BlockTable ν P) :
    t.step .enter = (.ok (), { t with inner := [] :: t.inner }) := rfl

theorem step_leave_nil (o : Block ν P) :
    (⟨[], o⟩ : BlockTable ν P).step .leave = (.error .underflow, ⟨[], o⟩) := rfl

theorem step_leave_cons (b : Block ν P) (bs : List (Block ν P)) (o : Block ν P) :
    (⟨b :: bs, o⟩ : BlockTable ν P).step .leave = (.ok (), ⟨bs, o⟩) := rfl

theorem step_declareGlobal_of_mem {t : BlockTable ν P} {n : ν} {s : Symbol P}
    (h : ⟨s.space, n⟩ ∈ Block.keys t.outermost) :
    t.step (.declareGlobal n s) = (.error (.redeclared ⟨s.space, n⟩ 0), t) := by
  rw [← Block.declares_eq_true_iff] at h
  simp [step, addTo, Binding.key, h]

theorem step_declareGlobal_of_notMem {t : BlockTable ν P} {n : ν} {s : Symbol P}
    (h : ⟨s.space, n⟩ ∉ Block.keys t.outermost) :
    t.step (.declareGlobal n s) = (.ok (), t.addOutermost ⟨n, s⟩) := by
  rw [← Block.declares_eq_true_iff] at h
  simp [step, addTo, Binding.key, addOutermost, h]

theorem step_declare_of_mem {t : BlockTable ν P} {n : ν} {s : Symbol P}
    (h : ⟨s.space, n⟩ ∈ Block.keys t.current) :
    t.step (.declare n s) = (.error (.redeclared ⟨s.space, n⟩ t.depth), t) := by
  rw [← Block.declares_eq_true_iff] at h
  obtain ⟨inner, outermost⟩ := t
  cases inner with
  | nil => simp_all [step, addTo, Binding.key, current, depth]
  | cons b bs => simp_all [step, addTo, Binding.key, current]

theorem step_declare_of_notMem {t : BlockTable ν P} {n : ν} {s : Symbol P}
    (h : ⟨s.space, n⟩ ∉ Block.keys t.current) :
    t.step (.declare n s) = (.ok (), t.addCurrent ⟨n, s⟩) := by
  rw [← Block.declares_eq_true_iff] at h
  obtain ⟨inner, outermost⟩ := t
  cases inner with
  | nil => simp_all [step, addTo, Binding.key, current, addCurrent, addOutermost]
  | cons b bs => simp_all [step, addTo, Binding.key, current, addCurrent]

/-- A run can be split anywhere. -/
theorem run_append (t : BlockTable ν P) (as bs : List (Action ν P)) :
    t.run (as ++ bs) =
      ((t.run as).1 ++ ((t.run as).2.run bs).1, ((t.run as).2.run bs).2) := by
  induction as generalizing t with
  | nil => rfl
  | cons a as ih => rw [List.cons_append, run_cons, run_cons, ih, List.cons_append]

theorem length_answers_run (t : BlockTable ν P) (as : List (Action ν P)) :
    (t.run as).1.length = as.length := by
  induction as generalizing t with
  | nil => rfl
  | cons a as ih => rw [run_cons, List.length_cons, ih, List.length_cons]

end Step

@[simp] theorem depth_addCurrent (t : BlockTable ν P) (x : Binding ν P) :
    (t.addCurrent x).depth = t.depth := by
  obtain ⟨inner, outermost⟩ := t
  cases inner <;> rfl

@[simp] theorem size_addOutermost (t : BlockTable ν P) (x : Binding ν P) :
    (t.addOutermost x).size = t.size + 1 := by
  simp [size, blocks, addOutermost, Nat.add_assoc]

@[simp] theorem size_addCurrent (t : BlockTable ν P) (x : Binding ν P) :
    (t.addCurrent x).size = t.size + 1 := by
  obtain ⟨inner, outermost⟩ := t
  cases inner with
  | nil => exact size_addOutermost _ x
  | cons b bs =>
    simp [size, blocks, addCurrent, Nat.add_right_comm]

/-! ### Distinct keys -/

/-- No block declares a key twice. -/
def Distinct (t : BlockTable ν P) : Prop := ∀ b ∈ t.blocks, (Block.keys b).Nodup

theorem distinct_new : (new : BlockTable ν P).Distinct := by
  simp [Distinct, blocks, new]

theorem Distinct.addOutermost {t : BlockTable ν P} (h : t.Distinct) {x : Binding ν P}
    (hx : x.key ∉ Block.keys t.outermost) : (t.addOutermost x).Distinct := by
  intro b hb
  simp only [blocks, BlockTable.addOutermost, List.mem_append, List.mem_singleton] at hb
  rcases hb with hb | rfl
  · exact h b (List.mem_append_left _ hb)
  · rw [Block.keys_cons, List.nodup_cons]
    exact ⟨hx, h t.outermost (by simp [blocks])⟩

theorem Distinct.addCurrent {t : BlockTable ν P} (h : t.Distinct) {x : Binding ν P}
    (hx : x.key ∉ Block.keys t.current) : (t.addCurrent x).Distinct := by
  obtain ⟨inner, outermost⟩ := t
  cases inner with
  | nil => exact h.addOutermost hx
  | cons c cs =>
    intro b hb
    simp only [blocks, BlockTable.addCurrent, List.cons_append, List.mem_cons] at hb
    rcases hb with rfl | hb
    · rw [Block.keys_cons, List.nodup_cons]
      exact ⟨hx, h c (by simp [blocks])⟩
    · exact h b (List.mem_cons_of_mem _ hb)

/-! ### The stack of declared keys -/

/-- The frames of blocks inside the outermost one. -/
def innerFrames : List (Block ν P) → List (Frame ν)
  | [] => []
  | b :: bs => Block.frame b (bs.length + 1) :: innerFrames bs

/-- The scope stack with the keys of every block. -/
def stack (t : BlockTable ν P) : ScopeStack ν := ⟨innerFrames t.inner, Block.frame t.outermost 0⟩

@[simp] theorem depth_stack (t : BlockTable ν P) : t.stack.depth = t.depth := by
  obtain ⟨inner, outermost⟩ := t
  cases inner <;> rfl

theorem stack_addOutermost (t : BlockTable ν P) (x : Binding ν P) :
    (t.addOutermost x).stack = t.stack.noteOutermost x.key := rfl

theorem stack_addCurrent (t : BlockTable ν P) (x : Binding ν P) :
    (t.addCurrent x).stack = t.stack.note x.key := by
  obtain ⟨inner, outermost⟩ := t
  cases inner <;> rfl

theorem current_stack (t : BlockTable ν P) :
    t.stack.current = Block.frame t.current t.depth := by
  obtain ⟨inner, outermost⟩ := t
  cases inner <;> rfl

/-- The frames declare, oldest key first, what the blocks declare. -/
theorem declaredKeys_stack (t : BlockTable ν P) :
    t.stack.declaredKeys = t.blocks.reverse.map fun b => (Block.keys b).reverse := by
  have hinner : ∀ bs : List (Block ν P),
      (innerFrames bs).map Frame.declared = bs.map fun b => (Block.keys b).reverse := by
    intro bs
    induction bs with
    | nil => rfl
    | cons b bs ih =>
      rw [innerFrames, List.map_cons, List.map_cons, ih]
      rfl
  rw [ScopeStack.declaredKeys, ScopeStack.frames, stack, List.map_cons, List.map_reverse, hinner,
    blocks, List.reverse_append, List.reverse_singleton, List.map_append, List.map_reverse]
  rfl

theorem leave_stack_cons (b : Block ν P) (bs : List (Block ν P)) (o : Block ν P) :
    (⟨b :: bs, o⟩ : BlockTable ν P).stack.leave =
      .ok (Block.frame b (bs.length + 1), (⟨bs, o⟩ : BlockTable ν P).stack) := rfl

theorem leave_stack_nil (o : Block ν P) :
    (⟨[], o⟩ : BlockTable ν P).stack.leave = .error .underflow := rfl

/-! ### The entries of a key -/

/-- The entries of a key in blocks inside the outermost one, innermost first. -/
def liveInner (k : Key Name) : List (Block Name P) → List (Entry (Symbol P))
  | [] => []
  | b :: bs => (Block.entryAt b k (bs.length + 1)).toList ++ liveInner k bs

/-- The entries of a key, innermost first. -/
def live (t : BlockTable Name P) (k : Key Name) : List (Entry (Symbol P)) :=
  liveInner k t.inner ++ (Block.entryAt t.outermost k 0).toList

@[simp] theorem live_new (k : Key Name) : (new : BlockTable Name P).live k = [] := rfl

theorem live_nil (o : Block Name P) (k : Key Name) :
    (⟨[], o⟩ : BlockTable Name P).live k = (Block.entryAt o k 0).toList := rfl

theorem live_cons (b : Block Name P) (bs : List (Block Name P)) (o : Block Name P)
    (k : Key Name) :
    (⟨b :: bs, o⟩ : BlockTable Name P).live k =
      (Block.entryAt b k (bs.length + 1)).toList ++ (⟨bs, o⟩ : BlockTable Name P).live k := by
  simp [live, liveInner]

theorem mem_liveInner {k : Key Name} {bs : List (Block Name P)} {e : Entry (Symbol P)}
    (h : e ∈ liveInner k bs) :
    0 < e.depth ∧ e.depth ≤ bs.length ∧ e.name = k.name ∧ e.space = k.space := by
  induction bs with
  | nil => simp [liveInner] at h
  | cons b bs ih =>
    rw [liveInner, List.mem_append] at h
    rcases h with h | h
    · obtain ⟨-, hd, hn⟩ := Block.mem_entryAt h
      exact ⟨by omega, by simp [hd], hn⟩
    · obtain ⟨hpos, hle, hn⟩ := ih h
      exact ⟨hpos, by rw [List.length_cons]; omega, hn⟩

theorem mem_live {t : BlockTable Name P} {k : Key Name} {e : Entry (Symbol P)}
    (h : e ∈ t.live k) : e.depth ≤ t.depth ∧ e.name = k.name ∧ e.space = k.space := by
  rw [live, List.mem_append] at h
  rcases h with h | h
  · exact (mem_liveInner h).2
  · obtain ⟨-, hd, hn⟩ := Block.mem_entryAt h
    exact ⟨by omega, hn⟩

/-- The block at the head is the deepest, so its entry comes first. -/
theorem pairwise_liveInner (k : Key Name) (bs : List (Block Name P)) :
    (liveInner k bs).Pairwise fun e e' => e'.depth < e.depth := by
  induction bs with
  | nil => exact .nil
  | cons b bs ih =>
    rw [liveInner, List.pairwise_append]
    refine ⟨?_, ih, fun e he e' he' => ?_⟩
    · cases Block.entryAt b k (bs.length + 1) <;> simp
    · have hd := (Block.mem_entryAt he).2.1
      have hle := (mem_liveInner he').2.1
      omega

/-- The entries of a key have strictly decreasing depths. -/
theorem pairwise_live (t : BlockTable Name P) (k : Key Name) :
    (t.live k).Pairwise fun e e' => e'.depth < e.depth := by
  rw [live, List.pairwise_append]
  refine ⟨pairwise_liveInner k t.inner, ?_, fun e he e' he' => ?_⟩
  · cases Block.entryAt t.outermost k 0 <;> simp
  · have hd := (Block.mem_entryAt he').2.1
    have hpos := (mem_liveInner he).1
    omega

/-- A key resolves to the first of its entries. -/
theorem find?_eq_head?_live (t : BlockTable Name P) (k : Key Name) :
    t.find? k = (t.live k).head?.map fun e => (e.depth, e.payload) := by
  obtain ⟨inner, outermost⟩ := t
  induction inner with
  | nil =>
    rw [live_nil, Block.entryAt, find?, blocks]
    cases h : Block.find? outermost k <;> simp [search, h]
  | cons b bs ih =>
    -- the search stops at `b` if and only if `b` contributes the first entry
    rw [live_cons, Block.entryAt]
    simp only [find?, blocks, List.cons_append, search] at ih ⊢
    cases Block.find? b k with
    | some s => simp
    | none => simpa using ih

/-! ### The two ends of the entries -/

theorem declares_current_iff (t : BlockTable Name P) (k : Key Name) :
    (t.live k).head?.map (·.depth) = some t.depth ↔ k ∈ Block.keys t.current := by
  obtain ⟨inner, outermost⟩ := t
  cases inner with
  | nil =>
    simp only [live_nil, current, List.headD_nil]
    by_cases hk : k ∈ Block.keys outermost
    · obtain ⟨s, hs⟩ := Block.entryAt_eq_some hk 0
      simp [hs, hk, depth]
    · simp [Block.entryAt_eq_none_iff.mpr hk, hk]
  | cons b bs =>
    simp only [live_cons, current, List.headD_cons]
    by_cases hk : k ∈ Block.keys b
    · obtain ⟨s, hs⟩ := Block.entryAt_eq_some hk (bs.length + 1)
      simp [hs, hk, depth]
    · -- the first entry, if any, is from an outer block, so it is not as deep
      rw [Block.entryAt_eq_none_iff.mpr hk, Option.toList_none, List.nil_append]
      refine iff_of_false (fun hhead => ?_) hk
      obtain ⟨e, he, hd⟩ := Option.map_eq_some_iff.mp hhead
      have hle := (mem_live (List.mem_of_head? he)).1
      simp only [depth, List.length_cons] at hd hle
      omega

theorem declares_outermost_iff (t : BlockTable Name P) (k : Key Name) :
    (t.live k).getLast?.map (·.depth) = some 0 ↔ k ∈ Block.keys t.outermost := by
  rw [live]
  by_cases hk : k ∈ Block.keys t.outermost
  · obtain ⟨s, hs⟩ := Block.entryAt_eq_some hk 0
    simp [hs, hk]
  · -- all entries are from inner blocks, so none has depth 0
    rw [Block.entryAt_eq_none_iff.mpr hk, Option.toList_none, List.append_nil]
    refine iff_of_false (fun hlast => ?_) hk
    obtain ⟨e, he, hd⟩ := Option.map_eq_some_iff.mp hlast
    have hpos := (mem_liveInner (List.mem_of_getLast? he)).1
    omega

/-! ### The entries after an operation -/

theorem live_enter (t : BlockTable Name P) (k : Key Name) :
    ({ t with inner := [] :: t.inner } : BlockTable Name P).live k = t.live k := rfl

/-- A declaration in the outermost block adds an entry beneath the others. -/
theorem live_addOutermost {t : BlockTable Name P} {x : Binding Name P}
    (hx : x.key ∉ Block.keys t.outermost) (k : Key Name) :
    (t.addOutermost x).live k =
      if x.key = k then t.live k ++ [⟨k.name, k.space, x.symbol, 0⟩] else t.live k := by
  rw [live, live, addOutermost, Block.entryAt_cons]
  split
  · next h =>
    subst h
    rw [Block.entryAt_eq_none_iff.mpr hx]
    simp
  · rfl

/-- A declaration in the innermost block adds an entry above the others. -/
theorem live_addCurrent {t : BlockTable Name P} {x : Binding Name P}
    (hx : x.key ∉ Block.keys t.current) (k : Key Name) :
    (t.addCurrent x).live k =
      if x.key = k then ⟨k.name, k.space, x.symbol, t.depth⟩ :: t.live k else t.live k := by
  obtain ⟨inner, outermost⟩ := t
  cases inner with
  | nil =>
    rw [addCurrent, live_addOutermost hx]
    split
    · next h =>
      subst h
      rw [live_nil, Block.entryAt_eq_none_iff.mpr (show x.key ∉ Block.keys outermost from hx)]
      rfl
    · rfl
  | cons b bs =>
    rw [addCurrent, live_cons, live_cons, Block.entryAt_cons]
    split
    · next h =>
      subst h
      rw [Block.entryAt_eq_none_iff.mpr (show x.key ∉ Block.keys b from hx)]
      rfl
    · rfl

/-- Leaving a block takes the first entry off the lists of its keys. -/
theorem live_tail (b : Block Name P) (bs : List (Block Name P)) (o : Block Name P)
    (k : Key Name) :
    (⟨bs, o⟩ : BlockTable Name P).live k =
      if k ∈ Block.keys b then ((⟨b :: bs, o⟩ : BlockTable Name P).live k).tail
      else (⟨b :: bs, o⟩ : BlockTable Name P).live k := by
  rw [live_cons]
  split
  · next h =>
    obtain ⟨s, hs⟩ := Block.entryAt_eq_some h (bs.length + 1)
    rw [hs]
    rfl
  · next h =>
    rw [Block.entryAt_eq_none_iff.mpr h]
    rfl

end BlockTable
end ShaderSymbols
