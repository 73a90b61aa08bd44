import ShaderSymbols.Proofs.Calls

/-!
# A symbol table does not look at payloads

What a name is bound to is stored and handed back, and nothing else is done with it.
So if every payload is exchanged for another one of the same namespace, equal or not,
a symbol table answers every call as before, and holds the same entries with the
payloads exchanged.

## Main definitions

* `Symbol.map f`, `Action.rebind f`, `Call.rebind f`, `BlockTable.rebind f` — the same
  with every payload exchanged by `f`.
* `SymbolTable.Rebound f t t'` — the table `t'` is `t` with the payloads exchanged.

## Main results

* `BlockTable.step_rebind`, `BlockTable.live_rebind` — operations and entries commute
  with an exchange of payloads.
* `SymbolTable.Rebound.callAll` — **a table answers alike whatever the payloads are.**
-/

namespace ShaderSymbols

variable {ν : Type} {P Q : Namespace → Type}

/-! ### Symbols and operations -/

/-- The same symbol with another payload. -/
def Symbol.map (f : ∀ ns, P ns → Q ns) (s : Symbol P) : Symbol Q := ⟨s.space, f s.space s.payload⟩

/-- The same operation with another payload. -/
def Action.rebind (f : ∀ ns, P ns → Q ns) : Action ν P → Action ν Q
  | .enter => .enter
  | .leave => .leave
  | .declare n s => .declare n (s.map f)
  | .declareGlobal n s => .declareGlobal n (s.map f)

/-- The same call with another payload. -/
def Call.rebind (f : ∀ ns, P ns → Q ns) : Call ν P → Call ν Q
  | .act a => .act (a.rebind f)
  | .declareIfFree n s => .declareIfFree n (s.map f)
  | .declareGlobalIfFree n s => .declareGlobalIfFree n (s.map f)

theorem Call.action_rebind (f : ∀ ns, P ns → Q ns) (c : Call ν P) :
    (c.rebind f).action = c.action.rebind f := by
  cases c <;> rfl

/-- Exchanges that undo each other lead back to the call. -/
theorem Call.rebind_rebind {f : ∀ ns, P ns → Q ns} {g : ∀ ns, Q ns → P ns}
    (hgf : ∀ ns p, g ns (f ns p) = p) (c : Call ν P) : (c.rebind f).rebind g = c := by
  have hsymbol : ∀ s : Symbol P, (s.map f).map g = s := by
    rintro ⟨ns, p⟩
    simp only [Symbol.map, hgf]
  rcases c with a | ⟨n, s⟩ | ⟨n, s⟩
  · cases a <;> simp only [Call.rebind, Action.rebind, hsymbol]
  · rw [Call.rebind, Call.rebind, hsymbol]
  · rw [Call.rebind, Call.rebind, hsymbol]

/-! ### Blocks -/

/-- The same binding with another payload. -/
def Binding.rebind (f : ∀ ns, P ns → Q ns) (x : Binding ν P) : Binding ν Q :=
  ⟨x.name, x.symbol.map f⟩

theorem Binding.key_rebind (f : ∀ ns, P ns → Q ns) (x : Binding ν P) :
    (x.rebind f).key = x.key := rfl

namespace Block

/-- The same block with other payloads. -/
def rebind (f : ∀ ns, P ns → Q ns) (b : Block ν P) : Block ν Q := List.map (Binding.rebind f) b

theorem keys_rebind (f : ∀ ns, P ns → Q ns) (b : Block ν P) : keys (rebind f b) = keys b :=
  List.map_map

theorem find?_rebind [DecidableEq ν] (f : ∀ ns, P ns → Q ns) (b : Block ν P) (k : Key ν) :
    find? (rebind f b) k = (find? b k).map (Symbol.map f) := by
  induction b with
  | nil => rfl
  | cons x b ih =>
    show find? (x.rebind f :: rebind f b) k = _
    rw [find?_cons, find?_cons, Binding.key_rebind, ih]
    split <;> rfl

theorem entryAt_rebind (f : ∀ ns, P ns → Q ns) (b : Block Name P) (k : Key Name) (depth : Nat) :
    entryAt (rebind f b) k depth = (entryAt b k depth).map (Entry.map (Symbol.map f)) := by
  rw [entryAt, entryAt, find?_rebind]
  cases find? b k <;> rfl

end Block

/-! ### Nested blocks -/

namespace BlockTable

/-- The same blocks with other payloads. -/
def rebind (f : ∀ ns, P ns → Q ns) (t : BlockTable ν P) : BlockTable ν Q :=
  ⟨t.inner.map (Block.rebind f), Block.rebind f t.outermost⟩

@[simp] theorem depth_rebind (f : ∀ ns, P ns → Q ns) (t : BlockTable ν P) :
    (t.rebind f).depth = t.depth :=
  List.length_map _

theorem keys_current_rebind (f : ∀ ns, P ns → Q ns) (t : BlockTable ν P) :
    Block.keys (t.rebind f).current = Block.keys t.current := by
  obtain ⟨inner, outermost⟩ := t
  cases inner <;> exact Block.keys_rebind f _

theorem keys_outermost_rebind (f : ∀ ns, P ns → Q ns) (t : BlockTable ν P) :
    Block.keys (t.rebind f).outermost = Block.keys t.outermost :=
  Block.keys_rebind f _

theorem addOutermost_rebind (f : ∀ ns, P ns → Q ns) (t : BlockTable ν P) (x : Binding ν P) :
    (t.rebind f).addOutermost (x.rebind f) = (t.addOutermost x).rebind f := rfl

theorem addCurrent_rebind (f : ∀ ns, P ns → Q ns) (t : BlockTable ν P) (x : Binding ν P) :
    (t.rebind f).addCurrent (x.rebind f) = (t.addCurrent x).rebind f := by
  obtain ⟨inner, outermost⟩ := t
  cases inner <;> rfl

/-- The entries of a key are the same, with other payloads. -/
theorem live_rebind (f : ∀ ns, P ns → Q ns) (t : BlockTable Name P) (k : Key Name) :
    (t.rebind f).live k = (t.live k).map (Entry.map (Symbol.map f)) := by
  obtain ⟨inner, outermost⟩ := t
  induction inner with
  | nil => simp only [rebind, List.map_nil, live_nil, Block.entryAt_rebind, Option.toList_map]
  | cons b bs ih =>
    simp only [rebind, List.map_cons, live_cons, List.length_map, Block.entryAt_rebind,
      Option.toList_map, List.map_append] at ih ⊢
    rw [ih]

variable [DecidableEq ν]

/-- **Operations commute with an exchange of payloads.** -/
theorem step_rebind (f : ∀ ns, P ns → Q ns) (t : BlockTable ν P) (a : Action ν P) :
    (t.rebind f).step (a.rebind f) = ((t.step a).1, (t.step a).2.rebind f) := by
  cases a with
  | enter => rfl
  | leave =>
    obtain ⟨inner, outermost⟩ := t
    cases inner <;> rfl
  | declare n s =>
    have hkeys := t.keys_current_rebind f
    rw [Action.rebind]
    by_cases hk : ⟨s.space, n⟩ ∈ Block.keys t.current
    · have hk' : ⟨(s.map f).space, n⟩ ∈ Block.keys (t.rebind f).current := hkeys ▸ hk
      rw [step_declare_of_mem hk, step_declare_of_mem hk', depth_rebind]
      rfl
    · have hk' : ⟨(s.map f).space, n⟩ ∉ Block.keys (t.rebind f).current := hkeys ▸ hk
      rw [step_declare_of_notMem hk, step_declare_of_notMem hk', ← addCurrent_rebind]
      rfl
  | declareGlobal n s =>
    have hkeys := t.keys_outermost_rebind f
    rw [Action.rebind]
    by_cases hk : ⟨s.space, n⟩ ∈ Block.keys t.outermost
    · have hk' : ⟨(s.map f).space, n⟩ ∈ Block.keys (t.rebind f).outermost := hkeys ▸ hk
      rw [step_declareGlobal_of_mem hk, step_declareGlobal_of_mem hk']
      rfl
    · have hk' : ⟨(s.map f).space, n⟩ ∉ Block.keys (t.rebind f).outermost := hkeys ▸ hk
      rw [step_declareGlobal_of_notMem hk, step_declareGlobal_of_notMem hk',
        ← addOutermost_rebind]
      rfl

theorem call_rebind (f : ∀ ns, P ns → Q ns) (t : BlockTable ν P) (c : Call ν P) :
    (t.rebind f).call (c.rebind f) = ((t.call c).1, (t.call c).2.rebind f) := by
  cases c with
  | act a => rw [Call.rebind, call, step_rebind, call]
  | declareIfFree n s =>
    have hstep := t.step_rebind f (.declare n s)
    rw [Action.rebind] at hstep
    rw [Call.rebind, call, hstep, call]
  | declareGlobalIfFree n s =>
    have hstep := t.step_rebind f (.declareGlobal n s)
    rw [Action.rebind] at hstep
    rw [Call.rebind, call, hstep, call]

end BlockTable

/-! ### Tables -/

namespace SymbolTable

/-- The table `t'` is the table `t` with every payload exchanged by `f`. -/
def Rebound (f : ∀ ns, P ns → Q ns) (t : SymbolTable P) (t' : SymbolTable Q) : Prop :=
  ∃ b, Represents t b ∧ Represents t' (b.rebind f)

namespace Rebound

variable {f : ∀ ns, P ns → Q ns} {t : SymbolTable P} {t' : SymbolTable Q}

theorem new (f : ∀ ns, P ns → Q ns) : Rebound f (new : SymbolTable P) (new : SymbolTable Q) :=
  ⟨.new, represents_new, represents_new⟩

theorem depth (h : Rebound f t t') : t'.depth = t.depth := by
  obtain ⟨b, hb, hb'⟩ := h
  rw [hb.depth, hb'.depth, BlockTable.depth_rebind]

/-- The entries are the same, with other payloads. -/
theorem shadows (h : Rebound f t t') (ns : Namespace) (n : Name) :
    t'.shadows ns n = (t.shadows ns n).map (Entry.map (f ns)) := by
  obtain ⟨b, hb, hb'⟩ := h
  have htagged : (t'.shadows ns n).map (Entry.map (Symbol.mk ns)) =
      ((t.shadows ns n).map (Entry.map (f ns))).map (Entry.map (Symbol.mk ns)) := by
    rw [hb'.live ⟨ns, n⟩, BlockTable.live_rebind, ← hb.live ⟨ns, n⟩, List.map_map, List.map_map]
    rfl
  exact (List.map_inj_right (Entry.map_mk_inj ns)).mp htagged

/-- A call is answered alike. -/
theorem call (h : Rebound f t t') (c : Call Name P) :
    (t'.call (c.rebind f)).answer = (t.call c).answer ∧
      Rebound f (t.call c).table (t'.call (c.rebind f)).table := by
  obtain ⟨b, hb, hb'⟩ := h
  obtain ⟨hanswer, hcall⟩ := hb.call c
  obtain ⟨hanswer', hcall'⟩ := hb'.call (c.rebind f)
  rw [BlockTable.call_rebind] at hanswer' hcall'
  exact ⟨hanswer'.trans hanswer.symm, _, hcall, hcall'⟩

/-- **A table answers alike whatever the payloads are.** -/
theorem callAll : ∀ (cs : List (Call Name P)) {t : SymbolTable P} {t' : SymbolTable Q},
    Rebound f t t' →
    (t'.callAll (cs.map (Call.rebind f))).1 = (t.callAll cs).1 ∧
      Rebound f (t.callAll cs).2 (t'.callAll (cs.map (Call.rebind f))).2 := by
  intro cs
  induction cs with
  | nil => intro t t' h; exact ⟨rfl, h⟩
  | cons c cs ih =>
    intro t t' h
    obtain ⟨hanswer, hcall⟩ := h.call c
    obtain ⟨hanswers, hall⟩ := ih hcall
    rw [List.map_cons, callAll_cons, callAll_cons, hanswer, hanswers]
    exact ⟨rfl, hall⟩

end Rebound
end SymbolTable
end ShaderSymbols
