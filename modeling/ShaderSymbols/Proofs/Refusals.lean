import ShaderSymbols.Proofs.BlocksByDepth
import ShaderSymbols.Proofs.Lifetimes

/-!
# What is refused, and what that changes

A declaration is refused for one reason, that the scope it goes to declares its key
already, and a scope can be left unless it is the outermost one.  The table decides
this by a look at one end of one list, never at the scopes.  This file shows that it
decides rightly whatever else was declared and hidden, that a refusal changes
nothing, and that an accepted declaration is one key in one frame and one entry in
one list.

Both ways to declare are one: each goes to the block at some depth, and is refused
if that block declares the key.

## Main definitions

* `SymbolTable.Decided t f e o` — `o` is the right outcome of an attempt to make the
  entry `e` in the scope of the frame `f`.

## Main results

* `BlockTable.step_of_mem_blockAt`, `BlockTable.adds_step` — the two outcomes of a
  declaration, wherever it goes.
* `SymbolTable.refused_iff_declared` — **what is refused is what has to be, and
  nothing changes by it.**
-/

namespace ShaderSymbols

variable {P : Namespace → Type}

/-! ### The two outcomes of a declaration -/

/-- A declaration makes the entry of a binding, at no greater depth than the current
one. -/
theorem Action.exists_binding_of_made? {a : Action Name P} {depth : Nat} {e : Entry (Symbol P)}
    (h : a.made? depth = some e) : ∃ x : Binding Name P, e = x.entry e.depth ∧ e.depth ≤ depth := by
  cases a with
  | enter => cases h
  | leave => cases h
  | declare n s =>
    cases h
    exact ⟨⟨n, s⟩, rfl, Nat.le_refl _⟩
  | declareGlobal n s =>
    cases h
    exact ⟨⟨n, s⟩, rfl, Nat.zero_le _⟩

/-- There are two ways to declare a binding: in the current scope, and in the outermost
one. -/
theorem Action.eq_of_made? {a : Action Name P} {depth d : Nat} {x : Binding Name P}
    (h : a.made? depth = some (x.entry d)) :
    (a = .declare x.name x.symbol ∧ d = depth) ∨
      (a = .declareGlobal x.name x.symbol ∧ d = 0) := by
  cases a with
  | enter => cases h
  | leave => cases h
  | declare n s =>
    simp only [made?, Binding.entry, Option.some.injEq, Entry.mk.injEq] at h
    obtain ⟨hn, -, hs, hd⟩ := h
    exact .inl ⟨by rw [hn, hs], hd.symm⟩
  | declareGlobal n s =>
    simp only [made?, Binding.entry, Option.some.injEq, Entry.mk.injEq] at h
    obtain ⟨hn, -, hs, hd⟩ := h
    exact .inr ⟨by rw [hn, hs], hd.symm⟩

namespace BlockTable

variable {t : BlockTable Name P} {a : Action Name P} {x : Binding Name P} {d : Nat}

/-- A declaration is refused if the block it goes to declares its key. -/
theorem step_of_mem_blockAt (ha : a.made? t.depth = some (x.entry d))
    (hk : x.key ∈ Block.keys (t.blockAt d)) : t.step a = (.error (.redeclared x.key d), t) := by
  rcases Action.eq_of_made? ha with ⟨rfl, rfl⟩ | ⟨rfl, rfl⟩
  · rw [blockAt_depth] at hk
    exact step_declare_of_mem hk
  · rw [blockAt_zero] at hk
    exact step_declareGlobal_of_mem hk

/-- Otherwise it is accepted, and adds its binding to that block. -/
theorem adds_step (ha : a.made? t.depth = some (x.entry d))
    (hk : x.key ∉ Block.keys (t.blockAt d)) :
    (t.step a).1 = .ok () ∧ Adds t d x (t.step a).2 := by
  rcases Action.eq_of_made? ha with ⟨rfl, rfl⟩ | ⟨rfl, rfl⟩
  · rw [blockAt_depth] at hk
    rw [step_declare_of_notMem hk]
    exact ⟨rfl, t.adds_addCurrent x⟩
  · rw [blockAt_zero] at hk
    rw [step_declareGlobal_of_notMem hk]
    exact ⟨rfl, t.adds_addOutermost x⟩

/-- Accepted or refused, it opens and closes no block. -/
theorem depth_step_of_made (ha : a.made? t.depth = some (x.entry d)) :
    (t.step a).2.depth = t.depth := by
  by_cases hk : x.key ∈ Block.keys (t.blockAt d)
  · rw [step_of_mem_blockAt ha hk]
  · exact (adds_step ha hk).2.depth

end BlockTable

/-! ### The outcome of an attempt to declare -/

namespace SymbolTable

/-- `o` is the right outcome of an attempt to make the entry `e` in the scope of the
frame `f`. -/
structure Decided (t : SymbolTable P) (f : Frame Name) (e : Entry (Symbol P))
    (o : Outcome P (Answer Name)) : Prop where
  /-- The frame is the one at the depth of the entry. -/
  frame : t.scopes.frames[e.depth]? = some f
  /-- The attempt is refused exactly if the frame declares the key, and the error tells
  the key and the depth. -/
  answer_eq_error_iff : ∀ err, o.answer = .error err ↔
    e.key ∈ f.declared ∧ err = .redeclared e.key e.depth
  /-- A refusal changes nothing. -/
  table_of_error : ∀ err, o.answer = .error err → o.table = t
  /-- If the attempt is accepted, the frame holds one more key, and no other frame
  changes. -/
  frames_of_ok : o.answer = .ok () →
    o.table.scopes.frames = t.scopes.frames.modify e.depth (·.note e.key)
  /-- If it is accepted, the key has one more entry, which stands between the deeper
  ones and the others. -/
  entries_of_ok : o.answer = .ok () → ∃ deeper others,
    t.entries e.key = deeper ++ others ∧ o.table.entries e.key = deeper ++ e :: others ∧
      (∀ e' ∈ deeper, e.depth < e'.depth) ∧ ∀ e' ∈ others, e'.depth < e.depth
  /-- If it is accepted, no other key gains or loses an entry. -/
  entries_of_ne : o.answer = .ok () → ∀ k, k ≠ e.key → o.table.entries k = t.entries k

namespace Represents

variable {t : SymbolTable P} {b : BlockTable Name P}

/-- **A declaration has the right outcome**, wherever it goes. -/
theorem decided (h : Represents t b) {a : Action Name P} {e : Entry (Symbol P)}
    (ha : a.made? t.depth = some e) :
    Decided t (Block.frame (b.blockAt e.depth) e.depth) e (t.step a) := by
  obtain ⟨x, he, hd⟩ := Action.exists_binding_of_made? ha
  rw [h.depth] at ha hd
  generalize e.depth = d at he hd ⊢
  subst he
  obtain ⟨hanswer, hstep⟩ := h.step a
  have hframe : t.scopes.frames[d]? = some (Block.frame (b.blockAt d) d) := by
    rw [h.scopes, BlockTable.getElem?_frames_stack, if_pos hd]
  by_cases hk : x.key ∈ Block.keys (b.blockAt d)
  · rw [BlockTable.step_of_mem_blockAt ha hk] at hanswer
    have hnotOk : (t.step a).answer ≠ .ok () := by
      rw [hanswer]
      intro hok
      cases hok
    have hdeclared : x.key ∈ (Block.frame (b.blockAt d) d).declared := Frame.mem_declared.mpr hk
    refine ⟨hframe, fun err => ?_, fun _ => table_step_of_error, ?_, ?_, ?_⟩
    · rw [hanswer, Except.error.injEq, eq_comm]
      exact (and_iff_right hdeclared).symm
    · exact fun hok => absurd hok hnotOk
    · exact fun hok => absurd hok hnotOk
    · exact fun hok => absurd hok hnotOk
  · obtain ⟨hok, hadds⟩ := BlockTable.adds_step ha hk
    rw [hok] at hanswer
    have hnotError : ∀ err, (t.step a).answer ≠ .error err := by
      rw [hanswer]
      intro err herr
      cases herr
    refine ⟨hframe, fun err => ?_, fun _ => table_step_of_error, fun _ => ?_, fun _ => ?_,
      fun _ k hne => ?_⟩
    · exact iff_of_false (hnotError err) fun hmem => hk (Frame.mem_declared.mp hmem.1)
    · rw [h.scopes, hstep.scopes]
      exact hadds.frames_stack
    · rw [h.entries_eq, hstep.entries_eq]
      exact hadds.live_self hk
    · rw [h.entries_eq, hstep.entries_eq, hadds.live_of_ne hne]

end Represents

/-! ### What is refused -/

/-- A scope cannot be left exactly if it is the only one. -/
theorem answer_leave_eq_error_iff (t : SymbolTable P) (err : ScopeError Name) :
    t.leave.answer = .error err ↔ t.scopes.frames.length = 1 ∧ err = .underflow := by
  have hlength : t.scopes.frames.length = t.scopes.inner.length + 1 := by
    rw [ScopeStack.frames, List.length_cons, List.length_reverse]
  have hanswer : t.leave.answer = .error err ↔ t.scopes.leave = .error err := by
    unfold leave
    cases t.scopes.leave with
    | error e => simp
    | ok left => simp
  rw [hanswer, ScopeStack.leave_eq_error_iff, hlength, Nat.add_eq_right, List.length_eq_zero_iff]

/-- **What is refused is what has to be, and nothing changes by it.**

In whatever state a table is, a declaration is refused exactly if the frame it goes to
declares its key: the current frame, or the outermost one however deep the table
stands and whatever hides the key.  Leaving is refused exactly if the outermost frame
is the only one.  The error tells the key and the depth of the scope.  What is refused
leaves the table as it was, and what is accepted adds one key to one frame and one
entry to one list. -/
theorem refused_iff_declared {t : SymbolTable P} (ht : t.Reachable) :
    (∀ n s, Decided t t.scopes.current ⟨n, s.space, s, t.depth⟩ (t.declare n s)) ∧
    (∀ n s, Decided t t.scopes.outermost ⟨n, s.space, s, 0⟩ (t.declareGlobal n s)) ∧
    (∀ err, t.leave.answer = .error err ↔ t.scopes.frames.length = 1 ∧ err = .underflow) ∧
    ∀ err, t.leave.answer = .error err → t.leave.table = t := by
  obtain ⟨b, h⟩ := ht.exists_represents
  refine ⟨fun n s => ?_, fun n s => ?_, t.answer_leave_eq_error_iff, fun _ => table_leave_of_error⟩
  · have hcurrent : t.scopes.current = Block.frame (b.blockAt t.depth) t.depth := by
      rw [h.scopes, BlockTable.current_stack, h.depth, BlockTable.blockAt_depth]
    rw [hcurrent]
    exact h.decided (a := .declare n s) rfl
  · have houtermost : t.scopes.outermost = Block.frame (b.blockAt 0) 0 := by
      rw [h.scopes, BlockTable.blockAt_zero]
      rfl
    rw [houtermost]
    exact h.decided (a := .declareGlobal n s) rfl

/-- A table whose current scope and outermost scope declare the same variable. -/
def veiled : SymbolTable fun _ => Nat :=
  (new.run [.declare ⟨7⟩ ⟨.var, 1⟩, .enter, .declare ⟨7⟩ ⟨.var, 2⟩]).table

/-- The hidden variable is still declared in the outermost scope, and no type is. -/
theorem refused_iff_declared_veiled :
    (veiled.declareGlobal ⟨7⟩ ⟨.var, 3⟩).answer = .error (.redeclared ⟨.var, ⟨7⟩⟩ 0) ∧
    (veiled.declareGlobal ⟨7⟩ ⟨.var, 3⟩).table = veiled ∧
    (veiled.declareGlobal ⟨7⟩ ⟨.type, 3⟩).table.scopes.frames =
      [⟨0, [⟨.type, ⟨7⟩⟩, ⟨.var, ⟨7⟩⟩]⟩, ⟨1, [⟨.var, ⟨7⟩⟩]⟩] ∧
    (∀ err, veiled.leave.answer ≠ .error err) := by
  obtain ⟨-, hglobal, hleave, -⟩ := refused_iff_declared (t := veiled) ⟨_, rfl⟩
  have hrefused := ((hglobal ⟨7⟩ ⟨.var, 3⟩).answer_eq_error_iff _).mpr ⟨by decide, rfl⟩
  refine ⟨hrefused, (hglobal ⟨7⟩ ⟨.var, 3⟩).table_of_error _ hrefused, ?_, fun err herr => ?_⟩
  · exact (hglobal ⟨7⟩ ⟨.type, 3⟩).frames_of_ok rfl
  · exact absurd ((hleave err).mp herr).1 (by decide)

end SymbolTable
end ShaderSymbols
