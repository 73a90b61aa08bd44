import Mathlib.Logic.Function.Basic
import ShaderSymbols.Proofs.Interning
import ShaderSymbols.Proofs.Renaming
import ShaderSymbols.Proofs.Representation
import ShaderSymbols.Workspace

/-!
# Units that share an interner do not notice each other

The names that a unit gets depend on what all the other units intern, and on when
they do it.  But a unit speaks in spellings and hears spellings, and a name is only
a stand-in for a spelling.  So what a unit hears is what it would hear from a table
of its own that knows no names at all.

## Main definitions

* `Interner.Held` — a name that an interner has handed out, with its spelling.
* `SymbolTable.Spells` — read through an interner, a table represents nested blocks
  of spellings.
* `Workspace.heard` — what a unit hears in a run.
* `Workspace.Mirrors` — every unit's table spells the blocks kept for that unit.

## Main results

* `Workspace.Mirrors.request` — a request is answered as the unit's own blocks
  answer it, and the other units are left as they were.
* `Workspace.heard_eq_blocks` — **every unit hears what nested blocks of spellings
  reply to its own requests.**
-/

namespace ShaderSymbols

variable {P : Namespace → Type}

/-! ### Names that have been handed out -/

/-- A name that an interner has handed out, with its spelling. -/
structure Interner.Held (t : Interner) where
  name : Name
  spelling : String
  /-- They belong together. -/
  spelling_name : t.spelling name = .ok spelling

namespace Interner.Held

variable {t t' : Interner}

theorem name_injective : Function.Injective (name : t.Held → Name) := by
  rintro ⟨n, s, h⟩ ⟨n', s', h'⟩ hn
  obtain rfl : n = n' := hn
  obtain rfl := Except.ok.inj (h.symm.trans h')
  rfl

theorem spelling_injective (hc : t.Consistent) :
    Function.Injective (spelling : t.Held → String) := by
  rintro ⟨n, s, h⟩ ⟨n', s', h'⟩ hs
  obtain rfl : s = s' := hs
  obtain rfl := hc.spelling_inj h h'
  rfl

instance : DecidableEq t.Held := fun x y =>
  decidable_of_iff (x.name = y.name) name_injective.eq_iff

/-- What is held stays held. -/
def lift (h : t.Extends t') (x : t.Held) : t'.Held :=
  ⟨x.name, x.spelling, h.spelling x.spelling_name⟩

end Interner.Held

namespace Interner

/-- An answer over names that are held can be spelled. -/
theorem spellAnswer_mapError (t : Interner) (x : Answer t.Held) :
    t.spellAnswer (x.mapError (ScopeError.map Held.name)) =
      .ok (x.mapError (ScopeError.map Held.spelling)) := by
  rcases x with (⟨k, depth⟩ | _) | _
  · show (t.spelling k.name.name).map _ = _
    rw [k.name.spelling_name]
    rfl
  · rfl
  · rfl

/-- Whatever is made of a name that was interned, the interner has only grown. -/
theorem extends_of_map_intern {α : Type} {t t' : Interner} {s : String} {f : Name → α} {x : α}
    (h : (t.intern s).map (fun p => (f p.1, p.2)) = .ok (x, t')) : t.Extends t' := by
  cases hintern : t.intern s with
  | error e =>
    rw [hintern] at h
    cases h
  | ok p =>
    rw [hintern] at h
    cases h
    exact extends_intern hintern

theorem extends_internAction {t t' : Interner} {a : Action String P} {a' : Action Name P}
    (h : t.internAction a = .ok (a', t')) : t.Extends t' := by
  cases a with
  | enter =>
    cases h
    exact .refl t
  | leave =>
    cases h
    exact .refl t
  | declare s x => exact extends_of_map_intern (s := s) (f := fun n => Action.declare n x) h
  | declareGlobal s x =>
    exact extends_of_map_intern (s := s) (f := fun n => Action.declareGlobal n x) h

/-- While there is room, the name of an operation can be interned. -/
theorem exists_internAction {t : Interner} (hc : t.Consistent) (hroom : t.Roomy)
    (a : Action String P) :
    ∃ (t' : Interner) (a' : Action t'.Held P), t.internAction a = .ok (a'.map Held.name, t') ∧
      a'.map Held.spelling = a ∧ t'.Consistent ∧ t.Extends t' := by
  cases a with
  | enter => exact ⟨t, .enter, rfl, rfl, hc, .refl t⟩
  | leave => exact ⟨t, .leave, rfl, rfl, hc, .refl t⟩
  | declare s x =>
    obtain ⟨n, t', hintern, rfl, hspelling⟩ := hc.exists_intern hroom s
    refine ⟨_, .declare ⟨n, s, hspelling⟩ x, ?_, rfl, hc.tryIntern s, t.extends_tryIntern s⟩
    rw [internAction, hintern]
    rfl
  | declareGlobal s x =>
    obtain ⟨n, t', hintern, rfl, hspelling⟩ := hc.exists_intern hroom s
    refine ⟨_, .declareGlobal ⟨n, s, hspelling⟩ x, ?_, rfl, hc.tryIntern s,
      t.extends_tryIntern s⟩
    rw [internAction, hintern]
    rfl

end Interner

/-! ### Reading a table through an interner -/

namespace SymbolTable

open Interner (Held)

/-- Read through an interner, a table represents nested blocks of spellings. -/
def Spells (names : Interner) (t : SymbolTable P) (b : BlockTable String P) : Prop :=
  ∃ c : BlockTable names.Held P, Represents t (c.map Held.name) ∧ c.map Held.spelling = b

theorem spells_new (names : Interner) : (new : SymbolTable P).Spells names .new := by
  refine ⟨.new, ?_, BlockTable.map_new _⟩
  rw [BlockTable.map_new]
  exact represents_new

namespace Spells

variable {names names' : Interner} {t : SymbolTable P} {b : BlockTable String P}

/-- A table spells the same when the interner has grown. -/
theorem mono (h : t.Spells names b) (hext : names.Extends names') : t.Spells names' b := by
  obtain ⟨c, hrep, rfl⟩ := h
  refine ⟨c.map (Held.lift hext), ?_, ?_⟩
  · rw [BlockTable.map_map]
    exact hrep
  · rw [BlockTable.map_map]
    rfl

/-- An operation on names is answered, once spelled, as the same operation on
spellings. -/
theorem step (h : t.Spells names b) (hc : names.Consistent) (a : Action names.Held P) :
    names.spellAnswer (t.step (a.map Held.name)).answer = .ok (b.step (a.map Held.spelling)).1 ∧
      (t.step (a.map Held.name)).table.Spells names (b.step (a.map Held.spelling)).2 := by
  obtain ⟨c, hrep, rfl⟩ := h
  obtain ⟨hanswer, hstep⟩ := hrep.step (a.map Held.name)
  rw [BlockTable.step_map Held.name_injective] at hanswer hstep
  rw [BlockTable.step_map (Held.spelling_injective hc), hanswer, names.spellAnswer_mapError]
  exact ⟨rfl, _, hstep, rfl⟩

/-- A name resolves as its spelling does. -/
theorem lookup (h : t.Spells names b) (hc : names.Consistent) {n : Name} {s : String}
    (hn : names.spelling n = .ok s) (ns : Namespace) :
    (t.lookup ns n).map (fun e => (e.depth, e.payload)) = b.find? ⟨ns, s⟩ := by
  obtain ⟨c, hrep, rfl⟩ := h
  let k : Key names.Held := ⟨ns, ⟨n, s, hn⟩⟩
  have hname : (c.map Held.name).find? ⟨ns, n⟩ = c.find? k :=
    BlockTable.find?_map Held.name_injective c k
  have hspelling : (c.map Held.spelling).find? ⟨ns, s⟩ = c.find? k :=
    BlockTable.find?_map (Held.spelling_injective hc) c k
  rw [hspelling, ← hname, BlockTable.find?_eq_head?_live, ← hrep.live ⟨ns, n⟩, List.head?_map]
  rfl

theorem depth (h : t.Spells names b) : t.depth = b.depth := by
  obtain ⟨c, hrep, rfl⟩ := h
  rw [hrep.depth, BlockTable.depth_map, BlockTable.depth_map]

theorem size (h : t.Spells names b) : t.size = b.size := by
  obtain ⟨c, hrep, rfl⟩ := h
  rw [hrep.size, BlockTable.size_map, BlockTable.size_map]

end Spells
end SymbolTable

/-! ### What one unit asks and hears -/

namespace WorkspaceRequest

variable (rs : List (WorkspaceRequest P))

@[simp] theorem ofUnit_unit_self (i : Nat) (r : UnitRequest P) :
    ofUnit i (.unit i r :: rs) = r :: ofUnit i rs := by
  simp [ofUnit]

theorem ofUnit_unit_of_ne {i j : Nat} (hj : j ≠ i) (r : UnitRequest P) :
    ofUnit i (.unit j r :: rs) = ofUnit i rs := by
  simp [ofUnit, hj]

@[simp] theorem ofUnit_other (i : Nat) (r : InternRequest) :
    ofUnit i (.other r :: rs) = ofUnit i rs := by
  simp [ofUnit]

end WorkspaceRequest

namespace Workspace

/-- What a unit hears in a run. -/
def heard (w : Workspace P) (rs : List (WorkspaceRequest P)) (i : Nat) :
    List (Except UnitFailure (UnitReply P)) :=
  (w.run rs).1.filterMap fun (j, reply) => if j = i then some reply else none

section Heard

variable (w : Workspace P) (rs : List (WorkspaceRequest P))

@[simp] theorem heard_unit_self (i : Nat) (r : UnitRequest P) :
    w.heard (.unit i r :: rs) i = (w.request i r).1 :: (w.request i r).2.heard rs i := by
  simp [heard, run]

theorem heard_unit_of_ne {i j : Nat} (hj : j ≠ i) (r : UnitRequest P) :
    w.heard (.unit j r :: rs) i = (w.request j r).2.heard rs i := by
  simp [heard, run, hj]

@[simp] theorem heard_other (i : Nat) (r : InternRequest) :
    w.heard (.other r :: rs) i = (w.intern r).heard rs i := rfl

end Heard

/-! ### Workspaces -/

theorem unit_insert (names : Interner) (w : Workspace P) (i : Nat) (t : SymbolTable P) (j : Nat) :
    (⟨names, w.units.insert i t⟩ : Workspace P).unit j = if j = i then t else w.unit j := by
  rw [unit, Std.ExtTreeMap.getD_insert]
  by_cases hj : j = i
  · subst hj
    simp
  · simp [hj, Ne.symm hj, unit]

/-- A request of a unit lets the interner grow. -/
theorem extends_request (w : Workspace P) (i : Nat) (r : UnitRequest P) :
    w.names.Extends (w.request i r).2.names := by
  cases r with
  | act a =>
    rw [request]
    cases hintern : w.names.internAction a with
    | error e => exact .refl w.names
    | ok p => exact Interner.extends_internAction hintern
  | find k =>
    rw [request]
    cases hintern : w.names.intern k.name with
    | error e => exact .refl w.names
    | ok p => exact Interner.extends_intern hintern
  | depth => exact .refl w.names
  | size => exact .refl w.names

/-- A run lets the interner grow. -/
theorem extends_run (w : Workspace P) (rs : List (WorkspaceRequest P)) :
    w.names.Extends (w.run rs).2.names := by
  induction rs generalizing w with
  | nil => exact .refl w.names
  | cons r rs ih =>
    cases r with
    | unit i r => exact (w.extends_request i r).trans (ih (w.request i r).2)
    | other r => exact (w.names.extends_perform r).trans (ih (w.intern r))

/-- Every unit's table, read through the interner, represents the blocks kept for
that unit. -/
structure Mirrors (w : Workspace P) (bs : Nat → BlockTable String P) : Prop where
  consistent : w.names.Consistent
  spells : ∀ i, (w.unit i).Spells w.names (bs i)

theorem names_new : (new : Workspace P).names = .new := by rw [new]

theorem mirrors_new : (new : Workspace P).Mirrors fun _ => .new := by
  refine ⟨?_, ?_⟩
  · rw [names_new]
    exact Interner.consistent_new
  · intro i
    rw [unit_new]
    exact SymbolTable.spells_new _

namespace Mirrors

variable {w : Workspace P} {bs : Nat → BlockTable String P}

theorem intern (h : w.Mirrors bs) (r : InternRequest) : (w.intern r).Mirrors bs where
  consistent := h.consistent.perform r
  spells := fun i => (h.spells i).mono (w.names.extends_perform r)

/-- **A request is answered as the unit's own blocks answer it**, and the other
units are left as they were. -/
theorem request (h : w.Mirrors bs) (hroom : w.names.Roomy) (i : Nat) (r : UnitRequest P) :
    (w.request i r).1 = .ok ((bs i).request r).1 ∧
      (w.request i r).2.Mirrors (Function.update bs i ((bs i).request r).2) := by
  cases r with
  | act a =>
    -- interning may have let the interner grow, and every table spells the same after it
    obtain ⟨names, a', hintern, rfl, hc, hext⟩ :=
      Interner.exists_internAction h.consistent hroom a
    obtain ⟨hanswer, hstep⟩ := ((h.spells i).mono hext).step hc a'
    rw [Workspace.request, hintern]
    refine ⟨?_, hc, fun j => ?_⟩
    · dsimp only
      rw [hanswer]
      rfl
    · rw [unit_insert]
      by_cases hj : j = i
      · subst hj
        rw [if_pos rfl, Function.update_self]
        exact hstep
      · rw [if_neg hj, Function.update_of_ne hj]
        exact (h.spells j).mono hext
  | find k =>
    obtain ⟨n, names, hintern, rfl, hspelling⟩ := h.consistent.exists_intern hroom k.name
    have hext := w.names.extends_tryIntern k.name
    have hc := h.consistent.tryIntern k.name
    rw [Workspace.request, hintern]
    refine ⟨?_, hc, fun j => ?_⟩
    · show Except.ok (UnitReply.found _) = .ok (.found _)
      rw [((h.spells i).mono hext).lookup hc hspelling k.space]
    · rw [BlockTable.request, Function.update_eq_self]
      exact (h.spells j).mono hext
  | depth =>
    rw [Workspace.request, BlockTable.request, (h.spells i).depth, Function.update_eq_self]
    exact ⟨rfl, h⟩
  | size =>
    rw [Workspace.request, BlockTable.request, (h.spells i).size, Function.update_eq_self]
    exact ⟨rfl, h⟩

/-- In a run every unit hears what its own blocks reply. -/
theorem heard_eq (h : w.Mirrors bs) (rs : List (WorkspaceRequest P))
    (hroom : (w.run rs).2.names.Roomy) (i : Nat) :
    w.heard rs i = ((bs i).replies (WorkspaceRequest.ofUnit i rs)).map .ok := by
  induction rs generalizing w bs with
  | nil => rfl
  | cons r rs ih =>
    -- an interner that has room at the end has had room all along
    have hnow : w.names.Roomy := (w.extends_run (r :: rs)).roomy hroom
    cases r with
    | unit j r =>
      -- a request of another unit changes neither what is heard nor the blocks of `i`
      obtain ⟨hreply, hnext⟩ := h.request hnow j r
      have hrest := ih hnext hroom
      by_cases hj : j = i
      · subst hj
        rw [heard_unit_self, WorkspaceRequest.ofUnit_unit_self, hreply, hrest,
          Function.update_self]
        rfl
      · rw [heard_unit_of_ne _ _ hj, WorkspaceRequest.ofUnit_unit_of_ne _ hj, hrest,
          Function.update_of_ne (Ne.symm hj)]
    | other r =>
      rw [heard_other, WorkspaceRequest.ofUnit_other]
      exact ih (h.intern r) hroom

end Mirrors

/-- **Every unit hears what nested blocks of spellings reply to its own requests**,
whatever the other units ask and whatever else is interned, as long as the interner
has room. -/
theorem heard_eq_blocks (rs : List (WorkspaceRequest P))
    (hroom : ((new : Workspace P).run rs).2.names.Roomy) (i : Nat) :
    (new : Workspace P).heard rs i =
      ((BlockTable.new : BlockTable String P).replies (WorkspaceRequest.ofUnit i rs)).map .ok := by
  have hmirrors : (new : Workspace P).Mirrors fun _ => .new := mirrors_new
  exact hmirrors.heard_eq rs hroom i

/-- Two units that both use `x`, with other interning before and in between. -/
def interleaving : List (WorkspaceRequest fun _ => Nat) :=
  [.other (.intern "y"), .unit 0 (.act (.declare "x" ⟨.var, 1⟩)), .unit 1 (.act .enter),
    .unit 1 (.act (.declare "y" ⟨.var, 2⟩)), .other (.tryIntern "z"),
    .unit 0 (.act (.declare "x" ⟨.var, 3⟩)), .unit 1 (.find ⟨.var, "x"⟩),
    .unit 1 (.act (.declareGlobal "x" ⟨.var, 4⟩)), .unit 0 (.find ⟨.var, "x"⟩),
    .unit 1 (.find ⟨.var, "x"⟩), .unit 1 .depth, .unit 1 .size]

theorem heard_eq_blocks_interleaving :
    (new.run interleaving).2.names.Roomy ∧
    new.heard interleaving 0 =
      [.ok (.answer (.ok ())), .ok (.answer (.error (.redeclared ⟨.var, "x"⟩ 0))),
        .ok (.found (some (0, ⟨.var, 1⟩)))] ∧
    new.heard interleaving 1 =
      [.ok (.answer (.ok ())), .ok (.answer (.ok ())), .ok (.found none), .ok (.answer (.ok ())),
        .ok (.found (some (0, ⟨.var, 4⟩))), .ok (.number 1), .ok (.number 2)] := by
  have hroom : (new.run interleaving).2.names.Roomy := by
    rw [Interner.Roomy]
    decide +kernel
  refine ⟨hroom, ?_, ?_⟩
  · rw [heard_eq_blocks interleaving hroom 0]
    rfl
  · rw [heard_eq_blocks interleaving hroom 1]
    rfl

end Workspace
end ShaderSymbols
