import Std.Data.ExtTreeMap
import ShaderSymbols.BlockTable
import ShaderSymbols.Interner.Request
import ShaderSymbols.SymbolTable.Run

/-!
# Compilation units that share an interner

Several compilation units may be open at once.  Each has a symbol table of its
own, and all of them intern through one interner.  A unit speaks in spellings and
hears spellings back, so it cannot see what the other units interned.

## Main definitions

* `Workspace P` — the interner and the table of every unit.
* `UnitRequest`, `UnitReply` — what a unit asks for and hears back, in spellings.
* `WorkspaceRequest` — a request of one of the units, or interning by anyone else.
* `Workspace.request`, `Workspace.run` — serve one request, or an interleaving.
* `BlockTable.request`, `BlockTable.replies` — the same requests to a table of
  nested blocks that is keyed by the spellings themselves.
-/

namespace ShaderSymbols

variable {P : Namespace → Type}

/-! ### Requests and replies -/

/-- What a unit may ask for. -/
inductive UnitRequest (P : Namespace → Type) where
  /-- An operation on the unit's table. -/
  | act (action : Action String P)
  /-- What a key resolves to. -/
  | find (key : Key String)
  /-- The depth of the current scope. -/
  | depth
  /-- The number of live declarations. -/
  | size

/-- What a unit hears back. -/
inductive UnitReply (P : Namespace → Type) where
  /-- Whether an operation was accepted, and why not. -/
  | answer (a : Answer String)
  /-- The depth and the symbol that a key resolves to. -/
  | found (r : Option (Nat × Symbol P))
  /-- A depth or a size. -/
  | number (n : Nat)

/-- What may happen in a workspace. -/
inductive WorkspaceRequest (P : Namespace → Type) where
  /-- A unit asks for something. -/
  | unit (i : Nat) (request : UnitRequest P)
  /-- Someone else uses the interner. -/
  | other (request : InternRequest)

/-- The requests of one unit, in order. -/
def WorkspaceRequest.ofUnit (i : Nat) (rs : List (WorkspaceRequest P)) : List (UnitRequest P) :=
  rs.filterMap fun
    | .unit j r => if j = i then some r else none
    | .other _ => none

/-- Why a request could not be served. -/
inductive UnitFailure where
  /-- A spelling could not be interned. -/
  | interning (e : InternError)
  /-- A name has no spelling. -/
  | spelling (e : OutOfBounds)
  deriving DecidableEq, Repr

/-! ### Spelling names -/

namespace Interner

/-- Interns the name of an operation. -/
def internAction (t : Interner) : Action String P → Except InternError (Action Name P × Interner)
  | .enter => .ok (.enter, t)
  | .leave => .ok (.leave, t)
  | .declare s symbol => (t.intern s).map fun (n, t') => (.declare n symbol, t')
  | .declareGlobal s symbol => (t.intern s).map fun (n, t') => (.declareGlobal n symbol, t')

/-- Spells the name in an answer. -/
def spellAnswer (t : Interner) : Answer Name → Except OutOfBounds (Answer String)
  | .ok () => .ok (.ok ())
  | .error .underflow => .ok (.error .underflow)
  | .error (.redeclared k depth) =>
    (t.spelling k.name).map fun s => .error (.redeclared ⟨k.space, s⟩ depth)

end Interner

/-! ### Workspaces -/

/-- An interner and the tables of the units that use it. -/
structure Workspace (P : Namespace → Type) where
  /-- The shared interner. -/
  names : Interner
  /-- The tables of the units that have done something. -/
  units : Std.ExtTreeMap Nat (SymbolTable P)

namespace Workspace

/-- A new interner, and nothing done by any unit. -/
def new : Workspace P := ⟨.new, ∅⟩

/-- The table of a unit. -/
def unit (w : Workspace P) (i : Nat) : SymbolTable P := w.units.getD i .new

/-- Serves a request of a unit. -/
def request (w : Workspace P) (i : Nat) :
    UnitRequest P → Except UnitFailure (UnitReply P) × Workspace P
  | .act a =>
    match w.names.internAction a with
    | .error e => (.error (.interning e), w)
    | .ok (a, names) =>
      let o := (w.unit i).step a
      let reply := match names.spellAnswer o.answer with
        | .error e => .error (.spelling e)
        | .ok answer => .ok (.answer answer)
      (reply, ⟨names, w.units.insert i o.table⟩)
  | .find k =>
    match w.names.intern k.name with
    | .error e => (.error (.interning e), w)
    | .ok (n, names) =>
      let found := (w.unit i).lookup k.space n
      (.ok (.found (found.map fun e => (e.depth, e.payload))), ⟨names, w.units⟩)
  | .depth => (.ok (.number (w.unit i).depth), w)
  | .size => (.ok (.number (w.unit i).size), w)

/-- Interning by anyone else. -/
def intern (w : Workspace P) (r : InternRequest) : Workspace P :=
  { w with names := w.names.perform r }

/-- Serves requests in order, and tells for each reply which unit it goes to. -/
def run (w : Workspace P) :
    List (WorkspaceRequest P) → List (Nat × Except UnitFailure (UnitReply P)) × Workspace P
  | [] => ([], w)
  | .unit i r :: rs =>
    let (reply, w') := w.request i r
    let (replies, w'') := w'.run rs
    ((i, reply) :: replies, w'')
  | .other r :: rs => (w.intern r).run rs

@[simp] theorem unit_new (i : Nat) : (new : Workspace P).unit i = .new := by simp [unit, new]

end Workspace

/-! ### The same requests without an interner -/

namespace BlockTable

/-- Serves a request from nested blocks keyed by spelling. -/
def request (t : BlockTable String P) : UnitRequest P → UnitReply P × BlockTable String P
  | .act a =>
    let (answer, t') := t.step a
    (.answer answer, t')
  | .find k => (.found (t.find? k), t)
  | .depth => (.number t.depth, t)
  | .size => (.number t.size, t)

/-- The replies to requests in order. -/
def replies (t : BlockTable String P) : List (UnitRequest P) → List (UnitReply P)
  | [] => []
  | r :: rs =>
    let (reply, t') := t.request r
    reply :: t'.replies rs

end BlockTable
end ShaderSymbols
