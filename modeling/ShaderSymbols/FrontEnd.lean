import ShaderSymbols.Declaration.Arena
import ShaderSymbols.SymbolTable.Run

/-!
# The front end of a compilation unit

A front end declares a spelling in three steps that belong together: it interns
the spelling, adds the declaration under that name to the unit's declarations,
and binds the name to the handle it got.

## Main definitions

* `FrontEnd` — the interner, the declarations and the symbol table of a unit.
* `FrontEnd.onto` — a front end that has declared nothing, over a given interner.
* `FrontEnd.declare` — declares a spelling, locally or globally.
* `FrontEndRequest`, `FrontEnd.performAll` — what a front end may do, as data, and
  the front end after it.
* `FrontEndReply`, `FrontEnd.reply` — what a request is answered with.
-/

namespace ShaderSymbols

/-- What a front end needs to declare and resolve names. -/
structure FrontEnd where
  /-- The interner. -/
  names : Interner
  /-- The declarations. -/
  decls : Declarations
  /-- The bindings of names to handles. -/
  table : SymbolTable DeclId

/-- Why a front end could not go on. -/
inductive FrontEndFailure where
  /-- A spelling could not be interned. -/
  | interning (e : InternError)
  /-- There are too many declarations of a kind. -/
  | allocating (e : ArenaFull)
  /-- A handle refers to nothing. -/
  | reading (e : OutOfBounds)
  deriving DecidableEq, Repr

/-- Where a declaration goes. -/
inductive Target where
  /-- To the current scope. -/
  | current
  /-- To the outermost scope. -/
  | outermost
  deriving DecidableEq, Repr

/-- What a front end may do. -/
inductive FrontEndRequest where
  /-- Intern a spelling. -/
  | intern (s : String)
  /-- Enter a scope. -/
  | enter
  /-- Leave the current scope. -/
  | leave
  /-- Add an overload to a declared function. -/
  | addOverload (id : DeclId .func) (sig : Signature)
  /-- Declare a spelling. -/
  | declare (target : Target) (s : String) (space : Namespace) (d : Decl space)

/-- What a request is answered with. -/
inductive FrontEndReply where
  /-- The name of the spelling, or why there is none. -/
  | named (r : Except FrontEndFailure Name)
  /-- Whether the scope was entered or left. -/
  | moved (r : Answer Name)
  /-- Whether the overload was added, or why there is no telling. -/
  | added (r : Except FrontEndFailure Bool)
  /-- The new handle, and whether its name was bound to it. -/
  | declared (space : Namespace) (r : Except FrontEndFailure (DeclId space × Answer Name))

/-- The operation that binds a name where a declaration goes. -/
def Target.action {P : Namespace → Type} (n : Name) (s : Symbol P) : Target → Action Name P
  | .current => .declare n s
  | .outermost => .declareGlobal n s

namespace FrontEnd

/-- A front end that has seen nothing. -/
def new : FrontEnd := ⟨.new, .empty, .new⟩

/-- A front end that has declared nothing, over an interner that may be in use. -/
def onto (names : Interner) : FrontEnd := ⟨names, .empty, .new⟩

/-- Interns a spelling. -/
def intern (f : FrontEnd) (s : String) : Except FrontEndFailure (Name × FrontEnd) :=
  match f.names.intern s with
  | .ok (n, names) => .ok (n, { f with names })
  | .error e => .error (.interning e)

/-- Adds a declaration and hands out its handle. -/
def alloc (f : FrontEnd) (ns : Namespace) (d : Decl ns) :
    Except FrontEndFailure (DeclId ns × FrontEnd) :=
  match f.decls.alloc ns d with
  | .ok (id, decls) => .ok (id, { f with decls })
  | .error e => .error (.allocating e)

/-- Binds a name to a handle. -/
def bind (f : FrontEnd) (target : Target) (n : Name) (s : Symbol DeclId) :
    Except (ScopeError Name) Unit × FrontEnd :=
  let o := match target with
    | .current => f.table.declare n s
    | .outermost => f.table.declareGlobal n s
  (o.answer, { f with table := o.table })

/-- Declares a spelling: the declaration is added under its name even when the
table then refuses the name. -/
def declare (f : FrontEnd) (target : Target) (s : String) (ns : Namespace) (d : Decl ns) :
    Except FrontEndFailure ((DeclId ns × Except (ScopeError Name) Unit) × FrontEnd) := do
  let (n, f) ← f.intern s
  let (id, f) ← f.alloc ns (d.named n)
  let (answer, f) := f.bind target n ⟨ns, id⟩
  return ((id, answer), f)

/-- Adds an overload to a declared function. -/
def addOverload (f : FrontEnd) (id : DeclId .func) (sig : Signature) :
    Except FrontEndFailure (Bool × FrontEnd) :=
  match f.decls.addOverload id sig with
  | .ok (added, decls) => .ok (added, { f with decls })
  | .error e => .error (.reading e)

/-- Enters a scope. -/
def enter (f : FrontEnd) : FrontEnd := { f with table := f.table.enter.table }

/-- Leaves the current scope. -/
def leave (f : FrontEnd) : Except (ScopeError Name) Unit × FrontEnd :=
  let o := f.table.leave
  (o.answer, { f with table := o.table })

/-- The front end after a spelling was interned, or as it was if that failed. -/
def interned (f : FrontEnd) (s : String) : FrontEnd :=
  match f.intern s with
  | .ok (_, f') => f'
  | .error _ => f

/-- The answer to a request. -/
def reply (f : FrontEnd) : FrontEndRequest → FrontEndReply
  | .intern s => .named ((f.intern s).map (·.1))
  | .enter => .moved (.ok ())
  | .leave => .moved f.leave.1
  | .addOverload id sig => .added ((f.addOverload id sig).map (·.1))
  | .declare target s ns d => .declared ns ((f.declare target s ns d).map (·.1))

/-- The front end after a request.  One that fails changes nothing, except that a
spelling stays interned when there is no handle left for its declaration. -/
def perform (f : FrontEnd) : FrontEndRequest → FrontEnd
  | .intern s => f.interned s
  | .enter => f.enter
  | .leave => f.leave.2
  | .addOverload id sig => match f.addOverload id sig with
    | .ok (_, f') => f'
    | .error _ => f
  | .declare target s ns d => match f.declare target s ns d with
    | .ok (_, f') => f'
    | .error _ => f.interned s

/-- The front end after requests in order. -/
def performAll (f : FrontEnd) (rs : List FrontEndRequest) : FrontEnd := rs.foldl perform f

@[simp] theorem performAll_nil (f : FrontEnd) : f.performAll [] = f := rfl

@[simp] theorem performAll_cons (f : FrontEnd) (r : FrontEndRequest) (rs : List FrontEndRequest) :
    f.performAll (r :: rs) = (f.perform r).performAll rs := rfl

theorem performAll_append (f : FrontEnd) (rs rs' : List FrontEndRequest) :
    f.performAll (rs ++ rs') = (f.performAll rs).performAll rs' :=
  List.foldl_append

end FrontEnd
end ShaderSymbols
