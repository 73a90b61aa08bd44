import ShaderSymbols.Scope.Action

/-!
# Nested blocks

The plainest scoped table: a list of bindings for each open block, searched from
the innermost block outwards.  It keeps no index, so every question costs a scan,
and it works for names of any type.  It says what a symbol table means.

## Main definitions

* `BlockTable ν P` — the bindings of every open block.
* `BlockTable.find?` — the depth and the symbol that a key resolves to.
* `BlockTable.step`, `BlockTable.run` — perform one operation, or a list.
-/

namespace ShaderSymbols

variable {ν : Type} {P : Namespace → Type}

/-! ### Blocks -/

/-- One declaration of a block. -/
structure Binding (ν : Type) (P : Namespace → Type) where
  /-- The declared name. -/
  name : ν
  /-- What it is bound to. -/
  symbol : Symbol P

/-- What identifies a declaration within its block. -/
def Binding.key (b : Binding ν P) : Key ν := ⟨b.symbol.space, b.name⟩

/-- The declarations of one block, newest first. -/
abbrev Block (ν : Type) (P : Namespace → Type) := List (Binding ν P)

namespace Block

variable [DecidableEq ν]

/-- The symbol that a block binds to a key. -/
def find? (b : Block ν P) (k : Key ν) : Option (Symbol P) :=
  (List.find? (·.key = k) b).map (·.symbol)

/-- Whether a block declares a key. -/
def declares (b : Block ν P) (k : Key ν) : Bool := b.any (·.key = k)

@[simp] theorem find?_nil (k : Key ν) : find? ([] : Block ν P) k = none := rfl

theorem find?_cons (x : Binding ν P) (b : Block ν P) (k : Key ν) :
    find? (x :: b) k = if x.key = k then some x.symbol else find? b k := by
  by_cases h : x.key = k <;> simp [find?, h]

theorem isSome_find? (b : Block ν P) (k : Key ν) : (find? b k).isSome = declares b k := by
  rw [Bool.eq_iff_iff]
  simp [find?, declares]

end Block

/-! ### Tables -/

/-- The declarations of all open blocks. -/
structure BlockTable (ν : Type) (P : Namespace → Type) where
  /-- The blocks inside the outermost one, innermost first. -/
  inner : List (Block ν P)
  /-- The block that is never left. -/
  outermost : Block ν P

namespace BlockTable

/-- The outermost block alone, with nothing declared. -/
def new : BlockTable ν P := ⟨[], []⟩

/-- How many blocks enclose the current one. -/
def depth (t : BlockTable ν P) : Nat := t.inner.length

/-- All blocks, innermost first. -/
def blocks (t : BlockTable ν P) : List (Block ν P) := t.inner ++ [t.outermost]

/-- How many declarations there are in all blocks. -/
def size (t : BlockTable ν P) : Nat := t.blocks.flatten.length

@[simp] theorem depth_new : (new : BlockTable ν P).depth = 0 := rfl

variable [DecidableEq ν]

/-- Searches blocks, innermost first; the last one has depth 0. -/
def search (k : Key ν) : List (Block ν P) → Option (Nat × Symbol P)
  | [] => none
  | b :: bs =>
    match Block.find? b k with
    | some s => some (bs.length, s)
    | none => search k bs

/-- The depth and the symbol that a key resolves to. -/
def find? (t : BlockTable ν P) (k : Key ν) : Option (Nat × Symbol P) := search k t.blocks

/-- Adds a binding to a block that does not declare its key. -/
def addTo (b : Block ν P) (depth : Nat) (x : Binding ν P) : Except (ScopeError ν) (Block ν P) :=
  if Block.declares b x.key then .error (.redeclared x.key depth) else .ok (x :: b)

/-- Performs one operation. -/
def step (t : BlockTable ν P) : Action ν P → Answer ν × BlockTable ν P
  | .enter => (.ok (), { t with inner := [] :: t.inner })
  | .leave =>
    match t.inner with
    | [] => (.error .underflow, t)
    | _ :: bs => (.ok (), { t with inner := bs })
  | .declareGlobal n s =>
    match addTo t.outermost 0 ⟨n, s⟩ with
    | .error e => (.error e, t)
    | .ok b => (.ok (), { t with outermost := b })
  | .declare n s =>
    match t.inner with
    | [] =>
      match addTo t.outermost 0 ⟨n, s⟩ with
      | .error e => (.error e, t)
      | .ok b => (.ok (), { t with outermost := b })
    | b :: bs =>
      match addTo b t.depth ⟨n, s⟩ with
      | .error e => (.error e, t)
      | .ok b => (.ok (), { t with inner := b :: bs })

/-- Performs operations in order; the answers are in the same order. -/
def run (t : BlockTable ν P) : List (Action ν P) → List (Answer ν) × BlockTable ν P
  | [] => ([], t)
  | a :: as =>
    let (answer, t') := t.step a
    let (answers, t'') := t'.run as
    (answer :: answers, t'')

@[simp] theorem run_nil (t : BlockTable ν P) : t.run [] = ([], t) := rfl

@[simp] theorem run_cons (t : BlockTable ν P) (a : Action ν P) (as : List (Action ν P)) :
    t.run (a :: as) =
      ((t.step a).1 :: ((t.step a).2.run as).1, ((t.step a).2.run as).2) := rfl

@[simp] theorem find?_new (k : Key ν) : (new : BlockTable ν P).find? k = none := rfl

end BlockTable
end ShaderSymbols
