import ShaderSymbols.Proofs.Representation

/-!
# Calls of a symbol table

A front end may ask for a declaration in two ways: it may want to know why the
declaration was refused, or only whether it was.  The second way comes in no new
operation, but in a new answer.

## Main definitions

* `Call ν P` — an operation, or a declaration that answers yes or no.
* `Reply ν` — what a call answers.
* `Call.action` — the operation behind a call.
* `SymbolTable.call`, `SymbolTable.callAll` — serve one call, or a list.
* `BlockTable.call`, `BlockTable.callAll` — the same calls to nested blocks.

## Main results

* `SymbolTable.Represents.call`, `SymbolTable.Represents.callAll` — a table and the
  blocks that it represents reply alike and stay in step.
-/

namespace ShaderSymbols

variable {ν : Type} {P : Namespace → Type}

/-- What may be asked of a table. -/
inductive Call (ν : Type) (P : Namespace → Type) where
  /-- Perform an operation. -/
  | act (action : Action ν P)
  /-- Declare a name in the current scope, if it is free there. -/
  | declareIfFree (name : ν) (symbol : Symbol P)
  /-- Declare a name in the outermost scope, if it is free there. -/
  | declareGlobalIfFree (name : ν) (symbol : Symbol P)

/-- What a call answers. -/
inductive Reply (ν : Type) where
  /-- The answer of an operation. -/
  | answer (a : Answer ν)
  /-- Whether a declaration was accepted. -/
  | accepted (b : Bool)

/-- The operation that a call asks for. -/
def Call.action : Call ν P → Action ν P
  | .act a => a
  | .declareIfFree n s => .declare n s
  | .declareGlobalIfFree n s => .declareGlobal n s

/-- Whether a call was granted. -/
def Reply.isOk : Reply ν → Bool
  | .answer a => a.isOk
  | .accepted b => b

/-! ### Calls of an indexed table -/

namespace SymbolTable

/-- Serves a call. -/
def call (t : SymbolTable P) : Call Name P → Outcome P (Reply Name)
  | .act a => (t.step a).map .answer
  | .declareIfFree n s => (t.declareIfFree n s).map .accepted
  | .declareGlobalIfFree n s => (t.declareGlobalIfFree n s).map .accepted

/-- Serves calls in order; the replies are in the same order. -/
def callAll (t : SymbolTable P) : List (Call Name P) → List (Reply Name) × SymbolTable P
  | [] => ([], t)
  | c :: cs =>
    let (replies, t') := (t.call c).table.callAll cs
    ((t.call c).answer :: replies, t')

@[simp] theorem callAll_nil (t : SymbolTable P) : t.callAll [] = ([], t) := rfl

@[simp] theorem callAll_cons (t : SymbolTable P) (c : Call Name P) (cs : List (Call Name P)) :
    t.callAll (c :: cs) =
      ((t.call c).answer :: ((t.call c).table.callAll cs).1, ((t.call c).table.callAll cs).2) :=
  rfl

theorem callAll_append (t : SymbolTable P) (cs ds : List (Call Name P)) :
    t.callAll (cs ++ ds) =
      ((t.callAll cs).1 ++ ((t.callAll cs).2.callAll ds).1, ((t.callAll cs).2.callAll ds).2) := by
  induction cs generalizing t with
  | nil => rfl
  | cons c cs ih => rw [List.cons_append, callAll_cons, callAll_cons, ih, List.cons_append]

/-- A call leads where its operation leads. -/
theorem table_call (t : SymbolTable P) (c : Call Name P) :
    (t.call c).table = (t.step c.action).table := by
  cases c <;> rfl

/-- A call is granted exactly if its operation is. -/
theorem isOk_answer_call (t : SymbolTable P) (c : Call Name P) :
    (t.call c).answer.isOk = (t.step c.action).answer.isOk := by
  cases c <;> rfl

end SymbolTable

/-! ### Calls of nested blocks -/

namespace BlockTable

variable [DecidableEq ν]

/-- Serves a call. -/
def call (t : BlockTable ν P) : Call ν P → Reply ν × BlockTable ν P
  | .act a => (.answer (t.step a).1, (t.step a).2)
  | .declareIfFree n s => (.accepted (t.step (.declare n s)).1.isOk, (t.step (.declare n s)).2)
  | .declareGlobalIfFree n s =>
    (.accepted (t.step (.declareGlobal n s)).1.isOk, (t.step (.declareGlobal n s)).2)

/-- Serves calls in order; the replies are in the same order. -/
def callAll (t : BlockTable ν P) : List (Call ν P) → List (Reply ν) × BlockTable ν P
  | [] => ([], t)
  | c :: cs =>
    let (replies, t') := (t.call c).2.callAll cs
    ((t.call c).1 :: replies, t')

@[simp] theorem callAll_nil (t : BlockTable ν P) : t.callAll [] = ([], t) := rfl

@[simp] theorem callAll_cons (t : BlockTable ν P) (c : Call ν P) (cs : List (Call ν P)) :
    t.callAll (c :: cs) =
      ((t.call c).1 :: ((t.call c).2.callAll cs).1, ((t.call c).2.callAll cs).2) :=
  rfl

end BlockTable

/-! ### Staying in step -/

namespace SymbolTable.Represents

theorem call {t : SymbolTable P} {b : BlockTable Name P} (h : Represents t b) (c : Call Name P) :
    (t.call c).answer = (b.call c).1 ∧ Represents (t.call c).table (b.call c).2 := by
  cases c with
  | act a =>
    obtain ⟨hanswer, hstep⟩ := h.step a
    exact ⟨congrArg Reply.answer hanswer, hstep⟩
  | declareIfFree n s =>
    obtain ⟨hanswer, hstep⟩ := h.declare n s
    exact ⟨congrArg (fun a : Answer Name => Reply.accepted a.isOk) hanswer, hstep⟩
  | declareGlobalIfFree n s =>
    obtain ⟨hanswer, hstep⟩ := h.declareGlobal n s
    exact ⟨congrArg (fun a : Answer Name => Reply.accepted a.isOk) hanswer, hstep⟩

theorem callAll : ∀ (cs : List (Call Name P)) {t : SymbolTable P} {b : BlockTable Name P},
    Represents t b →
    (t.callAll cs).1 = (b.callAll cs).1 ∧ Represents (t.callAll cs).2 (b.callAll cs).2 := by
  intro cs
  induction cs with
  | nil => intro t b h; exact ⟨rfl, h⟩
  | cons c cs ih =>
    intro t b h
    obtain ⟨hreply, hcall⟩ := h.call c
    obtain ⟨hreplies, hall⟩ := ih hcall
    rw [callAll_cons, BlockTable.callAll_cons, hreply, hreplies]
    exact ⟨rfl, hall⟩

end SymbolTable.Represents
end ShaderSymbols
