import ShaderSymbols.Scope.Action
import ShaderSymbols.SymbolTable

/-!
# Runs of a symbol table

Performing a list of operations one after the other.

## Main definitions

* `SymbolTable.step`, `SymbolTable.run` — perform one operation, or a list.
* `SymbolTable.Reachable` — being the result of a run that starts with `new`.

## Main results

* `SymbolTable.table_step_of_error` — an operation that is refused changes nothing.
* `SymbolTable.run_append` — a run can be split anywhere.
* `SymbolTable.Reachable.step` — a step leads from a reachable table to another.
-/

namespace ShaderSymbols

variable {P : Namespace → Type}

namespace SymbolTable

/-! ### Runs -/

/-- Performs one operation. -/
def step (t : SymbolTable P) : Action Name P → Outcome P (Answer Name)
  | .enter => t.enter.map .ok
  | .leave => t.leave
  | .declare n s => t.declare n s
  | .declareGlobal n s => t.declareGlobal n s

/-- Performs operations in order; the answers are in the same order. -/
def run (t : SymbolTable P) : List (Action Name P) → Outcome P (List (Answer Name))
  | [] => ⟨[], t, []⟩
  | a :: as =>
    let first := t.step a
    let rest := first.table.run as
    ⟨first.answer :: rest.answer, rest.table, first.log ++ rest.log⟩

@[simp] theorem run_nil (t : SymbolTable P) : t.run [] = ⟨[], t, []⟩ := rfl

@[simp] theorem answer_run_cons (t : SymbolTable P) (a : Action Name P)
    (as : List (Action Name P)) :
    (t.run (a :: as)).answer = (t.step a).answer :: ((t.step a).table.run as).answer := rfl

@[simp] theorem table_run_cons (t : SymbolTable P) (a : Action Name P)
    (as : List (Action Name P)) :
    (t.run (a :: as)).table = ((t.step a).table.run as).table := rfl

@[simp] theorem log_run_cons (t : SymbolTable P) (a : Action Name P)
    (as : List (Action Name P)) :
    (t.run (a :: as)).log = (t.step a).log ++ ((t.step a).table.run as).log := rfl

/-- **What is refused changes nothing**, whatever it is. -/
theorem table_step_of_error {t : SymbolTable P} {a : Action Name P} {e : ScopeError Name}
    (h : (t.step a).answer = .error e) : (t.step a).table = t := by
  cases a with
  | enter => cases h
  | leave => exact table_leave_of_error h
  | declare n s => exact table_declare_of_error h
  | declareGlobal n s => exact table_declareGlobal_of_error h

/-- **A run can be split anywhere.** -/
theorem run_append (t : SymbolTable P) (as bs : List (Action Name P)) :
    t.run (as ++ bs) =
      let first := t.run as
      let rest := first.table.run bs
      ⟨first.answer ++ rest.answer, rest.table, first.log ++ rest.log⟩ := by
  induction as generalizing t with
  | nil => rfl
  | cons a as ih =>
    simp only [List.cons_append, run]
    rw [ih]
    simp

/-! ### Reachable tables -/

/-- Being the result of a run that starts with nothing declared. -/
def Reachable (t : SymbolTable P) : Prop := ∃ as, ((new : SymbolTable P).run as).table = t

theorem Reachable.new : (new : SymbolTable P).Reachable := ⟨[], rfl⟩

theorem Reachable.step {t : SymbolTable P} (h : t.Reachable) (a : Action Name P) :
    (t.step a).table.Reachable := by
  obtain ⟨as, rfl⟩ := h
  exact ⟨as ++ [a], by rw [run_append]; rfl⟩

end SymbolTable
end ShaderSymbols
