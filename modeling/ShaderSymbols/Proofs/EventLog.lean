import ShaderSymbols.Proofs.Representation

/-!
# The log tells what happened

Every operation on a symbol table leaves one event in the log, whether it was
performed or refused.  Nothing else is written down, and nothing else is needed:
whoever reads the log from the start knows the declared keys of all open scopes
after every event, and could have foretold each event from the operation and from
what the log said before.

## Main definitions

* `Event.report scopes a` — the event that the operation `a` calls for when the
  declared keys are `scopes`.
* `SymbolTable.shownFields` — the fields to be logged, read off the table.
* `SymbolTable.Accounts` — an event is all there is to say about an operation.

## Main results

* `SymbolTable.Represents.reports_step` — one event for each operation, and what it
  does to the declared keys.
* `SymbolTable.Represents.accounts` — that event is a full account of the operation.
* `SymbolTable.replayAll_log_run` — replaying the log of a run gives the declared
  keys of its table.
* `SymbolTable.log_run_accounts` — **the log is complete and can be replayed: every
  prefix of it gives the declared keys at that point, and every event agrees with
  what was replayed before it.**
-/

namespace ShaderSymbols

variable {P : Namespace → Type}

/-! ### The declared keys of a table -/

namespace SymbolTable.Represents

variable {t : SymbolTable P} {b : BlockTable Name P}

theorem length_declaredKeys (h : Represents t b) :
    t.scopes.declaredKeys.length = t.depth + 1 := by
  rw [h.scopes, BlockTable.declaredKeys_stack, List.length_map, List.length_reverse,
    BlockTable.blocks, List.length_append, List.length_singleton, h.depth, BlockTable.depth]

/-- The innermost entry of a key is at the current depth exactly if the last frame
holds the key. -/
theorem depthOf?_eq_depth_iff_mem (h : Represents t b) (k : Key Name) :
    t.depthOf? k.space k.name = some t.depth ↔ k ∈ t.scopes.declaredKeys.getLastD [] := by
  rw [h.depthOf?_eq_depth_iff, ScopeStack.getLastD_declaredKeys, h.scopes,
    BlockTable.current_stack, Frame.mem_declared, Block.frame]

/-- The outermost entry of a key is at depth 0 exactly if the first frame holds the
key. -/
theorem bottomDepth?_eq_zero_iff_mem (h : Represents t b) (k : Key Name) :
    t.bottomDepth? k.space k.name = some 0 ↔ k ∈ t.scopes.declaredKeys.headD [] := by
  rw [h.bottomDepth?_eq_zero_iff, ScopeStack.headD_declaredKeys, h.scopes, BlockTable.stack,
    Frame.mem_declared, Block.frame]

/-- Leaving a scope takes as many entries away as its frame holds keys. -/
theorem size_leave (h : Represents t b) {f : Frame Name} {s : ScopeStack Name}
    (hs : t.scopes.leave = .ok (f, s)) : t.leave.table.size + f.keys.length = t.size := by
  obtain ⟨inner, outermost⟩ := b
  have hleft := h.leave.2.size
  rw [h.scopes] at hs
  cases inner with
  | nil =>
    rw [BlockTable.leave_stack_nil] at hs
    cases hs
  | cons c cs =>
    rw [BlockTable.leave_stack_cons] at hs
    cases hs
    rw [hleft, h.size, BlockTable.step_leave_cons]
    simp only [BlockTable.size, BlockTable.blocks, Block.frame, Block.length_keys,
      List.cons_append, List.flatten_cons, List.length_append]
    omega

end SymbolTable.Represents

/-! ### What an operation logs -/

/-- The event that an operation calls for when the declared keys of all scopes,
outermost scope first, are `scopes`. -/
def Event.report (scopes : List (List (Key Name))) : Action Name P → Event
  | .enter => .entered scopes.length
  | .leave =>
    if scopes.length = 1 then .underflowed
    else .left (scopes.length - 1) (scopes.getLastD []).length
  | .declare n s =>
    if ⟨s.space, n⟩ ∈ scopes.getLastD [] then .refused ⟨s.space, n⟩ (scopes.length - 1)
    else .declared ⟨s.space, n⟩ (scopes.length - 1)
  | .declareGlobal n s =>
    if ⟨s.space, n⟩ ∈ scopes.headD [] then .refusedGlobal ⟨s.space, n⟩
    else .declaredGlobal ⟨s.space, n⟩

namespace SymbolTable

/-- The fields to be logged for an operation: the depth of the scope that is entered
or left, or where the operation takes place, and the key of a declaration. -/
def shownFields (t : SymbolTable P) : Action Name P → List (String × FieldValue)
  | .enter => [("depth", .number t.enter.table.depth)]
  | .leave =>
    match t.scopes.leave with
    | .error _ => []
    | .ok (frame, _) => [("depth", .number frame.depth), ("hidden", .number frame.keys.length)]
  | .declare n s =>
    [("name", .text (toString n)), ("namespace", .text s.space.word), ("depth", .number t.depth)]
  | .declareGlobal n s => [("name", .text (toString n)), ("namespace", .text s.space.word)]

/-- The message to be logged for an operation with a given answer. -/
def shownMessage : Action Name P → Answer Name → String
  | .enter, _ => "push scope"
  | .leave, .ok _ => "pop scope"
  | .leave, .error _ => "pop_scope called on the outermost scope"
  | .declare .., .ok _ => "add symbol"
  | .declare .., .error _ => "redeclaration rejected"
  | .declareGlobal .., .ok _ => "add global symbol"
  | .declareGlobal .., .error _ => "global redeclaration rejected"

/-- The event `e` is a full account of the operation `a` on the table `t`, to a
reader who knows that the declared keys were `scopes`. -/
structure Accounts (t : SymbolTable P) (scopes : List (List (Key Name))) (a : Action Name P)
    (e : Event) : Prop where
  /-- The operation logs this event and no other. -/
  log_eq : (t.step a).log = [e]
  /-- It is the event that the keys call for. -/
  eq_report : e = .report scopes a
  /-- Its message is that of the operation and its answer. -/
  message_eq : e.message = shownMessage a (t.step a).answer
  /-- Its fields are those of the operation and of the table. -/
  fields_eq : e.fields = t.shownFields a
  /-- What it says was hidden is what the table lost. -/
  hidden_eq : ∀ depth hidden, e = .left depth hidden → (t.step a).table.size + hidden = t.size
  /-- It is logged as a mistake in the shader if a declaration is refused. -/
  level_eq_debug_iff :
    e.level = .debug ↔ ∃ k depth, (t.step a).answer = .error (.redeclared k depth)
  /-- It is logged as a mistake of the caller if the outermost scope was to be left. -/
  level_eq_error_iff : e.level = .error ↔ (t.step a).answer = .error .underflow

/-- What an operation with a given answer logs. -/
inductive Logs (t : SymbolTable P) : Action Name P → Answer Name → Event → Prop where
  | entered : Logs t .enter (.ok ()) (.entered t.enter.table.depth)
  | left {f : Frame Name} {s : ScopeStack Name} (h : t.scopes.leave = .ok (f, s)) :
    Logs t .leave (.ok ()) (.left f.depth f.keys.length)
  | underflowed (h : t.scopes.leave = .error .underflow) :
    Logs t .leave (.error .underflow) .underflowed
  | declared (n : Name) (s : Symbol P) :
    Logs t (.declare n s) (.ok ()) (.declared ⟨s.space, n⟩ t.depth)
  | refused (n : Name) (s : Symbol P) :
    Logs t (.declare n s) (.error (.redeclared ⟨s.space, n⟩ t.depth))
      (.refused ⟨s.space, n⟩ t.depth)
  | declaredGlobal (n : Name) (s : Symbol P) :
    Logs t (.declareGlobal n s) (.ok ()) (.declaredGlobal ⟨s.space, n⟩)
  | refusedGlobal (n : Name) (s : Symbol P) :
    Logs t (.declareGlobal n s) (.error (.redeclared ⟨s.space, n⟩ 0))
      (.refusedGlobal ⟨s.space, n⟩)

theorem exists_logs_step (t : SymbolTable P) (a : Action Name P) :
    ∃ e, (t.step a).log = [e] ∧ Logs t a (t.step a).answer e := by
  cases a with
  | enter => exact ⟨_, rfl, .entered⟩
  | leave =>
    rw [step, leave]
    cases hs : t.scopes.leave with
    | error e =>
      obtain ⟨-, rfl⟩ := ScopeStack.leave_eq_error_iff.mp hs
      exact ⟨_, rfl, .underflowed hs⟩
    | ok fs => exact ⟨_, rfl, .left hs⟩
  | declare n s =>
    rw [step, declare]
    split
    · exact ⟨_, rfl, .refused n s⟩
    · exact ⟨_, rfl, .declared n s⟩
  | declareGlobal n s =>
    rw [step, declareGlobal]
    split
    · exact ⟨_, rfl, .refusedGlobal n s⟩
    · exact ⟨_, rfl, .declaredGlobal n s⟩

namespace Logs

variable {t : SymbolTable P} {a : Action Name P} {answer : Answer Name} {e : Event}

theorem message_eq (h : Logs t a answer e) : e.message = shownMessage a answer := by
  cases h <;> rfl

theorem fields_eq (h : Logs t a answer e) : e.fields = t.shownFields a := by
  cases h with
  | left hs => rw [shownFields, hs, Event.fields]
  | underflowed hs => rw [shownFields, hs, Event.fields]
  | _ => rfl

theorem level_eq_debug_iff (h : Logs t a answer e) :
    e.level = .debug ↔ ∃ k depth, answer = .error (.redeclared k depth) := by
  cases h <;> simp [Event.level]

theorem level_eq_error_iff (h : Logs t a answer e) :
    e.level = .error ↔ answer = .error .underflow := by
  cases h <;> simp [Event.level]

/-- Only leaving a scope hides declarations: those of the frame that is left. -/
theorem exists_leave {depth hidden : Nat} (h : Logs t a answer (.left depth hidden)) :
    a = .leave ∧ ∃ f s, t.scopes.leave = .ok (f, s) ∧ f.keys.length = hidden := by
  cases h with
  | left hs => exact ⟨rfl, _, _, hs, rfl⟩

end Logs

/-! ### One event for each operation -/

namespace Represents

variable {t : SymbolTable P} {b : BlockTable Name P}

theorem reports_leave (h : Represents t b) :
    t.leave.log = [.report t.scopes.declaredKeys (.leave : Action Name P)] ∧
      t.leave.table.scopes.declaredKeys =
        Event.replay t.scopes.declaredKeys
          (.report t.scopes.declaredKeys (.leave : Action Name P)) := by
  have hlength := h.length_declaredKeys
  rw [SymbolTable.leave, Event.report]
  cases hs : t.scopes.leave with
  | error e =>
    -- only the outermost frame is left
    obtain ⟨hinner, -⟩ := ScopeStack.leave_eq_error_iff.mp hs
    have hone : t.scopes.declaredKeys.length = 1 := by
      rw [ScopeStack.length_declaredKeys, hinner, List.length_nil]
    rw [if_pos hone]
    exact ⟨rfl, rfl⟩
  | ok fs =>
    obtain ⟨f, s⟩ := fs
    have hscopes := ScopeStack.leave_eq_ok_iff.mp hs
    have hone : t.scopes.declaredKeys.length ≠ 1 := by
      rw [ScopeStack.length_declaredKeys, hscopes, List.length_cons]
      omega
    have hdepth : t.scopes.declaredKeys.length - 1 = f.depth := by
      rw [hlength, Nat.add_sub_cancel, SymbolTable.depth, hscopes]
      rfl
    have hcurrent : t.scopes.declaredKeys.getLastD [] = f.declared := by
      rw [ScopeStack.getLastD_declaredKeys, hscopes]
      rfl
    rw [if_neg hone, hdepth, hcurrent, Frame.length_declared]
    exact ⟨rfl, ScopeStack.declaredKeys_of_leave hs⟩

/-- **Every operation logs one event.**  It is the one that the declared keys call
for, and it says what the operation does to them. -/
theorem reports_step (h : Represents t b) (a : Action Name P) :
    (t.step a).log = [.report t.scopes.declaredKeys a] ∧
      (t.step a).table.scopes.declaredKeys =
        Event.replay t.scopes.declaredKeys (.report t.scopes.declaredKeys a) := by
  have hdepth : t.scopes.declaredKeys.length - 1 = t.depth := by
    rw [h.length_declaredKeys, Nat.add_sub_cancel]
  cases a with
  | enter =>
    rw [Event.report, h.length_declaredKeys]
    exact ⟨rfl, ScopeStack.declaredKeys_enter t.scopes⟩
  | leave => exact h.reports_leave
  | declare n s =>
    have hmem := h.depthOf?_eq_depth_iff_mem ⟨s.space, n⟩
    rw [SymbolTable.step, SymbolTable.declare, Event.report, hdepth]
    by_cases hk : t.depthOf? s.space n = some t.depth
    · rw [if_pos hk, if_pos (hmem.mp hk)]
      exact ⟨rfl, rfl⟩
    · rw [if_neg hk, if_neg (mt hmem.mpr hk)]
      exact ⟨rfl, ScopeStack.declaredKeys_note _ _⟩
  | declareGlobal n s =>
    have hmem := h.bottomDepth?_eq_zero_iff_mem ⟨s.space, n⟩
    rw [SymbolTable.step, SymbolTable.declareGlobal, Event.report]
    by_cases hk : t.bottomDepth? s.space n = some 0
    · rw [if_pos hk, if_pos (hmem.mp hk)]
      exact ⟨rfl, rfl⟩
    · rw [if_neg hk, if_neg (mt hmem.mpr hk)]
      exact ⟨rfl, ScopeStack.declaredKeys_noteOutermost _ _⟩

/-- An operation is accounted for by the event that the declared keys call for. -/
theorem accounts (h : Represents t b) (a : Action Name P) :
    Accounts t t.scopes.declaredKeys a (.report t.scopes.declaredKeys a) := by
  obtain ⟨hlog, -⟩ := h.reports_step a
  obtain ⟨e, he, hlogs⟩ := t.exists_logs_step a
  rw [hlog, List.singleton_inj] at he
  rw [he]
  have hhidden : ∀ depth hidden, e = .left depth hidden →
      (t.step a).table.size + hidden = t.size := by
    rintro depth hidden rfl
    obtain ⟨rfl, f, s, hs, rfl⟩ := hlogs.exists_leave
    exact h.size_leave hs
  exact ⟨hlog.trans (congrArg ([·]) he), he.symm, hlogs.message_eq, hlogs.fields_eq, hhidden,
    hlogs.level_eq_debug_iff, hlogs.level_eq_error_iff⟩

/-- Replaying the log of a run, from the declared keys where it starts, leads to the
declared keys where it ends. -/
theorem foldl_replay_log : ∀ (as : List (Action Name P)) {t : SymbolTable P}
    {b : BlockTable Name P}, Represents t b →
    (t.run as).log.foldl Event.replay t.scopes.declaredKeys =
      (t.run as).table.scopes.declaredKeys := by
  intro as
  induction as with
  | nil => intro t b _; rfl
  | cons a as ih =>
    intro t b h
    obtain ⟨hlog, hkeys⟩ := h.reports_step a
    obtain ⟨-, hstep⟩ := h.step a
    rw [log_run_cons, table_run_cons, List.foldl_append, hlog, List.foldl_cons, List.foldl_nil,
      ← hkeys]
    exact ih hstep

end Represents

/-! ### The log of a run -/

/-- Replaying the log of a run of a new table gives the declared keys. -/
theorem replayAll_log_run (as : List (Action Name P)) :
    Event.replayAll ((new : SymbolTable P).run as).log =
      ((new : SymbolTable P).run as).table.scopes.declaredKeys :=
  Represents.foldl_replay_log as represents_new

theorem length_log_run : ∀ (as : List (Action Name P)) {t : SymbolTable P}
    {b : BlockTable Name P}, Represents t b → (t.run as).log.length = as.length := by
  intro as
  induction as with
  | nil => intro t b _; rfl
  | cons a as ih =>
    intro t b h
    obtain ⟨hlog, -⟩ := h.reports_step a
    obtain ⟨-, hstep⟩ := h.step a
    rw [log_run_cons, List.length_append, hlog, ih hstep, List.length_singleton,
      List.length_cons, Nat.add_comm]

/-- The log of the first operations is a prefix of the log. -/
theorem take_log_run : ∀ (as : List (Action Name P)) {t : SymbolTable P}
    {b : BlockTable Name P}, Represents t b →
    ∀ k, (t.run as).log.take k = (t.run (as.take k)).log := by
  intro as
  induction as with
  | nil => intro t b _ k; rw [List.take_nil, run_nil, List.take_nil]
  | cons a as ih =>
    intro t b h k
    obtain ⟨hlog, -⟩ := h.reports_step a
    obtain ⟨-, hstep⟩ := h.step a
    cases k with
    | zero => rfl
    | succ k =>
      rw [List.take_succ_cons, log_run_cons, log_run_cons, hlog, List.singleton_append,
        List.singleton_append, List.take_succ_cons, ih hstep k]

/-- Each event is the one that the keys declared before the operation call for. -/
theorem getElem?_log_run : ∀ (as : List (Action Name P)) {t : SymbolTable P}
    {b : BlockTable Name P}, Represents t b → ∀ {k : Nat} {a : Action Name P}, as[k]? = some a →
    (t.run as).log[k]? =
      some (.report (t.run (as.take k)).table.scopes.declaredKeys a) := by
  intro as
  induction as with
  | nil => intro t b _ k a ha; simp at ha
  | cons c as ih =>
    intro t b h k a ha
    obtain ⟨hlog, -⟩ := h.reports_step c
    obtain ⟨-, hstep⟩ := h.step c
    rw [log_run_cons, hlog, List.singleton_append]
    cases k with
    | zero =>
      rw [List.getElem?_cons_zero] at ha ⊢
      cases ha
      rfl
    | succ k =>
      rw [List.getElem?_cons_succ] at ha ⊢
      exact ih hstep ha

/-- **The log is a full record of a run.**  A run of a new table logs one event for
each operation; replaying the log up to any point gives the keys that all scopes
declare at that point, and every event is a full account of its operation to a
reader who has replayed the log up to it. -/
theorem log_run_accounts (as : List (Action Name P)) :
    ((new : SymbolTable P).run as).log.length = as.length ∧
      ∀ k : Nat,
        Event.replayAll (((new : SymbolTable P).run as).log.take k) =
          ((new : SymbolTable P).run (as.take k)).table.scopes.declaredKeys ∧
        ∀ a, as[k]? = some a →
          ∃ e, ((new : SymbolTable P).run as).log[k]? = some e ∧
            Accounts ((new : SymbolTable P).run (as.take k)).table
              (Event.replayAll (((new : SymbolTable P).run as).log.take k)) a e := by
  have hnew : Represents (new : SymbolTable P) .new := represents_new
  refine ⟨length_log_run as hnew, fun k => ?_⟩
  have hreplay : Event.replayAll (((new : SymbolTable P).run as).log.take k) =
      ((new : SymbolTable P).run (as.take k)).table.scopes.declaredKeys := by
    rw [take_log_run as hnew, replayAll_log_run]
  refine ⟨hreplay, fun a ha => ?_⟩
  obtain ⟨-, hk⟩ := Represents.run (as.take k) hnew
  rw [hreplay]
  exact ⟨_, getElem?_log_run as hnew ha, hk.accounts a⟩

/-- A walk in which everything happens that can be logged. -/
def eventful : List (Action Name fun _ => Nat) :=
  [.declare ⟨7⟩ ⟨.var, 1⟩, .enter, .declare ⟨7⟩ ⟨.var, 2⟩, .declare ⟨7⟩ ⟨.var, 3⟩,
    .declareGlobal ⟨8⟩ ⟨.func, 4⟩, .declareGlobal ⟨7⟩ ⟨.var, 5⟩, .leave, .leave]

theorem log_run_accounts_eventful :
    eventful[7]? = some .leave ∧
    ((new : SymbolTable fun _ => Nat).run eventful).log.length = 8 ∧
    ((new : SymbolTable fun _ => Nat).run (eventful.take 6)).table.scopes.declaredKeys =
      [[⟨.var, ⟨7⟩⟩, ⟨.func, ⟨8⟩⟩], [⟨.var, ⟨7⟩⟩]] ∧
    Event.replayAll (((new : SymbolTable fun _ => Nat).run eventful).log.take 6) =
      [[⟨.var, ⟨7⟩⟩, ⟨.func, ⟨8⟩⟩], [⟨.var, ⟨7⟩⟩]] ∧
    ∃ e, ((new : SymbolTable fun _ => Nat).run eventful).log[7]? = some e ∧ e.level = .error := by
  obtain ⟨hlength, hrun⟩ := log_run_accounts eventful
  have hkeys : ((new : SymbolTable fun _ => Nat).run (eventful.take 6)).table.scopes.declaredKeys =
      [[⟨.var, ⟨7⟩⟩, ⟨.func, ⟨8⟩⟩], [⟨.var, ⟨7⟩⟩]] := by decide
  obtain ⟨e, he, haccounts⟩ := (hrun 7).2 .leave rfl
  exact ⟨rfl, hlength, hkeys, (hrun 6).1.trans hkeys, e, he,
    haccounts.level_eq_error_iff.mpr rfl⟩

end SymbolTable
end ShaderSymbols
