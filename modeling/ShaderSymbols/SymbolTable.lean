import ShaderSymbols.Namespace.Family
import ShaderSymbols.Namespace.Set
import ShaderSymbols.Scope.Stack
import ShaderSymbols.SymbolTable.Event
import ShaderSymbols.SymbolTable.ShadowIndex

/-!
# The scoped symbol table

A front end enters a scope when it meets a block, declares names as it sees them,
resolves identifiers innermost first, and leaves the scope at the end of the
block, which hides every name the block declared.

The table keeps two records of the same declarations.  The scope stack holds, for
each open scope, the keys declared in it; the three indices hold, for each name,
its live declarations.  Resolving reads one list of one index, and leaving a scope
visits exactly the keys of that scope.

## Main definitions

* `SymbolTable P` — a table that binds names to the payloads `P`.
* `SymbolTable.enter`, `SymbolTable.leave` — open and close a scope.
* `SymbolTable.declare` — declares a name in the current scope, which accepts one
  declaration for each name and namespace.
* `SymbolTable.declareGlobal` — declares a name in the outermost scope from
  wherever the table stands; inner declarations keep hiding it.
* `SymbolTable.lookup` — the declaration a name resolves to, with
  `SymbolTable.resolve`, `SymbolTable.payload?` and `SymbolTable.depthOf?` for
  parts of it.
* `SymbolTable.entries` — all live declarations of a key, innermost first.
* `SymbolTable.declaresAny`, `SymbolTable.currentEntries` — what the current
  scope itself declares.

## Main results

* `SymbolTable.shadows_declare`, `SymbolTable.shadows_declareGlobal`,
  `SymbolTable.shadows_hide` — what an operation does to the live declarations of
  a name.
* `SymbolTable.entries_declare`, `SymbolTable.entries_declareGlobal`,
  `SymbolTable.size_declare`, `SymbolTable.size_declareGlobal` — an accepted
  declaration is one more entry, at one of the ends of one list.
* `SymbolTable.table_declare_of_error`, `SymbolTable.table_declareGlobal_of_error`,
  `SymbolTable.table_leave_of_error` — **what is refused changes nothing.**
-/

namespace ShaderSymbols

/-- Open scopes and live declarations. -/
@[ext] structure SymbolTable (P : Namespace → Type) where
  /-- The open scopes with the keys declared in each. -/
  scopes : ScopeStack Name
  /-- The live declarations of each namespace. -/
  index : PerNamespace fun ns => ShadowIndex (P ns)

/-- What an operation answers, the table it leaves and the events it reports. -/
@[ext] structure Outcome (P : Namespace → Type) (α : Type) where
  /-- The answer. -/
  answer : α
  /-- The table afterwards. -/
  table : SymbolTable P
  /-- What was reported, oldest first. -/
  log : List Event

/-- The same outcome with another answer. -/
def Outcome.map {P : Namespace → Type} {α β : Type} (f : α → β) (o : Outcome P α) : Outcome P β :=
  ⟨f o.answer, o.table, o.log⟩

namespace SymbolTable

variable {P : Namespace → Type}

/-- The outermost scope alone, with nothing declared. -/
def new : SymbolTable P := ⟨.new, .ofFn fun _ => .empty⟩

/-- The depth of the current scope. -/
def depth (t : SymbolTable P) : Nat := t.scopes.depth

/-! ### Resolving names -/

/-- The live declarations of a name, innermost first. -/
def shadows (t : SymbolTable P) (ns : Namespace) (n : Name) : List (Entry (P ns)) :=
  (t.index.get ns).shadows n

/-- The entries of a key, innermost first, their payloads tagged. -/
def entries (t : SymbolTable P) (k : Key Name) : List (Entry (Symbol P)) :=
  (t.shadows k.space k.name).map (Entry.map (Symbol.mk k.space))

/-- The innermost declaration of a name. -/
def entry? (t : SymbolTable P) (ns : Namespace) (n : Name) : Option (Entry (P ns)) :=
  (t.index.get ns).visible? n

/-- The declaration that a name resolves to, its payload tagged. -/
def lookup (t : SymbolTable P) (ns : Namespace) (n : Name) : Option (Entry (Symbol P)) :=
  (t.entry? ns n).map (·.map (Symbol.mk ns))

/-- The symbol that a name resolves to. -/
def resolve (t : SymbolTable P) (ns : Namespace) (n : Name) : Option (Symbol P) :=
  (t.lookup ns n).map (·.payload)

/-- The payload that a name resolves to. -/
def payload? (t : SymbolTable P) (ns : Namespace) (n : Name) : Option (P ns) :=
  (t.entry? ns n).map (·.payload)

/-- The depth of the declaration that a name resolves to. -/
def depthOf? (t : SymbolTable P) (ns : Namespace) (n : Name) : Option Nat :=
  (t.entry? ns n).map (·.depth)

/-- The depth of the declaration that all others of the name hide. -/
def bottomDepth? (t : SymbolTable P) (ns : Namespace) (n : Name) : Option Nat :=
  ((t.index.get ns).bottom? n).map (·.depth)

/-! ### Entering and leaving scopes -/

/-- Enters a scope. -/
def enter (t : SymbolTable P) : Outcome P Unit :=
  let t' : SymbolTable P := { t with scopes := t.scopes.enter }
  ⟨(), t', [.entered t'.depth]⟩

/-- Drops the innermost declaration of a key. -/
def hide (index : PerNamespace fun ns => ShadowIndex (P ns)) (k : Key Name) :
    PerNamespace fun ns => ShadowIndex (P ns) :=
  index.modify k.space (·.drop k.name)

/-- Leaves the current scope and hides what it declared, newest first.  The
outermost scope cannot be left. -/
def leave (t : SymbolTable P) : Outcome P (Except (ScopeError Name) Unit) :=
  match t.scopes.leave with
  | .error e => ⟨.error e, t, [.underflowed]⟩
  | .ok (frame, scopes) =>
    ⟨.ok (), ⟨scopes, frame.keys.foldl hide t.index⟩,
      [.left frame.depth frame.keys.length]⟩

/-! ### Declaring names -/

/-- Declares a name in the current scope.  A second declaration of the same key
there is refused and changes nothing. -/
def declare (t : SymbolTable P) (n : Name) (s : Symbol P) :
    Outcome P (Except (ScopeError Name) Unit) :=
  let key : Key Name := ⟨s.space, n⟩
  if t.depthOf? s.space n = some t.depth then
    ⟨.error (.redeclared key t.depth), t, [.refused key t.depth]⟩
  else
    ⟨.ok (),
      ⟨t.scopes.note key, t.index.modify s.space (·.push ⟨n, s.space, s.payload, t.depth⟩)⟩,
      [.declared key t.depth]⟩

/-- Declares a name in the outermost scope, beneath the declarations that already
hide it.  A second declaration of the same key there is refused. -/
def declareGlobal (t : SymbolTable P) (n : Name) (s : Symbol P) :
    Outcome P (Except (ScopeError Name) Unit) :=
  let key : Key Name := ⟨s.space, n⟩
  if t.bottomDepth? s.space n = some 0 then
    ⟨.error (.redeclared key 0), t, [.refusedGlobal key]⟩
  else
    ⟨.ok (),
      ⟨t.scopes.noteOutermost key,
        t.index.modify s.space (·.pushBeneath ⟨n, s.space, s.payload, 0⟩)⟩,
      [.declaredGlobal key]⟩

/-- Declares a name in the current scope, and says only whether it was accepted. -/
def declareIfFree (t : SymbolTable P) (n : Name) (s : Symbol P) : Outcome P Bool :=
  (t.declare n s).map (·.isOk)

/-- Declares a name in the outermost scope, and says only whether it was accepted. -/
def declareGlobalIfFree (t : SymbolTable P) (n : Name) (s : Symbol P) : Outcome P Bool :=
  (t.declareGlobal n s).map (·.isOk)

/-! ### The current scope -/

/-- Whether the current scope itself declares a name, in some namespace of a set.
A live entry at the current depth is always the innermost one. -/
def declaresAny (t : SymbolTable P) (spaces : NamespaceSet) (n : Name) : Bool :=
  spaces.members.any fun ns => t.depthOf? ns n = some t.depth

/-- Whether the current scope itself declares a name, in any namespace. -/
def declares (t : SymbolTable P) (n : Name) : Bool := t.declaresAny .all n

/-- What the current scope declares, in the order of declaration. -/
def currentEntries (t : SymbolTable P) : List (Entry (Symbol P)) :=
  t.scopes.current.declared.filterMap fun k =>
    (t.lookup k.space k.name).filter (·.depth = t.depth)

/-! ### Size -/

/-- How many declarations are live, in all scopes and namespaces. -/
def size (t : SymbolTable P) : Nat := t.index.total fun _ x => x.size

/-- Whether nothing is declared. -/
def isEmpty (t : SymbolTable P) : Bool := t.size = 0

/-! ### Equations -/

@[simp] theorem depth_new : (new : SymbolTable P).depth = 0 := rfl

@[simp] theorem shadows_new (ns : Namespace) (n : Name) :
    (new : SymbolTable P).shadows ns n = [] := by
  simp [shadows, new]

theorem depthOf?_eq (t : SymbolTable P) (ns : Namespace) (n : Name) :
    t.depthOf? ns n = (t.shadows ns n).head?.map (·.depth) := rfl

theorem bottomDepth?_eq (t : SymbolTable P) (ns : Namespace) (n : Name) :
    t.bottomDepth? ns n = (t.shadows ns n).getLast?.map (·.depth) := rfl

theorem lookup_eq_head?_entries (t : SymbolTable P) (k : Key Name) :
    t.lookup k.space k.name = (t.entries k).head? := by
  rw [entries, List.head?_map]
  rfl

@[simp] theorem depth_enter (t : SymbolTable P) : t.enter.table.depth = t.depth + 1 := rfl

@[simp] theorem shadows_enter (t : SymbolTable P) (ns : Namespace) (n : Name) :
    t.enter.table.shadows ns n = t.shadows ns n := rfl

/-- A scope that declared nothing leaves no trace. -/
@[simp] theorem table_leave_enter (t : SymbolTable P) : t.enter.table.leave.table = t := rfl

/-! ### What an accepted declaration changes -/

theorem isOk_declare_iff (t : SymbolTable P) (n : Name) (s : Symbol P) :
    (t.declare n s).answer.isOk = true ↔ t.depthOf? s.space n ≠ some t.depth := by
  unfold declare
  split <;> simp_all [Except.isOk, Except.toBool]

theorem isOk_declareGlobal_iff (t : SymbolTable P) (n : Name) (s : Symbol P) :
    (t.declareGlobal n s).answer.isOk = true ↔ t.bottomDepth? s.space n ≠ some 0 := by
  unfold declareGlobal
  split <;> simp_all [Except.isOk, Except.toBool]

/-- The new entry hides the others of its name. -/
theorem shadows_declare {t : SymbolTable P} {n : Name} {ns : Namespace} {p : P ns}
    (h : t.depthOf? ns n ≠ some t.depth) (m : Name) :
    (t.declare n ⟨ns, p⟩).table.shadows ns m =
      if n = m then ⟨n, ns, p, t.depth⟩ :: t.shadows ns m else t.shadows ns m := by
  simp [declare, h, shadows, ShadowIndex.shadows_push]

/-- The new entry is hidden by the others of its name. -/
theorem shadows_declareGlobal {t : SymbolTable P} {n : Name} {ns : Namespace} {p : P ns}
    (h : t.bottomDepth? ns n ≠ some 0) (m : Name) :
    (t.declareGlobal n ⟨ns, p⟩).table.shadows ns m =
      if n = m then t.shadows ns m ++ [⟨n, ns, p, 0⟩] else t.shadows ns m := by
  simp [declareGlobal, h, shadows, ShadowIndex.shadows_pushBeneath]

/-- Other namespaces do not notice. -/
theorem shadows_declare_of_ne (t : SymbolTable P) (n : Name) {s : Symbol P} {ns : Namespace}
    (h : ns ≠ s.space) (m : Name) :
    (t.declare n s).table.shadows ns m = t.shadows ns m := by
  unfold declare
  split
  · rfl
  · simp [shadows, PerNamespace.get_modify_of_ne _ _ h]

/-- Other namespaces do not notice. -/
theorem shadows_declareGlobal_of_ne (t : SymbolTable P) (n : Name) {s : Symbol P}
    {ns : Namespace} (h : ns ≠ s.space) (m : Name) :
    (t.declareGlobal n s).table.shadows ns m = t.shadows ns m := by
  unfold declareGlobal
  split
  · rfl
  · simp [shadows, PerNamespace.get_modify_of_ne _ _ h]

/-- The new entry comes first among those of its key, and nothing else changes. -/
theorem entries_declare {t : SymbolTable P} {n : Name} {s : Symbol P}
    (h : t.depthOf? s.space n ≠ some t.depth) (k : Key Name) :
    (t.declare n s).table.entries k =
      if ⟨s.space, n⟩ = k then ⟨k.name, k.space, s, t.depth⟩ :: t.entries k
      else t.entries k := by
  obtain ⟨ns, p⟩ := s
  obtain ⟨ns', m⟩ := k
  rw [entries, entries]
  by_cases hns : ns' = ns
  · subst hns
    rw [shadows_declare h]
    by_cases hm : n = m
    · subst hm
      simp [Entry.map]
    · simp [hm]
  · rw [shadows_declare_of_ne t n hns, if_neg]
    exact fun hkey => hns (congrArg Key.space hkey).symm

/-- The new entry comes last among those of its key, and nothing else changes. -/
theorem entries_declareGlobal {t : SymbolTable P} {n : Name} {s : Symbol P}
    (h : t.bottomDepth? s.space n ≠ some 0) (k : Key Name) :
    (t.declareGlobal n s).table.entries k =
      if ⟨s.space, n⟩ = k then t.entries k ++ [⟨k.name, k.space, s, 0⟩]
      else t.entries k := by
  obtain ⟨ns, p⟩ := s
  obtain ⟨ns', m⟩ := k
  rw [entries, entries]
  by_cases hns : ns' = ns
  · subst hns
    rw [shadows_declareGlobal h]
    by_cases hm : n = m
    · subst hm
      simp [Entry.map]
    · simp [hm]
  · rw [shadows_declareGlobal_of_ne t n hns, if_neg]
    exact fun hkey => hns (congrArg Key.space hkey).symm

/-- One more declaration is live. -/
theorem size_declare {t : SymbolTable P} {n : Name} {s : Symbol P}
    (h : t.depthOf? s.space n ≠ some t.depth) : (t.declare n s).table.size = t.size + 1 := by
  rw [declare, if_neg h]
  exact t.index.total_modify_succ (fun _ x => x.size) s.space
    (·.push ⟨n, s.space, s.payload, t.depth⟩) (ShadowIndex.size_push ..)

/-- One more declaration is live. -/
theorem size_declareGlobal {t : SymbolTable P} {n : Name} {s : Symbol P}
    (h : t.bottomDepth? s.space n ≠ some 0) : (t.declareGlobal n s).table.size = t.size + 1 := by
  rw [declareGlobal, if_neg h]
  exact t.index.total_modify_succ (fun _ x => x.size) s.space
    (·.pushBeneath ⟨n, s.space, s.payload, 0⟩) (ShadowIndex.size_pushBeneath ..)

/-- Hiding a key takes the innermost entry off its list and leaves the rest alone. -/
theorem shadows_hide (index : PerNamespace fun ns => ShadowIndex (P ns)) (k : Key Name)
    (ns : Namespace) (m : Name) :
    ((hide index k).get ns).shadows m =
      if k = ⟨ns, m⟩ then ((index.get ns).shadows m).tail else (index.get ns).shadows m := by
  obtain ⟨space, n⟩ := k
  by_cases hs : ns = space
  · subst hs
    simp [hide, ShadowIndex.shadows_drop]
  · simp [hide, PerNamespace.get_modify_of_ne _ _ hs, Ne.symm hs]

/-! ### What a refused operation changes -/

/-- What is refused changes nothing. -/
theorem table_declare_of_error {t : SymbolTable P} {n : Name} {s : Symbol P}
    {e : ScopeError Name} (h : (t.declare n s).answer = .error e) :
    (t.declare n s).table = t := by
  unfold declare at *
  split <;> simp_all

/-- What is refused changes nothing. -/
theorem table_declareGlobal_of_error {t : SymbolTable P} {n : Name} {s : Symbol P}
    {e : ScopeError Name} (h : (t.declareGlobal n s).answer = .error e) :
    (t.declareGlobal n s).table = t := by
  unfold declareGlobal at *
  split <;> simp_all

/-- What is refused changes nothing. -/
theorem table_leave_of_error {t : SymbolTable P} {e : ScopeError Name}
    (h : t.leave.answer = .error e) : t.leave.table = t := by
  unfold leave at *
  cases hs : t.scopes.leave with
  | error e => simp
  | ok left => simp [hs] at h

end SymbolTable
end ShaderSymbols
