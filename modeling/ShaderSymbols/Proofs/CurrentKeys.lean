import ShaderSymbols.Proofs.EventLog

/-!
# What the current scope itself declares

A front end that meets a declaration may ask first whether the current scope has the
name, in one of the namespaces that would clash.  What is declared further out does not
matter: it may be hidden.  The table answers without a look at the current frame.  It
compares the depth of the innermost entry of the name with the current depth, which is
right because no entry is deeper than the current scope and the deepest comes first.

The namespaces are asked about by a byte of flags, any of the 256.

## Main results

* `SymbolTable.declaresAny_eq_true_iff` — a set asks about its members one by one.
* `SymbolTable.Represents.depthOf?_eq_depth_iff_declared` — the innermost entry is at the
  current depth exactly if the current frame holds the key.
* `SymbolTable.declaresAny_iff_declared` — **the current frame decides, and nothing
  else.**
-/

namespace ShaderSymbols

variable {P : Namespace → Type}

namespace SymbolTable

/-! ### Sets of namespaces -/

/-- A set asks about its members one by one. -/
theorem declaresAny_eq_true_iff (t : SymbolTable P) (spaces : NamespaceSet) (n : Name) :
    t.declaresAny spaces n = true ↔
      ∃ ns, spaces.has ns = true ∧ t.depthOf? ns n = some t.depth := by
  simp only [declaresAny, List.any_eq_true, NamespaceSet.mem_members, decide_eq_true_eq]

/-- Sets with the same members ask the same. -/
theorem declaresAny_congr (t : SymbolTable P) {a b : NamespaceSet}
    (h : ∀ ns, a.has ns = b.has ns) (n : Name) : t.declaresAny a n = t.declaresAny b n := by
  rw [Bool.eq_iff_iff, declaresAny_eq_true_iff, declaresAny_eq_true_iff]
  simp only [h]

theorem declaresAny_union (t : SymbolTable P) (a b : NamespaceSet) (n : Name) :
    t.declaresAny (a.union b) n = (t.declaresAny a n || t.declaresAny b n) := by
  rw [Bool.eq_iff_iff, Bool.or_eq_true]
  simp only [declaresAny_eq_true_iff, NamespaceSet.has_union, Bool.or_eq_true, or_and_right,
    exists_or]

theorem declaresAny_single (t : SymbolTable P) (ns : Namespace) (n : Name) :
    t.declaresAny (.single ns) n = true ↔ t.depthOf? ns n = some t.depth := by
  rw [declaresAny_eq_true_iff]
  simp only [NamespaceSet.has_single, decide_eq_true_eq, exists_eq_left]

/-! ### The innermost entry -/

theorem depthOf?_eq_map_lookup (t : SymbolTable P) (ns : Namespace) (n : Name) :
    t.depthOf? ns n = (t.lookup ns n).map (·.depth) := by
  rw [depthOf?, lookup, Option.map_map]
  rfl

/-- The innermost entry of a key is at the current depth exactly if the current frame
holds the key. -/
theorem Represents.depthOf?_eq_depth_iff_declared {t : SymbolTable P} {b : BlockTable Name P}
    (h : Represents t b) (ns : Namespace) (n : Name) :
    t.depthOf? ns n = some t.depth ↔ ⟨ns, n⟩ ∈ t.scopes.current.declared := by
  rw [← ScopeStack.getLastD_declaredKeys]
  exact h.depthOf?_eq_depth_iff_mem ⟨ns, n⟩

/-- A declaration is refused for the innermost entry of its key and for nothing else. -/
theorem answer_declare_eq_error_iff (t : SymbolTable P) (n : Name) (s : Symbol P)
    (err : ScopeError Name) : (t.declare n s).answer = .error err ↔
      t.depthOf? s.space n = some t.depth ∧ err = .redeclared ⟨s.space, n⟩ t.depth := by
  unfold declare
  split
  · next hdepth => rw [Except.error.injEq, eq_comm, and_iff_right hdepth]
  · next hdepth => exact iff_of_false (fun herr => by cases herr) fun h => hdepth h.1

/-- **The current frame decides, and nothing else.**  In whatever state a table is, and
whatever byte a set of namespaces is given by, the table says that the current scope
declares a name exactly if the current frame holds the name in a namespace whose bit is
set.  A name that resolves to declarations of enclosing scopes only is not declared here.
Unknown bits do not matter, the answer for a union is yes if it is for a part, and to
leave the set out is to ask about all three namespaces.  And a declaration is refused,
with its key and the current depth, exactly if the answer for its namespace is yes. -/
theorem declaresAny_iff_declared {t : SymbolTable P} (ht : t.Reachable) (n : Name) :
    (∀ spaces : NamespaceSet, t.declaresAny spaces n = true ↔
      ∃ ns : Namespace, spaces.bits.toNat.testBit ns.index = true ∧
        ⟨ns, n⟩ ∈ t.scopes.current.declared) ∧
    (∀ spaces : NamespaceSet,
      (∀ ns e, spaces.has ns = true → t.lookup ns n = some e → e.depth < t.depth) →
        t.declaresAny spaces n = false) ∧
    (∀ b : UInt8, t.declaresAny ⟨b⟩ n = t.declaresAny (.truncate b) n) ∧
    (∀ a b : NamespaceSet, t.declaresAny (a.union b) n =
      (t.declaresAny a n || t.declaresAny b n)) ∧
    (t.declares n = t.declaresAny ⟨7⟩ n ∧
      (t.declares n = true ↔ ∃ ns, ⟨ns, n⟩ ∈ t.scopes.current.declared)) ∧
    ∀ (s : Symbol P) (err : ScopeError Name), (t.declare n s).answer = .error err ↔
      t.declaresAny (.single s.space) n = true ∧ err = .redeclared ⟨s.space, n⟩ t.depth := by
  obtain ⟨b, h⟩ := ht.exists_represents
  have hframe : ∀ spaces : NamespaceSet, t.declaresAny spaces n = true ↔
      ∃ ns : Namespace, spaces.has ns = true ∧ ⟨ns, n⟩ ∈ t.scopes.current.declared := by
    intro spaces
    simp only [declaresAny_eq_true_iff, h.depthOf?_eq_depth_iff_declared]
  refine ⟨fun spaces => ?_, fun spaces houter => ?_, fun b => ?_, ?_, ⟨rfl, ?_⟩, fun s err => ?_⟩
  · simp only [← NamespaceSet.has_eq_testBit]
    exact hframe spaces
  · rw [Bool.eq_false_iff, ne_eq, declaresAny_eq_true_iff]
    rintro ⟨ns, hns, hdepth⟩
    rw [depthOf?_eq_map_lookup, Option.map_eq_some_iff] at hdepth
    obtain ⟨e, he, hd⟩ := hdepth
    exact Nat.ne_of_lt (houter ns e hns he) hd
  · exact t.declaresAny_congr (fun ns => (NamespaceSet.has_truncate b ns).symm) n
  · exact fun a b => t.declaresAny_union a b n
  · rw [declares, hframe]
    simp only [NamespaceSet.has_all, true_and]
  · rw [declaresAny_single]
    exact t.answer_declare_eq_error_iff n s err

/-- A table whose current scope declares a type, under the name of a variable of the
outermost scope and of a function that was declared there late. -/
def screened : SymbolTable fun _ => Nat :=
  (new.run [.declare ⟨7⟩ ⟨.var, 1⟩, .enter, .declare ⟨7⟩ ⟨.type, 2⟩,
    .declareGlobal ⟨7⟩ ⟨.func, 3⟩]).table

/-- All three are visible, and only the type counts; unknown bits do not. -/
theorem declaresAny_iff_declared_screened :
    (screened.lookup .var ⟨7⟩).isSome ∧ (screened.lookup .func ⟨7⟩).isSome ∧
    screened.declaresAny ⟨0b11111101⟩ ⟨7⟩ = false ∧
    screened.declaresAny ⟨0b10000010⟩ ⟨7⟩ = true ∧
    screened.declaresAny ⟨0b11111000⟩ ⟨7⟩ = false ∧
    screened.declares ⟨7⟩ = true ∧
    (screened.declare ⟨7⟩ ⟨.type, 4⟩).answer = .error (.redeclared ⟨.type, ⟨7⟩⟩ 1) := by
  obtain ⟨hframe, houter, -, -, ⟨-, hall⟩, hrefused⟩ :=
    declaresAny_iff_declared (t := screened) ⟨_, rfl⟩ ⟨7⟩
  have htype : (⟨.type, ⟨7⟩⟩ : Key Name) ∈ screened.scopes.current.declared := by decide
  refine ⟨by decide, by decide, ?_, (hframe _).mpr ⟨.type, by decide, htype⟩, ?_,
    hall.mpr ⟨.type, htype⟩, (hrefused ⟨.type, 4⟩ _).mpr ⟨by decide, by decide⟩⟩
  · refine houter _ fun ns e hns he => ?_
    cases ns with
    | var =>
      cases he
      decide
    | type => exact absurd hns (by decide)
    | func =>
      cases he
      decide
  · refine houter _ fun ns e hns _ => absurd hns ?_
    cases ns <;> decide

end SymbolTable
end ShaderSymbols
