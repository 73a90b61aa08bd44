import ShaderSymbols.FrontEnd
import ShaderSymbols.Proofs.Interning
import ShaderSymbols.Proofs.Lifetimes

/-!
# What a front end declares

A front end interns a spelling, adds a declaration under the name, and binds the name to
the handle it got.  A request to a front end either does all three, or it declares
nothing: then no declaration is added or renamed and the table makes no entry.

## Main definitions

* `Declarations.names` — the names of the declarations of a namespace, by position.
* `FrontEnd.Quiet`, `FrontEnd.Declares` — a request declares nothing, or a spelling.

## Main results

* `FrontEnd.quiet_or_declares` — **a request declares a spelling, or nothing.**
* `FrontEnd.Quiet.mem_entries`, `FrontEnd.Declares.mem_entries` — where the entries of
  the table come from.
-/

namespace ShaderSymbols

variable {P : Namespace → Type}

/-! ### The names of declarations -/

namespace Declarations

/-- The names of the declarations of a namespace, by position. -/
def names (a : Declarations) (ns : Namespace) : List Name := (a.list ns).toList.map Decl.name

theorem length_names (a : Declarations) (ns : Namespace) :
    (a.names ns).length = (a.list ns).size := by
  rw [names, List.length_map, Array.length_toList]

theorem names_push_self (a : Declarations) (ns : Namespace) (d : Decl ns) :
    (a.push ns d).names ns = a.names ns ++ [d.name] := by
  rw [names, list_push_self, Array.toList_push, List.map_append, names]
  rfl

theorem names_push_of_ne (a : Declarations) {ns ns' : Namespace} (d : Decl ns) (h : ns' ≠ ns) :
    (a.push ns d).names ns' = a.names ns' := by
  rw [names, list_push_of_ne a d h, names]

/-- A handle is read, and gives a declaration of a name, where the names have that name. -/
theorem exists_read_iff {a : Declarations} {ns : Namespace} {id : DeclId ns} {n : Name} :
    (∃ d, a.read id = .ok d ∧ d.name = n) ↔ (a.names ns)[id.index]? = some n := by
  simp only [read, fetch_eq_ok_iff, names, List.getElem?_map, Array.getElem?_toList,
    Option.map_eq_some_iff]

/-- More overloads do not change the names. -/
theorem names_setFunction (a : Declarations) {id : DeclId .func} {f f' : Function}
    (hf : a.read id = .ok f) (hname : f'.name = f.name) (ns : Namespace) :
    (a.setFunction id f').names ns = a.names ns := by
  by_cases hns : ns = .func
  · subst hns
    rw [read, fetch_eq_ok_iff] at hf
    refine List.ext_getElem? fun k => ?_
    simp only [names, List.getElem?_map, Array.getElem?_toList, list_setFunction_self]
    by_cases hk : id.index = k
    · subst hk
      rw [Array.getElem?_setIfInBounds_self_of_lt (Array.getElem?_eq_some_iff.mp hf).1, hf,
        Option.map_some, Option.map_some]
      exact congrArg some hname
    · rw [Array.getElem?_setIfInBounds_ne hk]
  · rw [names, list_setFunction_of_ne a id f' hns, names]

theorem names_of_addOverload {a a' : Declarations} {id : DeclId .func} {sig : Signature}
    {b : Bool} (h : a.addOverload id sig = .ok (b, a')) (ns : Namespace) :
    a'.names ns = a.names ns := by
  cases hf : a.read id with
  | error e =>
    rw [addOverload, hf] at h
    cases h
  | ok f =>
    rw [addOverload_of_read hf] at h
    cases h
    exact a.names_setFunction hf (Function.name_addOverload f sig) ns

/-- A new handle is valid, and counts the declarations before it. -/
theorem of_alloc {a a' : Declarations} {ns : Namespace} {d : Decl ns} {id : DeclId ns}
    (h : a.alloc ns d = .ok (id, a')) :
    a' = a.push ns d ∧ id.index = (a.names ns).length ∧ id.isValid := by
  rw [length_names]
  by_cases hlt : (a.list ns).size < (DeclId.invalid : DeclId ns).index
  · have hindex := index_ofNat_size hlt
    rw [alloc_of_lt hlt] at h
    cases h
    refine ⟨rfl, hindex, DeclId.isValid_iff_index_lt.mpr ?_⟩
    rw [hindex]
    exact hlt
  · rw [alloc_of_not_lt hlt] at h
    cases h

end Declarations

/-! ### The entries after one operation -/

namespace SymbolTable

/-- After an operation there are only entries from before, and the one that it made. -/
theorem mem_entries_step {t : SymbolTable P} (ht : t.Reachable) (a : Action Name P)
    {k : Key Name} {e : Entry (Symbol P)} (he : e ∈ (t.step a).table.entries k) :
    e ∈ t.entries k ∨
      (t.step a).answer.isOk ∧ a.made? t.depth = some e ∧ e.key = k := by
  obtain ⟨b, hb⟩ := ht.exists_represents
  obtain ⟨hanswer, hstep⟩ := hb.step a
  rw [hstep.entries_eq, b.mem_live_step] at he
  rw [hb.entries_eq, hb.depth, hanswer]
  rcases he with ⟨hmem, -⟩ | hmade
  · exact .inl hmem
  · exact .inr hmade

theorem Reachable.key_eq {t : SymbolTable P} (ht : t.Reachable) {k : Key Name}
    {e : Entry (Symbol P)} (he : e ∈ t.entries k) : e.key = k := by
  obtain ⟨b, hb⟩ := ht.exists_represents
  rw [hb.entries_eq] at he
  obtain ⟨-, hname, hspace⟩ := BlockTable.mem_live he
  rw [Entry.key, hname, hspace]

end SymbolTable

/-! ### What a request can do -/

theorem Target.of_made? {target : Target} {n : Name} {s : Symbol P} {depth : Nat}
    {e : Entry (Symbol P)} (h : (target.action n s).made? depth = some e) :
    e.payload = s ∧ e.key = ⟨s.space, n⟩ := by
  cases target <;> cases h <;> exact ⟨rfl, rfl⟩

namespace FrontEnd

/-- A request declares nothing. -/
structure Quiet (f : FrontEnd) (r : FrontEndRequest) : Prop where
  /-- The answer is not a new handle. -/
  reply_ne : ∀ ns x, f.reply r ≠ .declared ns (.ok x)
  /-- The interner is as it was, or has interned a spelling. -/
  names : (f.perform r).names = f.names ∨ ∃ s n, f.names.intern s = .ok (n, (f.perform r).names)
  /-- No declaration is added or renamed. -/
  decls : ∀ ns, (f.perform r).decls.names ns = f.decls.names ns
  /-- The table makes no entry. -/
  table : (f.perform r).table = f.table ∨
    ∃ a, (f.perform r).table = (f.table.step a).table ∧ ∀ depth, a.made? depth = none

/-- A request declares a spelling: the declaration comes last in its list, under the name
of the spelling, and the table is asked to bind the name to it. -/
structure Declares (f : FrontEnd) (target : Target) (s : String) (ns : Namespace) (d : Decl ns)
    (id : DeclId ns) (n : Name) (answer : Answer Name) : Prop where
  /-- The answer is the handle, and what the table says. -/
  reply : f.reply (.declare target s ns d) = .declared ns (.ok (id, answer))
  /-- The handle is the next one. -/
  index_eq : id.index = (f.decls.names ns).length
  isValid : id.isValid
  /-- The name is that of the spelling. -/
  names : f.names.intern s = .ok (n, (f.perform (.declare target s ns d)).names)
  /-- The declaration gets the name. -/
  decls : (f.perform (.declare target s ns d)).decls = f.decls.push ns (d.named n)
  /-- The table binds the name to the handle, if it can. -/
  table : (f.perform (.declare target s ns d)).table =
    (f.table.step (target.action n ⟨ns, id⟩)).table
  answer_eq : answer = (f.table.step (target.action n ⟨ns, id⟩)).answer

section Requests

variable (f : FrontEnd)

/-- Interning a spelling changes only the interner. -/
theorem exists_interned (s : String) :
    ∃ names, f.interned s = { f with names } ∧
      (names = f.names ∨ ∃ s n, f.names.intern s = .ok (n, names)) := by
  rw [interned, intern]
  cases hintern : f.names.intern s with
  | error e => exact ⟨f.names, rfl, .inl rfl⟩
  | ok p => exact ⟨p.2, rfl, .inr ⟨s, p.1, hintern⟩⟩

/-- A declaration that is interned and added is bound. -/
theorem declare_of_alloc {s : String} {n : Name} {names : Interner} {ns : Namespace}
    {d : Decl ns} {id : DeclId ns} {decls : Declarations}
    (hintern : f.names.intern s = .ok (n, names))
    (halloc : f.decls.alloc ns (d.named n) = .ok (id, decls)) (target : Target) :
    f.declare target s ns d =
      .ok ((id, (f.table.step (target.action n ⟨ns, id⟩)).answer),
        ⟨names, decls, (f.table.step (target.action n ⟨ns, id⟩)).table⟩) := by
  have hname : f.intern s = .ok (n, { f with names }) := by rw [intern, hintern]
  have hdecl : ({ f with names } : FrontEnd).alloc ns (d.named n) =
      .ok (id, { f with names, decls }) := by
    rw [alloc, halloc]
  rw [declare, hname]
  show FrontEnd.alloc { f with names } ns (d.named n) >>= _ = _
  rw [hdecl]
  cases target <;> rfl

/-- Declaring fails, or interns the spelling and adds the declaration. -/
theorem declare_cases (target : Target) (s : String) (ns : Namespace) (d : Decl ns) :
    (∃ e, f.declare target s ns d = .error e) ∨
    ∃ n names id decls, f.names.intern s = .ok (n, names) ∧
      f.decls.alloc ns (d.named n) = .ok (id, decls) := by
  cases hintern : f.names.intern s with
  | error e =>
    have hfail : f.intern s = .error (.interning e) := by rw [intern, hintern]
    exact .inl ⟨.interning e, by rw [declare, hfail]; rfl⟩
  | ok p =>
    obtain ⟨n, names⟩ := p
    cases halloc : f.decls.alloc ns (d.named n) with
    | ok q => exact .inr ⟨n, names, q.1, q.2, rfl, halloc⟩
    | error e =>
      have hname : f.intern s = .ok (n, { f with names }) := by rw [intern, hintern]
      have hfail : ({ f with names } : FrontEnd).alloc ns (d.named n) =
          .error (.allocating e) := by
        rw [alloc, halloc]
      refine .inl ⟨.allocating e, ?_⟩
      rw [declare, hname]
      show FrontEnd.alloc { f with names } ns (d.named n) >>= _ = _
      rw [hfail]
      rfl

theorem declares_of_alloc {s : String} {n : Name} {names : Interner} {ns : Namespace}
    {d : Decl ns} {id : DeclId ns} {decls : Declarations}
    (hintern : f.names.intern s = .ok (n, names))
    (halloc : f.decls.alloc ns (d.named n) = .ok (id, decls)) (target : Target) :
    f.Declares target s ns d id n (f.table.step (target.action n ⟨ns, id⟩)).answer := by
  have hdeclare := f.declare_of_alloc hintern halloc target
  obtain ⟨rfl, hindex, hvalid⟩ := Declarations.of_alloc halloc
  have hperform : f.perform (.declare target s ns d) =
      ⟨names, f.decls.push ns (d.named n),
        (f.table.step (target.action n ⟨ns, id⟩)).table⟩ := by
    rw [perform, hdeclare]
  refine ⟨by rw [reply, hdeclare]; rfl, hindex, hvalid, ?_, ?_, ?_, rfl⟩
  · rw [hperform]
    exact hintern
  · rw [hperform]
  · rw [hperform]

theorem quiet_of_perform {r : FrontEndRequest} {names : Interner} {decls : Declarations}
    (hreply : ∀ ns x, f.reply r ≠ .declared ns (.ok x))
    (hperform : f.perform r = ⟨names, decls, f.table⟩)
    (hnames : names = f.names ∨ ∃ s n, f.names.intern s = .ok (n, names))
    (hdecls : ∀ ns, decls.names ns = f.decls.names ns) : f.Quiet r := by
  refine ⟨hreply, ?_, ?_, .inl ?_⟩
  · rw [hperform]
    exact hnames
  · rw [hperform]
    exact hdecls
  · rw [hperform]

/-- **A request declares a spelling, or nothing.** -/
theorem quiet_or_declares (r : FrontEndRequest) :
    f.Quiet r ∨ ∃ target s ns d id n answer,
      r = .declare target s ns d ∧ f.Declares target s ns d id n answer := by
  cases r with
  | intern s =>
    obtain ⟨names, hinterned, hnames⟩ := f.exists_interned s
    exact .inl (f.quiet_of_perform nofun hinterned hnames fun _ => rfl)
  | enter => exact .inl ⟨nofun, .inl rfl, fun _ => rfl, .inr ⟨.enter, rfl, fun _ => rfl⟩⟩
  | leave => exact .inl ⟨nofun, .inl rfl, fun _ => rfl, .inr ⟨.leave, rfl, fun _ => rfl⟩⟩
  | addOverload id sig =>
    left
    cases hadd : f.decls.addOverload id sig with
    | error e =>
      have hsame : f.perform (.addOverload id sig) = f := by rw [perform, addOverload, hadd]
      exact f.quiet_of_perform nofun hsame (.inl rfl) fun _ => rfl
    | ok p =>
      have hdecls : f.perform (.addOverload id sig) = { f with decls := p.2 } := by
        rw [perform, addOverload, hadd]
      exact f.quiet_of_perform nofun hdecls (.inl rfl) (Declarations.names_of_addOverload hadd)
  | declare target s ns d =>
    rcases f.declare_cases target s ns d with ⟨e, hfail⟩ | ⟨n, names, id, decls, hintern, halloc⟩
    · obtain ⟨names, hinterned, hnames⟩ := f.exists_interned s
      have hperform : f.perform (.declare target s ns d) = { f with names } := by
        rw [perform, hfail]
        exact hinterned
      refine .inl (f.quiet_of_perform (fun ns' x h => ?_) hperform hnames fun _ => rfl)
      rw [reply, hfail] at h
      cases h
    · exact .inr ⟨target, s, ns, d, id, n, _, rfl, f.declares_of_alloc hintern halloc target⟩

theorem names_perform (r : FrontEndRequest) :
    (f.perform r).names = f.names ∨
      ∃ s n, f.names.intern s = .ok (n, (f.perform r).names) := by
  obtain hquiet | ⟨target, s, ns, d, id, n, answer, rfl, hdecl⟩ := f.quiet_or_declares r
  · exact hquiet.names
  · exact .inr ⟨s, n, hdecl.names⟩

theorem extends_perform (r : FrontEndRequest) : f.names.Extends (f.perform r).names := by
  rcases f.names_perform r with hsame | ⟨s, n, hintern⟩
  · rw [hsame]
    exact .refl _
  · exact Interner.extends_intern hintern

/-- Declarations stay where they are, under their names. -/
theorem names_prefix_perform (r : FrontEndRequest) (ns : Namespace) :
    f.decls.names ns <+: (f.perform r).decls.names ns := by
  obtain hquiet | ⟨target, s, ns', d, id, n, answer, rfl, hdecl⟩ := f.quiet_or_declares r
  · exact ⟨[], by rw [List.append_nil, hquiet.decls]⟩
  · rw [hdecl.decls]
    by_cases hns : ns = ns'
    · subst hns
      rw [Declarations.names_push_self]
      exact List.prefix_append _ _
    · exact ⟨[], by rw [List.append_nil, Declarations.names_push_of_ne _ _ hns]⟩

theorem getElem?_names_perform (r : FrontEndRequest) {ns : Namespace} {k : Nat} {n : Name}
    (hk : (f.decls.names ns)[k]? = some n) : ((f.perform r).decls.names ns)[k]? = some n := by
  obtain ⟨rest, hrest⟩ := f.names_prefix_perform r ns
  rw [← hrest, List.getElem?_append_left (List.getElem?_eq_some_iff.mp hk).1]
  exact hk

theorem reachable_perform (h : f.table.Reachable) (r : FrontEndRequest) :
    (f.perform r).table.Reachable := by
  obtain hquiet | ⟨target, s, ns, d, id, n, answer, rfl, hdecl⟩ := f.quiet_or_declares r
  · rcases hquiet.table with hsame | ⟨a, hstep, -⟩
    · rw [hsame]
      exact h
    · rw [hstep]
      exact h.step a
  · rw [hdecl.table]
    exact h.step _

end Requests

theorem consistent_perform {f : FrontEnd} (h : f.names.Consistent) (r : FrontEndRequest) :
    (f.perform r).names.Consistent := by
  rcases f.names_perform r with hsame | ⟨s, n, hintern⟩
  · rw [hsame]
    exact h
  · exact h.of_intern hintern

section Outcomes

variable {f : FrontEnd}

/-- A quiet request makes no entry. -/
theorem Quiet.mem_entries {r : FrontEndRequest} (h : f.Quiet r) (ht : f.table.Reachable)
    {k : Key Name} {e : Entry (Symbol DeclId)} (he : e ∈ (f.perform r).table.entries k) :
    e ∈ f.table.entries k := by
  rcases h.table with hsame | ⟨a, hstep, hnone⟩
  · rw [hsame] at he
    exact he
  · rw [hstep] at he
    rcases SymbolTable.mem_entries_step ht a he with hmem | ⟨-, hmade, -⟩
    · exact hmem
    · rw [hnone] at hmade
      cases hmade

namespace Declares

variable {target : Target} {s : String} {ns : Namespace} {d : Decl ns} {id : DeclId ns}
  {n : Name} {answer : Answer Name}

/-- The new declaration has the name. -/
theorem getElem?_names_self (h : f.Declares target s ns d id n answer) :
    ((f.perform (.declare target s ns d)).decls.names ns)[id.index]? = some n := by
  rw [h.decls, Declarations.names_push_self, h.index_eq, Decl.name_named]
  exact List.getElem?_concat_length

/-- The table has only entries from before, and one for the handle if it was accepted. -/
theorem mem_entries (h : f.Declares target s ns d id n answer) (ht : f.table.Reachable)
    {k : Key Name} {e : Entry (Symbol DeclId)}
    (he : e ∈ (f.perform (.declare target s ns d)).table.entries k) :
    e ∈ f.table.entries k ∨
      answer = .ok () ∧ e.payload = ⟨ns, id⟩ ∧ k = ⟨ns, n⟩ ∧
        (target.action n ⟨ns, id⟩).made? f.table.depth = some e := by
  rw [h.table] at he
  rcases SymbolTable.mem_entries_step ht _ he with hmem | ⟨hok, hmade, hkey⟩
  · exact .inl hmem
  · obtain ⟨hpayload, hspace⟩ := Target.of_made? hmade
    refine .inr ⟨?_, hpayload, by rw [← hkey, hspace], hmade⟩
    rw [← h.answer_eq] at hok
    cases answer with
    | ok u => rfl
    | error e => cases hok

end Declares
end Outcomes

end FrontEnd
end ShaderSymbols
