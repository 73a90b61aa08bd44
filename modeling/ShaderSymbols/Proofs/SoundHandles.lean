import Mathlib.Data.List.Induction
import ShaderSymbols.Proofs.Declaring
import ShaderSymbols.Proofs.FirstOccurrences

/-!
# Handles in a symbol table are sound

The interner, the declarations and the symbol table of a front end grow on their own, and
a refused name leaves its declaration behind.  Still, whatever handle the table shows was
given to an accepted declaration of the name it is shown for, and refers to that
declaration; and no handle is bound twice.

## Main definitions

* `SymbolTable.Shows t s` — some question about `t` is answered with the symbol `s`.
* `FrontEnd.Declared f rs i s id answer` — request `i` of `rs` declared the spelling `s`
  with the handle `id`, and the table answered `answer`.
* `FrontEnd.Sound f rs` — what holds of the handles after the requests `rs`.

## Main results

* `FrontEnd.Sound.quiet`, `FrontEnd.Sound.declares` — one more request keeps handles
  sound.
* `FrontEnd.sound_performAll` — handles are sound after any requests.
* `FrontEnd.handles_sound` — **no handle is dangling, shared, or left over from a refused
  declaration.**
-/

namespace ShaderSymbols

variable {P : Namespace → Type}

/-! ### What a table shows -/

namespace SymbolTable

/-- Some question about a table is answered with the symbol. -/
inductive Shows (t : SymbolTable P) : Symbol P → Prop
  /-- A name resolves to an entry with the symbol. -/
  | lookup {ns : Namespace} {n : Name} {e : Entry (Symbol P)} (h : t.lookup ns n = some e) :
      Shows t e.payload
  /-- A name resolves to the symbol. -/
  | resolve {ns : Namespace} {n : Name} {s : Symbol P} (h : t.resolve ns n = some s) :
      Shows t s
  /-- A name resolves to the payload of the symbol. -/
  | payload {ns : Namespace} {n : Name} {p : P ns} (h : t.payload? ns n = some p) :
      Shows t ⟨ns, p⟩
  /-- The symbol is declared in the current scope. -/
  | current {e : Entry (Symbol P)} (h : e ∈ t.currentEntries) : Shows t e.payload

theorem mem_entries_of_lookup {t : SymbolTable P} {ns : Namespace} {n : Name}
    {e : Entry (Symbol P)} (h : t.lookup ns n = some e) : e ∈ t.entries ⟨ns, n⟩ := by
  have hhead := t.lookup_eq_head?_entries ⟨ns, n⟩
  rw [h] at hhead
  exact List.mem_of_head? hhead.symm

/-- What a table shows is the payload of one of its entries. -/
theorem Shows.exists_mem_entries {t : SymbolTable P} {s : Symbol P} (h : t.Shows s) :
    ∃ k e, e ∈ t.entries k ∧ e.payload = s := by
  cases h with
  | lookup h => exact ⟨_, _, mem_entries_of_lookup h, rfl⟩
  | resolve h =>
    obtain ⟨e, he, rfl⟩ := Option.map_eq_some_iff.mp h
    exact ⟨_, e, mem_entries_of_lookup he, rfl⟩
  | @payload ns n p h =>
    obtain ⟨e, he, rfl⟩ := Option.map_eq_some_iff.mp h
    have hlookup : t.lookup ns n = some (e.map (Symbol.mk ns)) := by
      rw [SymbolTable.lookup, he, Option.map_some]
    exact ⟨_, _, mem_entries_of_lookup hlookup, rfl⟩
  | current h =>
    obtain ⟨k, -, hk⟩ := List.mem_filterMap.mp h
    obtain ⟨hlookup, -⟩ := Option.filter_eq_some_iff.mp hk
    exact ⟨k, _, mem_entries_of_lookup hlookup, rfl⟩

end SymbolTable

namespace FrontEnd

open SymbolTable (Shows)

/-! ### Declarations of a history -/

/-- Request `i` declared the spelling `s` with the handle `id`, and the table answered
`answer` to the binding of the name. -/
def Declared (f : FrontEnd) (rs : List FrontEndRequest) (i : Nat) (s : String) {ns : Namespace}
    (id : DeclId ns) (answer : Answer Name) : Prop :=
  ∃ target d, rs[i]? = some (.declare target s ns d) ∧
    (f.performAll (rs.take i)).reply (.declare target s ns d) = .declared ns (.ok (id, answer))

section Histories

variable {f : FrontEnd} {rs : List FrontEndRequest} {ns : Namespace} {id : DeclId ns}
  {i : Nat} {s s' : String} {answer answer' : Answer Name}

/-- What was declared stays so, whatever comes later. -/
theorem Declared.append (h : f.Declared rs i s id answer) (rs' : List FrontEndRequest) :
    f.Declared (rs ++ rs') i s id answer := by
  obtain ⟨target, d, hr, hreply⟩ := h
  have hi := (List.getElem?_eq_some_iff.mp hr).1
  refine ⟨target, d, ?_, ?_⟩
  · rw [List.getElem?_append_left hi]
    exact hr
  · rw [List.take_append_of_le_length (Nat.le_of_lt hi)]
    exact hreply

/-- A request declares one spelling, and is answered once. -/
theorem Declared.unique (h : f.Declared rs i s id answer) (h' : f.Declared rs i s' id answer') :
    s = s' ∧ answer = answer' := by
  obtain ⟨target, d, hr, hreply⟩ := h
  obtain ⟨target', d', hr', hreply'⟩ := h'
  cases hr.symm.trans hr'
  cases hreply.symm.trans hreply'
  exact ⟨rfl, rfl⟩

theorem not_declared_nil : ¬ f.Declared [] i s id answer := by
  rintro ⟨target, d, hr, -⟩
  cases hr

/-- With one more request, a declaration is one from before, or that request made it. -/
theorem declared_concat {r : FrontEndRequest} (h : f.Declared (rs ++ [r]) i s id answer) :
    f.Declared rs i s id answer ∨
      i = rs.length ∧ ∃ target d, r = .declare target s ns d ∧
        (f.performAll rs).reply r = .declared ns (.ok (id, answer)) := by
  obtain ⟨target, d, hr, hreply⟩ := h
  rcases Nat.lt_trichotomy i rs.length with hlt | rfl | hgt
  · rw [List.getElem?_append_left hlt] at hr
    rw [List.take_append_of_le_length (Nat.le_of_lt hlt)] at hreply
    exact .inl ⟨target, d, hr, hreply⟩
  · rw [List.getElem?_concat_length, Option.some_inj] at hr
    rw [List.take_left] at hreply
    subst hr
    exact .inr ⟨rfl, target, d, rfl, hreply⟩
  · rw [List.getElem?_eq_none (by rw [List.length_append, List.length_singleton]; omega)] at hr
    cases hr

end Histories

theorem Declares.declared {f : FrontEnd} {rs : List FrontEndRequest} {target : Target}
    {s : String} {ns : Namespace} {d : Decl ns} {id : DeclId ns} {n : Name}
    {answer : Answer Name} (h : (f.performAll rs).Declares target s ns d id n answer) :
    f.Declared (rs ++ [.declare target s ns d]) rs.length s id answer := by
  refine ⟨target, d, List.getElem?_concat_length, ?_⟩
  rw [List.take_left]
  exact h.reply

/-! ### Sound handles -/

/-- What holds of the handles after requests. -/
structure Sound (f : FrontEnd) (rs : List FrontEndRequest) : Prop where
  consistent : (f.performAll rs).names.Consistent
  reachable : (f.performAll rs).table.Reachable
  /-- A handle refers to a declaration, whose name is that of the declared spelling. -/
  named : ∀ {i s ns} {id : DeclId ns} {answer}, f.Declared rs i s id answer →
    id.isValid ∧ ∃ n, ((f.performAll rs).decls.names ns)[id.index]? = some n ∧
      (f.performAll rs).names.spelling n = .ok s
  /-- No two requests get the same handle. -/
  once : ∀ {i i' s s' ns} {id : DeclId ns} {answer answer'}, f.Declared rs i s id answer →
    f.Declared rs i' s' id answer' → i = i'
  /-- An entry is for a handle whose declaration was accepted, under the name that the
  declaration has. -/
  accepted : ∀ {k e}, e ∈ (f.performAll rs).table.entries k →
    ∃ id : DeclId k.space, e.payload = ⟨k.space, id⟩ ∧
      ((f.performAll rs).decls.names k.space)[id.index]? = some k.name ∧
      ∃ i s, f.Declared rs i s id (.ok ())
  /-- No two entries are for the same handle. -/
  apart : ∀ {k k' e e'}, e ∈ (f.performAll rs).table.entries k →
    e' ∈ (f.performAll rs).table.entries k' → e.payload = e'.payload → e = e'

namespace Sound

variable {f : FrontEnd} {rs : List FrontEndRequest}

/-- After one more request, a handle refers to a declaration of the same name. -/
theorem named_perform (h : f.Sound rs) (r : FrontEndRequest) {i : Nat} {s : String}
    {ns : Namespace} {id : DeclId ns} {answer : Answer Name}
    (hd : f.Declared rs i s id answer) :
    id.isValid ∧ ∃ n, (((f.performAll rs).perform r).decls.names ns)[id.index]? = some n ∧
      ((f.performAll rs).perform r).names.spelling n = .ok s := by
  obtain ⟨hvalid, n, hn, hspelling⟩ := h.named hd
  exact ⟨hvalid, n, getElem?_names_perform _ r hn, (extends_perform _ r).spelling hspelling⟩

/-- A request that declares nothing keeps handles sound. -/
theorem quiet (h : f.Sound rs) {r : FrontEndRequest} (hr : (f.performAll rs).Quiet r) :
    f.Sound (rs ++ [r]) := by
  have hdeclared : ∀ {i s ns} {id : DeclId ns} {answer},
      f.Declared (rs ++ [r]) i s id answer → f.Declared rs i s id answer := by
    intro i s ns id answer hd
    rcases declared_concat hd with hold | ⟨-, -, -, -, hreply⟩
    · exact hold
    · exact absurd hreply (hr.reply_ne ns _)
  have hlast : f.performAll (rs ++ [r]) = (f.performAll rs).perform r := performAll_append f rs [r]
  refine ⟨?_, ?_, ?_, ?_, ?_, ?_⟩
  · rw [hlast]
    exact consistent_perform h.consistent r
  · rw [hlast]
    exact reachable_perform _ h.reachable r
  · intro i s ns id answer hd
    rw [hlast]
    exact h.named_perform r (hdeclared hd)
  · intro i i' s s' ns id answer answer' hd hd'
    exact h.once (hdeclared hd) (hdeclared hd')
  · intro k e he
    rw [hlast] at he ⊢
    obtain ⟨id, hpayload, hname, i, s, hd⟩ := h.accepted (hr.mem_entries h.reachable he)
    exact ⟨id, hpayload, getElem?_names_perform _ r hname, i, s, hd.append [r]⟩
  · intro k k' e e' he he' hpayload
    rw [hlast] at he he'
    exact h.apart (hr.mem_entries h.reachable he) (hr.mem_entries h.reachable he') hpayload

/-- A handle that was given to a declaration is not given again. -/
theorem index_lt (h : f.Sound rs) {i : Nat} {s : String} {ns : Namespace} {id : DeclId ns}
    {answer : Answer Name} (hd : f.Declared rs i s id answer) :
    id.index < ((f.performAll rs).decls.names ns).length := by
  obtain ⟨-, n, hn, -⟩ := h.named hd
  exact (List.getElem?_eq_some_iff.mp hn).1

/-- An entry is not for a handle that is still to be given. -/
theorem payload_ne (h : f.Sound rs) {k : Key Name} {e : Entry (Symbol DeclId)}
    (he : e ∈ (f.performAll rs).table.entries k) {ns : Namespace} {id : DeclId ns}
    (hid : id.index = ((f.performAll rs).decls.names ns).length) : e.payload ≠ ⟨ns, id⟩ := by
  intro heq
  obtain ⟨id', hpayload, -, i, s, hd⟩ := h.accepted he
  have hlt := h.index_lt hd
  obtain ⟨space, n⟩ := k
  cases heq.symm.trans hpayload
  omega

/-- A new handle is not one that was given before. -/
theorem reply_ne (h : f.Sound rs) {target : Target} {s : String} {ns : Namespace} {d : Decl ns}
    {id : DeclId ns} {n : Name} {answer : Answer Name}
    (hr : (f.performAll rs).Declares target s ns d id n answer) {i : Nat} {s' : String}
    {ns' : Namespace} {id' : DeclId ns'} {answer' answer'' : Answer Name}
    (hd : f.Declared rs i s' id' answer') :
    (f.performAll rs).reply (.declare target s ns d) ≠ .declared ns' (.ok (id', answer'')) := by
  intro hreply
  cases hr.reply.symm.trans hreply
  have hlt := h.index_lt hd
  rw [hr.index_eq] at hlt
  exact Nat.lt_irrefl _ hlt

/-- A request that declares a spelling keeps handles sound. -/
theorem declares (h : f.Sound rs) {target : Target} {s : String} {ns : Namespace} {d : Decl ns}
    {id : DeclId ns} {n : Name} {answer : Answer Name}
    (hr : (f.performAll rs).Declares target s ns d id n answer) :
    f.Sound (rs ++ [.declare target s ns d]) := by
  have hlast : f.performAll (rs ++ [.declare target s ns d]) =
      (f.performAll rs).perform (.declare target s ns d) := performAll_append f rs _
  refine ⟨?_, ?_, ?_, ?_, ?_, ?_⟩
  · rw [hlast]
    exact consistent_perform h.consistent _
  · rw [hlast]
    exact reachable_perform _ h.reachable _
  · intro i s' ns' id' answer' hd
    rw [hlast]
    rcases declared_concat hd with hold | ⟨rfl, target', d', hrequest, hreply⟩
    · exact h.named_perform _ hold
    · cases hrequest
      cases hr.reply.symm.trans hreply
      exact ⟨hr.isValid, n, hr.getElem?_names_self, h.consistent.spelling_of_intern hr.names⟩
  · intro i i' s₁ s₂ ns' id' answer₁ answer₂ hd hd'
    -- the handle of the last request was not given before
    rcases declared_concat hd with hold | ⟨rfl, -, -, -, hreply⟩ <;>
      rcases declared_concat hd' with hold' | ⟨rfl, -, -, -, hreply'⟩
    · exact h.once hold hold'
    · exact absurd hreply' (h.reply_ne hr hold)
    · exact absurd hreply (h.reply_ne hr hold')
    · rfl
  · intro k e he
    rw [hlast] at he ⊢
    rcases hr.mem_entries h.reachable he with hold | ⟨rfl, hpayload, rfl, -⟩
    · obtain ⟨id', hpayload, hname, i, s', hd⟩ := h.accepted hold
      exact ⟨id', hpayload, getElem?_names_perform _ _ hname, i, s', hd.append _⟩
    · exact ⟨id, hpayload, hr.getElem?_names_self, rs.length, s, hr.declared⟩
  · intro k k' e e' he he' hpayload
    rw [hlast] at he he'
    rcases hr.mem_entries h.reachable he with hold | ⟨-, hnew, -, hmade⟩ <;>
      rcases hr.mem_entries h.reachable he' with hold' | ⟨-, hnew', -, hmade'⟩
    · exact h.apart hold hold' hpayload
    · exact absurd (hpayload.trans hnew') (h.payload_ne hold hr.index_eq)
    · exact absurd (hpayload.symm.trans hnew) (h.payload_ne hold' hr.index_eq)
    · exact Option.some.inj (hmade.symm.trans hmade')

end Sound

/-- **Handles are sound after any requests**, over any interner that can come about. -/
theorem sound_performAll {names : Interner} (hc : names.Consistent)
    (rs : List FrontEndRequest) : (onto names).Sound rs := by
  induction rs using List.reverseRecOn with
  | nil =>
    refine ⟨hc, .new, ?_, ?_, ?_, ?_⟩
    · intro i s ns id answer hd
      exact absurd hd not_declared_nil
    · intro i i' s s' ns id answer answer' hd
      exact absurd hd not_declared_nil
    · intro k e he
      rw [performAll_nil, onto, SymbolTable.entries, SymbolTable.shadows_new] at he
      cases he
    · intro k k' e e' he
      rw [performAll_nil, onto, SymbolTable.entries, SymbolTable.shadows_new] at he
      cases he
  | append_singleton rs r ih =>
    obtain hquiet | ⟨target, s, ns, d, id, n, answer, rfl, hdecl⟩ :=
      ((onto names).performAll rs).quiet_or_declares r
    · exact ih.quiet hquiet
    · exact ih.declares hdecl

/-! ### Requests that are served -/

/-- Whether there is room for one more spelling and for one more declaration of any kind. -/
structure Roomy (f : FrontEnd) : Prop where
  names : f.names.Roomy
  decls : ∀ ns, (f.decls.list ns).size < (DeclId.invalid : DeclId ns).index

/-- Room after a request is room before it. -/
theorem Roomy.of_perform {f : FrontEnd} {r : FrontEndRequest} (h : (f.perform r).Roomy) :
    f.Roomy where
  names := (extends_perform f r).roomy h.names
  decls := by
    intro ns
    refine Nat.lt_of_le_of_lt ?_ (h.decls ns)
    rw [← Declarations.length_names, ← Declarations.length_names]
    exact (f.names_prefix_perform r ns).length_le

theorem Roomy.of_performAll {f : FrontEnd} {rs : List FrontEndRequest}
    (h : (f.performAll rs).Roomy) : f.Roomy := by
  induction rs generalizing f with
  | nil => exact h
  | cons r rs ih => exact (ih h).of_perform

/-- While there is room, a request to declare a spelling gets a handle. -/
theorem Roomy.exists_declares {f : FrontEnd} (h : f.Roomy) (hc : f.names.Consistent)
    (target : Target) (s : String) (ns : Namespace) (d : Decl ns) :
    ∃ id n answer, f.Declares target s ns d id n answer := by
  obtain ⟨n, names, hintern, -, -⟩ := hc.exists_intern h.names s
  exact ⟨_, n, _, f.declares_of_alloc hintern (Declarations.alloc_of_lt (h.decls ns) _) target⟩

/-- In a history that leaves room, every request to declare a spelling got a handle. -/
theorem exists_declared {names : Interner} (hc : names.Consistent) {rs : List FrontEndRequest}
    (hroom : ((onto names).performAll rs).Roomy) {i : Nat} {target : Target} {s : String}
    {ns : Namespace} {d : Decl ns} (hr : rs[i]? = some (.declare target s ns d)) :
    ∃ id answer, (onto names).Declared rs i s (id : DeclId ns) answer := by
  have hsplit : (onto names).performAll rs =
      ((onto names).performAll (rs.take i)).performAll (rs.drop i) := by
    rw [← performAll_append, List.take_append_drop]
  rw [hsplit] at hroom
  have hnow := (sound_performAll hc (rs.take i)).consistent
  obtain ⟨id, n, answer, hdecl⟩ := hroom.of_performAll.exists_declares hnow target s ns d
  exact ⟨id, answer, target, d, hr, hdecl.reply⟩

/-! ### Handles -/

/-- A front end at the start of a unit.  Its interner may have been in use before. -/
def started (rs₀ : List InternRequest) : FrontEnd := onto (Interner.new.performAll rs₀)

theorem sound_started (rs₀ : List InternRequest) (rs : List FrontEndRequest) :
    (started rs₀).Sound rs :=
  sound_performAll (Interner.consistent_performAll rs₀) rs

namespace Sound

variable {f : FrontEnd} {rs : List FrontEndRequest}

/-- What a name resolves to is an accepted declaration of that name. -/
theorem of_lookup (h : f.Sound rs) {ns : Namespace} {n : Name} {e : Entry (Symbol DeclId)}
    (he : (f.performAll rs).table.lookup ns n = some e) :
    ∃ id : DeclId ns, e.payload = ⟨ns, id⟩ ∧ id.isValid ∧
      (∃ d, (f.performAll rs).decls.read id = .ok d ∧ d.name = n) ∧
      ∃ i s, f.Declared rs i s id (.ok ()) ∧ (f.performAll rs).names.spelling n = .ok s := by
  obtain ⟨id, hpayload, hname, i, s, hd⟩ := h.accepted (SymbolTable.mem_entries_of_lookup he)
  obtain ⟨hvalid, n', hname', hspelling⟩ := h.named hd
  obtain rfl : n = n' := Option.some.inj (hname.symm.trans hname')
  exact ⟨id, hpayload, hvalid, Declarations.exists_read_iff.mpr hname, i, s, hd, hspelling⟩

/-- Entries at two places are for two handles. -/
theorem eq_of_payload_eq (h : f.Sound rs) {ns : Namespace} {n n' : Name} {a b : Nat}
    {e e' : Entry (DeclId ns)} (he : ((f.performAll rs).table.shadows ns n)[a]? = some e)
    (he' : ((f.performAll rs).table.shadows ns n')[b]? = some e')
    (hpayload : e.payload = e'.payload) : n = n' ∧ a = b := by
  have htagged : ((f.performAll rs).table.entries ⟨ns, n⟩)[a]? =
      some (e.map (Symbol.mk ns)) := by
    rw [SymbolTable.entries, List.getElem?_map, he, Option.map_some]
  have htagged' : ((f.performAll rs).table.entries ⟨ns, n'⟩)[b]? =
      some (e'.map (Symbol.mk ns)) := by
    rw [SymbolTable.entries, List.getElem?_map, he', Option.map_some]
  have hmem := List.mem_of_getElem? htagged
  have hmem' := List.mem_of_getElem? htagged'
  have heq := h.apart hmem hmem' (congrArg (Symbol.mk ns) hpayload)
  -- the entries are equal, so they have one key and one depth
  have hkey : (⟨ns, n⟩ : Key Name) = ⟨ns, n'⟩ := by
    rw [← h.reachable.key_eq hmem, ← h.reachable.key_eq hmem', heq]
  cases hkey
  obtain ⟨c, hc⟩ := h.reachable.exists_represents
  have hnodup : ((f.performAll rs).table.entries ⟨ns, n⟩).Nodup := by
    refine (hc.pairwise_entries ⟨ns, n⟩).imp fun hlt hsame => ?_
    rw [hsame] at hlt
    exact Nat.lt_irrefl _ hlt
  have hlt := (List.getElem?_eq_some_iff.mp htagged).1
  exact ⟨rfl, (List.getElem?_inj hlt hnodup).mp (by rw [htagged, htagged', heq])⟩

/-- The handle of a refused declaration is not shown. -/
theorem not_shows (h : f.Sound rs) {i : Nat} {s : String} {ns : Namespace} {id : DeclId ns}
    {err : ScopeError Name} (hd : f.Declared rs i s id (.error err)) :
    ¬ (f.performAll rs).table.Shows ⟨ns, id⟩ := by
  intro hshows
  obtain ⟨k, e, he, hpayload⟩ := hshows.exists_mem_entries
  obtain ⟨id', hpayload', -, j, s', hd'⟩ := h.accepted he
  obtain ⟨space, n⟩ := k
  cases hpayload.symm.trans hpayload'
  -- one request was both accepted and refused
  obtain rfl := h.once hd hd'
  obtain ⟨-, hanswer⟩ := hd.unique hd'
  cases hanswer

end Sound

/-- **No handle is dangling, shared, or left over from a refused declaration.**  Say a
front end has served the requests `rs`.  A name resolves only to a valid handle of a
declaration that has this name, and the name is that of the spelling for which the handle
was given to an accepted declaration.  Two live entries of a namespace never have the
same handle.  The handle of a refused declaration is not shown by the table, then or
later.  And while there is room, every request to declare a spelling gets a handle. -/
theorem handles_sound (rs₀ : List InternRequest) (rs : List FrontEndRequest) :
    (∀ (ns : Namespace) (n : Name) (e : Entry (Symbol DeclId)),
      ((started rs₀).performAll rs).table.lookup ns n = some e →
      ∃ id : DeclId ns, e.payload = ⟨ns, id⟩ ∧ id.isValid ∧
        (∃ d, ((started rs₀).performAll rs).decls.read id = .ok d ∧ d.name = n) ∧
        ∃ i s, (started rs₀).Declared rs i s id (.ok ()) ∧
          ((started rs₀).performAll rs).names.spelling n = .ok s) ∧
    (∀ (ns : Namespace) (n n' : Name) (a b : Nat) (e e' : Entry (DeclId ns)),
      (((started rs₀).performAll rs).table.shadows ns n)[a]? = some e →
      (((started rs₀).performAll rs).table.shadows ns n')[b]? = some e' →
      e.payload = e'.payload → n = n' ∧ a = b) ∧
    (∀ (i : Nat) (s : String) (ns : Namespace) (id : DeclId ns) (err : ScopeError Name),
      (started rs₀).Declared rs i s id (.error err) →
      ∀ rs', ¬ ((started rs₀).performAll (rs ++ rs')).table.Shows ⟨ns, id⟩) ∧
    (((started rs₀).performAll rs).Roomy →
      ∀ (i : Nat) (target : Target) (s : String) (ns : Namespace) (d : Decl ns),
        rs[i]? = some (.declare target s ns d) →
        ∃ (id : DeclId ns) (answer : Answer Name), (started rs₀).Declared rs i s id answer) := by
  have h := sound_started rs₀ rs
  refine ⟨?_, ?_, ?_, ?_⟩
  · intro ns n e he
    exact h.of_lookup he
  · intro ns n n' a b e e' he he' hpayload
    exact h.eq_of_payload_eq he he' hpayload
  · intro i s ns id err hd rs'
    exact (sound_started rs₀ (rs ++ rs')).not_shows (hd.append rs')
  · intro hroom i target s ns d hr
    exact exists_declared (Interner.consistent_performAll rs₀) hroom hr

/-- A variable that hides a global one and is declared twice. -/
def shadowing : List FrontEndRequest :=
  [.declare .outermost "light" .var ⟨.empty, .invalid, .uniform⟩, .enter,
    .declare .current "light" .var ⟨.empty, .invalid, .auto⟩,
    .declare .current "light" .var ⟨.empty, .invalid, .temporary⟩]

theorem handles_sound_shadowing :
    ((started [.intern "dir"]).performAll shadowing).Roomy ∧
    (∃ (id : DeclId .var) (answer : Answer Name),
      (started [.intern "dir"]).Declared shadowing 0 "light" id answer) ∧
    (started [.intern "dir"]).Declared shadowing 3 "light" (⟨2⟩ : DeclId .var)
      (.error (.redeclared ⟨.var, ⟨0x60000000⟩⟩ 1)) ∧
    (∀ rs', ¬ ((started [.intern "dir"]).performAll (shadowing ++ rs')).table.Shows
      ⟨.var, (⟨2⟩ : DeclId .var)⟩) ∧
    ((started [.intern "dir"]).performAll shadowing).table.lookup .var ⟨0x60000000⟩ =
      some ⟨⟨0x60000000⟩, .var, ⟨.var, ⟨1⟩⟩, 1⟩ ∧
    ∃ i s, (started [.intern "dir"]).Declared shadowing i s (⟨1⟩ : DeclId .var) (.ok ()) ∧
      ((started [.intern "dir"]).performAll shadowing).names.spelling ⟨0x60000000⟩ = .ok s := by
  obtain ⟨hlookup, -, hrefused, hserved⟩ := handles_sound [.intern "dir"] shadowing
  have hroom : ((started [.intern "dir"]).performAll shadowing).Roomy := by
    refine ⟨?_, fun ns => ?_⟩
    · rw [Interner.Roomy]
      decide +kernel
    · cases ns <;> decide +kernel
  have hd : (started [.intern "dir"]).Declared shadowing 3 "light" (⟨2⟩ : DeclId .var)
      (.error (.redeclared ⟨.var, ⟨0x60000000⟩⟩ 1)) := by
    refine ⟨.current, ⟨.empty, .invalid, .temporary⟩, rfl, ?_⟩
    refine congrArg (FrontEndReply.declared .var) ?_
    decide +kernel
  have hlight : ((started [.intern "dir"]).performAll shadowing).table.lookup .var ⟨0x60000000⟩ =
      some ⟨⟨0x60000000⟩, .var, ⟨.var, ⟨1⟩⟩, 1⟩ := by
    decide +kernel
  refine ⟨hroom, hserved hroom 0 .outermost "light" .var _ rfl, hd,
    hrefused 3 "light" .var ⟨2⟩ _ hd, hlight, ?_⟩
  obtain ⟨id, hpayload, -, -, i, s, haccepted, hspelling⟩ := hlookup .var _ _ hlight
  cases hpayload
  exact ⟨i, s, haccepted, hspelling⟩

end FrontEnd
end ShaderSymbols
