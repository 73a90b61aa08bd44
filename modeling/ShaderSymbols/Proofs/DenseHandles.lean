import ShaderSymbols.Declaration.Request

/-!
# Handles are dense and permanent

The declarations of a unit are kept in one list for each namespace, and a handle is a
position.  So the handle of a declaration counts the declarations of its namespace that
came before it, whatever was declared in the other namespaces.  Reading a handle gives
the declaration back at any later time; a function has gained the overloads that were
accepted for it, and nothing else.

## Main definitions

* `Decl.extend` — a declaration with more overloads.
* `Declarations.HasRoomFor` — no list grows too long on given requests.

## Main results

* `Declarations.perform_cases` — what a request can do.
* `Declarations.getElem?_list_performAll` — the lists after requests.
* `Declarations.handles_performAll` — **what the handles are, and what is read from
  them.**
-/

namespace ShaderSymbols

/-! ### More overloads -/

namespace Decl

/-- The same declaration with more overloads; only functions have overloads. -/
def extend : {ns : Namespace} → Decl ns → List Signature → Decl ns
  | .var, d, _ => d
  | .type, d, _ => d
  | .func, f, sigs => { f with overloads := f.overloads ++ sigs }

@[simp] theorem extend_nil {ns : Namespace} (d : Decl ns) : d.extend [] = d := by
  cases ns with
  | var => rfl
  | type => rfl
  | func => rw [extend, List.append_nil]

theorem extend_append {ns : Namespace} (d : Decl ns) (sigs sigs' : List Signature) :
    d.extend (sigs ++ sigs') = (d.extend sigs).extend sigs' := by
  cases ns with
  | var => rfl
  | type => rfl
  | func => rw [extend, extend, extend, List.append_assoc]

theorem extend_of_ne {ns : Namespace} (h : ns ≠ .func) (d : Decl ns) (sigs : List Signature) :
    d.extend sigs = d := by
  cases ns with
  | var => rfl
  | type => rfl
  | func => exact absurd rfl h

/-- An overload that is accepted comes last, and one that is not changes nothing. -/
theorem snd_addOverload (f : Decl .func) (sig : Signature) :
    (Function.addOverload f sig).2 =
      f.extend (if (Function.addOverload f sig).1 then [sig] else []) := by
  unfold Function.addOverload
  split
  · rw [if_neg Bool.false_ne_true, extend_nil]
  · rfl

end Decl

namespace Declarations

open DeclRequest (allocated)

/-! ### One request -/

/-- No list grows so long on the requests that its next handle would be invalid. -/
def HasRoomFor (a : Declarations) (rs : List DeclRequest) : Prop :=
  ∀ ns, (a.list ns).size + (allocated ns rs).length ≤ (DeclId.invalid : DeclId ns).index

/-- What a request can do. -/
theorem perform_cases {a : Declarations} {r : DeclRequest} (hroom : a.HasRoomFor [r]) :
    (∃ ns d, r = .alloc ns d ∧ (a.list ns).size < (DeclId.invalid : DeclId ns).index ∧
      a.reply r = .handle ns (.ok ⟨UInt32.ofNat (a.list ns).size⟩) ∧
      a.perform r = a.push ns d) ∨
    (∃ id sig f, r = .addOverload id sig ∧ (a.list .func)[id.index]? = some f ∧
      a.reply r = .added (.ok (Function.addOverload f sig).1) ∧
      a.perform r = a.setFunction id (Function.addOverload f sig).2) ∨
    (∃ id sig, r = .addOverload id sig ∧ (a.list .func).size ≤ id.index ∧
      a.reply r = .added (.error ⟨(a.list .func).size, id.index⟩) ∧ a.perform r = a) := by
  cases r with
  | alloc ns d =>
    have hlt : (a.list ns).size < (DeclId.invalid : DeclId ns).index := by
      have hns := hroom ns
      rw [DeclRequest.allocated_cons, DeclRequest.decl?_alloc_self] at hns
      exact hns
    refine .inl ⟨ns, d, rfl, hlt, ?_, ?_⟩
    · rw [reply, alloc_of_lt hlt]
      rfl
    · rw [perform, alloc_of_lt hlt]
      rfl
  | addOverload id sig =>
    cases hread : (a.list .func)[id.index]? with
    | some f =>
      have hadd := addOverload_of_read (fetch_eq_ok_iff.mpr hread) sig
      refine .inr (.inl ⟨id, sig, f, rfl, hread, ?_, ?_⟩)
      · rw [reply, hadd]
        rfl
      · rw [perform, hadd]
        rfl
    | none =>
      have hle := Array.getElem?_eq_none_iff.mp hread
      refine .inr (.inr ⟨id, sig, rfl, hle, ?_, ?_⟩)
      · rw [reply, addOverload_of_le hle]
        rfl
      · rw [perform, addOverload_of_le hle]
        rfl

/-- The declaration that a request brings comes last, and the overload that it adds goes
to its function. -/
theorem getElem?_list_perform {a : Declarations} {r : DeclRequest} (hroom : a.HasRoomFor [r])
    (ns : Namespace) (k : Nat) :
    ((a.perform r).list ns)[k]? =
      ((a.list ns).toList ++ (r.decl? ns).toList)[k]?.map
        (·.extend (a.added? k r).toList) := by
  obtain ⟨ns', d, rfl, -, hreply, hperform⟩ | ⟨id, sig, f, rfl, hf, hreply, hperform⟩ |
    ⟨id, sig, rfl, -, hreply, hperform⟩ := perform_cases hroom
  · have hadded : a.added? k (.alloc ns' d) = none := by
      rw [added?, DeclRequest.overload?, ite_self]
    rw [hperform, hadded, Option.toList_none]
    simp only [Decl.extend_nil, Option.map_id']
    by_cases hns : ns = ns'
    · subst hns
      rw [list_push_self, DeclRequest.decl?_alloc_self, Option.toList_some,
        ← Array.getElem?_toList, Array.toList_push]
    · rw [list_push_of_ne a d hns, DeclRequest.decl?_alloc_of_ne hns, Option.toList_none,
        List.append_nil, Array.getElem?_toList]
  · rw [hperform, DeclRequest.decl?_addOverload, Option.toList_none, List.append_nil,
      Array.getElem?_toList]
    by_cases hns : ns = .func
    · subst hns
      rw [list_setFunction_self, added?, hreply, DeclReply.accepts, DeclRequest.overload?]
      by_cases hk : id.index = k
      · -- this is the function that the overload is for
        subst hk
        rw [Array.getElem?_setIfInBounds_self_of_lt (Array.getElem?_eq_some_iff.mp hf).1, hf,
          if_pos rfl, Option.map_some, Decl.snd_addOverload]
        split <;> rfl
      · rw [Array.getElem?_setIfInBounds_ne hk, if_neg hk, ite_self, Option.toList_none]
        simp only [Decl.extend_nil, Option.map_id']
    · rw [list_setFunction_of_ne a id _ hns]
      simp only [Decl.extend_of_ne hns, Option.map_id']
  · rw [hperform, added?, hreply, DeclReply.accepts, if_neg Bool.false_ne_true]
    simp

/-- A list grows by the declaration that a request brings. -/
theorem size_list_perform {a : Declarations} {r : DeclRequest} (hroom : a.HasRoomFor [r])
    (ns : Namespace) :
    ((a.perform r).list ns).size = (a.list ns).size + (r.decl? ns).toList.length := by
  obtain ⟨ns', d, rfl, -, -, hperform⟩ | ⟨id, sig, f, rfl, -, -, hperform⟩ |
    ⟨id, sig, rfl, -, -, hperform⟩ := perform_cases hroom
  · rw [hperform]
    by_cases hns : ns = ns'
    · subst hns
      rw [list_push_self, Array.size_push, DeclRequest.decl?_alloc_self]
      rfl
    · rw [list_push_of_ne a d hns, DeclRequest.decl?_alloc_of_ne hns]
      rfl
  · rw [hperform, DeclRequest.decl?_addOverload]
    by_cases hns : ns = .func
    · subst hns
      rw [list_setFunction_self, Array.size_setIfInBounds]
      rfl
    · rw [list_setFunction_of_ne a id _ hns]
      rfl
  · rw [hperform, DeclRequest.decl?_addOverload]
    rfl

/-- The number of all declarations grows by one exactly on a request that brings one. -/
theorem size_perform {a : Declarations} {r : DeclRequest} (hroom : a.HasRoomFor [r]) :
    (a.perform r).size = a.size + [r].countP DeclRequest.isAlloc := by
  obtain ⟨ns, d, rfl, -, -, hperform⟩ | ⟨id, sig, f, rfl, -, -, hperform⟩ |
    ⟨id, sig, rfl, -, -, hperform⟩ := perform_cases hroom
  · rw [hperform, size_push]
    rfl
  · rw [hperform, size_setFunction]
    rfl
  · rw [hperform]
    rfl

/-- An overload is added only to a function that is there. -/
theorem added?_eq_none_of_le {a : Declarations} {k : Nat} (h : (a.list .func).size ≤ k)
    (r : DeclRequest) : a.added? k r = none := by
  cases r with
  | alloc ns d => rw [added?, DeclRequest.overload?, ite_self]
  | addOverload id sig =>
    rw [added?, DeclRequest.overload?]
    by_cases hk : id.index = k
    · subst hk
      rw [reply, addOverload_of_le h]
      rfl
    · rw [if_neg hk, ite_self]

/-- A request adds nothing to a declaration that is not there yet. -/
theorem extend_added?_of_le {a : Declarations} {ns : Namespace} {k : Nat}
    (h : (a.list ns).size ≤ k) (r : DeclRequest) (d : Decl ns) :
    d.extend (a.added? k r).toList = d := by
  by_cases hns : ns = .func
  · subst hns
    rw [added?_eq_none_of_le h, Option.toList_none, Decl.extend_nil]
  · rw [Decl.extend_of_ne hns]

/-! ### A list of requests -/

namespace HasRoomFor

variable {a : Declarations} {r : DeclRequest} {rs : List DeclRequest}

theorem head (h : a.HasRoomFor (r :: rs)) : a.HasRoomFor [r] := by
  intro ns
  have hns := h ns
  simp only [DeclRequest.allocated_cons, DeclRequest.allocated_nil, List.length_append,
    List.length_nil] at hns ⊢
  omega

theorem tail (h : a.HasRoomFor (r :: rs)) : (a.perform r).HasRoomFor rs := by
  intro ns
  have hns := h ns
  rw [size_list_perform h.head]
  rw [DeclRequest.allocated_cons, List.length_append] at hns
  omega

theorem take (h : a.HasRoomFor rs) (i : Nat) : a.HasRoomFor (rs.take i) := by
  intro ns
  have hns := h ns
  rw [← List.take_append_drop i rs, DeclRequest.allocated_append, List.length_append] at hns
  omega

end HasRoomFor

theorem size_list_performAll : ∀ (rs : List DeclRequest) {a : Declarations}, a.HasRoomFor rs →
    ∀ ns, ((a.performAll rs).list ns).size = (a.list ns).size + (allocated ns rs).length := by
  intro rs
  induction rs with
  | nil => intro a _ ns; rfl
  | cons r rs ih =>
    intro a hroom ns
    rw [performAll_cons, ih hroom.tail, size_list_perform hroom.head,
      DeclRequest.allocated_cons, List.length_append, Nat.add_assoc]

theorem size_performAll : ∀ (rs : List DeclRequest) {a : Declarations}, a.HasRoomFor rs →
    (a.performAll rs).size = a.size + rs.countP DeclRequest.isAlloc := by
  intro rs
  induction rs with
  | nil => intro a _; rfl
  | cons r rs ih =>
    intro a hroom
    have happend : r :: rs = [r] ++ rs := rfl
    rw [performAll_cons, ih hroom.tail, size_perform hroom.head, happend, List.countP_append,
      Nat.add_assoc]

/-- **The lists after requests** hold the declarations of the requests in order, and each
function has gained the overloads that were accepted for it. -/
theorem getElem?_list_performAll : ∀ (rs : List DeclRequest) {a : Declarations},
    a.HasRoomFor rs → ∀ (ns : Namespace) (k : Nat),
    ((a.performAll rs).list ns)[k]? =
      ((a.list ns).toList ++ allocated ns rs)[k]?.map (·.extend (a.accepted k rs)) := by
  intro rs
  induction rs with
  | nil =>
    intro a _ ns k
    simp
  | cons r rs ih =>
    intro a hroom ns k
    -- the lists change under way, hence they are general in the induction
    rw [performAll_cons, ih hroom.tail, DeclRequest.allocated_cons, accepted_cons,
      ← List.append_assoc]
    have hlength : ((a.perform r).list ns).toList.length =
        ((a.list ns).toList ++ (r.decl? ns).toList).length := by
      simp only [Array.length_toList, List.length_append, size_list_perform hroom.head]
    by_cases hk : k < ((a.list ns).toList ++ (r.decl? ns).toList).length
    · rw [List.getElem?_append_left (by omega), List.getElem?_append_left hk,
        Array.getElem?_toList, getElem?_list_perform hroom.head, Option.map_map]
      simp only [Function.comp_def, Decl.extend_append]
    · -- the declaration is brought by a later request
      have hnow : (a.list ns).size ≤ k := by
        rw [List.length_append, Array.length_toList] at hk
        omega
      rw [List.getElem?_append_right (by omega), List.getElem?_append_right (by omega), hlength]
      simp only [Decl.extend_append, extend_added?_of_le hnow]

/-! ### The declarations of a unit from the start -/

section FromEmpty

variable {rs : List DeclRequest}

theorem hasRoomFor_empty_iff : empty.HasRoomFor rs ↔
    ∀ ns, (allocated ns rs).length ≤ (DeclId.invalid : DeclId ns).index := by
  simp only [HasRoomFor, list_empty, List.size_toArray, List.length_nil, Nat.zero_add]

theorem size_list_performAll_empty (hroom : empty.HasRoomFor rs) (ns : Namespace) :
    ((empty.performAll rs).list ns).size = (allocated ns rs).length := by
  rw [size_list_performAll rs hroom, list_empty, List.size_toArray, List.length_nil,
    Nat.zero_add]

/-- The declaration that a request brings comes after those of the requests before. -/
theorem getElem?_allocated {i : Nat} {ns : Namespace} {d : Decl ns}
    (hr : rs[i]? = some (.alloc ns d)) :
    (allocated ns rs)[(allocated ns (rs.take i)).length]? = some d := by
  obtain ⟨hi, hget⟩ := List.getElem?_eq_some_iff.mp hr
  have hsplit : rs.take i ++ rs[i] :: rs.drop (i + 1) = rs := by
    rw [← List.drop_eq_getElem_cons hi, List.take_append_drop]
  have hallocated : allocated ns (rs.take i ++ rs[i] :: rs.drop (i + 1)) =
      allocated ns (rs.take i) ++ d :: allocated ns (rs.drop (i + 1)) := by
    rw [DeclRequest.allocated_append, DeclRequest.allocated_cons, hget,
      DeclRequest.decl?_alloc_self]
    rfl
  rw [hsplit] at hallocated
  rw [hallocated, List.getElem?_append_right (Nat.le_refl _), Nat.sub_self,
    List.getElem?_cons_zero]

/-- A declaration gets the next handle, and is read back from it with the overloads that
were accepted. -/
theorem exists_handle (hroom : empty.HasRoomFor rs) {i : Nat} {ns : Namespace} {d : Decl ns}
    (hr : rs[i]? = some (.alloc ns d)) :
    ∃ id : DeclId ns,
      (empty.performAll (rs.take i)).reply (.alloc ns d) = .handle ns (.ok id) ∧
      id.index = (allocated ns (rs.take i)).length ∧ id ≠ .invalid ∧
      (empty.performAll rs).read id = .ok (d.extend (empty.accepted id.index rs)) := by
  have hget := getElem?_allocated hr
  have hsize := size_list_performAll_empty (hroom.take i) ns
  have hlt : ((empty.performAll (rs.take i)).list ns).size <
      (DeclId.invalid : DeclId ns).index := by
    have hmax := hasRoomFor_empty_iff.mp hroom ns
    have hbound := (List.getElem?_eq_some_iff.mp hget).1
    omega
  have hindex := index_ofNat_size hlt
  refine ⟨_, by rw [reply, alloc_of_lt hlt]; rfl, hindex.trans hsize, ?_, ?_⟩
  · intro heq
    rw [← heq, hindex] at hlt
    exact Nat.lt_irrefl _ hlt
  · rw [read, fetch_eq_ok_iff, getElem?_list_performAll rs hroom, list_empty, List.nil_append,
      hindex, hsize, hget, Option.map_some]

/-- Reading succeeds below the number of declarations, and fails from there on. -/
theorem read_performAll (hroom : empty.HasRoomFor rs) {ns : Namespace} (id : DeclId ns) :
    ((∃ d, (empty.performAll rs).read id = .ok d) ↔ id.index < (allocated ns rs).length) ∧
      ((allocated ns rs).length ≤ id.index →
        (empty.performAll rs).read id = .error ⟨(allocated ns rs).length, id.index⟩) := by
  have hsize := size_list_performAll_empty hroom ns
  rw [read, ← hsize]
  refine ⟨?_, fun hle => fetch_eq_error_iff.mpr ⟨hle, rfl⟩⟩
  simp only [fetch_eq_ok_iff, Array.getElem?_eq_some_iff]
  constructor
  · rintro ⟨_, hlt, -⟩
    exact hlt
  · intro hlt
    exact ⟨_, hlt, rfl⟩

/-- A declared function answers a request for one more overload; a handle past the end is
refused, which changes nothing. -/
theorem reply_addOverload_performAll (hroom : empty.HasRoomFor rs) (id : DeclId .func)
    (sig : Signature) :
    ((∃ b, (empty.performAll rs).reply (.addOverload id sig) = .added (.ok b)) ↔
        id.index < (allocated .func rs).length) ∧
      ((allocated .func rs).length ≤ id.index →
        (empty.performAll rs).reply (.addOverload id sig) =
          .added (.error ⟨(allocated .func rs).length, id.index⟩) ∧
        (empty.performAll rs).perform (.addOverload id sig) = empty.performAll rs) := by
  have hsize := size_list_performAll_empty hroom .func
  obtain ⟨hread, -⟩ := read_performAll hroom id
  have hpast : (allocated .func rs).length ≤ id.index →
      (empty.performAll rs).addOverload id sig =
        .error ⟨(allocated .func rs).length, id.index⟩ := by
    intro hle
    rw [← hsize] at hle ⊢
    exact addOverload_of_le hle sig
  refine ⟨⟨?_, ?_⟩, fun hle => ?_⟩
  · rintro ⟨b, hb⟩
    refine Nat.lt_of_not_le fun hle => ?_
    rw [reply, hpast hle] at hb
    cases hb
  · intro hlt
    obtain ⟨f, hf⟩ := hread.mpr hlt
    exact ⟨_, by rw [reply, addOverload_of_read hf]; rfl⟩
  · rw [reply, perform, hpast hle]
    exact ⟨rfl, rfl⟩

end FromEmpty

/-- **Handles are dense, permanent and apart for each namespace.**  Say requests `rs` were
served from the start, and no namespace got more declarations than there are handles.
The handle of a declaration counts the declarations of its namespace before it, and is
valid.  A variable or a type is read back unchanged; a function has gained exactly the
overloads that were accepted for it, in order.  Reading and adding an overload succeed
exactly below the number of declarations, and a failure changes nothing. -/
theorem handles_performAll (rs : List DeclRequest)
    (hroom : ∀ ns, (allocated ns rs).length ≤ (DeclId.invalid : DeclId ns).index) :
    (∀ (i : Nat) (ns : Namespace) (d : Decl ns), rs[i]? = some (.alloc ns d) →
      ∃ id : DeclId ns,
        (empty.performAll (rs.take i)).reply (.alloc ns d) = .handle ns (.ok id) ∧
        id.index = (allocated ns (rs.take i)).length ∧ id ≠ .invalid ∧
        (ns ≠ .func → (empty.performAll rs).read id = .ok d)) ∧
    (∀ (i : Nat) (f : Function), rs[i]? = some (.alloc .func f) →
      ∃ id : DeclId .func,
        (empty.performAll (rs.take i)).reply (.alloc .func f) = .handle .func (.ok id) ∧
        (empty.performAll rs).read id =
          .ok (⟨f.name, f.overloads ++ empty.accepted id.index rs⟩ : Function)) ∧
    (∀ (ns : Namespace) (id : DeclId ns),
      ((∃ d, (empty.performAll rs).read id = .ok d) ↔ id.index < (allocated ns rs).length) ∧
      ((allocated ns rs).length ≤ id.index →
        (empty.performAll rs).read id = .error ⟨(allocated ns rs).length, id.index⟩)) ∧
    (∀ ns, ∃ e, (empty.performAll rs).read (.invalid : DeclId ns) = .error e) ∧
    (∀ (id : DeclId .func) (sig : Signature),
      ((∃ b, (empty.performAll rs).reply (.addOverload id sig) = .added (.ok b)) ↔
        id.index < (allocated .func rs).length) ∧
      ((allocated .func rs).length ≤ id.index →
        (empty.performAll rs).reply (.addOverload id sig) =
          .added (.error ⟨(allocated .func rs).length, id.index⟩) ∧
        (empty.performAll rs).perform (.addOverload id sig) = empty.performAll rs)) ∧
    (empty.performAll rs).size = rs.countP DeclRequest.isAlloc := by
  have hroom' : empty.HasRoomFor rs := hasRoomFor_empty_iff.mpr hroom
  refine ⟨?_, ?_, fun ns id => read_performAll hroom' id, ?_,
    reply_addOverload_performAll hroom', ?_⟩
  · intro i ns d hr
    obtain ⟨id, hreply, hindex, hvalid, hread⟩ := exists_handle hroom' hr
    refine ⟨id, hreply, hindex, hvalid, fun hns => ?_⟩
    rw [hread, Decl.extend_of_ne hns]
  · intro i f hr
    obtain ⟨id, hreply, -, -, hread⟩ := exists_handle hroom' hr
    exact ⟨id, hreply, hread⟩
  · intro ns
    exact ⟨_, (read_performAll hroom' .invalid).2 (hroom ns)⟩
  · rw [size_performAll rs hroom']
    exact Nat.zero_add _

/-- A unit with two functions.  The third overload has the parameters of the first, and
the last one is for a function that is not there. -/
def mixed : List DeclRequest :=
  [.alloc .type (.scalar ⟨1⟩ .float), .alloc .func (.new ⟨2⟩), .addOverload ⟨0⟩ ⟨⟨0⟩, [⟨0⟩]⟩,
    .alloc .func (.new ⟨3⟩), .addOverload ⟨1⟩ ⟨⟨0⟩, []⟩, .addOverload ⟨0⟩ ⟨⟨4⟩, [⟨0⟩]⟩,
    .alloc .var ⟨⟨5⟩, ⟨0⟩, .auto⟩, .addOverload ⟨7⟩ ⟨⟨0⟩, []⟩]

theorem handles_performAll_mixed :
    (∀ ns, (allocated ns mixed).length ≤ (DeclId.invalid : DeclId ns).index) ∧
    (empty.performAll mixed).read (⟨0⟩ : DeclId .type) = .ok (.scalar ⟨1⟩ .float) ∧
    (empty.performAll mixed).read (⟨0⟩ : DeclId .func) = .ok ⟨⟨2⟩, [⟨⟨0⟩, [⟨0⟩]⟩]⟩ ∧
    (empty.performAll mixed).read (⟨1⟩ : DeclId .func) = .ok ⟨⟨3⟩, [⟨⟨0⟩, []⟩]⟩ ∧
    (empty.performAll mixed).read (⟨2⟩ : DeclId .func) = .error ⟨2, 2⟩ ∧
    (empty.performAll mixed).size = 4 := by
  have hroom : ∀ ns, (allocated ns mixed).length ≤ (DeclId.invalid : DeclId ns).index := by
    intro ns
    cases ns <;> decide
  obtain ⟨hdecl, hfunc, hread, -, -, hsize⟩ := handles_performAll mixed hroom
  obtain ⟨float, hfloat, -, -, hreadFloat⟩ := hdecl 0 .type _ rfl
  obtain ⟨f, hf, hreadF⟩ := hfunc 1 _ rfl
  obtain ⟨g, hg, hreadG⟩ := hfunc 3 _ rfl
  cases hfloat
  cases hf
  cases hg
  exact ⟨hroom, hreadFloat (by decide), hreadF, hreadG, (hread .func ⟨2⟩).2 (by decide), hsize⟩

end Declarations
end ShaderSymbols
