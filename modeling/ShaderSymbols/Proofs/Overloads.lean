import Mathlib.Data.List.Induction
import Mathlib.Data.List.Nodup
import ShaderSymbols.Proofs.DenseHandles

/-!
# The overloads of a function

A function keeps its overloads in a list and looks them up by their parameters.  An
overload is added unless there is one with the same parameters already, so the list is a
map from parameters to overloads, in the order of insertion, and what was there first
stays.  Which overloads these are can be said without the function: of all that were
brought, those whose parameters no earlier one had.

Inside the declarations of a unit nothing changes.  Other declarations and the overloads of
other functions come and go between the calls, and a function ends up as if it had stood
alone.

## Main definitions

* `Signature.firsts` — the signatures whose parameters no earlier one has.
* `Function.addAll` — adds several overloads.
* `Function.FirstWins f sigs` — `f` is a map of the overloads `sigs`, and the first one
  with given parameters wins.
* `DeclRequest.overloads` — the overloads that requests bring for one function.

## Main results

* `Signature.firsts_concat`, `Signature.find?_firsts` — one more signature, and what is
  found among the first ones.
* `Function.overloads_addOverload`, `Function.overloads_addAll` — the overloads after one
  call, and after several.
* `Declarations.read_perform_of_ok`, `Declarations.read_performAll_of_ok` — **a function
  among other declarations is what it would be alone.**
* `Function.addAll_firstWins` — **the overloads are a map in the order of insertion, and
  the first one wins.**
-/

namespace ShaderSymbols

/-! ### The first of each -/

namespace Signature

/-- The signatures whose parameters no earlier one has, in order. -/
def firsts (sigs : List Signature) : List Signature :=
  (List.range sigs.length).filterMap fun i =>
    sigs[i]?.filter fun sig => sig.params ∉ (sigs.take i).map (·.params)

@[simp] theorem firsts_nil : firsts [] = [] := rfl

/-- One more signature is a first one exactly if its parameters are new. -/
theorem firsts_concat (sigs : List Signature) (sig : Signature) :
    firsts (sigs ++ [sig]) =
      firsts sigs ++ if sig.params ∈ sigs.map (·.params) then [] else [sig] := by
  have hbefore : (List.range sigs.length).filterMap (fun i => (sigs ++ [sig])[i]?.filter
      fun s => s.params ∉ ((sigs ++ [sig]).take i).map (·.params)) = firsts sigs := by
    refine List.filterMap_congr fun i hi => ?_
    rw [List.mem_range] at hi
    rw [List.getElem?_append_left hi, List.take_append_of_le_length (Nat.le_of_lt hi)]
  have hlast : (sigs ++ [sig])[sigs.length]? = some sig := by
    rw [List.getElem?_append_right (Nat.le_refl _), Nat.sub_self, List.getElem?_cons_zero]
  rw [firsts, List.length_append, List.length_singleton, List.range_succ, List.filterMap_append,
    hbefore]
  refine congrArg (firsts sigs ++ ·) ?_
  split
  · next hmem => exact List.filterMap_cons_none (by simpa [hlast] using hmem)
  · next hnew => exact List.filterMap_cons_some (by simpa [hlast] using hnew)

/-- Among the first signatures the same is found as among all. -/
theorem find?_firsts (sigs : List Signature) (params : List (DeclId .type)) :
    (firsts sigs).find? (·.params = params) = sigs.find? (·.params = params) := by
  induction sigs using List.reverseRecOn with
  | nil => rfl
  | append_singleton sigs sig ih =>
    rw [firsts_concat, List.find?_append, List.find?_append, ih]
    split
    · next hmem =>
      -- the new signature is not found, for an earlier one with its parameters is
      by_cases hp : sig.params = params
      · subst hp
        obtain ⟨earlier, hearlier, hsame⟩ := List.mem_map.mp hmem
        have hfound : (sigs.find? (·.params = sig.params)).isSome = true :=
          List.find?_isSome.mpr ⟨earlier, hearlier, decide_eq_true hsame⟩
        obtain ⟨s, hs⟩ := Option.isSome_iff_exists.mp hfound
        rw [hs]
        rfl
      · rw [List.find?_cons_of_neg (by simpa using hp)]
    · rfl

theorem mem_params_firsts {sigs : List Signature} {params : List (DeclId .type)} :
    params ∈ (firsts sigs).map (·.params) ↔ params ∈ sigs.map (·.params) := by
  have hfound := congrArg Option.isSome (find?_firsts sigs params)
  rw [Bool.eq_iff_iff, List.find?_isSome, List.find?_isSome] at hfound
  simpa using hfound

/-- No two of the first signatures have the same parameters. -/
theorem nodup_params_firsts (sigs : List Signature) : ((firsts sigs).map (·.params)).Nodup := by
  induction sigs using List.reverseRecOn with
  | nil => exact .nil
  | append_singleton sigs sig ih =>
    rw [firsts_concat]
    split
    · rwa [List.append_nil]
    · next hnew =>
      rw [List.map_append, List.map_singleton, ← List.concat_eq_append, List.nodup_concat]
      exact ⟨fun hmem => hnew (mem_params_firsts.mp hmem), ih⟩

end Signature

/-! ### A function alone -/

namespace Function

/-- Adds overloads in order; the answers are in the same order. -/
def addAll (f : Function) : List Signature → List Bool × Function
  | [] => ([], f)
  | sig :: sigs =>
    let (answers, f') := (f.addOverload sig).2.addAll sigs
    ((f.addOverload sig).1 :: answers, f')

@[simp] theorem addAll_nil (f : Function) : f.addAll [] = ([], f) := rfl

@[simp] theorem addAll_cons (f : Function) (sig : Signature) (sigs : List Signature) :
    f.addAll (sig :: sigs) = ((f.addOverload sig).1 :: ((f.addOverload sig).2.addAll sigs).1,
      ((f.addOverload sig).2.addAll sigs).2) := rfl

theorem snd_addAll_append (f : Function) (sigs sigs' : List Signature) :
    (f.addAll (sigs ++ sigs')).2 = ((f.addAll sigs).2.addAll sigs').2 := by
  induction sigs generalizing f with
  | nil => rfl
  | cons sig sigs ih => rw [List.cons_append, addAll_cons, addAll_cons, ih]

theorem name_addAll (f : Function) (sigs : List Signature) : (f.addAll sigs).2.name = f.name := by
  induction sigs generalizing f with
  | nil => rfl
  | cons sig sigs ih => rw [addAll_cons, ih, name_addOverload]

/-- A call is answered by the function as the calls before it left it. -/
theorem getElem?_answers_addAll (f : Function) {sigs : List Signature} {i : Nat} {sig : Signature}
    (h : sigs[i]? = some sig) :
    (f.addAll sigs).1[i]? = some ((f.addAll (sigs.take i)).2.addOverload sig).1 := by
  induction sigs generalizing f i with
  | nil => cases h
  | cons s sigs ih =>
    cases i with
    | zero =>
      obtain rfl : s = sig := Option.some.inj h
      rfl
    | succ i =>
      rw [addAll_cons, List.take_succ_cons, addAll_cons]
      exact ih _ h

/-- `f` is a map of the overloads `sigs` in the order of insertion, and the first one with
given parameters wins. -/
structure FirstWins (f : Function) (sigs : List Signature) : Prop where
  /-- It keeps those whose parameters no earlier one has. -/
  overloads_eq : f.overloads = Signature.firsts sigs
  /-- No two that it keeps have the same parameters. -/
  nodup : (f.overloads.map (·.params)).Nodup
  /-- It finds the first one with given parameters. -/
  overload?_eq : ∀ params, f.overload? params = sigs.find? (·.params = params)
  /-- It accepts one more exactly if none before had the same parameters. -/
  accepts_iff : ∀ sig, (f.addOverload sig).1 = true ↔ ∀ earlier ∈ sigs, earlier.params ≠ sig.params
  /-- What it does not accept changes nothing. -/
  eq_of_refused : ∀ sig, (f.addOverload sig).1 = false → (f.addOverload sig).2 = f

section

variable {f : Function} {sigs : List Signature}

/-- An overload is accepted exactly if its parameters are new. -/
theorem fst_addOverload_iff (h : f.overloads = Signature.firsts sigs) (sig : Signature) :
    (f.addOverload sig).1 = true ↔ sig.params ∉ sigs.map (·.params) := by
  have hfound : f.overload? sig.params = sigs.find? (·.params = sig.params) := by
    rw [overload?, h, Signature.find?_firsts]
  have hnone : sigs.find? (·.params = sig.params) = none ↔ sig.params ∉ sigs.map (·.params) := by
    simp
  rw [← hnone, ← hfound, addOverload]
  cases f.overload? sig.params <;> simp

/-- **After one more call the first ones are kept again.** -/
theorem overloads_addOverload (h : f.overloads = Signature.firsts sigs) (sig : Signature) :
    (f.addOverload sig).2.overloads = Signature.firsts (sigs ++ [sig]) := by
  rw [Decl.snd_addOverload, Decl.extend, Signature.firsts_concat, ← h]
  refine congrArg (f.overloads ++ ·) ?_
  split
  · next hnew => rw [if_neg ((fst_addOverload_iff h sig).mp hnew)]
  · next hold => rw [if_pos (not_not.mp (mt (fst_addOverload_iff h sig).mpr hold))]

/-- **After any calls the first ones are kept.** -/
theorem overloads_addAll : ∀ (sigs' : List Signature) {f : Function} {sigs : List Signature},
    f.overloads = Signature.firsts sigs →
    (f.addAll sigs').2.overloads = Signature.firsts (sigs ++ sigs') := by
  intro sigs'
  induction sigs' with
  | nil =>
    intro f sigs h
    rw [addAll_nil, h, List.append_nil]
  | cons sig sigs' ih =>
    intro f sigs h
    have happend : sigs ++ sig :: sigs' = (sigs ++ [sig]) ++ sigs' := by simp
    rw [addAll_cons, ih (overloads_addOverload h sig), happend]

/-- A function that keeps the first ones is a map of all of them. -/
theorem firstWins_of_overloads_eq (h : f.overloads = Signature.firsts sigs) : f.FirstWins sigs where
  overloads_eq := h
  nodup := h ▸ Signature.nodup_params_firsts sigs
  overload?_eq := by
    intro params
    rw [overload?, h, Signature.find?_firsts]
  accepts_iff := by
    intro sig
    rw [fst_addOverload_iff h, List.mem_map]
    simp only [not_exists, not_and, ne_eq]
  eq_of_refused := by
    intro sig hrefused
    rw [Decl.snd_addOverload, hrefused, if_neg Bool.false_ne_true, Decl.extend_nil]

end

end Function

/-! ### A function among other declarations -/

/-- The overloads that requests bring for the function at a position, in order. -/
def DeclRequest.overloads (k : Nat) (rs : List DeclRequest) : List Signature :=
  rs.filterMap (·.overload? k)

theorem DeclRequest.overloads_cons (k : Nat) (r : DeclRequest) (rs : List DeclRequest) :
    overloads k (r :: rs) = (r.overload? k).toList ++ overloads k rs := by
  cases h : r.overload? k with
  | none => exact List.filterMap_cons_none h
  | some sig => exact List.filterMap_cons_some h

namespace Declarations

variable {a a' : Declarations} {id : DeclId .func} {f : Function}

/-- A declaration that is there stays where it is when others are added. -/
theorem read_push (h : a.read id = .ok f) (ns : Namespace) (d : Decl ns) :
    (a.push ns d).read id = .ok f := by
  rw [read, fetch_eq_ok_iff] at h ⊢
  by_cases hns : .func = ns
  · subst hns
    have hlt := (Array.getElem?_eq_some_iff.mp h).1
    rw [list_push_self, Array.getElem?_push, if_neg (Nat.ne_of_lt hlt)]
    exact h
  · rw [list_push_of_ne a d hns]
    exact h

/-- What was put in place of a function is read back. -/
theorem read_setFunction_self (h : a.read id = .ok f) (f' : Function) :
    (a.setFunction id f').read id = .ok f' := by
  rw [read, fetch_eq_ok_iff] at h ⊢
  rw [list_setFunction_self,
    Array.getElem?_setIfInBounds_self_of_lt (Array.getElem?_eq_some_iff.mp h).1]

theorem read_setFunction_of_ne (h : a.read id = .ok f) {id' : DeclId .func}
    (hne : id'.index ≠ id.index) (f' : Function) : (a.setFunction id' f').read id = .ok f := by
  rw [read, fetch_eq_ok_iff] at h ⊢
  rw [list_setFunction_self, Array.getElem?_setIfInBounds_ne hne]
  exact h

/-- To put a function in its own place changes nothing. -/
theorem setFunction_of_read (h : a.read id = .ok f) : a.setFunction id f = a := by
  rw [read, fetch_eq_ok_iff] at h
  refine Declarations.ext (PerNamespace.ext_get fun ns => ?_)
  change (a.setFunction id f).list ns = a.list ns
  by_cases hns : ns = .func
  · subst hns
    refine Array.ext_getElem? fun k => ?_
    rw [list_setFunction_self, Array.getElem?_setIfInBounds]
    split
    · next hk => rw [if_pos (Array.getElem?_eq_some_iff.mp h).1, ← hk, h]
    · rfl
  · exact list_setFunction_of_ne a id f hns

/-- **A request does to a function what it would do to it alone**: the overload that the
request brings for it is added, and nothing else happens to it. -/
theorem read_perform_of_ok (h : a.read id = .ok f) (r : DeclRequest) :
    (a.perform r).read id = .ok (Function.addAll f (r.overload? id.index).toList).2 := by
  cases r with
  | alloc ns d =>
    rw [DeclRequest.overload?, Option.toList_none, Function.addAll_nil, perform]
    by_cases hlt : (a.list ns).size < (DeclId.invalid : DeclId ns).index
    · rw [alloc_of_lt hlt]
      exact read_push h ns d
    · rw [alloc_of_not_lt hlt]
      exact h
  | addOverload id' sig =>
    by_cases hid : id'.index = id.index
    · obtain rfl := DeclId.index_inj.mp hid
      rw [DeclRequest.overload?, if_pos rfl, perform, addOverload_of_read h]
      exact read_setFunction_self h _
    · rw [DeclRequest.overload?, if_neg hid, Option.toList_none, Function.addAll_nil, perform]
      cases hread : a.read id' with
      | error e =>
        rw [addOverload, hread]
        exact h
      | ok f' =>
        rw [addOverload_of_read hread]
        exact read_setFunction_of_ne h hid _

/-- **A function among other declarations is what it would be alone**, had it got only the
overloads that were for it. -/
theorem read_performAll_of_ok : ∀ (rs : List DeclRequest) {a : Declarations} {f : Function},
    a.read id = .ok f →
    (a.performAll rs).read id = .ok (f.addAll (DeclRequest.overloads id.index rs)).2 := by
  intro rs
  induction rs with
  | nil => intro a f h; exact h
  | cons r rs ih =>
    intro a f h
    rw [performAll_cons, ih (read_perform_of_ok h r), DeclRequest.overloads_cons,
      Function.snd_addAll_append]

/-- A new function is read back as it was brought. -/
theorem read_of_alloc (h : a.alloc .func f = .ok (id, a')) : a'.read id = .ok f := by
  by_cases hlt : (a.list .func).size < (DeclId.invalid : DeclId .func).index
  · have hindex := index_ofNat_size hlt
    rw [alloc_of_lt hlt] at h
    cases h
    rw [read, fetch_eq_ok_iff, list_push_self, hindex, Array.getElem?_push_size]
  · rw [alloc_of_not_lt hlt] at h
    cases h

end Declarations

/-! ### The first one wins -/

namespace Function

/-- **The overloads of a function are a map in the order of insertion, and the first one
wins.**  Say a new function was brought overloads `sigs`.  It keeps those whose parameters
no earlier one had, in order and whatever their results; it answers each call by whether it
did; and for any parameters it finds the first that had exactly these.  The same is true
once the function has become a declaration of a unit and other requests `rs` were served:
then all that counts are the overloads that it was brought before and those that `rs`
brought for it.  A call that is answered no leaves all declarations as they were. -/
theorem addAll_firstWins (name : Name) (sigs : List Signature) :
    ((new name).addAll sigs).2.name = name ∧
    ((new name).addAll sigs).2.FirstWins sigs ∧
    (∀ (i : Nat) (sig : Signature), sigs[i]? = some sig →
      ((new name).addAll sigs).1[i]? =
        some (decide (∀ earlier ∈ sigs.take i, earlier.params ≠ sig.params))) ∧
    ∀ (a a' : Declarations) (id : DeclId .func),
      a.alloc .func ((new name).addAll sigs).2 = .ok (id, a') →
      ∀ rs : List DeclRequest, ∃ f : Function, (a'.performAll rs).read id = .ok f ∧
        f.name = name ∧ f.FirstWins (sigs ++ DeclRequest.overloads id.index rs) ∧
        (∀ params, (a'.performAll rs).overload? id params = .ok (f.overload? params)) ∧
        ∀ sig, (a'.performAll rs).reply (.addOverload id sig) =
            .added (.ok (f.addOverload sig).1) ∧
          ((f.addOverload sig).1 = false →
            (a'.performAll rs).perform (.addOverload id sig) = a'.performAll rs) := by
  have hnew : (new name).overloads = Signature.firsts [] := rfl
  have hkept : ∀ sigs : List Signature,
      ((new name).addAll sigs).2.overloads = Signature.firsts sigs :=
    fun sigs => overloads_addAll sigs hnew
  refine ⟨name_addAll _ _, firstWins_of_overloads_eq (hkept sigs), fun i sig hi => ?_,
    fun a a' id halloc rs => ?_⟩
  · rw [getElem?_answers_addAll _ hi, Option.some_inj, Bool.eq_iff_iff, decide_eq_true_iff]
    exact (firstWins_of_overloads_eq (hkept (sigs.take i))).accepts_iff sig
  · have hread := Declarations.read_performAll_of_ok rs (Declarations.read_of_alloc halloc)
    have hwins := firstWins_of_overloads_eq
      (overloads_addAll (DeclRequest.overloads id.index rs) (hkept sigs))
    refine ⟨_, hread, ?_, hwins, fun params => ?_, fun sig => ⟨?_, fun hrefused => ?_⟩⟩
    · rw [name_addAll, name_addAll]
      rfl
    · rw [Declarations.overload?, hread]
      rfl
    · rw [Declarations.reply, Declarations.addOverload_of_read hread]
      rfl
    · rw [Declarations.perform, Declarations.addOverload_of_read hread,
        hwins.eq_of_refused sig hrefused]
      exact Declarations.setFunction_of_read hread

/-- Overloads without parameters, twice, and with two. -/
def brought : List Signature := [⟨⟨0⟩, []⟩, ⟨⟨1⟩, []⟩, ⟨⟨0⟩, [⟨0⟩, ⟨1⟩]⟩]

/-- Requests for that function and another.  Of the three overloads that are for it, one has
the parameters of an earlier one. -/
def mingled : List DeclRequest :=
  [.alloc .func (.new ⟨9⟩), .addOverload ⟨0⟩ ⟨⟨0⟩, [⟨1⟩, ⟨0⟩]⟩, .addOverload ⟨1⟩ ⟨⟨4⟩, []⟩,
    .addOverload ⟨0⟩ ⟨.invalid, [⟨0⟩, ⟨1⟩]⟩, .alloc .type (.scalar ⟨1⟩ .float),
    .addOverload ⟨0⟩ ⟨⟨0⟩, [.invalid]⟩]

theorem addAll_firstWins_mingled :
    ((new ⟨2⟩).addAll brought).1[1]? = some false ∧
    ∃ (id : DeclId .func) (a : Declarations),
      Declarations.empty.alloc .func ((new ⟨2⟩).addAll brought).2 = .ok (id, a) ∧
      (a.performAll mingled).read id = .ok ⟨⟨2⟩, [⟨⟨0⟩, []⟩, ⟨⟨0⟩, [⟨0⟩, ⟨1⟩]⟩,
        ⟨⟨0⟩, [⟨1⟩, ⟨0⟩]⟩, ⟨⟨0⟩, [.invalid]⟩]⟩ ∧
      (a.performAll mingled).overload? id [.invalid] = .ok (some ⟨⟨0⟩, [.invalid]⟩) ∧
      (a.performAll mingled).reply (.addOverload id ⟨⟨3⟩, []⟩) = .added (.ok false) := by
  obtain ⟨-, -, hanswers, hdecl⟩ := addAll_firstWins ⟨2⟩ brought
  have hroom : (Declarations.empty.list .func).size < (DeclId.invalid : DeclId .func).index := by
    decide
  have halloc := Declarations.alloc_of_lt hroom ((new ⟨2⟩).addAll brought).2
  obtain ⟨⟨n, overloads⟩, hread, hname, hf, hfind, hreply⟩ := hdecl _ _ _ halloc mingled
  have hoverloads := hf.overloads_eq
  simp only at hname hoverloads
  subst hname
  refine ⟨hanswers 1 _ rfl, _, _, halloc, ?_, ?_, ?_⟩
  · rw [hread, hoverloads]
    rfl
  · rw [hfind, hf.overload?_eq]
    rfl
  · have hrefused : (addOverload ⟨⟨2⟩, overloads⟩ ⟨⟨3⟩, []⟩).1 = false :=
      Bool.eq_false_iff.mpr fun hok =>
        (hf.accepts_iff _).mp hok ⟨⟨0⟩, []⟩ List.mem_cons_self rfl
    rw [(hreply _).1, hrefused]

end Function
end ShaderSymbols
