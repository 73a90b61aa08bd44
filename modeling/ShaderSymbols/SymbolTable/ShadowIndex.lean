import Std.Data.ExtTreeMap
import ShaderSymbols.Symbol

/-!
# Live declarations by name

Within one namespace, every name has a list of live declarations, one for each
scope that declares it.  The innermost declaration hides the others, so it comes
first.  A name without live declarations is absent from the index.

## Main definitions

* `ShadowIndex α` — lists of entries by name.
* `ShadowIndex.visible?`, `ShadowIndex.bottom?` — the two ends of a list.
* `ShadowIndex.push`, `ShadowIndex.pushBeneath` — add at either end.
* `ShadowIndex.drop` — drops the innermost entry of a name.
* `ShadowIndex.size` — the number of entries in all lists.

## Main results

* `ShadowIndex.shadows_push`, `ShadowIndex.shadows_pushBeneath`,
  `ShadowIndex.shadows_drop` — what an operation does to the list of a name.
* `ShadowIndex.size_push`, `ShadowIndex.size_pushBeneath`,
  `ShadowIndex.size_drop` — what it does to the number of entries.
-/

namespace ShaderSymbols

variable {α : Type}

/-- The live declarations of one namespace. -/
structure ShadowIndex (α : Type) where
  /-- The entries of every declared name, innermost first. -/
  lists : Std.ExtTreeMap Name (List (Entry α))

namespace ShadowIndex

/-- No declarations. -/
def empty : ShadowIndex α := ⟨∅⟩

/-- The live entries of a name, innermost first. -/
def shadows (x : ShadowIndex α) (n : Name) : List (Entry α) := x.lists[n]?.getD []

/-- The entry that a name resolves to. -/
def visible? (x : ShadowIndex α) (n : Name) : Option (Entry α) := (x.shadows n).head?

/-- The entry that the others hide. -/
def bottom? (x : ShadowIndex α) (n : Name) : Option (Entry α) := (x.shadows n).getLast?

/-- Adds an entry that hides the others of its name. -/
def push (x : ShadowIndex α) (e : Entry α) : ShadowIndex α :=
  ⟨x.lists.alter e.name fun l? => some (e :: l?.getD [])⟩

/-- Adds an entry that is hidden by the others of its name. -/
def pushBeneath (x : ShadowIndex α) (e : Entry α) : ShadowIndex α :=
  ⟨x.lists.alter e.name fun l? => some (l?.getD [] ++ [e])⟩

/-- Drops the innermost entry of a name, and the name with its last entry. -/
def drop (x : ShadowIndex α) (n : Name) : ShadowIndex α :=
  ⟨x.lists.alter n fun l? =>
    match l?.getD [] with
    | _ :: e :: es => some (e :: es)
    | _ => none⟩

/-- How many entries are live. -/
def size (x : ShadowIndex α) : Nat := x.lists.foldl (fun n _ l => n + l.length) 0

/-! ### The lists after each operation -/

@[simp] theorem shadows_empty (n : Name) : (empty : ShadowIndex α).shadows n = [] := by
  simp [shadows, empty]

theorem shadows_push (x : ShadowIndex α) (e : Entry α) (n : Name) :
    (x.push e).shadows n = if e.name = n then e :: x.shadows n else x.shadows n := by
  simp only [shadows, push, Std.ExtTreeMap.getElem?_alter, Std.compare_eq_iff_eq]
  split
  · next h => subst h; simp
  · rfl

theorem shadows_pushBeneath (x : ShadowIndex α) (e : Entry α) (n : Name) :
    (x.pushBeneath e).shadows n = if e.name = n then x.shadows n ++ [e] else x.shadows n := by
  simp only [shadows, pushBeneath, Std.ExtTreeMap.getElem?_alter, Std.compare_eq_iff_eq]
  split
  · next h => subst h; simp
  · rfl

theorem shadows_drop (x : ShadowIndex α) (m n : Name) :
    (x.drop m).shadows n = if m = n then (x.shadows n).tail else x.shadows n := by
  simp only [shadows, drop, Std.ExtTreeMap.getElem?_alter, Std.compare_eq_iff_eq]
  split
  · next h =>
    subst h
    rcases x.lists[m]?.getD [] with _ | ⟨_, _ | ⟨_, _⟩⟩ <;> rfl
  · rfl

/-! ### The number of entries after each operation

The entries of one name are counted apart from the rest, which an operation on
that name leaves alone. -/

/-- The index without a name. -/
def without (x : ShadowIndex α) (n : Name) : ShadowIndex α := ⟨x.lists.erase n⟩

private theorem nodup_toList (m : Std.ExtTreeMap Name (List (Entry α))) : m.toList.Nodup :=
  (Std.ExtTreeMap.distinct_keys_toList (t := m)).imp fun h e => h (by simp [e])

private theorem size_eq_length (x : ShadowIndex α) :
    x.size = (x.lists.toList.flatMap (·.2)).length := by
  have hfold (l : List (Name × List (Entry α))) (n : Nat) :
      l.foldl (fun n p => n + p.2.length) n = n + (l.flatMap (·.2)).length := by
    induction l generalizing n with
    | nil => rfl
    | cons p l ih => simp [ih, Nat.add_assoc]
  rw [size, Std.ExtTreeMap.foldl_eq_foldl_toList, hfold, Nat.zero_add]

/-- The entries are those of one name and those of the others. -/
theorem size_eq_add (x : ShadowIndex α) (n : Name) :
    x.size = (x.shadows n).length + (x.without n).size := by
  cases h : x.lists[n]? with
  | none =>
    have herase : x.lists.erase n = x.lists := by
      refine Std.ExtTreeMap.ext_getElem? fun k => ?_
      rw [Std.ExtTreeMap.getElem?_erase]
      split
      · next hk => rw [← Std.compare_eq_iff_eq.mp hk, h]
      · rfl
    simp [shadows, without, h, herase]
  | some l =>
    have hperm : x.lists.toList.Perm ((n, l) :: (x.lists.erase n).toList) := by
      refine (List.perm_ext_iff_of_nodup (nodup_toList _) ?_).mpr ?_
      · refine List.nodup_cons.mpr ⟨?_, nodup_toList _⟩
        simp [Std.ExtTreeMap.mem_toList_iff_getElem?_eq_some]
      · rintro ⟨k, v⟩
        simp only [Std.ExtTreeMap.mem_toList_iff_getElem?_eq_some, List.mem_cons, Prod.mk.injEq,
          Std.ExtTreeMap.getElem?_erase, Std.compare_eq_iff_eq]
        by_cases hk : n = k
        · subst hk; simp [h, eq_comm]
        · simp [hk, Ne.symm hk]
    rw [size_eq_length, size_eq_length, (hperm.flatMap_right _).length_eq]
    simp [shadows, without, h]

/-- Changing the list of a name does not show without that name. -/
theorem without_alter (x : ShadowIndex α) (n : Name)
    (f : Option (List (Entry α)) → Option (List (Entry α))) :
    (⟨x.lists.alter n f⟩ : ShadowIndex α).without n = x.without n := by
  refine congrArg mk (Std.ExtTreeMap.ext_getElem? fun k => ?_)
  simp only [Std.ExtTreeMap.getElem?_erase, Std.ExtTreeMap.getElem?_alter]
  split <;> rfl

@[simp] theorem size_empty : (empty : ShadowIndex α).size = 0 := rfl

@[simp] theorem size_push (x : ShadowIndex α) (e : Entry α) : (x.push e).size = x.size + 1 := by
  rw [size_eq_add (x.push e) e.name, size_eq_add x e.name, shadows_push, push, without_alter]
  simp only [if_true, List.length_cons]
  omega

@[simp] theorem size_pushBeneath (x : ShadowIndex α) (e : Entry α) :
    (x.pushBeneath e).size = x.size + 1 := by
  rw [size_eq_add (x.pushBeneath e) e.name, size_eq_add x e.name, shadows_pushBeneath,
    pushBeneath, without_alter]
  simp only [if_true, List.length_append, List.length_singleton]
  omega

theorem size_drop {x : ShadowIndex α} {n : Name} (h : x.shadows n ≠ []) :
    (x.drop n).size + 1 = x.size := by
  have hpos := List.length_pos_iff.mpr h
  rw [size_eq_add (x.drop n) n, size_eq_add x n, shadows_drop, drop, without_alter]
  simp only [if_true, List.length_tail]
  omega

end ShadowIndex
end ShaderSymbols
