import Mathlib.Data.List.Basic
import ShaderSymbols.BlockTable
import ShaderSymbols.Proofs.NestedBlocks

/-!
# Nested blocks do not care what names are

Nested blocks compare names and do nothing else with them.  So if every name is
exchanged for another one, and different names for different names, the blocks
behave as before, with the names exchanged.

## Main definitions

* `BlockTable.map f` — the blocks with every name exchanged by `f`.

## Main results

* `BlockTable.step_map`, `BlockTable.find?_map` — **operations and questions commute
  with an injective exchange of names.**
-/

namespace ShaderSymbols

variable {ν μ ρ : Type} {P : Namespace → Type}

/-! ### Keys and bindings -/

theorem Key.map_injective {f : ν → μ} (hf : Function.Injective f) :
    Function.Injective (Key.map f) := by
  rintro ⟨ns, n⟩ ⟨ns', n'⟩ h
  obtain ⟨hspace, hname⟩ := Key.mk.inj h
  exact Key.ext hspace (hf hname)

/-- The same binding of another name. -/
def Binding.map (f : ν → μ) (x : Binding ν P) : Binding μ P := ⟨f x.name, x.symbol⟩

namespace Block

/-- The same block with other names. -/
def rename (f : ν → μ) (b : Block ν P) : Block μ P := List.map (Binding.map f) b

theorem keys_rename (f : ν → μ) (b : Block ν P) :
    keys (rename f b) = (keys b).map (Key.map f) := by
  simp [keys, rename, Binding.map, Binding.key, Key.map]

theorem rename_rename (g : μ → ρ) (f : ν → μ) (b : Block ν P) :
    rename g (rename f b) = rename (g ∘ f) b :=
  List.map_map

/-- An injective exchange of names keeps keys apart. -/
theorem mem_keys_rename {f : ν → μ} (hf : Function.Injective f) {b : Block ν P} (k : Key ν) :
    k.map f ∈ keys (rename f b) ↔ k ∈ keys b := by
  rw [keys_rename, List.mem_map_of_injective (Key.map_injective hf)]

theorem find?_rename [DecidableEq ν] [DecidableEq μ] {f : ν → μ} (hf : Function.Injective f)
    (b : Block ν P) (k : Key ν) : find? (rename f b) (k.map f) = find? b k := by
  induction b with
  | nil => rfl
  | cons x b ih =>
    have hkey : (x.map f).key = k.map f ↔ x.key = k :=
      (Key.map_injective hf).eq_iff (a := x.key)
    show find? (x.map f :: rename f b) (k.map f) = _
    rw [find?_cons, find?_cons, ih]
    exact if_congr hkey rfl rfl

end Block

/-! ### Tables -/

namespace BlockTable

/-- The same blocks with other names. -/
def map (f : ν → μ) (t : BlockTable ν P) : BlockTable μ P :=
  ⟨t.inner.map (Block.rename f), Block.rename f t.outermost⟩

theorem map_new (f : ν → μ) : (new : BlockTable ν P).map f = new := rfl

theorem map_map (g : μ → ρ) (f : ν → μ) (t : BlockTable ν P) :
    (t.map f).map g = t.map (g ∘ f) := by
  simp [map, Block.rename_rename, Function.comp_def]

@[simp] theorem depth_map (f : ν → μ) (t : BlockTable ν P) : (t.map f).depth = t.depth :=
  List.length_map _

@[simp] theorem size_map (f : ν → μ) (t : BlockTable ν P) : (t.map f).size = t.size := by
  simp [size, blocks, map, Block.rename, Function.comp_def, List.length_flatten]

theorem current_map (f : ν → μ) (t : BlockTable ν P) :
    (t.map f).current = Block.rename f t.current := by
  obtain ⟨inner, outermost⟩ := t
  cases inner <;> rfl

theorem addOutermost_map (f : ν → μ) (t : BlockTable ν P) (x : Binding ν P) :
    (t.map f).addOutermost (x.map f) = (t.addOutermost x).map f := rfl

theorem addCurrent_map (f : ν → μ) (t : BlockTable ν P) (x : Binding ν P) :
    (t.map f).addCurrent (x.map f) = (t.addCurrent x).map f := by
  obtain ⟨inner, outermost⟩ := t
  cases inner <;> rfl

variable [DecidableEq ν] [DecidableEq μ]

/-- **Operations commute with an injective exchange of names.** -/
theorem step_map {f : ν → μ} (hf : Function.Injective f) (t : BlockTable ν P) (a : Action ν P) :
    (t.map f).step (a.map f) = ((t.step a).1.mapError (ScopeError.map f), (t.step a).2.map f) := by
  cases a with
  | enter => rfl
  | leave =>
    obtain ⟨inner, outermost⟩ := t
    cases inner <;> rfl
  | declare n s =>
    rw [Action.map]
    by_cases hk : ⟨s.space, n⟩ ∈ Block.keys t.current
    · have hk' : ⟨s.space, f n⟩ ∈ Block.keys (t.map f).current := by
        rw [current_map]
        exact (Block.mem_keys_rename hf ⟨s.space, n⟩).mpr hk
      rw [step_declare_of_mem hk, step_declare_of_mem hk', depth_map]
      rfl
    · have hk' : ⟨s.space, f n⟩ ∉ Block.keys (t.map f).current := by
        rw [current_map]
        exact mt (Block.mem_keys_rename hf ⟨s.space, n⟩).mp hk
      rw [step_declare_of_notMem hk, step_declare_of_notMem hk', ← addCurrent_map]
      rfl
  | declareGlobal n s =>
    rw [Action.map]
    by_cases hk : ⟨s.space, n⟩ ∈ Block.keys t.outermost
    · have hk' : ⟨s.space, f n⟩ ∈ Block.keys (t.map f).outermost :=
        (Block.mem_keys_rename hf ⟨s.space, n⟩).mpr hk
      rw [step_declareGlobal_of_mem hk, step_declareGlobal_of_mem hk']
      rfl
    · have hk' : ⟨s.space, f n⟩ ∉ Block.keys (t.map f).outermost :=
        mt (Block.mem_keys_rename hf ⟨s.space, n⟩).mp hk
      rw [step_declareGlobal_of_notMem hk, step_declareGlobal_of_notMem hk', ← addOutermost_map]
      rfl

theorem search_rename {f : ν → μ} (hf : Function.Injective f) (k : Key ν)
    (bs : List (Block ν P)) : search (k.map f) (bs.map (Block.rename f)) = search k bs := by
  induction bs with
  | nil => rfl
  | cons b bs ih => rw [List.map_cons, search, search, Block.find?_rename hf, ih, List.length_map]

/-- **Questions commute with an injective exchange of names.** -/
theorem find?_map {f : ν → μ} (hf : Function.Injective f) (t : BlockTable ν P) (k : Key ν) :
    (t.map f).find? (k.map f) = t.find? k := by
  have hblocks : (t.map f).blocks = t.blocks.map (Block.rename f) := by
    rw [blocks, blocks, map, List.map_append, List.map_singleton]
  rw [find?, find?, hblocks, search_rename hf]

end BlockTable
end ShaderSymbols
