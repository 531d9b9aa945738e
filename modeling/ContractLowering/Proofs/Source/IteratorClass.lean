import ContractLowering.Source.IteratorClass
import Mathlib.Data.List.Nodup
import Mathlib.Data.List.Perm.Basic

/-!
# Names in the class of an iterator

The class of an iterator puts the names of its parameters, of their histories and of the frame sets
side by side, and its constructor adds the new object to the in-parameters. Nothing keeps the names
that a program chooses apart from the others. `toClass_distinct_iff` says which of them go wrong: a
parameter called like a history or a frame set, a history called like a frame set, and an
in-parameter called like the new object.
-/

namespace ContractLowering.Source

/-- The fields of a class have distinct identities, and the parameters of each of its methods
distinct names. -/
structure Class.Distinct (k : Class) : Prop where
  fields : (k.fields.map (·.id)).Nodup
  params : ∀ m ∈ k.methods, ((m.ins ++ m.outs).map (·.1)).Nodup

namespace Iterator

/-- The names of the in-parameters and the yield-parameters. -/
def paramNames (i : Iterator) : List String := (i.ins ++ i.yields).map (·.1)

/-- The names of the histories. -/
def historyNames (i : Iterator) : List String := i.yields.map fun y => Naming.history y.1

/-- The names of the frame sets. -/
def frameNames : List String := [Naming.iterNew, Naming.iterModifies, Naming.iterReads]

/-- Parameters with names that the class uses for nothing else. -/
structure NamesApart (i : Iterator) : Prop where
  params : i.paramNames.Nodup
  histories : i.paramNames.Disjoint i.historyNames
  frames : i.paramNames.Disjoint frameNames
  /-- The histories of `_modifie` and `_read` are called like frame sets. -/
  historyFrames : i.historyNames.Disjoint frameNames
  object : "iter" ∉ i.ins.map (·.1)

variable (i : Iterator)

theorem history_injective : Function.Injective Naming.history := fun x y h => by
  simpa [Naming.history, ← String.toList_inj] using h

/-- The fields of the class, up to their order: the parameters, their histories and the frame
sets. -/
theorem fields_perm : (i.toClass.fields.map (·.id)).Perm
    ((i.paramNames ++ i.historyNames ++ frameNames).map i.fieldId) := by
  have hyields : (i.yields.flatMap fun y => [i.fieldId y.1, i.fieldId (Naming.history y.1)]).Perm
      (i.yields.map (i.fieldId ·.1) ++ i.yields.map fun y => i.fieldId (Naming.history y.1)) := by
    rw [List.map_eq_flatMap (f := fun y : Binder => i.fieldId (Naming.history y.1))]
    exact (List.map_append_flatMap_perm i.yields (i.fieldId ·.1)
      fun y => [i.fieldId (Naming.history y.1)]).symm
  simpa [toClass, paramNames, historyNames, frameNames, classField, List.map_flatMap,
    Function.comp_def] using (hyields.append_right _).append_left _

theorem fieldId_injective : Function.Injective i.fieldId := fun _ _ h => (FieldId.mk.inj h).2

/-- The fields have distinct identities if the names of parameters, histories and frame sets are
distinct. Histories of distinct parameters are distinct. -/
theorem fields_nodup_iff : (i.toClass.fields.map (·.id)).Nodup ↔
    i.paramNames.Nodup ∧ i.paramNames.Disjoint i.historyNames ∧ i.paramNames.Disjoint frameNames ∧
      i.historyNames.Disjoint frameNames := by
  rw [i.fields_perm.nodup_iff, List.nodup_map_iff i.fieldId_injective, List.nodup_append',
    List.nodup_append', List.disjoint_append_left]
  have hframes : frameNames.Nodup := by decide
  have hhistories (h : i.paramNames.Nodup) : i.historyNames.Nodup := by
    rw [paramNames, List.map_append] at h
    have heq : i.historyNames = (i.yields.map (·.1)).map Naming.history := by
      rw [List.map_map]
      rfl
    exact heq ▸ (List.nodup_map_iff history_injective).2 h.of_append_right
  constructor
  · rintro ⟨⟨hparams, -, h₁⟩, -, h₂, h₃⟩
    exact ⟨hparams, h₁, h₂, h₃⟩
  · rintro ⟨hparams, h₁, h₂, h₃⟩
    exact ⟨⟨hparams, hhistories hparams, h₁⟩, hframes, h₂, h₃⟩

/-- The constructor gives back the new object beside its parameters, `MoveNext` one value only. -/
theorem params_nodup_iff :
    (∀ m ∈ i.toClass.methods, ((m.ins ++ m.outs).map (·.1)).Nodup) ↔
      (i.ins.map (·.1)).Nodup ∧ "iter" ∉ i.ins.map (·.1) := by
  have hmoveNext : ((i.moveNextMethod.ins ++ i.moveNextMethod.outs).map (·.1)).Nodup :=
    List.nodup_singleton _
  have hctor : ((i.ctorMethod.ins ++ i.ctorMethod.outs).map (·.1)).Nodup ↔
      (i.ins.map (·.1)).Nodup ∧ "iter" ∉ i.ins.map (·.1) := by
    simp only [ctorMethod, List.map_append, List.map_cons, List.map_nil, List.nodup_append',
      List.nodup_singleton, List.disjoint_singleton, true_and]
  simp only [toClass, List.forall_mem_cons, List.not_mem_nil, false_imp_iff, implies_true, and_true,
    hctor, hmoveNext]

/-- **The class of an iterator.** Its fields have distinct identities and the parameters of its methods
distinct names exactly if the names of the parameters are distinct and the class does not need them for
something else. -/
theorem toClass_distinct_iff : i.toClass.Distinct ↔ i.NamesApart := by
  constructor
  · rintro ⟨hfields, hmethods⟩
    obtain ⟨hparams, h₁, h₂, h₃⟩ := i.fields_nodup_iff.1 hfields
    exact ⟨hparams, h₁, h₂, h₃, (i.params_nodup_iff.1 hmethods).2⟩
  · rintro ⟨hparams, h₁, h₂, h₃, hobject⟩
    refine ⟨i.fields_nodup_iff.2 ⟨hparams, h₁, h₂, h₃⟩, i.params_nodup_iff.2 ⟨?_, hobject⟩⟩
    rw [paramNames, List.map_append] at hparams
    exact hparams.of_append_left

/-- Yields `y` and is given `ys` and `iter`. -/
def crowded : Iterator :=
  { (default : Iterator) with ins := [("ys", .bool), ("iter", .int)], yields := [("y", .int)] }

/-- The history of `y` and the in-parameter `ys` are one field, of two types, and `iter` names both an
in-parameter and the new object. -/
theorem crowded_not_distinct :
    crowded.paramNames.Nodup ∧ ¬ (crowded.toClass.fields.map (·.id)).Nodup ∧
      ¬ ((crowded.ctorMethod.ins ++ crowded.ctorMethod.outs).map (·.1)).Nodup := by
  decide

end Iterator

end ContractLowering.Source
