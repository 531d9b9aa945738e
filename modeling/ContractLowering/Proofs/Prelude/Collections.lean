import ContractLowering.Proofs.Lowering.Descent
import ContractLowering.Proofs.Standard.Prelude

/-!
# Collections in models of the prelude

What the prelude says of inclusion and equality of collections, for every model of it: sequences
and maps that are called equal are one value, sets that are called equal have the same elements and
multisets the same counts, and inclusion is inclusion of elements or of counts
(`collections_of_prelude`).
-/

namespace ContractLowering

open IL Prelude

/-- What the prelude says of collections. -/
structure IL.Model.Collections (M : Model) : Prop where
  set_subset : ∀ s t, M.carrier setSort s → M.carrier setSort t →
    (M.truth (M.app "Set.Subset" [s, t]) ↔ M.elements s ⊆ M.elements t)
  set_equal : ∀ s t, M.carrier setSort s → M.carrier setSort t →
    (M.truth (M.app "Set.Equal" [s, t]) ↔ M.elements s = M.elements t)
  multiset_subset : ∀ s t, M.carrier multisetSort s → M.carrier multisetSort t →
    (M.truth (M.app "MultiSet.Subset" [s, t]) ↔
      ∀ b, M.carrier boxSort b → M.count s b ≤ M.count t b)
  multiset_equal : ∀ s t, M.carrier multisetSort s → M.carrier multisetSort t →
    (M.truth (M.app "MultiSet.Equal" [s, t]) ↔
      ∀ b, M.carrier boxSort b → M.count s b = M.count t b)
  seq_equal : ∀ s t, M.carrier seqSort s → M.carrier seqSort t →
    (M.truth (M.app "Seq.Equal" [s, t]) ↔ s = t)
  map_equal : ∀ m n, M.carrier mapSort m → M.carrier mapSort n →
    (M.truth (M.app "Map.Equal" [m, n]) ↔ m = n)
  domain_sort : ∀ m, M.carrier mapSort m → M.carrier setSort (M.app "Map.Domain" [m])

namespace Prelude

variable {M : Model} {old ρ : M.Valuation} {a b : M.Val}

/-! ## Values of the native sorts -/

theorem eq_iff_truth (ha : M.carrier .bool a) (hb : M.carrier .bool b) :
    a = b ↔ (M.truth a ↔ M.truth b) := by
  obtain ⟨p, rfl⟩ := (M.carrier_bool a).1 ha
  obtain ⟨q, rfl⟩ := (M.carrier_bool b).1 hb
  rw [M.truth_ofProp, M.truth_ofProp]
  exact ⟨fun h => by rw [← M.truth_ofProp p, h, M.truth_ofProp], fun h => by rw [propext h]⟩

theorem eq_iff_toInt (ha : M.carrier .int a) (hb : M.carrier .int b) :
    a = b ↔ M.toInt a = M.toInt b := by
  obtain ⟨m, rfl⟩ := (M.carrier_int a).1 ha
  obtain ⟨n, rfl⟩ := (M.carrier_int b).1 hb
  rw [M.toInt_ofInt, M.toInt_ofInt]
  exact ⟨fun h => by rw [← M.toInt_ofInt m, h, M.toInt_ofInt], fun h => by rw [h]⟩

/-! ## Facts at values -/

/-- A fact about all pairs of values of two sorts. -/
theorem holds_at_two {x y : String} {s t : Srt} {e : Expr}
    (h : Holds old ρ (Standard.forAll [(x, s), (y, t)] e)) (ha : M.carrier s a)
    (hb : M.carrier t b) : Holds old (Function.update (Function.update ρ x a) y b) e := by
  rw [Standard.forAll, Holds, Expr.eval, M.truth_ofProp] at h
  exact h _ (Model.assigns_cons.2 ⟨a, ha, Model.assigns_cons.2 ⟨b, hb, Model.assigns_nil.2 rfl⟩⟩)

/-- A statement about all values of a sort. -/
theorem holds_forAll_one {x : String} {s : Srt} {e : Expr} :
    Holds old ρ (Standard.forAll [(x, s)] e) ↔
      ∀ a, M.carrier s a → Holds old (Function.update ρ x a) e := by
  rw [Standard.forAll, Holds, Expr.eval, M.truth_ofProp]
  refine ⟨fun h a ha => h _ (Model.assigns_cons.2 ⟨a, ha, Model.assigns_nil.2 rfl⟩), ?_⟩
  intro h σ hσ
  obtain ⟨a, ha, hnil⟩ := Model.assigns_cons.1 hσ
  obtain rfl := Model.assigns_nil.1 hnil
  exact h a ha

/-- Formulas that have the same value are true together. -/
theorem holds_iff_of_eq {e d : Expr} (h : Holds old ρ (.eq e d)) :
    Holds old ρ e ↔ Holds old ρ d := by
  rw [Holds, (holds_eq e d).1 h, Holds]

/-- A function of the prelude takes two values of its sorts to one of its sort. -/
theorem carrier_app_two {f s t r : String} (h : Model.SatisfiesPrelude old ρ)
    (hf : (f, [s, t], r) ∈ functions) (ha : M.carrier (.ofName s) a)
    (hb : M.carrier (.ofName t) b) : M.carrier (.ofName r) (M.app f [a, b]) :=
  h.app (declares_func hf) (.cons ha (.cons hb .nil))

theorem carrier_mem (h : Model.SatisfiesPrelude old ρ) (ha : M.carrier setSort a)
    (hb : M.carrier boxSort b) : M.carrier .bool (M.app "Set.mem" [a, b]) :=
  carrier_app_two (f := "Set.mem") (s := "Set") (t := "Box") (r := "Bool") h
    (by simp [functions, setFunctions]) ha hb

theorem carrier_multiplicity (h : Model.SatisfiesPrelude old ρ) (ha : M.carrier multisetSort a)
    (hb : M.carrier boxSort b) : M.carrier .int (M.app "MultiSet.Multiplicity" [a, b]) :=
  carrier_app_two (f := "MultiSet.Multiplicity") (s := "MultiSet") (t := "Box") (r := "Int") h
    (by simp [functions, multisetFunctions]) ha hb

theorem carrier_domain (h : Model.SatisfiesPrelude old ρ) (ha : M.carrier mapSort a) :
    M.carrier setSort (M.app "Map.Domain" [a]) :=
  h.app (declares_func (f := ("Map.Domain", ["Map"], "Set")) (by simp [functions, mapFunctions]))
    (.cons ha .nil)

/-! ## Collections -/

theorem holds_of_mem (h : Model.OfPrelude old ρ) {e : Expr} (he : e ∈ Standard.facts) :
    Holds old ρ e := Standard.ofPrelude_iff.1 h e he

-- a fact is unfolded to a statement about the values of its variables
attribute [local simp] Standard.given Standard.Op.on Standard.Op.name Standard.Op.declared
  holds_forAll_one holds_implies holds_and holds_app Function.update

/-- Inclusion and equality of sets, by their elements. -/
theorem sets_of_prelude (h : Model.SatisfiesPrelude old ρ) (ha : M.carrier setSort a)
    (hb : M.carrier setSort b) :
    (M.truth (M.app "Set.Subset" [a, b]) ↔ M.elements a ⊆ M.elements b) ∧
      (M.truth (M.app "Set.Equal" [a, b]) ↔ M.elements a = M.elements b) := by
  have hsets : ∀ e ∈ Standard.Facts.sets, Holds old ρ e :=
    fun e he => holds_of_mem h.facts (by simp [Standard.facts, he])
  simp only [Standard.Facts.sets, List.forall_mem_cons] at hsets
  obtain ⟨-, -, -, -, -, -, -, hsubset, hequal, -⟩ := hsets
  constructor
  · have hiff : M.truth (M.app "Set.Subset" [a, b]) ↔ ∀ x, M.carrier boxSort x →
        M.truth (M.app "Set.mem" [a, x]) → M.truth (M.app "Set.mem" [b, x]) := by
      simpa using holds_iff_of_eq (holds_at_two hsubset ha hb)
    rw [hiff]
    exact ⟨fun hsub x hx => ⟨hx.1, hsub x hx.1 hx.2⟩, fun hsub x hx hmem => (hsub ⟨hx, hmem⟩).2⟩
  · have hiff : M.truth (M.app "Set.Equal" [a, b]) ↔ ∀ x, M.carrier boxSort x →
        M.app "Set.mem" [a, x] = M.app "Set.mem" [b, x] := by
      simpa using holds_iff_of_eq (holds_at_two hequal ha hb)
    rw [hiff, Set.ext_iff]
    refine forall_congr' fun x => ?_
    by_cases hx : M.carrier boxSort x
    · simp [hx, Model.elements, eq_iff_truth (carrier_mem h ha hx) (carrier_mem h hb hx)]
    · simp [hx, Model.elements]

/-- Inclusion and equality of multisets, by their counts. -/
theorem multisets_of_prelude (h : Model.SatisfiesPrelude old ρ) (ha : M.carrier multisetSort a)
    (hb : M.carrier multisetSort b) :
    (M.truth (M.app "MultiSet.Subset" [a, b]) ↔
        ∀ x, M.carrier boxSort x → M.count a x ≤ M.count b x) ∧
      (M.truth (M.app "MultiSet.Equal" [a, b]) ↔
        ∀ x, M.carrier boxSort x → M.count a x = M.count b x) := by
  have hmultisets : ∀ e ∈ Standard.Facts.multisets, Holds old ρ e :=
    fun e he => holds_of_mem h.facts (by simp [Standard.facts, he])
  simp only [Standard.Facts.multisets, List.forall_mem_cons] at hmultisets
  obtain ⟨-, -, -, -, -, hequal, hsubset, -⟩ := hmultisets
  constructor
  · simpa [Model.count] using holds_iff_of_eq (holds_at_two hsubset ha hb)
  · have hiff : M.truth (M.app "MultiSet.Equal" [a, b]) ↔ ∀ x, M.carrier boxSort x →
        M.app "MultiSet.Multiplicity" [a, x] = M.app "MultiSet.Multiplicity" [b, x] := by
      simpa using holds_iff_of_eq (holds_at_two hequal ha hb)
    rw [hiff]
    exact forall₂_congr fun x hx =>
      eq_iff_toInt (carrier_multiplicity h ha hx) (carrier_multiplicity h hb hx)

/-- Sequences that are the same element by element are one. -/
theorem seqs_of_prelude (h : Model.OfPrelude old ρ) (ha : M.carrier seqSort a)
    (hb : M.carrier seqSort b) : M.truth (M.app "Seq.Equal" [a, b]) ↔ a = b := by
  have hseqs : ∀ e ∈ Standard.Facts.seqs, Holds old ρ e :=
    fun e he => holds_of_mem h (by simp [Standard.facts, he])
  simp only [Standard.Facts.seqs, List.forall_mem_cons] at hseqs
  obtain ⟨-, -, -, -, -, -, -, -, -, -, -, -, hequal, hext, -⟩ := hseqs
  refine ⟨by simpa using holds_at_two hext ha hb, ?_⟩
  rintro rfl
  simpa using holds_iff_of_eq (holds_at_two hequal ha ha)

/-- Maps with the same domains and the same values on them are one. -/
theorem maps_of_prelude (h : Model.SatisfiesPrelude old ρ) (ha : M.carrier mapSort a)
    (hb : M.carrier mapSort b) : M.truth (M.app "Map.Equal" [a, b]) ↔ a = b := by
  have hmaps : ∀ e ∈ Standard.Facts.maps, Holds old ρ e :=
    fun e he => holds_of_mem h.facts (by simp [Standard.facts, he])
  simp only [Standard.Facts.maps, List.forall_mem_cons] at hmaps
  obtain ⟨-, -, -, -, -, -, hequal, hext, -⟩ := hmaps
  refine ⟨by simpa using holds_at_two hext ha hb, ?_⟩
  rintro rfl
  have hdomain := carrier_domain h ha
  have hiff := holds_iff_of_eq (holds_at_two hequal ha ha)
  simpa [(sets_of_prelude h hdomain hdomain).2] using hiff

/-- The facts about collections in a model of the prelude. -/
theorem collections_of_prelude (h : Model.SatisfiesPrelude old ρ) : M.Collections where
  set_subset _ _ hs ht := (sets_of_prelude h hs ht).1
  set_equal _ _ hs ht := (sets_of_prelude h hs ht).2
  multiset_subset _ _ hs ht := (multisets_of_prelude h hs ht).1
  multiset_equal _ _ hs ht := (multisets_of_prelude h hs ht).2
  seq_equal _ _ hs ht := seqs_of_prelude h.facts hs ht
  map_equal _ _ hm hn := maps_of_prelude h hm hn
  domain_sort _ hm := carrier_domain h hm

end Prelude

end ContractLowering
