import ContractLowering.Proofs.IL.Recursor
import ContractLowering.Proofs.Lowering.LoopMeasure
import ContractLowering.Proofs.Prelude.Collections

/-!
# Models with foreign contents

The prelude says what unboxing gives for boxes of its own sort only. `Foreign.model k` is the
standard model, where one box of a Boolean holds `k` if it is unboxed as an integer, and where all
lambdas are the predicate that a box holds one. It satisfies the prelude for every `k`
(`Foreign.satisfiesPrelude`): a fact that does not apply the functions that were changed is as true
as before (`IL.Model.holds_withApps`), and there are three others.
-/

namespace ContractLowering

open IL Prelude

/-! ## Models that apply some functions otherwise -/

namespace IL

/-- A model with other functions, in which lambdas are applied otherwise. -/
abbrev Model.withApps (M : Model) (app : String → List M.Val → M.Val)
    (applyLam : Srt → M.Val → List M.Val → M.Val) : Model := { M with app, applyLam }

mutual

/-- No function of the list is applied in an expression and no lambda to a Boolean, and there are
no lambdas and lets. -/
def Expr.without (fs : List String) : Expr → Bool
  | .bool _ | .num _ | .var _ | .old _ => true
  | .app f args => !fs.contains f && withoutList fs args
  | .applyLambda s f args => s != .bool && without fs f && withoutList fs args
  | .not e => without fs e
  | .binary _ a b => without fs a && without fs b
  | .multi _ es => withoutList fs es
  | .ite c a b => without fs c && without fs a && without fs b
  | .quant _ _ _ e => without fs e
  | .letIn .. | .lambda .. => false

/-- None of several expressions applies such a function. -/
def Expr.withoutList (fs : List String) : List Expr → Bool
  | [] => true
  | e :: es => without fs e && withoutList fs es

end

theorem Expr.withoutList_iff {fs : List String} {es : List Expr} :
    withoutList fs es = true ↔ ∀ e ∈ es, e.without fs = true := by
  induction es with
  | nil => simp [withoutList]
  | cons e es ih => simp [withoutList, ih]

namespace Model

variable {M : Model} {app : String → List M.Val → M.Val}
  {applyLam : Srt → M.Val → List M.Val → M.Val} {fs : List String}

/-- An expression that does not apply what was changed means the same as before. -/
theorem eval_withApps (happ : ∀ f ∉ fs, app f = M.app f)
    (hlam : ∀ s, s ≠ .bool → applyLam s = M.applyLam s) {e : Expr} (he : e.without fs = true)
    (old ρ : M.Valuation) :
    e.eval (M := M.withApps app applyLam) old ρ = e.eval (M := M) old ρ := by
  induction e using Expr.recData generalizing ρ with
  | bool | num | var | old => rfl
  | app f args ih =>
    simp only [Expr.without, Bool.and_eq_true, Bool.not_eq_true', List.contains_eq_mem,
      decide_eq_false_iff_not] at he
    rw [Expr.eval_app, Expr.eval_app,
      List.map_congr_left fun e he' => ih e he' (Expr.withoutList_iff.1 he.2 e he') ρ]
    exact congrFun (happ f he.1) _
  | applyLambda s f args ihf ih =>
    simp only [Expr.without, Bool.and_eq_true, bne_iff_ne] at he
    rw [Expr.eval_applyLambda, Expr.eval_applyLambda, ihf he.1.2 ρ,
      List.map_congr_left fun e he' => ih e he' (Expr.withoutList_iff.1 he.2 e he') ρ]
    exact congrFun (congrFun (hlam s he.1.1) _) _
  | not e ih =>
    rw [Expr.eval_not, Expr.eval_not, ih (by simpa [Expr.without] using he)]
  | binary op a b iha ihb =>
    simp only [Expr.without, Bool.and_eq_true] at he
    rw [Expr.eval_binary, Expr.eval_binary, iha he.1, ihb he.2]
    rfl
  | multi op es ih =>
    rw [Expr.eval_multi, Expr.eval_multi,
      List.map_congr_left fun e he' => ih e he' (Expr.withoutList_iff.1 he e he') ρ]
    rfl
  | ite c a b ihc iha ihb =>
    simp only [Expr.without, Bool.and_eq_true] at he
    rw [Expr.eval_ite, Expr.eval_ite, ihc he.1.1, iha he.1.2, ihb he.2]
  | letIn => simp [Expr.without] at he
  | quant q bs ts e ih =>
    have hbody (σ : M.Valuation) := ih (by simpa [Expr.without] using he) σ
    cases q with
    | all => exact congrArg M.ofProp (propext (forall_congr' fun σ => by rw [hbody σ]; rfl))
    | ex => exact congrArg M.ofProp (propext (exists_congr fun σ => by rw [hbody σ]; rfl))
  | lambda => simp [Expr.without] at he

theorem holds_withApps (happ : ∀ f ∉ fs, app f = M.app f)
    (hlam : ∀ s, s ≠ .bool → applyLam s = M.applyLam s) {e : Expr} (he : e.without fs = true)
    {old ρ : M.Valuation} :
    Holds (M := M.withApps app applyLam) old ρ e ↔ Holds (M := M) old ρ e := by
  rw [Holds, eval_withApps happ hlam he]
  rfl

end Model

end IL

namespace Standard.Foreign

/-- The box of the number one. -/
noncomputable def one : ℕ := code (.inr (.int 1))

/-- The box of a Boolean. -/
noncomputable def foreign : ℕ := code (.inr (.bool true))

/-- The boxes that hold one. -/
noncomputable def ones (k : ℤ) : Finset ℕ := if k = 1 then {one, foreign} else {one}

open Classical in
/-- The box of a Boolean holds a number, and every predicate is that a box holds one. -/
noncomputable def app (k : ℤ) (f : String) (args : List Val) : Val :=
  if f = "$Unbox.int" ∧ args = [.box foreign] then .int k
  else if f = "Set.FromPredicate" then .set (ones k)
  else (Standard.model Interval.nothing).app f args

/-- What a lambda gives. -/
noncomputable def applyLam (k : ℤ) (s : Srt) (_ : Val) (args : List Val) : Val :=
  if s = .bool then .ofProp (∃ n ∈ ones k, args = [.box n]) else .default s

/-- The standard model in which the box of a Boolean holds a number as well. -/
noncomputable abbrev model (k : ℤ) : Model :=
  (Standard.model Interval.nothing).withApps (app k) (applyLam k)

/-- The functions that are changed. -/
def changed : List String := ["$Unbox.int", "Set.FromPredicate"]

variable {k : ℤ} {old ρ : String → Val}

theorem one_ne_foreign : one ≠ foreign := by simp [one, foreign]

theorem app_of_notMem {f : String} (h : f ∉ changed) :
    app k f = (Standard.model Interval.nothing).app f := by
  funext args
  simp only [changed, List.mem_cons, List.not_mem_nil, or_false, not_or] at h
  exact (if_neg fun hf => h.1 hf.1).trans (if_neg h.2)

theorem app_unbox {n : ℕ} (h : n ≠ foreign) :
    app k "$Unbox.int" [.box n] = .unbox .int n := by
  have hne : ([Val.box n] : List Val) ≠ [.box foreign] := by simpa using h
  simp only [app, hne, and_false, if_false]
  exact app_op (.unbox .int) [.box n]

theorem app_unbox_foreign : app k "$Unbox.int" [.box foreign] = .int k := by
  simp [app]

theorem app_fromPredicate (args : List Val) : app k "Set.FromPredicate" args = .set (ones k) := by
  simp [app]

/-- The boxes that hold one are those that are unboxed to one. -/
theorem mem_ones {n : ℕ} : n ∈ ones k ↔ app k "$Unbox.int" [.box n] = .int 1 := by
  by_cases hn : n = foreign
  · subst hn
    rw [app_unbox_foreign]
    unfold ones
    split <;> simp_all [one_ne_foreign.symm]
  · have hone : n ∈ ones k ↔ n = one := by
      unfold ones
      split <;> simp [hn]
    rw [app_unbox hn, hone, one]
    constructor
    · rintro rfl
      exact Val.unbox_toCode (v := .int 1) (s := .int) rfl
    · intro h
      have hcontent : Val.ofContent (content n) = .int 1 := by
        rw [Val.unbox] at h
        split at h
        · exact h
        · simp [Val.default, BoxSort.sort] at h
      rw [← code_content n, ← Val.toCode_ofContent, hcontent]
      rfl

/-- A fact of the standard model that does not apply what is changed. -/
theorem holds_of_isTrue {e : Expr} (he : e.without changed = true)
    (h : IsTrue Interval.nothing old ρ e) : Holds (M := model k) old ρ e := by
  refine (Model.holds_withApps (fun _ => app_of_notMem) (fun s hs => ?_) he).2 h
  funext l args
  exact if_neg hs

theorem app_box (n : ℤ) : app k "$Box.int" [.int n] = .box (code (.inr (.int n))) := by
  rw [app_of_notMem (by decide)]
  exact app_op (.box .int) [.int n]

theorem app_isBox (n : ℕ) :
    app k "$IsBox.int" [.box n] = .ofProp ((Val.ofContent (content n)).sort = .int) := by
  rw [app_of_notMem (by decide)]
  exact app_op (.isBox .int) [.box n]

theorem app_mem (n : ℕ) (s : Finset ℕ) : app k "Set.mem" [.set s, .box n] = .ofProp (n ∈ s) := by
  rw [app_of_notMem (by decide)]
  exact app_op .setMem [.set s, .box n]

/-- The box of a number holds the number. -/
theorem app_unbox_box (n : ℤ) : app k "$Unbox.int" [.box (code (.inr (.int n)))] = .int n := by
  rw [app_unbox (by simp [foreign])]
  exact Val.unbox_toCode (v := .int n) (s := .int) rfl

/-- Boxes hold what was put in. -/
theorem holds_boxes : ∀ e ∈ Facts.boxes, Holds (M := model k) old ρ e := by
  have hfacts : ∀ e ∈ Facts.boxes, IsTrue Interval.nothing old ρ e := isTrue_boxes
  simp only [Facts.boxes, List.forall_mem_append, List.forall_mem_map, List.forall_mem_flatMap,
    List.forall_mem_cons] at hfacts ⊢
  obtain ⟨hunbox, hbox⟩ := hfacts
  refine ⟨fun s hs => ?_, fun s hs => ⟨?_, ?_, by simp⟩⟩
  · by_cases hint : s = .int
    · subst hint
      refine holds_forAll_one.2 fun v hv => ?_
      obtain ⟨n, rfl⟩ := Val.sort_eq_int.1 hv
      refine (holds_eq _ _).2 ?_
      show app k "$Unbox.int" [app k "$Box.int" [.int n]] = .int n
      rw [app_box, app_unbox_box]
    · exact holds_of_isTrue (by cases s <;> first | contradiction | decide) (hunbox s hs)
  · exact holds_of_isTrue (by cases s <;> decide) (hbox s hs).1
  · by_cases hint : s = .int
    · subst hint
      refine holds_forAll_one.2 fun v hv => (holds_implies _ _).2 fun hisBox => ?_
      obtain ⟨n, rfl⟩ := Val.sort_eq_box.1 hv
      refine (holds_eq _ _).2 ?_
      replace hisBox : app k "$IsBox.int" [.box n] = .bool true := hisBox
      rw [app_isBox, Val.ofProp_eq_true] at hisBox
      show app k "$Box.int" [app k "$Unbox.int" [.box n]] = .box n
      obtain ⟨m, hm⟩ := Val.sort_eq_int.1 hisBox
      have hn : n = code (.inr (.int m)) := by
        rw [← code_content n, ← Val.toCode_ofContent, hm]
        rfl
      rw [hn, app_unbox_box, app_box]
    · exact holds_of_isTrue (by cases s <;> first | contradiction | decide) (hbox s hs).2.1

/-- A set made of a predicate has the boxes that satisfy it. -/
theorem holds_sets (hempty : ρ "Set.Empty" = .set ∅) :
    ∀ e ∈ Facts.sets, Holds (M := model k) old ρ e := by
  have hfacts : ∀ e ∈ Facts.sets, IsTrue Interval.nothing old ρ e := isTrue_sets hempty
  simp only [Facts.sets, List.forall_mem_cons] at hfacts ⊢
  obtain ⟨h₁, h₂, h₃, h₄, h₅, h₆, h₇, h₈, h₉, h₁₀, h₁₁, -, -⟩ := hfacts
  refine ⟨holds_of_isTrue (by decide) h₁, holds_of_isTrue (by decide) h₂,
    holds_of_isTrue (by decide) h₃, holds_of_isTrue (by decide) h₄,
    holds_of_isTrue (by decide) h₅, holds_of_isTrue (by decide) h₆,
    holds_of_isTrue (by decide) h₇, holds_of_isTrue (by decide) h₈,
    holds_of_isTrue (by decide) h₉, holds_of_isTrue (by decide) h₁₀,
    holds_of_isTrue (by decide) h₁₁, ?_, by simp⟩
  refine ((model k).truth_ofProp _).2 fun σ hσ => ?_
  obtain ⟨l, -, hσ⟩ := Model.assigns_cons.1 hσ
  obtain ⟨b, hb, hσ⟩ := Model.assigns_cons.1 hσ
  obtain rfl := Model.assigns_nil.1 hσ
  obtain ⟨n, rfl⟩ := Val.sort_eq_box.1 hb
  refine (holds_eq _ _).2 ?_
  show app k "Set.mem" [app k "Set.FromPredicate" [l], .box n] = applyLam k .bool l [.box n]
  rw [app_fromPredicate, app_mem]
  simp [applyLam]

/-- Functions keep the sorts of their values. -/
theorem sort_app (f : String) (args : List Val) :
    (app k f args).sort = ((Standard.model Interval.nothing).app f args : Val).sort := by
  by_cases hunbox : f = "$Unbox.int" ∧ args = [.box foreign]
  · obtain ⟨rfl, rfl⟩ := hunbox
    rw [app_unbox_foreign]
    have hop : Op.ofName? "$Unbox.int" = some (.unbox .int) := by decide
    exact (Standard.sort_app hop _).symm
  · by_cases hset : f = "Set.FromPredicate"
    · subst hset
      rw [app_fromPredicate]
      have hop : Op.ofName? "Set.FromPredicate" = some .setFromPredicate := by decide
      exact (Standard.sort_app hop _).symm
    · exact congrArg Val.sort ((if_neg hunbox).trans (if_neg hset))

/-- The facts that do not apply what is changed. -/
theorem without_changed : ∀ e ∈ Facts.heaps ++ Facts.datatypes ++ Facts.multisets ++ Facts.seqs ++
    Facts.maps, e.without changed = true := by
  decide +kernel

/-- The models satisfy the prelude, whatever the foreign content is. -/
theorem satisfiesPrelude (h : HasConstants ρ) : Model.SatisfiesPrelude (M := model k) old ρ where
  app hf has :=
    have hstandard : Model.SatisfiesPrelude old ρ := Standard.satisfiesPrelude Interval.nothing h
    (sort_app _ _).trans (hstandard.app hf has)
  facts := by
    refine ofPrelude_iff.2 fun e he => ?_
    have htrue : IsTrue Interval.nothing old ρ e :=
      isTrue_facts h.alloc h.noSet h.noMultiset h.noSeq h.noMap e he
    simp only [facts, List.mem_append] at he
    rcases he with (((((he | he) | he) | he) | he) | he) | he
    · exact holds_boxes e he
    · exact holds_of_isTrue (without_changed e (by simp [he])) htrue
    · exact holds_of_isTrue (without_changed e (by simp [he])) htrue
    · exact holds_sets h.noSet e he
    · exact holds_of_isTrue (without_changed e (by simp [he])) htrue
    · exact holds_of_isTrue (without_changed e (by simp [he])) htrue
    · exact holds_of_isTrue (without_changed e (by simp [he])) htrue

end Standard.Foreign

end ContractLowering
