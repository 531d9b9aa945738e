import ContractLowering.Lowering.Triggers
import ContractLowering.Proofs.IL.Free
import ContractLowering.Proofs.IL.Sorting
import Mathlib.Data.List.Nodup
import Mathlib.Data.List.Perm.Subperm

/-!
# What the chosen trigger is

`Candidate bound body t` says what may stand in a trigger: an application in the body with no
binder above it (a let counts, also for the terms that it binds), whose head neither boxes nor
unboxes, whose arguments are plain terms, and that mentions a bound variable.

The greedy search for a cover cannot stop short of one. A candidate is passed over only if all it
mentions is covered already, so the variables covered at the end are all those that candidates
mention; and since what is covered has no repetitions, it is complete exactly when it is as long as
the list of the bound variables.
-/

namespace ContractLowering.Triggers

open IL

/-! ## Candidates -/

/-- Built from variables, constants, old values and applications alone. -/
inductive Plain : Expr → Prop
  | bool (b : Bool) : Plain (.bool b)
  | num (d : String) : Plain (.num d)
  | var (x : String) : Plain (.var x)
  | old (x : String) : Plain (.old x)
  | app (f : String) {args : List Expr} (hargs : ∀ a ∈ args, Plain a) : Plain (.app f args)

/-- A term occurs in an expression with no binder above it. -/
inductive Exposed (t : Expr) : Expr → Prop
  | here : Exposed t t
  | arg {f : String} {args : List Expr} {a : Expr} (ha : a ∈ args) (h : Exposed t a) :
    Exposed t (.app f args)
  | lambda {s : Srt} {f : Expr} {args : List Expr} (h : Exposed t f) :
    Exposed t (.applyLambda s f args)
  | lambdaArg {s : Srt} {f : Expr} {args : List Expr} {a : Expr} (ha : a ∈ args)
    (h : Exposed t a) : Exposed t (.applyLambda s f args)
  | not {a : Expr} (h : Exposed t a) : Exposed t (.not a)
  | left {op : BinOp} {a b : Expr} (h : Exposed t a) : Exposed t (.binary op a b)
  | right {op : BinOp} {a b : Expr} (h : Exposed t b) : Exposed t (.binary op a b)
  | operand {op : MultiOp} {es : List Expr} {a : Expr} (ha : a ∈ es) (h : Exposed t a) :
    Exposed t (.multi op es)
  | guard {c a b : Expr} (h : Exposed t c) : Exposed t (.ite c a b)
  | thenArm {c a b : Expr} (h : Exposed t a) : Exposed t (.ite c a b)
  | elseArm {c a b : Expr} (h : Exposed t b) : Exposed t (.ite c a b)

/-- A function of the prelude that boxes or unboxes. -/
def Boxes (f : String) : Prop := ∃ s : Prelude.BoxSort, f = s.boxName ∨ f = s.unboxName

/-- What may stand in a trigger for the bound variables of a body. -/
structure Candidate (bound : List String) (body t : Expr) : Prop where
  exposed : Exposed t body
  app : ∃ f args, t = .app f args ∧ ¬ Boxes f ∧ ∀ a ∈ args, Plain a
  mentions : ∃ x ∈ bound, x ∈ t.free

variable {bound covered : List String} {body e t u : Expr} {f x : String} {args es ts us : List Expr}

theorem isTerm_iff : isTerm e = true ↔ Plain e := by
  induction e using Expr.recData with
  | bool b => exact iff_of_true rfl (.bool b)
  | num d => exact iff_of_true rfl (.num d)
  | var x => exact iff_of_true rfl (.var x)
  | old x => exact iff_of_true rfl (.old x)
  | app f args ih =>
    have hargs : areTerms args = true ↔ ∀ a ∈ args, Plain a := by
      clear f
      induction args with
      | nil => simp [areTerms]
      | cons a args iha =>
        simp only [areTerms, Bool.and_eq_true, List.forall_mem_cons]
        exact and_congr (ih a (List.mem_cons_self ..))
          (iha fun b hb => ih b (List.mem_cons_of_mem _ hb))
    rw [isTerm, hargs]
    refine ⟨.app f, fun h => ?_⟩
    cases h with
    | app _ h => exact h
  | applyLambda | not | binary | multi | ite | letIn | quant | lambda =>
    exact iff_of_false (by simp [isTerm]) nofun

theorem areTerms_iff : areTerms es = true ↔ ∀ e ∈ es, Plain e := by
  induction es with
  | nil => simp [areTerms]
  | cons e es ih => simp [areTerms, isTerm_iff, ih]

theorem mem_varsList : x ∈ varsList es ↔ ∃ e ∈ es, x ∈ vars e := by
  induction es with
  | nil => simp [varsList]
  | cons e es ih => simp [varsList, ih]

/-- The variables of a plain term are its free names. -/
theorem Plain.mem_vars (h : Plain t) : x ∈ vars t ↔ x ∈ t.free := by
  induction h with
  | bool | num | var | old => simp [vars, Expr.free]
  | app f _ ih =>
    rw [vars, Expr.free, mem_varsList, Expr.mem_freeList]
    exact exists_congr fun a => and_congr_right fun ha => ih a ha

theorem isBoxing_iff : isBoxing f = true ↔ Boxes f := by
  have hall (s : Prelude.BoxSort) : s ∈ Prelude.BoxSort.all := by cases s <;> decide
  simp only [isBoxing, Prelude.BoxSort.ofBoxName?, Prelude.BoxSort.ofUnboxName?, Bool.or_eq_true,
    List.find?_isSome, beq_iff_eq, Boxes]
  constructor
  · rintro (⟨s, -, hs⟩ | ⟨s, -, hs⟩)
    · exact ⟨s, .inl hs.symm⟩
    · exact ⟨s, .inr hs.symm⟩
  · rintro ⟨s, hs | hs⟩
    · exact .inl ⟨s, hall s, hs.symm⟩
    · exact .inr ⟨s, hall s, hs.symm⟩

/-- The condition under which an application is collected. -/
theorem isCandidate_iff : isCandidate bound f args = true ↔
    ¬ Boxes f ∧ (∀ a ∈ args, Plain a) ∧ ∃ x ∈ bound, x ∈ (Expr.app f args).free := by
  have hmentions (hargs : ∀ a ∈ args, Plain a) :
      (varsList args).any bound.contains = true ↔ ∃ x ∈ bound, x ∈ (Expr.app f args).free := by
    have hvars : ∀ x, x ∈ varsList args ↔ x ∈ (Expr.app f args).free := fun x =>
      (Plain.app f hargs).mem_vars
    simp only [List.any_eq_true, List.contains_iff_mem, hvars]
    exact ⟨fun ⟨x, hx, hb⟩ => ⟨x, hb, hx⟩, fun ⟨x, hb, hx⟩ => ⟨x, hx, hb⟩⟩
  rw [isCandidate, Bool.and_eq_true, Bool.and_eq_true, Bool.not_eq_true', ← Bool.not_eq_true,
    isBoxing_iff, areTerms_iff, and_assoc]
  exact and_congr_right fun _ => and_congr_right hmentions

/-- The candidates that are collected are the applications with no binder above them that fit. -/
theorem mem_candidates_iff : t ∈ candidates bound e ↔
    Exposed t e ∧ ∃ f args, t = .app f args ∧ isCandidate bound f args = true := by
  induction e using Expr.recData with
  | bool | num | var | old | letIn | quant | lambda =>
    refine iff_of_false (by simp [candidates]) ?_
    rintro ⟨h, f, args, rfl, -⟩
    cases h
  | app g as ih =>
    have hhere : t ∈ (if isCandidate bound g as then [Expr.app g as] else []) ↔
        t = .app g as ∧ isCandidate bound g as = true := by
      split <;> simp_all
    rw [candidates, List.mem_append, hhere, Expr.mem_candidatesList]
    constructor
    · rintro (⟨rfl, hcand⟩ | ⟨a, ha, ht⟩)
      · exact ⟨.here, g, as, rfl, hcand⟩
      · obtain ⟨h, hfit⟩ := (ih a ha).1 ht
        exact ⟨.arg ha h, hfit⟩
    · rintro ⟨h, hfit⟩
      cases h with
      | here =>
        obtain ⟨f, args, heq, hcand⟩ := hfit
        cases heq
        exact .inl ⟨rfl, hcand⟩
      | arg ha h => exact .inr ⟨_, ha, (ih _ ha).2 ⟨h, hfit⟩⟩
  | applyLambda s g as ihg ih =>
    rw [candidates, List.mem_append, Expr.mem_candidatesList]
    constructor
    · rintro (ht | ⟨a, ha, ht⟩)
      · exact (ihg.1 ht).imp_left .lambda
      · exact ((ih a ha).1 ht).imp_left (.lambdaArg ha)
    · rintro ⟨h, hfit⟩
      cases h with
      | here => obtain ⟨_, _, heq, -⟩ := hfit; cases heq
      | lambda h => exact .inl (ihg.2 ⟨h, hfit⟩)
      | lambdaArg ha h => exact .inr ⟨_, ha, (ih _ ha).2 ⟨h, hfit⟩⟩
  | not e ih =>
    rw [candidates]
    refine ⟨fun ht => (ih.1 ht).imp_left .not, ?_⟩
    rintro ⟨h, hfit⟩
    cases h with
    | here => obtain ⟨_, _, heq, -⟩ := hfit; cases heq
    | not h => exact ih.2 ⟨h, hfit⟩
  | binary op a b iha ihb =>
    rw [candidates, List.mem_append]
    constructor
    · rintro (ht | ht)
      · exact (iha.1 ht).imp_left .left
      · exact (ihb.1 ht).imp_left .right
    · rintro ⟨h, hfit⟩
      cases h with
      | here => obtain ⟨_, _, heq, -⟩ := hfit; cases heq
      | left h => exact .inl (iha.2 ⟨h, hfit⟩)
      | right h => exact .inr (ihb.2 ⟨h, hfit⟩)
  | multi op es ih =>
    rw [candidates, Expr.mem_candidatesList]
    constructor
    · rintro ⟨a, ha, ht⟩
      exact ((ih a ha).1 ht).imp_left (.operand ha)
    · rintro ⟨h, hfit⟩
      cases h with
      | here => obtain ⟨_, _, heq, -⟩ := hfit; cases heq
      | operand ha h => exact ⟨_, ha, (ih _ ha).2 ⟨h, hfit⟩⟩
  | ite c a b ihc iha ihb =>
    rw [candidates, List.mem_append, List.mem_append]
    constructor
    · rintro ((ht | ht) | ht)
      · exact (ihc.1 ht).imp_left .guard
      · exact (iha.1 ht).imp_left .thenArm
      · exact (ihb.1 ht).imp_left .elseArm
    · rintro ⟨h, hfit⟩
      cases h with
      | here => obtain ⟨_, _, heq, -⟩ := hfit; cases heq
      | guard h => exact .inl (.inl (ihc.2 ⟨h, hfit⟩))
      | thenArm h => exact .inl (.inr (iha.2 ⟨h, hfit⟩))
      | elseArm h => exact .inr (ihb.2 ⟨h, hfit⟩)

/-- What is collected are the candidates. -/
theorem mem_candidates : t ∈ candidates bound body ↔ Candidate bound body t := by
  rw [mem_candidates_iff]
  constructor
  · rintro ⟨h, f, args, rfl, hcand⟩
    obtain ⟨hbox, hargs, hmentions⟩ := isCandidate_iff.1 hcand
    exact ⟨h, ⟨f, args, rfl, hbox, hargs⟩, hmentions⟩
  · rintro ⟨h, ⟨f, args, rfl, hbox, hargs⟩, hmentions⟩
    exact ⟨h, f, args, rfl, isCandidate_iff.2 ⟨hbox, hargs, hmentions⟩⟩

theorem Candidate.plain (h : Candidate bound body t) : Plain t := by
  obtain ⟨f, args, rfl, -, hargs⟩ := h.app
  exact .app f hargs

/-! ## The variables of a candidate -/

theorem nodup_eraseDups (xs : List String) : xs.eraseDups.Nodup := by
  match xs with
  | [] => simp
  | x :: xs =>
    rw [List.eraseDups_cons, List.nodup_cons, List.mem_eraseDups, List.mem_filter]
    have hlen : (xs.filter fun y => !y == x).length ≤ xs.length := List.length_filter_le _ _
    exact ⟨fun h => by simp at h, nodup_eraseDups _⟩
termination_by xs.length

theorem nodup_mentioned : (mentioned bound t).Nodup := nodup_eraseDups _

theorem mem_mentioned (ht : Plain t) : x ∈ mentioned bound t ↔ x ∈ bound ∧ x ∈ t.free := by
  rw [mentioned, List.mem_eraseDups, List.mem_filter, List.contains_iff_mem, ht.mem_vars, and_comm]

/-- A list without repetitions of bound variables holds all of them exactly if it is as long. -/
theorem length_eq_iff (hbound : bound.Nodup) (hcovered : covered.Nodup) (hsub : covered ⊆ bound) :
    covered.length = bound.length ↔ bound ⊆ covered := by
  have hsubperm := hcovered.subperm hsub
  constructor
  · intro hlen x hx
    exact (hsubperm.perm_of_length_le hlen.ge).mem_iff.2 hx
  · intro hall
    exact le_antisymm hsubperm.length_le (hbound.subperm hall).length_le

theorem mentioned_full_iff (hbound : bound.Nodup) (ht : Plain t) :
    ((mentioned bound t).length == bound.length) = true ↔ ∀ x ∈ bound, x ∈ t.free := by
  have hsub : mentioned bound t ⊆ bound := fun x hx => ((mem_mentioned ht).1 hx).1
  rw [beq_iff_eq, length_eq_iff hbound nodup_mentioned hsub]
  exact forall_congr' fun x => imp_congr_right fun hx => by simp [mem_mentioned ht, hx]

/-! ## The smallest term -/

theorem smallest?_isSome (ht : t ∈ ts) : (smallest? ts).isSome := by
  cases ts with
  | nil => cases ht
  | cons u ts =>
    rw [smallest?]
    split
    · rfl
    · split <;> rfl

theorem smallest?_le (h : smallest? ts = some t) (hu : u ∈ ts) : size t ≤ size u := by
  induction ts generalizing t with
  | nil => cases hu
  | cons w ts ih =>
    rw [smallest?] at h
    split at h
    · rename_i hnone
      cases h
      obtain rfl | hu := List.mem_cons.1 hu
      · exact le_rfl
      · exact absurd (smallest?_isSome hu) (by simp [hnone])
    · rename_i v hv
      split at h <;> cases h <;> obtain rfl | hu := List.mem_cons.1 hu
      · exact le_rfl
      · have := ih hv hu
        omega
      · omega
      · exact ih hv hu

/-! ## Covers -/

/-- The variables that a term adds to those covered. -/
def added (bound covered : List String) (t : Expr) : List String :=
  (mentioned bound t).filter fun x => !covered.contains x

/-- The term, if it adds a variable. -/
def taken (bound covered : List String) (t : Expr) : List Expr :=
  if (added bound covered t).isEmpty then [] else [t]

theorem cover?_cons : cover? bound covered (t :: ts) =
    if (covered ++ added bound covered t).length = bound.length then some (taken bound covered t)
    else (cover? bound (covered ++ added bound covered t) ts).map (taken bound covered t ++ ·) := by
  simp only [cover?, beq_iff_eq]
  rfl

theorem mem_added (ht : Plain t) :
    x ∈ added bound covered t ↔ (x ∈ bound ∧ x ∈ t.free) ∧ x ∉ covered := by
  rw [added, List.mem_filter, mem_mentioned ht]
  simp

/-- What is covered has no repetitions. -/
theorem nodup_covered (hcovered : covered.Nodup) : (covered ++ added bound covered t).Nodup := by
  refine hcovered.append (nodup_mentioned.filter _) fun x hx hnew => ?_
  simpa [hx] using (List.mem_filter.1 hnew).2

theorem covered_subset (ht : Plain t) (hsub : covered ⊆ bound) :
    covered ++ added bound covered t ⊆ bound :=
  List.append_subset.2 ⟨hsub, fun _ hx => ((mem_added ht).1 hx).1.1⟩

theorem mem_covered (ht : Plain t) (hx : x ∈ bound) :
    x ∈ covered ++ added bound covered t ↔ x ∈ covered ∨ x ∈ t.free := by
  rw [List.mem_append, mem_added ht]
  tauto

/-- A term is taken if it adds a variable. -/
theorem mem_taken (h : x ∈ added bound covered t) : t ∈ taken bound covered t := by
  have hne : (added bound covered t).isEmpty = false := by
    simpa using List.ne_nil_of_mem h
  simp [taken, hne]

/-- A cover mentions what was not covered before. -/
theorem cover?_mentions (hbound : bound.Nodup) (hts : ∀ t ∈ ts, Plain t)
    (hcovered : covered.Nodup) (hsub : covered ⊆ bound) (h : cover? bound covered ts = some us)
    (hx : x ∈ bound) : x ∈ covered ∨ ∃ t ∈ us, x ∈ t.free := by
  induction ts generalizing covered us with
  | nil => simp [cover?] at h
  | cons t ts ih =>
    obtain ⟨ht, hts⟩ := List.forall_mem_cons.1 hts
    -- what is covered with `t` was covered before, or `t` is taken and mentions it
    have hcase (hnew : x ∈ covered ++ added bound covered t) :
        x ∈ covered ∨ t ∈ taken bound covered t ∧ x ∈ t.free := by
      obtain hold | hadd := List.mem_append.1 hnew
      · exact .inl hold
      · exact .inr ⟨mem_taken hadd, ((mem_added ht).1 hadd).1.2⟩
    rw [cover?_cons] at h
    split at h
    · rename_i hlen
      cases h
      have hall := (length_eq_iff hbound (nodup_covered hcovered) (covered_subset ht hsub)).1 hlen
      exact (hcase (hall hx)).imp_right fun htaken => ⟨t, htaken⟩
    · obtain ⟨rest, hrest, rfl⟩ := Option.map_eq_some_iff.1 h
      obtain hnew | ⟨u, hu, hfree⟩ :=
        ih hts (nodup_covered hcovered) (covered_subset ht hsub) hrest
      · exact (hcase hnew).imp_right fun h => ⟨t, List.mem_append_left _ h.1, h.2⟩
      · exact .inr ⟨u, List.mem_append_right _ hu, hfree⟩

/-- A cover is found if the terms mention all that is not covered yet. -/
theorem cover?_isSome (hbound : bound.Nodup) (hts : ∀ t ∈ ts, Plain t)
    (hcovered : covered.Nodup) (hsub : covered ⊆ bound) (hopen : covered.length ≠ bound.length)
    (hall : ∀ x ∈ bound, x ∈ covered ∨ ∃ t ∈ ts, x ∈ t.free) :
    (cover? bound covered ts).isSome := by
  induction ts generalizing covered with
  | nil =>
    refine absurd ((length_eq_iff hbound hcovered hsub).2 fun x hx => ?_) hopen
    simpa using hall x hx
  | cons t ts ih =>
    obtain ⟨ht, hts⟩ := List.forall_mem_cons.1 hts
    rw [cover?_cons]
    split
    · rfl
    · rename_i hlen
      rw [Option.isSome_map]
      refine ih hts (nodup_covered hcovered) (covered_subset ht hsub) hlen fun x hx => ?_
      rw [mem_covered ht hx]
      obtain hold | ⟨u, hu, hfree⟩ := hall x hx
      · exact .inl (.inl hold)
      · obtain rfl | hu := List.mem_cons.1 hu
        · exact .inl (.inr hfree)
        · exact .inr ⟨u, hu, hfree⟩

/-! ## The choice -/

/-- How the trigger is chosen: a smallest candidate that mentions all bound variables, or if there
is none a cover of candidates. -/
theorem select_cases (body : Expr) (hbound : bound.Nodup) (hne : bound ≠ []) :
    (∃ t, select bound body = [[t]] ∧ Candidate bound body t ∧ (∀ x ∈ bound, x ∈ t.free) ∧
      ∀ u, Candidate bound body u → (∀ x ∈ bound, x ∈ u.free) → size t ≤ size u) ∨
    ((¬ ∃ t, Candidate bound body t ∧ ∀ x ∈ bound, x ∈ t.free) ∧
      select bound body =
        (cover? bound [] ((candidates bound body).mergeSort (before bound))).toList) := by
  have hfull : ∀ t, t ∈ ((candidates bound body).filter fun t =>
      (mentioned bound t).length == bound.length) ↔
      Candidate bound body t ∧ ∀ x ∈ bound, x ∈ t.free := by
    intro t
    rw [List.mem_filter, mem_candidates]
    exact and_congr_right fun ht => mentioned_full_iff hbound ht.plain
  have hempty : bound.isEmpty = false := by simpa using hne
  simp only [select, hempty, Bool.false_eq_true, if_false]
  split
  · rename_i t ht
    obtain ⟨hcand, hall⟩ := (hfull t).1 (Expr.smallest?_mem ht)
    exact .inl ⟨t, rfl, hcand, hall, fun u hu hallu => smallest?_le ht ((hfull u).2 ⟨hu, hallu⟩)⟩
  · rename_i hnone
    refine .inr ⟨fun ⟨t, ht⟩ => ?_, rfl⟩
    exact absurd (smallest?_isSome ((hfull t).2 ht)) (by simp [hnone])

theorem mem_sorted :
    t ∈ (candidates bound body).mergeSort (before bound) ↔ Candidate bound body t := by
  rw [List.mem_mergeSort, mem_candidates]

theorem select_length_le : (select bound body).length ≤ 1 := by
  simp only [select]
  split
  · simp
  · split
    · simp
    · cases cover? bound [] ((candidates bound body).mergeSort (before bound)) <;> simp

theorem select_nil : select [] body = [] := rfl

/-- The terms of the trigger are candidates. -/
theorem candidate_of_mem_select (hus : us ∈ select bound body) (ht : t ∈ us) :
    Candidate bound body t :=
  mem_candidates.1 (Expr.mem_candidates_of_select hus ht)

/-- The terms of the trigger mention all bound variables. -/
theorem mentions_of_mem_select (hbound : bound.Nodup) (hus : us ∈ select bound body)
    (hx : x ∈ bound) : ∃ t ∈ us, x ∈ t.free := by
  obtain ⟨u, hselect, -, hall, -⟩ | ⟨-, hselect⟩ :=
    select_cases body hbound (List.ne_nil_of_mem hx)
  · rw [hselect, List.mem_singleton] at hus
    exact ⟨u, by simp [hus], hall x hx⟩
  · rw [hselect, Option.mem_toList] at hus
    have hplain : ∀ t ∈ (candidates bound body).mergeSort (before bound), Plain t :=
      fun t ht => (mem_sorted.1 ht).plain
    obtain hcovered | h := cover?_mentions hbound hplain List.nodup_nil (List.nil_subset _) hus hx
    · cases hcovered
    · exact h

/-- There is a trigger if the candidates together mention all bound variables. -/
theorem select_ne_nil (hbound : bound.Nodup) (hne : bound ≠ [])
    (hall : ∀ x ∈ bound, ∃ t, Candidate bound body t ∧ x ∈ t.free) : select bound body ≠ [] := by
  obtain ⟨u, hselect, -⟩ | ⟨-, hselect⟩ := select_cases body hbound hne
  · simp [hselect]
  · have hplain : ∀ t ∈ (candidates bound body).mergeSort (before bound), Plain t :=
      fun t ht => (mem_sorted.1 ht).plain
    have hopen : ([] : List String).length ≠ bound.length := by
      simpa [eq_comm] using hne
    have hsome := cover?_isSome hbound hplain List.nodup_nil (List.nil_subset _) hopen
      fun x hx => .inr (by simpa only [mem_sorted] using hall x hx)
    rw [hselect]
    obtain ⟨us, hus⟩ := Option.isSome_iff_exists.1 hsome
    simp [hus]

/-- At most one trigger is chosen. Its terms are candidates and together mention all bound
variables; a candidate that mentions all of them alone is preferred, a smallest one; and there is no
trigger only if there is nothing to mention or some bound variable is in no candidate. -/
theorem select_valid_complete (hbound : bound.Nodup) (body : Expr) :
    (select bound body).length ≤ 1 ∧
    (∀ trigger ∈ select bound body, ∀ t ∈ trigger, Candidate bound body t) ∧
    (∀ trigger ∈ select bound body, ∀ x ∈ bound, ∃ t ∈ trigger, x ∈ t.free) ∧
    ((∃ t, Candidate bound body t ∧ ∀ x ∈ bound, x ∈ t.free) →
      ∃ t, select bound body = [[t]] ∧ Candidate bound body t ∧ (∀ x ∈ bound, x ∈ t.free) ∧
        ∀ u, Candidate bound body u → (∀ x ∈ bound, x ∈ u.free) → size t ≤ size u) ∧
    (select bound body = [] ↔
      bound = [] ∨ ∃ x ∈ bound, ∀ t, Candidate bound body t → x ∉ t.free) := by
  refine ⟨select_length_le, fun _ hus _ => candidate_of_mem_select hus,
    fun _ hus _ => mentions_of_mem_select hbound hus, ?full, ?empty⟩
  case full =>
    rintro ⟨t, ht, hall⟩
    obtain ⟨x, hx, -⟩ := ht.mentions
    obtain h | ⟨hnone, -⟩ := select_cases body hbound (List.ne_nil_of_mem hx)
    · exact h
    · exact absurd ⟨t, ht, hall⟩ hnone
  case empty =>
    constructor
    · intro hempty
      by_contra hcover
      push Not at hcover
      exact select_ne_nil hbound hcover.1 hcover.2 hempty
    · rintro (rfl | ⟨x, hx, hmissed⟩)
      · exact select_nil
      · refine List.eq_nil_iff_forall_not_mem.2 fun us hus => ?_
        obtain ⟨t, ht, hfree⟩ := mentions_of_mem_select hbound hus hx
        exact hmissed t (candidate_of_mem_select hus ht) hfree

/-- A comparison of two terms that mention one variable each. -/
def comparison : Expr := .binary .lt (.app "f" [.var "x"]) (.app "g" [.var "y"])

theorem candidate_of_var {f x : String} (hx : x ∈ ["x", "y"]) (hf : isBoxing f = false)
    (h : Exposed (.app f [.var x]) comparison) :
    Candidate ["x", "y"] comparison (.app f [.var x]) where
  exposed := h
  app := by
    refine ⟨f, [.var x], rfl, fun hbox => ?_, fun a ha => ?_⟩
    · simp [isBoxing_iff.2 hbox] at hf
    · rw [List.mem_singleton.1 ha]
      exact .var x
  mentions := ⟨x, hx, by simp [Expr.free, Expr.freeList]⟩

/-- Neither side of the comparison mentions both variables. Together they do, so there is a
trigger, and its terms mention both. -/
theorem select_valid_complete_comparison :
    ["x", "y"].Nodup ∧ select ["x", "y"] comparison ≠ [] ∧
      ∀ trigger ∈ select ["x", "y"] comparison, ∀ x ∈ ["x", "y"], ∃ t ∈ trigger, x ∈ t.free := by
  have hnodup : ["x", "y"].Nodup := by decide
  obtain ⟨-, -, hmentions, -, hempty⟩ := select_valid_complete hnodup comparison
  refine ⟨hnodup, fun h => ?_, hmentions⟩
  obtain h | ⟨x, hx, hmissed⟩ := hempty.1 h
  · cases h
  · obtain rfl | rfl : x = "x" ∨ x = "y" := by simpa using hx
    · exact hmissed (.app "f" [.var "x"]) (candidate_of_var hx (by decide) (.left .here))
        (by simp [Expr.free, Expr.freeList])
    · exact hmissed (.app "g" [.var "y"]) (candidate_of_var hx (by decide) (.right .here))
        (by simp [Expr.free, Expr.freeList])

end ContractLowering.Triggers
