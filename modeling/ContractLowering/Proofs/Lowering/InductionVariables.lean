import ContractLowering.Lowering.Induction
import ContractLowering.Proofs.Lowering.Returns
import ContractLowering.Proofs.Source.Semantics

/-!
# The variables that induction is on

The heuristic picks, of the variables of a quantifier, those that the goal mentions (level 0), that
occur in an argument of a call (1), that are an argument themselves (2) and that are one of a
recursive call (3 and above). A higher level picks fewer of them (`inductionVars_levels`), with one
exception: where calls are looked at, the binders around them are not, so level 1 also picks a
variable of which the goal mentions only namesakes, bound inside the goal
(`inductionVars_namesake`).
-/

namespace ContractLowering

open Source

/-! ## Places in an expression -/

namespace Source.Expr

/-- `e.Holds xs d`: the expression `d` stands somewhere in `e`, below binders of the names `xs`. -/
inductive Holds : Expr → List String → Expr → Prop
  | here (e : Expr) : Holds e [] e
  | part {e d : Expr} {p : List String × Expr} {xs : List String} (hp : p ∈ e.parts)
      (h : Holds p.2 xs d) : Holds e (p.1 ++ xs) d

variable {e d : Expr} {x : String}

/-- A variable occurs free in an expression if it stands at a place where nothing binds it. -/
theorem mem_freeVars_iff_holds : x ∈ e.freeVars ↔ ∃ xs i, e.Holds xs (.var i x) ∧ x ∉ xs := by
  induction e using recParts with | h e ih => ?_
  rw [mem_freeVars]
  constructor
  · rintro (⟨i, rfl⟩ | ⟨p, hp, hx, hbound⟩)
    · exact ⟨[], i, .here _, List.not_mem_nil⟩
    · obtain ⟨xs, i, hd, hxs⟩ := (ih p hp).1 hx
      exact ⟨p.1 ++ xs, i, .part hp hd, by simp [hbound, hxs]⟩
  · rintro ⟨xs, i, hd, hxs⟩
    cases hd with
    | here => exact .inl ⟨i, rfl⟩
    | @part _ _ p ys hp hd =>
      rw [List.mem_append, not_or] at hxs
      exact .inr ⟨p, hp, (ih p hp).2 ⟨ys, i, hd, hxs.2⟩, hxs.1⟩

/-- What stands in a subexpression stands in the expression. -/
theorem Holds.of_mem_subexprs {xs : List String} {a : Expr} (hd : d ∈ e.subexprs)
    (h : d.Holds xs a) : ∃ ys, e.Holds ys a := by
  induction e using recParts with | h e ih => ?_
  rcases mem_subexprs.1 hd with rfl | ⟨p, hp, hd⟩
  · exact ⟨xs, h⟩
  · obtain ⟨ys, hys⟩ := ih p hp hd
    exact ⟨_, .part hp hys⟩

/-- What stands in the receiver or an argument of a call stands in the call. -/
theorem Holds.of_arg {i : Info} {f : Path} {r : Option Expr} {es : List Expr} {a : Expr}
    {xs : List String} (ha : a ∈ r.toList ++ es) (h : a.Holds xs d) :
    (Expr.call i f r es).Holds xs d :=
  .part (p := ([], a)) (List.mem_map.2 ⟨a, ha, rfl⟩) h

end Source.Expr

/-- Every occurrence of the variable in the expressions is one of a namesake: it stands below an
inner binder of that name. -/
def OnlyNamesakes (es : List Source.Expr) (x : String) : Prop :=
  ∀ e ∈ es, ∀ xs i, e.Holds xs (.var i x) → x ∈ xs

/-! ## Candidates -/

namespace Induction

variable {graph : CallGraph} {es : List Source.Expr} {x : String}

/-- The variables that induction may be on, for a call graph. -/
def candidateNames (graph : CallGraph) (level : Nat) (es : List Source.Expr) : List String :=
  match level with
  | 0 => es.flatMap Source.Expr.freeVars
  | 1 => (calls es).flatMap fun c => c.2.flatMap Source.Expr.freeVars
  | 2 => (calls es).flatMap fun c => direct c.2
  | _ => ((calls es).filter fun c => graph.isRecursive c.1).flatMap fun c => direct c.2

theorem returns_candidates {env : Env} {level : Nat} {found : List String} :
    (candidates level es).Returns env found ↔
      found = candidateNames env.context.calls level es := by
  simp only [candidates, ExprM.returns_bind, ExprM.returns_env, exists_eq_left]
  rcases level with _ | _ | _ | n
  all_goals exact ExprM.returns_pure

theorem mem_direct {args : List Source.Expr} : x ∈ direct args ↔ ∃ i, .var i x ∈ args := by
  simp only [direct, List.mem_filterMap]
  constructor
  · rintro ⟨a, ha, hx⟩
    cases a with
    | var i y =>
      obtain rfl := Option.some.inj hx
      exact ⟨i, ha⟩
    | _ => simp at hx
  · rintro ⟨i, hi⟩
    exact ⟨_, hi, rfl⟩

theorem mem_calls {c : Path × List Source.Expr} : c ∈ calls es ↔
    ∃ e ∈ es, ∃ i r as, .call i c.1 r as ∈ e.subexprs ∧ c.2 = r.toList ++ as := by
  simp only [calls, List.mem_flatMap, List.mem_filterMap]
  refine exists_congr fun e => and_congr_right fun _ => ⟨?_, ?_⟩
  · rintro ⟨d, hd, hc⟩
    cases d with
    | call i f r as =>
      obtain rfl := Option.some.inj hc
      exact ⟨i, r, as, hd, rfl⟩
    | _ => simp at hc
  · rintro ⟨i, r, as, hd, hc⟩
    exact ⟨_, hd, by simp [← hc]⟩

/-- An argument of a recursive call is an argument of a call. -/
theorem candidateNames_three (n : Nat) :
    candidateNames graph (n + 3) es ⊆ candidateNames graph 2 es := by
  intro x hx
  simp only [candidateNames, List.mem_flatMap, List.mem_filter] at hx ⊢
  obtain ⟨c, ⟨hc, -⟩, hx⟩ := hx
  exact ⟨c, hc, hx⟩

/-- An argument occurs in an argument. -/
theorem candidateNames_two : candidateNames graph 2 es ⊆ candidateNames graph 1 es := by
  intro x hx
  simp only [candidateNames, List.mem_flatMap] at hx ⊢
  obtain ⟨c, hc, hx⟩ := hx
  obtain ⟨i, hi⟩ := mem_direct.1 hx
  exact ⟨c, hc, _, hi, List.mem_singleton.2 rfl⟩

/-- What occurs in an argument occurs in the expressions, possibly below inner binders. -/
theorem holds_of_mem_candidateNames_one (hx : x ∈ candidateNames graph 1 es) :
    ∃ e ∈ es, ∃ xs i, e.Holds xs (.var i x) := by
  simp only [candidateNames, List.mem_flatMap] at hx
  obtain ⟨c, hc, a, ha, hx⟩ := hx
  obtain ⟨e, he, i, r, as, hcall, hargs⟩ := mem_calls.1 hc
  obtain ⟨xs, j, hvar, -⟩ := Source.Expr.mem_freeVars_iff_holds.1 hx
  obtain ⟨ys, hys⟩ := Source.Expr.Holds.of_mem_subexprs hcall (.of_arg (hargs ▸ ha) hvar)
  exact ⟨e, he, ys, j, hys⟩

theorem mem_candidateNames_zero :
    x ∈ candidateNames graph 0 es ↔ ∃ e ∈ es, ∃ xs i, e.Holds xs (.var i x) ∧ x ∉ xs := by
  simp only [candidateNames, List.mem_flatMap, Source.Expr.mem_freeVars_iff_holds]

/-- A variable is mentioned unless there are namesakes only. -/
theorem mem_candidateNames_zero_iff : x ∈ candidateNames graph 0 es ↔ ¬ OnlyNamesakes es x := by
  rw [mem_candidateNames_zero, OnlyNamesakes]
  push Not
  rfl

/-- From one level to the next, only variables with nothing but namesakes in the expressions can be
added, and only at the lowest level. -/
theorem candidateNames_succ {level : Nat} (hx : x ∈ candidateNames graph (level + 1) es) :
    x ∈ candidateNames graph level es ↔ (level = 0 → ¬ OnlyNamesakes es x) := by
  match level with
  | 0 => simp [mem_candidateNames_zero_iff]
  | 1 => exact iff_of_true (candidateNames_two hx) (by simp)
  | 2 => exact iff_of_true (candidateNames_three 0 hx) (by simp)
  | _ + 3 => exact iff_of_true hx (by simp)

/-- The binders of inductive types among the candidates of a level. -/
def chosen (graph : CallGraph) (level : Nat) (binders : List Source.Binder)
    (es : List Source.Expr) : List Source.Binder :=
  binders.filter fun b => b.2.isInductive && (candidateNames graph level es).contains b.1

theorem mem_chosen {level : Nat} {binders : List Source.Binder} {b : Source.Binder} :
    b ∈ chosen graph level binders es ↔
      b ∈ binders ∧ b.2.isInductive = true ∧ b.1 ∈ candidateNames graph level es := by
  simp [chosen]

theorem returns_inductionVars {env : Env} {binders chosen' : List Source.Binder} :
    (inductionVars .default binders es).Returns env chosen' ↔
      chosen' = chosen env.context.calls env.context.options.induction binders es := by
  unfold inductionVars
  simp only [ExprM.returns_bind, ExprM.returns_options, returns_candidates, exists_eq_left,
    ExprM.returns_pure, chosen]

end Induction

/-! ## Levels -/

theorem filter_sublist_of_imp {α : Type} {p q : α → Bool} {l : List α}
    (h : ∀ a ∈ l, p a = true → q a = true) : (l.filter p).Sublist (l.filter q) := by
  have heq : l.filter p = (l.filter q).filter p := by
    rw [List.filter_filter]
    exact List.filter_congr fun a ha => by
      cases hp : p a with
      | false => rfl
      | true => rw [h a ha hp, Bool.and_true]
  rw [heq]
  exact List.filter_sublist

/-- An environment with another level of the heuristic. -/
def Env.atLevel (env : Env) (level : Nat) : Env :=
  { env with context := { env.context with
      options := { env.context.options with induction := level } } }

/-- **Levels of induction.** At every level the heuristic answers with some of the binders, in their
order. What it picks at the next level is picked at this one as well, and this exactly if none of the
variables that level 1 picks has only namesakes in the expressions. -/
theorem inductionVars_levels (env : Env) (binders : List Source.Binder) (es : List Source.Expr)
    (level : Nat) :
    ∃ here higher, (inductionVars .default binders es).Returns (env.atLevel level) here ∧
      (inductionVars .default binders es).Returns (env.atLevel (level + 1)) higher ∧
      here.Sublist binders ∧ higher.Sublist binders ∧
      (higher.Sublist here ↔ ∀ b ∈ higher, level = 0 → ¬ OnlyNamesakes es b.1) := by
  refine ⟨_, _, Induction.returns_inductionVars.2 rfl, Induction.returns_inductionVars.2 rfl,
    List.filter_sublist, List.filter_sublist, ?_⟩
  set graph := env.context.calls
  change (Induction.chosen graph (level + 1) binders es).Sublist
    (Induction.chosen graph level binders es) ↔ ∀ b ∈ Induction.chosen graph (level + 1) binders es, _
  have next {b : Source.Binder} (hb : b ∈ Induction.chosen graph (level + 1) binders es) :
      b ∈ Induction.chosen graph level binders es ↔ (level = 0 → ¬ OnlyNamesakes es b.1) := by
    obtain ⟨hmem, htyp, hname⟩ := Induction.mem_chosen.1 hb
    rw [Induction.mem_chosen, ← Induction.candidateNames_succ hname]
    simp [hmem, htyp]
  constructor
  · exact fun h b hb => (next hb).1 (h.subset hb)
  · intro h
    -- both lists are filters of the binders, so inclusion keeps the order
    exact filter_sublist_of_imp fun b hb hhigher =>
      (List.mem_filter.1 ((next (List.mem_filter.2 ⟨hb, hhigher⟩)).2
        (h b (List.mem_filter.2 ⟨hb, hhigher⟩)))).2

/-- The goal that some inner `n` satisfies the predicate: nothing in it depends on another `n`. -/
def innerGoal : Source.Expr :=
  let n : Source.Expr := .mkVar default "n" .nat
  .quant ⟨default, .bool⟩ .ex [("n", .nat)] none
    (.call ⟨default, .bool⟩ ⟨"M", ["C", "p"]⟩ none [n]) [] .default

/-- Level 1 picks `n` for the goal that mentions an inner `n` only, level 0 does not: picking more at
a higher level is possible. -/
theorem inductionVars_namesake :
    ∃ (env : Env) (binders : List Source.Binder) (es : List Source.Expr)
      (here higher : List Source.Binder),
      (inductionVars .default binders es).Returns (env.atLevel 0) here ∧
      (inductionVars .default binders es).Returns (env.atLevel 1) higher ∧
      ¬ higher ⊆ here :=
  ⟨default, [("n", .nat)], [innerGoal], [], [("n", .nat)], rfl, rfl, by simp⟩

end ContractLowering
