import ContractLowering.IL.Program
import ContractLowering.Lowering.Triggers
import ContractLowering.Proofs.IL.Build
import ContractLowering.Proofs.IL.Recursor
import Mathlib.Data.List.Forall2
import Mathlib.Logic.Function.Basic

/-!
# Sorts of expressions

`Expr.sort?` computes the sort of an expression under a `Vocabulary`, which gives the sorts of
functions and of constants and variables, and under the sorts of the names in scope. There is none
if an operand or an argument somewhere has a wrong sort, triggers included.

What the folding constructors build has the sort that their operands ask for, and the triggers
chosen for a well-sorted formula are well sorted, since they are parts of it outside its binders
(`select_sorted`).
-/

namespace ContractLowering.IL

/-- What is declared: functions with the sorts of their arguments and of their value, constants and
variables with their sort. -/
structure Vocabulary where
  func : String → Option (List Srt × Srt)
  global : String → Option Srt

/-- That a signature holds what a declaration declares. -/
def Vocabulary.Declares (Δ : Vocabulary) : Decl → Prop
  | .func f args result => Δ.func f = some (args, result)
  | .const x s | .uniqueConst x s | .var x s => Δ.global x = some s
  | _ => True

/-- The sorts of the names in scope. -/
abbrev Sorts : Type := String → Option Srt

/-- Sorts with names bound, of which later ones hide earlier ones. -/
def Sorts.bind (bs : List Binder) (G : Sorts) : Sorts :=
  bs.foldl (fun G b => Function.update G b.1 (some b.2)) G

/-- The sort of an operator at the sorts of its two operands. -/
def BinOp.sort? : BinOp → Srt → Srt → Option Srt
  | .implies, .bool, .bool => some .bool
  | .eq, s, t => if s = t then some .bool else none
  | .le, .int, .int | .ge, .int, .int | .lt, .int, .int | .gt, .int, .int => some .bool
  | .div, .int, .int | .mod, .int, .int => some .int
  | _, _, _ => none

/-- The sort of an operator at the sorts of its operands. -/
def MultiOp.sort? : MultiOp → List Srt → Option Srt
  | .and, ss | .or, ss => if ∀ s ∈ ss, s = .bool then some .bool else none
  | .add, ss | .sub, ss | .mul, ss => if ∀ s ∈ ss, s = .int then some .int else none
  | .distinct, ss => if ∀ s ∈ ss, ∀ t ∈ ss, s = t then some .bool else none

mutual

/-- The sort of an expression, if it is well sorted. -/
def Expr.sort? (Δ : Vocabulary) : Expr → Sorts → Option Srt
  | .bool _, _ => some .bool
  | .num _, _ => some .int
  | .var x, G => G x
  | .old x, _ => Δ.global x
  | .app f args, G =>
    (Δ.func f).bind fun p => if sorts? Δ args G = some p.1 then some p.2 else none
  | .applyLambda s f args, G =>
    if f.sort? Δ G = some .lambda ∧ (sorts? Δ args G).isSome then some s else none
  | .not e, G => if e.sort? Δ G = some .bool then some .bool else none
  | .binary op a b, G => (a.sort? Δ G).bind fun s => (b.sort? Δ G).bind fun t => op.sort? s t
  | .multi op es, G => (sorts? Δ es G).bind op.sort?
  | .ite c t e, G =>
    if c.sort? Δ G = some .bool ∧ t.sort? Δ G = e.sort? Δ G then t.sort? Δ G else none
  | .letIn bindings body, G =>
    (bindingSorts? Δ bindings G).bind fun bs => body.sort? Δ (G.bind bs)
  | .quant _ bs triggers body, G =>
    if body.sort? Δ (G.bind bs) = some .bool ∧ triggersSorted Δ triggers (G.bind bs) = true then
      some .bool
    else none
  | .lambda bs body, G => (body.sort? Δ (G.bind bs)).map fun _ => .lambda

/-- The sorts of several expressions. -/
def Expr.sorts? (Δ : Vocabulary) : List Expr → Sorts → Option (List Srt)
  | [], _ => some []
  | e :: es, G => (e.sort? Δ G).bind fun s => (sorts? Δ es G).map (s :: ·)

/-- The names a let binds with the sorts of their values. -/
def Expr.bindingSorts? (Δ : Vocabulary) : List (String × Expr) → Sorts → Option (List Binder)
  | [], _ => some []
  | (x, e) :: rest, G =>
    (e.sort? Δ G).bind fun s => (bindingSorts? Δ rest G).map ((x, s) :: ·)

/-- Whether the terms of triggers are well sorted. -/
def Expr.triggersSorted (Δ : Vocabulary) : List (List Expr) → Sorts → Bool
  | [], _ => true
  | t :: ts, G => (sorts? Δ t G).isSome && triggersSorted Δ ts G

end

/-! ## Names in scope -/

namespace Sorts

variable {bs : List Binder} {G : Sorts} {x : String}

@[simp] theorem bind_nil : bind [] G = G := rfl

@[simp] theorem bind_cons {b : Binder} :
    bind (b :: bs) G = bind bs (Function.update G b.1 (some b.2)) := rfl

theorem bind_of_notMem (h : x ∉ bs.map (·.1)) : bind bs G x = G x := by
  induction bs generalizing G with
  | nil => rfl
  | cons b bs ih =>
    simp only [List.map_cons, List.mem_cons, not_or] at h
    rw [bind_cons, ih h.2, Function.update_of_ne h.1]

/-- A name that is not bound may be set before or after. -/
theorem bind_update {s : Option Srt} (h : x ∉ bs.map (·.1)) :
    bind bs (Function.update G x s) = Function.update (bind bs G) x s := by
  induction bs generalizing G with
  | nil => rfl
  | cons b bs ih =>
    simp only [List.map_cons, List.mem_cons, not_or] at h
    rw [bind_cons, bind_cons, Function.update_comm h.1, ih h.2]

end Sorts

namespace Expr

variable {Δ : Vocabulary} {G : Sorts} {a b c : Expr} {s : Srt}

/-! ## Operators -/

theorem sort?_app_eq (f : String) (args : List Expr) : (app f args).sort? Δ G =
    (Δ.func f).bind fun p => if sorts? Δ args G = some p.1 then some p.2 else none := rfl

theorem sort?_applyLambda_eq (r : Srt) (f : Expr) (args : List Expr) :
    (applyLambda r f args).sort? Δ G =
      if f.sort? Δ G = some .lambda ∧ (sorts? Δ args G).isSome then some r else none := rfl

theorem sort?_not_eq (e : Expr) :
    (Expr.not e).sort? Δ G = if e.sort? Δ G = some .bool then some .bool else none := rfl

theorem sort?_binary_eq (op : BinOp) (a b : Expr) : (binary op a b).sort? Δ G =
    (a.sort? Δ G).bind fun s => (b.sort? Δ G).bind fun t => op.sort? s t := rfl

theorem sort?_multi_eq (op : MultiOp) (es : List Expr) :
    (multi op es).sort? Δ G = (sorts? Δ es G).bind op.sort? := rfl

theorem sort?_ite_eq (c t e : Expr) : (Expr.ite c t e).sort? Δ G =
    if c.sort? Δ G = some .bool ∧ t.sort? Δ G = e.sort? Δ G then t.sort? Δ G else none := rfl

theorem sort?_quant_eq (q : Quantifier) (bs : List Binder) (ts : List Trigger) (e : Expr) :
    (quant q bs ts e).sort? Δ G =
      if e.sort? Δ (G.bind bs) = some .bool ∧ triggersSorted Δ ts (G.bind bs) = true then
        some .bool
      else none := rfl

theorem sorts?_cons (e : Expr) (es : List Expr) : sorts? Δ (e :: es) G =
    (e.sort? Δ G).bind fun s => (sorts? Δ es G).map (s :: ·) := rfl

theorem sorts?_eq_some {es : List Expr} {ss : List Srt} :
    sorts? Δ es G = some ss ↔ List.Forall₂ (fun e s => e.sort? Δ G = some s) es ss := by
  induction es generalizing ss with
  | nil =>
    show some [] = some ss ↔ _
    simp [eq_comm]
  | cons e es ih =>
    simp only [sorts?_cons, Option.bind_eq_some_iff, Option.map_eq_some_iff, ih]
    constructor
    · rintro ⟨s, hs, ss, hss, rfl⟩
      exact .cons hs hss
    · rintro (_ | ⟨hs, hss⟩)
      exact ⟨_, hs, _, hss, rfl⟩

theorem bindingSorts?_eq_some {bs : List (String × Expr)} {ss : List Binder} :
    bindingSorts? Δ bs G = some ss ↔
      List.Forall₂ (fun b s => b.1 = s.1 ∧ b.2.sort? Δ G = some s.2) bs ss := by
  induction bs generalizing ss with
  | nil =>
    show some [] = some ss ↔ _
    simp [eq_comm]
  | cons b bs ih =>
    show ((b.2.sort? Δ G).bind fun s => (bindingSorts? Δ bs G).map ((b.1, s) :: ·)) = some ss ↔ _
    simp only [Option.bind_eq_some_iff, Option.map_eq_some_iff, ih]
    constructor
    · rintro ⟨s, hs, ss, hss, rfl⟩
      exact .cons ⟨rfl, hs⟩ hss
    · rintro (_ | @⟨_, ⟨x, s⟩, _, _, ⟨rfl, hs⟩, hss⟩)
      exact ⟨_, hs, _, hss, rfl⟩

theorem triggersSorted_iff {ts : List (List Expr)} :
    triggersSorted Δ ts G = true ↔ ∀ t ∈ ts, (sorts? Δ t G).isSome := by
  induction ts with
  | nil =>
    show true = true ↔ _
    simp
  | cons t ts ih =>
    show ((sorts? Δ t G).isSome && triggersSorted Δ ts G) = true ↔ _
    simp [ih]

@[simp] theorem sort?_bool (x : Bool) : (bool x).sort? Δ G = some .bool := rfl

@[simp] theorem sort?_tt : tt.sort? Δ G = some .bool := rfl

@[simp] theorem sort?_ff : ff.sort? Δ G = some .bool := rfl

@[simp] theorem sort?_nat (n : Nat) : (nat n).sort? Δ G = some .int := rfl

@[simp] theorem sort?_var (x : String) : (var x).sort? Δ G = G x := rfl

/-- An application has the sort of its function's value. -/
theorem sort?_app {f : String} {args : List Expr} {ss : List Srt} (hf : Δ.func f = some (ss, s))
    (hargs : List.Forall₂ (fun e s => e.sort? Δ G = some s) args ss) :
    (app f args).sort? Δ G = some s := by
  simp [sort?_app_eq, hf, sorts?_eq_some.2 hargs]

/-- The arguments of an application have the sorts that its function takes. -/
theorem args_of_sort?_app {f : String} {args : List Expr} (h : (app f args).sort? Δ G = some s) :
    ∃ ss, Δ.func f = some (ss, s) ∧
      List.Forall₂ (fun e s => e.sort? Δ G = some s) args ss := by
  simp only [sort?_app_eq, Option.bind_eq_some_iff, Option.ite_none_right_eq_some,
    Option.some.injEq] at h
  obtain ⟨⟨ss, r⟩, hf, hargs, rfl⟩ := h
  exact ⟨ss, hf, sorts?_eq_some.1 hargs⟩

theorem sort?_binary {op : BinOp} {s t r : Srt} (hop : op.sort? s t = some r)
    (ha : a.sort? Δ G = some s) (hb : b.sort? Δ G = some t) :
    (binary op a b).sort? Δ G = some r := by
  simp [sort?_binary_eq, ha, hb, hop]

theorem sort?_multi {op : MultiOp} {es : List Expr} {ss : List Srt} {r : Srt}
    (hop : op.sort? ss = some r) (hes : List.Forall₂ (fun e s => e.sort? Δ G = some s) es ss) :
    (multi op es).sort? Δ G = some r := by
  simp [sort?_multi_eq, sorts?_eq_some.2 hes, hop]

theorem sort?_sub (ha : a.sort? Δ G = some .int) (hb : b.sort? Δ G = some .int) :
    (sub a b).sort? Δ G = some .int :=
  sort?_multi rfl (.cons ha (.cons hb .nil))

theorem sort?_eq (ha : a.sort? Δ G = some s) (hb : b.sort? Δ G = some s) :
    (eq a b).sort? Δ G = some .bool :=
  sort?_binary (if_pos rfl) ha hb

theorem sort?_le (ha : a.sort? Δ G = some .int) (hb : b.sort? Δ G = some .int) :
    (le a b).sort? Δ G = some .bool :=
  sort?_binary rfl ha hb

theorem sort?_lt (ha : a.sort? Δ G = some .int) (hb : b.sort? Δ G = some .int) :
    (lt a b).sort? Δ G = some .bool :=
  sort?_binary rfl ha hb

theorem sort?_multi_and {es : List Expr} :
    (multi .and es).sort? Δ G = some .bool ↔ ∀ e ∈ es, e.sort? Δ G = some .bool := by
  induction es with
  | nil => exact ⟨fun _ => List.forall_mem_nil _, fun _ => rfl⟩
  | cons e es ih =>
    simp only [sort?_multi_eq, sorts?_cons, Option.bind_eq_some_iff, Option.map_eq_some_iff,
      MultiOp.sort?, Option.ite_none_right_eq_some, List.forall_mem_cons] at ih ⊢
    rw [← ih]
    constructor
    · rintro ⟨_, ⟨s, hs, ss, hss, rfl⟩, hall, -⟩
      simp only [List.forall_mem_cons] at hall
      exact ⟨hall.1 ▸ hs, ss, hss, hall.2, trivial⟩
    · rintro ⟨hs, ss, hss, hall, -⟩
      exact ⟨_, ⟨_, hs, ss, hss, rfl⟩, by simpa using hall, trivial⟩

theorem sort?_multi_or {es : List Expr} :
    (multi .or es).sort? Δ G = some .bool ↔ ∀ e ∈ es, e.sort? Δ G = some .bool :=
  sort?_multi_and

theorem sort?_neg (ha : a.sort? Δ G = some .bool) : a.neg.sort? Δ G = some .bool := by
  cases a with
  | bool => rfl
  | not e => exact (Option.ite_none_right_eq_some.1 ha).1
  | _ => exact if_pos ha

theorem sort?_ne (ha : a.sort? Δ G = some s) (hb : b.sort? Δ G = some s) :
    (ne a b).sort? Δ G = some .bool :=
  sort?_neg (sort?_eq ha hb)

theorem sort?_conjOperands {o : Expr} (ha : a.sort? Δ G = some .bool) (ho : o ∈ a.conjOperands) :
    o.sort? Δ G = some .bool := by
  unfold conjOperands at ho
  split at ho
  · cases ho
  · exact sort?_multi_and.1 ha o ho
  · obtain rfl := List.mem_singleton.1 ho
    exact ha

theorem sort?_disjOperands {o : Expr} (ha : a.sort? Δ G = some .bool) (ho : o ∈ a.disjOperands) :
    o.sort? Δ G = some .bool := by
  unfold disjOperands at ho
  split at ho
  · cases ho
  · exact sort?_multi_or.1 ha o ho
  · obtain rfl := List.mem_singleton.1 ho
    exact ha

theorem sort?_conj {es : List Expr} (h : ∀ e ∈ es, e.sort? Δ G = some .bool) :
    (conj es).sort? Δ G = some .bool := by
  have hops : ∀ o ∈ es.flatMap conjOperands, o.sort? Δ G = some .bool := by
    intro o ho
    obtain ⟨e, he, ho⟩ := List.mem_flatMap.1 ho
    exact sort?_conjOperands (h e he) ho
  unfold conj
  split
  · rfl
  · split
    · rfl
    · rename_i e heq
      exact hops e (by simp [heq])
    · exact sort?_multi_and.2 hops

theorem sort?_disj {es : List Expr} (h : ∀ e ∈ es, e.sort? Δ G = some .bool) :
    (disj es).sort? Δ G = some .bool := by
  have hops : ∀ o ∈ es.flatMap disjOperands, o.sort? Δ G = some .bool := by
    intro o ho
    obtain ⟨e, he, ho⟩ := List.mem_flatMap.1 ho
    exact sort?_disjOperands (h e he) ho
  unfold disj
  split
  · rfl
  · split
    · rfl
    · rename_i e heq
      exact hops e (by simp [heq])
    · exact sort?_multi_or.2 hops

theorem sort?_conj₂ (ha : a.sort? Δ G = some .bool) (hb : b.sort? Δ G = some .bool) :
    (conj [a, b]).sort? Δ G = some .bool :=
  sort?_conj (by simpa using ⟨ha, hb⟩)

theorem sort?_disj₂ (ha : a.sort? Δ G = some .bool) (hb : b.sort? Δ G = some .bool) :
    (disj [a, b]).sort? Δ G = some .bool :=
  sort?_disj (by simpa using ⟨ha, hb⟩)

theorem sort?_imp (ha : a.sort? Δ G = some .bool) (hb : b.sort? Δ G = some .bool) :
    (imp a b).sort? Δ G = some .bool := by
  unfold imp
  split
  · exact hb
  split
  · rfl
  split
  · exact sort?_neg ha
  · exact sort?_binary rfl ha hb

theorem sort?_cond (hc : c.sort? Δ G = some .bool) (ha : a.sort? Δ G = some s)
    (hb : b.sort? Δ G = some s) : (cond c a b).sort? Δ G = some s := by
  unfold cond
  split
  · exact ha
  split
  · exact hb
  · simp [sort?_ite_eq, hc, ha, hb]

/-! ## Binders -/

theorem sort?_lets {bs : List (String × Expr)} {ss : List Binder}
    (hbs : List.Forall₂ (fun b s => b.1 = s.1 ∧ b.2.sort? Δ G = some s.2) bs ss)
    (ha : a.sort? Δ (G.bind ss) = some s) : (lets bs a).sort? Δ G = some s := by
  cases hbs with
  | nil => exact ha
  | cons hb hbs =>
    have hsorts := bindingSorts?_eq_some.2 (List.Forall₂.cons hb hbs)
    show ((bindingSorts? Δ _ G).bind fun bs => a.sort? Δ (G.bind bs)) = some s
    rw [hsorts]
    exact ha

theorem sort?_quantify {q : Quantifier} {bs : List Binder} {ts : List Trigger}
    (ha : a.sort? Δ (G.bind bs) = some .bool)
    (hts : ∀ t ∈ ts, ∀ e ∈ t, (e.sort? Δ (G.bind bs)).isSome) :
    (quantify q bs ts a).sort? Δ G = some .bool := by
  have htriggers : triggersSorted Δ ts (G.bind bs) = true := by
    refine triggersSorted_iff.2 fun t ht => ?_
    have hterms := hts t ht
    clear ht
    induction t with
    | nil => rfl
    | cons e t ih =>
      simp only [List.forall_mem_cons, Option.isSome_iff_exists] at hterms ih ⊢
      obtain ⟨⟨s, hs⟩, hrest⟩ := hterms
      obtain ⟨ss, hss⟩ := ih hrest
      exact ⟨s :: ss, by simp [sorts?, hs, hss]⟩
  unfold quantify
  split
  · rename_i hempty
    rw [List.isEmpty_iff.1 hempty] at ha
    exact ha
  · simp [sort?_quant_eq, ha, htriggers]

theorem sort?_all {bs : List Binder} {ts : List Trigger}
    (ha : a.sort? Δ (G.bind bs) = some .bool)
    (hts : ∀ t ∈ ts, ∀ e ∈ t, (e.sort? Δ (G.bind bs)).isSome) :
    (all bs ts a).sort? Δ G = some .bool :=
  sort?_quantify ha hts

theorem sort?_ex {bs : List Binder} {ts : List Trigger}
    (ha : a.sort? Δ (G.bind bs) = some .bool)
    (hts : ∀ t ∈ ts, ∀ e ∈ t, (e.sort? Δ (G.bind bs)).isSome) :
    (ex bs ts a).sort? Δ G = some .bool :=
  sort?_quantify ha hts

theorem sort?_lambda {bs : List Binder} (ha : a.sort? Δ (G.bind bs) = some s) :
    (lambda bs a).sort? Δ G = some .lambda := by
  show (a.sort? Δ (G.bind bs)).map (fun _ => Srt.lambda) = some .lambda
  simp [ha]

end Expr

/-! ## Triggers -/

namespace Expr

open Triggers

variable {Δ : Vocabulary} {G : Sorts} {e t : Expr} {bound : List String}

theorem isSome_of_forall₂ {es : List Expr} {ss : List Srt}
    (h : List.Forall₂ (fun e s => e.sort? Δ G = some s) es ss) (he : e ∈ es) :
    (e.sort? Δ G).isSome := by
  induction h with
  | nil => cases he
  | cons hs _ ih =>
    rcases List.mem_cons.1 he with rfl | he
    · simp [hs]
    · exact ih he

theorem mem_candidatesList {es : List Expr} :
    t ∈ candidatesList bound es ↔ ∃ e ∈ es, t ∈ candidates bound e := by
  induction es with
  | nil => simp [candidatesList]
  | cons e es ih => simp [candidatesList, ih]

/-- The candidates in a well-sorted expression are well sorted: no binder is above them. -/
theorem candidates_sorted (h : (e.sort? Δ G).isSome) (ht : t ∈ candidates bound e) :
    (t.sort? Δ G).isSome := by
  induction e using Expr.recData with
  | bool | num | var | old | letIn | quant | lambda => simp [candidates] at ht
  | app f args ih =>
    obtain ⟨s, hs⟩ := Option.isSome_iff_exists.1 h
    obtain ⟨ss, hf, hargs⟩ := args_of_sort?_app hs
    rw [candidates, List.mem_append] at ht
    rcases ht with ht | ht
    · split at ht
      · obtain rfl := List.mem_singleton.1 ht
        exact h
      · cases ht
    · obtain ⟨a, ha, ht⟩ := mem_candidatesList.1 ht
      exact ih a ha (isSome_of_forall₂ hargs ha) ht
  | applyLambda s f args ihf ih =>
    simp only [sort?_applyLambda_eq, Option.isSome_ite] at h
    obtain ⟨hf, hargs⟩ := h
    rw [candidates, List.mem_append] at ht
    rcases ht with ht | ht
    · exact ihf (by simp [hf]) ht
    · obtain ⟨a, ha, ht⟩ := mem_candidatesList.1 ht
      obtain ⟨ss, hss⟩ := Option.isSome_iff_exists.1 hargs
      exact ih a ha (isSome_of_forall₂ (sorts?_eq_some.1 hss) ha) ht
  | not e ih =>
    simp only [sort?_not_eq, Option.isSome_ite] at h
    exact ih (by simp [h]) ht
  | binary op a b iha ihb =>
    obtain ⟨s, hs⟩ := Option.isSome_iff_exists.1 h
    simp only [sort?_binary_eq, Option.bind_eq_some_iff] at hs
    obtain ⟨_, ha, _, hb, -⟩ := hs
    rw [candidates, List.mem_append] at ht
    rcases ht with ht | ht
    · exact iha (by simp [ha]) ht
    · exact ihb (by simp [hb]) ht
  | multi op es ih =>
    obtain ⟨s, hs⟩ := Option.isSome_iff_exists.1 h
    simp only [sort?_multi_eq, Option.bind_eq_some_iff] at hs
    obtain ⟨ss, hss, -⟩ := hs
    obtain ⟨a, ha, ht⟩ := mem_candidatesList.1 ht
    exact ih a ha (isSome_of_forall₂ (sorts?_eq_some.1 hss) ha) ht
  | ite c a b ihc iha ihb =>
    rw [sort?_ite_eq] at h
    split at h
    · rename_i hparts
      rw [candidates, List.mem_append, List.mem_append] at ht
      rcases ht with (ht | ht) | ht
      · exact ihc (by simp [hparts.1]) ht
      · exact iha h ht
      · exact ihb (hparts.2 ▸ h) ht
    · simp at h

theorem smallest?_mem {ts : List Expr} (h : smallest? ts = some t) : t ∈ ts := by
  induction ts with
  | nil => simp [smallest?] at h
  | cons u ts ih =>
    rw [smallest?] at h
    split at h
    · cases h
      exact List.mem_cons_self ..
    · rename_i w hw
      split at h <;> cases h
      · exact List.mem_cons_self ..
      · exact List.mem_cons_of_mem _ (ih hw)

theorem cover?_subset {covered : List String} {ts us : List Expr}
    (h : cover? bound covered ts = some us) : us ⊆ ts := by
  induction ts generalizing covered us with
  | nil => simp [cover?] at h
  | cons u ts ih =>
    simp only [cover?] at h
    have htaken : ∀ (b : Bool), (if b then [] else [u]) ⊆ u :: ts := by
      intro b
      cases b <;> simp
    split at h
    · cases h
      exact htaken _
    · obtain ⟨rest, hrest, rfl⟩ := Option.map_eq_some_iff.1 h
      exact List.append_subset.2
        ⟨htaken _, List.Subset.trans (ih hrest) (List.subset_cons_self ..)⟩

/-- The terms of chosen triggers are candidates. -/
theorem mem_candidates_of_select {trigger : Trigger} {t : Expr} (htrigger : trigger ∈ select bound e)
    (ht : t ∈ trigger) : t ∈ candidates bound e := by
  unfold select at htrigger
  split at htrigger
  · cases htrigger
  · simp only at htrigger
    split at htrigger
    · rename_i u hu
      obtain rfl := List.mem_singleton.1 htrigger
      obtain rfl := List.mem_singleton.1 ht
      exact List.mem_of_mem_filter (smallest?_mem hu)
    · simp only [Option.mem_toList] at htrigger
      exact List.mem_mergeSort.1 (cover?_subset htrigger ht)

/-- The triggers chosen for a well-sorted formula are well sorted. -/
theorem select_sorted (h : (e.sort? Δ G).isSome) :
    ∀ trigger ∈ select bound e, ∀ t ∈ trigger, (t.sort? Δ G).isSome :=
  fun _ htrigger _ ht => candidates_sorted h (mem_candidates_of_select htrigger ht)

end Expr

end ContractLowering.IL
