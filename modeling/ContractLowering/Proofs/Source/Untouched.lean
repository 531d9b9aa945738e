import ContractLowering.Proofs.Source.Substitution

/-!
# Expressions that a substitution leaves alone

`Expr.subst?` gives `none` exactly when no variable that is replaced occurs free and the receiver is
not replaced or does not occur (`unchanged_iff_absent`). Then nothing is renamed either: a binder
gets another name only where something is carried below it (`enter_unchanged_iff`).
-/

namespace ContractLowering.Source

variable {s : Subst} {e d : Expr} {bound : List String}

/-! ## Parts that did not change -/

theorem changed₂_eq_none {α β γ : Type} {build : α → β → γ} {a : α} {a' : Option α} {b : β}
    {b' : Option β} : changed₂ build a a' b b' = none ↔ a' = none ∧ b' = none := by
  cases a' <;> cases b' <;> simp [changed₂]

theorem changed₃_eq_none {α β γ δ : Type} {build : α → β → γ → δ} {a : α} {a' : Option α} {b : β}
    {b' : Option β} {c : γ} {c' : Option γ} :
    changed₃ build a a' b b' c c' = none ↔ a' = none ∧ b' = none ∧ c' = none := by
  cases a' <;> cases b' <;> cases c' <;> simp [changed₃]

namespace Expr

variable {i : Info} {a b c : Expr}

theorem subst?Opt_eq_none {o : Option Expr} :
    subst?Opt s o = none ↔ ∀ e ∈ o.toList, e.subst? s = none := by
  cases o <;> simp [subst?Opt]

theorem subst?List_eq_none {es : List Expr} :
    subst?List s es = none ↔ ∀ e ∈ es, e.subst? s = none := by
  induction es with
  | nil => simp [subst?List]
  | cons e es ih => rw [subst?List, changed₂_eq_none, ih, List.forall_mem_cons]

theorem subst?Entries_eq_none {kvs : List (Expr × Expr)} :
    subst?Entries s kvs = none ↔ ∀ p ∈ kvs, p.1.subst? s = none ∧ p.2.subst? s = none := by
  induction kvs with
  | nil => simp [subst?Entries]
  | cons p kvs ih =>
    rw [subst?Entries, changed₂_eq_none, changed₂_eq_none, ih, List.forall_mem_cons]

theorem subst?Bindings_eq_none {bs : List (String × Expr)} :
    subst?Bindings s bs = none ↔ ∀ b ∈ bs, b.2.subst? s = none := by
  induction bs with
  | nil => simp [subst?Bindings]
  | cons b bs ih =>
    rw [subst?Bindings, changed₂_eq_none, Option.map_eq_none_iff, ih, List.forall_mem_cons]

theorem subst?Triggers_eq_none {ts : List (List Expr)} :
    subst?Triggers s ts = none ↔ ∀ t ∈ ts, ∀ e ∈ t, e.subst? s = none := by
  induction ts with
  | nil => simp [subst?Triggers]
  | cons t ts ih =>
    rw [subst?Triggers, changed₂_eq_none, subst?List_eq_none, ih, List.forall_mem_cons]

/-- A match case did not change if its binders kept their names and its body did not. -/
theorem subst?Arms_eq_none {arms : List (Pattern × Expr)} :
    subst?Arms s arms = none ↔ ∀ p ∈ arms,
      (s.enter p.1.binders p.2 []).2 = p.1.binders.map (·.1) ∧
        p.2.subst? (s.enter p.1.binders p.2 []).1 = none := by
  induction arms with
  | nil => simp [subst?Arms]
  | cons p arms ih => simp [subst?Arms, changed₂_eq_none, ih]

end Expr

namespace Expr

variable {i : Info} {a b c : Expr}

/-- A quantifier did not change if its binders kept their names and nothing in its scope did. -/
theorem subst?_quant_eq_none {q : Quantifier} {bs : List Binder} {r : Option Expr}
    {ts : List (List Expr)} {ind : Induction} :
    (quant i q bs r b ts ind).subst? s = none ↔
      (s.enter bs b (r.toList ++ ts.flatten)).2 = bs.map (·.1) ∧
        ∀ d ∈ b :: (r.toList ++ ts.flatten),
          d.subst? (s.enter bs b (r.toList ++ ts.flatten)).1 = none := by
  simp only [subst?]
  generalize s.enter bs b (r.toList ++ ts.flatten) = scope
  have htriggers : (∀ d ∈ ts.flatten, d.subst? scope.1 = none) ↔
      ∀ t ∈ ts, ∀ d ∈ t, d.subst? scope.1 = none := by
    simp only [List.mem_flatten, forall_exists_index, and_imp]
    exact ⟨fun h t ht d hd => h d t ht hd, fun h d t ht hd => h t ht d hd⟩
  simp only [List.forall_mem_cons, List.forall_mem_append, htriggers, ← subst?Triggers_eq_none,
    ← subst?Opt_eq_none]
  simp [and_assoc, and_left_comm]

/-- A set comprehension did not change if its binders kept their names and nothing in its scope
did: a missing term is made explicit only where its variable is renamed. -/
theorem subst?_setComp_eq_none {bs : List Binder} {r : Expr} {t : Option Expr} :
    (setComp i bs r t).subst? s = none ↔
      (s.enter bs r t.toList).2 = bs.map (·.1) ∧
        ∀ d ∈ r :: t.toList, d.subst? (s.enter bs r t.toList).1 = none := by
  simp only [subst?]
  generalize s.enter bs r t.toList = scope
  simp only [List.forall_mem_cons, ← subst?Opt_eq_none]
  split
  · rename_i hnames
    simp [beq_iff_eq.1 hnames]
  · rename_i hnames
    simp only [reduceCtorEq, false_iff, not_and]
    exact fun h => absurd (beq_iff_eq.2 h) hnames

theorem subst?_mapComp_eq_none {x : Binder} {r t : Expr} :
    (mapComp i x r t).subst? s = none ↔ (s.enter [x] r [t]).2 = [x.1] ∧
      ∀ d ∈ [r, t], d.subst? (s.enter [x] r [t]).1 = none := by
  simp [subst?, and_assoc]

theorem subst?_letIn_eq_none {bs : List (String × Expr)} :
    (letIn i bs b).subst? s = none ↔
      ((s.enter (bs.map fun p => (p.1, p.2.typ)) b []).2 = bs.map (·.1) ∧
        b.subst? (s.enter (bs.map fun p => (p.1, p.2.typ)) b []).1 = none) ∧
        ∀ p ∈ bs, p.2.subst? s = none := by
  simp [subst?, subst?Bindings_eq_none, and_assoc]

end Expr

/-! ## What a substitution touches -/

/-- Below binders nothing is replaced in an expression: no free variable that is not bound there,
and not the receiver. -/
structure Subst.Spares (s : Subst) (bound : List String) (e : Expr) : Prop where
  vars : ∀ x ∈ e.freeVars, x ∉ bound → s.map.lookup x = none
  receiver : e.mentionsThis = true → s.receiver = none

namespace Subst

theorem lookup_eq_none_iff {l : List (String × Expr)} {x : String} :
    l.lookup x = none ↔ x ∉ l.map (·.1) := by
  simp only [List.lookup_eq_none_iff, List.mem_map, not_exists, not_and, bne_iff_ne]
  exact forall₂_congr fun _ _ => ne_comm

/-- What is carried below binders is nothing if all expressions there are spared. -/
theorem restrict_isIdentity {scope : List Expr} (h : ∀ d ∈ scope, s.Spares bound d) :
    (s.restrict bound scope).isIdentity = true := by
  refine isIdentity_iff.2 ⟨?_, ?_⟩
  · simp only [restrict]
    split
    · rename_i hthis
      obtain ⟨d, hd, hmentions⟩ := List.any_eq_true.1 hthis
      exact (h d hd).receiver hmentions
    · rfl
  · refine List.eq_nil_iff_forall_not_mem.2 fun entry hentry => ?_
    simp only [restrict, List.mem_filter, List.contains_eq_mem, Bool.and_eq_true,
      decide_eq_true_eq, Bool.not_eq_true', decide_eq_false_iff_not, List.mem_flatMap] at hentry
    obtain ⟨hmem, ⟨d, hd, hfree⟩, hbound⟩ := hentry
    exact lookup_eq_none_iff.1 ((h d hd).vars _ hfree hbound) (List.mem_map_of_mem hmem)

/-- In a scope nothing is renamed and everything is spared exactly if all expressions there are
spared from outside. -/
theorem enter_unchanged_iff {bs : List Binder} {first : Expr} {others : List Expr} :
    ((s.enter bs first others).2 = bs.map (·.1) ∧
        ∀ d ∈ first :: others, (s.enter bs first others).1.Spares [] d) ↔
      ∀ d ∈ first :: others, s.Spares (bs.map (·.1)) d := by
  constructor
  · rintro ⟨-, hinner⟩ d hd
    have hopens := s.enter_opens bs first others
    refine ⟨fun x hx hbound => ?_, fun hthis => ?_⟩
    · rw [← (hopens.outside d hd x hx hbound).2]
      exact (hinner d hd).vars x hx (by simp)
    · rw [← hopens.receiver d hd hthis]
      exact (hinner d hd).receiver hthis
  · intro h
    have hidentity := restrict_isIdentity h
    have henter : s.enter bs first others =
        (s.restrict (bs.map (·.1)) (first :: others), bs.map (·.1)) := if_pos hidentity
    obtain ⟨hreceiver, hmap⟩ := isIdentity_iff.1 hidentity
    rw [henter]
    refine ⟨rfl, fun d _ => ⟨fun x _ _ => ?_, fun _ => hreceiver⟩⟩
    rw [hmap]
    rfl

end Subst

namespace Expr

/-- An expression is spared if it is no variable or receiver that is replaced, and its parts are
spared below what binds them. -/
theorem spares_iff_parts : s.Spares [] e ↔ (∀ i x, e = .var i x → s.map.lookup x = none) ∧
    (∀ i, e = .this i → s.receiver = none) ∧ ∀ p ∈ e.parts, s.Spares p.1 p.2 := by
  constructor
  · rintro ⟨hvars, hreceiver⟩
    refine ⟨?_, ?_, fun p hp => ⟨fun x hx hbound => ?_, fun hthis => ?_⟩⟩
    · rintro i x rfl
      exact hvars x (by simp [freeVars]) (by simp)
    · rintro i rfl
      exact hreceiver (mentionsThis_iff.2 (.inl ⟨i, rfl⟩))
    · exact hvars x (mem_freeVars.2 (.inr ⟨p, hp, hx, hbound⟩)) (by simp)
    · exact hreceiver (mentionsThis_iff.2 (.inr ⟨p, hp, hthis⟩))
  · rintro ⟨hvar, hthis, hparts⟩
    refine ⟨fun x hx _ => ?_, fun hmentions => ?_⟩
    · rcases mem_freeVars.1 hx with ⟨i, rfl⟩ | ⟨p, hp, hfree, hbound⟩
      · exact hvar i x rfl
      · exact (hparts p hp).vars x hfree hbound
    · rcases mentionsThis_iff.1 hmentions with ⟨i, rfl⟩ | ⟨p, hp, hmentions⟩
      · exact hthis i rfl
      · exact (hparts p hp).receiver hmentions

/-- That substituting in an expression changes nothing exactly if the expression is spared. -/
def TracksChange (e : Expr) : Prop := ∀ s, e.subst? s = none ↔ s.Spares [] e

/-- Below binders, nothing changed and nothing was renamed exactly if all parts are spared. -/
theorem scope_unchanged_iff (bs : List Binder) (first : Expr) (others : List Expr)
    (ih : ∀ d ∈ first :: others, d.TracksChange) :
    ((s.enter bs first others).2 = bs.map (·.1) ∧
        ∀ d ∈ first :: others, d.subst? (s.enter bs first others).1 = none) ↔
      ∀ d ∈ first :: others, s.Spares (bs.map (·.1)) d := by
  rw [← Subst.enter_unchanged_iff]
  exact and_congr_right fun _ => forall₂_congr fun d hd => ih d hd _

theorem tracksChange (e : Expr) : e.TracksChange := by
  induction e using recParts with
  | h e ih =>
    intro s
    rw [spares_iff_parts]
    have plain {d : Expr} (hd : ([], d) ∈ e.parts) : d.subst? s = none ↔ s.Spares [] d := ih _ hd s
    cases e with
    | bool | int | null => simp [subst?, parts]
    | var i x => simp [subst?, parts]
    | this i => simp [subst?, parts]
    | field | arrayLength | destruct | isCtor | old | fresh | unary =>
      simpa [subst?, parts] using plain (by simp [parts])
    | index i a b | binary i op a b =>
      simp [subst?, parts, changed₂_eq_none, plain (d := a) (by simp [parts]),
        plain (d := b) (by simp [parts])]
    | slice i e lo hi =>
      have hall : ∀ d ∈ e :: (lo.toList ++ hi.toList), d.subst? s = none ↔ s.Spares [] d :=
        fun d hd => plain (List.mem_map_of_mem hd)
      have hchanged : (slice i e lo hi).subst? s = none ↔
          ∀ d ∈ e :: (lo.toList ++ hi.toList), d.subst? s = none := by
        simp only [subst?, changed₃_eq_none, subst?Opt_eq_none, List.forall_mem_cons,
          List.forall_mem_append]
      rw [hchanged, forall₂_congr hall]
      simp only [parts, List.forall_mem_map]
      simp
    | update i a b c | ite i a b c =>
      simp [subst?, parts, changed₃_eq_none, plain (d := a) (by simp [parts]),
        plain (d := b) (by simp [parts]), plain (d := c) (by simp [parts])]
    | display i k es | ctor i d k es =>
      have hes : ∀ d ∈ es, d.subst? s = none ↔ s.Spares [] d :=
        fun d hd => plain (List.mem_map_of_mem hd)
      simp only [subst?, Option.map_eq_none_iff, subst?List_eq_none, forall₂_congr hes]
      simp [parts]
    | mapDisplay i kvs =>
      have hkeys : ∀ p ∈ kvs, p.1.subst? s = none ↔ s.Spares [] p.1 := fun p hp =>
        plain (List.mem_append_left _ (List.mem_map_of_mem hp))
      have hvalues : ∀ p ∈ kvs, p.2.subst? s = none ↔ s.Spares [] p.2 := fun p hp =>
        plain (List.mem_append_right _ (List.mem_map_of_mem hp))
      simp only [subst?, Option.map_eq_none_iff, subst?Entries_eq_none, forall_and, parts,
        List.forall_mem_append, List.forall_mem_map, forall₂_congr hkeys, forall₂_congr hvalues]
      simp
    | quant i q bs r b ts ind =>
      rw [subst?_quant_eq_none,
        scope_unchanged_iff _ _ _ fun d hd => ih _ (List.mem_map_of_mem hd)]
      simp only [parts, List.forall_mem_map]
      simp
    | setComp i bs r t =>
      rw [subst?_setComp_eq_none,
        scope_unchanged_iff _ _ _ fun d hd => ih _ (List.mem_map_of_mem hd)]
      simp only [parts, List.forall_mem_map]
      simp
    | mapComp i x r t =>
      have hscope := scope_unchanged_iff (s := s) [x] r [t]
        fun d hd => ih ([x.1], d) (by simpa [parts] using hd)
      rw [subst?_mapComp_eq_none]
      refine hscope.trans ?_
      simp [parts]
    | letIn i bs b =>
      have hscope := scope_unchanged_iff (s := s) (bs.map fun p => (p.1, p.2.typ)) b []
        fun d hd => ih (bs.map (·.1), d) (by
          rw [List.mem_singleton.1 hd]
          exact List.mem_cons_self)
      have hvalues : ∀ p ∈ bs, p.2.subst? s = none ↔ s.Spares [] p.2 := fun p hp =>
        plain (List.mem_cons_of_mem _ (List.mem_map_of_mem hp))
      simp only [List.forall_mem_singleton, List.map_map, Function.comp_def] at hscope
      rw [subst?_letIn_eq_none, hscope, forall₂_congr hvalues]
      simp only [parts, List.forall_mem_cons, List.forall_mem_map]
      simp
    | cases i e arms =>
      have harms : ∀ p ∈ arms, ((s.enter p.1.binders p.2 []).2 = p.1.binders.map (·.1) ∧
          p.2.subst? (s.enter p.1.binders p.2 []).1 = none) ↔
            s.Spares (p.1.binders.map (·.1)) p.2 := by
        intro p hp
        have hscope := scope_unchanged_iff (s := s) p.1.binders p.2 []
          fun d hd => ih (p.1.binders.map (·.1), d) (by
            rw [List.mem_singleton.1 hd]
            exact List.mem_cons_of_mem _ (List.mem_map_of_mem hp))
        simpa only [List.forall_mem_singleton] using hscope
      simp only [subst?, changed₂_eq_none, subst?Arms_eq_none, plain (d := e) (by simp [parts]),
        forall₂_congr harms]
      simp only [parts, List.forall_mem_cons, List.forall_mem_map]
      simp
    | call i f r es =>
      have hall : ∀ d ∈ r.toList ++ es, d.subst? s = none ↔ s.Spares [] d :=
        fun d hd => plain (List.mem_map_of_mem hd)
      have hchanged : (call i f r es).subst? s = none ↔
          ∀ d ∈ r.toList ++ es, d.subst? s = none := by
        simp only [subst?, changed₂_eq_none, subst?Opt_eq_none, subst?List_eq_none,
          List.forall_mem_append]
      rw [hchanged, forall₂_congr hall]
      simp only [parts, List.forall_mem_map]
      simp

/-- An expression is spared if no variable that is replaced occurs free in it, and the receiver is
not replaced or does not occur. -/
theorem spares_iff : s.Spares [] e ↔ (∀ x ∈ s.map.map (·.1), x ∉ e.freeVars) ∧
    (s.receiver = none ∨ e.mentionsThis = false) := by
  constructor
  · rintro ⟨hvars, hreceiver⟩
    refine ⟨fun x hx hfree => ?_, ?_⟩
    · exact Subst.lookup_eq_none_iff.1 (hvars x hfree (by simp)) hx
    · cases hthis : e.mentionsThis with
      | false => exact .inr rfl
      | true => exact .inl (hreceiver hthis)
  · rintro ⟨hkeys, hreceiver⟩
    refine ⟨fun x hfree _ => ?_, fun hthis => ?_⟩
    · exact Subst.lookup_eq_none_iff.2 fun hx => hkeys x hx hfree
    · exact hreceiver.resolve_right (by simp [hthis])

/-- A substitution changes an expression only if it must: nothing is changed, and the very same
expression is given back, exactly if no variable that is replaced occurs free, triggers included,
and there is no receiver to put in or the receiver does not occur. -/
theorem unchanged_iff_absent (s : Subst) (e : Expr) :
    (e.subst? s = none ↔ (∀ x ∈ s.map.map (·.1), x ∉ e.freeVars) ∧
      (s.receiver = none ∨ e.mentionsThis = false)) ∧
    ((∀ x ∈ s.map.map (·.1), x ∉ e.freeVars) ∧ (s.receiver = none ∨ e.mentionsThis = false) →
      e.subst s = e) := by
  have hnone := (tracksChange e s).trans spares_iff
  refine ⟨hnone, fun h => ?_⟩
  rw [subst, hnone.2 h]
  rfl

/-- A binder that is called like a variable of a value keeps its name where that value is not put
in. -/
theorem unchanged_iff_absent_colliding_binder :
    let i : Info := ⟨default, .int⟩
    let e : Expr := .quant i .all [("y", .int)] none (.binary i .add (.var i "y") (.int i 1))
      [[.var i "y"]] .default
    let s : Subst := ⟨some (.var i "y"), [("x", .var i "y")]⟩
    (∀ x ∈ s.map.map (·.1), x ∉ e.freeVars) ∧ (s.receiver = none ∨ e.mentionsThis = false) ∧
      e.subst? s = none ∧ e.subst s = e := by
  intro i e s
  have hkeys : ∀ x ∈ s.map.map (·.1), x ∉ e.freeVars := by decide
  have hthis : s.receiver = none ∨ e.mentionsThis = false := .inr rfl
  have h := unchanged_iff_absent s e
  exact ⟨hkeys, hthis, h.1.2 ⟨hkeys, hthis⟩, h.2 ⟨hkeys, hthis⟩⟩

end Expr

end ContractLowering.Source
