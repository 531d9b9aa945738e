import ContractLowering.Proofs.IL.Heads
import ContractLowering.Proofs.IL.RoundTrip
import ContractLowering.Proofs.Lowering.Returns

/-!
# Malformed forms

Some words start a form of their own: a binder, `old`, an operator. A list that starts with such a word
and does not have the shape of its form is refused for the operators of two operands
(`classify_operator`). For the other words it is read as the application of a function of that name, and
a last `:pattern` without its terms is passed over. `formed_iff` says that nothing else goes wrong: a
tree is well formed exactly if what is read applies no function named like a form, and no annotation of
a quantifier ends before its pattern does.
-/

namespace ContractLowering.IL

/-! ## Shapes -/

/-- The operators of two operands. -/
def operatorWords : List String := ["=>", "=", "<=", ">=", "<", ">", "div", "mod"]

/-- The other words with a shape. -/
def looseWords : List String := formWords ++ ["not", "ite"]

/-- What a word is to be followed by. -/
inductive Shaped : String → List SExpr → Prop
  | old (x : String) : Shaped "old" [.atom x]
  | letIn (bs : List SExpr) (e : SExpr) : Shaped "let" [.list bs, e]
  | quant (q : Quantifier) (bs : List SExpr) (e : SExpr) : Shaped q.head [.list bs, e]
  | lambda (bs : List SExpr) (e : SExpr) : Shaped "lambda" [.list bs, e]
  | apply (s f : SExpr) (args : List SExpr) : Shaped "apply" (s :: f :: args)
  | not (e : SExpr) : Shaped "not" [e]
  | ite (c a b : SExpr) : Shaped "ite" [c, a, b]
  | operator {w : String} (h : w ∈ operatorWords) (a b : SExpr) : Shaped w [a, b]

/-- Complete patterns: the word `:pattern` and a list of terms in turn. -/
inductive Patterns : List SExpr → Prop
  | nil : Patterns []
  | cons (ts : List SExpr) {ps : List SExpr} (h : Patterns ps) :
      Patterns (.atom ":pattern" :: .list ts :: ps)

/-- `Annotates l xs`: the list `l` is a quantifier with an annotated body, `(! xs...)`. -/
def Annotates (l : SExpr) (xs : List SExpr) : Prop :=
  ∃ (q : Quantifier) (bs : List SExpr),
    l = .list [.atom q.head, .list bs, .list (.atom "!" :: xs)]

/-- A list that starts with a word of its own has the shape of that word, and an annotation consists of
a body and complete patterns. -/
structure WellShaped (l : SExpr) : Prop where
  shaped : ∀ w args, l = .list (.atom w :: args) → w ∈ looseWords ++ operatorWords → Shaped w args
  annotated : ∀ xs, Annotates l xs → ∃ body ps, xs = body :: ps ∧ Patterns ps

/-! ## Parts -/

/-- The values of bindings. -/
def bindingValues : List SExpr → List SExpr
  | .list [_, e] :: bs => e :: bindingValues bs
  | _ => []

/-- The terms of patterns. -/
def patternTerms : List SExpr → List SExpr
  | .atom _ :: .list ts :: ps => ts ++ patternTerms ps
  | _ => []

/-- The body of a quantifier, with the terms of its patterns. -/
def scopeParts : SExpr → List SExpr
  | .list (.atom "!" :: body :: patterns) => body :: patternTerms patterns
  | e => [e]

/-- The trees just below a tree that stand for expressions. -/
def exprParts : SExpr → List SExpr
  | .atom _ | .list [] | .list [.atom "old", .atom _] => []
  | .list [.atom "let", .list bs, e] => e :: bindingValues bs
  | .list [.atom "forall", .list _, e] => scopeParts e
  | .list [.atom "exists", .list _, e] => scopeParts e
  | .list [.atom "lambda", .list _, e] => [e]
  | .list (.atom "apply" :: _ :: f :: args) => f :: args
  | .list (_ :: args) => args

/-- `Below l e`: the tree `l` stands for an expression in `e`. -/
inductive Below (l : SExpr) : SExpr → Prop
  | self : Below l l
  | part {e p : SExpr} (hp : p ∈ exprParts e) (h : Below l p) : Below l e

/-- Trees in which every expression is well shaped. -/
def Formed (e : SExpr) : Prop := ∀ l, Below l e → WellShaped l

/-! ## Reading a node -/

/-- `Reads l u`: the tree is read as the expression. -/
abbrev Reads (l : SExpr) (u : Expr) : Prop := Expr.ofSExpr l = .ok u

section

variable {e l whole : SExpr} {t : Expr} {args ps : List SExpr} {es us : List Expr}

theorem exists_of_bind_ok {ε α β : Type} {x : Except ε α} {f : α → Except ε β} {b : β}
    (h : x >>= f = .ok b) : ∃ a, x = .ok a ∧ f a = .ok b := by
  cases x with
  | error e => cases h
  | ok a => exact ⟨a, rfl, h⟩

theorem reads_list (h : Expr.ofSExprs args = .ok es) : List.Forall₂ Reads args es := by
  induction args generalizing es with
  | nil =>
    cases h
    exact .nil
  | cons a args ih =>
    obtain ⟨u, hu, h⟩ := exists_of_bind_ok (Expr.ofSExprs.eq_2 .. ▸ h)
    obtain ⟨us, hus, h⟩ := exists_of_bind_ok h
    cases h
    exact .cons hu (ih hus)

theorem reads_bindings {bs : List SExpr} {bindings : List (String × Expr)}
    (h : Expr.bindingsOfSExprs bs = .ok bindings) :
    List.Forall₂ Reads (bindingValues bs) (bindings.map (·.2)) := by
  induction bs generalizing bindings with
  | nil =>
    cases h
    exact .nil
  | cons b bs ih =>
    rw [Expr.bindingsOfSExprs.eq_def] at h
    split at h
    next heq => cases heq
    next x e bs' heq =>
      obtain ⟨rfl, rfl⟩ := List.cons.inj heq
      split at h
      next =>
        obtain ⟨u, hu, h⟩ := exists_of_bind_ok h
        obtain ⟨us, hus, h⟩ := exists_of_bind_ok h
        cases h
        exact .cons hu (ih hus)
      next => cases h
    next => cases h

theorem reads_triggers {triggers : List Trigger} (h : Expr.triggersOfSExprs ps = .ok triggers) :
    List.Forall₂ Reads (patternTerms ps) triggers.flatten := by
  fun_induction patternTerms ps generalizing triggers with
  | case1 w ts ps ih =>
    rw [Expr.triggersOfSExprs.eq_def] at h
    split at h
    next heq => cases heq
    next heq => cases heq
    next ts' rest heq =>
      obtain ⟨-, hrest⟩ := List.cons.inj heq
      obtain ⟨hts, rfl⟩ := List.cons.inj hrest
      obtain rfl := SExpr.list.inj hts
      obtain ⟨u, hu, h⟩ := exists_of_bind_ok h
      obtain ⟨us, hus, h⟩ := exists_of_bind_ok h
      cases h
      exact List.rel_append (reads_list hu) (ih hus)
    next => cases h
    next => cases h
  | case2 ps hps =>
    rw [Expr.triggersOfSExprs.eq_def] at h
    split at h
    next => cases h; exact .nil
    next => cases h; exact .nil
    next ts rest => exact (hps _ _ _ rfl).elim
    next => cases h
    next => cases h

/-- Patterns are complete, or a last word `:pattern` stands alone. -/
theorem patterns_of_triggers {triggers : List Trigger}
    (h : Expr.triggersOfSExprs ps = .ok triggers) :
    Patterns ps ∨ ps.getLast? = some (.atom ":pattern") := by
  fun_induction patternTerms ps generalizing triggers with
  | case1 w ts ps ih =>
    rw [Expr.triggersOfSExprs.eq_def] at h
    split at h
    next heq => cases heq
    next heq => cases heq
    next ts' rest heq =>
      obtain ⟨hw, hrest⟩ := List.cons.inj heq
      obtain ⟨-, rfl⟩ := List.cons.inj hrest
      obtain rfl := SExpr.atom.inj hw
      obtain ⟨u, -, h⟩ := exists_of_bind_ok h
      obtain ⟨us, hus, -⟩ := exists_of_bind_ok h
      refine (ih hus).imp (.cons ts) fun hlast => ?_
      cases ps with
      | nil => cases hlast
      | cons p ps => simpa using hlast
    next => cases h
    next => cases h
  | case2 ps hps =>
    rw [Expr.triggersOfSExprs.eq_def] at h
    split at h
    next => exact .inl .nil
    next => exact .inr rfl
    next ts rest => exact (hps _ _ _ rfl).elim
    next => cases h
    next => cases h

/-- What is made of a list whose operands are read: an application of its head, or of no function. -/
theorem heads_ofHead {head : SExpr} (h : Expr.ofHead whole head es = .ok t) (f : String) :
    f ∈ t.heads ↔ (∃ as, t = .app f as) ∨ ∃ u ∈ es, f ∈ u.heads := by
  unfold Expr.ofHead at h
  split at h
  next => cases h
  next s =>
    split at h
    next => cases h; simp [Expr.heads]
    next => cases h; simp [Expr.heads]
    next =>
      split at h
      next => cases h; simp [Expr.heads]
      next => cases h
      next => cases h; simp [Expr.heads, Expr.mem_headsList]
      next =>
        split at h
        next => cases h; simp [Expr.heads, Expr.mem_headsList, eq_comm]
        next => cases h

theorem heads_ofAtom {w : String} (h : Expr.ofAtom w = .ok t) : t.heads = [] ∧ ∀ f as, t ≠ .app f as := by
  unfold Expr.ofAtom at h
  split at h
  next => cases h; simp [Expr.heads]
  split at h
  next => cases h; simp [Expr.heads]
  split at h
  next => cases h; simp [Expr.heads]
  split at h
  next => cases h; simp [Expr.heads]
  next => cases h

theorem scopeParts_of_ne (h : ∀ body ps, e ≠ .list (.atom "!" :: body :: ps)) :
    scopeParts e = [e] := by
  rw [scopeParts.eq_def]
  split
  next => exact (h _ _ rfl).elim
  next => rfl

/-- A tree that is read is read part by part, and the result applies the functions that the parts apply,
and its own. -/
theorem exists_reads_parts (h : Reads e t) : ∃ us, List.Forall₂ Reads (exprParts e) us ∧
    ∀ f, f ∈ t.heads ↔ (∃ as, t = .app f as) ∨ ∃ u ∈ us, f ∈ u.heads := by
  unfold Reads at h
  rw [Expr.ofSExpr.eq_def] at h
  split at h
  case h_1 w =>
    obtain ⟨hheads, hne⟩ := heads_ofAtom h
    exact ⟨[], .nil, by simp [hheads, hne]⟩
  case h_2 => cases h
  case h_3 x =>
    split at h
    next => cases h; exact ⟨[], .nil, by simp [Expr.heads]⟩
    next => cases h
  case h_4 bs e =>
    obtain ⟨bindings, hbs, h⟩ := exists_of_bind_ok h
    obtain ⟨body, hbody, h⟩ := exists_of_bind_ok h
    cases h
    exact ⟨body :: bindings.map (·.2), .cons hbody (reads_bindings hbs),
      by simp [Expr.heads, Expr.mem_headsBindings, or_comm, -Prod.exists]⟩
  case h_5 | h_7 =>
    obtain ⟨binders, hbs, h⟩ := exists_of_bind_ok h
    obtain ⟨triggers, hts, h⟩ := exists_of_bind_ok h
    obtain ⟨body, hbody, h⟩ := exists_of_bind_ok h
    cases h
    refine ⟨body :: triggers.flatten, .cons hbody (reads_triggers hts), fun f => ?_⟩
    simp only [Expr.heads, List.mem_append, Expr.mem_headsTriggers, List.mem_cons, List.mem_flatten]
    grind
  case h_6 bs e hne | h_8 bs e hne =>
    obtain ⟨binders, hbs, h⟩ := exists_of_bind_ok h
    obtain ⟨body, hbody, h⟩ := exists_of_bind_ok h
    cases h
    refine ⟨[body], ?_, by simp [Expr.heads, Expr.headsTriggers]⟩
    have hparts : scopeParts e = [e] := scopeParts_of_ne fun body ps => hne body ps
    show List.Forall₂ Reads (scopeParts e) _
    rw [hparts]
    exact .cons hbody .nil
  case h_9 =>
    obtain ⟨binders, hbs, h⟩ := exists_of_bind_ok h
    obtain ⟨body, hbody, h⟩ := exists_of_bind_ok h
    cases h
    exact ⟨[body], .cons hbody .nil, by simp [Expr.heads]⟩
  case h_10 =>
    obtain ⟨s, hs, h⟩ := exists_of_bind_ok h
    obtain ⟨f, hf, h⟩ := exists_of_bind_ok h
    obtain ⟨us, hus, h⟩ := exists_of_bind_ok h
    cases h
    exact ⟨f :: us, .cons hf (reads_list hus), by simp [Expr.heads, Expr.mem_headsList]⟩
  case h_11 head args h₁ h₂ h₃ h₄ h₅ h₆ h₇ h₈ =>
    have hparts : exprParts (.list (head :: args)) = args := by
      rw [exprParts.eq_def]
      split <;> simp_all
    obtain ⟨es, hes, h⟩ := exists_of_bind_ok h
    rw [hparts]
    exact ⟨es, reads_list hes, heads_ofHead h⟩

/-! ## Runs -/

/-- What stands for an expression in a tree that is read is read, and the functions it applies are
applied. -/
theorem Below.reads (hl : Below l e) (h : Reads e t) :
    ∃ u, Reads l u ∧ ∀ f ∈ u.heads, f ∈ t.heads := by
  induction hl generalizing t with
  | self => exact ⟨t, h, fun _ hf => hf⟩
  | part hp _ ih =>
    obtain ⟨us, hus, hheads⟩ := exists_reads_parts h
    obtain ⟨u, hu, hread⟩ := exists_of_forall₂ hus.flip hp
    obtain ⟨u', hread', hsub⟩ := ih hread
    exact ⟨u', hread', fun f hf => (hheads f).2 (.inr ⟨u, hu, hsub f hf⟩)⟩

theorem sizeOf_lt_of_mem_bindingValues {bs : List SExpr} (h : l ∈ bindingValues bs) :
    sizeOf l < sizeOf bs := by
  fun_induction bindingValues bs with
  | case1 x e bs ih =>
    rcases List.mem_cons.1 h with rfl | h
    · simp; omega
    · have := ih h
      simp; omega
  | case2 => cases h

theorem sizeOf_lt_of_mem_patternTerms (h : l ∈ patternTerms ps) : sizeOf l < sizeOf ps := by
  fun_induction patternTerms ps with
  | case1 w ts ps ih =>
    rcases List.mem_append.1 h with h | h
    · have := List.sizeOf_lt_of_mem h
      simp; omega
    · have := ih h
      simp; omega
  | case2 => cases h

theorem sizeOf_le_of_mem_scopeParts (h : l ∈ scopeParts e) : sizeOf l ≤ sizeOf e := by
  unfold scopeParts at h
  split at h
  next body patterns =>
    rcases List.mem_cons.1 h with rfl | h
    · simp; omega
    · have := sizeOf_lt_of_mem_patternTerms h
      simp; omega
  next => simp_all

theorem sizeOf_lt_of_mem_exprParts (h : l ∈ exprParts e) : sizeOf l < sizeOf e := by
  unfold exprParts at h
  split at h
  case h_4 bs e =>
    rcases List.mem_cons.1 h with rfl | h
    · simp; omega
    · have := sizeOf_lt_of_mem_bindingValues h
      simp; omega
  case h_5 bs e | h_6 bs e =>
    have := sizeOf_le_of_mem_scopeParts h
    simp; omega
  case h_7 | h_8 | h_9 =>
    have := List.sizeOf_lt_of_mem h
    simp at this ⊢; omega
  all_goals cases h

/-- Every function that is applied is applied where some part is read. -/
theorem exists_below_of_mem_heads {f : String} (h : Reads e t) (hf : f ∈ t.heads) :
    ∃ l, Below l e ∧ ∃ as, Reads l (.app f as) := by
  induction hn : sizeOf e using Nat.strongRecOn generalizing e t with | ind n ih => ?_
  obtain ⟨us, hus, hheads⟩ := exists_reads_parts h
  rcases (hheads f).1 hf with ⟨as, rfl⟩ | ⟨u, hu, hfu⟩
  · exact ⟨e, .self, as, h⟩
  · obtain ⟨p, hp, hread⟩ := exists_of_forall₂ hus hu
    obtain ⟨l, hl, happ⟩ := ih _ (hn ▸ sizeOf_lt_of_mem_exprParts hp) hread hfu rfl
    exact ⟨l, .part hp hl, happ⟩

/-! ## Lists that start with a word -/

/-- Without the shape of its word, a list is read as a word with operands. -/
theorem ofSExpr_unshaped {w : String} (hw : ¬ Shaped w args) :
    Expr.ofSExpr (.list (.atom w :: args)) = (do
      let es ← Expr.ofSExprs args
      Expr.ofHead (.list (.atom w :: args)) (.atom w) es) := by
  rw [Expr.ofSExpr.eq_def]
  split
  case h_1 heq => cases heq
  case h_2 heq => cases heq
  case h_3 x heq =>
    cases heq
    exact (hw (.old x)).elim
  case h_4 bs e heq =>
    cases heq
    exact (hw (.letIn bs e)).elim
  case h_5 bs body ps heq =>
    cases heq
    exact (hw (.quant .all bs _)).elim
  case h_6 bs e _ heq =>
    cases heq
    exact (hw (.quant .all bs e)).elim
  case h_7 bs body ps heq =>
    cases heq
    exact (hw (.quant .ex bs _)).elim
  case h_8 bs e _ heq =>
    cases heq
    exact (hw (.quant .ex bs e)).elim
  case h_9 bs e heq =>
    cases heq
    exact (hw (.lambda bs e)).elim
  case h_10 s f as heq =>
    cases heq
    exact (hw (.apply s f as)).elim
  case h_11 heq =>
    cases heq
    rfl

theorem ofHead?_isSome_iff {w : String} : (BinOp.ofHead? w).isSome = true ↔ w ∈ operatorWords := by
  unfold BinOp.ofHead? operatorWords
  split <;> simp_all

theorem multi_ofHead?_eq_none {w : String} (hw : w ∈ looseWords ++ operatorWords) :
    MultiOp.ofHead? w = none := by
  simp only [looseWords, formWords, operatorWords, List.mem_append, List.mem_cons, List.not_mem_nil,
    or_false] at hw
  unfold MultiOp.ofHead?
  split <;> simp_all

theorem notMem_operatorWords {w : String} (hw : w ∈ looseWords) : w ∉ operatorWords := by
  revert w
  decide

/-- What is made of a word with a shape and its operands. -/
theorem ofHead_cases {w : String} (hw : w ∈ looseWords ++ operatorWords)
    (h : Expr.ofHead whole (.atom w) es = .ok t) :
    (w = "not" ∧ ∃ a, es = [a]) ∨ (w = "ite" ∧ ∃ c a b, es = [c, a, b]) ∨
      (w ∈ operatorWords ∧ ∃ a b, es = [a, b]) ∨ (w ∈ looseWords ∧ t = .app w es) := by
  unfold Expr.ofHead at h
  split at h
  case h_1 heq => cases heq
  case h_2 s heq =>
    obtain rfl := SExpr.atom.inj heq
    split at h
    case h_1 a => exact .inl ⟨rfl, a, rfl⟩
    case h_2 c a b => exact .inr (.inl ⟨rfl, c, a, b, rfl⟩)
    case h_3 =>
      rw [multi_ofHead?_eq_none hw] at h
      split at h
      case h_1 a b hop _ _ =>
        exact .inr (.inr (.inl ⟨ofHead?_isSome_iff.1 (by simp [hop]), a, b, rfl⟩))
      case h_2 => cases h
      case h_3 heq _ _ => cases heq
      case h_4 hop _ _ _ =>
        have hloose := (List.mem_append.1 hw).resolve_right fun hmem => by
          simpa [hop] using ofHead?_isSome_iff.2 hmem
        split at h
        case isTrue =>
          cases h
          exact .inr (.inr (.inr ⟨hloose, rfl⟩))
        case isFalse => cases h

/-- A word with a shape, in a list without it, is read as the name of a function; an operator of two
operands is not read at all. -/
theorem reads_unshaped {w : String} (hw : w ∈ looseWords ++ operatorWords) (hshaped : ¬ Shaped w args)
    (h : Reads (.list (.atom w :: args)) t) : w ∈ looseWords ∧ ∃ as, t = .app w as := by
  rw [Reads, ofSExpr_unshaped hshaped] at h
  obtain ⟨es, hes, h⟩ := exists_of_bind_ok h
  have hoperands := reads_list hes
  rcases ofHead_cases hw h with ⟨rfl, a, rfl⟩ | ⟨rfl, c, a, b, rfl⟩ | ⟨hop, a, b, rfl⟩ | ⟨hloose, rfl⟩
  · rcases hoperands with _ | ⟨-, ⟨⟩⟩
    exact (hshaped (.not _)).elim
  · rcases hoperands with _ | ⟨-, _ | ⟨-, _ | ⟨-, ⟨⟩⟩⟩⟩
    exact (hshaped (.ite ..)).elim
  · rcases hoperands with _ | ⟨-, _ | ⟨-, ⟨⟩⟩⟩
    exact (hshaped (.operator hop ..)).elim
  · exact ⟨hloose, es, rfl⟩

/-- An application is made of its head and operands, where `not` and `ite` have another number of them
than theirs. -/
theorem ofHead_app {head : SExpr} {w : String} {as : List Expr}
    (h : Expr.ofHead whole head es = .ok (.app w as)) :
    head = .atom w ∧ (w = "not" → ∀ a, es ≠ [a]) ∧ (w = "ite" → ∀ c a b, es ≠ [c, a, b]) := by
  unfold Expr.ofHead at h
  split at h
  case h_1 => cases h
  case h_2 s =>
    split at h
    case h_1 | h_2 => cases h
    case h_3 hnot hite =>
      split at h
      case h_1 | h_2 | h_3 => cases h
      case h_4 =>
        split at h
        case isTrue =>
          cases h
          exact ⟨rfl, fun hw a => hnot a hw, fun hw c a b => hite c a b hw⟩
        case isFalse => cases h

/-- What is read as the application of a function that is called like a form is a list that starts with
the word of the form and does not have its shape. -/
theorem unshaped_of_reads_app {w : String} {as : List Expr} (hw : w ∈ looseWords)
    (h : Reads l (.app w as)) : ∃ args, l = .list (.atom w :: args) ∧ ¬ Shaped w args := by
  unfold Reads at h
  rw [Expr.ofSExpr.eq_def] at h
  split at h
  case h_1 => exact ((heads_ofAtom h).2 _ _ rfl).elim
  case h_2 => cases h
  case h_3 => split at h <;> cases h
  case h_4 | h_6 | h_8 | h_9 =>
    obtain ⟨_, -, h⟩ := exists_of_bind_ok h
    obtain ⟨_, -, h⟩ := exists_of_bind_ok h
    cases h
  case h_5 | h_7 | h_10 =>
    obtain ⟨_, -, h⟩ := exists_of_bind_ok h
    obtain ⟨_, -, h⟩ := exists_of_bind_ok h
    obtain ⟨_, -, h⟩ := exists_of_bind_ok h
    cases h
  case h_11 head args h₁ h₂ h₃ h₄ h₅ h₆ h₇ h₈ =>
    obtain ⟨es, hes, h⟩ := exists_of_bind_ok h
    obtain ⟨rfl, hnot, hite⟩ := ofHead_app h
    refine ⟨args, rfl, fun hshaped => ?_⟩
    have hoperands := reads_list hes
    cases hshaped with
    | old x => exact h₁ x rfl rfl
    | letIn bs e => exact h₂ bs e rfl rfl
    | quant q bs e =>
      cases q with
      | all => exact h₄ bs e rfl rfl
      | ex => exact h₆ bs e rfl rfl
    | lambda bs e => exact h₇ bs e rfl rfl
    | apply s f args => exact h₈ s f args rfl rfl
    | not =>
      rcases hoperands with _ | ⟨-, ⟨⟩⟩
      exact hnot rfl _ rfl
    | ite =>
      rcases hoperands with _ | ⟨-, _ | ⟨-, _ | ⟨-, ⟨⟩⟩⟩⟩
      exact hite rfl _ _ _ rfl
    | operator hop => exact notMem_operatorWords hw hop

/-- An annotation that is read has a body, and complete patterns but for a last word, or it is empty. -/
theorem annotation_of_reads {xs : List SExpr} (hl : Annotates l xs) (h : Reads l t) :
    xs = [] ∨ ∃ body ps, xs = body :: ps ∧
      (Patterns ps ∨ ps.getLast? = some (.atom ":pattern")) := by
  obtain ⟨q, bs, rfl⟩ := hl
  cases xs with
  | nil => exact .inl rfl
  | cons body ps =>
    refine .inr ⟨body, ps, rfl, ?_⟩
    cases q <;>
    · rw [Reads, Quantifier.head, Expr.ofSExpr] at h
      obtain ⟨binders, -, h⟩ := exists_of_bind_ok h
      obtain ⟨triggers, hts, h⟩ := exists_of_bind_ok h
      exact patterns_of_triggers hts

theorem Patterns.getLast?_ne (h : Patterns ps) : ps.getLast? ≠ some (.atom ":pattern") := by
  induction h with
  | nil => simp
  | @cons ts ps h ih =>
    cases ps with
    | nil => simp
    | cons p ps => simpa using ih

/-- **Malformed forms.** Of a tree that is read, everything that stands for an expression is read, and
operators of two operands have two. All forms are well shaped exactly if what is read applies no
function that is called like a form, and every annotation has a body and does not end in a word without
its terms. -/
theorem formed_iff_of_reads (h : Reads e t) :
    (∀ l, Below l e → (∃ u, Reads l u) ∧
      ∀ w args, l = .list (.atom w :: args) → w ∈ operatorWords → Shaped w args) ∧
    (Formed e ↔ t.AppliesOnly (· ∉ looseWords) ∧ ∀ l, Below l e → ¬ Annotates l [] ∧
      ∀ body ps, Annotates l (body :: ps) → ps.getLast? ≠ some (.atom ":pattern")) := by
  refine ⟨fun l hl => ?_, fun hformed => ⟨fun w hw hloose => ?_, fun l hl => ⟨fun hempty => ?_,
    fun body ps hps => ?_⟩⟩, fun ⟨happlies, hclosed⟩ l hl => ⟨fun w args heq hw => ?_, fun xs hxs => ?_⟩⟩
  · obtain ⟨u, hu, -⟩ := hl.reads h
    refine ⟨⟨u, hu⟩, fun w args heq hw => ?_⟩
    subst heq
    by_contra hshaped
    exact notMem_operatorWords (reads_unshaped (List.mem_append_right _ hw) hshaped hu).1 hw
  · obtain ⟨l, hl, as, hread⟩ := exists_below_of_mem_heads h hw
    obtain ⟨args, rfl, hshaped⟩ := unshaped_of_reads_app hloose hread
    exact hshaped ((hformed _ hl).shaped _ _ rfl (List.mem_append_left _ hloose))
  · obtain ⟨body, ps, heq, -⟩ := (hformed l hl).annotated _ hempty
    cases heq
  · obtain ⟨body', ps', heq, hpatterns⟩ := (hformed l hl).annotated _ hps
    cases heq
    exact hpatterns.getLast?_ne
  · subst heq
    by_contra hshaped
    obtain ⟨u, hu, hsub⟩ := hl.reads h
    obtain ⟨hloose, as, rfl⟩ := reads_unshaped hw hshaped hu
    exact happlies w (hsub w (by simp [Expr.heads])) hloose
  · obtain ⟨u, hu, -⟩ := hl.reads h
    rcases annotation_of_reads hxs hu with rfl | ⟨body, ps, rfl, hpatterns⟩
    · exact absurd hxs (hclosed l hl).1
    · exact ⟨body, ps, rfl, hpatterns.resolve_right ((hclosed l hl).2 body ps hxs)⟩

end

/-- `(forall ((x Int)) (! (not (p x)) :pattern ((p x))))` -/
def annotatedNot : SExpr :=
  .list [.atom "forall", .list [.list [.atom "x", .atom "Int"]],
    .list [.atom "!", .list [.atom "not", .list [.atom "p", .atom "x"]],
      .atom ":pattern", .list [.list [.atom "p", .atom "x"]]]]

theorem below_annotatedNot {l : SExpr} (h : Below l annotatedNot) :
    l ∈ [annotatedNot, .list [.atom "not", .list [.atom "p", .atom "x"]],
      .list [.atom "p", .atom "x"], .atom "x"] := by
  have atom {l : SExpr} (h : Below l (.atom "x")) : l = .atom "x" := by
    cases h with
    | self => rfl
    | part hp => cases hp
  have app {l : SExpr} (h : Below l (.list [.atom "p", .atom "x"])) :
      l = .list [.atom "p", .atom "x"] ∨ l = .atom "x" := by
    cases h with
    | self => exact .inl rfl
    | part hp h =>
      obtain rfl := List.mem_singleton.1 hp
      exact .inr (atom h)
  cases h with
  | self => simp
  | part hp h =>
    have hp : _ ∈ [_, _] := hp
    simp only [List.mem_cons, List.not_mem_nil, or_false] at hp
    obtain rfl | rfl := hp
    · cases h with
      | self => simp
      | part hp h =>
        obtain rfl := List.mem_singleton.1 hp
        obtain rfl | rfl := app h <;> simp
    · obtain rfl | rfl := app h <;> simp

theorem formed_iff_of_reads_annotatedNot :
    let p : Expr := .app "p" [.var "x"]
    Reads annotatedNot (.quant .all [("x", .int)] [[p]] (.not p)) ∧ Formed annotatedNot := by
  intro p
  have hread : Reads annotatedNot (.quant .all [("x", .int)] [[p]] (.not p)) := rfl
  refine ⟨hread, (formed_iff_of_reads hread).2.2 ⟨?_, fun l hl => ?_⟩⟩
  · intro f hf
    obtain rfl : f = "p" := by simpa [p, Expr.heads, Expr.headsList, Expr.headsTriggers] using hf
    decide
  have hmem := below_annotatedNot hl
  simp only [List.mem_cons, List.not_mem_nil, or_false] at hmem
  obtain rfl | rfl | rfl | rfl := hmem
  · refine ⟨fun h => ?_, fun body ps h => ?_⟩
    · simp [Annotates, annotatedNot] at h
    · obtain ⟨_, _, h⟩ := h
      simp only [annotatedNot, SExpr.list.injEq, List.cons.injEq] at h
      obtain ⟨-, -, ⟨-, -, rfl⟩, -⟩ := h
      simp
  all_goals simp [Annotates]

/-- `(not a b)` -/
def notOfTwo : SExpr := .list [.atom "not", .atom "a", .atom "b"]

/-- `(forall ((x Int)) (! (p x) :pattern))` -/
def openPattern : SExpr :=
  .list [.atom "forall", .list [.list [.atom "x", .atom "Int"]],
    .list [.atom "!", .list [.atom "p", .atom "x"], .atom ":pattern"]]

theorem not_shaped_not_pair (a b : SExpr) : ¬ Shaped "not" [a, b] := by
  generalize hw : "not" = w
  intro h
  cases h with
  | quant q bs e => cases q <;> simp [Quantifier.head] at hw
  | operator hop => exact notMem_operatorWords (hw ▸ by decide) hop
  | _ => simp at hw

/-- A negation of two operands is read as an application of a function called `not`, and an annotation
without its terms is read as if it were not there. -/
theorem malformed_read :
    Reads notOfTwo (.app "not" [.var "a", .var "b"]) ∧ ¬ Formed notOfTwo ∧
      Reads openPattern (.quant .all [("x", .int)] [] (.app "p" [.var "x"])) ∧
      ¬ Formed openPattern := by
  refine ⟨rfl, fun h => ?_, rfl, fun h => ?_⟩
  · exact not_shaped_not_pair _ _ ((h _ .self).shaped _ _ rfl (by decide))
  · obtain ⟨body, ps, heq, hpatterns⟩ := (h _ .self).annotated _ ⟨.all, _, rfl⟩
    cases heq
    cases hpatterns

end ContractLowering.IL
