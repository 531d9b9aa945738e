import ContractLowering.Source.Stmt

/-!
# Induction on source expressions and statements

Expressions nest through options, lists and lists of pairs. `Expr.recData` is the recursor that
proofs use: one case per constructor, with the induction hypotheses of nested parts stated for
every member of the list or option they come from. Terms of triggers count as parts.
`Stmt.recData` does the same for statements.
-/

namespace ContractLowering.Source

/-- The value of an option is smaller than whatever holds the option. -/
theorem sizeOf_lt_of_mem_option {α : Type} [SizeOf α] {a : α} {o : Option α} (h : a ∈ o) :
    sizeOf a < sizeOf o := by
  cases h
  simp

/-- The value of an entry is smaller than the list of entries. -/
theorem sizeOf_snd_lt_of_mem {α β : Type} [SizeOf α] [SizeOf β] {p : α × β} {l : List (α × β)}
    (h : p ∈ l) : sizeOf p.2 < sizeOf l := by
  have hp := List.sizeOf_lt_of_mem h
  obtain ⟨a, b⟩ := p
  simp only [Prod.mk.sizeOf_spec] at hp ⊢
  omega

/-- The key of an entry is smaller than the list of entries. -/
theorem sizeOf_fst_lt_of_mem {α β : Type} [SizeOf α] [SizeOf β] {p : α × β} {l : List (α × β)}
    (h : p ∈ l) : sizeOf p.1 < sizeOf l := by
  have hp := List.sizeOf_lt_of_mem h
  obtain ⟨a, b⟩ := p
  simp only [Prod.mk.sizeOf_spec] at hp ⊢
  omega

/-- A member of a member is smaller than the outer list. -/
theorem sizeOf_lt_of_mem_mem {α : Type} [SizeOf α] {a : α} {l : List α} {ls : List (List α)}
    (hl : l ∈ ls) (ha : a ∈ l) : sizeOf a < sizeOf ls :=
  Nat.lt_trans (List.sizeOf_lt_of_mem ha) (List.sizeOf_lt_of_mem hl)

/-- Induction on expressions, with a hypothesis for every part. -/
@[elab_as_elim]
theorem Expr.recData {P : Expr → Prop}
    (bool : ∀ i b, P (.bool i b))
    (int : ∀ i n, P (.int i n))
    (null : ∀ i, P (.null i))
    (var : ∀ i x, P (.var i x))
    (this : ∀ i, P (.this i))
    (field : ∀ i e f, P e → P (.field i e f))
    (index : ∀ i a b, P a → P b → P (.index i a b))
    (slice : ∀ i e lo hi, P e → (∀ a ∈ lo, P a) → (∀ a ∈ hi, P a) → P (.slice i e lo hi))
    (update : ∀ i a b c, P a → P b → P c → P (.update i a b c))
    (arrayLength : ∀ i e, P e → P (.arrayLength i e))
    (display : ∀ i kind es, (∀ a ∈ es, P a) → P (.display i kind es))
    (mapDisplay : ∀ i kvs, (∀ kv ∈ kvs, P kv.1 ∧ P kv.2) → P (.mapDisplay i kvs))
    (ctor : ∀ i d c es, (∀ a ∈ es, P a) → P (.ctor i d c es))
    (destruct : ∀ i e d c f, P e → P (.destruct i e d c f))
    (isCtor : ∀ i e d c, P e → P (.isCtor i e d c))
    (old : ∀ i e, P e → P (.old i e))
    (fresh : ∀ i e, P e → P (.fresh i e))
    (unary : ∀ i op e, P e → P (.unary i op e))
    (binary : ∀ i op a b, P a → P b → P (.binary i op a b))
    (quant : ∀ i q bs r b ts ind, (∀ a ∈ r, P a) → P b → (∀ t ∈ ts, ∀ a ∈ t, P a) →
      P (.quant i q bs r b ts ind))
    (setComp : ∀ i bs r t, P r → (∀ a ∈ t, P a) → P (.setComp i bs r t))
    (mapComp : ∀ i b r t, P r → P t → P (.mapComp i b r t))
    (letIn : ∀ i bs b, (∀ p ∈ bs, P p.2) → P b → P (.letIn i bs b))
    (ite : ∀ i c a b, P c → P a → P b → P (.ite i c a b))
    (cases : ∀ i e arms, P e → (∀ p ∈ arms, P p.2) → P (.cases i e arms))
    (call : ∀ i f r es, (∀ a ∈ r, P a) → (∀ a ∈ es, P a) → P (.call i f r es)) :
    ∀ e, P e := by
  suffices h : ∀ n (e : Expr), sizeOf e < n → P e from fun e => h _ e (Nat.lt_succ_self _)
  intro n
  induction n with
  | zero => intro e he; omega
  | succ n ih =>
    -- every part of an expression is smaller than the expression
    intro e he
    cases e with
    | bool i b => exact bool i b
    | int i n => exact int i n
    | null i => exact null i
    | var i x => exact var i x
    | this i => exact this i
    | field i e f => exact field i e f (ih e (by simp at he; omega))
    | index i a b => exact index i a b (ih a (by simp at he; omega)) (ih b (by simp at he; omega))
    | slice i e lo hi =>
      refine slice i e lo hi (ih e (by simp at he; omega)) (fun a ha => ih a ?_)
        (fun a ha => ih a ?_)
      · have := sizeOf_lt_of_mem_option ha; simp at he; omega
      · have := sizeOf_lt_of_mem_option ha; simp at he; omega
    | update i a b c =>
      exact update i a b c (ih a (by simp at he; omega)) (ih b (by simp at he; omega))
        (ih c (by simp at he; omega))
    | arrayLength i e => exact arrayLength i e (ih e (by simp at he; omega))
    | display i kind es =>
      refine display i kind es fun a ha => ih a ?_
      have := List.sizeOf_lt_of_mem ha; simp at he; omega
    | mapDisplay i kvs =>
      refine mapDisplay i kvs fun kv hkv => ⟨ih kv.1 ?_, ih kv.2 ?_⟩
      · have := sizeOf_fst_lt_of_mem hkv; simp at he; omega
      · have := sizeOf_snd_lt_of_mem hkv; simp at he; omega
    | ctor i d c es =>
      refine ctor i d c es fun a ha => ih a ?_
      have := List.sizeOf_lt_of_mem ha; simp at he; omega
    | destruct i e d c f => exact destruct i e d c f (ih e (by simp at he; omega))
    | isCtor i e d c => exact isCtor i e d c (ih e (by simp at he; omega))
    | old i e => exact old i e (ih e (by simp at he; omega))
    | fresh i e => exact fresh i e (ih e (by simp at he; omega))
    | unary i op e => exact unary i op e (ih e (by simp at he; omega))
    | binary i op a b =>
      exact binary i op a b (ih a (by simp at he; omega)) (ih b (by simp at he; omega))
    | quant i q bs r b ts ind =>
      refine quant i q bs r b ts ind (fun a ha => ih a ?_) (ih b (by simp at he; omega))
        (fun t ht a ha => ih a ?_)
      · have := sizeOf_lt_of_mem_option ha; simp at he; omega
      · have := sizeOf_lt_of_mem_mem ht ha; simp at he; omega
    | setComp i bs r t =>
      refine setComp i bs r t (ih r (by simp at he; omega)) fun a ha => ih a ?_
      have := sizeOf_lt_of_mem_option ha; simp at he; omega
    | mapComp i b r t =>
      exact mapComp i b r t (ih r (by simp at he; omega)) (ih t (by simp at he; omega))
    | letIn i bs b =>
      refine letIn i bs b (fun p hp => ih p.2 ?_) (ih b (by simp at he; omega))
      have := sizeOf_snd_lt_of_mem hp; simp at he; omega
    | ite i c a b =>
      exact ite i c a b (ih c (by simp at he; omega)) (ih a (by simp at he; omega))
        (ih b (by simp at he; omega))
    | cases i e arms =>
      refine cases i e arms (ih e (by simp at he; omega)) fun p hp => ih p.2 ?_
      have := sizeOf_snd_lt_of_mem hp; simp at he; omega
    | call i f r es =>
      refine call i f r es (fun a ha => ih a ?_) (fun a ha => ih a ?_)
      · have := sizeOf_lt_of_mem_option ha; simp at he; omega
      · have := List.sizeOf_lt_of_mem ha; simp at he; omega

/-- Induction on statements, with a hypothesis for every part. -/
@[elab_as_elim]
theorem Stmt.recData {P : Stmt → Prop}
    (block : ∀ s body, (∀ t ∈ body, P t) → P (.block s body))
    (varDecl : ∀ s x t rhs, P (.varDecl s x t rhs))
    (assign : ∀ s lhss rhss, P (.assign s lhss rhss))
    (call : ∀ s m r args outs, P (.call s m r args outs))
    (ifElse : ∀ s g thn els, P thn → (∀ t ∈ els, P t) → P (.ifElse s g thn els))
    (altIf : ∀ s alts, (∀ a ∈ alts, P a.2) → P (.altIf s alts))
    (loop : ∀ s spec g body, (∀ t ∈ body, P t) → P (.loop s spec g body))
    (altLoop : ∀ s spec alts body, (∀ a ∈ alts, P a.2) → (∀ t ∈ body, P t) →
      P (.altLoop s spec alts body))
    (cases : ∀ s e arms, (∀ a ∈ arms, P a.2) → P (.cases s e arms))
    (calculation : ∀ s first steps, (∀ a ∈ steps, ∀ t ∈ a.2, P t) → P (.calc s first steps))
    (forallAssign : ∀ s d lhs e, P (.forallAssign s d lhs e))
    (forallCall : ∀ s d m r args, P (.forallCall s d m r args))
    (forallProof : ∀ s d ens body, P body → P (.forallProof s d ens body))
    (assert : ∀ s e inh, P (.assert s e inh))
    (assume : ∀ s e, P (.assume s e))
    (ret : ∀ s es, P (.ret s es))
    (yield : ∀ s es, P (.yield s es))
    (leave : ∀ s l, P (.leave s l)) :
    ∀ s, P s := by
  suffices h : ∀ n (s : Stmt), sizeOf s < n → P s from fun s => h _ s (Nat.lt_succ_self _)
  intro n
  induction n with
  | zero => intro s hs; omega
  | succ n ih =>
    -- every part of a statement is smaller than the statement
    intro st hs
    cases st with
    | block s body =>
      refine block s body fun t ht => ih t ?_
      have := List.sizeOf_lt_of_mem ht; simp at hs; omega
    | varDecl s x t rhs => exact varDecl s x t rhs
    | assign s lhss rhss => exact assign s lhss rhss
    | call s m r args outs => exact call s m r args outs
    | ifElse s g thn els =>
      refine ifElse s g thn els (ih thn (by simp at hs; omega)) fun t ht => ih t ?_
      have := sizeOf_lt_of_mem_option ht; simp at hs; omega
    | altIf s alts =>
      refine altIf s alts fun a ha => ih a.2 ?_
      have := sizeOf_snd_lt_of_mem ha; simp at hs; omega
    | loop s spec g body =>
      refine loop s spec g body fun t ht => ih t ?_
      have := sizeOf_lt_of_mem_option ht; simp at hs; omega
    | altLoop s spec alts body =>
      refine altLoop s spec alts body (fun a ha => ih a.2 ?_) fun t ht => ih t ?_
      · have := sizeOf_snd_lt_of_mem ha; simp at hs; omega
      · have := sizeOf_lt_of_mem_option ht; simp at hs; omega
    | cases s e arms =>
      refine cases s e arms fun a ha => ih a.2 ?_
      have := sizeOf_snd_lt_of_mem ha; simp at hs; omega
    | «calc» s first steps =>
      refine calculation s first steps fun a ha t ht => ih t ?_
      have := sizeOf_snd_lt_of_mem ha
      have := sizeOf_lt_of_mem_option ht
      simp at hs; omega
    | forallAssign s d lhs e => exact forallAssign s d lhs e
    | forallCall s d m r args => exact forallCall s d m r args
    | forallProof s d ens body => exact forallProof s d ens body (ih body (by simp at hs; omega))
    | assert s e inh => exact assert s e inh
    | assume s e => exact assume s e
    | ret s es => exact ret s es
    | yield s es => exact yield s es
    | leave s l => exact leave s l

/-! ## Statements inside statements -/

namespace Stmt

variable {s t : Stmt}

theorem mem_substmts_self (s : Stmt) : s ∈ s.substmts := by
  cases s <;> simp [substmts]

theorem mem_substmts? {o : Option Stmt} (hs : s ∈ o) (ht : t ∈ s.substmts) : t ∈ substmts? o := by
  cases hs
  exact ht

theorem mem_substmtsList {ss : List Stmt} (hs : s ∈ ss) (ht : t ∈ s.substmts) :
    t ∈ substmtsList ss := by
  induction ss with
  | nil => simp at hs
  | cons a ss ih => rcases List.mem_cons.mp hs with rfl | hs <;> simp [substmtsList, *]

theorem mem_substmtsAlternatives {alts : List (Expr × Stmt)} {a : Expr × Stmt} (ha : a ∈ alts)
    (ht : t ∈ a.2.substmts) : t ∈ substmtsAlternatives alts := by
  induction alts with
  | nil => simp at ha
  | cons b alts ih => rcases List.mem_cons.mp ha with rfl | ha <;> simp [substmtsAlternatives, *]

theorem mem_substmtsArms {arms : List (Pattern × Stmt)} {a : Pattern × Stmt} (ha : a ∈ arms)
    (ht : t ∈ a.2.substmts) : t ∈ substmtsArms arms := by
  induction arms with
  | nil => simp at ha
  | cons b arms ih => rcases List.mem_cons.mp ha with rfl | ha <;> simp [substmtsArms, *]

theorem mem_substmtsSteps {steps : List ((CalcOp × Expr) × Option Stmt)}
    {a : (CalcOp × Expr) × Option Stmt} (ha : a ∈ steps) (hs : s ∈ a.2) (ht : t ∈ s.substmts) :
    t ∈ substmtsSteps steps := by
  induction steps with
  | nil => simp at ha
  | cons b steps ih =>
    rcases List.mem_cons.mp ha with rfl | ha
    · simp [substmtsSteps, mem_substmts? hs ht]
    · simp [substmtsSteps, ih ha]

end Stmt

end ContractLowering.Source
