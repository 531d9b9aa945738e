import ContractLowering.IL.Printer
import ContractLowering.IL.Reader

/-!
# What is written is read back

`Expr.toSExpr` writes an expression as a tree and `Decl.toSExpr?` the declarations that the text
format has; `readable_readBack` says that reading gives back what was written, node by node and
with no simplification.

All forms share one list syntax, and a list is told apart by its first word. So the guards are on
words only: a name may not be a numeral or a word that stands for something else (`IsName`), and a
named sort may not be called like a built-in one. They are needed for names alone: the numerals of
`Expr.num` are digits, and no other word of the format can be chosen by an expression.
-/

namespace ContractLowering.IL

/-! ## Names -/

/-- The words that do not stand for a name in an expression. -/
def reservedWords : List String :=
  ["true", "false", "old", "let", "forall", "exists", "lambda", "apply", "not", "ite", "!",
    "=>", "=", "<=", ">=", "<", ">", "div", "mod", "and", "or", "+", "-", "*", "distinct"]

/-- A symbol that is neither a numeral nor a word with another meaning. -/
structure IsName (x : String) : Prop where
  symbol : isSymbol x = true
  notNumeral : isNumeral x = false
  notReserved : x ∉ reservedWords

instance (x : String) : Decidable (IsName x) :=
  decidable_of_iff (isSymbol x = true ∧ isNumeral x = false ∧ x ∉ reservedWords)
    ⟨fun ⟨h₁, h₂, h₃⟩ => ⟨h₁, h₂, h₃⟩, fun h => ⟨h.symbol, h.notNumeral, h.notReserved⟩⟩

theorem IsName.ne {x w : String} (h : IsName x) (hw : w ∈ reservedWords := by decide) : x ≠ w :=
  fun e => h.notReserved (e ▸ hw)

/-- That a sort is written as a word that names it. -/
def Srt.Readable : Srt → Prop
  | .named x => IsName x ∧ x ∉ ["Bool", "Int", "Lambda"]
  | .bool | .int | .lambda => True

/-- That a binder is written as a word and its sort. -/
def Binder.Readable (b : Binder) : Prop := IsName b.1 ∧ b.2.Readable

/-! ## Expressions that can be read back -/

mutual

/-- That every name of an expression is one, and every numeral has digits only. -/
def Expr.Readable : Expr → Prop
  | .bool _ => True
  | .num digits => isNumeral digits = true
  | .var x | .old x => IsName x
  | .app f args => IsName f ∧ Expr.ReadableList args
  | .applyLambda result f args => result.Readable ∧ f.Readable ∧ Expr.ReadableList args
  | .not e => e.Readable
  | .binary _ a b => a.Readable ∧ b.Readable
  | .multi _ es => Expr.ReadableList es
  | .ite c a b => c.Readable ∧ a.Readable ∧ b.Readable
  | .letIn bindings body => Expr.ReadableBindings bindings ∧ body.Readable
  | .quant _ binders triggers body =>
    (∀ b ∈ binders, Binder.Readable b) ∧ Expr.ReadableTriggers triggers ∧ body.Readable
  | .lambda binders body => (∀ b ∈ binders, Binder.Readable b) ∧ body.Readable

/-- `Readable` of every expression of a list. -/
def Expr.ReadableList : List Expr → Prop
  | [] => True
  | e :: es => e.Readable ∧ Expr.ReadableList es

/-- `Readable` of the bindings of a let. -/
def Expr.ReadableBindings : List (String × Expr) → Prop
  | [] => True
  | (x, e) :: bs => IsName x ∧ e.Readable ∧ Expr.ReadableBindings bs

/-- `Readable` of the terms of triggers. -/
def Expr.ReadableTriggers : List (List Expr) → Prop
  | [] => True
  | t :: ts => Expr.ReadableList t ∧ Expr.ReadableTriggers ts

end

/-! ## Words -/

section

variable {x f digits : String}

theorem Srt.ofSExpr_name {s : Srt} (h : s.Readable) : Srt.ofSExpr (.atom s.name) = .ok s := by
  cases s with
  | bool | int | lambda => rfl
  | named x =>
    obtain ⟨hname, hbuiltin⟩ := h
    simp only [List.mem_cons, List.not_mem_nil, or_false, not_or] at hbuiltin
    simp [Srt.ofSExpr, Srt.name, Srt.ofName, hname.symbol, hbuiltin]

theorem Expr.ofAtom_name (h : IsName x) : Expr.ofAtom x = .ok (.var x) := by
  simp [Expr.ofAtom, h.symbol, h.notNumeral, h.ne (w := "true"), h.ne (w := "false")]

theorem Expr.ofAtom_numeral (h : isNumeral digits = true) :
    Expr.ofAtom digits = .ok (.num digits) := by
  have htrue : digits ≠ "true" := by rintro rfl; exact absurd h (by decide)
  have hfalse : digits ≠ "false" := by rintro rfl; exact absurd h (by decide)
  simp [Expr.ofAtom, h, htrue, hfalse]

/-- A name heads an application. -/
theorem Expr.ofHead_name (h : IsName f) (whole : SExpr) (args : List Expr) :
    Expr.ofHead whole (.atom f) args = .ok (.app f args) := by
  have hbin : BinOp.ofHead? f = none := by
    unfold BinOp.ofHead?
    split <;> first | rfl | exact absurd rfl (h.ne (by decide))
  have hmulti : MultiOp.ofHead? f = none := by
    unfold MultiOp.ofHead?
    split <;> first | rfl | exact absurd rfl (h.ne (by decide))
  unfold Expr.ofHead
  dsimp only
  split
  · exact absurd rfl (h.ne (w := "not"))
  · exact absurd rfl (h.ne (w := "ite"))
  · rw [hbin, hmulti]
    dsimp only
    rw [if_pos h.symbol]

theorem Expr.ofHead_binary (op : BinOp) (whole : SExpr) (a b : Expr) :
    Expr.ofHead whole (.atom op.head) [a, b] = .ok (.binary op a b) := by
  cases op <;> rfl

theorem Expr.ofHead_multi (op : MultiOp) (whole : SExpr) (es : List Expr) :
    Expr.ofHead whole (.atom op.head) es = .ok (.multi op es) := by
  cases op <;> rfl

theorem Expr.ofSExprs_cons {t : SExpr} {ts : List SExpr} {e : Expr} {es : List Expr}
    (he : Expr.ofSExpr t = .ok e) (hes : Expr.ofSExprs ts = .ok es) :
    Expr.ofSExprs (t :: ts) = .ok (e :: es) := by
  rw [Expr.ofSExprs, he, hes]
  rfl

/-- The words that start a form of their own. -/
def formWords : List String := ["old", "let", "forall", "exists", "lambda", "apply"]

/-- A list that starts with no such word is an operator or a name with its operands. -/
theorem Expr.ofSExpr_operands {word : String} (h : word ∉ formWords) {args : List SExpr}
    {es : List Expr} (hargs : Expr.ofSExprs args = .ok es) :
    Expr.ofSExpr (.list (.atom word :: args)) =
      Expr.ofHead (.list (.atom word :: args)) (.atom word) es := by
  simp only [formWords, List.mem_cons, List.not_mem_nil, or_false, not_or] at h
  have hplain : Expr.ofSExpr (.list (.atom word :: args)) = (do
      let es ← Expr.ofSExprs args
      Expr.ofHead (.list (.atom word :: args)) (.atom word) es) := by
    rw [Expr.ofSExpr.eq_def]
    split <;> simp_all
  rw [hplain, hargs]
  rfl

end

theorem Binder.ofSExprs_toSExpr {bs : List Binder} (h : ∀ b ∈ bs, Binder.Readable b) :
    Binder.ofSExprs (bs.map Binder.toSExpr) = .ok bs := by
  induction bs with
  | nil => rfl
  | cons b bs ih =>
    obtain ⟨hb, hbs⟩ := List.forall_mem_cons.1 h
    have hone : Binder.ofSExpr b.toSExpr = .ok b := by
      obtain ⟨x, s⟩ := b
      show (if isSymbol x = true then (Srt.ofSExpr (.atom s.name)).map (x, ·) else _) = _
      rw [if_pos hb.1.symbol, Srt.ofSExpr_name hb.2]
      rfl
    have hrest := ih hbs
    unfold Binder.ofSExprs at hrest ⊢
    rw [List.map_cons, List.mapM_cons, hone, hrest]
    rfl

/-! ## Quantifiers -/

/-- No expression is written like the annotated body of a quantifier. -/
theorem Expr.toSExpr_ne_annotation {e : Expr} (h : e.Readable) (es : List SExpr) :
    e.toSExpr ≠ .list (.atom "!" :: es) := by
  cases e with
  | app f args =>
    have hf : f ≠ "!" := h.1.ne
    simp [Expr.toSExpr, hf]
  | binary op a b => cases op <;> simp [Expr.toSExpr, BinOp.head]
  | multi op es => cases op <;> simp [Expr.toSExpr, MultiOp.head]
  | quant q bs ts body => cases q <;> cases ts <;> simp [Expr.toSExpr, Quantifier.head]
  | _ => simp [Expr.toSExpr]

theorem Expr.ofSExpr_quant {q : Quantifier} {binders : List SExpr} {bs : List Binder}
    {t : SExpr} {body : Expr} (hbs : Binder.ofSExprs binders = .ok bs)
    (ht : ∀ es, t ≠ .list (.atom "!" :: es)) (hbody : Expr.ofSExpr t = .ok body) :
    Expr.ofSExpr (.list [.atom q.head, .list binders, t]) = .ok (.quant q bs [] body) := by
  cases q with
  | all =>
    rw [Quantifier.head, Expr.ofSExpr, hbs, hbody]
    · rfl
    · exact fun _ _ h => ht _ h
  | ex =>
    rw [Quantifier.head, Expr.ofSExpr, hbs, hbody]
    · rfl
    · exact fun _ _ h => ht _ h

theorem Expr.ofSExpr_annotated {q : Quantifier} {binders patterns : List SExpr}
    {bs : List Binder} {t : SExpr} {body : Expr} {ts : List (List Expr)}
    (hbs : Binder.ofSExprs binders = .ok bs) (hts : Expr.triggersOfSExprs patterns = .ok ts)
    (hbody : Expr.ofSExpr t = .ok body) :
    Expr.ofSExpr (.list [.atom q.head, .list binders, .list (.atom "!" :: t :: patterns)]) =
      .ok (.quant q bs ts body) := by
  cases q <;> rw [Quantifier.head, Expr.ofSExpr, hbs, hts, hbody] <;> rfl

/-! ## Expressions -/

mutual

theorem Expr.ofSExpr_toSExpr : ∀ e : Expr, e.Readable → Expr.ofSExpr e.toSExpr = .ok e
  | .bool b, _ => by cases b <;> rfl
  | .num _, h => Expr.ofAtom_numeral h
  | .var _, h => Expr.ofAtom_name h
  | .old x, h => by
    show (if isSymbol x = true then _ else _) = _
    rw [if_pos h.symbol]
  | .app f args, ⟨hf, hargs⟩ => by
    have hform : f ∉ formWords := fun hm =>
      hf.notReserved (by revert hm; simp only [formWords, reservedWords]; grind)
    rw [Expr.toSExpr, Expr.ofSExpr_operands hform (Expr.ofSExprs_toSExprs args hargs)]
    exact Expr.ofHead_name hf _ args
  | .applyLambda s f args, ⟨hs, hf, hargs⟩ => by
    rw [Expr.toSExpr, Expr.ofSExpr, Srt.ofSExpr_name hs, Expr.ofSExpr_toSExpr f hf,
      Expr.ofSExprs_toSExprs args hargs]
    rfl
  | .not e, h => by
    have hes : Expr.ofSExprs [e.toSExpr] = .ok [e] := 
      Expr.ofSExprs_cons (Expr.ofSExpr_toSExpr e h) rfl
    rw [Expr.toSExpr, Expr.ofSExpr_operands (by decide) hes]
    rfl
  | .binary op a b, ⟨ha, hb⟩ => by
    have hes : Expr.ofSExprs [a.toSExpr, b.toSExpr] = .ok [a, b] :=
      Expr.ofSExprs_cons (Expr.ofSExpr_toSExpr a ha)
        (Expr.ofSExprs_cons (Expr.ofSExpr_toSExpr b hb) rfl)
    rw [Expr.toSExpr, Expr.ofSExpr_operands (by cases op <;> decide) hes]
    exact Expr.ofHead_binary op _ a b
  | .multi op es, h => by
    rw [Expr.toSExpr, Expr.ofSExpr_operands (by cases op <;> decide) (Expr.ofSExprs_toSExprs es h)]
    exact Expr.ofHead_multi op _ es
  | .ite c a b, ⟨hc, ha, hb⟩ => by
    have hes : Expr.ofSExprs [c.toSExpr, a.toSExpr, b.toSExpr] = .ok [c, a, b] :=
      Expr.ofSExprs_cons (Expr.ofSExpr_toSExpr c hc) (Expr.ofSExprs_cons
        (Expr.ofSExpr_toSExpr a ha) (Expr.ofSExprs_cons (Expr.ofSExpr_toSExpr b hb) rfl))
    rw [Expr.toSExpr, Expr.ofSExpr_operands (by decide) hes]
    rfl
  | .letIn bs body, ⟨hbs, hbody⟩ => by
    rw [Expr.toSExpr, Expr.ofSExpr, Expr.bindingsOfSExprs_toSExprs bs hbs,
      Expr.ofSExpr_toSExpr body hbody]
    rfl
  | .quant _ bs [] body, ⟨hbs, _, hbody⟩ =>
    Expr.ofSExpr_quant (Binder.ofSExprs_toSExpr hbs) (Expr.toSExpr_ne_annotation hbody)
      (Expr.ofSExpr_toSExpr body hbody)
  | .quant _ bs (t :: ts) body, ⟨hbs, hts, hbody⟩ =>
    Expr.ofSExpr_annotated (Binder.ofSExprs_toSExpr hbs)
      (Expr.triggersOfSExprs_toSExprs (t :: ts) hts) (Expr.ofSExpr_toSExpr body hbody)
  | .lambda bs body, ⟨hbs, hbody⟩ => by
    rw [Expr.toSExpr, Binder.toSExprs, Expr.ofSExpr, Binder.ofSExprs_toSExpr hbs,
      Expr.ofSExpr_toSExpr body hbody]
    rfl

theorem Expr.ofSExprs_toSExprs :
    ∀ es : List Expr, Expr.ReadableList es → Expr.ofSExprs (Expr.toSExprs es) = .ok es
  | [], _ => rfl
  | e :: es, ⟨he, hes⟩ =>
    Expr.ofSExprs_cons (Expr.ofSExpr_toSExpr e he) (Expr.ofSExprs_toSExprs es hes)

theorem Expr.bindingsOfSExprs_toSExprs : ∀ bs : List (String × Expr),
    Expr.ReadableBindings bs → Expr.bindingsOfSExprs (Expr.bindingsToSExprs bs) = .ok bs
  | [], _ => rfl
  | (x, e) :: bs, ⟨hx, he, hbs⟩ => by
    rw [Expr.bindingsToSExprs, Expr.bindingsOfSExprs, if_pos hx.symbol,
      Expr.ofSExpr_toSExpr e he, Expr.bindingsOfSExprs_toSExprs bs hbs]
    rfl

theorem Expr.triggersOfSExprs_toSExprs : ∀ ts : List (List Expr),
    Expr.ReadableTriggers ts → Expr.triggersOfSExprs (Expr.triggersToSExprs ts) = .ok ts
  | [], _ => rfl
  | t :: ts, ⟨ht, hts⟩ => by
    rw [Expr.triggersToSExprs, Expr.triggersOfSExprs, Expr.ofSExprs_toSExprs t ht,
      Expr.triggersOfSExprs_toSExprs ts hts]
    rfl

end

/-! ## Declarations -/

/-- The tree of a declaration. Procedures and their bodies have no text form. -/
def Decl.toSExpr? : Decl → Option SExpr
  | .sort x => some (.list [.atom "declare-sort", .atom x])
  | .const x s => some (.list [.atom "declare-const", .atom x, .atom s.name])
  | .uniqueConst x s => some (.list [.atom "declare-unique-const", .atom x, .atom s.name])
  | .func x args result =>
    some (.list [.atom "declare-fun", .atom x, .list (args.map fun s => .atom s.name),
      .atom result.name])
  | .var x s => some (.list [.atom "declare-var", .atom x, .atom s.name])
  | .fact none e => some (.list [.atom "axiom", e.toSExpr])
  | .fact (some x) e => some (.list [.atom "axiom", .atom x, e.toSExpr])
  | .procedure _ | .implementation _ => none

/-- That a declaration has a text form, with names and parts that can be read back. -/
def Decl.Readable : Decl → Prop
  | .sort x => IsName x
  | .const x s | .uniqueConst x s | .var x s => IsName x ∧ s.Readable
  | .func x args result => IsName x ∧ (∀ s ∈ args, Srt.Readable s) ∧ result.Readable
  | .fact name e => (∀ x ∈ name, IsName x) ∧ e.Readable
  | .procedure _ | .implementation _ => False

theorem Srt.ofSExprs_names {ss : List Srt} (h : ∀ s ∈ ss, Srt.Readable s) :
    Srt.ofSExprs (ss.map fun s => .atom s.name) = .ok ss := by
  induction ss with
  | nil => rfl
  | cons s ss ih =>
    obtain ⟨hs, hss⟩ := List.forall_mem_cons.1 h
    have hrest := ih hss
    unfold Srt.ofSExprs at hrest ⊢
    rw [List.map_cons, List.mapM_cons, Srt.ofSExpr_name hs, hrest]
    rfl

theorem Decl.ofSExpr_toSExpr? {d : Decl} (h : d.Readable) :
    ∃ t, d.toSExpr? = some t ∧ Decl.ofSExpr t = .ok d := by
  cases d with
  | sort x =>
    refine ⟨_, rfl, ?_⟩
    have hx : isSymbol x = true := IsName.symbol h
    simp [Decl.ofSExpr, hx]
  | const x s | uniqueConst x s | var x s =>
    refine ⟨_, rfl, ?_⟩
    simp [Decl.ofSExpr, h.1.symbol, Srt.ofSExpr_name h.2, Except.map]
  | func x args result =>
    obtain ⟨hx, hargs, hresult⟩ := h
    refine ⟨_, rfl, ?_⟩
    simp only [Decl.ofSExpr, hx.symbol, Srt.ofSExprs_names hargs, Srt.ofSExpr_name hresult]
    rfl
  | fact name e =>
    obtain ⟨hname, he⟩ := h
    cases name with
    | none =>
      refine ⟨_, rfl, ?_⟩
      simp [Decl.ofSExpr, Expr.ofSExpr_toSExpr e he, Except.map]
    | some x =>
      refine ⟨_, rfl, ?_⟩
      simp [Decl.ofSExpr, (hname x rfl).symbol, Expr.ofSExpr_toSExpr e he, Except.map]
  | procedure p => exact h.elim
  | implementation i => exact h.elim

theorem Decl.ofSExprs_toSExpr? {ds : List Decl} (h : ∀ d ∈ ds, d.Readable) :
    ∃ ts, ds.mapM Decl.toSExpr? = some ts ∧ Decl.ofSExprs ts = .ok ds := by
  induction ds with
  | nil => exact ⟨[], rfl, rfl⟩
  | cons d ds ih =>
    obtain ⟨hd, hds⟩ := List.forall_mem_cons.1 h
    obtain ⟨t, ht, hread⟩ := Decl.ofSExpr_toSExpr? hd
    obtain ⟨ts, hts, hreads⟩ := ih hds
    refine ⟨t :: ts, by rw [List.mapM_cons, ht, hts]; rfl, ?_⟩
    unfold Decl.ofSExprs at hreads ⊢
    rw [List.mapM_cons, hread, hreads]
    rfl

/-- Reading undoes writing: for expressions, for declarations, and for lists of declarations in
their order. -/
theorem readable_readBack :
    (∀ e : Expr, e.Readable → Expr.ofSExpr e.toSExpr = .ok e) ∧
      (∀ d : Decl, d.Readable → ∃ t, d.toSExpr? = some t ∧ Decl.ofSExpr t = .ok d) ∧
      ∀ ds : List Decl, (∀ d ∈ ds, d.Readable) →
        ∃ ts, ds.mapM Decl.toSExpr? = some ts ∧ Decl.ofSExprs ts = .ok ds :=
  ⟨Expr.ofSExpr_toSExpr, fun _ => Decl.ofSExpr_toSExpr?, fun _ => Decl.ofSExprs_toSExpr?⟩

/-- A fact with a trigger over a body that has most of the forms. -/
def lookupFact : Expr :=
  .quant .all [("h", .named "Heap"), ("i", .int)] [[.app "at" [.var "h", .var "i"]], [.var "i"]]
    (.letIn [("found", .app "at" [.var "h", .var "i"])]
      (.ite (.not (.var "found"))
        (.binary .lt (.var "i") (.multi .add [.num "1", .num "02"]))
        (.quant .ex [("j", .int)] [] (.multi .and
          [.applyLambda .bool (.lambda [("k", .int)] (.binary .eq (.var "k") (.var "j")))
            [.app "size" [.old "last"]], .bool true]))))

theorem lookupFact_readBack :
    let ds : List Decl := [.sort "Heap", .func "at" [.named "Heap", .int] .bool,
      .var "last" (.named "Heap"), .fact (some "lookup") lookupFact, .fact none (.bool true)]
    lookupFact.Readable ∧ Expr.ofSExpr lookupFact.toSExpr = .ok lookupFact ∧
      (∀ d ∈ ds, d.Readable) ∧
      ∃ ts, ds.mapM Decl.toSExpr? = some ts ∧ Decl.ofSExprs ts = .ok ds := by
  have hfact : lookupFact.Readable := by
    simp only [lookupFact, Expr.Readable, Expr.ReadableList, Expr.ReadableBindings,
      Expr.ReadableTriggers, Binder.Readable, Srt.Readable, List.forall_mem_cons,
      List.not_mem_nil, false_imp_iff, implies_true, and_true, true_and]
    decide
  intro ds
  have hdecls : ∀ d ∈ ds, d.Readable := by
    simp only [ds, List.forall_mem_cons, List.not_mem_nil, false_imp_iff, implies_true, and_true,
      Decl.Readable, Srt.Readable, hfact, Expr.Readable, Option.mem_some_iff, forall_eq',
      Option.not_mem_none]
    decide
  exact ⟨hfact, readable_readBack.1 lookupFact hfact, hdecls, readable_readBack.2.2 ds hdecls⟩

end ContractLowering.IL
