import ContractLowering.IL.Check

/-!
# Well-formed programs

The rules the name and arity check is meant to enforce, as predicates that do not mention the
check: what a program declares is read off its declarations, and `WellScoped` says of every part
that the names it uses are declared, with the right counts, or bound around it.

`WellScoped` reads a `Signature` by membership only, so the order of its lists does not matter,
and nothing is assumed about names that are listed twice; `WellFormed` excludes them.
-/

namespace ContractLowering.IL

/-! ## What is declared -/

/-- The sort a declaration declares. -/
def Decl.sort? : Decl → Option String
  | .sort x => some x
  | _ => none

/-- The constant, function or variable a declaration declares. -/
def Decl.named? : Decl → Option (String × NameKind)
  | .const x _ | .uniqueConst x _ => some (x, .const)
  | .func x args _ => some (x, .func args.length)
  | .var x _ => some (x, .var)
  | _ => none

/-- The procedure a declaration declares, with its numbers of parameters and results. -/
def Decl.proc? : Decl → Option (String × Nat × Nat)
  | .procedure p => some (p.name, p.params.length, p.outs.length)
  | _ => none

/-- What the declarations of a program declare, in order. -/
def Program.signature (ds : Program) : Signature where
  sorts := ds.filterMap Decl.sort?
  names := ds.filterMap Decl.named?
  procs := ds.filterMap Decl.proc?

namespace Signature

/-- In each of the three name spaces a name is declared at most once. -/
structure Distinct (sig : Signature) : Prop where
  sorts : sig.sorts.Nodup
  names : (sig.names.map (·.1)).Nodup
  procs : (sig.procs.map (·.1)).Nodup

/-- A sort is built in or declared. -/
def HasSort (sig : Signature) (s : Srt) : Prop := ∀ x, s = .named x → x ∈ sig.sorts

/-- A name may be assigned: it is a local or a global variable. -/
def Assignable (sig : Signature) (Γ : List String) (x : String) : Prop :=
  x ∈ Γ ∨ (x, .var) ∈ sig.names

end Signature

/-! ## Expressions -/

/-- Every name of an expression is in `Γ` or bound around its use, or declared as what it is used
for, and applications have as many arguments as declared. -/
inductive Expr.WellScoped (sig : Signature) : List String → Expr → Prop
  | bool {Γ b} : WellScoped sig Γ (.bool b)
  | num {Γ digits} : WellScoped sig Γ (.num digits)
  | bound {Γ x} (hx : x ∈ Γ) : WellScoped sig Γ (.var x)
  | const {Γ x} (hx : (x, .const) ∈ sig.names) : WellScoped sig Γ (.var x)
  | global {Γ x} (hx : (x, .var) ∈ sig.names) : WellScoped sig Γ (.var x)
  | old {Γ x} (hx : (x, .var) ∈ sig.names) : WellScoped sig Γ (.old x)
  | app {Γ f args} (hf : (f, .func args.length) ∈ sig.names)
      (hargs : ∀ a ∈ args, WellScoped sig Γ a) : WellScoped sig Γ (.app f args)
  | applyLambda {Γ result f args} (hs : sig.HasSort result) (hf : WellScoped sig Γ f)
      (hargs : ∀ a ∈ args, WellScoped sig Γ a) : WellScoped sig Γ (.applyLambda result f args)
  | not {Γ e} (he : WellScoped sig Γ e) : WellScoped sig Γ (.not e)
  | binary {Γ op a b} (ha : WellScoped sig Γ a) (hb : WellScoped sig Γ b) :
      WellScoped sig Γ (.binary op a b)
  | multi {Γ op es} (hes : ∀ e ∈ es, WellScoped sig Γ e) : WellScoped sig Γ (.multi op es)
  | ite {Γ c a b} (hc : WellScoped sig Γ c) (ha : WellScoped sig Γ a) (hb : WellScoped sig Γ b) :
      WellScoped sig Γ (.ite c a b)
  | letIn {Γ bindings body} (hvalues : ∀ b ∈ bindings, WellScoped sig Γ b.2)
      (hbody : WellScoped sig (bindings.map (·.1) ++ Γ) body) :
      WellScoped sig Γ (.letIn bindings body)
  | quant {Γ q binders triggers body} (hs : ∀ b ∈ binders, sig.HasSort b.2)
      (htriggers : ∀ t ∈ triggers, ∀ e ∈ t, WellScoped sig (binders.map (·.1) ++ Γ) e)
      (hbody : WellScoped sig (binders.map (·.1) ++ Γ) body) :
      WellScoped sig Γ (.quant q binders triggers body)
  | lambda {Γ binders body} (hs : ∀ b ∈ binders, sig.HasSort b.2)
      (hbody : WellScoped sig (binders.map (·.1) ++ Γ) body) :
      WellScoped sig Γ (.lambda binders body)

namespace Expr

variable {sig : Signature} {Γ : List String}

@[simp] theorem wellScoped_bool {b : Bool} : (bool b).WellScoped sig Γ := .bool

@[simp] theorem wellScoped_num {digits : String} : (num digits).WellScoped sig Γ := .num

@[simp] theorem wellScoped_var {x : String} : (var x).WellScoped sig Γ ↔
    x ∈ Γ ∨ (x, .const) ∈ sig.names ∨ (x, .var) ∈ sig.names := by
  constructor
  · rintro (_ | _ | h | h | h)
    · exact .inl h
    · exact .inr (.inl h)
    · exact .inr (.inr h)
  · rintro (h | h | h)
    · exact .bound h
    · exact .const h
    · exact .global h

@[simp] theorem wellScoped_old {x : String} : (old x).WellScoped sig Γ ↔ (x, .var) ∈ sig.names :=
  ⟨fun | .old h => h, .old⟩

@[simp] theorem wellScoped_app {f : String} {args : List Expr} : (app f args).WellScoped sig Γ ↔
    (f, .func args.length) ∈ sig.names ∧ ∀ a ∈ args, a.WellScoped sig Γ :=
  ⟨fun | .app hf hargs => ⟨hf, hargs⟩, fun h => .app h.1 h.2⟩

@[simp] theorem wellScoped_applyLambda {s : Srt} {f : Expr} {args : List Expr} :
    (applyLambda s f args).WellScoped sig Γ ↔
      sig.HasSort s ∧ f.WellScoped sig Γ ∧ ∀ a ∈ args, a.WellScoped sig Γ :=
  ⟨fun | .applyLambda hs hf hargs => ⟨hs, hf, hargs⟩, fun h => .applyLambda h.1 h.2.1 h.2.2⟩

@[simp] theorem wellScoped_not {e : Expr} : (not e).WellScoped sig Γ ↔ e.WellScoped sig Γ :=
  ⟨fun | .not h => h, .not⟩

@[simp] theorem wellScoped_binary {op : BinOp} {a b : Expr} : (binary op a b).WellScoped sig Γ ↔
    a.WellScoped sig Γ ∧ b.WellScoped sig Γ :=
  ⟨fun | .binary ha hb => ⟨ha, hb⟩, fun h => .binary h.1 h.2⟩

@[simp] theorem wellScoped_multi {op : MultiOp} {es : List Expr} :
    (multi op es).WellScoped sig Γ ↔ ∀ e ∈ es, e.WellScoped sig Γ :=
  ⟨fun | .multi h => h, .multi⟩

@[simp] theorem wellScoped_ite {c a b : Expr} : (ite c a b).WellScoped sig Γ ↔
    c.WellScoped sig Γ ∧ a.WellScoped sig Γ ∧ b.WellScoped sig Γ :=
  ⟨fun | .ite hc ha hb => ⟨hc, ha, hb⟩, fun h => .ite h.1 h.2.1 h.2.2⟩

@[simp] theorem wellScoped_letIn {bs : List (String × Expr)} {body : Expr} :
    (letIn bs body).WellScoped sig Γ ↔
      (∀ b ∈ bs, b.2.WellScoped sig Γ) ∧ body.WellScoped sig (bs.map (·.1) ++ Γ) :=
  ⟨fun | .letIn hv hb => ⟨hv, hb⟩, fun h => .letIn h.1 h.2⟩

@[simp] theorem wellScoped_quant {q : Quantifier} {bs : List Binder} {ts : List (List Expr)}
    {body : Expr} : (quant q bs ts body).WellScoped sig Γ ↔
      (∀ b ∈ bs, sig.HasSort b.2) ∧ (∀ t ∈ ts, ∀ e ∈ t, e.WellScoped sig (bs.map (·.1) ++ Γ)) ∧
        body.WellScoped sig (bs.map (·.1) ++ Γ) :=
  ⟨fun | .quant hs ht hb => ⟨hs, ht, hb⟩, fun h => .quant h.1 h.2.1 h.2.2⟩

@[simp] theorem wellScoped_lambda {bs : List Binder} {body : Expr} :
    (lambda bs body).WellScoped sig Γ ↔
      (∀ b ∈ bs, sig.HasSort b.2) ∧ body.WellScoped sig (bs.map (·.1) ++ Γ) :=
  ⟨fun | .lambda hs hb => ⟨hs, hb⟩, fun h => .lambda h.1 h.2⟩

end Expr

/-! ## Statements -/

/-- Every name of a statement is a local in `Γ` or declared as what it is used for, calls have as
many arguments and results as declared, an unlabelled exit stands in a loop and a labelled one in
a block of that label. The first index tells whether a loop encloses the statement. -/
inductive Stmt.WellScoped (sig : Signature) (Γ : List String) : Bool → List String → Stmt → Prop
  | assume {inLoop labels e} (he : e.WellScoped sig Γ) : WellScoped sig Γ inLoop labels (.assume e)
  | assert {inLoop labels msg e} (he : e.WellScoped sig Γ) :
      WellScoped sig Γ inLoop labels (.assert msg e)
  | havoc {inLoop labels x} (hx : sig.Assignable Γ x) : WellScoped sig Γ inLoop labels (.havoc x)
  | assign {inLoop labels x e} (hx : sig.Assignable Γ x) (he : e.WellScoped sig Γ) :
      WellScoped sig Γ inLoop labels (.assign x e)
  | call {inLoop labels p args outs} (hp : (p, args.length, outs.length) ∈ sig.procs)
      (hargs : ∀ a ∈ args, a.WellScoped sig Γ) (houts : ∀ x ∈ outs, sig.Assignable Γ x) :
      WellScoped sig Γ inLoop labels (.call p args outs)
  | ifElse {inLoop labels guard thn els} (hg : ∀ e ∈ guard, e.WellScoped sig Γ)
      (hthn : ∀ s ∈ thn, WellScoped sig Γ inLoop labels s)
      (hels : ∀ s ∈ els, WellScoped sig Γ inLoop labels s) :
      WellScoped sig Γ inLoop labels (.ifElse guard thn els)
  | loop {inLoop labels guard invariants body} (hg : ∀ e ∈ guard, e.WellScoped sig Γ)
      (hinv : ∀ c ∈ invariants, c.expr.WellScoped sig Γ)
      (hbody : ∀ s ∈ body, WellScoped sig Γ true labels s) :
      WellScoped sig Γ inLoop labels (.loop guard invariants body)
  | leaveLoop {labels} : WellScoped sig Γ true labels (.leave none)
  | leaveBlock {inLoop labels label} (hl : label ∈ labels) :
      WellScoped sig Γ inLoop labels (.leave (some label))
  | block {inLoop labels label body}
      (hbody : ∀ s ∈ body, WellScoped sig Γ inLoop (label.toList ++ labels) s) :
      WellScoped sig Γ inLoop labels (.block label body)
  | ret {inLoop labels} : WellScoped sig Γ inLoop labels .ret

namespace Stmt

variable {sig : Signature} {Γ : List String} {inLoop : Bool} {labels : List String}

@[simp] theorem wellScoped_assume {e : Expr} :
    (assume e).WellScoped sig Γ inLoop labels ↔ e.WellScoped sig Γ :=
  ⟨fun | .assume h => h, .assume⟩

@[simp] theorem wellScoped_assert {msg : Message} {e : Expr} :
    (assert msg e).WellScoped sig Γ inLoop labels ↔ e.WellScoped sig Γ :=
  ⟨fun | .assert h => h, .assert⟩

@[simp] theorem wellScoped_havoc {x : String} :
    (havoc x).WellScoped sig Γ inLoop labels ↔ sig.Assignable Γ x :=
  ⟨fun | .havoc h => h, .havoc⟩

@[simp] theorem wellScoped_assign {x : String} {e : Expr} :
    (assign x e).WellScoped sig Γ inLoop labels ↔ sig.Assignable Γ x ∧ e.WellScoped sig Γ :=
  ⟨fun | .assign hx he => ⟨hx, he⟩, fun h => .assign h.1 h.2⟩

@[simp] theorem wellScoped_call {p : String} {args : List Expr} {outs : List String} :
    (call p args outs).WellScoped sig Γ inLoop labels ↔
      (p, args.length, outs.length) ∈ sig.procs ∧ (∀ a ∈ args, a.WellScoped sig Γ) ∧
        ∀ x ∈ outs, sig.Assignable Γ x :=
  ⟨fun | .call hp ha ho => ⟨hp, ha, ho⟩, fun h => .call h.1 h.2.1 h.2.2⟩

@[simp] theorem wellScoped_ifElse {guard : Option Expr} {thn els : List Stmt} :
    (ifElse guard thn els).WellScoped sig Γ inLoop labels ↔ (∀ e ∈ guard, e.WellScoped sig Γ) ∧
      (∀ s ∈ thn, s.WellScoped sig Γ inLoop labels) ∧
        ∀ s ∈ els, s.WellScoped sig Γ inLoop labels :=
  ⟨fun | .ifElse hg ht he => ⟨hg, ht, he⟩, fun h => .ifElse h.1 h.2.1 h.2.2⟩

@[simp] theorem wellScoped_loop {guard : Option Expr} {invariants : List Clause}
    {body : List Stmt} : (loop guard invariants body).WellScoped sig Γ inLoop labels ↔
      (∀ e ∈ guard, e.WellScoped sig Γ) ∧ (∀ c ∈ invariants, c.expr.WellScoped sig Γ) ∧
        ∀ s ∈ body, s.WellScoped sig Γ true labels :=
  ⟨fun | .loop hg hi hb => ⟨hg, hi, hb⟩, fun h => .loop h.1 h.2.1 h.2.2⟩

@[simp] theorem wellScoped_leave_none :
    (leave none).WellScoped sig Γ inLoop labels ↔ inLoop = true :=
  ⟨fun | .leaveLoop => rfl, fun h => h ▸ .leaveLoop⟩

@[simp] theorem wellScoped_leave_some {label : String} :
    (leave (some label)).WellScoped sig Γ inLoop labels ↔ label ∈ labels :=
  ⟨fun | .leaveBlock h => h, .leaveBlock⟩

@[simp] theorem wellScoped_block {label : Option String} {body : List Stmt} :
    (block label body).WellScoped sig Γ inLoop labels ↔
      ∀ s ∈ body, s.WellScoped sig Γ inLoop (label.toList ++ labels) :=
  ⟨fun | .block h => h, .block⟩

@[simp] theorem wellScoped_ret : ret.WellScoped sig Γ inLoop labels := .ret

end Stmt

/-! ## Declarations -/

/-- The requires clauses see the parameters, the ensures clauses also the results. -/
structure Procedure.WellScoped (sig : Signature) (p : Procedure) : Prop where
  sorts : ∀ b ∈ p.params ++ p.outs, sig.HasSort b.2
  modifies : ∀ x ∈ p.modifies, (x, .var) ∈ sig.names
  requires : ∀ c ∈ p.requires, c.expr.WellScoped sig (p.params.map (·.1))
  ensures : ∀ c ∈ p.ensures, c.expr.WellScoped sig (p.outs.map (·.1) ++ p.params.map (·.1))

/-- The variables of an implementation: parameters, results and locals. -/
def Implementation.variables (i : Implementation) : List Binder := i.params ++ i.outs ++ i.locals

/-- A body has a procedure with its counts, and its statements see its variables, which are
pairwise distinct. -/
structure Implementation.WellScoped (sig : Signature) (i : Implementation) : Prop where
  declared : (i.name, i.params.length, i.outs.length) ∈ sig.procs
  sorts : ∀ b ∈ i.variables, sig.HasSort b.2
  distinct : (i.variables.map (·.1)).Nodup
  body : ∀ s ∈ i.body, s.WellScoped sig (i.variables.map (·.1)) false []

/-- The rules for one declaration. -/
def Decl.WellScoped (sig : Signature) : Decl → Prop
  | .sort _ => True
  | .const _ s | .uniqueConst _ s | .var _ s => sig.HasSort s
  | .func _ args result => ∀ s ∈ result :: args, sig.HasSort s
  | .fact _ e => e.WellScoped sig []
  | .procedure p => p.WellScoped sig
  | .implementation i => i.WellScoped sig

/-- Nothing is declared twice, and every declaration keeps to what the program declares. -/
structure Program.WellFormed (ds : Program) : Prop where
  distinct : (Program.signature ds).Distinct
  decls : ∀ d ∈ ds, d.WellScoped (Program.signature ds)

end ContractLowering.IL
