import ContractLowering.Context
import ContractLowering.Proofs.Source.Recursor

/-!
# Programs without inherited clauses

`Program.plain` is a program in which nothing counts as inherited. Clearing the flags changes no
expression and no call, and it commutes with what is made of declarations: the class of an iterator
and the context of a program (`Context.ofProgram_plain`).
-/

namespace ContractLowering

namespace Source

/-- The clause as one that is not inherited. -/
def Spec.plain (s : Spec) : Spec := { s with inherited := false }

/-- The loop contract without inherited invariants. -/
def LoopSpec.plain (s : LoopSpec) : LoopSpec := { s with invariants := s.invariants.map Spec.plain }

mutual

/-- The statement without inherited clauses and assertions. -/
def Stmt.plain : Stmt → Stmt
  | .block s body => .block s (Stmt.plainList body)
  | .varDecl s x t rhs => .varDecl s x t rhs
  | .assign s lhss rhss => .assign s lhss rhss
  | .call s m r args outs => .call s m r args outs
  | .ifElse s g thn els => .ifElse s g thn.plain (Stmt.plain? els)
  | .altIf s alts => .altIf s (Stmt.plainAlternatives alts)
  | .loop s spec g body => .loop s spec.plain g (Stmt.plain? body)
  | .altLoop s spec alts body =>
    .altLoop s spec.plain (Stmt.plainAlternatives alts) (Stmt.plain? body)
  | .cases s e arms => .cases s e (Stmt.plainArms arms)
  | .calc s e steps => .calc s e (Stmt.plainSteps steps)
  | .forallAssign s d lhs e => .forallAssign s d lhs e
  | .forallCall s d m r args => .forallCall s d m r args
  | .forallProof s d ens body => .forallProof s d (ens.map Spec.plain) body.plain
  | .assert s e _ => .assert s e false
  | .assume s e => .assume s e
  | .ret s es => .ret s es
  | .yield s es => .yield s es
  | .leave s l => .leave s l

/-- The optional statement without inherited clauses. -/
def Stmt.plain? : Option Stmt → Option Stmt
  | none => none
  | some s => some s.plain

/-- The statements without inherited clauses. -/
def Stmt.plainList : List Stmt → List Stmt
  | [] => []
  | s :: ss => s.plain :: Stmt.plainList ss

/-- The alternatives without inherited clauses. -/
def Stmt.plainAlternatives : List (Expr × Stmt) → List (Expr × Stmt)
  | [] => []
  | (e, s) :: alts => (e, s.plain) :: Stmt.plainAlternatives alts

/-- The match cases without inherited clauses. -/
def Stmt.plainArms : List (Pattern × Stmt) → List (Pattern × Stmt)
  | [] => []
  | (p, s) :: arms => (p, s.plain) :: Stmt.plainArms arms

/-- The steps of a calculation without inherited clauses in their hints. -/
def Stmt.plainSteps : List ((CalcOp × Expr) × Option Stmt) → List ((CalcOp × Expr) × Option Stmt)
  | [] => []
  | (line, hint) :: steps => (line, Stmt.plain? hint) :: Stmt.plainSteps steps

end

/-- The function without inherited clauses. -/
def Function.plain (f : Function) : Function :=
  { f with requires := f.requires.map Spec.plain, ensures := f.ensures.map Spec.plain }

/-- The method without inherited clauses. -/
def Method.plain (m : Method) : Method :=
  { m with
    requires := m.requires.map Spec.plain
    ensures := m.ensures.map Spec.plain
    body := m.body.map Stmt.plain }

/-- The class without inherited clauses. -/
def Class.plain (c : Class) : Class :=
  { c with functions := c.functions.map Function.plain, methods := c.methods.map Method.plain }

/-- The iterator without inherited clauses. -/
def Iterator.plain (i : Iterator) : Iterator :=
  { i with
    requires := i.requires.map Spec.plain
    ensures := i.ensures.map Spec.plain
    yieldRequires := i.yieldRequires.map Spec.plain
    yieldEnsures := i.yieldEnsures.map Spec.plain
    body := i.body.map Stmt.plain }

/-- The declaration without inherited clauses. -/
def TopDecl.plain : TopDecl → TopDecl
  | .cls c => .cls c.plain
  | .datatype d => .datatype d
  | .iterator i => .iterator i.plain

/-- The program without inherited clauses. -/
def Program.plain (p : Program) : Program :=
  p.map fun m => { m with decls := m.decls.map TopDecl.plain }

/-! ## Clauses -/

@[simp] theorem Spec.plain_expr (s : Spec) : s.plain.expr = s.expr := rfl
@[simp] theorem Spec.plain_free (s : Spec) : s.plain.free = s.free := rfl
@[simp] theorem Spec.plain_inherited (s : Spec) : s.plain.inherited = false := rfl

@[simp] theorem map_expr_plain (specs : List Spec) :
    (specs.map Spec.plain).map (·.expr) = specs.map (·.expr) := by
  simp [Function.comp_def]

theorem filter_plain (p : Spec → Bool) (hp : ∀ s, p s.plain = p s) (specs : List Spec) :
    (specs.map Spec.plain).filter p = (specs.filter p).map Spec.plain := by
  simp [List.filter_map, Function.comp_def, hp]

@[simp] theorem LoopSpec.plain_exprs (s : LoopSpec) : s.plain.exprs = s.exprs := by
  simp [LoopSpec.exprs, LoopSpec.plain]

/-! ## Statements -/

namespace Stmt

theorem plain?_eq (o : Option Stmt) : plain? o = o.map plain := by
  cases o <;> rfl

theorem plainList_eq (ss : List Stmt) : plainList ss = ss.map plain := by
  induction ss with
  | nil => rfl
  | cons s ss ih => rw [plainList, ih, List.map_cons]

theorem plainAlternatives_eq (alts : List (Expr × Stmt)) :
    plainAlternatives alts = alts.map fun a => (a.1, a.2.plain) := by
  induction alts with
  | nil => rfl
  | cons a alts ih => rw [plainAlternatives, ih, List.map_cons]

theorem plainArms_eq (arms : List (Pattern × Stmt)) :
    plainArms arms = arms.map fun a => (a.1, a.2.plain) := by
  induction arms with
  | nil => rfl
  | cons a arms ih => rw [plainArms, ih, List.map_cons]

theorem plainSteps_eq (steps : List ((CalcOp × Expr) × Option Stmt)) :
    plainSteps steps = steps.map fun a => (a.1, a.2.map plain) := by
  induction steps with
  | nil => rfl
  | cons a steps ih => rw [plainSteps, ih, plain?_eq, List.map_cons]

mutual

/-- The statements inside a plain statement are the plain ones of those inside it. -/
theorem substmts_plain : ∀ s : Stmt, s.plain.substmts = s.substmts.map plain
  | .block s body => by
    simp [plain, substmts, substmtsList_plain body]
  | .varDecl .. | .assign .. | .call .. | .forallAssign .. | .forallCall .. | .assert ..
  | .assume .. | .ret .. | .yield .. | .leave .. => by
    simp [plain, substmts]
  | .ifElse s g thn els => by
    simp [plain, substmts, substmts_plain thn, substmts?_plain els]
  | .altIf s alts => by
    simp [plain, substmts, substmtsAlternatives_plain alts]
  | .loop s spec g body => by
    simp [plain, substmts, substmts?_plain body]
  | .altLoop s spec alts body => by
    simp [plain, substmts, substmtsAlternatives_plain alts, substmts?_plain body]
  | .cases s e arms => by
    simp [plain, substmts, substmtsArms_plain arms]
  | .calc s e steps => by
    simp [plain, substmts, substmtsSteps_plain steps]
  | .forallProof s d ens body => by
    simp [plain, substmts, substmts_plain body]

theorem substmts?_plain : ∀ o : Option Stmt, substmts? (plain? o) = (substmts? o).map plain
  | none => rfl
  | some s => substmts_plain s

theorem substmtsList_plain : ∀ ss : List Stmt,
    substmtsList (plainList ss) = (substmtsList ss).map plain
  | [] => rfl
  | s :: ss => by
    simp [plainList, substmtsList, substmts_plain s, substmtsList_plain ss]

theorem substmtsAlternatives_plain : ∀ alts : List (Expr × Stmt),
    substmtsAlternatives (plainAlternatives alts) = (substmtsAlternatives alts).map plain
  | [] => rfl
  | (e, s) :: alts => by
    simp [plainAlternatives, substmtsAlternatives, substmts_plain s,
      substmtsAlternatives_plain alts]

theorem substmtsArms_plain : ∀ arms : List (Pattern × Stmt),
    substmtsArms (plainArms arms) = (substmtsArms arms).map plain
  | [] => rfl
  | (p, s) :: arms => by
    simp [plainArms, substmtsArms, substmts_plain s, substmtsArms_plain arms]

theorem substmtsSteps_plain : ∀ steps : List ((CalcOp × Expr) × Option Stmt),
    substmtsSteps (plainSteps steps) = (substmtsSteps steps).map plain
  | [] => rfl
  | (line, hint) :: steps => by
    simp [plainSteps, substmtsSteps, substmts?_plain hint, substmtsSteps_plain steps]

end

theorem ownExprs_plain (s : Stmt) : s.plain.ownExprs = s.ownExprs := by
  cases s <;> simp [plain, ownExprs, plainAlternatives_eq, plainSteps_eq, Function.comp_def]

theorem ownTargets_plain (s : Stmt) : s.plain.ownTargets = s.ownTargets := by
  cases s <;> rfl

theorem containsYield_plain (s : Stmt) : s.plain.containsYield = s.containsYield := by
  rw [containsYield, substmts_plain, List.any_map, containsYield]
  congr
  funext t
  cases t <;> rfl

theorem assignedLocals_plain (s : Stmt) : s.plain.assignedLocals = s.assignedLocals := by
  rw [assignedLocals, substmts_plain, List.flatMap_map, assignedLocals]
  simp only [ownTargets_plain]

theorem callees_plain (s : Stmt) : s.plain.callees = s.callees := by
  have hexprs : s.plain.exprs = s.exprs := by
    rw [exprs, substmts_plain, List.flatMap_map, exprs]
    simp only [ownExprs_plain]
  rw [callees, hexprs, substmts_plain, List.filterMap_map, callees]
  congr
  funext t
  cases t <;> rfl

end Stmt

/-! ## Declarations -/

theorem Function.callEdges_plain (f : Function) : f.plain.callEdges = f.callEdges := by
  simp only [Function.callEdges, Function.plain, List.flatMap_map, map_expr_plain, Spec.plain_expr]
  rfl

theorem Method.callEdges_plain (m : Method) : m.plain.callEdges = m.callEdges := by
  simp [Method.callEdges, Method.plain, Function.comp_def, Stmt.callees_plain]

theorem Iterator.callEdges_plain (i : Iterator) : i.plain.callEdges = i.callEdges := by
  simp [Iterator.callEdges, Iterator.plain, Function.comp_def, Stmt.callees_plain]

namespace Iterator

theorem viewSpecs_plain (view : List (String × Expr)) (specs : List Spec) :
    viewSpecs view (specs.map Spec.plain) = (viewSpecs view specs).map Spec.plain := by
  simp [viewSpecs, Spec.plain]

/-- Inside its body a plain iterator looks like the iterator, apart from the flags. -/
theorem insideView_plain (i : Iterator) : i.plain.insideView = i.insideView.plain := by
  simp only [insideView, plain, viewSpecs_plain]
  rfl

theorem ctorMethod_plain (i : Iterator) : i.plain.ctorMethod = i.ctorMethod.plain := by
  simp only [ctorMethod, Method.plain, List.map_map, Option.map_none]
  rfl

theorem moveNextMethod_plain (i : Iterator) : i.plain.moveNextMethod = i.moveNextMethod.plain := by
  simp only [moveNextMethod, Method.plain, viewSpecs, List.map_append, List.map_flatMap,
    List.map_map, List.map_cons, List.map_nil, Option.map_none, Iterator.plain]
  rfl

/-- The class of a plain iterator is the plain class of the iterator. -/
theorem toClass_plain (i : Iterator) : i.plain.toClass = i.toClass.plain := by
  simp only [toClass, Class.plain, List.map_cons, List.map_nil, ctorMethod_plain,
    moveNextMethod_plain]
  rfl

end Iterator

end Source

/-! ## Contexts -/

/-- The context of the plain declarations. -/
def Context.plain (c : Context) : Context :=
  { c with
    functions := c.functions.map Source.Function.plain
    methods := c.methods.map Source.Method.plain
    classes := c.classes.map Source.Class.plain
    iterators := c.iterators.map Source.Iterator.plain }

namespace Context

open Source

theorem orBroken_map {α : Type} (f : α → α) (o : Option α) (b : Broken) :
    orBroken (o.map f) b = (orBroken o b).map f := by
  cases o <;> rfl

theorem function_plain (c : Context) (p : Path) :
    c.plain.function p = (c.function p).map Function.plain := by
  rw [function, plain, List.find?_map, orBroken_map]
  rfl

theorem method_plain (c : Context) (p : Path) :
    c.plain.method p = (c.method p).map Method.plain := by
  rw [method, plain, List.find?_map, orBroken_map]
  rfl

theorem cls_plain (c : Context) (p : Path) : c.plain.cls p = (c.cls p).map Class.plain := by
  rw [cls, plain, List.find?_map, orBroken_map]
  rfl

theorem callEdges_plain (c : Context) : c.plain.callEdges = c.callEdges := by
  simp [callEdges, plain, List.flatMap_map, Function.callEdges_plain, Method.callEdges_plain,
    Iterator.callEdges_plain]

theorem members_plain (c : Context) : c.plain.members = c.members := by
  simp [members, plain, Function.comp_def, Function.plain, Method.plain, Iterator.plain]

/-- A step of building a context commutes with clearing the flags. -/
theorem bind_plain {x y : Except Message Context} {f g : Context → Except Message Context}
    (hx : y = x.map plain) (hf : ∀ c, g c.plain = (f c).map plain) :
    y >>= g = (x >>= f).map plain := by
  subst hx
  cases x with
  | error m => rfl
  | ok c => exact hf c

theorem foldlM_plain {α : Type} {add : Context → α → Except Message Context} {f : α → α}
    (hadd : ∀ (c : Context) (a : α), add c.plain (f a) = (add c a).map plain) (as : List α)
    (c : Context) : (as.map f).foldlM add c.plain = (as.foldlM add c).map plain := by
  induction as generalizing c with
  | nil => rfl
  | cons a as ih =>
    rw [List.map_cons, List.foldlM_cons, List.foldlM_cons]
    exact bind_plain (hadd c a) ih

/-- A declaration is added to the plain context unless it repeats another one. -/
theorem ite_plain {p q : Bool} (hpq : p = q) (m : Message) {c d : Context} (hd : d = c.plain) :
    (if p then .error m else .ok d : Except Message Context) =
      (if q then .error m else .ok c : Except Message Context).map plain := by
  subst hpq hd
  cases p <;> rfl

theorem any_plain {α : Type} (f : α → α) (key : α → Path) (hf : ∀ a, key (f a) = key a)
    (as : List α) (p : Path) :
    (as.map f).any (fun a => key a = p) = as.any fun a => key a = p := by
  rw [List.any_map]
  simp [Function.comp_def, hf]

theorem addFunction_plain (c : Context) (f : Function) :
    c.plain.addFunction f.plain = (c.addFunction f).map plain :=
  ite_plain (any_plain Function.plain Function.name (fun _ => rfl) c.functions f.name) _ rfl

theorem addMethod_plain (c : Context) (m : Method) :
    c.plain.addMethod m.plain = (c.addMethod m).map plain :=
  ite_plain (any_plain Method.plain Method.name (fun _ => rfl) c.methods m.name) _ rfl

theorem addOther_plain (c : Context) (d : TopDecl) :
    c.plain.addOther d.plain = (c.addOther d).map plain := by
  cases d with
  | cls k => rfl
  | datatype d => exact ite_plain rfl _ rfl
  | iterator i =>
    exact ite_plain (any_plain Iterator.plain Iterator.path (fun _ => rfl) c.iterators i.path) _ rfl

theorem addClass_plain (c : Context) (k : Source.Class) :
    c.plain.addClass k.plain = (c.addClass k).map plain :=
  bind_plain (foldlM_plain addFunction_plain k.functions
      { c with fields := k.fields.reverse ++ c.fields }) fun c =>
    bind_plain (foldlM_plain addMethod_plain k.methods c) fun c =>
      ite_plain (any_plain Class.plain Class.path (fun _ => rfl) c.classes k.path) _ rfl

theorem classOf?_plain (d : TopDecl) : classOf? d.plain = (classOf? d).map Class.plain := by
  cases d with
  | cls k => rfl
  | datatype d => rfl
  | iterator i => exact congrArg some i.toClass_plain

theorem decls_plain (program : Program) :
    program.plain.flatMap (·.decls) = (program.flatMap (·.decls)).map TopDecl.plain := by
  simp [Program.plain, List.flatMap_map, List.map_flatMap]

/-- The context of a plain program is the plain context of the program. -/
theorem ofProgram_plain (program : Program) (options : Options) :
    ofProgram program.plain options = (ofProgram program options).map plain := by
  unfold ofProgram
  rw [decls_plain]
  dsimp only
  rw [List.filterMap_map]
  have hclasses : (program.flatMap (·.decls)).filterMap (classOf? ∘ TopDecl.plain) =
      ((program.flatMap (·.decls)).filterMap classOf?).map Class.plain := by
    rw [List.map_filterMap]
    congr
    funext d
    exact classOf?_plain d
  rw [hclasses]
  refine bind_plain (foldlM_plain addOther_plain _ { options }) fun c =>
    bind_plain (foldlM_plain addClass_plain _ c) fun c => ?_
  show Except.ok _ = Except.ok _
  rw [callEdges_plain, members_plain]
  rfl

end Context

end ContractLowering
