import ContractLowering.Proofs.IL.WellFormed
import ContractLowering.Proofs.ScopeMap
import Mathlib.Data.List.Nodup

/-!
# The check decides well-formedness

A check `Decides` a predicate of the names in scope: it accepts where the predicate holds, and
leaves the scope as it was whether it accepts or not. The checks of expressions and statements
decide `WellScoped` (`Expr.check_decides`, `Stmt.check_decides`), one case per construct.

Two rules escape the check. The sorts of an implementation's parameters and results are not looked
at, and an enclosing loop is recorded as a label `loopLabel` that a block could have as well. So
`wellFormed_iff_check` asks for the former beside acceptance, and is about programs that do not
use the latter.
-/

namespace ContractLowering.IL

/-! ## The signature of a program -/

namespace Signature

/-- The signature `σ` that the check builds tells by look-up what `sig` lists. -/
structure Represents (σ sig : Signature) : Prop where
  sorts : ∀ x, x ∈ σ.sorts ↔ x ∈ sig.sorts
  names : ∀ x kind, σ.names.lookup x = some kind ↔ (x, kind) ∈ sig.names
  procs : ∀ p counts, σ.procs.lookup p = some counts ↔ (p, counts) ∈ sig.procs

/-- The declarations of `ds` recorded on top of a signature. -/
def record (σ : Signature) (ds : Program) : Signature where
  sorts := (Program.signature ds).sorts.reverse ++ σ.sorts
  names := (Program.signature ds).names.reverse ++ σ.names
  procs := (Program.signature ds).procs.reverse ++ σ.procs

theorem record_cons (σ : Signature) (d : Decl) (ds : Program) :
    σ.record (d :: ds) = (σ.record [d]).record ds := by
  show σ.record ([d] ++ ds) = _
  simp only [record, Program.signature, List.filterMap_append, List.reverse_append,
    List.append_assoc]

theorem Distinct.of_record {σ : Signature} {ds : Program} (h : (σ.record ds).Distinct) :
    σ.Distinct where
  sorts := h.sorts.sublist (List.sublist_append_right _ _)
  names := h.names.sublist ((List.sublist_append_right _ _).map _)
  procs := h.procs.sublist ((List.sublist_append_right _ _).map _)

theorem distinct_record_nil (ds : Program) :
    (record {} ds).Distinct ↔ (Program.signature ds).Distinct := by
  constructor
  all_goals
    rintro ⟨hs, hn, hp⟩
    refine ⟨?_, ?_, ?_⟩
    · simpa [record] using hs
    · simpa [record] using hn
    · simpa [record] using hp

theorem isSome_lookup_iff {β : Type} (l : List (String × β)) (x : String) :
    (l.lookup x).isSome = true ↔ x ∈ l.map (·.1) := by
  induction l with
  | nil => simp
  | cons b l ih =>
    rw [List.lookup_cons, List.map_cons, List.mem_cons, ← ih]
    cases hx : x == b.1 with
    | true => simp [beq_iff_eq.1 hx]
    | false => simp [beq_eq_false_iff_ne.1 hx]

theorem lookup_eq_some_iff {β : Type} {l : List (String × β)} (h : (l.map (·.1)).Nodup)
    (x : String) (b : β) : l.lookup x = some b ↔ (x, b) ∈ l := by
  induction l with
  | nil => simp
  | cons c l ih =>
    obtain ⟨hc, hl⟩ := List.nodup_cons.1 h
    rw [List.lookup_cons, List.mem_cons]
    cases hx : x == c.1 with
    | true =>
      obtain rfl := beq_iff_eq.1 hx
      have hmem : (c.1, b) ∉ l := fun hb => hc (List.mem_map.2 ⟨_, hb, rfl⟩)
      simp [hmem, Prod.ext_iff, eq_comm]
    | false => simp [ih hl, Prod.ext_iff, beq_eq_false_iff_ne.1 hx]

theorem addName_eq_ok_iff {σ σ' : Signature} (hσ : σ.Distinct) (x : String) (kind : NameKind) :
    σ.addName x kind = .ok σ' ↔
      ({ σ with names := (x, kind) :: σ.names } : Signature).Distinct ∧
        σ' = { σ with names := (x, kind) :: σ.names } := by
  unfold addName
  by_cases hx : (σ.names.lookup x).isSome = true
  · simp only [hx, if_true, reduceCtorEq, false_iff, not_and]
    intro hd
    exact absurd ((isSome_lookup_iff _ _).1 hx) (List.nodup_cons.1 hd.names).1
  · simp only [hx, Bool.false_eq_true, if_false, Except.ok.injEq, eq_comm (a := σ'),
      iff_and_self]
    intro _
    exact ⟨hσ.sorts, List.nodup_cons.2 ⟨fun hm => hx ((isSome_lookup_iff _ _).2 hm), hσ.names⟩,
      hσ.procs⟩

/-- A declaration is recorded unless it declares something again. -/
theorem add_eq_ok_iff {σ σ' : Signature} (hσ : σ.Distinct) (d : Decl) :
    σ.add d = .ok σ' ↔ (σ.record [d]).Distinct ∧ σ' = σ.record [d] := by
  cases d with
  | sort x =>
    show (if σ.sorts.contains x = true then _ else _) = _ ↔ _
    by_cases hx : x ∈ σ.sorts
    · simp only [List.contains_iff_mem.2 hx, if_true, reduceCtorEq, false_iff, not_and]
      intro hd
      exact absurd hx (List.nodup_cons.1 hd.sorts).1
    · simp only [List.contains_iff_mem, hx, if_false, Except.ok.injEq]
      refine ⟨fun h => ⟨⟨List.nodup_cons.2 ⟨hx, hσ.sorts⟩, hσ.names, hσ.procs⟩, h.symm⟩,
        fun h => h.2.symm⟩
  | const x _ => exact addName_eq_ok_iff hσ x .const
  | uniqueConst x _ => exact addName_eq_ok_iff hσ x .const
  | func x args _ => exact addName_eq_ok_iff hσ x (.func args.length)
  | var x _ => exact addName_eq_ok_iff hσ x .var
  | procedure p =>
    show (if (σ.procs.lookup p.name).isSome = true then _ else _) = _ ↔ _
    by_cases hp : (σ.procs.lookup p.name).isSome = true
    · simp only [hp, if_true, reduceCtorEq, false_iff, not_and]
      intro hd
      exact absurd ((isSome_lookup_iff _ _).1 hp) (List.nodup_cons.1 hd.procs).1
    · simp only [hp, Bool.false_eq_true, if_false, Except.ok.injEq]
      refine ⟨fun h => ⟨⟨hσ.sorts, hσ.names, List.nodup_cons.2
        ⟨fun hm => hp ((isSome_lookup_iff _ _).2 hm), hσ.procs⟩⟩, h.symm⟩, fun h => h.2.symm⟩
  | fact _ _ => exact ⟨fun h => ⟨hσ, (Except.ok.inj h).symm⟩, fun h => congrArg _ h.2.symm⟩
  | implementation _ => exact ⟨fun h => ⟨hσ, (Except.ok.inj h).symm⟩, fun h => congrArg _ h.2.symm⟩

theorem foldlM_add_eq_ok_iff {σ σ' : Signature} (hσ : σ.Distinct) (ds : Program) :
    ds.foldlM add σ = .ok σ' ↔ (σ.record ds).Distinct ∧ σ' = σ.record ds := by
  induction ds generalizing σ with
  | nil => exact ⟨fun h => ⟨hσ, (Except.ok.inj h).symm⟩, fun h => congrArg _ h.2.symm⟩
  | cons d ds ih =>
    rw [List.foldlM_cons, record_cons]
    constructor
    · intro h
      cases hτ : σ.add d with
      | error e => rw [hτ] at h; cases h
      | ok τ =>
        obtain ⟨hd, rfl⟩ := (add_eq_ok_iff hσ d).1 hτ
        rw [hτ] at h
        exact (ih hd).1 h
    · rintro ⟨hd, rfl⟩
      rw [(add_eq_ok_iff hσ d).2 ⟨hd.of_record, rfl⟩]
      exact (ih hd.of_record).2 ⟨hd, rfl⟩

/-- The signature of a program is built when nothing is declared twice. -/
theorem ofProgram_eq_ok_iff (ds : Program) (σ : Signature) :
    ofProgram ds = .ok σ ↔ (Program.signature ds).Distinct ∧ σ = record {} ds := by
  have hnil : ({} : Signature).Distinct := ⟨List.nodup_nil, List.nodup_nil, List.nodup_nil⟩
  rw [ofProgram, foldlM_add_eq_ok_iff hnil, distinct_record_nil]

theorem represents_record {ds : Program} (h : (Program.signature ds).Distinct) :
    (record {} ds).Represents (Program.signature ds) where
  sorts x := by simp [record]
  names x kind := by
    rw [lookup_eq_some_iff ((distinct_record_nil ds).2 h).names]
    simp [record]
  procs p counts := by
    rw [lookup_eq_some_iff ((distinct_record_nil ds).2 h).procs]
    simp [record]

end Signature

/-! ## Checks decide predicates of the names in scope -/

namespace CheckM

open ScopeMap

/-- The names that a scope holds are those of the list. -/
def Lists (Γ : List String) (m : Scope) : Prop := ∀ x, m.contains x = true ↔ x ∈ Γ

theorem Lists.of_same {Γ : List String} {m m' : Scope} (h : Lists Γ m) (hm : Same m' m) :
    Lists Γ m' := fun x => by rw [hm.contains, h x]

/-- Where the names of `Γ` are in scope, a check accepts exactly if `p` holds, and it leaves the
scope as it found it. -/
def Decides (σ : Signature) (Γ : List String) (x : CheckM Unit) (p : Prop) : Prop :=
  ∀ m, Lists Γ m → ((x σ m).1 = .ok () ↔ p) ∧ Same (x σ m).2 m

/-- Where the names of `Γ` are in scope, a check accepts exactly if `p` holds, and what it leaves
behind goes away when the innermost scope is closed. -/
def DecidesIn (σ : Signature) (outer : Scope) (Γ : List String) (x : CheckM Unit) (p : Prop) :
    Prop :=
  ∀ m, Lists Γ m → Reverts m outer → ((x σ m).1 = .ok () ↔ p) ∧ Reverts (x σ m).2 outer

variable {σ : Signature} {Γ : List String} {x y : CheckM Unit} {p q : Prop} {outer : Scope}

theorem Decides.congr (h : Decides σ Γ x p) (hpq : p ↔ q) : Decides σ Γ x q :=
  fun m hm => ⟨(h m hm).1.trans hpq, (h m hm).2⟩

/-- Only the run under the signature counts. -/
theorem Decides.of_run (h : Decides σ Γ x p) (hrun : ∀ m, y σ m = x σ m) : Decides σ Γ y p :=
  fun m hm => by rw [hrun m]; exact h m hm

theorem decides_lift {e : Except CheckError Unit} (h : e = .ok () ↔ p) : Decides σ Γ (lift e) p :=
  fun m _ => ⟨h, .refl m⟩

theorem decides_pure : Decides σ Γ (pure ()) True :=
  (decides_lift (e := .ok ()) (by simp)).of_run fun _ => rfl

theorem decides_refuse (e : CheckError) : Decides σ Γ (refuse e) False := decides_lift (by simp)

theorem decides_ite {c : Prop} [Decidable c] (ht : Decides σ Γ x p) (hf : Decides σ Γ y q) :
    Decides σ Γ (if c then x else y) (if c then p else q) := by
  by_cases hc : c
  · simpa only [hc, if_true] using ht
  · simpa only [hc, if_false] using hf

theorem bind_run (x : CheckM Unit) (f : Unit → CheckM Unit) (σ : Signature) (m : Scope) :
    (x >>= f) σ m = match x σ m with
      | (.ok (), m') => f () σ m'
      | (.error e, m') => (.error e, m') := by
  simp only [bind, ReaderT.bind, ExceptT.bind, ExceptT.mk, StateT.bind]
  rcases x σ m with ⟨_ | _, m'⟩ <;> rfl

theorem Decides.bind (hx : Decides σ Γ x p) (hy : Decides σ Γ y q) :
    Decides σ Γ (x >>= fun _ => y) (p ∧ q) := by
  intro m hm
  obtain ⟨hp, hsame⟩ := hx m hm
  rw [bind_run]
  rcases hres : x σ m with ⟨e | ⟨⟩, m'⟩ <;> rw [hres] at hp hsame
  · have hnp : ¬ p := fun h => nomatch hp.2 h
    exact ⟨by simp [hnp], hsame⟩
  · obtain ⟨hq, hsame'⟩ := hy m' (hm.of_same hsame)
    exact ⟨by simp [hq, hp.1 rfl], hsame'.trans hsame⟩

theorem Decides.bindIn (hx : Decides σ Γ x p) (hy : DecidesIn σ outer Γ y q) :
    DecidesIn σ outer Γ (x >>= fun _ => y) (p ∧ q) := by
  intro m hm hrev
  obtain ⟨hp, hsame⟩ := hx m hm
  rw [bind_run]
  rcases hres : x σ m with ⟨e | ⟨⟩, m'⟩ <;> rw [hres] at hp hsame
  · have hnp : ¬ p := fun h => nomatch hp.2 h
    exact ⟨by simp [hnp], hrev.of_same hsame⟩
  · obtain ⟨hq, hrev'⟩ := hy m' (hm.of_same hsame) (hrev.of_same hsame)
    exact ⟨by simp [hq, hp.1 rfl], hrev'⟩

theorem Decides.inside (hx : Decides σ Γ x p) : DecidesIn σ outer Γ x p := fun m hm hrev =>
  ⟨(hx m hm).1, hrev.of_same (hx m hm).2⟩

/-- Binding names in an open scope adds them to the names in scope. -/
theorem bind_foldl (xs : List String) {m : Scope} (hm : Lists Γ m) (hrev : Reverts m outer) :
    Lists (xs ++ Γ) (xs.foldl (fun m x => ((m.insert? x ()).map (·.2)).getD m) m) ∧
      Reverts (xs.foldl (fun m x => ((m.insert? x ()).map (·.2)).getD m) m) outer := by
  induction xs generalizing Γ m with
  | nil => exact ⟨hm, hrev⟩
  | cons x xs ih =>
    obtain ⟨m', hins, hget, hrev'⟩ := hrev.insert x ()
    rw [List.foldl_cons, hins]
    have hm' : Lists (x :: Γ) m' := by
      intro z
      rw [ScopeMap.contains, hget]
      by_cases hz : z = x
      · simp [hz]
      · rw [Function.update_of_ne hz, List.mem_cons, or_iff_right hz]
        exact hm z
    obtain ⟨hl, hr⟩ := ih hm' hrev'
    refine ⟨fun z => (hl z).trans ?_, hr⟩
    simp [or_left_comm]

theorem DecidesIn.bindNames {xs : List String} (hx : DecidesIn σ outer (xs ++ Γ) x p) :
    DecidesIn σ outer Γ (do bindNames xs; x) p := by
  intro m hm hrev
  obtain ⟨hl, hr⟩ := bind_foldl xs hm hrev
  exact hx _ hl hr

/-- A scope of its own is closed again. -/
theorem decides_inScope (hx : ∀ outer, DecidesIn σ outer Γ x p) : Decides σ Γ (inScope x) p := by
  intro m hm
  obtain ⟨hp, m', hleave, hsame⟩ := hx m m.enter hm (reverts_enter m)
  unfold inScope
  rcases hres : x σ m.enter with ⟨e, inner⟩
  rw [hres] at hp hleave
  exact ⟨hp, by simpa [hleave] using hsame⟩

theorem Decides.scoped {xs : List String} (hx : Decides σ (xs ++ Γ) x p) :
    Decides σ Γ (inScope do CheckM.bindNames xs; x) p :=
  decides_inScope fun _ => hx.inside.bindNames

theorem Decides.within (hx : Decides σ Γ x p) (context : CheckError → CheckError) :
    Decides σ Γ (within context x) p := by
  intro m hm
  obtain ⟨hp, hsame⟩ := hx m hm
  unfold CheckM.within
  rcases hres : x σ m with ⟨e | ⟨⟩, m'⟩ <;> rw [hres] at hp hsame
  · exact ⟨by simpa using hp, hsame⟩
  · exact ⟨by simpa using hp, hsame⟩

theorem decides_forM {α : Type} {f : α → CheckM Unit} {p : α → Prop} (as : List α)
    (h : ∀ a ∈ as, Decides σ Γ (f a) (p a)) : Decides σ Γ (as.forM f) (∀ a ∈ as, p a) := by
  induction as with
  | nil => exact decides_pure.congr (by simp)
  | cons a as ih =>
    have hrest := ih fun b hb => h b (List.mem_cons_of_mem _ hb)
    exact ((h a List.mem_cons_self).bind hrest).congr (by simp)

/-- Looking at the scope first. -/
theorem decides_isLocal {z : String} {f : Bool → CheckM Unit}
    (hx : ∀ m, x σ m = f (m.contains z) σ m)
    (ht : Decides σ Γ (f true) p) (hf : Decides σ Γ (f false) q) :
    Decides σ Γ x (if z ∈ Γ then p else q) := by
  intro m hm
  rw [hx]
  by_cases hz : z ∈ Γ
  · rw [(hm z).2 hz]
    simpa only [hz, if_true] using ht m hm
  · rw [Bool.eq_false_iff.2 fun h => hz ((hm z).1 h)]
    simpa only [hz, if_false] using hf m hm

end CheckM

section

variable {σ sig : Signature} {Γ : List String}

open CheckM

/-! ## Names and sorts -/

theorem checkSort_eq_ok_iff (hσ : σ.Represents sig) (s : Srt) :
    σ.checkSort s = .ok () ↔ sig.HasSort s := by
  cases s with
  | named x =>
    by_cases hx : x ∈ σ.sorts
    · simp [Signature.checkSort, Signature.HasSort, hx, (hσ.sorts x).1 hx]
    · simp [Signature.checkSort, Signature.HasSort, hx, mt (hσ.sorts x).2 hx]
  | bool => simp [Signature.checkSort, Signature.HasSort]
  | int => simp [Signature.checkSort, Signature.HasSort]
  | lambda => simp [Signature.checkSort, Signature.HasSort]

theorem forM_eq_ok_iff {α : Type} {f : α → Except CheckError Unit} (as : List α) :
    as.forM f = .ok () ↔ ∀ a ∈ as, f a = .ok () := by
  induction as with
  | nil => simp [List.forM, pure, Except.pure]
  | cons a as ih =>
    rw [List.forM, List.forall_mem_cons, ← ih]
    rcases f a with e | ⟨⟩ <;> simp [bind, Except.bind]

theorem checkSorts_decides (hσ : σ.Represents sig) {α : Type} (sort : α → Srt) (as : List α) :
    Decides σ Γ (lift (as.forM fun a => σ.checkSort (sort a))) (∀ a ∈ as, sig.HasSort (sort a)) :=
  decides_lift ((forM_eq_ok_iff as).trans (forall₂_congr fun a _ =>
    checkSort_eq_ok_iff hσ (sort a)))

theorem checkBinders_decides (hσ : σ.Represents sig) (bs : List Binder) :
    Decides σ Γ (checkBinders bs) (∀ b ∈ bs, sig.HasSort b.2) :=
  (checkSorts_decides hσ (·.2) bs).of_run fun _ => rfl

/-- Asking for a global variable. -/
theorem decides_global (hσ : σ.Represents sig) (x : String) (e : CheckError) :
    Decides σ Γ (if σ.names.lookup x == some .var then pure () else refuse e)
      ((x, .var) ∈ sig.names) := by
  refine (decides_ite decides_pure (decides_refuse e)).congr ?_
  simp [hσ.names]

theorem checkTarget_decides (hσ : σ.Represents sig) (x : String) :
    Decides σ Γ (checkTarget x) (sig.Assignable Γ x) := by
  refine (decides_isLocal (z := x) (f := fun b =>
    if b || σ.names.lookup x == some .var then pure () else refuse (.unknownTarget x))
    (fun _ => rfl) decides_pure (decides_global hσ x _)).congr ?_
  by_cases hx : x ∈ Γ <;> simp [Signature.Assignable, hx]

/-- How `checkVar` treats a name that is not in scope, given its kind if it has one. -/
def acceptGlobal (x : String) : Option NameKind → CheckM Unit
  | some .const | some .var => pure ()
  | some (.func n) => refuse (.functionAsVariable x n)
  | none => refuse (.unknownVariable x)

theorem checkVar_decides (hσ : σ.Represents sig) (x : String) :
    Decides σ Γ (checkVar x) ((Expr.var x).WellScoped sig Γ) := by
  have hglobal : Decides σ Γ (acceptGlobal x (σ.names.lookup x))
      ((x, .const) ∈ sig.names ∨ (x, .var) ∈ sig.names) := by
    simp only [← hσ.names]
    rcases σ.names.lookup x with _ | ⟨_ | n | _⟩
    · exact (decides_refuse _).congr (by simp)
    · exact decides_pure.congr (by simp)
    · exact (decides_refuse _).congr (by simp)
    · exact decides_pure.congr (by simp)
  refine (decides_isLocal (z := x) (f := fun b => if b then pure () else do
    acceptGlobal x ((← read).names.lookup x))
    (fun _ => rfl) decides_pure (hglobal.of_run fun _ => rfl)).congr ?_
  by_cases hx : x ∈ Γ <;> simp [hx]

/-! ## Expressions -/

/-- How an application is checked, given the kind of its function if it has one. -/
def acceptApp (f : String) (args : List Expr) : Option NameKind → CheckM Unit
  | some (.func n) =>
    if n == args.length then Expr.checkAll args else refuse (.applicationArity f n args.length)
  | _ => refuse (.unknownFunction f)

/-- An application needs a function of its arity beside well-scoped arguments. -/
theorem app_check_decides (hσ : σ.Represents sig) (f : String) (args : List Expr)
    (hargs : Decides σ Γ (Expr.checkAll args) (∀ a ∈ args, a.WellScoped sig Γ)) :
    Decides σ Γ (Expr.app f args).check
      ((f, .func args.length) ∈ sig.names ∧ ∀ a ∈ args, a.WellScoped sig Γ) := by
  have h : Decides σ Γ (acceptApp f args (σ.names.lookup f))
      ((f, .func args.length) ∈ sig.names ∧ ∀ a ∈ args, a.WellScoped sig Γ) := by
    simp only [← hσ.names]
    rcases σ.names.lookup f with _ | ⟨_ | n | _⟩
    · exact (decides_refuse _).congr (by simp)
    · exact (decides_refuse _).congr (by simp)
    · refine (decides_ite hargs (decides_refuse _)).congr ?_
      by_cases hn : n = args.length <;> simp [hn]
    · exact (decides_refuse _).congr (by simp)
  exact h.of_run fun m => by rw [Expr.check]; rfl

theorem applyLambda_check_decides (hσ : σ.Represents sig) (result : Srt) (f : Expr)
    (args : List Expr) (hf : Decides σ Γ f.check (f.WellScoped sig Γ))
    (hargs : Decides σ Γ (Expr.checkAll args) (∀ a ∈ args, a.WellScoped sig Γ)) :
    Decides σ Γ (Expr.applyLambda result f args).check
      (sig.HasSort result ∧ f.WellScoped sig Γ ∧ ∀ a ∈ args, a.WellScoped sig Γ) := by
  have hsort : Decides σ Γ (lift (σ.checkSort result)) (sig.HasSort result) :=
    decides_lift (checkSort_eq_ok_iff hσ result)
  exact (hsort.bind (hf.bind hargs)).of_run fun m => by rw [Expr.check]; rfl

mutual

/-- The check of an expression decides whether it is well scoped. -/
theorem Expr.check_decides (hσ : σ.Represents sig) {Γ : List String} : ∀ e : Expr,
    Decides σ Γ e.check (e.WellScoped sig Γ)
  | .bool _ => by
    simpa only [Expr.check, wellScoped_bool] using decides_pure
  | .num _ => by
    simpa only [Expr.check, wellScoped_num] using decides_pure
  | .var x => by
    rw [Expr.check]
    exact checkVar_decides hσ x
  | .old x => by
    rw [wellScoped_old]
    exact (decides_global hσ x _).of_run fun m => by rw [Expr.check]; rfl
  | .app f args => by
    rw [wellScoped_app]
    exact app_check_decides hσ f args (Expr.checkAll_decides hσ args)
  | .applyLambda result f args => by
    rw [wellScoped_applyLambda]
    exact applyLambda_check_decides hσ result f args (Expr.check_decides hσ f)
      (Expr.checkAll_decides hσ args)
  | .not e => by
    rw [Expr.check, wellScoped_not]
    exact Expr.check_decides hσ e
  | .binary op a b => by
    rw [Expr.check, wellScoped_binary]
    exact (Expr.check_decides hσ a).bind (Expr.check_decides hσ b)
  | .multi op es => by
    rw [Expr.check, wellScoped_multi]
    exact Expr.checkAll_decides hσ es
  | .ite c a b => by
    rw [Expr.check, wellScoped_ite]
    exact (Expr.check_decides hσ c).bind ((Expr.check_decides hσ a).bind (Expr.check_decides hσ b))
  | .letIn bindings body => by
    rw [Expr.check, wellScoped_letIn]
    exact (Expr.checkBindings_decides hσ bindings).bind (Expr.check_decides hσ body).scoped
  | .quant q binders triggers body => by
    rw [Expr.check, wellScoped_quant]
    exact (checkBinders_decides hσ binders).bind
      ((Expr.checkTriggers_decides hσ triggers).bind (Expr.check_decides hσ body)).scoped
  | .lambda binders body => by
    rw [Expr.check, wellScoped_lambda]
    exact (checkBinders_decides hσ binders).bind (Expr.check_decides hσ body).scoped

theorem Expr.checkAll_decides (hσ : σ.Represents sig) {Γ : List String} : ∀ es : List Expr,
    Decides σ Γ (Expr.checkAll es) (∀ e ∈ es, e.WellScoped sig Γ)
  | [] => by
    rw [Expr.checkAll]
    exact decides_pure.congr (by simp)
  | e :: es => by
    rw [Expr.checkAll, List.forall_mem_cons]
    exact (Expr.check_decides hσ e).bind (Expr.checkAll_decides hσ es)

theorem Expr.checkBindings_decides (hσ : σ.Represents sig) {Γ : List String} :
    ∀ bs : List (String × Expr),
      Decides σ Γ (Expr.checkBindings bs) (∀ b ∈ bs, b.2.WellScoped sig Γ)
  | [] => by
    rw [Expr.checkBindings]
    exact decides_pure.congr (by simp)
  | (_, e) :: bs => by
    rw [Expr.checkBindings, List.forall_mem_cons]
    exact (Expr.check_decides hσ e).bind (Expr.checkBindings_decides hσ bs)

theorem Expr.checkTriggers_decides (hσ : σ.Represents sig) {Γ : List String} :
    ∀ ts : List (List Expr),
      Decides σ Γ (Expr.checkTriggers ts) (∀ t ∈ ts, ∀ e ∈ t, e.WellScoped sig Γ)
  | [] => by
    rw [Expr.checkTriggers]
    exact decides_pure.congr (by simp)
  | t :: ts => by
    rw [Expr.checkTriggers, List.forall_mem_cons]
    exact (Expr.checkAll_decides hσ t).bind (Expr.checkTriggers_decides hσ ts)

end

/-! ## Statements -/

theorem checkGuard_decides (hσ : σ.Represents sig) (guard : Option Expr) :
    Decides σ Γ (Expr.checkGuard guard) (∀ e ∈ guard, e.WellScoped sig Γ) := by
  cases guard with
  | none => exact decides_pure.congr (by simp)
  | some e => exact (Expr.check_decides hσ e).congr (by simp)

theorem clauses_check_decides (hσ : σ.Represents sig) (cs : List Clause) :
    Decides σ Γ (Clause.checkAll cs) (∀ c ∈ cs, c.expr.WellScoped sig Γ) :=
  (Expr.checkAll_decides hσ (cs.map (·.expr))).congr List.forall_mem_map

/-- How a call is checked, given the numbers of inputs and outputs of its procedure if it has
one. -/
def acceptCall (p : String) (args : List Expr) (outs : List String) :
    Option (Nat × Nat) → CheckM Unit
  | some (n, m) =>
    if n == args.length && m == outs.length then do
      Expr.checkAll args
      outs.forM checkTarget
    else refuse (.callArity p n m args.length outs.length)
  | none => refuse (.unknownProcedure p)

/-- A call needs a procedure of its counts beside well-scoped arguments and targets. -/
theorem call_check_decides (hσ : σ.Represents sig) (labels : List String) (p : String)
    (args : List Expr) (outs : List String) :
    Decides σ Γ (Stmt.check labels (.call p args outs))
      ((p, args.length, outs.length) ∈ sig.procs ∧ (∀ a ∈ args, a.WellScoped sig Γ) ∧
        ∀ x ∈ outs, sig.Assignable Γ x) := by
  have hparts := (Expr.checkAll_decides hσ args).bind
    (decides_forM outs fun x _ => checkTarget_decides (Γ := Γ) hσ x)
  have h : Decides σ Γ (acceptCall p args outs (σ.procs.lookup p))
      ((p, args.length, outs.length) ∈ sig.procs ∧ (∀ a ∈ args, a.WellScoped sig Γ) ∧
        ∀ x ∈ outs, sig.Assignable Γ x) := by
    simp only [← hσ.procs]
    rcases σ.procs.lookup p with _ | ⟨n, m⟩
    · exact (decides_refuse _).congr (by simp)
    · refine (decides_ite hparts (decides_refuse _)).congr ?_
      by_cases hn : n = args.length ∧ m = outs.length <;> simp [hn]
  exact h.of_run fun m => by rw [Stmt.check]; rfl

/-- The labels that the checker keeps: those of the blocks around a statement, and `loopLabel` if
a loop encloses it. -/
def Tracks (kept : List String) (inLoop : Bool) (labels : List String) : Prop :=
  ∀ l, l ∈ kept ↔ if l = loopLabel then inLoop = true else l ∈ labels

theorem Tracks.loop {kept labels : List String} {inLoop : Bool} (h : Tracks kept inLoop labels) :
    Tracks (loopLabel :: kept) true labels := by
  intro l
  rw [List.mem_cons, h l]
  by_cases hl : l = loopLabel <;> simp [hl]

theorem Tracks.block {kept labels : List String} {inLoop : Bool} (h : Tracks kept inLoop labels)
    {label : Option String} (hlabel : loopLabel ∉ label) :
    Tracks (label.toList ++ kept) inLoop (label.toList ++ labels) := by
  intro l
  rw [List.mem_append, h l, List.mem_append]
  by_cases hl : l = loopLabel
  · subst hl
    simpa using fun h : label = some loopLabel => absurd h hlabel
  · simp [hl]

mutual

/-- The labels of the blocks and exits in a statement. -/
def Stmt.labels : Stmt → List String
  | .leave label => label.toList
  | .block label body => label.toList ++ Stmt.labelsAll body
  | .ifElse _ thn els => Stmt.labelsAll thn ++ Stmt.labelsAll els
  | .loop _ _ body => Stmt.labelsAll body
  | .assume _ | .assert .. | .havoc _ | .assign .. | .call .. | .ret => []

/-- The labels of the blocks and exits in statements. -/
def Stmt.labelsAll : List Stmt → List String
  | [] => []
  | s :: ss => s.labels ++ Stmt.labelsAll ss

end

mutual

/-- The check of a statement decides whether it is well scoped, where no block and no exit has the
label that stands for loops. -/
theorem Stmt.check_decides (hσ : σ.Represents sig) {kept labels : List String} {inLoop : Bool}
    (hkept : Tracks kept inLoop labels) : ∀ s : Stmt, loopLabel ∉ s.labels →
      Decides σ Γ (s.check kept) (s.WellScoped sig Γ inLoop labels)
  | .assume e, _ => by
    rw [Stmt.check, wellScoped_assume]
    exact Expr.check_decides hσ e
  | .assert _ e, _ => by
    rw [Stmt.check, wellScoped_assert]
    exact Expr.check_decides hσ e
  | .havoc x, _ => by
    rw [Stmt.check, wellScoped_havoc]
    exact checkTarget_decides hσ x
  | .assign x e, _ => by
    rw [Stmt.check, wellScoped_assign]
    exact (checkTarget_decides hσ x).bind (Expr.check_decides hσ e)
  | .call p args outs, _ => by
    rw [wellScoped_call]
    exact call_check_decides hσ kept p args outs
  | .ifElse guard thn els, hl => by
    rw [Stmt.labels, List.mem_append, not_or] at hl
    rw [Stmt.check, wellScoped_ifElse]
    exact (checkGuard_decides hσ guard).bind
      ((Stmt.checkAll_decides hσ hkept thn hl.1).bind (Stmt.checkAll_decides hσ hkept els hl.2))
  | .loop guard invariants body, hl => by
    rw [Stmt.labels] at hl
    rw [Stmt.check, wellScoped_loop]
    exact (checkGuard_decides hσ guard).bind
      ((clauses_check_decides hσ invariants).bind (Stmt.checkAll_decides hσ hkept.loop body hl))
  | .leave none, _ => by
    rw [Stmt.check, wellScoped_leave_none]
    refine (decides_ite decides_pure (decides_refuse _)).congr ?_
    simp [hkept loopLabel]
  | .leave (some label), hl => by
    have hne : label ≠ loopLabel := fun h => hl (by simp [Stmt.labels, h])
    rw [Stmt.check, wellScoped_leave_some]
    refine (decides_ite decides_pure (decides_refuse _)).congr ?_
    simp [hkept label, hne]
  | .block label body, hl => by
    rw [Stmt.labels, List.mem_append, not_or, Option.mem_toList] at hl
    rw [Stmt.check, wellScoped_block]
    exact Stmt.checkAll_decides hσ (hkept.block hl.1) body hl.2
  | .ret, _ => by
    rw [Stmt.check]
    exact decides_pure.congr (by simp)

theorem Stmt.checkAll_decides (hσ : σ.Represents sig) {kept labels : List String} {inLoop : Bool}
    (hkept : Tracks kept inLoop labels) : ∀ ss : List Stmt, loopLabel ∉ Stmt.labelsAll ss →
      Decides σ Γ (Stmt.checkAll kept ss) (∀ s ∈ ss, s.WellScoped sig Γ inLoop labels)
  | [], _ => by
    rw [Stmt.checkAll]
    exact decides_pure.congr (by simp)
  | s :: ss, hl => by
    rw [Stmt.labelsAll, List.mem_append, not_or] at hl
    rw [Stmt.checkAll, List.forall_mem_cons]
    exact (Stmt.check_decides hσ hkept s hl.1).bind (Stmt.checkAll_decides hσ hkept ss hl.2)

end

/-! ## Declarations -/

/-- The scope of a contract grows from the parameters to the results. -/
theorem contract_check_decides (hσ : σ.Represents sig) (p : Procedure) :
    Decides σ [] (inScope do
      bindNames (p.params.map (·.1))
      Clause.checkAll p.requires
      bindNames (p.outs.map (·.1))
      Clause.checkAll p.ensures)
      ((∀ c ∈ p.requires, c.expr.WellScoped sig (p.params.map (·.1))) ∧
        ∀ c ∈ p.ensures, c.expr.WellScoped sig (p.outs.map (·.1) ++ p.params.map (·.1))) := by
  refine decides_inScope fun outer => DecidesIn.bindNames ?_
  rw [List.append_nil]
  exact (clauses_check_decides hσ p.requires).bindIn
    (clauses_check_decides hσ p.ensures).inside.bindNames

theorem Procedure.check_decides (hσ : σ.Represents sig) (p : Procedure) :
    Decides σ [] p.check (p.WellScoped sig) := by
  have hmodifies : Decides σ [] (p.modifies.forM fun x => do
      unless (← read).names.lookup x == some .var do refuse (.modifiesNonVariable p.name x))
      (∀ x ∈ p.modifies, (x, .var) ∈ sig.names) :=
    decides_forM p.modifies fun x _ => (decides_global hσ x _).of_run fun _ => rfl
  refine ((checkBinders_decides hσ p.params).bind ((checkBinders_decides hσ p.outs).bind
    (hmodifies.bind ((contract_check_decides hσ p).within (.inProcedure p.name))))).congr ?_
  constructor
  · rintro ⟨hparams, houts, hmod, hreq, hens⟩
    exact ⟨List.forall_mem_append.2 ⟨hparams, houts⟩, hmod, hreq, hens⟩
  · rintro ⟨hsorts, hmod, hreq, hens⟩
    obtain ⟨hparams, houts⟩ := List.forall_mem_append.1 hsorts
    exact ⟨hparams, houts, hmod, hreq, hens⟩

theorem firstRepeated?_eq_none_iff (seen xs : List String) :
    firstRepeated? seen xs = none ↔ xs.Nodup ∧ ∀ x ∈ xs, x ∉ seen := by
  induction xs generalizing seen with
  | nil => simp [firstRepeated?]
  | cons x xs ih =>
    rw [firstRepeated?]
    by_cases hx : x ∈ seen
    · simp [hx]
    · simp only [List.contains_iff_mem, hx, if_false, ih, List.nodup_cons]
      constructor
      · rintro ⟨hnodup, hseen⟩
        have hxs : x ∉ xs := fun hm => hseen x hm List.mem_cons_self
        exact ⟨⟨hxs, hnodup⟩, List.forall_mem_cons.2 ⟨hx, fun y hy hys =>
          hseen y hy (List.mem_cons_of_mem _ hys)⟩⟩
      · rintro ⟨⟨hxs, hnodup⟩, hseen⟩
        refine ⟨hnodup, fun y hy hys => ?_⟩
        rcases List.mem_cons.1 hys with rfl | hys
        · exact hxs hy
        · exact hseen y (List.mem_cons_of_mem _ hy) hys

/-- The variables of a body are bound together if they are distinct. -/
theorem body_check_decides (hσ : σ.Represents sig) (i : Implementation)
    (hlabel : loopLabel ∉ Stmt.labelsAll i.body) :
    Decides σ [] (match firstRepeated? [] (i.variables.map (·.1)) with
      | some x => refuse (.duplicateLocal x)
      | none => inScope do
        bindNames (i.variables.map (·.1))
        Stmt.checkAll [] i.body)
      ((i.variables.map (·.1)).Nodup ∧
        ∀ s ∈ i.body, s.WellScoped sig (i.variables.map (·.1)) false []) := by
  have hnodup := firstRepeated?_eq_none_iff [] (i.variables.map (·.1))
  cases hrep : firstRepeated? [] (i.variables.map (·.1)) with
  | none =>
    have htracks : Tracks [] false [] := fun l => by simp
    refine Decides.scoped ?_
    rw [List.append_nil, and_iff_right (hnodup.1 hrep).1]
    exact Stmt.checkAll_decides hσ htracks i.body hlabel
  | some x =>
    have hdup : ¬ (i.variables.map (·.1)).Nodup := fun h => by
      rw [hrep] at hnodup
      cases hnodup.2 ⟨h, fun _ _ => List.not_mem_nil⟩
    exact (decides_refuse _).congr (by simp [hdup])

/-- The check of a body decides all rules but the one for the sorts of its parameters and
results. -/
theorem Implementation.check_decides (hσ : σ.Represents sig) (i : Implementation)
    (hlabel : loopLabel ∉ Stmt.labelsAll i.body) :
    Decides σ [] i.check ((i.name, i.params.length, i.outs.length) ∈ sig.procs ∧
      (∀ b ∈ i.locals, sig.HasSort b.2) ∧ (i.variables.map (·.1)).Nodup ∧
        ∀ s ∈ i.body, s.WellScoped sig (i.variables.map (·.1)) false []) := by
  have hrest := (checkBinders_decides hσ i.locals).bind
    ((body_check_decides hσ i hlabel).within (.inImplementation i.name))
  have h : Decides σ []
      (if σ.procs.lookup i.name != some (i.params.length, i.outs.length) then
        refuse (.unmatchedImplementation i.name) >>= fun _ => _ else _) _ :=
    decides_ite ((decides_refuse _).bind hrest) hrest
  refine (h.of_run fun _ => rfl).congr ?_
  rw [← hσ.procs]
  by_cases hp : σ.procs.lookup i.name = some (i.params.length, i.outs.length) <;> simp [hp]

/-- The check of a declaration decides its rules, given that the sorts of an implementation's
parameters and results are declared. -/
theorem Decl.check_decides (hσ : σ.Represents sig) (d : Decl)
    (hlabel : ∀ i, d = .implementation i → loopLabel ∉ Stmt.labelsAll i.body)
    (hsorts : ∀ i, d = .implementation i → ∀ b ∈ i.params ++ i.outs, sig.HasSort b.2) :
    Decides σ [] d.check (d.WellScoped sig) := by
  have hsort := fun s => decides_lift (σ := σ) (Γ := []) (checkSort_eq_ok_iff hσ s)
  cases d with
  | sort x => exact decides_pure
  | const x s => exact (hsort s).of_run fun _ => rfl
  | uniqueConst x s => exact (hsort s).of_run fun _ => rfl
  | var x s => exact (hsort s).of_run fun _ => rfl
  | func x args result =>
    refine (((checkSorts_decides hσ id args).bind (hsort result)).of_run fun _ => rfl).congr ?_
    rw [Decl.WellScoped, List.forall_mem_cons, and_comm]
    rfl
  | fact name e => exact Expr.check_decides hσ e
  | procedure p => exact p.check_decides hσ
  | implementation i =>
    refine (i.check_decides hσ (hlabel i rfl)).congr ⟨?_, ?_⟩
    · rintro ⟨hdecl, hlocals, hnodup, hbody⟩
      exact ⟨hdecl, List.forall_mem_append.2 ⟨hsorts i rfl, hlocals⟩, hnodup, hbody⟩
    · rintro ⟨hdecl, hvars, hnodup, hbody⟩
      exact ⟨hdecl, (List.forall_mem_append.1 hvars).2, hnodup, hbody⟩

end

/-! ## Programs -/

theorem check_of_distinct {ds : Program} (h : (Program.signature ds).Distinct) :
    check ds = (Decl.checkAll ds (Signature.record {} ds) .empty).1 := by
  rw [check, (Signature.ofProgram_eq_ok_iff ds _).2 ⟨h, rfl⟩]
  rfl

theorem distinct_of_check {ds : Program} (h : check ds = .ok ()) :
    (Program.signature ds).Distinct := by
  rw [check] at h
  cases hsig : Signature.ofProgram ds with
  | error e => rw [hsig] at h; cases h
  | ok σ => exact ((Signature.ofProgram_eq_ok_iff ds σ).1 hsig).1

/-- The check accepts the well-formed programs, and only these once the sorts of implementation
parameters and results are declared. No block or exit may have the label that the check uses for
loops. -/
theorem wellFormed_iff_check {ds : Program}
    (hlabel : ∀ i, .implementation i ∈ ds → loopLabel ∉ Stmt.labelsAll i.body) :
    Program.WellFormed ds ↔ check ds = .ok () ∧ ∀ i, .implementation i ∈ ds →
      ∀ b ∈ i.params ++ i.outs, (Program.signature ds).HasSort b.2 := by
  have hdecides : ∀ (_ : (Program.signature ds).Distinct) (_ : ∀ i, .implementation i ∈ ds →
      ∀ b ∈ i.params ++ i.outs, (Program.signature ds).HasSort b.2),
      check ds = .ok () ↔ ∀ d ∈ ds, d.WellScoped (Program.signature ds) := by
    intro hdistinct hsorts
    rw [check_of_distinct hdistinct]
    have hempty : CheckM.Lists [] ScopeMap.empty := fun x => by
      simp [ScopeMap.contains, ScopeMap.get?, ScopeMap.empty]
    refine (CheckM.decides_forM ds (fun d hd => ?_) ScopeMap.empty hempty).1
    exact d.check_decides (Signature.represents_record hdistinct)
      (fun i hi => hlabel i (hi ▸ hd)) fun i hi => hsorts i (hi ▸ hd)
  constructor
  · rintro ⟨hdistinct, hdecls⟩
    have hsorts : ∀ i, .implementation i ∈ ds → ∀ b ∈ i.params ++ i.outs,
        (Program.signature ds).HasSort b.2 := fun i hi =>
      (List.forall_mem_append.1 (hdecls _ hi).sorts).1
    exact ⟨(hdecides hdistinct hsorts).2 hdecls, hsorts⟩
  · rintro ⟨hcheck, hsorts⟩
    have hdistinct := distinct_of_check hcheck
    exact ⟨hdistinct, (hdecides hdistinct hsorts).1 hcheck⟩

/-- A procedure that counts down in a loop which it leaves from a labelled block. -/
def countdown : Program :=
  [.sort "S", .var "last" (.named "S"), .func "at" [.int] (.named "S"),
    .procedure
      { name := "down", params := [("n", .int)], outs := [("r", .int)]
        requires := [.assumed (.binary .le (.num "0") (.var "n"))], modifies := ["last"]
        ensures := [.assumed (.binary .le (.var "r") (.var "n"))] },
    .implementation
      { name := "down", params := [("n", .int)], outs := [("r", .int)], locals := []
        body := [.assign "r" (.var "n"), .block (some "done")
          [.loop none [.assumed (.binary .le (.var "r") (.var "n"))]
            [.ifElse (some (.binary .eq (.var "r") (.num "0"))) [.leave (some "done")] [],
              .assign "last" (.app "at" [.var "r"]),
              .assign "r" (.multi .sub [.var "r", .num "1"])]]] }]

theorem countdown_wellFormed :
    (∀ i, .implementation i ∈ countdown → loopLabel ∉ Stmt.labelsAll i.body) ∧
      Program.WellFormed countdown := by
  have himpl : ∀ i, Decl.implementation i ∈ countdown →
      loopLabel ∉ Stmt.labelsAll i.body ∧ i.params ++ i.outs = [("n", .int), ("r", .int)] := by
    intro i hi
    simp only [countdown, List.mem_cons, reduceCtorEq, Decl.implementation.injEq, List.not_mem_nil,
      false_or, or_false] at hi
    subst hi
    exact ⟨by decide, rfl⟩
  refine ⟨fun i hi => (himpl i hi).1, (wellFormed_iff_check fun i hi => (himpl i hi).1).2
    ⟨by decide +kernel, fun i hi b hb => ?_⟩⟩
  rw [(himpl i hi).2] at hb
  intro x hx
  simp only [List.mem_cons, List.not_mem_nil, or_false] at hb
  rcases hb with rfl | rfl <;> cases hx

/-- A body whose parameter has a sort that is declared nowhere passes the check. -/
theorem check_accepts_undeclared_sort :
    let ds : Program := [
      .procedure ⟨"p", [("x", .int)], [], [], [], []⟩,
      .implementation ⟨"p", [("x", .named "S")], [], [], []⟩]
    check ds = .ok () ∧ ¬ Program.WellFormed ds := by
  refine ⟨by decide +kernel, fun h => ?_⟩
  have hbody := h.decls _ (List.mem_cons_of_mem _ List.mem_cons_self)
  exact absurd (hbody.sorts ("x", .named "S") (by simp [Implementation.variables]) "S" rfl)
    List.not_mem_nil

end ContractLowering.IL
