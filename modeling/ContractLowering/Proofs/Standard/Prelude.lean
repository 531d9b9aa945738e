import ContractLowering.Proofs.Prelude.Facts
import ContractLowering.Proofs.Standard.Facts

/-!
# The prelude in the standard model

The text of the standard prelude is read as sorts, constants and functions that the standard model
knows and as the facts listed, apart from triggers (`declared_standard`). So a model satisfies the
prelude when the facts listed hold (`ofPrelude_iff`). The names declared are `standardKinds`, among
which are all that are required (`load_standard`).
-/

namespace ContractLowering.Standard

open IL Prelude

/-! ## Expressions with other triggers -/

mutual

/-- Whether two expressions without lambdas and lets are the same apart from triggers. -/
def same : Expr → Expr → Bool
  | .bool a, .bool b => a == b
  | .num a, .num b => a == b
  | .var x, .var y => x == y
  | .app f as, .app g bs => f == g && sameList as bs
  | .applyLambda s f as, .applyLambda t g bs => s == t && same f g && sameList as bs
  | .not a, .not b => same a b
  | .binary op a b, .binary op' a' b' => op == op' && same a a' && same b b'
  | .multi op as, .multi op' bs => op == op' && sameList as bs
  | .ite c a b, .ite c' a' b' => same c c' && same a a' && same b b'
  | .quant q bs _ e, .quant q' bs' _ e' => q == q' && bs == bs' && same e e'
  | _, _ => false
termination_by structural a => a

/-- Whether the expressions of two lists are the same apart from triggers. -/
def sameList : List Expr → List Expr → Bool
  | [], [] => true
  | a :: as, b :: bs => same a b && sameList as bs
  | _, _ => false
termination_by structural as => as

end

mutual

theorem erase_eq_of_same : ∀ a b : Expr, same a b = true → a.erase = b.erase
  | .bool a, .bool b, h | .num a, .num b, h | .var a, .var b, h => by
    simp_all [same, Expr.erase]
  | .app f as, .app g bs, h => by
    simp only [same, Bool.and_eq_true, beq_iff_eq] at h
    simp [h.1, eraseList_eq_of_same as bs h.2]
  | .applyLambda s f as, .applyLambda t g bs, h => by
    simp only [same, Bool.and_eq_true, beq_iff_eq] at h
    simp [h.1.1, erase_eq_of_same f g h.1.2, eraseList_eq_of_same as bs h.2]
  | .not a, .not b, h => by
    simp [erase_eq_of_same a b (by simpa [same] using h)]
  | .binary op a b, .binary op' a' b', h => by
    simp only [same, Bool.and_eq_true, beq_iff_eq] at h
    simp [h.1.1, erase_eq_of_same a a' h.1.2, erase_eq_of_same b b' h.2]
  | .multi op as, .multi op' bs, h => by
    simp only [same, Bool.and_eq_true, beq_iff_eq] at h
    simp [h.1, eraseList_eq_of_same as bs h.2]
  | .ite c a b, .ite c' a' b', h => by
    simp only [same, Bool.and_eq_true] at h
    simp [erase_eq_of_same c c' h.1.1, erase_eq_of_same a a' h.1.2, erase_eq_of_same b b' h.2]
  | .quant q bs _ e, .quant q' bs' _ e', h => by
    simp only [same, Bool.and_eq_true, beq_iff_eq] at h
    simp [h.1.1, h.1.2, erase_eq_of_same e e' h.2]

theorem eraseList_eq_of_same : ∀ as bs : List Expr, sameList as bs = true →
    as.map Expr.erase = bs.map Expr.erase
  | [], [], _ => rfl
  | a :: as, b :: bs, h => by
    simp only [sameList, Bool.and_eq_true] at h
    simp [erase_eq_of_same a b h.1, eraseList_eq_of_same as bs h.2]

end

/-! ## Declarations -/

/-- The sorts of the prelude. -/
def sorts : List String :=
  ["Heap", "Ref", "Box", "Field", "ClassName", "DatatypeType", "DtCtorId", "Set", "MultiSet", "Seq",
   "Map"]

/-- The constants and variables of the prelude with their sorts. -/
def constants : List (String × Srt) :=
  [(heapName, heapSort), ("null", refSort), ("alloc", fieldSort), ("Set.Empty", setSort),
   ("MultiSet.Empty", multisetSort), ("Seq.Empty", seqSort), ("Map.Empty", mapSort)]

/-- Whether a declaration is one of the prelude, if it is no fact. -/
def isKnown : Decl → Bool
  | .sort x => sorts.contains x
  | .const x s | .uniqueConst x s | .var x s => constants.contains (x, s)
  | .func x _ s => (Op.ofName? x).map Op.result == some s
  | .fact none _ => true
  | .fact (some _) _ | .procedure _ | .implementation _ => false

/-- What a fact without a name states. -/
def factOf? : Decl → Option Expr
  | .fact none e => some e
  | _ => none

/-- Declarations that are known, give names their kinds and state some facts. -/
structure Declare (ds : List Decl) (kinds : List (String × Kind)) (facts : List Expr) : Prop where
  known : ∀ d ∈ ds, isKnown d = true
  kinds : ds.filterMap kindOf? = kinds
  facts : (ds.filterMap factOf?).map Expr.erase = facts.map Expr.erase

theorem Declare.append {ds ds' : List Decl} {ks ks' : List (String × Kind)} {es es' : List Expr}
    (h : Declare ds ks es) (h' : Declare ds' ks' es') :
    Declare (ds ++ ds') (ks ++ ks') (es ++ es') where
  known d hd := (List.mem_append.1 hd).elim (h.known d) (h'.known d)
  kinds := by rw [List.filterMap_append, h.kinds, h'.kinds]
  facts := by rw [List.filterMap_append, List.map_append, List.map_append, h.facts, h'.facts]

/-- That a text is read as such declarations. -/
def Declared (text : String) (kinds : List (String × Kind)) (facts : List Expr) : Prop :=
  ∃ ts ds, SExpr.Reads text ts ∧ Decl.ofSExprs ts = .ok ds ∧ Declare ds kinds facts

/-- Whether a text is read as such declarations. -/
def scanDeclared (cs : List Char) (kinds : List (String × Kind)) (facts : List Expr) : Bool :=
  match SExpr.scanText cs with
  | none => false
  | some ts => match Decl.ofSExprs ts with
    | .error _ => false
    | .ok ds => ds.all isKnown && ds.filterMap kindOf? == kinds &&
      sameList (ds.filterMap factOf?) facts

theorem Declared.of_scan {text : String} {kinds : List (String × Kind)} {facts : List Expr}
    (h : ∃ cs, text = String.ofList cs ∧ scanDeclared cs kinds facts = true) :
    Declared text kinds facts := by
  obtain ⟨cs, htext, h⟩ := h
  unfold scanDeclared at h
  split at h
  · cases h
  · rename_i ts hscan
    split at h
    · cases h
    · rename_i ds hds
      rw [Bool.and_eq_true, Bool.and_eq_true, List.all_eq_true, beq_iff_eq] at h
      exact ⟨ts, ds, .of_scan htext hscan, hds, h.1.1, h.1.2, eraseList_eq_of_same _ _ h.2⟩

theorem Declared.append {text text' : String} {kinds kinds' : List (String × Kind)}
    {facts facts' : List Expr} (h : Declared text kinds facts)
    (h' : Declared text' kinds' facts') :
    Declared (text ++ text') (kinds ++ kinds') (facts ++ facts') := by
  obtain ⟨ts, ds, hreads, hds, hdeclare⟩ := h
  obtain ⟨ts', ds', hreads', hds', hdeclare'⟩ := h'
  refine ⟨ts ++ ts', ds ++ ds', hreads.append hreads', ?_, hdeclare.append hdeclare'⟩
  rw [Decl.ofSExprs] at hds hds' ⊢
  rw [List.mapM_append, hds, hds']
  rfl

/-- The kinds of functions. -/
def functionKinds (fs : List Prelude.Signature) : List (String × Kind) :=
  fs.map fun f => (f.1, .func f.2.1.length)

/-- The names that the prelude declares, with their kinds. -/
def standardKinds : List (String × Kind) :=
  (sorts.map (·, .sort) ++ [(heapName, .var), ("null", .const), ("alloc", .const)])
  ++ functionKinds heapFunctions ++ functionKinds boxFunctions ++ functionKinds isBoxFunctions ++ []
  ++ functionKinds datatypeFunctions
  ++ (("Set.Empty", .const) :: functionKinds setFunctions)
  ++ (("MultiSet.Empty", .const) :: functionKinds multisetFunctions)
  ++ (("Seq.Empty", .const) :: functionKinds seqFunctions)
  ++ (("Map.Empty", .const) :: functionKinds mapFunctions)

set_option maxRecDepth 100000 in
/-- The standard prelude states the facts listed. -/
theorem declared_standard : Declared standardText standardKinds facts := by
  have hsort : Declared sortText
      (sorts.map (·, .sort) ++ [(heapName, .var), ("null", .const), ("alloc", .const)]) [] :=
    .of_scan ⟨_, rfl, by decide +kernel⟩
  have hheap : Declared heapText (functionKinds heapFunctions) [] :=
    .of_scan ⟨_, rfl, by decide +kernel⟩
  have hbox : Declared boxText (functionKinds boxFunctions) [] :=
    .of_scan ⟨_, rfl, by decide +kernel⟩
  have hboxFact : Declared boxFactText (functionKinds isBoxFunctions) Facts.boxes :=
    .of_scan ⟨_, rfl, by decide +kernel⟩
  have hheapFact : Declared heapFactText [] Facts.heaps :=
    .of_scan ⟨_, rfl, by decide +kernel⟩
  have hdatatype : Declared datatypeText (functionKinds datatypeFunctions) Facts.datatypes :=
    .of_scan ⟨_, rfl, by decide +kernel⟩
  have hset : Declared setText (("Set.Empty", .const) :: functionKinds setFunctions) Facts.sets :=
    .of_scan ⟨_, rfl, by decide +kernel⟩
  have hmultiset : Declared multisetText
      (("MultiSet.Empty", .const) :: functionKinds multisetFunctions) Facts.multisets :=
    .of_scan ⟨_, rfl, by decide +kernel⟩
  have hseq : Declared seqText (("Seq.Empty", .const) :: functionKinds seqFunctions) Facts.seqs :=
    .of_scan ⟨_, rfl, by decide +kernel⟩
  have hmap : Declared mapText (("Map.Empty", .const) :: functionKinds mapFunctions) Facts.maps :=
    .of_scan ⟨_, rfl, by decide +kernel⟩
  exact ((((((((hsort.append hheap).append hbox).append hboxFact).append hheapFact).append
    hdatatype).append hset).append hmultiset).append hseq).append hmap

/-! ## The facts of the prelude -/

/-- A list whose elements are all read gives an element for each of its own. -/
theorem mem_of_mapM {ε α β : Type} {f : α → Except ε β} {as : List α} {bs : List β}
    (h : as.mapM f = .ok bs) {b : β} : b ∈ bs ↔ ∃ a ∈ as, f a = .ok b := by
  induction as generalizing bs with
  | nil =>
    obtain rfl : bs = [] := (Except.ok.inj h).symm
    simp
  | cons a as ih =>
    rw [List.mapM_cons] at h
    cases ha : f a with
    | error e => simp [ha, bind, Except.bind] at h
    | ok c =>
      cases has : as.mapM f with
      | error e => simp [ha, has, bind, Except.bind] at h
      | ok cs =>
        obtain rfl : c :: cs = bs := by simpa [ha, has, bind, Except.bind, pure, Except.pure] using h
        simp [ha, ih has, eq_comm]

/-- What the standard prelude declares. -/
theorem declares_iff : ∃ ds, Declare ds standardKinds facts ∧ ∀ d, Prelude.Declares d ↔ d ∈ ds := by
  obtain ⟨ts, ds, hreads, hds, hdeclare⟩ := declared_standard
  have hread : SExpr.readForest standardText = .ok ts := SExpr.readForest_of_reads hreads
  refine ⟨ds, hdeclare, fun d => ?_⟩
  rw [mem_of_mapM hds]
  simp [Prelude.Declares, hread]

variable {M : Model} {old ρ : M.Valuation}

theorem holds_of_erase {e e' : Expr} (h : e.erase = e'.erase) :
    Holds old ρ e ↔ Holds old ρ e' := by
  rw [Holds, Holds, ← Expr.eval_erase e, h, Expr.eval_erase]

/-- The facts that declarations state hold when those listed do. -/
theorem Declare.holds {ds : List Decl} {ks : List (String × Kind)} {es : List Expr}
    (h : Declare ds ks es) (hes : ∀ e ∈ es, Holds old ρ e) {name : Option String} {e : Expr}
    (hd : .fact name e ∈ ds) : Holds old ρ e := by
  cases name with
  | some name => exact absurd (h.known _ hd) (by simp [isKnown])
  | none =>
    have hmem : e.erase ∈ es.map Expr.erase := by
      rw [← h.facts]
      exact List.mem_map_of_mem (List.mem_filterMap.2 ⟨_, hd, rfl⟩)
    obtain ⟨e', he', heq⟩ := List.mem_map.1 hmem
    exact (holds_of_erase heq).1 (hes e' he')

/-- A model satisfies the prelude when the facts listed hold. -/
theorem ofPrelude_iff : Model.OfPrelude old ρ ↔ ∀ e ∈ facts, Holds old ρ e := by
  obtain ⟨ds, hdeclare, hdeclares⟩ := declares_iff
  constructor
  · intro h e he
    have hmem : e.erase ∈ (ds.filterMap factOf?).map Expr.erase := by
      rw [hdeclare.facts]
      exact List.mem_map_of_mem he
    obtain ⟨e', he', heq⟩ := List.mem_map.1 hmem
    obtain ⟨d, hd, hfact⟩ := List.mem_filterMap.1 he'
    unfold factOf? at hfact
    split at hfact
    · cases hfact
      exact (holds_of_erase heq).1 (h ((hdeclares _).2 hd))
    · cases hfact
  · exact fun h name e hdecl => hdeclare.holds h ((hdeclares _).1 hdecl)

/-- The constants of the prelude have their values. -/
structure HasConstants (ρ : String → Val) : Prop where
  alloc : ρ "alloc" = .field .alloc
  noSet : ρ "Set.Empty" = .set ∅
  noMultiset : ρ "MultiSet.Empty" = .multiset 0
  noSeq : ρ "Seq.Empty" = .seq []
  noMap : ρ "Map.Empty" = .map 0

/-- The standard model satisfies the prelude, whatever declarations add. -/
theorem satisfiesPrelude (I : Interp) {old ρ : String → Val} (h : HasConstants ρ) :
    Model.SatisfiesPrelude (M := model I) old ρ where
  app {f ss s as} hf _ := by
    obtain ⟨ds, hdeclare, hdeclares⟩ := declares_iff
    have hknown : (Op.ofName? f).map Op.result = some s := by
      simpa [isKnown] using hdeclare.known _ ((hdeclares _).1 hf)
    obtain ⟨op, hop, rfl⟩ := Option.map_eq_some_iff.1 hknown
    exact sort_app hop as
  facts := ofPrelude_iff.2 (isTrue_facts h.alloc h.noSet h.noMultiset h.noSeq h.noMap)

/-! ## Loading the prelude -/

theorem requireAll_of_lookup {ds : List Decl}
    (h : ∀ r ∈ required, (kinds ds).lookup r.1 = some r.2) : requireAll ds = .ok () := by
  unfold requireAll
  dsimp only
  generalize required = rs at h
  induction rs with
  | nil => rfl
  | cons r rs ih =>
    have hr : require (kinds ds) r.1 r.2 = .ok () := by
      rw [require, h r (by simp)]
      exact if_pos rfl
    rw [List.forM_eq_forM, List.forM_cons, hr]
    exact ih fun r hr => h r (List.mem_cons_of_mem _ hr)

/-- A text of known declarations is loaded if these give every required name its kind. -/
theorem Declared.load {text : String} {ks : List (String × Kind)} {es : List Expr}
    (h : Declared text ks es) (hks : ∀ r ∈ required, ks.reverse.lookup r.1 = some r.2) :
    ∃ ds, Prelude.load text = .ok ds ∧ Declare ds ks es := by
  obtain ⟨ts, ds, hreads, hds, hdeclare⟩ := h
  have hread : readDecls text = .ok ds := by
    simp only [readDecls, SExpr.readForest_of_reads hreads, hds]
  have hrequired : requireAll ds = .ok () :=
    requireAll_of_lookup (by rw [Prelude.kinds, hdeclare.kinds]; exact hks)
  refine ⟨ds, ?_, hdeclare⟩
  show (readDecls text >>= fun ds => requireAll ds >>= fun _ => pure ds) = _
  rw [hread]
  show (requireAll ds >>= fun _ => pure ds) = _
  rw [hrequired]
  rfl

theorem lookup_standardKinds : ∀ r ∈ required, standardKinds.reverse.lookup r.1 = some r.2 := by
  decide +kernel

/-- The standard prelude is usable, and what it declares is known. -/
theorem load_standard : ∃ ds, Prelude.load standardText = .ok ds ∧
    Declare ds standardKinds facts :=
  declared_standard.load lookup_standardKinds

end ContractLowering.Standard
