import ContractLowering.Prelude.Load
import ContractLowering.Proofs.SExpr.Scan

/-!
# What the standard prelude declares

The standard prelude is a text. `functions`, `globals` and `empties` list what it declares, and
`declares_func` and `declares_global` say that they are what it is read as. Each section of the
text is scanned once, for all of its declarations that are listed and for the facts about ranks.
-/

namespace ContractLowering

namespace SExpr

mutual

/-- Whether two trees are the same. -/
def same : SExpr → SExpr → Bool
  | .atom s, .atom t => s == t
  | .list es, .list ds => sameList es ds
  | _, _ => false

/-- Whether two lists of trees are the same. -/
def sameList : List SExpr → List SExpr → Bool
  | [], [] => true
  | e :: es, d :: ds => same e d && sameList es ds
  | _, _ => false

end

mutual

theorem eq_of_same : ∀ e d : SExpr, same e d = true → e = d
  | .atom s, .atom t, h => by
    rw [same, beq_iff_eq] at h
    rw [h]
  | .list es, .list ds, h => by
    rw [same] at h
    rw [eq_of_sameList es ds h]
  | .atom _, .list _, h => by simp [same] at h
  | .list _, .atom _, h => by simp [same] at h

theorem eq_of_sameList : ∀ es ds : List SExpr, sameList es ds = true → es = ds
  | [], [], _ => rfl
  | e :: es, d :: ds, h => by
    rw [sameList, Bool.and_eq_true] at h
    rw [eq_of_same e d h.1, eq_of_sameList es ds h.2]
  | [], _ :: _, h => by simp [sameList] at h
  | _ :: _, [], h => by simp [sameList] at h

end

/-- That a text is read as trees of which some are known. -/
def Contains (text : String) (known : List SExpr) : Prop :=
  ∃ es, Reads text es ∧ ∀ t ∈ known, t ∈ es

variable {text text' : String} {known known' : List SExpr}

theorem Contains.of_scan (h : ∃ cs, text = String.ofList cs ∧
    (scanText cs).any (fun es => known.all fun t => es.any (same t)) = true) :
    Contains text known := by
  obtain ⟨cs, htext, h⟩ := h
  obtain ⟨es, hscan, hknown⟩ := (Option.any_eq_true _ _).1 h
  refine ⟨es, .of_scan htext hscan, fun t ht => ?_⟩
  obtain ⟨e, he, hsame⟩ := List.any_eq_true.1 (List.all_eq_true.1 hknown t ht)
  rwa [eq_of_same t e hsame]

theorem Contains.append (h : Contains text known) (h' : Contains text' known') :
    Contains (text ++ text') (known ++ known') := by
  obtain ⟨es, hes, hknown⟩ := h
  obtain ⟨es', hes', hknown'⟩ := h'
  refine ⟨es ++ es', hes.append hes', fun t ht => ?_⟩
  rcases List.mem_append.1 ht with ht | ht
  · exact List.mem_append_left _ (hknown t ht)
  · exact List.mem_append_right _ (hknown' t ht)

end SExpr

namespace Prelude

open IL

/-! ## Declarations of the text -/

/-- A name with the names of the sorts it takes and of the one it gives. -/
abbrev Signature := String × List String × String

/-- Functions on heaps, objects and fields. -/
def heapFunctions : List Signature :=
  [("read", ["Heap", "Ref", "Field"], "Box"),
   ("update", ["Heap", "Ref", "Field", "Box"], "Heap"), ("$IsGoodHeap", ["Heap"], "Bool"),
   ("$HeapSucc", ["Heap", "Heap"], "Bool"), ("dtype", ["Ref"], "ClassName"),
   ("FDim", ["Field"], "Int"), ("DeclType", ["Field"], "ClassName"),
   ("IndexField", ["Int"], "Field"), ("IndexField.inv", ["Field"], "Int"),
   ("array.Length", ["Ref"], "Int")]

/-- The box and unbox functions. -/
def boxFunctions : List Signature :=
  [("$Box.bool", ["Bool"], "Box"), ("$Unbox.bool", ["Box"], "Bool"),
   ("$Box.int", ["Int"], "Box"), ("$Unbox.int", ["Box"], "Int"), ("$Box.ref", ["Ref"], "Box"),
   ("$Unbox.ref", ["Box"], "Ref"), ("$Box.dt", ["DatatypeType"], "Box"),
   ("$Unbox.dt", ["Box"], "DatatypeType"), ("$Box.set", ["Set"], "Box"),
   ("$Unbox.set", ["Box"], "Set"), ("$Box.multiset", ["MultiSet"], "Box"),
   ("$Unbox.multiset", ["Box"], "MultiSet"), ("$Box.seq", ["Seq"], "Box"),
   ("$Unbox.seq", ["Box"], "Seq"), ("$Box.map", ["Map"], "Box"), ("$Unbox.map", ["Box"], "Map")]

/-- The predicates that tell boxes of one sort from others. -/
def isBoxFunctions : List Signature :=
  [("$IsBox.bool", ["Box"], "Bool"), ("$IsBox.int", ["Box"], "Bool"),
   ("$IsBox.ref", ["Box"], "Bool"), ("$IsBox.dt", ["Box"], "Bool"),
   ("$IsBox.set", ["Box"], "Bool"), ("$IsBox.multiset", ["Box"], "Bool"),
   ("$IsBox.seq", ["Box"], "Bool"), ("$IsBox.map", ["Box"], "Bool")]

/-- Functions on values of datatypes. -/
def datatypeFunctions : List Signature :=
  [("DatatypeCtorId", ["DatatypeType"], "DtCtorId"), ("DtRank", ["DatatypeType"], "Int"),
   ("$IsAllocDt", ["DatatypeType", "Heap"], "Bool")]

/-- Functions on sets. -/
def setFunctions : List Signature :=
  [("Set.mem", ["Set", "Box"], "Bool"), ("Set.UnionOne", ["Set", "Box"], "Set"),
   ("Set.Union", ["Set", "Set"], "Set"), ("Set.Intersection", ["Set", "Set"], "Set"),
   ("Set.Difference", ["Set", "Set"], "Set"), ("Set.Subset", ["Set", "Set"], "Bool"),
   ("Set.Equal", ["Set", "Set"], "Bool"), ("Set.Disjoint", ["Set", "Set"], "Bool"),
   ("Set.Card", ["Set"], "Int"), ("Set.FromPredicate", ["Lambda"], "Set"),
   ("$IsGoodSet", ["Set"], "Bool")]

/-- Functions on multisets. -/
def multisetFunctions : List Signature :=
  [("MultiSet.Multiplicity", ["MultiSet", "Box"], "Int"),
   ("MultiSet.UnionOne", ["MultiSet", "Box"], "MultiSet"),
   ("MultiSet.Union", ["MultiSet", "MultiSet"], "MultiSet"),
   ("MultiSet.Intersection", ["MultiSet", "MultiSet"], "MultiSet"),
   ("MultiSet.Difference", ["MultiSet", "MultiSet"], "MultiSet"),
   ("MultiSet.Subset", ["MultiSet", "MultiSet"], "Bool"),
   ("MultiSet.Equal", ["MultiSet", "MultiSet"], "Bool"),
   ("MultiSet.Disjoint", ["MultiSet", "MultiSet"], "Bool"),
   ("MultiSet.Card", ["MultiSet"], "Int"), ("$IsGoodMultiSet", ["MultiSet"], "Bool")]

/-- Functions on sequences. -/
def seqFunctions : List Signature :=
  [("Seq.Length", ["Seq"], "Int"), ("Seq.Index", ["Seq", "Int"], "Box"),
   ("Seq.Build", ["Seq", "Box"], "Seq"), ("Seq.Append", ["Seq", "Seq"], "Seq"),
   ("Seq.Update", ["Seq", "Int", "Box"], "Seq"), ("Seq.Take", ["Seq", "Int"], "Seq"),
   ("Seq.Drop", ["Seq", "Int"], "Seq"), ("Seq.Equal", ["Seq", "Seq"], "Bool"),
   ("Seq.SameUntil", ["Seq", "Seq", "Int"], "Bool"), ("Seq.Contains", ["Seq", "Box"], "Bool"),
   ("Seq.FromArray", ["Heap", "Ref"], "Seq")]

/-- Functions on maps. -/
def mapFunctions : List Signature :=
  [("Map.Domain", ["Map"], "Set"), ("Map.Elements", ["Map", "Box"], "Box"),
   ("Map.Build", ["Map", "Box", "Box"], "Map"), ("Map.Card", ["Map"], "Int"),
   ("Map.Equal", ["Map", "Map"], "Bool"), ("Map.Glue", ["Set", "Lambda"], "Map")]

/-- The functions of the standard prelude. -/
def functions : List Signature :=
  heapFunctions ++ boxFunctions ++ isBoxFunctions ++ datatypeFunctions ++ setFunctions
    ++ multisetFunctions ++ seqFunctions ++ mapFunctions

/-- The constants and variables that come before the functions, with the word that declares them
and their sort. -/
def globals : List (String × String × String) :=
  [("declare-var", "$Heap", "Heap"), ("declare-const", "null", "Ref"),
   ("declare-unique-const", "alloc", "Field")]

/-- The empty collections. -/
def empties : List (String × String × String) :=
  [("declare-const", "Set.Empty", "Set"), ("declare-const", "MultiSet.Empty", "MultiSet"),
   ("declare-const", "Seq.Empty", "Seq"), ("declare-const", "Map.Empty", "Map")]

/-- The tree that declares a function. -/
def functionTree (f : Signature) : SExpr :=
  .list [.atom "declare-fun", .atom f.1, .list (f.2.1.map .atom), .atom f.2.2]

/-- The tree that declares a constant or a variable. -/
def globalTree (g : String × String × String) : SExpr :=
  .list [.atom g.1, .atom g.2.1, .atom g.2.2]

/-- The tree of a fact about all values of some sorts, which are instantiated by one term. -/
def factTree (binders : List (String × String)) (body : SExpr) (pattern : SExpr) : SExpr :=
  .list [.atom "axiom", .list [.atom "forall",
    .list (binders.map fun b => .list [.atom b.1, .atom b.2]),
    .list [.atom "!", body, .atom ":pattern", .list [pattern]]]]

/-- The rank of a datatype value is not negative. -/
def rankTree : SExpr :=
  factTree [("d", "DatatypeType")]
    (.list [.atom "<=", .atom "0", .list [.atom "DtRank", .atom "d"]])
    (.list [.atom "DtRank", .atom "d"])

/-- The length of a sequence is not negative. -/
def lengthTree : SExpr :=
  factTree [("s", "Seq")]
    (.list [.atom "<=", .atom "0", .list [.atom "Seq.Length", .atom "s"]])
    (.list [.atom "Seq.Length", .atom "s"])

/-- Sequences that are the same element by element are one. -/
def seqEqualTree : SExpr :=
  factTree [("s", "Seq"), ("t", "Seq")]
    (.list [.atom "=>", .list [.atom "Seq.Equal", .atom "s", .atom "t"],
      .list [.atom "=", .atom "s", .atom "t"]])
    (.list [.atom "Seq.Equal", .atom "s", .atom "t"])

/-! ## Declarations and facts -/

/-- That the standard prelude is read as a declaration, among others. -/
def Declares (d : Decl) : Prop :=
  ∃ es, SExpr.readForest standardText = .ok es ∧ ∃ t ∈ es, Decl.ofSExpr t = .ok d

set_option maxRecDepth 100000 in
/-- The trees above stand in the standard prelude. -/
theorem standardText_contains : SExpr.Contains standardText
    ([rankTree, lengthTree, seqEqualTree] ++ (globals ++ empties).map globalTree ++
      functions.map functionTree) := by
  have hsort : SExpr.Contains sortText (globals.map globalTree) :=
    .of_scan ⟨_, rfl, by decide +kernel⟩
  have hheap : SExpr.Contains heapText (heapFunctions.map functionTree) :=
    .of_scan ⟨_, rfl, by decide +kernel⟩
  have hbox : SExpr.Contains boxText (boxFunctions.map functionTree) :=
    .of_scan ⟨_, rfl, by decide +kernel⟩
  have hboxFact : SExpr.Contains boxFactText (isBoxFunctions.map functionTree) :=
    .of_scan ⟨_, rfl, by decide +kernel⟩
  have hheapFact : SExpr.Contains heapFactText [] :=
    .of_scan ⟨_, rfl, by decide +kernel⟩
  have hdatatype : SExpr.Contains datatypeText
      (rankTree :: datatypeFunctions.map functionTree) :=
    .of_scan ⟨_, rfl, by decide +kernel⟩
  have hset : SExpr.Contains setText
      (globalTree ("declare-const", "Set.Empty", "Set") :: setFunctions.map functionTree) :=
    .of_scan ⟨_, rfl, by decide +kernel⟩
  have hmultiset : SExpr.Contains multisetText
      (globalTree ("declare-const", "MultiSet.Empty", "MultiSet") ::
        multisetFunctions.map functionTree) :=
    .of_scan ⟨_, rfl, by decide +kernel⟩
  have hseq : SExpr.Contains seqText
      (globalTree ("declare-const", "Seq.Empty", "Seq") :: lengthTree :: seqEqualTree ::
        seqFunctions.map functionTree) :=
    .of_scan ⟨_, rfl, by decide +kernel⟩
  have hmap : SExpr.Contains mapText
      (globalTree ("declare-const", "Map.Empty", "Map") :: mapFunctions.map functionTree) :=
    .of_scan ⟨_, rfl, by decide +kernel⟩
  obtain ⟨es, hes, hknown⟩ := ((((((((hsort.append hheap).append hbox).append hboxFact).append
    hheapFact).append hdatatype).append hset).append hmultiset).append hseq).append hmap
  refine ⟨es, hes, fun t ht => hknown t ?_⟩
  simp only [functions, empties, List.map_append, List.map_cons, List.map_nil, List.mem_append,
    List.mem_cons, List.not_mem_nil, or_false] at ht ⊢
  grind

theorem declares_of_tree {t : SExpr} {d : Decl} (hd : Decl.ofSExpr t = .ok d)
    (ht : t ∈ [rankTree, lengthTree, seqEqualTree] ++ (globals ++ empties).map globalTree ++
      functions.map functionTree) : Declares d := by
  obtain ⟨es, hes, hknown⟩ := standardText_contains
  exact ⟨es, SExpr.readForest_of_reads hes, t, hknown t ht, hd⟩

theorem ofSExpr_functionTree {f : Signature} (hf : isSymbol f.1 = true)
    (hargs : f.2.1.all isSymbol = true) (hresult : isSymbol f.2.2 = true) :
    Decl.ofSExpr (functionTree f) =
      .ok (.func f.1 (f.2.1.map Srt.ofName) (Srt.ofName f.2.2)) := by
  have hsorts : ∀ xs : List String, xs.all isSymbol = true →
      Srt.ofSExprs (xs.map .atom) = .ok (xs.map Srt.ofName) := by
    intro xs hxs
    induction xs with
    | nil => rfl
    | cons x xs ih =>
      rw [List.all_cons, Bool.and_eq_true] at hxs
      have hrest := ih hxs.2
      simp only [Srt.ofSExprs] at hrest ⊢
      simp [Srt.ofSExpr, hxs.1, hrest]
      rfl
  simp [functionTree, Decl.ofSExpr, hf, hsorts _ hargs, Srt.ofSExpr, hresult]
  rfl

/-- The functions listed are declared. -/
theorem declares_func {f : Signature} (hf : f ∈ functions) :
    Declares (.func f.1 (f.2.1.map Srt.ofName) (Srt.ofName f.2.2)) := by
  have hsymbols : functions.all (fun f => isSymbol f.1 && f.2.1.all isSymbol && isSymbol f.2.2) =
    true := by decide +kernel
  have hf' := List.all_eq_true.1 hsymbols f hf
  simp only [Bool.and_eq_true] at hf'
  exact declares_of_tree (ofSExpr_functionTree hf'.1.1 hf'.1.2 hf'.2)
    (List.mem_append_right _ (List.mem_map_of_mem hf))

/-- The words that declare constants and variables. -/
def globalDecl? (word x : String) (s : Srt) : Option Decl :=
  if word = "declare-const" then some (.const x s)
  else if word = "declare-unique-const" then some (.uniqueConst x s)
  else if word = "declare-var" then some (.var x s)
  else none

theorem ofSExpr_globalTree {g : String × String × String} {d : Decl}
    (hname : isSymbol g.2.1 = true) (hsort : isSymbol g.2.2 = true)
    (hd : globalDecl? g.1 g.2.1 (.ofName g.2.2) = some d) :
    Decl.ofSExpr (globalTree g) = .ok d := by
  obtain ⟨word, x, s⟩ := g
  unfold globalDecl? at hd
  split at hd
  · simp_all [globalTree, Decl.ofSExpr, Srt.ofSExpr, Except.map]
  split at hd
  · simp_all [globalTree, Decl.ofSExpr, Srt.ofSExpr, Except.map]
  split at hd
  · simp_all [globalTree, Decl.ofSExpr, Srt.ofSExpr, Except.map]
  · cases hd

/-- The constants and variables listed are declared. -/
theorem declares_global {g : String × String × String} (hg : g ∈ globals ++ empties) :
    ∃ d, globalDecl? g.1 g.2.1 (.ofName g.2.2) = some d ∧ Declares d := by
  have hall : (globals ++ empties).all (fun g => isSymbol g.2.1 && isSymbol g.2.2 &&
      (globalDecl? g.1 g.2.1 (.ofName g.2.2)).isSome) = true := by decide +kernel
  have hg' := List.all_eq_true.1 hall g hg
  simp only [Bool.and_eq_true, Option.isSome_iff_exists] at hg'
  obtain ⟨⟨hname, hsort⟩, d, hd⟩ := hg'
  refine ⟨d, hd, declares_of_tree (ofSExpr_globalTree hname hsort hd) ?_⟩
  exact List.mem_append_left _ (List.mem_append_right _ (List.mem_map_of_mem hg))

end Prelude

end ContractLowering
