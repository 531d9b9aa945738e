import ContractLowering.Proofs.Lowering.Vocabulary
import Mathlib

/-!
# Values of the standard model

Boxes hold Booleans, integers, references, values of datatypes, and finite collections of boxes,
so their contents are countable. A box is a number, and `Content.code` numbers the contents, each
once and all of them. A value of a datatype holds boxes, whose numbers are smaller than its own
(`lt_code_of_mem_args`), so numbers serve as ranks.
-/

namespace ContractLowering.Standard

open IL Prelude

/-! ## Contents of boxes -/

instance countable_char : Countable Char := Function.Injective.countable (f := Char.toNat) fun _ _ h =>
  Char.ext (UInt32.toNat_inj.1 h)

instance countable_string : Countable String := Function.Injective.countable (f := String.toList) fun _ _ h =>
  String.toList_injective h

/-- References: null, and objects with the constant of their class, a number that tells them apart
and a length. -/
inductive Ref where
  | null
  | object (cls : String) (id length : ℕ)
deriving Countable

/-- Values of datatypes: the function of a constructor and the boxes of the arguments. -/
structure Data where
  ctor : String
  args : List ℕ
deriving Countable

/-- Contents of boxes that are no values of datatypes. A map takes a key to the successor of what
it maps the key to, and to zero outside its domain. -/
inductive Native where
  | bool (b : Bool)
  | int (n : ℤ)
  | ref (r : Ref)
  | set (s : Finset ℕ)
  | multiset (m : Multiset ℕ)
  | seq (l : List ℕ)
  | map (m : ℕ →₀ ℕ)
deriving Countable

instance : Infinite Native := Infinite.of_injective Native.int fun _ _ h => Native.int.inj h

/-- What a box holds. -/
abbrev Content : Type := Data ⊕ Native

/-- The number of a value of a datatype. -/
noncomputable def Data.number : Data ≃ ℕ :=
  (Equiv.mk (fun d => (d.ctor, d.args)) (fun p => ⟨p.1, p.2⟩) (fun _ => rfl) fun _ => rfl).trans
    ((Equiv.prodCongr (Classical.choice nonempty_equiv_of_countable)
      (Denumerable.eqv (List ℕ))).trans Nat.pairEquiv)

theorem lt_encode_of_mem {n : ℕ} {l : List ℕ} (h : n ∈ l) : n < Encodable.encode l := by
  induction l with
  | nil => cases h
  | cons a l ih =>
    rw [Encodable.encode_list_cons]
    rcases List.mem_cons.1 h with rfl | h
    · exact Nat.lt_succ_of_le (Nat.left_le_pair _ _)
    · exact Nat.lt_succ_of_le ((ih h).le.trans (Nat.right_le_pair _ _))

theorem Data.lt_number_of_mem {n : ℕ} {d : Data} (h : n ∈ d.args) : n < d.number :=
  (lt_encode_of_mem h).trans_le (Nat.right_le_pair _ _)

/-- The number of a box with a content. -/
noncomputable def code : Content ≃ ℕ :=
  (Equiv.sumCongr Data.number (Classical.choice nonempty_equiv_of_countable)).trans
    Equiv.natSumNatEquivNat

/-- The boxes in a value of a datatype have smaller numbers than its own box. -/
theorem lt_code_of_mem_args {n : ℕ} {d : Data} (h : n ∈ d.args) : n < code (.inl d) := by
  have hcode : code (.inl d) = 2 * d.number := rfl
  have hlt := Data.lt_number_of_mem h
  omega

/-- The content of a box. -/
noncomputable def content (n : ℕ) : Content := code.symm n

@[simp] theorem content_code (c : Content) : content (code c) = c := code.symm_apply_apply c

@[simp] theorem code_content (n : ℕ) : code (content n) = n := code.apply_symm_apply n

/-! ## Values -/

/-- Fields: those with a name, and the elements of arrays. -/
inductive Fld where
  | named (x : String)
  | index (i : ℤ)

/-- Heaps. One that an update has taken an allocation from is not intact, and stays so. -/
structure Store where
  get : Ref → Fld → ℕ
  intact : Prop

/-- Values of all sorts. Constants of classes and of constructors stand for themselves. -/
inductive Val where
  | bool (b : Bool)
  | int (n : ℤ)
  | lambda
  | heap (h : Store)
  | ref (r : Ref)
  | box (n : ℕ)
  | field (f : Fld)
  | cls (x : String)
  | data (d : Data)
  | ctorId (x : String)
  | set (s : Finset ℕ)
  | multiset (m : Multiset ℕ)
  | seq (l : List ℕ)
  | map (m : ℕ →₀ ℕ)

namespace Val

/-- The sort of a value. -/
def sort : Val → Srt
  | bool _ => .bool
  | int _ => .int
  | lambda => .lambda
  | heap _ => heapSort
  | ref _ => refSort
  | box _ => boxSort
  | field _ => fieldSort
  | cls _ => classNameSort
  | data _ => datatypeSort
  | ctorId _ => ctorIdSort
  | set _ => setSort
  | multiset _ => multisetSort
  | seq _ => seqSort
  | map _ => mapSort

section

variable {v : Val}

attribute [local simp] sort heapSort refSort boxSort fieldSort classNameSort datatypeSort
  ctorIdSort setSort multisetSort seqSort mapSort

@[simp] theorem sort_eq_bool : v.sort = .bool ↔ ∃ b, v = bool b := by cases v <;> simp
@[simp] theorem sort_eq_int : v.sort = .int ↔ ∃ n, v = int n := by cases v <;> simp
@[simp] theorem sort_eq_lambda : v.sort = .lambda ↔ v = lambda := by cases v <;> simp
@[simp] theorem sort_eq_heap : v.sort = heapSort ↔ ∃ h, v = heap h := by cases v <;> simp
@[simp] theorem sort_eq_ref : v.sort = refSort ↔ ∃ r, v = ref r := by cases v <;> simp
@[simp] theorem sort_eq_box : v.sort = boxSort ↔ ∃ n, v = box n := by cases v <;> simp
@[simp] theorem sort_eq_field : v.sort = fieldSort ↔ ∃ f, v = field f := by cases v <;> simp
@[simp] theorem sort_eq_cls : v.sort = classNameSort ↔ ∃ x, v = cls x := by cases v <;> simp
@[simp] theorem sort_eq_data : v.sort = datatypeSort ↔ ∃ d, v = data d := by cases v <;> simp
@[simp] theorem sort_eq_ctorId : v.sort = ctorIdSort ↔ ∃ x, v = ctorId x := by cases v <;> simp
@[simp] theorem sort_eq_set : v.sort = setSort ↔ ∃ s, v = set s := by cases v <;> simp
@[simp] theorem sort_eq_multiset : v.sort = multisetSort ↔ ∃ m, v = multiset m := by
  cases v <;> simp
@[simp] theorem sort_eq_seq : v.sort = seqSort ↔ ∃ l, v = seq l := by cases v <;> simp
@[simp] theorem sort_eq_map : v.sort = mapSort ↔ ∃ m, v = map m := by cases v <;> simp

end

/-! ### Parts of values -/

/-- The truth of a value, which is false for what is no Boolean. -/
def toBool : Val → Bool
  | bool b => b
  | _ => false

def toInt : Val → ℤ
  | int n => n
  | _ => 0

/-- The heap without objects, all of whose locations hold the box of false. -/
noncomputable def emptyStore : Store := ⟨fun _ _ => code (.inr (.bool false)), True⟩

noncomputable def toStore : Val → Store
  | heap h => h
  | _ => emptyStore

def toRef : Val → Ref
  | ref r => r
  | _ => .null

def toBox : Val → ℕ
  | box n => n
  | _ => 0

def toFld : Val → Fld
  | field f => f
  | _ => .index 0

def toData : Val → Data
  | data d => d
  | _ => ⟨"", []⟩

def toSet : Val → Finset ℕ
  | set s => s
  | _ => ∅

def toMultiset : Val → Multiset ℕ
  | multiset m => m
  | _ => 0

def toSeq : Val → List ℕ
  | seq l => l
  | _ => []

noncomputable def toMap : Val → ℕ →₀ ℕ
  | map m => m
  | _ => 0

/-- A value of a sort, for those that have one. -/
noncomputable def default (s : Srt) : Val :=
  if s = .bool then bool false
  else if s = .int then int 0
  else if s = heapSort then heap emptyStore
  else if s = refSort then ref .null
  else if s = boxSort then box 0
  else if s = fieldSort then field (.index 0)
  else if s = classNameSort then cls ""
  else if s = datatypeSort then data ⟨"", []⟩
  else if s = ctorIdSort then ctorId ""
  else if s = setSort then set ∅
  else if s = multisetSort then multiset 0
  else if s = seqSort then seq []
  else if s = mapSort then map 0
  else lambda

/-! ### Boxes -/

/-- The value that is the content of a box. -/
def ofContent : Content → Val
  | .inl d => data d
  | .inr (.bool b) => bool b
  | .inr (.int n) => int n
  | .inr (.ref r) => ref r
  | .inr (.set s) => set s
  | .inr (.multiset m) => multiset m
  | .inr (.seq l) => seq l
  | .inr (.map m) => map m

/-- The box of a value. A box is its own. -/
noncomputable def toCode : Val → ℕ
  | bool b => code (.inr (.bool b))
  | int n => code (.inr (.int n))
  | ref r => code (.inr (.ref r))
  | data d => code (.inl d)
  | set s => code (.inr (.set s))
  | multiset m => code (.inr (.multiset m))
  | seq l => code (.inr (.seq l))
  | map m => code (.inr (.map m))
  | v => v.toBox

@[simp] theorem toCode_ofContent (c : Content) : (ofContent c).toCode = code c := by
  rcases c with d | (_ | _ | _ | _ | _ | _ | _) <;> rfl

theorem exists_content {v : Val} {s : BoxSort} (h : v.sort = s.sort) : ∃ c, v = ofContent c := by
  cases v with
  | bool b => exact ⟨.inr (.bool b), rfl⟩
  | int n => exact ⟨.inr (.int n), rfl⟩
  | ref r => exact ⟨.inr (.ref r), rfl⟩
  | data d => exact ⟨.inl d, rfl⟩
  | set s => exact ⟨.inr (.set s), rfl⟩
  | multiset m => exact ⟨.inr (.multiset m), rfl⟩
  | seq l => exact ⟨.inr (.seq l), rfl⟩
  | map m => exact ⟨.inr (.map m), rfl⟩
  | lambda | heap | box | field | cls | ctorId =>
    cases s <;> simp [sort, BoxSort.sort, heapSort, refSort, boxSort, fieldSort, classNameSort,
      datatypeSort, ctorIdSort, setSort, multisetSort, seqSort, mapSort] at h

/-- A value of a native sort is the content of its box. -/
theorem ofContent_content {v : Val} {s : BoxSort} (h : v.sort = s.sort) :
    ofContent (content v.toCode) = v := by
  obtain ⟨c, rfl⟩ := exists_content h
  rw [toCode_ofContent, content_code]

open Classical in
/-- What a box holds at a native sort. -/
noncomputable def unbox (s : BoxSort) (n : ℕ) : Val :=
  if (ofContent (content n)).sort = s.sort then ofContent (content n) else default s.sort

theorem sort_default (s : BoxSort) : (default s.sort).sort = s.sort := by
  cases s <;> rfl

@[simp] theorem sort_unbox (s : BoxSort) (n : ℕ) : (unbox s n).sort = s.sort := by
  unfold unbox
  split
  · assumption
  · exact sort_default s

/-- Unboxing a boxed value gives it back. -/
theorem unbox_toCode {v : Val} {s : BoxSort} (h : v.sort = s.sort) : unbox s v.toCode = v := by
  rw [unbox, ofContent_content h, if_pos h]

/-- Boxing what was unboxed at the sort of the content gives the box back. -/
theorem toCode_unbox {s : BoxSort} {n : ℕ} (h : (ofContent (content n)).sort = s.sort) :
    (unbox s n).toCode = n := by
  rw [unbox, if_pos h, toCode_ofContent, code_content]

end Val

end ContractLowering.Standard
