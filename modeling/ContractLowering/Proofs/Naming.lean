import ContractLowering.Proofs.Context

/-!
# Generated names

A generated name joins identifiers with points, puts a mark in front of them for some families, and
appends the field of a destructor after a slash. Identifiers hold none of the characters `$`, `%` and
`/`, so a name tells its family and the joined text apart (`name_eq_iff`). It does not tell where the
text was joined, as identifiers may hold points themselves: `M.C.f` is a member `f` of a class `C` as
well as a member `C.f` of the module (`members_share_names`). If no identifier holds a point, names are
injective (`names_injective`).
-/

namespace ContractLowering

open Source

namespace Naming

/-! ## Identifiers -/

/-- The characters of source identifiers. -/
def IsIdentChar (c : Char) : Prop := c.isAlphanum = true ∨ c = '_' ∨ c = '.'

instance : DecidablePred IsIdentChar := fun c =>
  inferInstanceAs (Decidable (c.isAlphanum = true ∨ c = '_' ∨ c = '.'))

/-- Source identifiers: not empty, and of letters, digits, underscores and points only. -/
structure Identifier (x : String) : Prop where
  nonempty : x ≠ ""
  chars : ∀ c ∈ x.toList, IsIdentChar c

instance (x : String) : Decidable (Identifier x) :=
  decidable_of_iff (x ≠ "" ∧ x.toList.all (fun c => decide (IsIdentChar c)) = true)
    ⟨fun ⟨h₁, h₂⟩ => ⟨h₁, by simpa using h₂⟩, fun h => ⟨h.nonempty, by simpa using h.chars⟩⟩

/-- The characters that generated names hold and identifiers do not. -/
def isSeparator (c : Char) : Bool := c == '$' || c == '%' || c == '/'

theorem IsIdentChar.not_isSeparator {c : Char} (h : IsIdentChar c) : isSeparator c = false := by
  rw [Bool.eq_false_iff]
  intro hc
  simp only [isSeparator, Bool.or_eq_true, beq_iff_eq] at hc
  rcases hc with (rfl | rfl) | rfl <;> exact absurd h (by unfold IsIdentChar; decide)

/-! ## What names stand for -/

/-- What a generated name stands for. -/
inductive Subject where
  | path (p : Path)
  | cls (p : Path)
  | field (f : FieldId)
  | ctor (datatype : Path) (c : String)
  | ctorId (datatype : Path) (c : String)
  | isCtor (datatype : Path) (c : String)
  | destructor (datatype : Path) (c field : String)
  | layered (f : Path) (layer : Layer)
  | proc (m : Path) (kind : ProcKind)

/-- The marks in front of names. -/
inductive Mark where
  | cls
  | ctorId
  | isCtor
  | canCall
  | limited
  | unrolled
  | proc (kind : ProcKind)
deriving DecidableEq

/-- The families of names. -/
inductive Family where
  | plain
  | destructor
  | marked (m : Mark)
deriving DecidableEq

namespace Mark

/-- The word of a mark. -/
def word : Mark → String
  | cls => "class"
  | ctorId => "ctor"
  | isCtor => "is"
  | canCall => "canCall"
  | limited => "limited"
  | unrolled => "unrolled"
  | proc .checkWellformed => "CheckWellformed"
  | proc .interModuleCall => "InterModuleCall"
  | proc .intraModuleCall => "IntraModuleCall"
  | proc .coCall => "CoCall"
  | proc .impl => "Impl"

/-- What stands between the word and the text. -/
def separator : Mark → String
  | proc _ => "$$"
  | _ => "%"

theorem word_injective : Function.Injective word := by
  intro m n h
  cases m with
  | proc k => cases n with
    | proc l => cases k <;> cases l <;> first | rfl | exact absurd h (by decide)
    | _ => cases k <;> exact absurd h (by decide)
  | _ => cases n with
    | proc l => cases l <;> exact absurd h (by decide)
    | _ => first | rfl | exact absurd h (by decide)

theorem not_isSeparator_of_mem_word (m : Mark) : ∀ c ∈ m.word.toList, isSeparator c = false := by
  -- this goes through the word, where deciding the quantifier may go through all characters
  have hall : m.word.toList.all (!isSeparator ·) = true := by
    cases m with
    | proc k => cases k <;> decide
    | _ => decide
  simpa using hall

/-- The separator starts with a percent or dollar sign. -/
theorem exists_separator (m : Mark) :
    ∃ c cs, m.separator.toList = c :: cs ∧ isSeparator c = true ∧ c ≠ '/' := by
  cases m with
  | proc k => exact ⟨'$', ['$'], by simp [separator], rfl, by decide⟩
  | _ => exact ⟨'%', [], by simp [separator], rfl, by decide⟩

end Mark

namespace Subject

/-- The name of a subject. -/
def name : Subject → String
  | path p => Naming.path p
  | cls p => Naming.cls p
  | field f => Naming.field f
  | ctor d c => Naming.ctor d c
  | ctorId d c => Naming.ctorId d c
  | isCtor d c => Naming.isCtor d c
  | destructor d c f => Naming.destructor d c f
  | layered f l => Naming.layered f l
  | proc m k => Naming.proc m k

/-- The family of a name. The normal layer of a function has a plain name. -/
def family : Subject → Family
  | path _ | field _ | ctor .. | layered _ .normal => .plain
  | cls _ => .marked .cls
  | ctorId .. => .marked .ctorId
  | isCtor .. => .marked .isCtor
  | destructor .. => .destructor
  | layered _ .canCall => .marked .canCall
  | layered _ .limited => .marked .limited
  | layered _ .unrolled => .marked .unrolled
  | proc _ k => .marked (.proc k)

/-- The identifiers that a name joins with points. -/
def parts : Subject → List String
  | path p | cls p | layered p _ | proc p _ => p.module :: p.segments
  | field f => f.owner.module :: f.owner.segments ++ [f.name]
  | ctor d c | ctorId d c | isCtor d c | destructor d c _ => d.module :: d.segments ++ [c]

/-- The field that a destructor ends in. -/
def field? : Subject → Option String
  | destructor _ _ f => some f
  | _ => none

/-- The joined identifiers. -/
def text (s : Subject) : String := ".".intercalate s.parts

/-- Named by identifiers. -/
structure Identifiers (s : Subject) : Prop where
  parts : ∀ x ∈ s.parts, Identifier x
  field : ∀ x ∈ s.field?, Identifier x

instance (s : Subject) : Decidable s.Identifiers :=
  decidable_of_iff ((∀ x ∈ s.parts, Identifier x) ∧ ∀ x ∈ s.field?, Identifier x)
    ⟨fun ⟨h₁, h₂⟩ => ⟨h₁, h₂⟩, fun h => ⟨h.parts, h.field⟩⟩

/-- No point in an identifier that is joined with points. -/
def PointFree (s : Subject) : Prop := ∀ x ∈ s.parts, '.' ∉ x.toList

instance (s : Subject) : Decidable s.PointFree :=
  inferInstanceAs (Decidable (∀ x ∈ s.parts, '.' ∉ x.toList))

/-- Named by the same function. -/
def SameKind : Subject → Subject → Prop
  | path _, path _ | cls _, cls _ | field _, field _ | ctor .., ctor .. | ctorId .., ctorId ..
  | isCtor .., isCtor .. | destructor .., destructor .. | layered .., layered ..
  | proc .., proc .. => True
  | _, _ => False

end Subject

/-- Another identifier after joined ones. -/
theorem join_append (p : Path) (x : String) :
    ".".intercalate (p.module :: p.segments ++ [x]) = path p ++ "." ++ x := by
  rw [String.intercalate_append_of_ne_nil (List.cons_ne_nil _ _) (List.cons_ne_nil _ _),
    String.intercalate_singleton, path]

/-- Joined identifiers hold no separator. -/
theorem not_isSeparator_of_mem_join {xs : List String}
    (h : ∀ x ∈ xs, ∀ c ∈ x.toList, isSeparator c = false) :
    ∀ c ∈ (".".intercalate xs).toList, isSeparator c = false := by
  induction xs with
  | nil => simp
  | cons x xs ih =>
    obtain ⟨hx, hxs⟩ := List.forall_mem_cons.1 h
    cases xs with
    | nil => simpa using hx
    | cons y ys =>
      rw [String.intercalate_cons_cons]
      simp only [String.toList_append, List.forall_mem_append]
      exact ⟨⟨hx, by simp [isSeparator]⟩, ih hxs⟩

/-- A text without separators, in front of nothing or of a separator, is what comes before the first
separator. -/
theorem takeWhile_append {a r : List Char} (ha : ∀ c ∈ a, isSeparator c = false)
    (hr : ∀ c ∈ r.head?, isSeparator c = true) : (a ++ r).takeWhile (!isSeparator ·) = a := by
  rw [List.takeWhile_append_of_pos fun c hc => by simp [ha c hc]]
  cases r with
  | nil => exact List.append_nil a
  | cons c r => simp [hr c rfl]

namespace Subject

variable {s t : Subject}

/-- What a name starts with: the word of its mark, or the joined identifiers. -/
def front (s : Subject) : String :=
  match s.family with
  | .plain | .destructor => s.text
  | .marked m => m.word

/-- What a name goes on with, from its first separator on. -/
def rest (s : Subject) : String :=
  match s.family with
  | .plain => ""
  | .destructor => "/" ++ s.field?.getD ""
  | .marked m => m.separator ++ s.text

/-- A name is its front and its rest. -/
theorem name_eq (s : Subject) : s.name = s.front ++ s.rest := by
  have marked (w sep x : String) : w ++ sep ++ x = w ++ (sep ++ x) := String.append_assoc
  cases s with
  | path p => exact String.append_empty.symm
  | cls p => exact marked "class" "%" _
  | field f => exact (join_append f.owner f.name).symm.trans String.append_empty.symm
  | ctor d c => exact (join_append d c).symm.trans String.append_empty.symm
  | ctorId d c =>
    exact (congrArg ("ctor%" ++ ·) (join_append d c).symm).trans (marked "ctor" "%" _)
  | isCtor d c => exact (congrArg ("is%" ++ ·) (join_append d c).symm).trans (marked "is" "%" _)
  | destructor d c f =>
    exact (congrArg (· ++ "/" ++ f) (join_append d c).symm).trans (marked _ "/" f)
  | layered f l =>
    cases l with
    | normal => exact String.empty_append.trans String.append_empty.symm
    | canCall => exact marked "canCall" "%" _
    | limited => exact marked "limited" "%" _
    | unrolled => exact marked "unrolled" "%" _
  | proc m k =>
    cases k with
    | checkWellformed => exact marked "CheckWellformed" "$$" _
    | interModuleCall => exact marked "InterModuleCall" "$$" _
    | intraModuleCall => exact marked "IntraModuleCall" "$$" _
    | coCall => exact marked "CoCall" "$$" _
    | impl => exact marked "Impl" "$$" _

/-- The joined identifiers hold no separator. -/
theorem Identifiers.not_isSeparator_of_mem_text (hs : s.Identifiers) :
    ∀ c ∈ s.text.toList, isSeparator c = false :=
  not_isSeparator_of_mem_join fun x hx c hc => ((hs.parts x hx).chars c hc).not_isSeparator

/-- A name falls apart at its first separator. -/
theorem takeWhile_name (hs : s.Identifiers) :
    s.name.toList.takeWhile (!isSeparator ·) = s.front.toList := by
  rw [name_eq, String.toList_append]
  refine takeWhile_append ?_ ?_
  · unfold front
    cases s.family with
    | plain | destructor => exact hs.not_isSeparator_of_mem_text
    | marked m => exact m.not_isSeparator_of_mem_word
  · unfold rest
    cases s.family with
    | plain => simp
    | destructor => simp [isSeparator]
    | marked m =>
      obtain ⟨c, cs, hsep, hc, -⟩ := m.exists_separator
      simp [hsep, hc]

theorem front_eq_and_rest_eq (hs : s.Identifiers) (ht : t.Identifiers) (h : s.name = t.name) :
    s.front = t.front ∧ s.rest = t.rest := by
  have hfront : s.front = t.front := by
    rw [← String.toList_inj, ← takeWhile_name hs, ← takeWhile_name ht, h]
  rw [name_eq, name_eq, hfront, String.append_right_inj] at h
  exact ⟨hfront, h⟩

theorem exists_rest_of_marked {m : Mark} (h : s.family = .marked m) :
    ∃ c cs, s.rest.toList = c :: cs ∧ c ≠ '/' := by
  obtain ⟨c, cs, hsep, -, hc⟩ := m.exists_separator
  exact ⟨c, cs ++ s.text.toList, by simp [rest, h, hsep], hc⟩

/-- Plain names have no rest, and the rest of a destructor starts with a slash. -/
theorem family_eq_plain_iff : s.family = .plain ↔ s.rest.toList.head? = none := by
  cases hf : s.family with
  | plain => simp [rest, hf]
  | destructor => simp [rest, hf]
  | marked m =>
    obtain ⟨c, cs, hrest, -⟩ := exists_rest_of_marked hf
    simp [hrest]

theorem family_eq_destructor_iff : s.family = .destructor ↔ s.rest.toList.head? = some '/' := by
  cases hf : s.family with
  | plain => simp [rest, hf]
  | destructor => simp [rest, hf]
  | marked m =>
    obtain ⟨c, cs, hrest, hc⟩ := exists_rest_of_marked hf
    simp [hrest, hc]

/-- Names of different families differ. -/
theorem family_eq (hs : s.Identifiers) (ht : t.Identifiers) (h : s.name = t.name) :
    s.family = t.family := by
  obtain ⟨hfront, hrest⟩ := front_eq_and_rest_eq hs ht h
  have hplain : s.family = .plain ↔ t.family = .plain := by
    rw [family_eq_plain_iff, family_eq_plain_iff, hrest]
  have hdestructor : s.family = .destructor ↔ t.family = .destructor := by
    rw [family_eq_destructor_iff, family_eq_destructor_iff, hrest]
  cases hfs : s.family with
  | plain => exact (hplain.1 hfs).symm
  | destructor => exact (hdestructor.1 hfs).symm
  | marked m =>
    cases hft : t.family with
    | plain => rw [hplain.2 hft] at hfs; cases hfs
    | destructor => rw [hdestructor.2 hft] at hfs; cases hfs
    | marked n =>
      simp only [front, hfs, hft] at hfront
      rw [Mark.word_injective hfront]

/-- Only destructors have a field. -/
theorem field?_eq_none_iff : s.field? = none ↔ s.family ≠ .destructor := by
  cases s with
  | layered f l => cases l <;> simp [field?, family]
  | _ => simp [field?, family]

/-- A name tells its family, the joined identifiers and the field of a destructor. -/
theorem name_eq_iff (hs : s.Identifiers) (ht : t.Identifiers) :
    s.name = t.name ↔ s.family = t.family ∧ s.text = t.text ∧ s.field? = t.field? := by
  constructor
  · intro h
    have hfamily := family_eq hs ht h
    obtain ⟨hfront, hrest⟩ := front_eq_and_rest_eq hs ht h
    refine ⟨hfamily, ?_⟩
    cases hft : t.family with
    | plain =>
      have hnone {u : Subject} (hu : u.family = .plain) : u.field? = none :=
        field?_eq_none_iff.2 (by simp [hu])
      have hfs := hfamily.trans hft
      simp only [front, hfs, hft] at hfront
      exact ⟨hfront, (hnone hfs).trans (hnone hft).symm⟩
    | marked m =>
      have hnone {u : Subject} (hu : u.family = .marked m) : u.field? = none :=
        field?_eq_none_iff.2 (by simp [hu])
      have hfs := hfamily.trans hft
      simp only [rest, hfs, hft, String.append_right_inj] at hrest
      exact ⟨hrest, (hnone hfs).trans (hnone hft).symm⟩
    | destructor =>
      have hfs := hfamily.trans hft
      simp only [front, rest, hfs, hft, String.append_right_inj] at hfront hrest
      obtain ⟨x, hx⟩ := Option.ne_none_iff_exists'.1 fun hn => field?_eq_none_iff.1 hn hfs
      obtain ⟨y, hy⟩ := Option.ne_none_iff_exists'.1 fun hn => field?_eq_none_iff.1 hn hft
      rw [hx, hy] at hrest
      exact ⟨hfront, by rw [hx, hy]; exact congrArg some hrest⟩
  · rintro ⟨hfamily, htext, hfield⟩
    simp only [name_eq, front, rest, hfamily, htext, hfield]

/-- Without points in the identifiers, a joined text tells what was joined. -/
theorem parts_eq (hs : s.PointFree) (ht : t.PointFree) (h : s.text = t.text) :
    s.parts = t.parts := by
  have split {u : Subject} (hu : u.PointFree) (hne : u.parts ≠ []) :
      u.text.toList.splitOn '.' = u.parts.map String.toList := by
    rw [text, String.toList_intercalate]
    refine List.splitOn_intercalate '.' ?_ (by simpa using hne)
    rw [List.forall_mem_map]
    exact hu
  have hne (u : Subject) : u.parts ≠ [] := by cases u <;> simp [parts]
  have hlists : s.parts.map String.toList = t.parts.map String.toList := by
    rw [← split hs (hne s), ← split ht (hne t), h]
  exact (List.map_inj_right fun _ _ => String.toList_inj.1).1 hlists

/-- The family, the identifiers and the field say what a name of a kind stands for. -/
theorem eq_of_sameKind (hkind : s.SameKind t) (hfamily : s.family = t.family)
    (hparts : s.parts = t.parts) (hfield : s.field? = t.field?) : s = t := by
  have path {p q : Path} (h : p.module :: p.segments = q.module :: q.segments) : p = q := by
    obtain ⟨hmodule, hsegments⟩ := List.cons.inj h
    cases p
    cases q
    simp_all
  have member {p q : Path} {x y : String}
      (h : p.module :: p.segments ++ [x] = q.module :: q.segments ++ [y]) : p = q ∧ x = y := by
    obtain ⟨hpath, hx⟩ := List.append_inj' h rfl
    exact ⟨path hpath, List.singleton_inj.1 hx⟩
  cases s <;> cases t <;> first | exact hkind.elim | skip
  case path | cls => rw [path hparts]
  case field f g =>
    obtain ⟨p, x⟩ := f
    obtain ⟨q, y⟩ := g
    obtain ⟨rfl, rfl⟩ := member hparts
    rfl
  case ctor | ctorId | isCtor =>
    obtain ⟨rfl, rfl⟩ := member hparts
    rfl
  case destructor =>
    obtain ⟨rfl, rfl⟩ := member hparts
    rw [Option.some.inj hfield]
  case layered f l g k =>
    rw [path hparts]
    cases l <;> cases k <;> first | rfl | exact absurd hfamily (by simp [family])
  case proc m k n l =>
    rw [path hparts]
    simp only [family, Family.marked.injEq, Mark.proc.injEq] at hfamily
    rw [hfamily]

end Subject

end Naming

/-! ## Declared functions -/

namespace Context

theorem nodup_addFunction {c c' : Context} {f : Function} (h : c.addFunction f = .ok c')
    (hc : (c.functions.map (·.name)).Nodup) : (c'.functions.map (·.name)).Nodup := by
  have hnew := not_of_add h
  rw [eq_of_add h]
  refine List.nodup_cons.2 ⟨fun hmem => ?_, hc⟩
  obtain ⟨g, hg, hname⟩ := List.mem_map.1 hmem
  exact List.any_eq_false.1 hnew g hg (decide_eq_true hname)

theorem nodup_addClass {c c' : Context} {k : Source.Class} (h : c.addClass k = .ok c')
    (hc : (c.functions.map (·.name)).Nodup) : (c'.functions.map (·.name)).Nodup := by
  obtain ⟨c₁, hfunctions, h⟩ := exists_of_bind h
  obtain ⟨c₂, hmethods, h⟩ := exists_of_bind h
  have functions : (c₁.functions.map (·.name)).Nodup :=
    foldlM_keeps (p := fun d => (d.functions.map (·.name)).Nodup)
      (fun f _ d d' hd hp => nodup_addFunction hd hp) hfunctions hc
  have methods : c₂.functions = c₁.functions :=
    foldlM_keeps (p := fun d => d.functions = c₁.functions)
      (fun m _ d d' hd hp => by rw [eq_of_add hd]; exact hp) hmethods rfl
  rw [eq_of_add h]
  exact methods ▸ functions

/-- The functions of a program have distinct paths. -/
theorem functions_distinct {program : Source.Program} {options : Options} {c : Context}
    (h : ofProgram program options = .ok c) : (c.functions.map (·.name)).Nodup := by
  obtain ⟨c₁, hother, h⟩ := exists_of_bind h
  obtain ⟨c₂, hclass, h⟩ := exists_of_bind h
  cases h
  have start : c₁.functions = [] :=
    foldlM_keeps (p := fun d => d.functions = [])
      (fun d _ c c' hc hp => by
        cases d with
        | cls k => cases hc; exact hp
        | datatype d | iterator i => rw [eq_of_add hc]; exact hp) hother rfl
  exact foldlM_keeps (p := fun d => (d.functions.map (·.name)).Nodup)
    (fun k _ c c' hc hp => nodup_addClass hc hp) hclass (by simp [start])

end Context

namespace Naming

/-- Functions with different paths have no name in common if no identifier holds a point. -/
theorem layered_ne {p q : Path} (hp : (Subject.path p).Identifiers)
    (hq : (Subject.path q).Identifiers) (hp' : (Subject.path p).PointFree)
    (hq' : (Subject.path q).PointFree) (hne : p ≠ q) (l k : Layer) :
    layered p l ≠ layered q k := by
  intro h
  have hs : (Subject.layered p l).Identifiers := ⟨hp.parts, by simp [Subject.field?]⟩
  have ht : (Subject.layered q k).Identifiers := ⟨hq.parts, by simp [Subject.field?]⟩
  have htext := ((Subject.name_eq_iff hs ht).1 h).2.1
  obtain ⟨hmodule, hsegments⟩ := List.cons.inj (Subject.parts_eq (s := .path p) hp' hq' htext)
  cases p
  cases q
  simp_all

/-- **Injectivity of names.** Two names are the same exactly if they are of one family, join the same
text and end in the same field. If no identifier holds a point, a name of a kind says what it stands
for; in particular, distinct functions of a program have no name in common, at whatever layers. -/
theorem names_injective (s t : Subject) (hs : s.Identifiers) (ht : t.Identifiers) :
    (s.name = t.name ↔ s.family = t.family ∧ s.text = t.text ∧ s.field? = t.field?) ∧
    (s.PointFree → t.PointFree → s.SameKind t → s.name = t.name → s = t) ∧
    ∀ (program : Source.Program) (options : Options) (c : Context),
      Context.ofProgram program options = .ok c →
      (∀ f ∈ c.functions, (Subject.path f.name).Identifiers ∧ (Subject.path f.name).PointFree) →
      c.functions.Pairwise fun f g => ∀ l k, layered f.name l ≠ layered g.name k := by
  refine ⟨Subject.name_eq_iff hs ht, fun hs' ht' hkind h => ?_,
    fun program options c hc hnames => ?_⟩
  · obtain ⟨hfamily, htext, hfield⟩ := (Subject.name_eq_iff hs ht).1 h
    exact Subject.eq_of_sameKind hkind hfamily (Subject.parts_eq hs' ht' htext) hfield
  · have hdistinct := List.pairwise_map.1 (Context.functions_distinct hc)
    refine hdistinct.imp_of_mem fun hf hg hne l k => ?_
    exact layered_ne (hnames _ hf).1 (hnames _ hg).1 (hnames _ hf).2 (hnames _ hg).2 hne l k

/-- A function of the module `M`. -/
def functionNamed (segments : List String) : Function :=
  { (default : Function) with name := ⟨"M", segments⟩ }

/-- The program with a class `M.C` that has two functions. -/
def twoFunctions (first second : List String) : Source.Program :=
  [⟨"M", [.cls { (default : Source.Class) with
    path := ⟨"M", ["C"]⟩
    functions := [functionNamed first, functionNamed second] }]⟩]

theorem names_injective_members :
    let cons : Subject := .ctor ⟨"M", ["List"]⟩ "Cons"
    let isCons : Subject := .isCtor ⟨"M.List", []⟩ "Cons"
    let list : Subject := .cls ⟨"M", ["List"]⟩
    let inner : Subject := .cls ⟨"M", ["List", "Cons"]⟩
    (cons.Identifiers ∧ isCons.Identifiers ∧ cons.name ≠ isCons.name) ∧
    (list.Identifiers ∧ inner.Identifiers ∧ list.PointFree ∧ inner.PointFree ∧ list.SameKind inner ∧
      list.name ≠ inner.name) ∧
    ∃ c, Context.ofProgram (twoFunctions ["C", "f"] ["C", "g"]) {} = .ok c ∧
      (∀ f ∈ c.functions, (Subject.path f.name).Identifiers ∧ (Subject.path f.name).PointFree) ∧
      c.functions.Pairwise fun f g => ∀ l k, layered f.name l ≠ layered g.name k := by
  intro cons isCons list inner
  have hcons : cons.Identifiers := by decide
  have hisCons : isCons.Identifiers := by decide
  have hlist : list.Identifiers ∧ list.PointFree := by decide
  have hinner : inner.Identifiers ∧ inner.PointFree := by decide
  obtain ⟨c, hc, hfunctions⟩ :
      ∃ c, Context.ofProgram (twoFunctions ["C", "f"] ["C", "g"]) {} = .ok c ∧
        c.functions = [functionNamed ["C", "g"], functionNamed ["C", "f"]] := ⟨_, rfl, rfl⟩
  have hnames : ∀ f ∈ c.functions,
      (Subject.path f.name).Identifiers ∧ (Subject.path f.name).PointFree := by
    rw [hfunctions]
    decide
  refine ⟨⟨hcons, hisCons, fun h => ?_⟩, ⟨hlist.1, hinner.1, hlist.2, hinner.2, trivial, fun h => ?_⟩,
    c, hc, hnames, (names_injective _ _ hcons hisCons).2.2 _ _ _ hc hnames⟩
  · exact absurd ((names_injective _ _ hcons hisCons).1.1 h).1 (by decide)
  · have heq := (names_injective _ _ hlist.1 hinner.1).2.1 hlist.2 hinner.2 trivial h
    exact absurd (congrArg Subject.parts heq) (by decide)

/-- The function `f` of the class `C` and the function `C.f` of the module are both accepted, but have
one name at every layer. -/
theorem members_share_names :
    ∃ c, Context.ofProgram (twoFunctions ["C", "f"] ["C.f"]) {} = .ok c ∧
      ∃ f ∈ c.functions, ∃ g ∈ c.functions, f.name ≠ g.name ∧
        (Subject.path f.name).Identifiers ∧ (Subject.path g.name).Identifiers ∧
        ∀ l, layered f.name l = layered g.name l :=
  ⟨_, rfl, _, .head _, _, .tail _ (.head _), by decide, by decide, by decide, fun _ => rfl⟩

end Naming

end ContractLowering
