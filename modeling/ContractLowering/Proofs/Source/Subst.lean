import ContractLowering.Proofs.Source.Recursor
import ContractLowering.Source.Subst

/-!
# Equations of substitution

`Expr.subst?` keeps track of whether anything changed. `Expr.subst` forgets it, and what is left
is substitution in every part, with the substitution of the scope below a binder. Where no binder
captures anything (`Subst.enter_of_noClash`) binders keep their names.
-/

namespace ContractLowering

/-! ## Names of copies -/

namespace Naming

theorem repr_inj {d k : Nat} (h : d.repr = k.repr) : d = k := by
  have hd := congrArg (fun s : String => Nat.ofDigitChars 10 s.toList 0) h
  simpa using hd

/-- A variable and its number are told from the copy. -/
theorem renamed_inj {x y : String} {n : Nat} (h : renamed x n = renamed y n) : x = y := by
  unfold renamed at h
  have h := congrArg String.toList h
  simp only [String.toList_append, List.append_left_inj] at h
  exact String.toList_inj.1 h

theorem renamed_number_inj {x : String} {n k : Nat} (h : renamed x n = renamed x k) : n = k := by
  unfold renamed at h
  have h := congrArg String.toList h
  simp only [String.toList_append, List.append_right_inj] at h
  exact repr_inj (String.toList_inj.1 h)

end Naming

namespace Source

/-! ## Whether anything changed -/

theorem getD_changed₂ {α β γ : Type} (build : α → β → γ) (a : α) (a' : Option α) (b : β)
    (b' : Option β) :
    (changed₂ build a a' b b').getD (build a b) = build (a'.getD a) (b'.getD b) := by
  cases a' <;> cases b' <;> rfl

theorem getD_changed₃ {α β γ δ : Type} (build : α → β → γ → δ) (a : α) (a' : Option α) (b : β)
    (b' : Option β) (c : γ) (c' : Option γ) :
    (changed₃ build a a' b b' c c').getD (build a b c) =
      build (a'.getD a) (b'.getD b) (c'.getD c) := by
  cases a' <;> cases b' <;> cases c' <;> rfl

theorem getD_map_build {α β : Type} (build : α → β) (a : α) (a' : Option α) :
    (a'.map build).getD (build a) = build (a'.getD a) := by
  cases a' <;> rfl

namespace Subst

theorem mem_of_lookup {l : List (String × Expr)} {x : String} {e : Expr}
    (h : l.lookup x = some e) : (x, e) ∈ l := by
  induction l with
  | nil => simp at h
  | cons p l ih =>
    obtain ⟨y, d⟩ := p
    rw [List.lookup_cons] at h
    split at h
    · rename_i hxy
      obtain rfl := Option.some.inj h
      simp [beq_iff_eq.1 hxy]
    · exact List.mem_cons_of_mem _ (ih h)

theorem lookup_filter {l : List (String × Expr)} (p : String → Bool) (x : String) :
    (l.filter fun entry => p entry.1).lookup x = if p x then l.lookup x else none := by
  induction l with
  | nil => simp
  | cons q l ih =>
    obtain ⟨y, d⟩ := q
    by_cases hxy : x = y
    · subst hxy
      cases hp : p x <;> simp [hp, ih]
    · have hne : (x == y) = false := beq_eq_false_iff_ne.2 hxy
      cases hp : p y <;> simp [hp, ih, List.lookup_cons, hne]

variable {s : Subst}

@[simp] theorem rebind_self (bs : List Binder) : rebind bs (bs.map (·.1)) = bs := by
  induction bs with
  | nil => rfl
  | cons b bs ih => simpa [rebind] using ih

theorem isIdentity_iff : s.isIdentity = true ↔ s.receiver = none ∧ s.map = [] := by
  simp [isIdentity]

/-- Binders that clash with nothing keep their names. -/
theorem renameClashes_of_noClash {clash : List String} {span : Span} {avoid : List String}
    {bs : List Binder} (h : ∀ b ∈ bs, b.1 ∉ clash) :
    renameClashes clash span avoid bs = (bs.map (·.1), []) := by
  induction bs with
  | nil => rfl
  | cons b bs ih =>
    have hb : clash.contains b.1 = false := by simpa using h b (by simp)
    have hbs := ih fun x hx => h x (by simp [hx])
    simp [renameClashes, hbs, h b (by simp)]

/-- Binders that capture no variable of what is carried below them keep their names. -/
theorem enter_of_noClash {bs : List Binder} {first : Expr} {others : List Expr}
    (h : ∀ b ∈ bs, b.1 ∉ (s.restrict (bs.map (·.1)) (first :: others)).valueVars) :
    s.enter bs first others = (s.restrict (bs.map (·.1)) (first :: others), bs.map (·.1)) := by
  unfold enter
  dsimp only
  split
  · rfl
  · rw [renameClashes_of_noClash h]
    rfl

/-- A substitution of nothing stays one below binders. -/
@[simp] theorem enter_empty (bs : List Binder) (first : Expr) (others : List Expr) :
    ({} : Subst).enter bs first others = ({}, bs.map (·.1)) := by
  have hnone : ({} : Subst).restrict (bs.map (·.1)) (first :: others) = {} := by
    simp [restrict]
  rw [enter_of_noClash, hnone]
  intro b _
  simp [hnone, valueVars, Expr.freeVars?]

end Subst

namespace Expr

/-- Substitution in a match case. -/
def substArm (s : Subst) (arm : Pattern × Expr) : Pattern × Expr :=
  let scope := s.enter arm.1.binders arm.2 []
  ({ arm.1 with binders := Subst.rebind arm.1.binders scope.2 }, arm.2.subst scope.1)

variable (s : Subst)

theorem getD_subst?Opt (o : Option Expr) : (subst?Opt s o).getD o = o.map (subst s) := by
  cases o with
  | none => rfl
  | some e =>
    show ((e.subst? s).map some).getD (some e) = some ((e.subst? s).getD e)
    cases e.subst? s <;> rfl

theorem getD_subst?List (es : List Expr) : (subst?List s es).getD es = es.map (subst s) := by
  induction es with
  | nil => rfl
  | cons e es ih => exact (getD_changed₂ ..).trans (congrArg (e.subst s :: ·) ih)

theorem getD_subst?Entries (kvs : List (Expr × Expr)) :
    (subst?Entries s kvs).getD kvs = kvs.map fun p => (p.1.subst s, p.2.subst s) := by
  induction kvs with
  | nil => rfl
  | cons p kvs ih =>
    refine (getD_changed₂ ..).trans ?_
    rw [ih, getD_changed₂]
    rfl

theorem getD_subst?Bindings (bs : List (String × Expr)) :
    (subst?Bindings s bs).getD bs = bs.map fun b => (b.1, b.2.subst s) := by
  induction bs with
  | nil => rfl
  | cons b bs ih =>
    refine (getD_changed₂ ..).trans ?_
    rw [ih]
    show ((b.2.subst? s).map (b.1, ·)).getD b :: _ = (b.1, (b.2.subst? s).getD b.2) :: _
    cases b.2.subst? s <;> rfl

theorem getD_subst?Arms (arms : List (Pattern × Expr)) :
    (subst?Arms s arms).getD arms = arms.map (substArm s) := by
  induction arms with
  | nil => rfl
  | cons arm arms ih =>
    obtain ⟨p, body⟩ := arm
    rw [subst?Arms, getD_changed₂, ih]
    congr 1
    simp only [substArm, subst]
    split
    · rename_i h
      simp only [Bool.and_eq_true, beq_iff_eq, Option.isNone_iff_eq_none] at h
      simp [h.1, h.2]
    · rfl

theorem getD_subst?Triggers (ts : List (List Expr)) :
    (subst?Triggers s ts).getD ts = ts.map fun t => t.map (subst s) := by
  induction ts with
  | nil => rfl
  | cons t ts ih =>
    refine (getD_changed₂ ..).trans ?_
    rw [ih, getD_subst?List]
    rfl

variable {s} {i : Info} {a b c e : Expr}

@[simp] theorem subst_bool {x : Bool} : (bool i x).subst s = .bool i x := rfl

@[simp] theorem subst_int {n : Int} : (int i n).subst s = .int i n := rfl

@[simp] theorem subst_null : (null i).subst s = .null i := rfl

@[simp] theorem subst_var {x : String} :
    (var i x).subst s = (s.map.lookup x).getD (.var i x) := rfl

@[simp] theorem subst_this : (this i).subst s = s.receiver.getD (.this i) := rfl

theorem getD_map_subst? (f : Expr → Expr) :
    ((e.subst? s).map f).getD (f e) = f (e.subst s) :=
  getD_map_build ..

@[simp] theorem subst_field {f : FieldId} : (field i e f).subst s = .field i (e.subst s) f :=
  getD_map_subst? (.field i · f)

@[simp] theorem subst_index : (index i a b).subst s = .index i (a.subst s) (b.subst s) :=
  getD_changed₂ ..

@[simp] theorem subst_slice {lo hi : Option Expr} :
    (slice i e lo hi).subst s = .slice i (e.subst s) (lo.map (subst s)) (hi.map (subst s)) := by
  rw [← getD_subst?Opt, ← getD_subst?Opt]
  exact getD_changed₃ ..

@[simp] theorem subst_update :
    (update i a b c).subst s = .update i (a.subst s) (b.subst s) (c.subst s) :=
  getD_changed₃ ..

@[simp] theorem subst_arrayLength : (arrayLength i e).subst s = .arrayLength i (e.subst s) :=
  getD_map_subst? (.arrayLength i)

@[simp] theorem subst_display {k : Collection} {es : List Expr} :
    (display i k es).subst s = .display i k (es.map (subst s)) := by
  rw [← getD_subst?List]
  exact getD_map_build ..

@[simp] theorem subst_mapDisplay {kvs : List (Expr × Expr)} :
    (mapDisplay i kvs).subst s =
      .mapDisplay i (kvs.map fun p => (p.1.subst s, p.2.subst s)) := by
  rw [← getD_subst?Entries]
  exact getD_map_build ..

@[simp] theorem subst_ctor {d : Path} {k : String} {es : List Expr} :
    (ctor i d k es).subst s = .ctor i d k (es.map (subst s)) := by
  rw [← getD_subst?List]
  exact getD_map_build ..

@[simp] theorem subst_destruct {d : Path} {k f : String} :
    (destruct i e d k f).subst s = .destruct i (e.subst s) d k f :=
  getD_map_subst? (.destruct i · d k f)

@[simp] theorem subst_isCtor {d : Path} {k : String} :
    (isCtor i e d k).subst s = .isCtor i (e.subst s) d k :=
  getD_map_subst? (.isCtor i · d k)

@[simp] theorem subst_old : (old i e).subst s = .old i (e.subst s) := getD_map_subst? (.old i)

@[simp] theorem subst_fresh : (fresh i e).subst s = .fresh i (e.subst s) :=
  getD_map_subst? (.fresh i)

@[simp] theorem subst_unary {op : UnOp} : (unary i op e).subst s = .unary i op (e.subst s) :=
  getD_map_subst? (.unary i op)

@[simp] theorem subst_binary {op : BinOp} :
    (binary i op a b).subst s = .binary i op (a.subst s) (b.subst s) :=
  getD_changed₂ ..

@[simp] theorem subst_ite : (ite i a b c).subst s = .ite i (a.subst s) (b.subst s) (c.subst s) :=
  getD_changed₃ ..

@[simp] theorem subst_cases {arms : List (Pattern × Expr)} :
    (cases i e arms).subst s = .cases i (e.subst s) (arms.map (substArm s)) := by
  rw [← getD_subst?Arms]
  exact getD_changed₂ ..

@[simp] theorem subst_call {f : Path} {r : Option Expr} {es : List Expr} :
    (call i f r es).subst s = .call i f (r.map (subst s)) (es.map (subst s)) := by
  rw [← getD_subst?Opt, ← getD_subst?List]
  exact getD_changed₂ ..

theorem subst_quant {q : Quantifier} {bs : List Binder} {r : Option Expr} {ts : List (List Expr)}
    {ind : Induction} :
    (quant i q bs r b ts ind).subst s =
      let scope := s.enter bs b (r.toList ++ ts.flatten)
      .quant i q (Subst.rebind bs scope.2) (r.map (subst scope.1)) (b.subst scope.1)
        (ts.map fun t => t.map (subst scope.1)) ind := by
  rw [subst, subst?]
  dsimp only
  rw [← getD_subst?Opt, ← getD_subst?Triggers]
  split
  · rename_i h
    simp only [Bool.and_eq_true, beq_iff_eq, Option.isNone_iff_eq_none] at h
    simp [h, subst]
  · rfl

theorem subst_setComp {bs : List Binder} {r : Expr} {t : Option Expr}
    (h : (s.enter bs r t.toList).2 = bs.map (·.1)) :
    (setComp i bs r t).subst s =
      let scope := s.enter bs r t.toList
      .setComp i bs (r.subst scope.1) (t.map (subst scope.1)) := by
  rw [subst, subst?]
  dsimp only
  rw [← getD_subst?Opt, if_pos (by simpa using h)]
  split
  · rename_i h
    simp only [Bool.and_eq_true, Option.isNone_iff_eq_none] at h
    simp [h, subst]
  · rfl

theorem subst_mapComp {b : Binder} {r t : Expr} :
    (mapComp i b r t).subst s =
      let scope := s.enter [b] r [t]
      .mapComp i (scope.2.headD b.1, b.2) (r.subst scope.1) (t.subst scope.1) := by
  rw [subst, subst?]
  dsimp only
  split
  · rename_i h
    simp only [Bool.and_eq_true, beq_iff_eq, Option.isNone_iff_eq_none] at h
    simp [h, subst]
  · rfl

theorem subst_letIn {bs : List (String × Expr)} :
    (letIn i bs b).subst s =
      let scope := s.enter (bs.map fun p => (p.1, p.2.typ)) b []
      .letIn i (scope.2.zip (bs.map (·.2.subst s))) (b.subst scope.1) := by
  rw [subst, subst?]
  dsimp only
  have hvalues : bs.map (·.2.subst s) = ((subst?Bindings s bs).getD bs).map (·.2) := by
    rw [getD_subst?Bindings, List.map_map]; rfl
  rw [hvalues]
  split
  · rename_i h
    simp only [Bool.and_eq_true, beq_iff_eq, Option.isNone_iff_eq_none] at h
    simp [h, subst, List.zip_map']
  · rfl

/-- Substituting nothing changes nothing. -/
@[simp] theorem subst_empty (e : Expr) : e.subst {} = e := by
  have hmap {α : Type} {l : List α} {f : α → α} (h : ∀ a ∈ l, f a = a) : l.map f = l :=
    (List.map_congr_left h).trans (List.map_id l)
  have hopt {o : Option Expr} (h : ∀ a ∈ o, a.subst {} = a) : o.map (subst {}) = o := by
    cases o with
    | none => rfl
    | some a => rw [Option.map_some, h a rfl]
  induction e using Expr.recData with
  | bool | int | null | var | this => rfl
  | field i e f ih => rw [subst_field, ih]
  | index i a b iha ihb => rw [subst_index, iha, ihb]
  | slice i e lo hi ih ihlo ihhi => rw [subst_slice, ih, hopt ihlo, hopt ihhi]
  | update i a b c iha ihb ihc => rw [subst_update, iha, ihb, ihc]
  | arrayLength i e ih => rw [subst_arrayLength, ih]
  | display i k es ih => rw [subst_display, hmap ih]
  | mapDisplay i kvs ih =>
    rw [subst_mapDisplay, hmap fun p hp => by rw [(ih p hp).1, (ih p hp).2]]
  | ctor i d c es ih => rw [subst_ctor, hmap ih]
  | destruct i e d c f ih => rw [subst_destruct, ih]
  | isCtor i e d c ih => rw [subst_isCtor, ih]
  | old i e ih => rw [subst_old, ih]
  | fresh i e ih => rw [subst_fresh, ih]
  | unary i op e ih => rw [subst_unary, ih]
  | binary i op a b iha ihb => rw [subst_binary, iha, ihb]
  | quant i q bs r b ts ind ihr ihb iht =>
    rw [subst_quant]
    simp only [Subst.enter_empty, Subst.rebind_self]
    rw [ihb, hopt ihr, hmap fun t ht => hmap (iht t ht)]
  | setComp i bs r t ihr iht =>
    rw [subst_setComp (by simp)]
    simp only [Subst.enter_empty]
    rw [ihr, hopt iht]
  | mapComp i b r t ihr iht =>
    rw [subst_mapComp]
    simp only [Subst.enter_empty, List.map_cons, List.map_nil, List.headD_cons]
    rw [ihr, iht]
  | letIn i bs b ihbs ihb =>
    rw [subst_letIn]
    simp only [Subst.enter_empty, List.map_map]
    rw [ihb, List.zip_map', hmap fun p hp => by rw [ihbs p hp]; rfl]
  | ite i a b c iha ihb ihc => rw [subst_ite, iha, ihb, ihc]
  | cases i e arms ihe iharms =>
    rw [subst_cases, ihe, hmap fun p hp => ?_]
    simp only [substArm, Subst.enter_empty, Subst.rebind_self]
    rw [iharms p hp]
  | call i f r es ihr ihes => rw [subst_call, hopt ihr, hmap ihes]

end Expr

end Source

end ContractLowering
