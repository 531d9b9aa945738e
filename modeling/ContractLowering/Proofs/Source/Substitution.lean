import ContractLowering.Proofs.Source.Semantics
import ContractLowering.Proofs.Source.Subst
import Mathlib

/-!
# Substitution means what it says

An expression with a substitution applied has the value of the expression itself in the environment
in which replacing expressions answer for what they replace (`Expr.substMeans`), each in the state
in which it is asked and in the environment outside. Its free variables are those that were not
replaced, and those of the expressions that replaced something (`Expr.substFrees`).

Both follow from what `Subst.enter` does at binders (`Subst.Opens`): what is carried into a scope
mentions no name that is bound there, and a renamed binder stands at the place of the old one.
-/

namespace ContractLowering.Source

/-! ## Renaming binders -/

/-- There are more candidates than names to avoid. -/
theorem freshName_notMem (avoid : List String) (x : String) : freshName avoid x ∉ avoid := by
  have hnodup : ((List.range (avoid.length + 1)).map fun n => Naming.renamed x (n + 1)).Nodup :=
    List.nodup_range.map fun n k h => Nat.succ.inj (Naming.renamed_number_inj h)
  have hfree : ∃ y ∈ (List.range (avoid.length + 1)).map fun n => Naming.renamed x (n + 1),
      (!avoid.contains y) = true := by
    by_contra hall
    simp only [not_exists, not_and, Bool.not_eq_true, Bool.not_eq_false', List.contains_eq_mem,
      decide_eq_true_eq] at hall
    have hle := (List.subperm_of_subset hnodup hall).length_le
    simp only [List.length_map, List.length_range] at hle
    omega
  obtain ⟨y, hy⟩ := Option.isSome_iff_exists.1 (List.find?_isSome.2 hfree)
  rw [freshName, hy]
  simpa using List.find?_some hy

namespace Subst

theorem lookup_bind (map : List (String × Expr)) (b : String × Expr) (x : String) :
    (bind map b).lookup x = if x = b.1 then some b.2 else map.lookup x := by
  rw [bind, List.lookup_cons]
  by_cases hx : x = b.1
  · simp [hx]
  · rw [beq_eq_false_iff_ne.2 hx, if_neg hx]
    simp [lookup_filter fun y => y != b.1, hx]

/-- Binders with names apart from the clashing ones. Other names are at the same places as before,
and a variable that stands for a renamed binder is at the place of that binder. -/
structure Renamed (clash avoid bound names : List String) (renames : List (String × Expr)) :
    Prop where
  length : names.length = bound.length
  apart : ∀ y ∈ names, y ∉ clash
  fresh : ∀ y ∈ names, y ∈ bound ∨ y ∉ avoid
  kept : ∀ x ∈ avoid, x ∉ clash → lastIndex names x = lastIndex bound x
  renamed : ∀ x ∈ bound, x ∈ clash → ∀ map, ∃ i y,
    (renames.foldl bind map).lookup x = some (.var i y) ∧ lastIndex names y = lastIndex bound x
  others : ∀ x, x ∉ clash ∨ x ∉ bound → ∀ map,
    (renames.foldl bind map).lookup x = map.lookup x

variable {s inner : Subst} {clash avoid bound names : List String} {scope : List Expr}

theorem Renamed.keep {renames : List (String × Expr)} {x : String} (hx : x ∉ clash)
    (h : Renamed clash avoid bound names renames) :
    Renamed clash avoid (x :: bound) (x :: names) renames where
  length := by simp [h.length]
  apart := by simpa [hx] using h.apart
  fresh := by
    intro y hy
    rcases List.mem_cons.1 hy with rfl | hy
    · simp
    · exact (h.fresh y hy).imp (List.mem_cons_of_mem _) id
  kept := by
    intro y hy hclash
    rw [lastIndex, lastIndex, h.kept y hy hclash]
  renamed := by
    intro y hy hclash map
    have hne : x ≠ y := fun heq => hx (heq ▸ hclash)
    obtain ⟨i, z, hz, hplace⟩ := h.renamed y ((List.mem_cons.1 hy).resolve_left hne.symm) hclash map
    refine ⟨i, z, hz, ?_⟩
    have hmem : y ∈ bound := (List.mem_cons.1 hy).resolve_left hne.symm
    obtain ⟨n, hn⟩ := Option.ne_none_iff_exists'.1 (mt lastIndex_eq_none.1 (not_not.2 hmem))
    simp only [lastIndex, hplace, hn]
  others := by
    intro y hy map
    exact h.others y (hy.imp id fun hy => by simp_all) map

theorem Renamed.rename {renames : List (String × Expr)} {x y : String} {i : Info}
    (hx : x ∈ clash) (hclash : ∀ z ∈ clash, z ∈ avoid) (hbound : ∀ z ∈ bound, z ∈ avoid)
    (hy : y ∉ avoid) (h : Renamed clash (y :: avoid) bound names renames) :
    Renamed clash avoid (x :: bound) (y :: names) ((x, .var i y) :: renames) where
  length := by simp [h.length]
  apart := by
    intro z hz
    rcases List.mem_cons.1 hz with rfl | hz
    · exact fun hz => hy (hclash _ hz)
    · exact h.apart z hz
  fresh := by
    intro z hz
    rcases List.mem_cons.1 hz with rfl | hz
    · exact .inr hy
    · exact (h.fresh z hz).imp (List.mem_cons_of_mem _) fun hz => by simp_all
  kept := by
    intro z hz hz'
    have hyz : y ≠ z := fun heq => hy (heq ▸ hz)
    have hxz : x ≠ z := fun heq => hz' (heq ▸ hx)
    rw [lastIndex, lastIndex, h.kept z (List.mem_cons_of_mem _ hz) hz', if_neg hyz, if_neg hxz]
  renamed := by
    intro z hz hz' map
    rw [List.foldl_cons]
    by_cases hmem : z ∈ bound
    · obtain ⟨j, w, hw, hplace⟩ := h.renamed z hmem hz' (bind map (x, .var i y))
      obtain ⟨n, hn⟩ := Option.ne_none_iff_exists'.1 (mt lastIndex_eq_none.1 (not_not.2 hmem))
      exact ⟨j, w, hw, by simp only [lastIndex, hplace, hn]⟩
    · obtain rfl : z = x := (List.mem_cons.1 hz).resolve_right hmem
      -- the new name is at no later place
      have hnames : y ∉ names := fun hmem' => by
        rcases h.fresh y hmem' with hb | hb
        · exact hy (hbound y hb)
        · simp at hb
      refine ⟨i, y, by rw [h.others z (.inr hmem), lookup_bind, if_pos rfl], ?_⟩
      simp [lastIndex, lastIndex_eq_none.2 hnames, lastIndex_eq_none.2 hmem]
  others := by
    intro z hz map
    have hzx : z ≠ x := by
      rintro rfl
      rcases hz with hz | hz
      · exact hz hx
      · exact hz List.mem_cons_self
    rw [List.foldl_cons, h.others z (hz.imp id fun hz => by simp_all), lookup_bind, if_neg hzx]

theorem renamed_renameClashes (span : Span) {bs : List Binder} (hclash : ∀ z ∈ clash, z ∈ avoid)
    (hbs : ∀ b ∈ bs, b.1 ∈ avoid) : Renamed clash avoid (bs.map (·.1))
      (renameClashes clash span avoid bs).1 (renameClashes clash span avoid bs).2 := by
  induction bs generalizing avoid with
  | nil => exact ⟨rfl, by simp [renameClashes], by simp [renameClashes], fun _ _ _ => rfl,
      by simp, fun _ _ _ => rfl⟩
  | cons b bs ih =>
    by_cases hb : b.1 ∈ clash
    · have hrest := ih (fun z hz => List.mem_cons_of_mem (freshName avoid b.1) (hclash z hz))
        fun d hd => List.mem_cons_of_mem _ (hbs d (by simp [hd]))
      have hone := hrest.rename (i := ⟨span, b.2⟩) hb hclash
        (fun z hz => by
          obtain ⟨d, hd, rfl⟩ := List.mem_map.1 hz
          exact hbs d (by simp [hd])) (freshName_notMem avoid b.1)
      simpa [renameClashes, hb, Expr.mkVar] using hone
    · have hrest := ih hclash fun d hd => hbs d (by simp [hd])
      simpa [renameClashes, hb] using hrest.keep hb

/-! ## Entering scopes -/

/-- What is carried into a scope where names are bound as others. It does what the substitution
does outside to whatever occurs free in the scope, mentions nothing that is bound there, and leads
from each variable that was bound to the place where it is bound now. -/
structure Opens (s : Subst) (bound : List String) (scope : List Expr) (inner : Subst)
    (names : List String) : Prop where
  length : names.length = bound.length
  receiver : ∀ e ∈ scope, e.mentionsThis = true → inner.receiver = s.receiver
  receiver_apart : ∀ r ∈ inner.receiver, ∀ y ∈ r.freeVars, y ∉ names
  outside : ∀ e ∈ scope, ∀ x ∈ e.freeVars, x ∉ bound →
    x ∉ names ∧ inner.map.lookup x = s.map.lookup x
  apart : ∀ x ∉ bound, ∀ r ∈ inner.map.lookup x, ∀ y ∈ r.freeVars, y ∉ names
  inside : ∀ x ∈ bound, (inner.map.lookup x = none ∧ lastIndex names x = lastIndex bound x) ∨
    ∃ i y, inner.map.lookup x = some (.var i y) ∧ lastIndex names y = lastIndex bound x

/-- Where nothing is bound, all is carried on. -/
theorem Opens.refl (s : Subst) (scope : List Expr) : Opens s [] scope s [] where
  length := rfl
  receiver _ _ _ := rfl
  receiver_apart := by simp
  outside := by simp
  apart := by simp
  inside := by simp

theorem lookup_restrict (s : Subst) (bound : List String) (scope : List Expr) (x : String) :
    (s.restrict bound scope).map.lookup x =
      if (∃ e ∈ scope, x ∈ e.freeVars) ∧ x ∉ bound then s.map.lookup x else none := by
  simp only [restrict, List.contains_eq_mem]
  rw [lookup_filter fun y => decide (y ∈ scope.flatMap Expr.freeVars) && !decide (y ∈ bound)]
  simp

theorem mem_valueVars {x : String} : x ∈ s.valueVars ↔
    (∃ p ∈ s.map, x ∈ p.2.freeVars) ∨ ∃ r ∈ s.receiver, x ∈ r.freeVars := by
  simp only [valueVars, List.mem_append, List.mem_flatMap, Expr.mem_freeVars?]

/-- Where nothing is carried on, binders keep their names. -/
theorem opens_of_isIdentity (h : (s.restrict bound scope).isIdentity = true) :
    Opens s bound scope (s.restrict bound scope) bound := by
  obtain ⟨hreceiver, hmap⟩ := isIdentity_iff.1 h
  have hlookup (x : String) : (s.restrict bound scope).map.lookup x = none := by rw [hmap]; rfl
  exact {
    length := rfl
    receiver := fun e he hthis => if_pos (List.any_eq_true.2 ⟨e, he, hthis⟩)
    receiver_apart := by simp [hreceiver]
    outside := fun e he x hx hbound =>
      ⟨hbound, by rw [lookup_restrict, if_pos ⟨⟨e, he, hx⟩, hbound⟩]⟩
    apart := by simp [hlookup]
    inside := fun x _ => .inl ⟨hlookup x, rfl⟩ }

/-- Otherwise binders are renamed apart from the free variables of what is carried on. -/
theorem opens_of_renamed {renames : List (String × Expr)}
    (hscope : ∀ e ∈ scope, ∀ x ∈ e.freeVars, x ∈ avoid) (hbound : ∀ x ∈ bound, x ∈ avoid)
    (h : Renamed (s.restrict bound scope).valueVars avoid bound names renames) :
    Opens s bound scope
      { s.restrict bound scope with map := renames.foldl bind (s.restrict bound scope).map }
      names where
  length := h.length
  receiver e he hthis := if_pos (List.any_eq_true.2 ⟨e, he, hthis⟩)
  receiver_apart r hr y hy hname := h.apart y hname (mem_valueVars.2 (.inr ⟨r, hr, hy⟩))
  outside e he x hx hout := by
    refine ⟨fun hname => ?_, ?_⟩
    · exact (h.fresh x hname).elim hout fun hfresh => hfresh (hscope e he x hx)
    · rw [h.others x (.inr hout), lookup_restrict, if_pos ⟨⟨e, he, hx⟩, hout⟩]
  apart x hout r hr y hy hname := by
    rw [h.others x (.inr hout)] at hr
    exact h.apart y hname (mem_valueVars.2 (.inl ⟨(x, r), mem_of_lookup hr, hy⟩))
  inside x hx := by
    by_cases hclash : x ∈ (s.restrict bound scope).valueVars
    · exact .inr (h.renamed x hx hclash _)
    · refine .inl ⟨?_, h.kept x (hbound x hx) hclash⟩
      rw [h.others x (.inl hclash), lookup_restrict, if_neg fun h => h.2 hx]

theorem enter_opens (s : Subst) (bs : List Binder) (first : Expr) (others : List Expr) :
    Opens s (bs.map (·.1)) (first :: others) (s.enter bs first others).1
      (s.enter bs first others).2 := by
  rw [enter]
  dsimp only
  split
  · rename_i hidentity
    exact opens_of_isIdentity hidentity
  · refine opens_of_renamed (fun e he x hx => ?_) (fun x hx => ?_)
      (renamed_renameClashes first.span (fun z hz => ?_) fun b hb => ?_)
    · exact List.mem_append_left _ (List.mem_append_right _ (List.mem_flatMap.2 ⟨e, he, hx⟩))
    · exact List.mem_append_right _ hx
    · exact List.mem_append_left _ (List.mem_append_left _ hz)
    · exact List.mem_append_right _ (List.mem_map_of_mem hb)

theorem length_enter (s : Subst) (bs : List Binder) (first : Expr) (others : List Expr) :
    (s.enter bs first others).2.length = bs.length := by
  simpa using (enter_opens s bs first others).length

theorem rebind_names {bs : List Binder} (h : names.length = bs.length) :
    (rebind bs names).map (·.1) = names := by
  rw [rebind, List.map_map]
  exact List.map_snd_zip (by omega)

theorem rebind_types {bs : List Binder} (h : names.length = bs.length) :
    (rebind bs names).map (·.2) = bs.map (·.2) := by
  rw [rebind, List.map_map]
  show (bs.zip names).map ((·.2) ∘ Prod.fst) = _
  rw [← List.map_map, List.map_fst_zip (by omega)]

end Subst

/-! ## Values -/

section

variable {M : Meaning} {old h : M.State} {ρ : M.Env} {s inner : Subst} {e : Expr}
  {bound names : List String} {scope : List Expr}

/-- The environment in which what a substitution replaces stands for what replaces it. -/
def Meaning.Env.under (old : M.State) (s : Subst) (ρ : M.Env) : M.Env where
  this h := match s.receiver with
    | some r => r.meaning M old h ρ
    | none => ρ.this h
  var x h := match s.map.lookup x with
    | some r => r.meaning M old h ρ
    | none => ρ.var x h

namespace Meaning.Env

theorem under_this_some {r : Expr} (hr : s.receiver = some r) :
    (ρ.under old s).this = fun h => r.meaning M old h ρ := by
  simp only [under, hr]

theorem under_this_none (hr : s.receiver = none) : (ρ.under old s).this = ρ.this := by
  simp only [under, hr]

theorem under_var_some {x : String} {r : Expr} (hr : s.map.lookup x = some r) :
    (ρ.under old s).var x = fun h => r.meaning M old h ρ := by
  simp only [under, hr]

theorem under_var_none {x : String} (hr : s.map.lookup x = none) :
    (ρ.under old s).var x = ρ.var x := by
  simp only [under, hr]

/-- Names that do not occur free may be bound. -/
theorem agreeOn_bind (he : ∀ x ∈ e.freeVars, x ∉ names) (a : Nat → M.Val) :
    ρ.AgreeOn (ρ.bind names a) e where
  var x hx := (bind_of_notMem (he x hx) a).symm
  this _ := rfl

end Meaning.Env

open Meaning.Env in
/-- In a scope, what is carried in does what the substitution does outside. -/
theorem Subst.Opens.agreeOn (ho : Opens s bound scope inner names) (he : e ∈ scope)
    (a : Nat → M.Val) :
    ((ρ.under old s).bind bound a).AgreeOn ((ρ.bind names a).under old inner) e where
  var := by
    intro x hx
    by_cases hbound : x ∈ bound
    · obtain ⟨n, hn⟩ := Option.ne_none_iff_exists'.1 (mt lastIndex_eq_none.1 (not_not.2 hbound))
      rw [bind_of_lastIndex hn]
      rcases ho.inside x hbound with ⟨hnone, hplace⟩ | ⟨i, y, hsome, hplace⟩
      · rw [under_var_none hnone, bind_of_lastIndex (hplace.trans hn)]
      · rw [under_var_some hsome]
        simp only [Expr.meaning_var, bind_of_lastIndex (hplace.trans hn)]
    · obtain ⟨hname, hlookup⟩ := ho.outside e he x hx hbound
      rw [bind_of_notMem hbound]
      cases hr : inner.map.lookup x with
      | none => rw [under_var_none hr, under_var_none (hlookup ▸ hr), bind_of_notMem hname]
      | some r =>
        rw [under_var_some hr, under_var_some (hlookup ▸ hr)]
        exact funext fun h => Expr.meaning_congr (agreeOn_bind (ho.apart x hbound r hr) a) h
  this := by
    intro hthis
    rw [bind_this]
    have hreceiver := ho.receiver e he hthis
    cases hr : inner.receiver with
    | none => rw [under_this_none hr, under_this_none (hreceiver ▸ hr), bind_this]
    | some r =>
      rw [under_this_some hr, under_this_some (hreceiver ▸ hr)]
      exact funext fun h => Expr.meaning_congr (agreeOn_bind (ho.receiver_apart r hr) a) h

namespace Expr

/-- That an expression means with a substitution what it means under it. -/
def SubstMeans (M : Meaning) (old : M.State) (e : Expr) : Prop :=
  ∀ s h ρ, (e.subst s).meaning M old h ρ = e.meaning M old h (ρ.under old s)

theorem SubstMeans.inScope (ih : e.SubstMeans M old) (ho : Subst.Opens s bound scope inner names)
    (he : e ∈ scope) (a : Nat → M.Val) : (e.subst inner).meaning M old h (ρ.bind names a) =
      e.meaning M old h ((ρ.under old s).bind bound a) := by
  rw [ih]
  exact (meaning_congr (ho.agreeOn he a) h).symm

theorem setComp_subst_eq (s : Subst) (i : Info) (bs : List Binder) (r : Expr)
    (t : Option Expr) :
    ∃ t', (setComp i bs r t).subst s =
        .setComp i (Subst.rebind bs (s.enter bs r t.toList).2)
          (r.subst (s.enter bs r t.toList).1) t' ∧
      (t' = t.map (subst (s.enter bs r t.toList).1) ∨
        t = none ∧ ∃ j x xs, (s.enter bs r t.toList).2 = x :: xs ∧ t' = some (.var j x) ∧
          ∃ b ∈ bs.head?, j.typ = b.2) := by
  by_cases hnames : (s.enter bs r t.toList).2 = bs.map (·.1)
  · refine ⟨_, ?_, .inl rfl⟩
    rw [subst_setComp hnames, hnames, Subst.rebind_self]
  · obtain ⟨x, xs, hx⟩ : ∃ x xs, (s.enter bs r t.toList).2 = x :: xs := by
      have hlength := Subst.length_enter s bs r t.toList
      cases hnew : (s.enter bs r t.toList).2 with
      | cons x xs => exact ⟨x, xs, rfl⟩
      | nil =>
        have hbs : bs = [] := List.length_eq_zero_iff.1 (by rw [← hlength, hnew]; rfl)
        exact absurd (by rw [hnew, hbs]; rfl) hnames
    obtain ⟨b, bs', rfl⟩ : ∃ b bs', bs = b :: bs' := by
      have hlength := Subst.length_enter s bs r t.toList
      cases bs with
      | cons b bs => exact ⟨b, bs, rfl⟩
      | nil => simp [hx] at hlength
    have hsubst : (setComp i (b :: bs') r t).subst s =
        .setComp i (Subst.rebind (b :: bs') (s.enter (b :: bs') r t.toList).2)
          (r.subst (s.enter (b :: bs') r t.toList).1)
          (if t.isNone then some (.mkVar r.span x b.2)
            else t.map (subst (s.enter (b :: bs') r t.toList).1)) := by
      rw [← getD_subst?Opt, subst, subst?]
      dsimp only
      rw [if_neg (by simpa using hnames)]
      simp only [hx, subst]
      rfl
    refine ⟨_, hsubst, ?_⟩
    cases t with
    | none => exact .inr ⟨rfl, _, x, xs, hx, rfl, b, rfl, rfl⟩
    | some d => exact .inl rfl

theorem SubstMeans.map {es : List Expr} (ih : ∀ e ∈ es, e.SubstMeans M old) :
    (es.map (subst s)).map (fun e => e.meaning M old h ρ) =
      es.map fun e => e.meaning M old h (ρ.under old s) := by
  rw [List.map_map]
  exact List.map_congr_left fun e he => ih e he s h ρ

theorem SubstMeans.option {o : Option Expr} (ih : ∀ e ∈ o, e.SubstMeans M old) :
    (o.map (subst s)).map (fun e => e.meaning M old h ρ) =
      o.map fun e => e.meaning M old h (ρ.under old s) := by
  rw [Option.map_map]
  exact Option.map_congr fun e he => ih e he s h ρ

/-- A set comprehension without a term collects its single bound variable: without a term it has
exactly one. -/
def Collects (e : Expr) : Prop := ∀ i bs r, setComp i bs r none ∈ e.subexprs → bs.length = 1

theorem Collects.part (h : e.Collects) {p : List String × Expr} (hp : p ∈ e.parts) :
    p.2.Collects :=
  fun i bs r hmem => h i bs r (mem_subexprs.2 (.inr ⟨p, hp, hmem⟩))

/-- What an expression means with a substitution is made of what its parts mean. -/
theorem substMeans_of_parts (hone : ∀ i bs r, e = setComp i bs r none → bs.length = 1)
    (hparts : ∀ p ∈ e.parts, p.2.SubstMeans M old) : e.SubstMeans M old := by
  have plain {d : Expr} (hd : ([], d) ∈ e.parts) : d.SubstMeans M old := hparts _ hd
  intro s h ρ
  cases e with
  | bool | int | null => rfl
  | var i x =>
    rw [subst_var, meaning_var]
    cases hx : s.map.lookup x with
    | none => rw [Meaning.Env.under_var_none hx]; rfl
    | some r => rw [Meaning.Env.under_var_some hx]; rfl
  | this i =>
    rw [subst_this, meaning_this]
    cases hr : s.receiver with
    | none => rw [Meaning.Env.under_this_none hr]; rfl
    | some r => rw [Meaning.Env.under_this_some hr]; rfl
  | field i e f => rw [subst_field, meaning_field, meaning_field, plain (by simp [parts])]
  | index i a b =>
    rw [subst_index, meaning_index, meaning_index, plain (by simp [parts]), plain (by simp [parts])]
  | slice i e lo hi =>
    rw [subst_slice, meaning_slice, meaning_slice, plain (by simp [parts]),
      SubstMeans.option fun d hd => plain (by simp [parts, Option.mem_def.1 hd]),
      SubstMeans.option fun d hd => plain (by simp [parts, Option.mem_def.1 hd])]
  | update i a b c =>
    rw [subst_update, meaning_update, meaning_update, plain (by simp [parts]),
      plain (by simp [parts]), plain (by simp [parts])]
  | arrayLength i e =>
    rw [subst_arrayLength, meaning_arrayLength, meaning_arrayLength, plain (by simp [parts])]
  | display i k es =>
    rw [subst_display, meaning_display, meaning_display,
      SubstMeans.map fun d hd => plain (by simp [parts, hd])]
  | mapDisplay i kvs =>
    rw [subst_mapDisplay, meaning_mapDisplay, meaning_mapDisplay, List.map_map]
    refine congrArg _ (List.map_congr_left fun p hp => Prod.ext ?_ ?_)
    · exact plain (d := p.1) (by simpa [parts] using .inl ⟨p.2, hp⟩) s h ρ
    · exact plain (d := p.2) (by simpa [parts] using .inr ⟨p.1, hp⟩) s h ρ
  | ctor i d k es =>
    rw [subst_ctor, meaning_ctor, meaning_ctor,
      SubstMeans.map fun d hd => plain (by simp [parts, hd])]
  | destruct i e d k f =>
    rw [subst_destruct, meaning_destruct, meaning_destruct, plain (by simp [parts])]
  | isCtor i e d k => rw [subst_isCtor, meaning_isCtor, meaning_isCtor, plain (by simp [parts])]
  | old i e => rw [subst_old, meaning_old, meaning_old, plain (by simp [parts])]
  | fresh i e => rw [subst_fresh, meaning_fresh, meaning_fresh, plain (by simp [parts])]
  | unary i op e => rw [subst_unary, meaning_unary, meaning_unary, plain (by simp [parts])]
  | binary i op a b =>
    rw [subst_binary, meaning_binary, meaning_binary, plain (by simp [parts]),
      plain (by simp [parts])]
  | quant i q bs r b ts ind =>
    have below {d : Expr} (hd : d ∈ b :: (r.toList ++ ts.flatten)) (a : Nat → M.Val) :=
      (hparts _ (List.mem_map_of_mem hd)).inScope (h := h) (ρ := ρ)
        (s.enter_opens bs b (r.toList ++ ts.flatten)) hd a
    have hlength := s.length_enter bs b (r.toList ++ ts.flatten)
    rw [subst_quant]
    dsimp only
    rw [meaning_quant, meaning_quant, Subst.rebind_names hlength, Subst.rebind_types hlength,
      Option.map_map]
    congr 1
    · exact Option.map_congr fun d hd => funext fun a => below (by simp [hd]) a
    · exact funext fun a => below (by simp) a
  | setComp i bs r t =>
    have below {d : Expr} (hd : d ∈ r :: t.toList) (a : Nat → M.Val) :=
      (hparts _ (List.mem_map_of_mem hd)).inScope (h := h) (ρ := ρ)
        (s.enter_opens bs r t.toList) hd a
    have hlength := s.length_enter bs r t.toList
    obtain ⟨t', hsubst, ht'⟩ := setComp_subst_eq s i bs r t
    rw [hsubst, meaning_setComp, meaning_setComp, Subst.rebind_names hlength,
      Subst.rebind_types hlength]
    congr 1
    · exact funext fun a => below (by simp) a
    · funext a
      rcases ht' with rfl | ⟨rfl, j, x, xs, hnames, rfl, -⟩
      · cases t with
        | none => rfl
        | some d => exact below (by simp) a
      · -- the only name is bound to the only value
        rw [hone i bs r rfl, hnames, List.length_cons, Nat.add_eq_right,
          List.length_eq_zero_iff] at hlength
        rw [hnames, hlength]
        simp [Meaning.Env.bind, lastIndex]
  | mapComp i b r t =>
    have hopens := s.enter_opens [b] r [t]
    obtain ⟨x, hx⟩ := List.length_eq_one_iff.1 (s.length_enter [b] r [t])
    rw [hx] at hopens
    rw [subst_mapComp]
    dsimp only
    rw [hx, meaning_mapComp, meaning_mapComp]
    congr 1
    · exact funext fun a => (hparts ([b.1], r) (by simp [parts])).inScope hopens (by simp) _
    · exact funext fun a => (hparts ([b.1], t) (by simp [parts])).inScope hopens (by simp) _
  | letIn i bs b =>
    have hopens := s.enter_opens (bs.map fun p => (p.1, p.2.typ)) b []
    have hlength := s.length_enter (bs.map fun p => (p.1, p.2.typ)) b []
    rw [subst_letIn]
    dsimp only
    generalize s.enter (bs.map fun p => (p.1, p.2.typ)) b [] = scope at hopens hlength ⊢
    have hnames : (scope.2.zip (bs.map (·.2.subst s))).map (·.1) = scope.2 :=
      List.map_fst_zip (by simp [hlength])
    have hvalues : (scope.2.zip (bs.map (·.2.subst s))).map (·.2.meaning M old h ρ) =
        bs.map (·.2.meaning M old h (ρ.under old s)) := by
      show (scope.2.zip (bs.map (·.2.subst s))).map ((fun e => e.meaning M old h ρ) ∘ Prod.snd) = _
      rw [← List.map_map, List.map_snd_zip (by simp [hlength]), List.map_map]
      exact List.map_congr_left fun p hp => plain (List.mem_cons_of_mem _
        (List.mem_map_of_mem (f := fun p => ([], p.2)) hp)) s h ρ
    rw [meaning_letIn, meaning_letIn, hnames, hvalues,
      (hparts (bs.map (·.1), b) (by simp [parts])).inScope hopens (by simp), List.map_map]
    rfl
  | ite i c a b =>
    rw [subst_ite, meaning_ite, meaning_ite, plain (by simp [parts]), plain (by simp [parts]),
      plain (by simp [parts])]
  | cases i e arms =>
    rw [subst_cases, meaning_cases, meaning_cases, plain (by simp [parts]), List.map_map]
    refine congrArg _ (List.map_congr_left fun p hp => Prod.ext rfl (funext fun a => ?_))
    have hopens := s.enter_opens p.1.binders p.2 []
    show ((p.2.subst _).meaning M old h (ρ.bind ((Subst.rebind _ _).map (·.1)) a)) = _
    rw [Subst.rebind_names (s.length_enter ..)]
    exact (hparts (p.1.binders.map (·.1), p.2) (List.mem_cons_of_mem _
      (List.mem_map_of_mem (f := fun p => (p.1.binders.map (·.1), p.2)) hp))).inScope
        hopens (by simp) a
  | call i f r es =>
    rw [subst_call, meaning_call, meaning_call,
      SubstMeans.option fun d hd => plain (by simp [parts, Option.mem_def.1 hd]),
      SubstMeans.map fun d hd => plain (by simp [parts, hd])]

/-- Substitution means what it says. -/
theorem substMeans (he : e.Collects) : e.SubstMeans M old := by
  induction e using recParts with
  | h e ih =>
    refine substMeans_of_parts ?_ fun p hp => ih p hp (he.part hp)
    rintro i bs r rfl
    exact he i bs r (mem_subexprs.2 (.inl rfl))

end Expr

end

/-! ## Free variables -/

namespace Expr

variable {s inner : Subst} {e e' : Expr} {x : String}

/-- A part is what the other one becomes by substitution. -/
def Becomes (s : Subst) (p p' : List String × Expr) : Prop :=
  ∃ inner scope, Subst.Opens s p.1 scope inner p'.1 ∧ p.2 ∈ scope ∧ p'.2 = p.2.subst inner

theorem becomes_plain (d : Expr) : Becomes s ([], d) ([], d.subst s) :=
  ⟨s, [d], .refl s [d], by simp, rfl⟩

theorem becomes_enter (bs : List Binder) {first d : Expr} {others : List Expr}
    (hd : d ∈ first :: others) : Becomes s (bs.map (·.1), d)
      ((s.enter bs first others).2, d.subst (s.enter bs first others).1) :=
  ⟨_, _, s.enter_opens bs first others, hd, rfl⟩

theorem forall₂_becomes {α : Type} {l : List α} {f g : α → List String × Expr}
    (h : ∀ a ∈ l, Becomes s (f a) (g a)) : List.Forall₂ (Becomes s) (l.map f) (l.map g) := by
  rw [List.forall₂_map_left_iff, List.forall₂_map_right_iff, List.forall₂_same]
  exact h

/-- What an expression becomes is no variable, and its parts are what the parts become, apart from
such as leave nothing open. -/
structure Follows (s : Subst) (e e' : Expr) : Prop where
  notVar : ∀ i x, e' ≠ .var i x
  parts : ∃ l extra, e'.parts = l ++ extra ∧ List.Forall₂ (Becomes s) e.parts l ∧
    ∀ p ∈ extra, ∀ x ∈ p.2.freeVars, x ∈ p.1

theorem Follows.of_parts (hvar : ∀ i x, e' ≠ .var i x)
    (h : List.Forall₂ (Becomes s) e.parts e'.parts) : Follows s e e' where
  notVar := hvar
  parts := ⟨e'.parts, [], by simp, h, by simp⟩

/-- Where nothing is bound, the substitution is applied to the parts. -/
theorem Follows.of_plain (ds : List Expr) (hvar : ∀ i x, e' ≠ .var i x)
    (h : e.parts = ds.map ([], ·)) (h' : e'.parts = (ds.map (subst s)).map ([], ·)) :
    Follows s e e' := by
  refine .of_parts hvar ?_
  rw [h, h', List.map_map]
  exact forall₂_becomes fun d _ => becomes_plain d

theorem follows_subst (hvar : ∀ i x, e ≠ .var i x) (hthis : ∀ i, e ≠ .this i) :
    Follows s e (e.subst s) := by
  cases e with
  | bool | int | null => exact .of_plain [] (by simp) rfl rfl
  | var i x => exact absurd rfl (hvar i x)
  | this i => exact absurd rfl (hthis i)
  | field i e f => rw [subst_field]; exact .of_plain [e] (by simp) rfl rfl
  | index i a b => rw [subst_index]; exact .of_plain [a, b] (by simp) rfl rfl
  | slice i e lo hi =>
    rw [subst_slice]
    refine .of_plain (e :: (lo.toList ++ hi.toList)) (by simp) rfl ?_
    cases lo <;> cases hi <;> rfl
  | update i a b c =>
    rw [subst_update]; exact .of_plain [a, b, c] (by simp) rfl rfl
  | arrayLength i e =>
    rw [subst_arrayLength]; exact .of_plain [e] (by simp) rfl rfl
  | display i k es =>
    rw [subst_display]; exact .of_plain es (by simp) rfl rfl
  | mapDisplay i kvs =>
    rw [subst_mapDisplay]
    refine .of_plain (kvs.map (·.1) ++ kvs.map (·.2)) (by simp) ?_ ?_
    · simp [parts, Function.comp_def]
    · simp [parts, Function.comp_def]
  | ctor i d k es => rw [subst_ctor]; exact .of_plain es (by simp) rfl rfl
  | destruct i e d k f =>
    rw [subst_destruct]; exact .of_plain [e] (by simp) rfl rfl
  | isCtor i e d k =>
    rw [subst_isCtor]; exact .of_plain [e] (by simp) rfl rfl
  | old i e => rw [subst_old]; exact .of_plain [e] (by simp) rfl rfl
  | fresh i e => rw [subst_fresh]; exact .of_plain [e] (by simp) rfl rfl
  | unary i op e => rw [subst_unary]; exact .of_plain [e] (by simp) rfl rfl
  | binary i op a b =>
    rw [subst_binary]; exact .of_plain [a, b] (by simp) rfl rfl
  | quant i q bs r b ts ind =>
    rw [subst_quant]
    refine .of_parts (by simp) ?_
    have hparts : ((b.subst (s.enter bs b (r.toList ++ ts.flatten)).1) ::
        ((r.map (subst (s.enter bs b (r.toList ++ ts.flatten)).1)).toList ++
          (ts.map fun t => t.map (subst (s.enter bs b (r.toList ++ ts.flatten)).1)).flatten)) =
        (b :: (r.toList ++ ts.flatten)).map
          (subst (s.enter bs b (r.toList ++ ts.flatten)).1) := by
      cases r <;> simp [List.map_flatten]
    dsimp only [parts]
    rw [Subst.rebind_names (s.length_enter ..), hparts, List.map_map]
    exact forall₂_becomes fun d hd => becomes_enter bs hd
  | setComp i bs r t =>
    obtain ⟨t', hsubst, ht'⟩ := setComp_subst_eq s i bs r t
    rw [hsubst]
    refine ⟨by simp, ?_⟩
    dsimp only [parts]
    rw [Subst.rebind_names (s.length_enter ..)]
    refine ⟨(r :: t.toList).map fun d =>
      ((s.enter bs r t.toList).2, d.subst (s.enter bs r t.toList).1), ?_⟩
    rcases ht' with rfl | ⟨rfl, j, x, xs, hnames, rfl, -⟩
    · refine ⟨[], ?_, forall₂_becomes fun d hd => becomes_enter bs hd, by simp⟩
      cases t <;> simp
    · -- the term that is made explicit mentions a bound variable only
      refine ⟨[((s.enter bs r []).2, .var j x)], by simp,
        forall₂_becomes fun d hd => becomes_enter bs hd, ?_⟩
      have hnames : (s.enter bs r []).2 = x :: xs := hnames
      simp [freeVars, hnames]
  | mapComp i b r t =>
    obtain ⟨x, hx⟩ := List.length_eq_one_iff.1 (s.length_enter [b] r [t])
    rw [subst_mapComp]
    refine .of_parts (by simp) ?_
    have hone {d : Expr} (hd : d ∈ [r, t]) : Becomes s ([b.1], d)
        ([x], d.subst (s.enter [b] r [t]).1) := hx ▸ becomes_enter [b] hd
    dsimp only [parts]
    rw [hx]
    exact .cons (hone (by simp)) (.cons (hone (by simp)) .nil)
  | letIn i bs b =>
    rw [subst_letIn]
    refine .of_parts (by simp) ?_
    have hlength := s.length_enter (bs.map fun p => (p.1, p.2.typ)) b []
    have hone : Becomes s (_, b) _ :=
      becomes_enter (bs.map fun p => (p.1, p.2.typ)) (List.mem_singleton_self b)
    rw [List.map_map] at hone
    dsimp only [parts]
    rw [List.map_fst_zip (by simp [hlength])]
    refine .cons hone ?_
    have hvalues : ((s.enter (bs.map fun p => (p.1, p.2.typ)) b []).2.zip
        (bs.map (·.2.subst s))).map (fun p => (([] : List String), p.2)) =
        bs.map fun p => ([], p.2.subst s) := by
      rw [show (fun p : String × Expr => (([] : List String), p.2)) = (([], ·) ∘ Prod.snd) from rfl,
        ← List.map_map, List.map_snd_zip (by simp [hlength]), List.map_map]
      rfl
    rw [hvalues]
    exact forall₂_becomes fun p _ => becomes_plain p.2
  | ite i a b c =>
    rw [subst_ite]; exact .of_plain [a, b, c] (by simp) rfl rfl
  | cases i e arms =>
    rw [subst_cases]
    refine .of_parts (by simp) (.cons (becomes_plain e) ?_)
    rw [List.map_map]
    refine forall₂_becomes fun p _ => ?_
    have hone : Becomes s (_, p.2) _ := becomes_enter p.1.binders (List.mem_singleton_self p.2)
    rwa [← Subst.rebind_names (s.length_enter p.1.binders p.2 [])] at hone
  | call i f r es =>
    rw [subst_call]
    refine .of_plain (r.toList ++ es) (by simp) rfl ?_
    cases r <;> simp [parts]

/-- What a variable of an expression with a substitution applied stems from, where names are
bound. -/
def Stems (s : Subst) (bound : List String) (e : Expr) (x : String) : Prop :=
  (x ∈ e.freeVars ∧ x ∉ bound ∧ s.map.lookup x = none) ∨
    (∃ k ∈ e.freeVars, k ∉ bound ∧ ∃ r ∈ s.map.lookup k, x ∈ r.freeVars) ∨
    e.mentionsThis = true ∧ ∃ r ∈ s.receiver, x ∈ r.freeVars

/-- The free variables are as they should be. -/
def SubstFrees (e : Expr) : Prop := ∀ s x, x ∈ (e.subst s).freeVars ↔ Stems s [] e x

theorem SubstFrees.part {p p' : List String × Expr} (ih : p.2.SubstFrees)
    (h : Becomes s p p') : x ∈ p'.2.freeVars ∧ x ∉ p'.1 ↔ Stems s p.1 p.2 x := by
  obtain ⟨inner, scope, ho, hmem, heq⟩ := h
  rw [heq, ih inner x]
  constructor
  · rintro ⟨⟨hx, -, hnone⟩ | ⟨k, hk, -, r, hr, hx⟩ | ⟨hthis, r, hr, hx⟩, hname⟩
    · -- a bound variable that keeps its name is bound
      have hbound : x ∉ p.1 := fun hbound => by
        rcases ho.inside x hbound with ⟨-, hplace⟩ | ⟨i, y, hsome, -⟩
        · refine absurd (lastIndex_eq_none.2 hname) ?_
          rw [hplace]
          exact mt lastIndex_eq_none.1 (not_not.2 hbound)
        · simp [hnone] at hsome
      exact .inl ⟨hx, hbound, (ho.outside _ hmem x hx hbound).2 ▸ hnone⟩
    · -- a renamed one is bound by its new name
      have hbound : k ∉ p.1 := fun hbound => by
        rcases ho.inside k hbound with ⟨hnone, -⟩ | ⟨i, y, hsome, hplace⟩
        · simp [hnone] at hr
        · obtain rfl : r = .var i y := by simpa [hsome] using hr.symm
          obtain rfl : x = y := by simpa [freeVars] using hx
          rw [lastIndex_eq_none.2 hname, eq_comm, lastIndex_eq_none] at hplace
          exact hplace hbound
      exact .inr (.inl ⟨k, hk, hbound, r, (ho.outside _ hmem k hk hbound).2 ▸ hr, hx⟩)
    · exact .inr (.inr ⟨hthis, r, ho.receiver _ hmem hthis ▸ hr, hx⟩)
  · rintro (⟨hx, hbound, hnone⟩ | ⟨k, hk, hbound, r, hr, hx⟩ | ⟨hthis, r, hr, hx⟩)
    · obtain ⟨hname, hlookup⟩ := ho.outside _ hmem x hx hbound
      exact ⟨.inl ⟨hx, by simp, hlookup ▸ hnone⟩, hname⟩
    · have hr' : r ∈ inner.map.lookup k := (ho.outside _ hmem k hk hbound).2 ▸ hr
      exact ⟨.inr (.inl ⟨k, hk, by simp, r, hr', hx⟩), ho.apart k hbound r hr' x hx⟩
    · have hr' : r ∈ inner.receiver := ho.receiver _ hmem hthis ▸ hr
      exact ⟨.inr (.inr ⟨hthis, r, hr', hx⟩), ho.receiver_apart r hr' x hx⟩

/-- What a variable stems from, it stems from in some part. -/
theorem stems_iff_parts (hvar : ∀ i x, e ≠ .var i x) (hthis : ∀ i, e ≠ .this i) :
    Stems s [] e x ↔ ∃ p ∈ e.parts, Stems s p.1 p.2 x := by
  simp only [Stems, mem_freeVars (e := e), mentionsThis_iff (e := e)]
  grind

theorem exists_iff_of_forall₂ {α β : Type} {R : α → β → Prop} {P : α → Prop} {Q : β → Prop}
    {as : List α} {bs : List β} (h : List.Forall₂ R as bs)
    (hPQ : ∀ a ∈ as, ∀ b, R a b → (Q b ↔ P a)) : (∃ b ∈ bs, Q b) ↔ ∃ a ∈ as, P a := by
  induction h with
  | nil => simp
  | cons hab _ ih =>
    simp only [List.exists_mem_cons_iff, hPQ _ (by simp) _ hab,
      ih fun a ha => hPQ a (List.mem_cons_of_mem _ ha)]

/-- The free variables of an expression with a substitution applied are those that it leaves, and
those of the expressions that it puts in. -/
theorem substFrees (e : Expr) : e.SubstFrees := by
  induction e using recParts with
  | h e ih =>
    intro s x
    by_cases hvar : ∃ i y, e = .var i y
    · obtain ⟨i, y, rfl⟩ := hvar
      rw [subst_var, Stems]
      cases hy : s.map.lookup y with
      | none =>
        have hxy : x = y → s.map.lookup x = none := fun heq => heq ▸ hy
        simpa [freeVars, mentionsThis, subexprs, hy] using hxy
      | some r =>
        have hxy : x = y → s.map.lookup x ≠ none := fun heq => by simp [heq, hy]
        simp only [Option.getD_some, freeVars, List.mem_singleton, exists_eq_left, hy,
          Option.mem_def, Option.some.injEq, exists_eq_left', List.not_mem_nil, not_false_eq_true,
          true_and]
        refine ⟨fun hx => .inr (.inl hx), ?_⟩
        rintro (⟨heq, hnone⟩ | hx | ⟨hthis, -⟩)
        · exact absurd hnone (hxy heq)
        · exact hx
        · simp [mentionsThis, subexprs] at hthis
    by_cases hthis : ∃ i, e = .this i
    · obtain ⟨i, rfl⟩ := hthis
      rw [subst_this, Stems]
      cases hr : s.receiver <;> simp [freeVars, mentionsThis, subexprs]
    simp only [not_exists] at hvar hthis
    have hfollows := follows_subst (s := s) hvar hthis
    obtain ⟨l, extra, hparts, hl, hextra⟩ := hfollows.parts
    have hnotVar : ¬ ∃ i, e.subst s = .var i x := not_exists.2 fun i => hfollows.notVar i x
    have hnone : ¬ ∃ p ∈ extra, x ∈ p.2.freeVars ∧ x ∉ p.1 :=
      not_exists.2 fun p hp => hp.2.2 (hextra p hp.1 x hp.2.1)
    rw [stems_iff_parts hvar hthis, mem_freeVars, or_iff_right hnotVar, hparts]
    simp only [List.mem_append, or_and_right, exists_or]
    rw [or_iff_left hnone]
    exact exists_iff_of_forall₂ hl fun p hp p' hbecomes => (ih p hp).part hbecomes

/-- An expression with a substitution applied has the value of the expression where the replacing
expressions stand for what they replace, and its free variables are those that are not replaced,
those of the expressions that replace a free variable, and those of the receiver if there is one
to replace. -/
theorem subst_means (s : Subst) (e : Expr) :
    (e.Collects → ∀ (M : Meaning) (old h : M.State) (ρ : M.Env),
      (e.subst s).meaning M old h ρ = e.meaning M old h (ρ.under old s)) ∧
    ∀ x, x ∈ (e.subst s).freeVars ↔
      (x ∈ e.freeVars ∧ s.map.lookup x = none) ∨
      (∃ k ∈ e.freeVars, ∃ r ∈ s.map.lookup k, x ∈ r.freeVars) ∨
      (e.mentionsThis = true ∧ ∃ r ∈ s.receiver, x ∈ r.freeVars) := by
  refine ⟨fun he M old h ρ => substMeans he s h ρ, fun x => ?_⟩
  simpa [Stems] using substFrees e s x

/-- A set that is collected without a term, in which the bound variable would capture the one that
is put in. -/
theorem subst_means_capture :
    let i : Info := ⟨default, .int⟩
    let e : Expr := .setComp i [("y", .int)] (.binary i .mem (.var i "y") (.var i "x")) none
    let s : Subst := ⟨none, [("x", .var i "y")]⟩
    e.Collects ∧
      e.subst s = .setComp i [("y%1", .int)] (.binary i .mem (.var i "y%1") (.var i "y"))
        (some (.var i "y%1")) ∧
      (∀ (M : Meaning) (old h : M.State) (ρ : M.Env),
        (e.subst s).meaning M old h ρ = e.meaning M old h (ρ.under old s)) ∧
      "y" ∈ (e.subst s).freeVars := by
  intro i e s
  have he : e.Collects := by
    intro j bs r hmem
    simp only [e, subexprs, subexprs?, List.mem_cons, List.mem_append, setComp.injEq, reduceCtorEq,
      List.not_mem_nil, or_false] at hmem
    simp [hmem.2.1]
  have hsubst : e.subst s = .setComp i [("y%1", .int)]
      (.binary i .mem (.var i "y%1") (.var i "y")) (some (.var i "y%1")) := by cbv
  have hmeans := subst_means s e
  exact ⟨he, hsubst, hmeans.1 he, (hmeans.2 "y").2 (.inr (.inl ⟨"x", by decide, .var i "y", rfl,
    by decide⟩))⟩

end Expr

end ContractLowering.Source
