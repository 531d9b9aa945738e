import ContractLowering.Proofs.IL.Execution
import ContractLowering.Proofs.Lowering.Writing

/-!
# Assignments that checks follow

A marked assignment is followed by checks: conditions that are asserted or assumed, among which are
those that a property asks for. An execution that passes the assignment and changes the state again
later meets all these conditions in the state that the assignment led to (`Exec.checks_of_mark`), so
it is enough to look at the code to know what holds there.
-/

namespace ContractLowering

open IL Source

/-- The code of a member is being lowered. -/
structure Progress.Lowers (s : Progress) (p : Path) : Prop where
  member : s.decl.member = some p
  module : s.decl.module = some p.module

theorem Progress.Lowers.of_extends {s s' : Progress} {p : Path} (h : s.Extends s')
    (hs : s.Lowers p) : s'.Lowers p :=
  ⟨h.member.trans hs.member, h.module.trans hs.module⟩

/-- An assignment and what its checks have to be. -/
structure Mark where
  var : String
  value : IL.Expr
  Checks : List IL.Stmt → Prop

namespace Mark

variable (m : Mark)

/-- The assignment. -/
def stmt : IL.Stmt := .assign m.var m.value

/-- Code that starts with the checks. -/
def Leads (ss : List IL.Stmt) : Prop :=
  ∃ checks rest, ss = checks ++ rest ∧ (∀ t ∈ checks, t.isCondition = true) ∧ m.Checks checks

mutual

/-- Inside a statement, checks follow the assignment wherever it stands. -/
def Inside : IL.Stmt → Prop
  | .ifElse _ a b => InAll a ∧ InAll b
  | .loop _ _ body | .block _ body => InAll body
  | _ => True

/-- In code, checks follow the assignment wherever it stands. -/
def InAll : List IL.Stmt → Prop
  | [] => True
  | s :: ss => (s = m.stmt → m.Leads ss) ∧ Inside s ∧ InAll ss

end

variable {m} {a b ss : List IL.Stmt}

theorem Leads.append (h : m.Leads a) (b : List IL.Stmt) : m.Leads (a ++ b) := by
  obtain ⟨checks, rest, rfl, hcond, hchecks⟩ := h
  exact ⟨checks, rest ++ b, by simp, hcond, hchecks⟩

theorem InAll.append (ha : m.InAll a) (hb : m.InAll b) : m.InAll (a ++ b) := by
  induction a with
  | nil => exact hb
  | cons s a ih =>
    obtain ⟨hlead, hs, ha⟩ := ha
    exact ⟨fun h => (hlead h).append b, hs, ih ha⟩

/-- Code in which the assignment does not stand at the top. -/
theorem inAll_of_ne (h : ∀ t ∈ ss, t ≠ m.stmt ∧ m.Inside t) : m.InAll ss := by
  induction ss with
  | nil => trivial
  | cons s ss ih =>
    obtain ⟨⟨hne, hs⟩, hss⟩ := List.forall_mem_cons.1 h
    exact ⟨fun h => (hne h).elim, hs, ih hss⟩

/-- Code without control flow that does not write the variable. -/
theorem inAll_of_writing (h : ∀ t ∈ ss, t.Writing (· ≠ m.var)) : m.InAll ss := by
  refine inAll_of_ne fun t ht => ?_
  have := h t ht
  cases t with
  | assign x e =>
    refine ⟨fun heq => ?_, trivial⟩
    cases heq
    exact this rfl
  | assume | assert | havoc => exact ⟨nofun, trivial⟩
  | _ => exact this.elim

/-- The layout of the code of a member in which checks follow the assignment. -/
def layout (m : Mark) (p : Path) : Layout where
  In s := s.Lowers p
  keep h := .of_extends h
  Holds := m.InAll
  nil := trivial
  append := .append

/-- Whatever way is taken through a statement, checks follow the assignment there. -/
theorem inAll_of_opens {procs : List Procedure} {s : IL.Stmt} {ts rest : List IL.Stmt}
    (h : s.Opens procs ts rest) (hs : m.InAll (s :: ss)) :
    m.InAll ts ∧ m.InAll (rest ++ ss) := by
  have conditions (es : List IL.Expr) : m.InAll (es.map .assume) :=
    inAll_of_writing fun t ht => by
      obtain ⟨e, -, rfl⟩ := List.mem_map.1 ht
      trivial
  have guard (g : Option IL.Expr) : m.InAll (assumeGuard g) := conditions _
  have refute (g : Option IL.Expr) : m.InAll (refuteGuard g) := by
    simpa [refuteGuard, Function.comp_def] using conditions (g.toList.map .not)
  have head (xs : List String) (ks : List Clause) : m.InAll (loopHead xs ks) := by
    refine inAll_of_ne fun t ht => ?_
    simp only [loopHead, List.mem_append, List.mem_map] at ht
    rcases ht with (⟨k, -, rfl⟩ | ⟨x, -, rfl⟩) | ⟨k, -, rfl⟩ <;> exact ⟨nofun, trivial⟩
  obtain ⟨hlead, hin, hss⟩ := hs
  cases h with
  | thn g a b => exact ⟨(guard g).append hin.1, hss⟩
  | els g a b => exact ⟨(refute g).append hin.2, hss⟩
  | again g ks body => exact ⟨((head _ ks).append (guard g)).append hin, hlead, hin, hss⟩
  | finished g ks body => exact ⟨(head _ ks).append (refute g), hss⟩
  | block l body => exact ⟨hin, hss⟩

end Mark

namespace IL

variable {M : Model} {procs : List Procedure} {old ρ σ : M.Valuation} {tr before after : Trace M}
  {k : Ending M} {ss : List Stmt} {m : Mark}

/-- A condition was met in a state. -/
def Stmt.Met (old σ : M.Valuation) (tr : Trace M) : Stmt → Prop
  | .assume e => .assumed old σ e ∈ tr
  | .assert _ e => .asserted old σ e ∈ tr
  | _ => True

theorem Stmt.Met.append {t : Stmt} (h : t.Met old σ before) (after : Trace M) :
    t.Met old σ (before ++ after) := by
  cases t with
  | assume | assert => exact List.mem_append_left _ h
  | _ => trivial

theorem Stmt.Met.cons {t : Stmt} (h : t.Met old σ tr) (v : Event M) : t.Met old σ (v :: tr) := by
  cases t with
  | assume | assert => exact List.mem_cons_of_mem _ h
  | _ => trivial

/-- An execution that is cut off before it changes the state. -/
def Idle (tr : Trace M) (k : Ending M) : Prop :=
  (∃ σ, k = .cut σ) ∧ ∀ t τ, .changed t τ ∉ tr

/-- The conditions at the start of code are met in the state it starts from, or the execution is cut
off among them. -/
theorem Exec.conditions {checks rest : List Stmt} (hcond : ∀ t ∈ checks, t.isCondition = true)
    (h : Exec procs old (checks ++ rest) ρ tr k) : (∀ t ∈ checks, t.Met old ρ tr) ∨ Idle tr k := by
  induction checks generalizing tr with
  | nil => exact .inl (List.forall_mem_nil _)
  | cons t checks ih =>
    obtain ⟨ht, hcond⟩ := List.forall_mem_cons.1 hcond
    cases h with
    | cut => exact .inr ⟨⟨ρ, rfl⟩, by simp⟩
    | step hstep hrest =>
      have one : ∀ {v : Event M} {tr'}, (∀ t τ, v ≠ .changed t τ) → t.Met old ρ [v] →
          Exec procs old (checks ++ rest) ρ tr' k →
          (∀ u ∈ t :: checks, u.Met old ρ (v :: tr')) ∨ Idle (v :: tr') k := by
        intro v tr' hv hmet hexec
        rcases ih hcond hexec with hall | ⟨hcut, hnone⟩
        · exact .inl (List.forall_mem_cons.2 ⟨hmet.append tr', fun u hu => (hall u hu).cons v⟩)
        · refine .inr ⟨hcut, fun u τ hu => ?_⟩
          rcases List.mem_cons.1 hu with heq | hu
          · exact hv u τ heq.symm
          · exact hnone u τ hu
      cases hstep with
      | assume e => exact one (by simp) (by simp [Stmt.Met]) hrest
      | assert msg e => exact one (by simp) (by simp [Stmt.Met]) hrest
      | havoc | assign | call => cases ht
    | leave | ret => cases ht
    | through ho | leftIt ho | escape ho => cases ho <;> cases ht

/-- An element in a sequence stands in one of its parts. -/
theorem split_at {α : Type} {a b before after : List α} {x : α}
    (h : a ++ b = before ++ x :: after) :
    (∃ mid, a = before ++ x :: mid ∧ after = mid ++ b) ∨ ∃ mid, b = mid ++ x :: after := by
  rcases List.append_eq_append_iff.1 h with ⟨mid, -, hb⟩ | ⟨mid, ha, hx⟩
  · exact .inr ⟨mid, hb⟩
  · cases mid with
    | nil => exact .inr ⟨[], hx.symm⟩
    | cons y mid =>
      obtain ⟨rfl, rfl⟩ := List.cons.inj hx
      exact .inl ⟨mid, ha, rfl⟩

/-- A step that changes the state by the marked assignment is this assignment. -/
theorem Stmt.Steps.eq_mark {s : Stmt} {ρ' : M.Valuation}
    (h : s.Steps procs old ρ tr ρ') (htr : tr = before ++ .changed m.stmt σ :: after) :
    s = m.stmt ∧ σ = ρ' ∧ after = [] := by
  cases h with
  | assume | assert =>
    rcases before with _ | ⟨_, _ | ⟨_, _⟩⟩ <;> simp at htr
  | havoc =>
    rcases before with _ | ⟨_, _ | ⟨_, _⟩⟩ <;> simp [Mark.stmt] at htr
  | assign x e =>
    rcases before with _ | ⟨_, _ | ⟨_, _⟩⟩ <;> simp at htr
    obtain ⟨⟨h, rfl⟩, rfl⟩ := htr
    exact ⟨h, rfl, rfl⟩
  | @call p hp args outs ρ' hsame =>
    have hmem : Event.changed m.stmt σ ∈ before ++ .changed m.stmt σ :: after := by simp
    rw [← htr] at hmem
    simp [Procedure.demands, Procedure.promises, Mark.stmt] at hmem

/-- After the marked assignment an execution meets the checks that follow it, or is cut off among
them. -/
theorem Exec.checks_of_mark (h : Exec procs old ss ρ tr k) (hss : m.InAll ss)
    (htr : tr = before ++ .changed m.stmt σ :: after) :
    (∃ checks, m.Checks checks ∧ ∀ t ∈ checks, t.Met old σ after) ∨ Idle after k := by
  induction h generalizing before after with
  | cut | nil | leave | ret => simp at htr
  | @step s ss ρ ρ' tr tr' k hstep hrest ih =>
    rcases split_at htr with ⟨mid, hmid, rfl⟩ | ⟨mid, hmid⟩
    · obtain ⟨rfl, rfl, rfl⟩ := hstep.eq_mark hmid
      obtain ⟨checks, rest, rfl, hcond, hchecks⟩ := hss.1 rfl
      exact (hrest.conditions hcond).imp (fun hmet => ⟨checks, hchecks, hmet⟩) id
    · exact ih hss.2.2 hmid
  | through ho hin hrest ihin ihrest =>
    obtain ⟨hts, hrest'⟩ := Mark.inAll_of_opens ho hss
    rcases split_at htr with ⟨mid, hmid, rfl⟩ | ⟨mid, hmid⟩
    · rcases ihin hts hmid with ⟨checks, hchecks, hmet⟩ | ⟨⟨_, hcut⟩, -⟩
      · exact .inl ⟨checks, hchecks, fun t ht => (hmet t ht).append _⟩
      · cases hcut
    · exact ihrest hrest' hmid
  | leftIt ho hin hc hrest ihin ihrest =>
    rcases split_at htr with ⟨mid, hmid, rfl⟩ | ⟨mid, hmid⟩
    · rcases ihin (Mark.inAll_of_opens ho hss).1 hmid with ⟨checks, hchecks, hmet⟩ | ⟨⟨_, hcut⟩, -⟩
      · exact .inl ⟨checks, hchecks, fun t ht => (hmet t ht).append _⟩
      · cases hcut
    · exact ihrest hss.2.2 hmid
  | escape ho hin hk ih => exact ih (Mark.inAll_of_opens ho hss).1 htr

end IL

end ContractLowering
