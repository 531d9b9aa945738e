import ContractLowering.Proofs.IL.Execution

/-!
# Verified code and the loop cut

Code is `Verified` in a state if no execution from there violates an assertion. What is known of
verified code is read off its executions: it is verified after a part of it that was executed, and
inside its statements.

A loop is cut at its head: its checked invariants are asserted, what its body assigns gets arbitrary
values, all its invariants are assumed. The states that iterating the body really leads to are
among those that the cut considers, because executions change nothing but what the code assigns
(`Exec.unchanged`). So if a loop is verified and its free invariants hold whenever an iteration
starts, then all its invariants hold there (`Heads.holds`).
-/

namespace ContractLowering.IL

variable {M : Model} {procs : List Procedure} {old ρ ρ' σ : M.Valuation}
  {ss ts rest : List Stmt} {tr tr' : Trace M} {k : Ending M}

namespace Trace

@[simp] theorem proper_append : Proper (tr ++ tr') ↔ Proper tr ∧ Proper tr' := by
  simp only [Proper, List.mem_append, or_imp, forall_and]

@[simp] theorem safe_append : Safe (tr ++ tr') ↔ Safe tr ∧ Safe tr' := by
  simp only [Safe, List.mem_append, or_imp, forall_and]

theorem proper_nil : Proper ([] : Trace M) := nofun

theorem safe_nil : Safe ([] : Trace M) := nofun

end Trace

/-! ## What executions change -/

section

/-- The state in which an execution ends. -/
def Ending.state : Ending M → M.Valuation
  | .done ρ | .left _ ρ | .returned ρ | .cut ρ => ρ

theorem Stmt.targetsAll_append (ss ts : List Stmt) :
    Stmt.targetsAll procs (ss ++ ts) = Stmt.targetsAll procs ss ++ Stmt.targetsAll procs ts := by
  induction ss with
  | nil => rfl
  | cons s ss ih => simp [Stmt.targetsAll, ih]

theorem Stmt.targetsAll_assumes (procs : List Procedure) (es : List Expr) :
    Stmt.targetsAll procs (es.map .assume) = [] := by
  induction es with
  | nil => rfl
  | cons e es ih => simp [Stmt.targetsAll, Stmt.targets, ih]

/-- The start of an iteration assigns what the body does. -/
theorem targetsAll_loopHead (xs : List String) (ks : List Clause) :
    Stmt.targetsAll procs (loopHead xs ks) = xs := by
  have asserts : ∀ ks : List Clause,
      Stmt.targetsAll procs (ks.map fun k => .assert (k.msg.getD default) k.expr) = [] := by
    intro ks
    induction ks with
    | nil => rfl
    | cons k ks ih => simp [Stmt.targetsAll, Stmt.targets, ih]
  have havocs : Stmt.targetsAll procs (xs.map .havoc) = xs := by
    induction xs with
    | nil => rfl
    | cons x xs ih => simp [Stmt.targetsAll, Stmt.targets, ih]
  have assumes := Stmt.targetsAll_assumes procs (ks.map (·.expr))
  rw [List.map_map] at assumes
  rw [loopHead, Stmt.targetsAll_append, Stmt.targetsAll_append, asserts, havocs, List.nil_append]
  exact (congrArg (xs ++ ·) assumes).trans (List.append_nil xs)

/-- A way through a statement assigns nothing but what the statement does. -/
theorem Stmt.Opens.targets {s : Stmt} (h : s.Opens procs ts rest) {x : String}
    (hx : x ∉ s.targets procs) :
    x ∉ Stmt.targetsAll procs ts ∧ x ∉ Stmt.targetsAll procs rest := by
  have guards (g : Option Expr) : Stmt.targetsAll procs (assumeGuard g) = [] ∧
      Stmt.targetsAll procs (refuteGuard g) = [] := by
    cases g <;> exact ⟨rfl, rfl⟩
  cases h with
  | thn g a b | els g a b =>
    simp only [Stmt.targets, List.mem_append, not_or] at hx
    simp [Stmt.targetsAll_append, guards, hx, Stmt.targetsAll]
  | again g ks body | finished g ks body =>
    simp only [Stmt.targets] at hx
    simp [Stmt.targetsAll_append, targetsAll_loopHead, guards, hx, Stmt.targetsAll, Stmt.targets]
  | block l body => simpa [Stmt.targets, Stmt.targetsAll] using hx

theorem Stmt.Steps.unchanged {s : Stmt} (h : s.Steps procs old ρ tr ρ') {x : String}
    (hx : x ∉ s.targets procs) : ρ' x = ρ x := by
  cases h with
  | assume | assert => rfl
  | havoc y a | assign y e => exact Function.update_of_ne (by simpa [Stmt.targets] using hx) _ _
  | call hp args outs hsame =>
    simp only [Stmt.targets, List.mem_append, not_or, List.mem_flatMap, List.mem_filter] at hx
    exact hsame x (fun hm => hx.2 ⟨_, ⟨hp, by simp⟩, hm⟩) hx.1

/-- Executions change nothing but what the code assigns. -/
theorem Exec.unchanged (h : Exec procs old ss ρ tr k) {x : String}
    (hx : x ∉ Stmt.targetsAll procs ss) : k.state x = ρ x := by
  induction h with
  | cut | nil | leave | ret => rfl
  | step h _ ih =>
    simp only [Stmt.targetsAll, List.mem_append, not_or] at hx
    exact (ih hx.2).trans (h.unchanged hx.1)
  | through ho _ _ ih ihs =>
    simp only [Stmt.targetsAll, List.mem_append, not_or] at hx
    obtain ⟨hts, hrest⟩ := ho.targets hx.1
    exact (ihs (by simpa [Stmt.targetsAll_append] using ⟨hrest, hx.2⟩)).trans (ih hts)
  | leftIt ho _ _ _ ih ihs =>
    simp only [Stmt.targetsAll, List.mem_append, not_or] at hx
    exact (ihs hx.2).trans (ih (ho.targets hx.1).1)
  | escape ho _ _ ih =>
    simp only [Stmt.targetsAll, List.mem_append, not_or] at hx
    exact ih (ho.targets hx.1).1

end

/-! ## Executions of parts -/

/-- Statements are executed after others that were executed to their end. -/
theorem Exec.append (h : Exec procs old ss ρ tr (.done ρ')) (h' : Exec procs old ts ρ' tr' k) :
    Exec procs old (ss ++ ts) ρ (tr ++ tr') k := by
  generalize hd : Ending.done ρ' = d at h
  induction h with
  | cut | leave | ret => cases hd
  | nil => cases hd; exact h'
  | step h _ ih => rw [List.append_assoc]; exact .step h (ih hd)
  | through ho h _ _ ih =>
    rw [List.append_assoc]
    exact .through ho h (by simpa using ih hd)
  | leftIt ho h hc _ _ ih => rw [List.append_assoc]; exact .leftIt ho h hc (ih hd)
  | escape _ _ hk => subst hd; cases hk

/-- What an execution of statements meets is also met if others follow. -/
theorem Exec.exists_append (h : Exec procs old ss ρ tr k) (ts : List Stmt) :
    ∃ k', Exec procs old (ss ++ ts) ρ tr k' := by
  induction h with
  | cut ss ρ => exact ⟨_, .cut _ _⟩
  | nil ρ => exact ⟨_, .cut _ _⟩
  | step h _ ih => exact ih.imp fun _ => .step h
  | leave l ss ρ => exact ⟨_, .leave _ _ _⟩
  | ret ss ρ => exact ⟨_, .ret _ _⟩
  | through ho h _ _ ih =>
    obtain ⟨k', hk⟩ := ih
    exact ⟨k', .through ho h (by simpa using hk)⟩
  | leftIt ho h hc _ _ ih => exact ih.imp fun _ => .leftIt ho h hc
  | escape ho h hk _ => exact ⟨_, .escape ho h hk⟩

/-- An execution to the end of code passes through every part of it. -/
theorem Exec.split (h : Exec procs old (ss ++ ts) ρ tr (.done ρ')) :
    ∃ σ tr₁ tr₂, Exec procs old ss ρ tr₁ (.done σ) ∧ Exec procs old ts σ tr₂ (.done ρ') ∧
      tr = tr₁ ++ tr₂ := by
  generalize hd : Ending.done ρ' = d at h
  generalize hl : ss ++ ts = l at h
  induction h generalizing ss with
  | cut | leave | ret => cases hd
  | nil ρ =>
    obtain ⟨rfl, rfl⟩ := List.append_eq_nil_iff.1 hl
    cases hd
    exact ⟨_, [], [], .nil _, .nil _, rfl⟩
  | @step s l ρ σ tr tr' d h hs ih =>
    rcases List.append_eq_cons_iff.1 hl with ⟨rfl, rfl⟩ | ⟨as, rfl, rfl⟩
    · subst hd
      exact ⟨ρ, [], _, .nil ρ, .step h hs, rfl⟩
    · obtain ⟨σ', tr₁, tr₂, h₁, h₂, rfl⟩ := ih hd rfl
      exact ⟨σ', _, tr₂, .step h h₁, h₂, (List.append_assoc _ _ _).symm⟩
  | @through s l us rest ρ σ tr tr' d ho h hs _ ih =>
    rcases List.append_eq_cons_iff.1 hl with ⟨rfl, rfl⟩ | ⟨as, rfl, rfl⟩
    · subst hd
      exact ⟨ρ, [], _, .nil ρ, .through ho h hs, rfl⟩
    · obtain ⟨σ', tr₁, tr₂, h₁, h₂, rfl⟩ := ih hd (List.append_assoc rest as ts)
      exact ⟨σ', _, tr₂, .through ho h h₁, h₂, (List.append_assoc _ _ _).symm⟩
  | @leftIt s l us rest ρ σ tr tr' d lab ho h hc hs _ ih =>
    rcases List.append_eq_cons_iff.1 hl with ⟨rfl, rfl⟩ | ⟨as, rfl, rfl⟩
    · subst hd
      exact ⟨ρ, [], _, .nil ρ, .leftIt ho h hc hs, rfl⟩
    · obtain ⟨σ', tr₁, tr₂, h₁, h₂, rfl⟩ := ih hd rfl
      exact ⟨σ', _, tr₂, .leftIt ho h hc h₁, h₂, (List.append_assoc _ _ _).symm⟩
  | escape _ _ hk => subst hd; cases hk

/-- A statement with branches is executed through one of them. -/
theorem Exec.of_ifElse {g : Option Expr} {a b : List Stmt}
    (h : Exec procs old [.ifElse g a b] ρ tr (.done σ)) :
    Exec procs old (assumeGuard g ++ a) ρ tr (.done σ) ∨
      Exec procs old (refuteGuard g ++ b) ρ tr (.done σ) := by
  cases h with
  | step hs => cases hs
  | through ho h hs =>
    cases ho <;> cases hs
    · exact .inl (by simpa using h)
    · exact .inr (by simpa using h)
  | leftIt _ _ hc => simp [Stmt.catches] at hc
  | escape _ _ hk => cases hk

/-- What a condition adds to a trace. -/
def Stmt.event (old ρ : M.Valuation) : Stmt → Trace M
  | .assume e => [.assumed old ρ e]
  | .assert _ e => [.asserted old ρ e]
  | _ => []

/-- Conditions are executed in one state. -/
theorem Exec.of_conditions (procs : List Procedure) (old ρ : M.Valuation)
    (h : ∀ t ∈ ss, t.isCondition = true) :
    Exec procs old ss ρ (ss.flatMap (Stmt.event old ρ)) (.done ρ) := by
  induction ss with
  | nil => exact .nil ρ
  | cons t ss ih =>
    obtain ⟨ht, hss⟩ := List.forall_mem_cons.1 h
    cases t with
    | assume e => exact .step (.assume e ρ) (ih hss)
    | assert msg e => exact .step (.assert msg e ρ) (ih hss)
    | _ => cases ht

theorem mem_events_assumed {old' ρ' : M.Valuation} {e : Expr} :
    .assumed old' ρ' e ∈ ss.flatMap (Stmt.event old ρ) ↔
      old' = old ∧ ρ' = ρ ∧ e ∈ Stmt.assumed ss := by
  induction ss with
  | nil => simp
  | cons t ss ih =>
    cases t <;> simp [Stmt.event, ih, Stmt.assumed, ← and_or_left]

theorem mem_events_asserted {old' ρ' : M.Valuation} {e : Expr} :
    .asserted old' ρ' e ∈ ss.flatMap (Stmt.event old ρ) ↔
      old' = old ∧ ρ' = ρ ∧ e ∈ Stmt.asserted ss := by
  induction ss with
  | nil => simp
  | cons t ss ih =>
    cases t <;> simp [Stmt.event, ih, Stmt.asserted, ← and_or_left]

theorem proper_events (h : ∀ e ∈ Stmt.assumed ss, Holds old ρ e) :
    Trace.Proper (ss.flatMap (Stmt.event old ρ)) := by
  intro old' ρ' e hmem
  obtain ⟨rfl, rfl, he⟩ := mem_events_assumed.1 hmem
  exact h e he

/-- Variables get arbitrary values. -/
theorem Exec.havocs (procs : List Procedure) (old : M.Valuation) {xs : List String}
    (h : ∀ x, x ∉ xs → σ x = ρ x) :
    ∃ tr, Exec procs old (xs.map .havoc) ρ tr (.done σ) ∧ tr.Proper := by
  induction xs generalizing ρ with
  | nil =>
    obtain rfl : σ = ρ := funext fun x => h x (by simp)
    exact ⟨[], .nil _, Trace.proper_nil⟩
  | cons x xs ih =>
    obtain ⟨tr, hexec, hproper⟩ := ih (ρ := Function.update ρ x (σ x)) fun y hy => by
      by_cases hyx : y = x
      · subst hyx; simp
      · rw [Function.update_of_ne hyx]
        exact h y (by simp [hy, hyx])
    refine ⟨_, .step (.havoc x (σ x) ρ) hexec, Trace.proper_append.2 ⟨?_, hproper⟩⟩
    intro _ _ _ hmem
    simp at hmem

/-- The start of an iteration leads to every state that differs in what the body assigns, if the
invariants hold there. -/
theorem Exec.loopHead (procs : List Procedure) {xs : List String} {ks : List Clause}
    (hsame : ∀ x, x ∉ xs → σ x = ρ x) (hks : ∀ k ∈ ks, Holds old σ k.expr) :
    ∃ tr, Exec procs old (loopHead xs ks) ρ tr (.done σ) ∧ tr.Proper := by
  obtain ⟨tr, hhavocs, hproper⟩ := Exec.havocs procs old hsame
  have hchecks := Exec.of_conditions procs old ρ
    (List.forall_mem_map (l := ks.filter (!·.free))
      (f := fun k => .assert (k.msg.getD default) k.expr).2 fun _ _ => rfl)
  have hassumes := Exec.of_conditions procs old σ
    (List.forall_mem_map (l := ks) (f := fun k => .assume k.expr).2 fun _ _ => rfl)
  refine ⟨_, (hchecks.append hhavocs).append hassumes, ?_⟩
  rw [Trace.proper_append, Trace.proper_append]
  refine ⟨⟨proper_events fun e he => ?_, hproper⟩, proper_events fun e he => ?_⟩
  · simp [Stmt.assumed] at he
  · obtain ⟨k, hk, rfl⟩ : ∃ k ∈ ks, k.expr = e := by simpa [Stmt.assumed] using he
    exact hks k hk

/-- Assumptions that were executed hold. -/
theorem Exec.of_assumes (es : List Expr) (h : Exec procs old (es.map .assume) ρ tr (.done σ))
    (hproper : tr.Proper) : ∀ e ∈ es, Holds old σ e := by
  induction es generalizing ρ tr with
  | nil => simp
  | cons e es ih =>
    cases h with
    | step hs hexec =>
      cases hs
      obtain ⟨hproper₁, hproper₂⟩ := Trace.proper_append.1 hproper
      have hσ : σ = ρ := funext fun x => hexec.unchanged (by simp [Stmt.targetsAll_assumes])
      exact List.forall_mem_cons.2 ⟨hσ ▸ hproper₁ _ _ _ List.mem_cons_self, ih hexec hproper₂⟩
    | through ho | leftIt ho => cases ho
    | escape ho => cases ho

/-- After the start of an iteration only what the body assigns has changed, and the invariants
hold. -/
theorem Exec.of_loopHead {xs : List String} {ks : List Clause}
    (h : Exec procs old (IL.loopHead xs ks) ρ tr (.done σ)) (hproper : tr.Proper) :
    (∀ x, x ∉ xs → σ x = ρ x) ∧ ∀ k ∈ ks, Holds old σ k.expr := by
  refine ⟨fun x hx => h.unchanged (by rwa [targetsAll_loopHead]), ?_⟩
  obtain ⟨ρ', tr₁, tr₂, -, hassumes, rfl⟩ := h.split
  exact List.forall_mem_map.1 (Exec.of_assumes _ (by rwa [List.map_map])
    (Trace.proper_append.1 hproper).2)

/-! ## Verified code -/

/-- No execution of the statements from a state violates an assertion. -/
def Verified (procs : List Procedure) (old : M.Valuation) (ss : List Stmt) (ρ : M.Valuation) :
    Prop :=
  ∀ ⦃tr k⦄, Exec procs old ss ρ tr k → tr.Proper → tr.Safe

namespace Verified

theorem of_append (h : Verified procs old (ss ++ ts) ρ) : Verified procs old ss ρ := by
  intro tr k hexec hproper
  obtain ⟨k', hexec'⟩ := hexec.exists_append ts
  exact h hexec' hproper

/-- Code is verified after a part of it that was executed. -/
theorem after (h : Verified procs old (ss ++ ts) ρ) (hexec : Exec procs old ss ρ tr (.done ρ'))
    (hproper : tr.Proper) : Verified procs old ts ρ' := by
  intro tr' k hexec' hproper'
  exact (Trace.safe_append.1
    (h (hexec.append hexec') (Trace.proper_append.2 ⟨hproper, hproper'⟩))).2

/-- Code is verified inside its statements. -/
theorem inside {s : Stmt} (h : Verified procs old (s :: ss) ρ) (ho : s.Opens procs ts rest) :
    Verified procs old ts ρ := by
  intro tr k hexec hproper
  cases k with
  | done ρ' => simpa using h (.through ho hexec (.cut _ _)) (by simpa using hproper)
  | left l ρ' =>
    cases hc : s.catches l with
    | true => simpa using h (.leftIt ho hexec hc (.cut _ _)) (by simpa using hproper)
    | false => exact h (.escape ho hexec (.left hc)) hproper
  | returned ρ' => exact h (.escape ho hexec .returned) hproper
  | cut ρ' => exact h (.escape ho hexec .cut) hproper

/-- Code is verified after a way through its first statement. -/
theorem past {s : Stmt} (h : Verified procs old (s :: ss) ρ) (ho : s.Opens procs ts rest)
    (hexec : Exec procs old ts ρ tr (.done ρ')) (hproper : tr.Proper) :
    Verified procs old (rest ++ ss) ρ' := by
  intro tr' k hexec' hproper'
  exact (Trace.safe_append.1
    (h (.through ho hexec hexec') (Trace.proper_append.2 ⟨hproper, hproper'⟩))).2

/-- The assertions among conditions hold if the assumptions do. -/
theorem asserted (h : Verified procs old (ss ++ ts) ρ) (hss : ∀ t ∈ ss, t.isCondition = true)
    (hassumed : ∀ e ∈ Stmt.assumed ss, Holds old ρ e) : ∀ e ∈ Stmt.asserted ss, Holds old ρ e :=
  fun e he => h.of_append (.of_conditions procs old ρ hss) (proper_events hassumed) old ρ e
    (mem_events_asserted.2 ⟨rfl, rfl, he⟩)

/-! ### Verifying statements -/

theorem nil : Verified procs old [] ρ := by
  intro tr k hexec _
  cases hexec <;> exact nofun

theorem leave {l : Option String} : Verified procs old (.leave l :: ss) ρ := by
  intro tr k hexec _
  cases hexec with
  | cut | leave => exact Trace.safe_nil
  | step hs => cases hs
  | through ho | leftIt ho | escape ho => cases ho

/-- Statements without control flow are verified by their steps. -/
theorem step {s : Stmt} (hopens : ∀ ts rest, ¬ s.Opens procs ts rest)
    (h : ∀ tr ρ', s.Steps procs old ρ tr ρ' → tr.Proper → tr.Safe ∧ Verified procs old ss ρ') :
    Verified procs old (s :: ss) ρ := by
  intro tr k hexec hproper
  cases hexec with
  | cut | leave | ret => exact nofun
  | step hs hexec =>
    obtain ⟨hproper₁, hproper₂⟩ := Trace.proper_append.1 hproper
    obtain ⟨hsafe, hss⟩ := h _ _ hs hproper₁
    exact Trace.safe_append.2 ⟨hsafe, hss hexec hproper₂⟩
  | through ho | leftIt ho | escape ho => exact (hopens _ _ ho).elim

theorem assign {x : String} {e : Expr}
    (h : Verified procs old ss (Function.update ρ x (e.eval old ρ))) :
    Verified procs old (.assign x e :: ss) ρ := by
  refine step nofun fun tr ρ' hs _ => ?_
  cases hs
  exact ⟨by simp [Trace.Safe], h⟩

theorem havoc {x : String} (h : ∀ a, Verified procs old ss (Function.update ρ x a)) :
    Verified procs old (.havoc x :: ss) ρ := by
  refine step nofun fun tr ρ' hs _ => ?_
  cases hs
  exact ⟨by simp [Trace.Safe], h _⟩

theorem assume {e : Expr} (h : Holds old ρ e → Verified procs old ss ρ) :
    Verified procs old (.assume e :: ss) ρ := by
  refine step nofun fun tr ρ' hs hproper => ?_
  cases hs
  exact ⟨by simp [Trace.Safe], h (hproper _ _ _ List.mem_cons_self)⟩

theorem assert {msg : Message} {e : Expr} (he : Holds old ρ e) (h : Verified procs old ss ρ) :
    Verified procs old (.assert msg e :: ss) ρ := by
  refine step nofun fun tr ρ' hs _ => ?_
  cases hs
  refine ⟨?_, h⟩
  intro old' ρ' e' hmem
  obtain ⟨rfl, rfl, rfl⟩ : old' = old ∧ ρ' = ρ ∧ e' = e := by simpa using hmem
  exact he

/-- A statement with branches is verified by its branches. -/
theorem ifElse {g : Option Expr} {a b : List Stmt}
    (ha : Verified procs old (assumeGuard g ++ a) ρ)
    (hb : Verified procs old (refuteGuard g ++ b) ρ)
    (hafter : ∀ ts ∈ [assumeGuard g ++ a, refuteGuard g ++ b], ∀ tr ρ',
      Exec procs old ts ρ tr (.done ρ') → tr.Proper → Verified procs old ss ρ') :
    Verified procs old (.ifElse g a b :: ss) ρ := by
  have branch {ts rest} (ho : (Stmt.ifElse g a b).Opens procs ts rest) :
      Verified procs old ts ρ ∧ ts ∈ [assumeGuard g ++ a, refuteGuard g ++ b] ∧ rest = [] := by
    cases ho with
    | thn => exact ⟨ha, by simp, rfl⟩
    | els => exact ⟨hb, by simp, rfl⟩
  intro tr k hexec hproper
  cases hexec with
  | cut => exact nofun
  | step hs => cases hs
  | through ho h hs =>
    obtain ⟨hts, hmem, rfl⟩ := branch ho
    obtain ⟨hproper₁, hproper₂⟩ := Trace.proper_append.1 hproper
    exact Trace.safe_append.2 ⟨hts h hproper₁, hafter _ hmem _ _ h hproper₁ hs hproper₂⟩
  | leftIt _ _ hc => simp [Stmt.catches] at hc
  | escape ho h => exact (branch ho).1 h hproper

/-! ### Loops -/

section

variable {xs : List String} {ks : List Clause} {body : List Stmt}

theorem asserts (hks : ∀ k ∈ ks, Holds old ρ k.expr) (h : Verified procs old ss ρ) :
    Verified procs old (ks.map (fun k => .assert (k.msg.getD default) k.expr) ++ ss) ρ := by
  induction ks with
  | nil => exact h
  | cons k ks ih =>
    obtain ⟨hk, hks⟩ := List.forall_mem_cons.1 hks
    exact assert hk (ih hks)

theorem havocs (h : ∀ σ, (∀ x, x ∉ xs → σ x = ρ x) → Verified procs old ss σ) :
    Verified procs old (xs.map .havoc ++ ss) ρ := by
  induction xs generalizing ρ with
  | nil => exact h ρ fun _ _ => rfl
  | cons x xs ih =>
    refine havoc fun a => ih fun σ hσ => h σ fun y hy => ?_
    simp only [List.mem_cons, not_or] at hy
    rw [hσ y hy.2, Function.update_of_ne hy.1]

theorem assumes (es : List Expr) (h : (∀ e ∈ es, Holds old ρ e) → Verified procs old ss ρ) :
    Verified procs old (es.map .assume ++ ss) ρ := by
  induction es with
  | nil => exact h (List.forall_mem_nil _)
  | cons e es ih => exact assume fun he => ih fun hes => h (List.forall_mem_cons.2 ⟨he, hes⟩)

/-- Code after the start of an iteration is verified if it is in every state that the cut
considers. -/
theorem head (hchecked : ∀ k ∈ ks, k.free = false → Holds old ρ k.expr)
    (h : ∀ σ, (∀ x, x ∉ xs → σ x = ρ x) → (∀ k ∈ ks, Holds old σ k.expr) →
      Verified procs old ss σ) :
    Verified procs old (loopHead xs ks ++ ss) ρ := by
  rw [loopHead, List.append_assoc, List.append_assoc]
  refine asserts (fun k hk => ?_) (havocs fun σ hσ => ?_)
  · obtain ⟨hk, hfree⟩ := List.mem_filter.1 hk
    exact hchecked k hk (by simpa using hfree)
  · have hassumes : Verified procs old ((ks.map (·.expr)).map .assume ++ ss) σ :=
      assumes _ fun hks => h σ hσ (List.forall_mem_map.1 hks)
    rwa [List.map_map] at hassumes

/-- The checked invariants hold where a loop starts. -/
theorem checked (h : Verified procs old [.loop none ks body] ρ) :
    ∀ k ∈ ks, k.free = false → Holds old ρ k.expr := by
  intro k hk hfree
  have hhead := h.inside (.again none ks body)
  rw [loopHead, List.append_assoc, List.append_assoc, List.append_assoc] at hhead
  refine hhead.asserted (List.forall_mem_map.2 fun _ _ => rfl) (fun e he => ?_) k.expr ?_
  · simp [Stmt.assumed] at he
  · simpa [Stmt.asserted] using ⟨k, ⟨hk, hfree⟩, rfl⟩

/-- The body is verified in every state in which the cut lets it start. -/
theorem iteration (h : Verified procs old [.loop none ks body] ρ)
    (hsame : ∀ x, x ∉ Stmt.targetsAll procs body → σ x = ρ x) (hks : ∀ k ∈ ks, Holds old σ k.expr) :
    Verified procs old body σ := by
  obtain ⟨tr, hexec, hproper⟩ := Exec.loopHead procs hsame hks
  have hhead := h.inside (.again none ks body)
  rw [List.append_assoc] at hhead
  exact hhead.after hexec hproper

/-- The loop is verified after an iteration from such a state. -/
theorem next (h : Verified procs old [.loop none ks body] ρ)
    (hsame : ∀ x, x ∉ Stmt.targetsAll procs body → σ x = ρ x) (hks : ∀ k ∈ ks, Holds old σ k.expr)
    (hexec : Exec procs old body σ tr (.done ρ')) (hproper : tr.Proper) :
    Verified procs old [.loop none ks body] ρ' := by
  obtain ⟨tr', hhead, hproper'⟩ := Exec.loopHead procs hsame hks
  refine h.past (.again none ks body) ?_ (Trace.proper_append.2 ⟨hproper', hproper⟩)
  simpa [assumeGuard] using hhead.append hexec

/-- A loop is verified by its cut: its checked invariants hold on entry, the body is verified in
every state in which the cut lets it start, and keeps the checked invariants. -/
theorem loop_iff : Verified procs old [.loop none ks body] ρ ↔
    (∀ k ∈ ks, k.free = false → Holds old ρ k.expr) ∧
    ∀ σ, (∀ x, x ∉ Stmt.targetsAll procs body → σ x = ρ x) → (∀ k ∈ ks, Holds old σ k.expr) →
      Verified procs old body σ ∧ ∀ tr ρ', Exec procs old body σ tr (.done ρ') → tr.Proper →
        ∀ k ∈ ks, k.free = false → Holds old ρ' k.expr := by
  refine ⟨fun h => ⟨h.checked, fun σ hsame hks => ⟨h.iteration hsame hks,
    fun tr ρ' hexec hproper => (h.next hsame hks hexec hproper).checked⟩⟩, ?_⟩
  rintro ⟨hentry, hcut⟩ tr k hexec
  have opened {σ : M.Valuation} (hsame : ∀ x, x ∉ Stmt.targetsAll procs body → σ x = ρ x)
      (hchecked : ∀ k ∈ ks, k.free = false → Holds old σ k.expr) {ts rest : List Stmt}
      (ho : (Stmt.loop none ks body).Opens procs ts rest) : Verified procs old ts σ := by
    cases ho with
    | again =>
      rw [List.append_assoc]
      exact head hchecked fun τ hτ hks =>
        (hcut τ (fun x hx => (hτ x hx).trans (hsame x hx)) hks).1
    | finished => exact head hchecked fun τ _ _ => nil
  -- iterations start in states that differ from the first one in what the body assigns
  suffices ∀ {ts : List Stmt} {σ : M.Valuation}, Exec procs old ts σ tr k →
      ts = [.loop none ks body] → (∀ x, x ∉ Stmt.targetsAll procs body → σ x = ρ x) →
      (∀ k ∈ ks, k.free = false → Holds old σ k.expr) → tr.Proper → tr.Safe from
    this hexec rfl (fun _ _ => rfl) hentry
  clear hexec hentry
  intro ts σ hexec
  induction hexec with
  | cut | nil | leave | ret => exact fun _ _ _ _ => nofun
  | step hs => rintro ⟨⟩; cases hs
  | @through s ss us rest σ σ' tr tr' k ho h hs _ ih =>
    rintro ⟨⟩ hsame hchecked hproper
    obtain ⟨hproper₁, hproper₂⟩ := Trace.proper_append.1 hproper
    refine Trace.safe_append.2 ⟨opened hsame hchecked ho h hproper₁, ?_⟩
    cases ho with
    | again =>
      obtain ⟨τ, tr₁, tr₂, hhead, hbody, rfl⟩ := h.split
      obtain ⟨hproper₃, hproper₄⟩ := Trace.proper_append.1 hproper₁
      rw [assumeGuard, Option.toList_none, List.map_nil, List.append_nil] at hhead
      obtain ⟨hτ, hks⟩ := hhead.of_loopHead hproper₃
      have hτρ : ∀ x, x ∉ Stmt.targetsAll procs body → τ x = ρ x :=
        fun x hx => (hτ x hx).trans (hsame x hx)
      exact ih rfl (fun x hx => (hbody.unchanged hx).trans (hτρ x hx))
        ((hcut τ hτρ hks).2 _ _ hbody hproper₄) hproper₂
    | finished => exact nil hs hproper₂
  | @leftIt s ss us rest σ σ' tr tr' k l ho h hc hs =>
    rintro ⟨⟩ hsame hchecked hproper
    obtain ⟨hproper₁, hproper₂⟩ := Trace.proper_append.1 hproper
    exact Trace.safe_append.2 ⟨opened hsame hchecked ho h hproper₁, nil hs hproper₂⟩
  | escape ho h =>
    rintro ⟨⟩ hsame hchecked hproper
    exact opened hsame hchecked ho h hproper

end

end Verified

/-- The states in which iterations of a loop really start: the one it is entered in, and those to
which its body leads. -/
inductive Heads (procs : List Procedure) (old : M.Valuation) (body : List Stmt) (ρ : M.Valuation) :
    M.Valuation → Prop
  | entry : Heads procs old body ρ ρ
  | next {σ σ' : M.Valuation} {tr : Trace M} (h : Heads procs old body ρ σ)
      (hexec : Exec procs old body σ tr (.done σ')) (hproper : tr.Proper) :
      Heads procs old body ρ σ'

namespace Heads

variable {ks : List Clause} {body : List Stmt}

/-- Iterations change nothing but what the body assigns. -/
theorem unchanged (h : Heads procs old body ρ σ) {x : String}
    (hx : x ∉ Stmt.targetsAll procs body) : σ x = ρ x := by
  induction h with
  | entry => rfl
  | next _ hexec _ ih => exact (hexec.unchanged hx).trans ih

/-- A loop that is verified on entry is verified whenever an iteration starts, if its free
invariants hold there. -/
theorem verified (hverified : Verified procs old [.loop none ks body] ρ)
    (hfree : ∀ σ, Heads procs old body ρ σ → ∀ k ∈ ks, k.free = true → Holds old σ k.expr)
    (h : Heads procs old body ρ σ) : Verified procs old [.loop none ks body] σ := by
  induction h with
  | entry => exact hverified
  | @next σ σ' tr h hexec hproper ih =>
    refine ih.next (fun _ _ => rfl) (fun k hk => ?_) hexec hproper
    cases hk' : k.free with
    | false => exact ih.checked k hk hk'
    | true => exact hfree σ h k hk hk'

/-- All invariants hold whenever an iteration starts, if the free ones do. -/
theorem holds (hverified : Verified procs old [.loop none ks body] ρ)
    (hfree : ∀ σ, Heads procs old body ρ σ → ∀ k ∈ ks, k.free = true → Holds old σ k.expr)
    (h : Heads procs old body ρ σ) : ∀ k ∈ ks, Holds old σ k.expr := by
  intro k hk
  cases hk' : k.free with
  | false => exact (h.verified hverified hfree).checked k hk hk'
  | true => exact hfree σ h k hk hk'

end Heads

end ContractLowering.IL
