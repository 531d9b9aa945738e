import ContractLowering.Lowering.Session
import ContractLowering.Proofs.Context
import ContractLowering.Proofs.Lowering.Emits

/-!
# One declaration at a time

Whether a declaration is in progress is a flag of the state. A session is inside a declaration
exactly if the flag is set, whatever was entered, left, refused or broken before (`Guarded`): a
lowering begins in a scope of its own or is refused without a trace, and however it ends, the state
of a declaration is the initial one again. A class and an iterator have several scopes one after
the other, and each finds what the one before it left behind (`Leaves`).

Numbers are counted from the entry: a session that has not left the declaration it entered has been
given 1, 2, 3 and so on there (`numbers_of_held`).
-/

namespace ContractLowering

open Source

/-- The error of a declaration that cannot be begun because another one is not finished. -/
def busy (span : Span) : Message :=
  .internal "translation of a declaration started while another one is in progress" span

/-! ## Scopes -/

section

variable {α β : Type} {c : Context} {s : Progress}

theorem Progress.enter_of_idle (h : s.decl.inProgress = false) (span : Span) (module : String)
    (member : Option Path) : s.enter span module member =
      .ok { s with decl := { inProgress := true, module := some module, member } } := by
  rw [Progress.enter, h]
  rfl

theorem Progress.enter_of_inProgress (h : s.decl.inProgress = true) (span : Span)
    (module : String) (member : Option Path) :
    s.enter span module member = .error (busy span) := by
  rw [Progress.enter, h]
  rfl

namespace DeclM

/-- Such a computation is refused, and changes nothing, while a declaration is in progress. -/
def RefusedAt (span : Span) (x : DeclM α) (c : Context) : Prop :=
  ∀ s, s.decl.inProgress = true → x c s = (.error (.rejected (busy span)), s)

/-- Such a computation begins only when nothing is in progress, and leaves nothing behind of the
declarations it went through. -/
def Leaves (x : DeclM α) (c : Context) : Prop :=
  ∀ s, s.decl.inProgress = false → (x c s).2.decl = {}

/-- Nothing is left behind where nothing was. -/
def Restores (x : DeclM α) (c : Context) : Prop := ∀ s, s.decl = {} → (x c s).2.decl = {}

theorem Leaves.restores {x : DeclM α} (h : x.Leaves c) : x.Restores c := fun s hs =>
  h s (by rw [hs])

theorem RefusedAt.bind {span : Span} {x : DeclM α} (h : x.RefusedAt span c) (f : α → DeclM β) :
    (x >>= f).RefusedAt span c := by
  intro s hs
  show seq x f c s = _
  rw [seq, h s hs]

theorem Restores.pure (a : α) : (Pure.pure a : DeclM α).Restores c := fun _ hs => hs

theorem Restores.bind {x : DeclM α} {f : α → DeclM β} (hx : x.Restores c)
    (hf : ∀ a, (f a).Restores c) : (x >>= f).Restores c := by
  intro s hs
  have hone := hx s hs
  show (seq x f c s).2.decl = {}
  unfold seq
  generalize x c s = r at hone ⊢
  obtain ⟨_ | a, s₁⟩ := r
  · exact hone
  · exact hf a s₁ hone

theorem Restores.forM {f : α → DeclM Unit} {as : List α} (hf : ∀ a ∈ as, (f a).Restores c) :
    (as.forM f).Restores c := by
  induction as with
  | nil => exact .pure ()
  | cons a as ih => exact .bind (hf a (by simp)) fun _ => ih fun b hb => hf b (by simp [hb])

theorem Leaves.bind {x : DeclM α} {f : α → DeclM β} (hx : x.Leaves c)
    (hf : ∀ a, (f a).Restores c) : (x >>= f).Leaves c := by
  intro s hs
  have hone := hx s hs
  show (seq x f c s).2.decl = {}
  unfold seq
  generalize x c s = r at hone ⊢
  obtain ⟨_ | a, s₁⟩ := r
  · exact hone
  · exact hf a s₁ hone

theorem within_refusedAt (span : Span) (module : String) (member : Option Path) (x : DeclM α) :
    (within span module member x).RefusedAt span c := by
  intro s hs
  rw [within, Progress.enter_of_inProgress hs]

theorem within_leaves (span : Span) (module : String) (member : Option Path) (x : DeclM α) :
    (within span module member x).Leaves c := by
  intro s hs
  rw [within, Progress.enter_of_idle hs]
  rfl

/-- What is looked up in the context first does not matter once it is found. -/
theorem bind_of_found {x : DeclM α} {a : α} (h : ∀ s, x c s = (.ok a, s)) (f : α → DeclM β)
    (s : Progress) : (x >>= f) c s = f a c s := by
  show seq x f c s = _
  rw [seq, h s]

end DeclM

end

/-! ## Lowerings -/

open DeclM (RefusedAt Leaves Restores within_refusedAt within_leaves)

variable {c : Context}

theorem Source.Class.lower_refusedAt (k : Source.Class) : k.lower.RefusedAt k.span c :=
  (within_refusedAt _ _ _ _).bind _

theorem Source.Class.lower_leaves (k : Source.Class) : k.lower.Leaves c :=
  (within_leaves _ _ _ _).bind fun _ =>
    .bind (.forM fun _ _ => (within_leaves _ _ _ _).restores) fun _ =>
      .forM fun _ _ => (within_leaves _ _ _ _).restores

/-- An iterator is lowered as its class and then its body. -/
theorem Source.Iterator.lower_eq {i : Iterator} {k : Source.Class} (h : c.cls i.path = .ok k)
    (s : Progress) : i.lower c s = (do k.lower; i.body.forM i.lowerBody : DeclM Unit) c s := by
  have hfound : ∀ s, (do ExprM.ofExcept ((← DeclM.context).cls i.path) : DeclM _) c s =
      (.ok k, s) := fun s => by
    show DeclM.ofExpr (ExprM.ofExcept (c.cls i.path)) c s = _
    rw [h]
    rfl
  exact DeclM.bind_of_found hfound _ s

namespace Lowerable

/-- An iterator of the context; everything else stands for itself. -/
def KnownTo (c : Context) : Lowerable → Prop
  | .iterator i => i ∈ c.iterators
  | .cls _ | .datatype _ | .function _ | .method _ => True

variable {program : Source.Program} {options : Options}

theorem lower_refusedAt (hc : Context.ofProgram program options = .ok c) {d : Lowerable}
    (hd : d.KnownTo c) : d.lower.RefusedAt d.span c := by
  cases d with
  | cls k => exact k.lower_refusedAt
  | datatype d => exact within_refusedAt _ _ _ _
  | function f => exact within_refusedAt _ _ _ _
  | method m => exact within_refusedAt _ _ _ _
  | iterator i =>
    intro s hs
    have hcls := Context.cls_of_iterator hc hd
    exact (i.lower_eq hcls s).trans (i.toClass.lower_refusedAt.bind _ s hs)

theorem lower_leaves (hc : Context.ofProgram program options = .ok c) {d : Lowerable}
    (hd : d.KnownTo c) : d.lower.Leaves c := by
  cases d with
  | cls k => exact k.lower_leaves
  | datatype d => exact within_leaves _ _ _ _
  | function f => exact within_leaves _ _ _ _
  | method m => exact within_leaves _ _ _ _
  | iterator i =>
    intro s hs
    have hcls := Context.cls_of_iterator hc hd
    show (i.lower c s).2.decl = {}
    rw [i.lower_eq hcls s]
    refine i.toClass.lower_leaves.bind (fun _ => ?_) s hs
    cases i.body with
    | none => exact .pure ()
    | some body => exact (within_leaves _ _ _ _).restores

end Lowerable

/-! ## Sessions -/

namespace Session

/-- A session knows the iterators that it lowers. -/
def Knows (c : Context) (steps : List Step) : Prop := ∀ d, .lower d ∈ steps → d.KnownTo c

/-- What is guaranteed of one step: before and after it a declaration is in progress exactly if the
session is inside one, entering and lowering take place outside of one and are refused without a
trace inside one, and a lowering leaves the initial state of a declaration behind. -/
structure Transition.Guarded (t : Transition) : Prop where
  before : t.before.progress.decl.inProgress = t.before.held
  after : t.after.progress.decl.inProgress = t.after.held
  entered : ∀ {span module member}, t.step = .enter span module member → t.before.held = false →
    t.answer = .done ∧ t.after = ⟨{ t.before.progress with
      decl := { inProgress := true, module := some module, member } }, true⟩
  enterRefused : ∀ {span module member}, t.step = .enter span module member →
    t.before.held = true → t.answer = .fault (.rejected (busy span)) ∧ t.after = t.before
  lowered : ∀ {d}, t.step = .lower d → t.before.held = false →
    t.after.progress.decl = {} ∧ t.after.held = false
  lowerRefused : ∀ {d}, t.step = .lower d → t.before.held = true →
    t.answer = .fault (.rejected (busy d.span)) ∧ t.after = t.before

/-- Whether a number is asked for. -/
def Step.takesNumber : Step → Bool
  | .freshId => true
  | .enter .. | .exit | .lower _ => false

/-- The number that was given in a step. -/
def Transition.number? (t : Transition) : Option Nat :=
  match t.answer with
  | .number n => some n
  | _ => none

/-- The numbers that are given in steps. -/
def numbers (c : Context) (s : Session) (steps : List Step) : List Nat :=
  (s.transitions c steps).filterMap Transition.number?

variable {program : Source.Program} {options : Options} {s : Session}

/-- A declaration is in progress exactly if the session is inside one. -/
def Honest (s : Session) : Prop := s.progress.decl.inProgress = s.held

theorem step_lower (c : Context) (s : Session) (d : Lowerable) :
    s.step c (.lower d) = (match (d.lower c s.progress).1 with
      | .ok () => .done
      | .error f => .fault f, { s with progress := (d.lower c s.progress).2 }) := by
  rw [step]
  rcases d.lower c s.progress with ⟨_ | _, _⟩ <;> rfl

theorem step_lower_of_held (hc : Context.ofProgram program options = .ok c) {d : Lowerable}
    (hd : d.KnownTo c) (hs : s.progress.decl.inProgress = true) :
    s.step c (.lower d) = (.fault (.rejected (busy d.span)), s) := by
  rw [step_lower, Lowerable.lower_refusedAt hc hd _ hs]

theorem guarded_step (hc : Context.ofProgram program options = .ok c) (st : Step)
    (hst : Knows c [st]) (hs : s.Honest) :
    Transition.Guarded ⟨s, st, (s.step c st).1, (s.step c st).2⟩ := by
  cases hheld : s.held with
  | false =>
    have hidle : s.progress.decl.inProgress = false := hs.trans hheld
    cases st with
    | enter span module member =>
      have hstep : s.step c (.enter span module member) = (.done, ⟨{ s.progress with
          decl := { inProgress := true, module := some module, member } }, true⟩) := by
        rw [step, Progress.enter_of_idle hidle]
      rw [hstep]
      exact ⟨hs, rfl, fun h _ => by cases h; exact ⟨rfl, rfl⟩,
        fun _ h => absurd h (by simp [hheld]), nofun, nofun⟩
    | exit =>
      have hstep : s.step c .exit = (.left false, s) := by simp [step, hheld]
      rw [hstep]
      exact ⟨hs, hs, nofun, nofun, nofun, nofun⟩
    | freshId => exact ⟨hs, hs, nofun, nofun, nofun, nofun⟩
    | lower d =>
      have hleft := Lowerable.lower_leaves hc (hst d (by simp)) s.progress hidle
      rw [step_lower]
      exact ⟨hs, by rw [hleft, hheld], nofun, nofun, fun h _ => by cases h; exact ⟨hleft, hheld⟩,
        fun _ h => absurd h (by simp [hheld])⟩
  | true =>
    have hbusy : s.progress.decl.inProgress = true := hs.trans hheld
    cases st with
    | enter span module member =>
      have hstep : s.step c (.enter span module member) = (.fault (.rejected (busy span)), s) := by
        rw [step, Progress.enter_of_inProgress hbusy]
      rw [hstep]
      exact ⟨hs, hs, fun _ h => absurd h (by simp [hheld]),
        fun h _ => by cases h; exact ⟨rfl, rfl⟩, nofun, nofun⟩
    | exit =>
      have hstep : s.step c .exit = (.left true, ⟨s.progress.leave, false⟩) := by
        simp [step, hheld]
      rw [hstep]
      exact ⟨hs, rfl, nofun, nofun, nofun, nofun⟩
    | freshId => exact ⟨hs, hs, nofun, nofun, nofun, nofun⟩
    | lower d =>
      rw [step_lower_of_held hc (hst d (by simp)) hbusy]
      exact ⟨hs, hs, nofun, nofun, fun _ h => absurd h (by simp [hheld]),
        fun h _ => by cases h; exact ⟨rfl, rfl⟩⟩

theorem guarded_transitions (hc : Context.ofProgram program options = .ok c) {steps : List Step}
    (hsteps : Knows c steps) (hs : s.Honest) : ∀ t ∈ s.transitions c steps, t.Guarded := by
  induction steps generalizing s with
  | nil => simp [transitions]
  | cons st steps ih =>
    have hone := guarded_step hc st (fun d hd => hsteps d (by simp_all)) hs
    rw [transitions, List.forall_mem_cons]
    exact ⟨hone, ih (fun d hd => hsteps d (List.mem_cons_of_mem _ hd)) hone.after⟩

theorem honest_after (hc : Context.ofProgram program options = .ok c) {steps : List Step}
    (hsteps : Knows c steps) (hs : s.Honest) : (s.after c steps).Honest := by
  induction steps generalizing s with
  | nil => exact hs
  | cons st steps ih =>
    exact ih (fun d hd => hsteps d (List.mem_cons_of_mem _ hd))
      (guarded_step hc st (fun d hd => hsteps d (by simp_all)) hs).after

/-- Inside a declaration, numbers go on from the last one as long as it is not left. -/
theorem numbers_of_held (hc : Context.ofProgram program options = .ok c) {steps : List Step}
    (hsteps : Knows c steps) (hexit : Step.exit ∉ steps) (hheld : s.held = true)
    (hs : s.Honest) : s.numbers c steps =
      List.range' (s.progress.decl.counter + 1) (steps.countP Step.takesNumber) := by
  induction steps generalizing s with
  | nil => rfl
  | cons st steps ih =>
    have hrest : Knows c steps := fun d hd => hsteps d (List.mem_cons_of_mem _ hd)
    have hleave : Step.exit ∉ steps := fun h => hexit (List.mem_cons_of_mem _ h)
    have hone := guarded_step hc st (fun d hd => hsteps d (by simp_all)) hs
    -- a step that is refused gives no number
    have refused {f : Fault} (h : s.step c st = (.fault f, s)) :
        s.numbers c (st :: steps) = s.numbers c steps := by
      rw [numbers, transitions, h]
      rfl
    cases st with
    | enter span module member =>
      rw [refused (Prod.ext (hone.enterRefused rfl hheld).1 (hone.enterRefused rfl hheld).2)]
      exact ih hrest hleave hheld hs
    | exit => exact absurd List.mem_cons_self hexit
    | freshId =>
      rw [List.countP_cons_of_pos rfl, List.range'_succ]
      exact congrArg ((s.progress.decl.counter + 1) :: ·)
        (ih (s := (s.step c .freshId).2) hrest hleave hheld hs)
    | lower d =>
      rw [refused (Prod.ext (hone.lowerRefused rfl hheld).1 (hone.lowerRefused rfl hheld).2)]
      exact ih hrest hleave hheld hs

/-- A session that starts outside of every declaration takes guarded steps only, and from every
entry on numbers are 1, 2, 3 and so on until the declaration is left. -/
theorem session_guarded (hc : Context.ofProgram program options = .ok c) {start : Progress}
    (hstart : start.decl = {}) {steps : List Step} (hsteps : Knows c steps) :
    (∀ t ∈ transitions c ⟨start, false⟩ steps, t.Guarded) ∧
      ∀ pre span module member inside post,
        steps = pre ++ .enter span module member :: (inside ++ post) →
        (after c ⟨start, false⟩ pre).held = false → Step.exit ∉ inside →
        numbers c (after c ⟨start, false⟩ (pre ++ [.enter span module member])) inside =
          List.range' 1 (inside.countP Step.takesNumber) := by
  have honest : Honest ⟨start, false⟩ := by rw [Honest, hstart]
  refine ⟨guarded_transitions hc hsteps honest, ?_⟩
  rintro pre span module member inside post rfl hidle hexit
  have hpre : Knows c pre := fun d hd => hsteps d (by simp [hd])
  have hinside : Knows c inside := fun d hd => hsteps d (by simp [hd])
  have hentered : ((after c ⟨start, false⟩ pre).step c (.enter span module member)).2 =
      ⟨{ (after c ⟨start, false⟩ pre).progress with
        decl := { inProgress := true, module := some module, member } }, true⟩ :=
    ((guarded_step hc (.enter span module member) (fun _ hd => by simp at hd)
      (honest_after hc hpre honest)).entered rfl hidle).2
  have hafter : after c ⟨start, false⟩ (pre ++ [.enter span module member]) =
      ((after c ⟨start, false⟩ pre).step c (.enter span module member)).2 := by
    simp [after, List.foldl_append]
  rw [hafter, hentered]
  exact numbers_of_held hc hinside hexit rfl rfl

/-- A predicate that calls a function which is declared nowhere. -/
def stray : Function :=
  { (default : Function) with
    name := ⟨"M", ["stray"]⟩
    body := some (.call ⟨default, .bool⟩ ⟨"M", ["missing"]⟩ none []) }

/-- A lowering that breaks between two entries, and one that is refused inside the second. -/
theorem session_guarded_stray :
    let entry : Step := .enter default "M" none
    let pre : List Step := [entry, .freshId, .exit, .lower (.function stray)]
    let inside : List Step := [.freshId, .lower (.function stray), .freshId]
    let steps : List Step := pre ++ entry :: (inside ++ [.exit])
    ∃ c, Context.ofProgram [] {} = .ok c ∧ Knows c steps ∧
      (∀ t ∈ transitions c ⟨{}, false⟩ steps, t.Guarded) ∧
      (after c ⟨{}, false⟩ pre).held = false ∧ Step.exit ∉ inside ∧
      numbers c (after c ⟨{}, false⟩ (pre ++ [entry])) inside = [1, 2] := by
  intro entry pre inside steps
  have hc : Context.ofProgram [] {} = .ok { calls := .ofCalls [] [] } := rfl
  have hknows : Knows { calls := .ofCalls [] [] } steps := fun d hd => by
    have hd : d = .function stray := by
      simpa [steps, pre, inside, entry] using hd
    subst hd
    trivial
  have hidle : (after { calls := .ofCalls [] [] } ⟨{}, false⟩ pre).held = false := by
    show (step _ (after _ ⟨{}, false⟩ [entry, .freshId, .exit]) (.lower _)).2.held = false
    rw [step_lower]
    rfl
  have hexit : Step.exit ∉ inside := by simp [inside]
  obtain ⟨hguarded, hnumbers⟩ := session_guarded hc (show ({} : Progress).decl = {} from rfl) hknows
  exact ⟨_, hc, hknows, hguarded, hidle, hexit,
    hnumbers pre default "M" none inside [.exit] rfl hidle hexit⟩

end Session

end ContractLowering
