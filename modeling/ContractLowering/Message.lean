/-!
# Source positions and messages

A `Message` is what a failed check says to the user: a level, a note, the places it points at,
labelled secondary places and trailing remarks. Every checked assertion of a lowered program
carries one, and a lowering that refuses its input answers with one. `Message.render` fixes the
text: one line for the note, then one line for every place, label and remark, in this order.
-/

namespace ContractLowering

/-- A place in the source: a stable identifier of the node and the text that is shown for it. -/
structure Span where
  id : Nat
  text : String
deriving DecidableEq, Inhabited

/-- How serious a message is. -/
inductive Level where
  | error
  | note
deriving DecidableEq, Inhabited

/-- The word a level is shown with. -/
def Level.word : Level → String
  | .error => "error"
  | .note => "note"

/-- A secondary place with the reason it is shown. -/
structure Label where
  span : Span
  note : String
deriving DecidableEq, Inhabited

/-- A message to the user. -/
structure Message where
  level : Level
  note : String
  spans : List Span
  labels : List Label
  remarks : List String
deriving DecidableEq, Inhabited

namespace Message

/-- An error that points nowhere. -/
def bare (note : String) : Message := ⟨.error, note, [], [], []⟩

/-- An error at one place. -/
def error (note : String) (span : Span) : Message := ⟨.error, note, [span], [], []⟩

/-- An error that reports a broken promise about the input, not a fault of the user. -/
def internal (note : String) (span : Span) : Message := error ("internal error: " ++ note) span

/-- Adds a labelled secondary place after the present ones. -/
def withLabel (m : Message) (span : Span) (note : String) : Message :=
  { m with labels := m.labels ++ [⟨span, note⟩] }

/-- Adds a trailing remark after the present ones. -/
def withRemark (m : Message) (remark : String) : Message :=
  { m with remarks := m.remarks ++ [remark] }

/-- An error at a call that points back at the requires clause which may fail. -/
def precondition (note : String) (call requiresClause : Span) : Message :=
  (error note call).withLabel requiresClause "failed precondition"

/-- The text of a message: its note, then places, labels and remarks on lines of their own. -/
def render (m : Message) : String :=
  m.level.word ++ ": " ++ m.note
    ++ String.join (m.spans.map fun s => "\n  --> " ++ s.text)
    ++ String.join (m.labels.map fun l => "\n  - " ++ l.note ++ ": " ++ l.span.text)
    ++ String.join (m.remarks.map fun r => "\n  = note: " ++ r)

end Message

/-- The messages reported so far, each with the level it was reported at. -/
abbrev Diagnostics := List (Level × Message)

/-- Reports a message at a level that may differ from its own. -/
def Diagnostics.reportAs (ds : Diagnostics) (level : Level) (m : Message) : Diagnostics :=
  ds ++ [(level, m)]

/-- Reports a message at its own level. -/
def Diagnostics.report (ds : Diagnostics) (m : Message) : Diagnostics :=
  ds.reportAs m.level m

end ContractLowering
