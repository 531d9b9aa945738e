import ContractLowering.SExpr.Basic

/-!
# Reading S-expressions

Text is read byte by byte: `Reader.feed` takes the next byte, which may finish an atom, open or
close a list, or be refused. `readForest` reads a text as the inside of one list, which is why
positions count the parenthesis that would stand before it.

An atom may hold quoted sections, in which blanks and parentheses are ordinary; it keeps its raw
text. A comment runs from a semicolon to the end of its line, so one on the last line hides the
closing parenthesis. A parenthesis too many closes the list, and nothing after it is looked at.
-/

namespace ContractLowering.SExpr

/-- A place in the text: line and column from zero, columns counted in bytes. -/
structure Pos where
  line : Nat
  column : Nat
deriving DecidableEq, Inhabited

namespace Pos

/-- The first place inside a list that opens a text. -/
def start : Pos := ⟨0, 1⟩

/-- One byte further on the same line. -/
def next (p : Pos) : Pos := ⟨p.line, p.column + 1⟩

/-- The first place of the next line. -/
def newline (p : Pos) : Pos := ⟨p.line + 1, 0⟩

/-- The text of a position. -/
def render (p : Pos) : String :=
  "Pos \x7b line: " ++ toString p.line ++ ", column: " ++ toString p.column ++ " \x7d"

end Pos

/-- Why a text is no tree. -/
inductive SyntaxError where
  | illegalChar (pos : Pos) (byte : UInt8)
  | illegalCharInComment (pos : Pos) (byte : UInt8)
  | illegalCharInString (pos : Pos) (byte : UInt8)
  | unfinishedString (pos : Pos)
  | unexpectedEnd (pos : Pos)
deriving DecidableEq, Inhabited

namespace SyntaxError

/-- The fields of an error about one byte. -/
def renderByte (pos : Pos) (byte : UInt8) : String :=
  " \x7b pos: " ++ pos.render ++ ", chr: " ++ toString byte.toNat ++ " \x7d"

/-- The text of an error. -/
def render : SyntaxError → String
  | .illegalChar pos byte => "IllegalChr" ++ renderByte pos byte
  | .illegalCharInComment pos byte => "IllegalChrInComment" ++ renderByte pos byte
  | .illegalCharInString pos byte => "IllegalChrInString" ++ renderByte pos byte
  | .unfinishedString pos => "UnfinishedString \x7b pos: " ++ pos.render ++ " \x7d"
  | .unexpectedEnd pos => "UnexpectedToken \x7b pos: " ++ pos.render ++ ", token: Eof \x7d"

end SyntaxError

/-- The units of a text. -/
inductive Token where
  | opening
  | closing
  | atom (s : String)
deriving DecidableEq, Inhabited

/-- What the bytes read so far leave open: nothing, a comment, an atom, a quoted section of an
atom, or a backslash in such a section. An atom's bytes are kept newest first. -/
inductive Mode where
  | between
  | comment
  | inAtom (bytes : List UInt8)
  | inString (bytes : List UInt8)
  | inEscape (bytes : List UInt8)
deriving Inhabited

/-- The reader between two bytes: where it stands, whether the last byte was a carriage return,
the list it is in and the lists around it (innermost first, elements newest first), and the
elements of the outermost list once that is closed. -/
structure Reader where
  mode : Mode := .between
  pos : Pos := .start
  afterReturn : Bool := false
  current : List SExpr := []
  outer : List (List SExpr) := []
  closed : Option (List SExpr) := none
deriving Inhabited

/-- The characters that may stand in an atom outside its quoted sections, the quote apart. -/
def isAtomByte (b : UInt8) : Bool :=
  let c := Char.ofUInt8 b
  c.isAlphanum || "!#$%&*+-./:<=>?@_~".toList.contains c

/-- The printable characters, blank included. -/
def isPrintableByte (b : UInt8) : Bool := 0x20 ≤ b && b ≤ 0x7E

/-- The text of bytes collected newest first. All of them are below 128. -/
def textOfRev (bytes : List UInt8) : String :=
  String.ofList (bytes.reverse.map Char.ofUInt8)

namespace Reader

/-- Takes one token. -/
def token (r : Reader) : Token → Reader
  | .atom s => { r with current := .atom s :: r.current }
  | .opening => { r with current := [], outer := r.current :: r.outer }
  | .closing => match r.outer with
    | [] => { r with closed := some r.current.reverse }
    | es :: outer => { r with current := .list r.current.reverse :: es, outer }

/-- Moves past the present byte into a mode. -/
def advance (r : Reader) (mode : Mode) : Reader :=
  { r with mode, pos := r.pos.next, afterReturn := false }

/-- Moves past a line break. A line feed after a carriage return belongs to the same break. -/
def lineBreak (r : Reader) (b : UInt8) : Reader :=
  if b == 10 && r.afterReturn then { r with mode := .between, afterReturn := false }
  else { r with mode := .between, pos := r.pos.newline, afterReturn := b == 13 }

/-- Takes a byte that stands outside atoms and comments. -/
def feedBetween (r : Reader) (b : UInt8) : Except SyntaxError Reader :=
  let c := Char.ofUInt8 b
  if c == ' ' || c == '\t' then .ok (r.advance .between)
  else if c == '\n' || c == '\r' then .ok (r.lineBreak b)
  else if c == ';' then .ok (r.advance .comment)
  else if c == '(' then .ok ((r.token .opening).advance .between)
  else if c == ')' then .ok ((r.token .closing).advance .between)
  else if c == '"' then .ok (r.advance (.inString [b]))
  else if isAtomByte b then .ok (r.advance (.inAtom [b]))
  else .error (.illegalChar r.pos b)

/-- Takes one byte inside the outermost list. -/
def feedInside (r : Reader) (b : UInt8) : Except SyntaxError Reader :=
  match r.mode with
  | .between => r.feedBetween b
  | .comment =>
    if b == 10 || b == 13 then .ok (r.lineBreak b)
    else if isPrintableByte b || b == 9 then .ok (r.advance .comment)
    else .error (.illegalCharInComment r.pos b)
  | .inAtom bytes =>
    if Char.ofUInt8 b == '"' then .ok (r.advance (.inString (b :: bytes)))
    else if isAtomByte b then .ok (r.advance (.inAtom (b :: bytes)))
    else (r.token (.atom (textOfRev bytes))).feedBetween b
  | .inString bytes =>
    if Char.ofUInt8 b == '"' then .ok (r.advance (.inAtom (b :: bytes)))
    else if Char.ofUInt8 b == '\\' then .ok (r.advance (.inEscape (b :: bytes)))
    else if isPrintableByte b then .ok (r.advance (.inString (b :: bytes)))
    else .error (.illegalCharInString r.pos b)
  | .inEscape bytes =>
    if isPrintableByte b then .ok (r.advance (.inString (b :: bytes)))
    else .error (.illegalCharInString r.pos b)

/-- Takes one byte. None is looked at once the outermost list is closed. -/
def feed (r : Reader) (b : UInt8) : Except SyntaxError Reader :=
  if r.closed.isSome then .ok r else r.feedInside b

/-- The trees that have been read when the text ends here. -/
def finish (r : Reader) : Except SyntaxError (List SExpr) :=
  match r.closed, r.mode with
  | some es, _ => .ok es
  | none, .inString _ | none, .inEscape _ => .error (.unfinishedString r.pos)
  | none, _ => .error (.unexpectedEnd r.pos)

end Reader

/-- Reads a text as the inside of one list. -/
def readForest (text : String) : Except SyntaxError (List SExpr) := do
  let r ← (text ++ ")").toUTF8.toList.foldlM Reader.feed {}
  r.finish

end ContractLowering.SExpr
