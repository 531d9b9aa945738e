import ContractLowering.Text.Hidden

/-!
# Quoted text

A text in double quotes, as messages show names. Quotes, backslashes and the usual control
characters have short escapes; every other character that does not show by itself is written by
its code point.
-/

namespace ContractLowering.Text

/-- How a character is written between quotes. -/
def escapeChar (c : Char) : String :=
  match c with
  | '"' => "\\\""
  | '\\' => "\\\\"
  | '\n' => "\\n"
  | '\r' => "\\r"
  | '\t' => "\\t"
  | '\x00' => "\\0"
  | c =>
    if isHidden c then "\\u\x7b" ++ String.ofList (Nat.toDigits 16 c.toNat) ++ "\x7d"
    else String.singleton c

/-- The text in double quotes. -/
def quoted (s : String) : String := "\"" ++ String.join (s.toList.map escapeChar) ++ "\""

end ContractLowering.Text
