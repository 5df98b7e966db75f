import BehaviorTree.Text.Unprintable

/-! # Quoted texts

`quoted s` is the text `s` between double quotes, as messages show it: quotes and backslashes
behind a backslash, the usual short escapes for NUL, tab, line feed and carriage return, and the
hexadecimal number of any other unprintable character. -/

namespace BehaviorTree.Text

/-- The digits of a number in lower-case hexadecimal. -/
def hex (n : Nat) : String := String.ofList (Nat.toDigits 16 n)

/-- One character of a quoted text. -/
def quotedChar (c : Char) : String :=
  match c with
  | '"' => "\\\""
  | '\\' => "\\\\"
  | '\n' => "\\n"
  | '\r' => "\\r"
  | '\t' => "\\t"
  | '\x00' => "\\0"
  | c => if isPrintable c then c.toString else "\\u\x7b" ++ hex c.toNat ++ "\x7d"

/-- A text between double quotes with its odd characters escaped. -/
def quoted (s : String) : String :=
  s.foldl (fun out c => out ++ quotedChar c) "\"" ++ "\""

end BehaviorTree.Text
