import EffectMachine.Text.Shown

/-!
# Quoted text

A text between double quotes, in which the quote, the backslash and the usual control characters
are written with a backslash, and every other character that does not show by its number.
-/

namespace EffectMachine.Quoted

/-- A character by its number in base sixteen. -/
def byNumber (c : Char) : List Char :=
  ['\\', 'u', '\x7b'] ++ Nat.toDigits 16 c.toNat ++ ['\x7d']

/-- How a character is written between quotes. -/
def encode (c : Char) : List Char :=
  match c with
  | '\x00' => ['\\', '0']
  | '\t' => ['\\', 't']
  | '\r' => ['\\', 'r']
  | '\n' => ['\\', 'n']
  | '"' => ['\\', '"']
  | '\\' => ['\\', '\\']
  | c => if Shown.isShown c then [c] else byNumber c

/-- A text between quotes. -/
def text (s : String) : String :=
  "\"" ++ String.ofList (s.toList.flatMap encode) ++ "\""

end EffectMachine.Quoted
