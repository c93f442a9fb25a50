import SignalTree.Text.Hidden

/-!
# Quoted — text between double quotes

Messages show a piece of input between double quotes, so that its extent and every character in
it can be read off.  `Text.quoted` escapes the quote, the backslash and the usual controls by a
letter, and every other hidden character by its number in lower-case hexadecimal.
-/

namespace SignalTree
namespace Text

/-- The digits of a number in lower-case hexadecimal. -/
def hexDigits (n : Nat) : List Char := Nat.toDigits 16 n

/-- How one character stands in quoted text. -/
def escape (c : Char) : List Char :=
  match c with
  | '"' => ['\\', '"']
  | '\\' => ['\\', '\\']
  | '\n' => ['\\', 'n']
  | '\r' => ['\\', 'r']
  | '\t' => ['\\', 't']
  | '\x00' => ['\\', '0']
  | c =>
    if isHidden c then ['\\', 'u', '\x7b'] ++ hexDigits c.toNat ++ ['\x7d'] else [c]

def quoted (s : String) : String :=
  String.ofList ('"' :: (s.toList.flatMap escape ++ ['"']))

end Text
end SignalTree
