import MethodTrace.Text.Printable

/-!
# Quoted text

Text between double quotes, in which a quote, a backslash and every unprintable character is
escaped. Quote, backslash, NUL, tab and the ends of lines have a sign of their own, all others are
given by their number.
-/

namespace MethodTrace.Text

def hex (n : Nat) : String := String.ofList (Nat.toDigits 16 n)

def escape (c : Char) : String :=
  match c with
  | '\x00' => "\\0"
  | '\t' => "\\t"
  | '\r' => "\\r"
  | '\n' => "\\n"
  | '"' => "\\\""
  | '\\' => "\\\\"
  | c => if isPrintable c then c.toString else "\\u\x7b" ++ hex c.toNat ++ "\x7d"

def quoted (s : String) : String := "\"" ++ String.join (s.toList.map escape) ++ "\""

end MethodTrace.Text
