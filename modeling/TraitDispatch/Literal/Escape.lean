import TraitDispatch.Literal.Combining
import TraitDispatch.Literal.Printable

/- Text in double quotes. Characters that could not be seen in it, or that stand apart from it,
   are written as escapes; single quotes are not. -/
namespace TraitDispatch.Literal

def codePoint (c : Char) : String :=
  "\\u\x7b" ++ String.ofList (Nat.toDigits 16 c.toNat) ++ "\x7d"

def escapeChar (c : Char) : String :=
  match c with
  | '\x00' => "\\0"
  | '\t' => "\\t"
  | '\n' => "\\n"
  | '\r' => "\\r"
  | '\\' => "\\\\"
  | '\x22' => "\\\""
  | _ => if isCombining c || !isPrintable c then codePoint c else c.toString

def quote (s : String) : String := "\"" ++ String.join (s.toList.map escapeChar) ++ "\""

end TraitDispatch.Literal
