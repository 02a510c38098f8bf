/-
  ValueGraph.Text.Quoted

  Quoted texts: a text between double quotes, with an escape for each character
  that a reader could not tell from its picture.
-/
import ValueGraph.Text.AttachingMark
import ValueGraph.Text.Ignorable
import ValueGraph.Text.Printable

namespace ValueGraph.Text

/-- A character by its code point, in lower-case hexadecimal. -/
def codeEscape (c : Char) : String :=
  "\\u\x7b" ++ String.ofList (Nat.toDigits 16 c.toNat) ++ "\x7d"

/-- Whether a reader can tell the character from its picture: it is printable, not ignorable, and
    no mark on the character before it. -/
def isLegible (c : Char) : Bool :=
  isPrintable c && !isIgnorable c && !isAttachingMark c

/-- A character as it stands in a quoted text.  The quote, the backslash and the usual control
    characters have short escapes, and any other character that is not legible is given by its
    code point. -/
def quoteChar (c : Char) : String :=
  match c with
  | '\x00' => "\\0"
  | '\t' => "\\t"
  | '\r' => "\\r"
  | '\n' => "\\n"
  | '"' => "\\\""
  | '\\' => "\\\\"
  | c => if isLegible c then c.toString else codeEscape c

/-- The quoted form of a text. -/
def quote (text : String) : String :=
  text.foldl (fun quoted c => quoted ++ quoteChar c) "\"" ++ "\""

end ValueGraph.Text
