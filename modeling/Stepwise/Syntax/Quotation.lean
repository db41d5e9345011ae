/-!
# Quotation marks

A text literal keeps its quotation marks in its token.  Any character may open a text.  Eight
characters may close one, whatever opened it, and a text that is not closed runs to its end.
-/

namespace Stepwise

/-- The characters that may close a text. -/
def closingQuotes : List Char :=
  ['』', '」', '»', '›', '\x27', '’', '”', '\x22']

/-- The text inside a text token.  The first character is dropped, and so is the last one if it can
close a text.  A closing character that stands alone is kept. -/
def unquoted (token : String) : String :=
  match token.toList with
  | [] => ""
  | [only] => if closingQuotes.contains only then token else ""
  | _ :: rest =>
    match rest.getLast? with
    | some last => String.ofList (if closingQuotes.contains last then rest.dropLast else rest)
    | none => ""

example : unquoted "«hola»" = "hola" := by decide +kernel
example : unquoted "\"hello" = "hello" := by decide +kernel
example : unquoted "»" = "»" := by decide +kernel

end Stepwise
