import VueToSan.Data.Entries
import VueToSan.Expr.Quoted
import VueToSan.Text.Blank
import VueToSan.Text.Search

/-!
# Inline styles
-/

namespace VueToSan.Markup

open VueToSan.Text

def splitStyle (depth : Nat) (seen : List Char) : List Char → List (List Char)
  | [] => [seen.reverse]
  | c :: cs =>
    if c = ';' ∧ depth = 0 then seen.reverse :: splitStyle depth [] cs
    else
      let depth := if c = '(' then depth + 1 else if c = ')' then depth - 1 else depth
      splitStyle depth (c :: seen) cs

def declaration? (cs : List Char) : Option (String × String) :=
  match breakAt? [':'] cs with
  | some (property, _ :: value) =>
    if value.all isBlank then none
    else some (String.ofList (trim property), String.ofList (trim value))
  | _ => none

/-- The properties of a style in the order in which they appear first, with their last values. -/
def styleEntries (text : String) : Entries String :=
  Entries.ofList ((splitStyle 0 [] text.toList).filterMap declaration?)

def styleObject (entries : List (String × String)) : String :=
  let body := entries.map fun (property, value) => Expr.quote property ++ ":" ++ Expr.quote value
  "\x7b" ++ joinWith "," body ++ "\x7d"

end VueToSan.Markup
