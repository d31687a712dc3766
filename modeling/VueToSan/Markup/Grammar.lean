import VueToSan.Source.Cursor
import VueToSan.Text.Ascii
import VueToSan.Text.Blank

/-!
# Pieces of markup

What templates of both kinds have in common: where markup starts, what tags are made of, how far a
text goes, and how attribute values are written.
-/

namespace VueToSan.Markup

open VueToSan.Text

def atMarkup : List Char → Bool
  | '<' :: c :: _ => isLetter c || c == '/' || c == '!'
  | _ => false

def endTag? : List Char → Option String
  | '<' :: '/' :: cs => some (String.ofList (cs.takeWhile fun c => !isBlank c && c != '>'))
  | _ => none

def isTagChar (c : Char) : Bool :=
  isLetterOrDigit c || c == '-' || c == '_' || c == ':' || c == '.'

/-- The characters of a text up to the next markup. Markup between double braces is text. -/
def textRun (inBraces : Bool) : List Char → List Char
  | '{' :: '{' :: cs => '{' :: '{' :: textRun true cs
  | '}' :: '}' :: cs => '}' :: '}' :: textRun false cs
  | c :: cs => if !inBraces && atMarkup (c :: cs) then [] else c :: textRun inBraces cs
  | [] => []

theorem textRun_begins (inBraces : Bool) (cs : List Char) : textRun inBraces cs <+: cs := by
  fun_induction textRun inBraces cs with
  | case1 inBraces cs ih => exact List.cons_prefix_cons.2 ⟨rfl, List.cons_prefix_cons.2 ⟨rfl, ih⟩⟩
  | case2 inBraces cs ih => exact List.cons_prefix_cons.2 ⟨rfl, List.cons_prefix_cons.2 ⟨rfl, ih⟩⟩
  | case3 inBraces c cs => exact List.nil_prefix
  | case4 inBraces c cs _ _ _ ih => exact List.cons_prefix_cons.2 ⟨rfl, ih⟩
  | case5 inBraces => exact List.prefix_rfl

theorem textRun_ne_nil {cs : List Char} (hcs : cs ≠ []) (hmarkup : atMarkup cs = false) :
    textRun false cs ≠ [] := by
  unfold textRun
  split
  · simp
  · simp
  · rw [hmarkup]
    simp
  · exact absurd rfl hcs

def isQuote (c : Char) : Bool := c == '\x22' || c == '\x27'

def readValue (c : Cursor) : List Char × Cursor :=
  match c.rest with
  | q :: cs =>
    if isQuote q then
      let value := cs.takeWhile (· != q)
      (value, c.advance (value.length + 2))
    else
      let value := (q :: cs).takeWhile fun d => !isBlank d && d != '>'
      (value, c.advance value.length)
  | [] => ([], c)

end VueToSan.Markup
