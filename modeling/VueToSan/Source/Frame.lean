import VueToSan.Source.Span
import VueToSan.Text.Search
import VueToSan.Text.Width

/-!
# Code frames

A frame shows the lines of a span with one line before and one after, and marks the span: one line
is underlined, several lines are embraced in the left margin.
-/

namespace VueToSan.Frame

open VueToSan.Text

structure Line where
  number : Nat
  offset : Nat
  length : Nat
  text : List Char
deriving DecidableEq, Repr

def lineEnds (offset : Nat) : List Char → List Nat
  | '\r' :: '\n' :: cs => (offset + 1) :: lineEnds (offset + 2) cs
  | c :: cs =>
    if c = '\r' ∨ c = '\n' then offset :: lineEnds (offset + c.utf8Size) cs
    else lineEnds (offset + c.utf8Size) cs
  | [] => []

structure Excerpt where
  offset : Nat
  /-- The number of lines before the excerpt. -/
  skipped : Nat
  text : List Char
deriving DecidableEq, Repr

def Excerpt.around (source : List Char) (span : Span) : Excerpt :=
  let ends := lineEnds 0 source
  let before := ends.filter (· < span.start)
  let after := ends.filter (span.stop - 1 ≤ ·)
  let skipped := before.length - 1
  let start := match skipped with
    | 0 => 0
    | k + 1 => ((before[k]?).map (· + 1)).getD 0
  let stop := ((after[1]?).map (· + 1)).getD (byteLength source)
  ⟨start, skipped, (sliceBytes? start stop source).getD []⟩

/-- Cuts an excerpt into lines; `seen` holds the current line, the last character first. A text
without a line end at its very end still is a line, but it is counted only when it does not stop
with a carriage return. -/
def cutLines (number offset length : Nat) (seen : List Char) : List Char → List Line
  | '\r' :: '\n' :: cs =>
    ⟨number + 1, offset, length + 2, seen.reverse⟩ ::
      cutLines (number + 1) (offset + length + 2) 0 [] cs
  | c :: cs =>
    if c = '\n' then
      ⟨number + 1, offset, length + 1, seen.reverse⟩ ::
        cutLines (number + 1) (offset + length + 1) 0 [] cs
    else cutLines number offset (length + c.utf8Size) (c :: seen) cs
  | [] =>
    match seen with
    | [] => []
    | last :: _ => [⟨if last = '\r' then number else number + 1, offset, length, seen.reverse⟩]

def Excerpt.lines (e : Excerpt) : List Line :=
  cutLines e.skipped e.offset 0 [] e.text

def Line.holds (l : Line) (span : Span) : Bool :=
  l.offset ≤ span.start && span.stop ≤ l.offset + l.length

inductive Meets where
  | starts
  | ends
  | passes
  | misses
deriving DecidableEq, Repr

def Line.meets (l : Line) (span : Span) : Meets :=
  let stop := l.offset + l.length
  if l.offset ≤ span.start && span.start < stop then .starts
  else if l.offset < span.stop && span.stop ≤ stop then .ends
  else if span.start < l.offset && stop < span.stop then .passes
  else .misses

/-- The columns of the characters of a line. A tab goes on to the next multiple of four; between an
escape character and the letter `m` nothing is shown. -/
def widths (column : Nat) (escaped : Bool) : List Char → List Nat
  | [] => []
  | c :: cs =>
    if escaped then 0 :: widths column (c ≠ 'm') cs
    else if c = '\t' then
      let w := 4 - column % 4
      w :: widths (column + w) false cs
    else if c = '\x1b' then 0 :: widths column true cs
    else charWidth c :: widths (column + charWidth c) false cs

def Line.column (l : Line) (offset : Nat) : Nat :=
  let shown := (takeBytes? (offset - l.offset) l.text).getD l.text
  let past := if byteLength l.text < offset - l.offset then 1 else 0
  (widths 0 false shown).foldr (· + ·) past

def Line.shown (l : Line) : String :=
  String.ofList <| (l.text.zip (widths 0 false l.text)).flatMap fun (c, w) =>
    if c = '\t' then List.replicate w ' ' else [c]

def padded (width : Nat) (n : Nat) : String :=
  repeated (width - (Nat.repr n).length) " " ++ Nat.repr n

def numberMargin (width n : Nat) : String := " " ++ padded width n ++ " │ "

def blankMargin (width : Nat) : String := " " ++ repeated width " " ++ " · "

def underline (width : Nat) (l : Line) (span : Span) : String :=
  let start := l.column span.start
  let stop := max (l.column span.stop) (start + 1)
  let left := (stop - start) / 2
  blankMargin width ++ repeated start " " ++ repeated left "─" ++ "┬" ++
      repeated (stop - start - left - 1) "─" ++ "\n" ++
    blankMargin width ++ repeated (start + left) " " ++ "╰── here\n"

def plainLine (width : Nat) (span : Span) (l : Line) : String :=
  numberMargin width l.number ++ l.shown ++ "\n" ++
    if l.holds span then underline width l span else ""

def bracedLine (width : Nat) (span : Span) (l : Line) : String :=
  let meets := l.meets span
  let brace := match meets with
    | .starts => "╭─▶ "
    | .ends => "├─▶ "
    | .passes => "│   "
    | .misses => "    "
  numberMargin width l.number ++ brace ++ l.shown ++ "\n" ++
    if meets = .ends then blankMargin width ++ "╰──── here\n" else ""

def lineAndColumn (source : List Char) (offset : Nat) : Nat × Nat :=
  let before := (lineEnds 0 source).filter (· < offset)
  (before.length + 1, offset - ((before.getLast?.map (· + 1)).getD 0) + 1)

def render (source : String) (span : Span) (message : String) : String :=
  let cs := source.toList
  let lines := (Excerpt.around cs span).lines
  let width := (Nat.repr ((lines.getLast?.map (·.number)).getD 0)).length
  let left := repeated (width + 2) " "
  let top :=
    if lines.length ≤ 1 then "───"
    else
      let (line, column) := lineAndColumn cs span.start
      "[" ++ Nat.repr line ++ ":" ++ Nat.repr column ++ "]"
  let draw := if lines.any (·.holds span) then plainLine width span else bracedLine width span
  "  × " ++ message ++ "\n" ++ left ++ "╭─" ++ top ++ "\n" ++
    String.join (lines.map draw) ++ left ++ "╰────\n"

end VueToSan.Frame
