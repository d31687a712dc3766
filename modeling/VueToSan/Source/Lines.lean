import VueToSan.Source.Span

/-!
# Lines and columns

A line index holds the byte offset at which each line of a text starts. It turns byte offsets into
lines and columns; columns count bytes.
-/

namespace VueToSan

structure LineCol where
  line : Nat
  col : Nat
deriving DecidableEq, Repr, Inhabited

/-- A point of a source: line and column count from one, the byte offset from zero. -/
structure Position where
  line : Nat
  column : Nat
  offset : Nat
deriving DecidableEq, Repr, Inhabited

structure Location where
  start : Position
  stop : Position
deriving DecidableEq, Repr, Inhabited

def Location.span (l : Location) : Span := ⟨l.start.offset, l.stop.offset⟩

structure LineIndex where
  starts : List Nat
  length : Nat
deriving DecidableEq, Repr, Inhabited

namespace LineIndex

def startsFrom (offset : Nat) : List Char → List Nat
  | [] => []
  | c :: cs =>
    let next := offset + c.utf8Size
    if c = '\n' then next :: startsFrom next cs else startsFrom next cs

def ofChars (cs : List Char) : LineIndex := ⟨0 :: startsFrom 0 cs, Text.byteLength cs⟩

def ofText (text : String) : LineIndex := ofChars text.toList

def lineCol (index : LineIndex) (offset : Nat) : LineCol :=
  let o := min offset index.length
  let line := index.starts.countP (· ≤ o) - 1
  ⟨line, o - index.starts.getD line 0⟩

def position (index : LineIndex) (offset : Nat) : Position :=
  let place := index.lineCol offset
  ⟨place.line + 1, place.col + 1, min offset index.length⟩

def location (index : LineIndex) (span : Span) : Location :=
  ⟨index.position span.start, index.position span.stop⟩

end LineIndex

end VueToSan
