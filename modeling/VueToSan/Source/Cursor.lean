import VueToSan.Source.Span
import VueToSan.Text.Search

/-!
# Cursors

A cursor stands between two characters of a source: it knows its byte offset and what follows.
-/

namespace VueToSan

open VueToSan.Text

structure Cursor where
  pos : Nat
  rest : List Char
deriving DecidableEq, Repr, Inhabited

namespace Cursor

def start (source : String) : Cursor := ⟨0, source.toList⟩

def atEnd (c : Cursor) : Bool := c.rest.isEmpty

def advance (c : Cursor) (n : Nat) : Cursor :=
  ⟨c.pos + byteLength (c.rest.take n), c.rest.drop n⟩

def skipWhile (p : Char → Bool) (c : Cursor) : Cursor :=
  c.advance (c.rest.takeWhile p).length

def startsWith (c : Cursor) (word : String) : Bool := word.toList.isPrefixOf c.rest

def skipWord (word : String) (c : Cursor) : Cursor :=
  if c.startsWith word then c.advance word.length else c

def textBefore (word : String) (c : Cursor) : List Char :=
  ((breakAt? word.toList c.rest).map (·.1)).getD c.rest

def skipTo (word : String) (c : Cursor) : Cursor :=
  c.advance (c.textBefore word).length

def skipPast (word : String) (c : Cursor) : Cursor :=
  (c.skipTo word).skipWord word

def spanFrom (c : Cursor) (start : Nat) : Span := ⟨start, c.pos⟩

end Cursor

end VueToSan
