import VueToSan.Text.Bytes

/-!
# Spans

A span is a half-open range of byte offsets in a source.
-/

namespace VueToSan

structure Span where
  start : Nat
  stop : Nat
deriving DecidableEq, Repr, Inhabited

namespace Span

def empty (offset : Nat) : Span := ⟨offset, offset⟩

def length (s : Span) : Nat := s.stop - s.start

def isEmpty (s : Span) : Bool := s.start == s.stop

def merge (s t : Span) : Span := ⟨min s.start t.start, max s.stop t.stop⟩

def shift (s : Span) (offset : Nat) : Span := ⟨s.start + offset, s.stop + offset⟩

def slice (s : Span) (source : String) : String :=
  String.ofList ((Text.sliceBytes? s.start s.stop source.toList).getD [])

end Span

end VueToSan
