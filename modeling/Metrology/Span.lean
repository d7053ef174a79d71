/-! Byte ranges of UTF-8 text. A span whose end does not lie behind its start is empty. -/
namespace Metrology

structure Span where
  start : Nat
  stop : Nat
deriving DecidableEq, Repr, Inhabited

namespace Span

def none : Span := ⟨0, 0⟩

def merge (a b : Span) : Span := ⟨min a.start b.start, max a.stop b.stop⟩

def length (s : Span) : Nat := s.stop - s.start

def isEmpty (s : Span) : Bool := s.stop ≤ s.start

def render (s : Span) : String := s!"{s.start}..{s.stop}"

end Span

end Metrology
