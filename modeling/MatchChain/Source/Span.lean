import MatchChain.Text.Bytes

/-!
# Spans

A span is a half-open range of byte offsets into a source text. Offsets fit in 32 bits: a larger
one stays at the largest that fits (`clampOffset`), or is refused (`Span.ofRange`).
-/

set_option autoImplicit false

namespace MatchChain

/-- The largest offset that a span holds. -/
def maxOffset : Nat := 4294967295

/-- An offset past the largest one stays at it. -/
def clampOffset (n : Nat) : Nat := min n maxOffset

/-- The bytes from `start` up to and not including `stop`. -/
structure Span where
  start : Nat
  stop : Nat
deriving DecidableEq, Inhabited

namespace Span

/-- The span of something that stands nowhere in a source text. -/
def none : Span := ⟨0, 0⟩

/-- Why a range of offsets is no span. -/
inductive RangeError where
  | startTooLarge (value : Nat)
  | stopTooLarge (value : Nat)
deriving DecidableEq

def RangeError.message : RangeError → String
  | .startTooLarge v => "span start " ++ toString v ++ " exceeds u32::MAX"
  | .stopTooLarge v => "span end " ++ toString v ++ " exceeds u32::MAX"

/-- A range whose ends both fit; the start is looked at first. -/
def ofRange (start stop : Nat) : Except RangeError Span :=
  if maxOffset < start then .error (.startTooLarge start)
  else if maxOffset < stop then .error (.stopTooLarge stop)
  else .ok ⟨start, stop⟩

/-- Number of bytes; a range that ends before it starts has none to give. -/
def length? (s : Span) : Option Nat :=
  if s.start ≤ s.stop then some (s.stop - s.start) else Option.none

def isEmpty (s : Span) : Bool := s.start == s.stop

/-- Whether this is the span that stands nowhere. -/
def isNone (s : Span) : Bool := s.start == 0 && s.stop == 0

def contains (s : Span) (offset : Nat) : Bool := s.start ≤ offset && offset < s.stop

/-- The smallest span that covers both. -/
def merge (a b : Span) : Span := ⟨min a.start b.start, max a.stop b.stop⟩

/-- From the start of `a` to the end of `b`. -/
def upTo (a b : Span) : Span := ⟨a.start, b.stop⟩

/-- The text that the span covers, if it lies inside `source` on character boundaries. -/
def slice? (s : Span) (source : String) : Option String :=
  (Text.sliceBytes? s.start s.stop source.toList).map String.ofList

/-- Both ends with two dots between. -/
def render (s : Span) : String := toString s.start ++ ".." ++ toString s.stop

end Span

end MatchChain
