/-! # Spans

A span is a half-open range of byte offsets into a source text. -/

namespace ExprReader

/-- The bytes from `start` up to, not including, `stop`. -/
structure Span where
  start : Nat := 0
  stop : Nat := 0
deriving DecidableEq, Repr, Inhabited

namespace Span

/-- The span of no bytes at an offset. -/
def empty (offset : Nat) : Span :=
  ⟨offset, offset⟩

/-- The number of bytes covered. A span whose ends are reversed has no length. -/
def length? (span : Span) : Option Nat :=
  if span.start ≤ span.stop then some (span.stop - span.start) else none

/-- Whether both ends are the same offset. -/
def isEmpty (span : Span) : Bool :=
  span.start == span.stop

/-- Both ends, with two dots between them. -/
protected def toString (span : Span) : String :=
  toString span.start ++ ".." ++ toString span.stop

instance : ToString Span := ⟨Span.toString⟩

@[simp] theorem length?_empty (offset : Nat) : (empty offset).length? = some 0 := by
  simp [length?, empty]

@[simp] theorem isEmpty_empty (offset : Nat) : (empty offset).isEmpty = true := by
  simp [isEmpty, empty]

end Span

end ExprReader
