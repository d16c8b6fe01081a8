/-!
# Spans

Where a piece of text stands: a range of byte offsets into the UTF-8 form of the whole text.
-/

namespace Fluxion

/-- A half-open range of byte offsets: `start` belongs to it, `stop` does not. -/
structure Span where
  /-- The offset of the first byte. -/
  start : Nat
  /-- The offset behind the last byte. -/
  stop : Nat
  deriving DecidableEq

namespace Span

/-- The empty range at an offset. -/
def emptyAt (offset : Nat) : Span := ⟨offset, offset⟩

/-- How a span is shown: both offsets with a dash between them. -/
def text (span : Span) : String := toString span.start ++ "-" ++ toString span.stop

/-- The span moved to the right. -/
def shift (span : Span) (bytes : Nat) : Span := ⟨span.start + bytes, span.stop + bytes⟩

end Span

end Fluxion
