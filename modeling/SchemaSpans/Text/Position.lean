import SchemaSpans.Text.Ascii

/-!
Places in a text, as an editor counts them: lines from one, columns in bytes.
-/

namespace SchemaSpans

/-- A place in a text. -/
structure Position where
  /-- One more than the number of line ends before the place. -/
  line : Nat
  /-- The number of bytes between the last line end before the place and the place. -/
  column : Nat
deriving DecidableEq, Repr

namespace Position

/-- The place reached after these bytes. -/
def after (before : List UInt8) : Position where
  line := before.count Ascii.newline + 1
  column := (before.reverse.takeWhile (· ≠ Ascii.newline)).length

/-- The place of the byte offset `offset` in `text`. -/
def ofOffset (text : List UInt8) (offset : Nat) : Position :=
  after (text.take offset)

/-- A place as messages name it. -/
def describe (p : Position) : String :=
  s!"line {p.line} column {p.column}"

end Position

end SchemaSpans
