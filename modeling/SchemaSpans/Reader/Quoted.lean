import SchemaSpans.Reader.Basic
import SchemaSpans.Text.Bytes

/-!
Quoted strings, from behind the opening quote to behind the closing one. A string
that is kept has its escapes replaced and its surrogates paired; of a string that
is skipped only the outline is looked at.
-/

namespace SchemaSpans

/-- How the inside of a quoted string is read. -/
structure Quoting where
  /-- Reads the rest of an escape behind its backslash and yields the bytes it stands for. -/
  escape : Reader (List UInt8)
  /-- Whether reading stops behind a control character, and not in front of it. -/
  stopsBehindControl : Bool

namespace Reader

/-- The byte that a one-letter escape stands for. -/
def plainEscape? (b : UInt8) : Option UInt8 :=
  match b with
  | Ascii.quote => some Ascii.quote
  | Ascii.backslash => some Ascii.backslash
  | Ascii.slash => some Ascii.slash
  | Ascii.lowerB => some 0x08
  | Ascii.lowerF => some 0x0C
  | Ascii.lowerN => some Ascii.newline
  | Ascii.lowerR => some Ascii.carriageReturn
  | Ascii.lowerT => some Ascii.tab
  | _ => none

/-- The number that four hexadecimal digits name. -/
def hexNumber? (a b c d : UInt8) : Option Nat := do
  let a ← Ascii.hexDigit? a
  let b ← Ascii.hexDigit? b
  let c ← Ascii.hexDigit? c
  let d ← Ascii.hexDigit? d
  some (((a * 16 + b) * 16 + c) * 16 + d)

/-- Reads four hexadecimal digits. A text too short for them is read to its end. -/
def fourHex : Reader Nat where
  run
    | a :: b :: c :: d :: rest =>
      match hexNumber? a b c d with
      | some n => .done n rest
      | none => .stopped .unknownEscape rest
    | _ => .stopped .endInString []
  rest_suffix input := by
    split
    · next a b c d rest =>
      have : rest <:+ a :: b :: c :: d :: rest := ⟨[a, b, c, d], rfl⟩
      split <;> exact this
    · exact List.nil_suffix

/-- Reads the byte `expected` of the second half of a surrogate pair. -/
def pairByte (expected : UInt8) : Reader Unit := do
  match ← next with
  | none => fail .endInString
  | some b => if b = expected then pure () else fail .unfinishedSurrogate

/-- Whether a code unit is the first half of a surrogate pair. -/
def isLeading (n : Nat) : Bool :=
  0xD800 ≤ n && n < 0xDC00

/-- Whether a code unit is the second half of a surrogate pair. -/
def isTrailing (n : Nat) : Bool :=
  0xDC00 ≤ n && n < 0xE000

/-- The UTF-8 bytes of the character with this code point. -/
def codePointBytes (n : Nat) : List UInt8 :=
  String.utf8EncodeChar (Char.ofNat n)

/-- Reads a code unit, and a second one where the first is half of a pair. -/
def unicodeEscape : Reader (List UInt8) := do
  let first ← fourHex
  if isTrailing first then
    fail .loneSurrogate
  else if isLeading first then
    pairByte Ascii.backslash
    pairByte Ascii.lowerU
    let second ← fourHex
    if isTrailing second then
      -- ten bits from each half
      pure (codePointBytes (0x10000 + (first - 0xD800) * 0x400 + (second - 0xDC00)))
    else fail .loneSurrogate
  else pure (codePointBytes first)

/-- Reads an escape behind its backslash; `unicode` reads on behind the letter `u`. -/
def escapeWith (unicode : Reader (List UInt8)) : Reader (List UInt8) := do
  match ← next with
  | none => fail .endInString
  | some b =>
    if b = Ascii.lowerU then unicode
    else match plainEscape? b with
      | some c => pure [c]
      | none => fail .unknownEscape

end Reader

namespace Quoting

/-- A string whose text is wanted. -/
def kept : Quoting where
  escape := Reader.escapeWith Reader.unicodeEscape
  stopsBehindControl := true

/-- A string that is passed over: code units are not paired. -/
def skipped : Quoting where
  escape := Reader.escapeWith (do let _ ← Reader.fourHex; pure [])
  stopsBehindControl := false

/-- Reads up to and past the closing quote; `before` holds the bytes so far, last first. -/
def readBody (q : Quoting) (before : List UInt8) : Input → Outcome (List UInt8)
  | [] => .stopped .endInString []
  | b :: rest =>
    if b = Ascii.quote then .done before.reverse rest
    else if b = Ascii.backslash then
      match h : q.escape.run rest with
      | .done bytes rest' =>
        have : rest'.length ≤ rest.length := q.escape.length_le_of_done h
        readBody q (bytes.reverseAux before) rest'
      | .stopped cause rest' => .stopped cause rest'
    else if Ascii.isControl b then
      .stopped .controlCharacter (if q.stopsBehindControl then rest else b :: rest)
    else readBody q (b :: before) rest
termination_by input => input.length
decreasing_by
  all_goals simp only [List.length_cons]; omega

/-- Reading goes on behind an escape with the bytes it stands for. -/
theorem readBody_escape (q : Quoting) (before rest : Input) :
    q.readBody before (Ascii.backslash :: rest) =
      match q.escape.run rest with
      | .done bytes rest => q.readBody (bytes.reverseAux before) rest
      | .stopped cause rest => .stopped cause rest := by
  rw [readBody, if_neg (by decide), if_pos rfl]
  split <;> rename_i h <;> simp only [h]

theorem readBody_suffix (q : Quoting) (before : List UInt8) (input : Input) :
    (readBody q before input).rest <:+ input := by
  fun_induction readBody q before input with
  | case1 => exact List.suffix_refl _
  | case2 before rest => exact List.suffix_cons _ rest
  | case3 before rest bytes rest' h _ _ ih =>
    have hs := q.escape.rest_suffix rest
    rw [h] at hs
    exact (ih.trans hs).trans (List.suffix_cons _ rest)
  | case4 before rest cause rest' h =>
    have hs := q.escape.rest_suffix rest
    rw [h] at hs
    exact hs.trans (List.suffix_cons _ rest)
  | case5 before b rest =>
    simp only [Outcome.rest]
    split
    · exact List.suffix_cons b rest
    · exact List.suffix_refl _
  | case6 before b rest _ _ _ ih => exact ih.trans (List.suffix_cons b rest)

/-- The bytes of a quoted string, read from behind the opening quote. -/
def read (q : Quoting) : Reader (List UInt8) where
  run := q.readBody []
  rest_suffix := q.readBody_suffix []

end Quoting

namespace Reader

/-- The text of a quoted string, read from behind the opening quote. -/
def quotedText : Reader String := do
  let bytes ← Quoting.kept.read
  pure (Text.ofBytes bytes)

/-- Passes over a quoted string, from behind the opening quote. -/
def skipQuoted : Reader Unit := do
  let _ ← Quoting.skipped.read

end Reader

end SchemaSpans
