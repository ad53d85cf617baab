import SchemaSpans.Reader.Token

/-!
Sequences between brackets: items with commas between them. The items are read one
after another into a value that collects them, so a list grows by an element and a
record by a field.
-/

namespace SchemaSpans

/-- The punctuation of a sequence and the causes for stopping at it. -/
structure Bracket where
  /-- The byte that ends the sequence. -/
  close : UInt8
  /-- The cause when the text ends where the sequence could end or go on. -/
  atEnd : Cause
  /-- The cause when another byte stands there. -/
  expectedEnd : Cause
  /-- Makes sure behind a comma that another item follows. -/
  afterComma : Reader Unit

namespace Bracket

/-- Behind a comma the sequence neither ends nor breaks off. -/
def notEnding (close : UInt8) : Reader Unit := do
  match ← Reader.token with
  | none => Reader.fail .endInValue
  | some b => if b = close then Reader.reject .trailingComma else pure ()

/-- A list. -/
def list : Bracket where
  close := Ascii.closeBracket
  atEnd := .endInList
  expectedEnd := .expectedListEnd
  afterComma := notEnding Ascii.closeBracket

/-- An object. -/
def object : Bracket where
  close := Ascii.closeBrace
  atEnd := .endInObject
  expectedEnd := .expectedObjectEnd
  afterComma := notEnding Ascii.closeBrace

/-- The same sequence, where a missing item behind a comma is noticed by the item's reader. -/
def lenient (b : Bracket) : Bracket :=
  { b with afterComma := pure () }

variable {σ : Type}

/-- Reads the item behind a comma, after making sure that there is one. -/
def nextItem (b : Bracket) (item : σ → Reader σ) (soFar : σ) : Reader σ := do
  b.afterComma
  item soFar

/-- Reads on behind an item, up to and past the end of the sequence. -/
def readRest (b : Bracket) (item : σ → Reader σ) (soFar : σ) (input : Input) : Outcome σ :=
  match hc : input.dropWhile Ascii.isBlank with
  | [] => .stopped b.atEnd []
  | c :: rest =>
    if c = b.close then .done soFar rest
    else if c = Ascii.comma then
      match h : (b.nextItem item soFar).run rest with
      | .done soFar rest' =>
        have : rest'.length < input.length := by
          have h₁ := (b.nextItem item _).length_le_of_done h
          have h₂ := (List.dropWhile_suffix (l := input) Ascii.isBlank).length_le
          rw [hc, List.length_cons] at h₂
          omega
        readRest b item soFar rest'
      | .stopped cause rest' => .stopped cause rest'
    else .stopped b.expectedEnd rest
termination_by input.length

/-- Behind an item the sequence ends, goes on behind a comma, or is broken. -/
theorem readRest_eq (b : Bracket) (item : σ → Reader σ) (soFar : σ) (input : Input) :
    b.readRest item soFar input =
      match input.dropWhile Ascii.isBlank with
      | [] => .stopped b.atEnd []
      | c :: rest =>
        if c = b.close then .done soFar rest
        else if c = Ascii.comma then
          match (b.nextItem item soFar).run rest with
          | .done soFar rest => b.readRest item soFar rest
          | .stopped cause rest => .stopped cause rest
        else .stopped b.expectedEnd rest := by
  rw [readRest]
  split <;> rename_i hc <;> simp only [hc]
  split
  · rfl
  · split
    · split <;> rename_i h <;> simp only [h]
    · rfl

theorem readRest_suffix (b : Bracket) (item : σ → Reader σ) (soFar : σ) (input : Input) :
    (b.readRest item soFar input).rest <:+ input := by
  have cons_suffix {c : UInt8} {rest input : Input}
      (hc : input.dropWhile Ascii.isBlank = c :: rest) : rest <:+ input :=
    (List.suffix_cons c rest).trans (hc ▸ List.dropWhile_suffix _)
  fun_induction readRest b item soFar input with
  | case1 => exact List.nil_suffix
  | case2 _ _ _ hc => exact cons_suffix hc
  | case3 soFar input rest soFar' rest' h hc _ _ ih =>
    have hs := (b.nextItem item soFar).rest_suffix rest
    rw [h] at hs
    exact (ih.trans hs).trans (cons_suffix hc)
  | case4 soFar input rest cause rest' h hc =>
    have hs := (b.nextItem item soFar).rest_suffix rest
    rw [h] at hs
    exact hs.trans (cons_suffix hc)
  | case5 _ _ _ _ hc => exact cons_suffix hc

/-- Reads on behind an item, up to and past the end of the sequence. -/
def rest (b : Bracket) (item : σ → Reader σ) (soFar : σ) : Reader σ where
  run := b.readRest item soFar
  rest_suffix := b.readRest_suffix item soFar

/-- Reads a sequence from behind its opening bracket to behind its closing one. -/
def read (b : Bracket) (item : σ → Reader σ) (empty : σ) : Reader σ := do
  match ← Reader.token with
  | none => Reader.fail b.atEnd
  | some c =>
    if c = b.close then
      let _ ← Reader.next
      pure empty
    else
      let soFar ← item empty
      b.rest item soFar

/-- Reads the elements of a sequence in order. -/
def readList {α : Type} (b : Bracket) (element : Reader α) : Reader (List α) := do
  -- the elements so far are kept last first
  let reversed ← b.read (fun before => do let a ← element; pure (a :: before)) []
  pure reversed.reverse

end Bracket

namespace Reader

variable {ν α : Type}

/--
Opens a bracket, which is the next byte, and reads on with what may stand inside;
`none` may when as many brackets are open as are allowed.
-/
def descend (inside : Option ν) (body : ν → Reader α) : Reader α :=
  match inside with
  | none => reject .nestedTooDeep
  | some inner => do
    let _ ← next
    body inner

end Reader

end SchemaSpans
