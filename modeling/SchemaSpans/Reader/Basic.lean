import SchemaSpans.Reader.Cause

/-!
Readers of byte sequences. A reader consumes bytes from the front of its input and
either yields a value or stops with a cause; in both cases it tells what it has not
read. That rest is a suffix of the input by construction, so a position in the text
is always the number of bytes read, and a loop over readers ends because its input
gets shorter.
-/

namespace SchemaSpans

/-- The bytes that are still to be read. -/
abbrev Input := List UInt8

/-- What reading leads to: a value, or a cause for stopping, and the bytes not read. -/
inductive Outcome (α : Type) where
  | done (value : α) (rest : Input)
  | stopped (cause : Cause) (rest : Input)
deriving DecidableEq

namespace Outcome

/-- The bytes that have not been read. -/
def rest {α : Type} : Outcome α → Input
  | done _ rest => rest
  | stopped _ rest => rest

end Outcome

/-- A reader of values of type `α`. -/
structure Reader (α : Type) where
  run : Input → Outcome α
  /-- What is not read is the end of what was to be read. -/
  rest_suffix : ∀ input, (run input).rest <:+ input

namespace Reader

variable {α β : Type}

/-- Two readers that lead to the same outcomes are the same. -/
@[ext]
theorem ext {r s : Reader α} (h : ∀ input, r.run input = s.run input) : r = s := by
  cases r
  cases s
  congr
  funext input
  exact h input

theorem length_rest_le (r : Reader α) (input : Input) :
    (r.run input).rest.length ≤ input.length :=
  (r.rest_suffix input).length_le

/-- Reading that yields a value leaves no more than there was. -/
theorem length_le_of_done (r : Reader α) {input rest : Input} {value : α}
    (h : r.run input = .done value rest) : rest.length ≤ input.length := by
  have := r.length_rest_le input
  rwa [h] at this

/-- Reads nothing. -/
protected def pure (value : α) : Reader α where
  run input := .done value input
  rest_suffix input := input.suffix_refl

/-- Reads with `r`, then with the reader that its value selects. -/
protected def bind (r : Reader α) (next : α → Reader β) : Reader β where
  run input :=
    match r.run input with
    | .done value rest => (next value).run rest
    | .stopped cause rest => .stopped cause rest
  rest_suffix input := by
    have hr := r.rest_suffix input
    cases h : r.run input with
    | done value rest =>
      rw [h] at hr
      exact ((next value).rest_suffix rest).trans hr
    | stopped cause rest =>
      rw [h] at hr
      exact hr

instance : Monad Reader where
  pure := Reader.pure
  bind := Reader.bind

theorem run_bind (r : Reader α) (next : α → Reader β) (input : Input) :
    (r >>= next).run input = match r.run input with
      | .done value rest => (next value).run rest
      | .stopped cause rest => .stopped cause rest := rfl

@[simp] theorem run_pure (value : α) (input : Input) :
    (pure value : Reader α).run input = .done value input := rfl

instance : LawfulMonad Reader := LawfulMonad.mk' Reader
  (fun r => by
    ext input
    change (r >>= fun a => pure (id a)).run input = r.run input
    rw [run_bind]
    cases r.run input <;> rfl)
  (fun _ _ => rfl)
  (fun r next then_ => by
    ext input
    simp only [run_bind]
    cases r.run input <;> rfl)

/-- Stops where reading has come to. -/
def fail (cause : Cause) : Reader α where
  run input := .stopped cause input
  rest_suffix input := input.suffix_refl

/-- Reads one byte; `none` at the end of the text. -/
def next : Reader (Option UInt8) where
  run
    | [] => .done none []
    | b :: rest => .done (some b) rest
  rest_suffix
    | [] => List.suffix_refl _
    | b :: rest => List.suffix_cons b rest

/-- The next byte, which is not read yet; `none` at the end of the text. -/
def peek : Reader (Option UInt8) where
  run input := .done input.head? input
  rest_suffix input := input.suffix_refl

/-- Stops behind the next byte, which is the one at fault. -/
def reject (cause : Cause) : Reader α := do
  let _ ← next
  fail cause

/-- Reads the longest run of bytes that satisfy `p`. -/
def takeWhile (p : UInt8 → Bool) : Reader (List UInt8) where
  run input := .done (input.takeWhile p) (input.dropWhile p)
  rest_suffix _ := List.dropWhile_suffix p

/-- Reads past blanks. -/
def blanks : Reader Unit := do
  let _ ← takeWhile Ascii.isBlank

/-- The first byte of the next token, which is not read yet; `none` if there is no token. -/
def token : Reader (Option UInt8) := do
  blanks
  peek

@[simp] theorem run_fail (cause : Cause) (input : Input) :
    (fail cause : Reader α).run input = .stopped cause input := rfl

@[simp] theorem run_next_nil : next.run [] = .done none [] := rfl

@[simp] theorem run_next_cons (b : UInt8) (rest : Input) :
    next.run (b :: rest) = .done (some b) rest := rfl

@[simp] theorem run_peek (input : Input) : peek.run input = .done input.head? input := rfl

@[simp] theorem run_takeWhile (p : UInt8 → Bool) (input : Input) :
    (takeWhile p).run input = .done (input.takeWhile p) (input.dropWhile p) := rfl

@[simp] theorem run_blanks (input : Input) :
    blanks.run input = .done () (input.dropWhile Ascii.isBlank) := rfl

@[simp] theorem run_token (input : Input) :
    token.run input = .done (input.dropWhile Ascii.isBlank).head?
      (input.dropWhile Ascii.isBlank) := rfl

end Reader

end SchemaSpans
