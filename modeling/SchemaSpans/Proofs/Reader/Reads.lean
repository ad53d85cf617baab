import SchemaSpans.Reader.Token

/-! What it means that a reader takes one text and nothing more. A number ends only
where the next byte cannot continue it, so a text is read as a whole only in front of
input that continues no number; everything that may follow a value has this property. -/

namespace SchemaSpans

variable {α β : Type}

/-- An outcome that is this result: the value with everything before `rest` read, or a stop
for this cause. -/
def Outcome.Is (o : Outcome α) (rest : Input) : Except Cause α → Prop
  | .ok a => o = .done a rest
  | .error cause => ∃ unread, o = .stopped cause unread

namespace Reader

/-- Input that does not continue a number. -/
def Ends (rest : Input) : Prop :=
  ∀ b, rest.head? = some b →
    Ascii.digit? b = none ∧ b ≠ Ascii.point ∧ b ≠ Ascii.lowerE ∧ b ≠ Ascii.upperE

theorem ends_nil : Ends [] := by
  intro b hb
  cases hb

theorem ends_comma (rest : Input) : Ends (Ascii.comma :: rest) := by
  rintro b ⟨⟩
  decide

theorem ends_closeBracket (rest : Input) : Ends (Ascii.closeBracket :: rest) := by
  rintro b ⟨⟩
  decide

theorem ends_closeBrace (rest : Input) : Ends (Ascii.closeBrace :: rest) := by
  rintro b ⟨⟩
  decide

/-- The reader takes exactly the text `w` and yields this value, or stops at it for this
cause, whatever follows a value. -/
def Reads (r : Reader α) (w : Input) (result : Except Cause α) : Prop :=
  ∀ rest, Ends rest → (r.run (w ++ rest)).Is rest result

/-- A value that is only passed on in another form changes nothing about what is read. -/
theorem is_map {r : Reader α} {input rest : Input} {result : Except Cause α}
    (h : (r.run input).Is rest result) (f : α → β) :
    ((r >>= fun a => pure (f a)).run input).Is rest (result.map f) := by
  rw [run_bind]
  cases result with
  | ok a =>
    have hdone : r.run input = .done a rest := h
    rw [hdone]
    rfl
  | error cause =>
    obtain ⟨unread, hstopped⟩ := h
    rw [hstopped]
    exact ⟨unread, rfl⟩

theorem Reads.map {r : Reader α} {w : Input} {result : Except Cause α} (h : r.Reads w result)
    (f : α → β) : (r >>= fun a => pure (f a)).Reads w (result.map f) :=
  fun rest hrest => is_map (h rest hrest) f

theorem run_token_cons {b : UInt8} (hb : Ascii.isBlank b = false) (rest : Input) :
    token.run (b :: rest) = .done (some b) (b :: rest) := by
  rw [run_token, List.dropWhile_cons_of_neg (by rw [hb]; decide)]
  rfl

end Reader

end SchemaSpans
