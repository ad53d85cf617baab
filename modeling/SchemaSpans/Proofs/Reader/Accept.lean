import SchemaSpans.Proofs.Reader.Reads
import SchemaSpans.Reader.Bracket

/-! What a reader accepts: the value it yields and what it leaves unread, without the cause
when it stops. In this form a chain of readers is a chain of options, so what a composed reader
accepts is worked out by rewriting. -/

namespace SchemaSpans

variable {α β : Type}

/-- The value and the bytes not read, if reading has not stopped. -/
def Outcome.accepted? : Outcome α → Option (α × Input)
  | done value rest => some (value, rest)
  | stopped _ _ => none

theorem Outcome.accepted?_eq_some_iff {o : Outcome α} {value : α} {rest : Input} :
    o.accepted? = some (value, rest) ↔ o = .done value rest := by
  cases o <;> simp [accepted?]

namespace Reader

/-- The value that a reader yields and the bytes it does not read, if it does not stop. -/
def accept? (r : Reader α) (input : Input) : Option (α × Input) :=
  (r.run input).accepted?

theorem accept?_eq_some_iff {r : Reader α} {input rest : Input} {value : α} :
    r.accept? input = some (value, rest) ↔ r.run input = .done value rest :=
  Outcome.accepted?_eq_some_iff

theorem accept?_of_run {r : Reader α} {input rest : Input} {value : α}
    (h : r.run input = .done value rest) : r.accept? input = some (value, rest) :=
  accept?_eq_some_iff.mpr h

/-- A result is accepted as the value that it is, and not if it is a cause to stop. -/
theorem accept?_of_is {r : Reader α} {input rest : Input} {result : Except Cause α}
    (h : (r.run input).Is rest result) :
    r.accept? input = result.toOption.map fun a => (a, rest) := by
  cases result with
  | ok a => exact accept?_of_run h
  | error cause =>
    obtain ⟨unread, hstopped⟩ := h
    rw [accept?, hstopped]
    rfl

@[simp] theorem accept?_pure (value : α) (input : Input) :
    (pure value : Reader α).accept? input = some (value, input) := rfl

@[simp] theorem accept?_bind (r : Reader α) (next : α → Reader β) (input : Input) :
    (r >>= next).accept? input = (r.accept? input).bind fun p => (next p.1).accept? p.2 := by
  rw [accept?, accept?, run_bind]
  cases r.run input <;> rfl

/-- Readers one after another accept what each of them accepts in its turn. -/
theorem accept?_bind_eq_some_iff {r : Reader α} {next : α → Reader β} {input rest : Input} {b : β} :
    (r >>= next).accept? input = some (b, rest) ↔
      ∃ a rest', r.accept? input = some (a, rest') ∧ (next a).accept? rest' = some (b, rest) := by
  rw [accept?_bind, Option.bind_eq_some_iff, Prod.exists]

/-- A value that is passed on in another form comes with the same rest. -/
theorem accept?_map {r : Reader α} {input rest : Input} {result : Option α}
    (h : r.accept? input = result.map fun a => (a, rest)) (f : α → β) :
    (r >>= fun a => pure (f a)).accept? input = (result.map f).map fun b => (b, rest) := by
  rw [accept?_bind, h]
  cases result <;> rfl

theorem exists_of_accept?_map {r : Reader α} {f : α → β} {input rest : Input} {b : β}
    (h : (r >>= fun a => pure (f a)).accept? input = some (b, rest)) :
    ∃ a, r.accept? input = some (a, rest) := by
  obtain ⟨a, rest', hr, hpure⟩ := accept?_bind_eq_some_iff.mp h
  obtain ⟨-, rfl⟩ := Prod.mk.inj (Option.some.inj hpure)
  exact ⟨a, hr⟩

@[simp] theorem accept?_fail (cause : Cause) (input : Input) :
    (fail cause : Reader α).accept? input = none := rfl

@[simp] theorem accept?_reject (cause : Cause) (input : Input) :
    (reject cause : Reader α).accept? input = none := by
  cases input <;> rfl

@[simp] theorem accept?_next_cons (b : UInt8) (rest : Input) :
    next.accept? (b :: rest) = some (some b, rest) := rfl

@[simp] theorem accept?_token (input : Input) : token.accept? input =
    some ((input.dropWhile Ascii.isBlank).head?, input.dropWhile Ascii.isBlank) := rfl

@[simp] theorem accept?_start (input : Input) : start.accept? input =
    some ((input.dropWhile Ascii.isBlank).head?.map Start.ofByte,
      input.dropWhile Ascii.isBlank) := rfl

/-- A value of the wrong kind is not accepted, however it goes on. -/
@[simp] theorem accept?_mismatch (expected : Expected) (first : Option Start) (input : Input) :
    (mismatch expected first : Reader α).accept? input = none := by
  match first with
  | none | some .list | some .object => rfl
  | some .null | some .true | some .false | some .number =>
    simp only [mismatch, accept?_bind, accept?_fail, Option.bind_fun_none]
  | some .string => simp only [mismatch, accept?_bind, accept?_fail, Option.bind_fun_none]
  | some .other => exact accept?_reject _ input

@[simp] theorem accept?_descend {ν : Type} (inside : Option ν) (body : ν → Reader α) (b : UInt8)
    (input : Input) : (descend inside body).accept? (b :: input) =
      inside.bind fun inner => (body inner).accept? input := by
  cases inside with
  | none => rfl
  | some inner => rfl

theorem accept?_skipIf_self (b : UInt8) (rest : Input) :
    (skipIf b).accept? (b :: rest) = some (true, rest) := by
  simp only [skipIf, accept?, run_bind, run_peek, List.head?_cons, if_true, run_next_cons, run_pure]
  rfl

end Reader

end SchemaSpans
