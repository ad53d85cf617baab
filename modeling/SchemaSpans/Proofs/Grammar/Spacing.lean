import Mathlib.Data.List.TakeWhile
import SchemaSpans.Proofs.Reader.Accept

/-! Tokens and the blanks between them. A text is a row of tokens, and any number of blanks may
stand in front of each; a reader that evaluates the tokens yields the same value however they
are spaced. -/

namespace SchemaSpans

/-- The bytes are these tokens, one after another, each of them behind any number of blanks. -/
inductive Spaced : List Input → Input → Prop where
  | nil : Spaced [] []
  | cons {blanks token w : Input} {tokens : List Input}
      (hblanks : ∀ b ∈ blanks, Ascii.isBlank b = true) (h : Spaced tokens w) :
      Spaced (token :: tokens) (blanks ++ (token ++ w))

namespace Spaced

variable {token w : Input} {tokens more : List Input}

/-- A token with no blank in front of it. -/
theorem cons_self (h : Spaced tokens w) : Spaced (token :: tokens) (token ++ w) := by
  have hcons : Spaced (token :: tokens) ([] ++ (token ++ w)) :=
    .cons (fun _ hb => (List.not_mem_nil hb).elim) h
  exact hcons

theorem singleton (token : Input) : Spaced [token] token := by
  have h : Spaced [token] (token ++ []) := cons_self nil
  rwa [List.append_nil] at h

/-- Tokens with no blanks between them. -/
theorem flatten (tokens : List Input) : Spaced tokens tokens.flatten := by
  induction tokens with
  | nil => exact nil
  | cons token tokens ih => exact ih.cons_self

theorem append {v : Input} (h : Spaced tokens w) (hmore : Spaced more v) :
    Spaced (tokens ++ more) (w ++ v) := by
  induction h with
  | nil => exact hmore
  | cons hblanks _ ih =>
    rw [List.append_assoc, List.append_assoc, List.cons_append]
    exact .cons hblanks ih

/-- The bytes of two rows of tokens divide where the tokens do. -/
theorem exists_append (h : Spaced (tokens ++ more) w) :
    ∃ u v, w = u ++ v ∧ Spaced tokens u ∧ Spaced more v := by
  induction tokens generalizing w with
  | nil => exact ⟨[], w, rfl, .nil, h⟩
  | cons token tokens ih =>
    cases h with
    | @cons blanks _ w _ hblanks h =>
      obtain ⟨u, v, rfl, hu, hv⟩ := ih h
      refine ⟨blanks ++ (token ++ u), v, ?_, .cons hblanks hu, hv⟩
      simp only [List.append_assoc]

/-- Further blanks may stand in front of the first token. -/
theorem blanks_append {blanks : Input} (hblanks : ∀ b ∈ blanks, Ascii.isBlank b = true)
    (h : Spaced (token :: tokens) w) : Spaced (token :: tokens) (blanks ++ w) := by
  cases h with
  | cons hblanks' h =>
    rw [← List.append_assoc]
    exact .cons (List.forall_mem_append.mpr ⟨hblanks, hblanks'⟩) h

/-- Behind the blanks in front of it stands the first token. -/
theorem dropWhile_append {c : UInt8} (h : Spaced ((c :: token) :: tokens) w)
    (hc : Ascii.isBlank c = false) (rest : Input) :
    ∃ v, Spaced tokens v ∧
      (w ++ rest).dropWhile Ascii.isBlank = c :: (token ++ (v ++ rest)) := by
  cases h with
  | @cons blanks _ v _ hblanks h =>
    refine ⟨v, h, ?_⟩
    rw [List.append_assoc, List.dropWhile_append_of_pos hblanks, List.append_assoc,
      List.cons_append, List.dropWhile_cons_of_neg (by rw [hc]; decide)]

theorem of_dropWhile {input : Input} (h : Spaced (token :: tokens) w) {rest : Input}
    (hinput : input.dropWhile Ascii.isBlank = w ++ rest) :
    ∃ v, input = v ++ rest ∧ Spaced (token :: tokens) v := by
  refine ⟨input.takeWhile Ascii.isBlank ++ w, ?_, ?_⟩
  · rw [List.append_assoc, ← hinput, List.takeWhile_append_dropWhile]
  · exact h.blanks_append fun b hb => List.mem_takeWhile_imp hb

end Spaced

namespace Reader

variable {α β : Type}

theorem ends_blank {b : UInt8} (hb : Ascii.isBlank b = true) (rest : Input) :
    Ends (b :: rest) := by
  simp only [Ascii.isBlank, Bool.or_eq_true, decide_eq_true_eq] at hb
  rcases hb with ((rfl | rfl) | rfl) | rfl <;>
  · rintro b ⟨⟩
    decide

/-- Blanks end a number, and so does what stands behind them. -/
theorem ends_blanks {blanks rest : Input} (hblanks : ∀ b ∈ blanks, Ascii.isBlank b = true)
    (hrest : Ends rest) : Ends (blanks ++ rest) := by
  cases blanks with
  | nil => exact hrest
  | cons b blanks => exact ends_blank (hblanks b List.mem_cons_self) _

theorem ends_spaced {c : UInt8} {token w : Input} {tokens : List Input}
    (h : Spaced ((c :: token) :: tokens) w) (hc : ∀ rest, Ends (c :: rest)) (rest : Input) :
    Ends (w ++ rest) := by
  cases h with
  | cons hblanks h =>
    rw [List.append_assoc]
    exact ends_blanks hblanks (hc _)

variable {tokens more : List Input} {r : Reader α}

/-- The reader accepts these tokens with this value, or stops at them if there is none, however
they are spaced and whatever follows that continues no number. -/
def Evaluates (r : Reader α) (tokens : List Input) (result : Option α) : Prop :=
  ∀ w rest, Spaced tokens w → Ends rest →
    r.accept? (w ++ rest) = result.map fun value => (value, rest)

/-- The same for tokens that end by themselves: it does not matter what follows them. -/
def Delimits (r : Reader α) (tokens : List Input) (result : Option α) : Prop :=
  ∀ w rest, Spaced tokens w → r.accept? (w ++ rest) = result.map fun value => (value, rest)

theorem Delimits.evaluates {result : Option α} (h : r.Delimits tokens result) :
    r.Evaluates tokens result :=
  fun w rest hw _ => h w rest hw

/-- A text that is read as a whole is a token for a reader that begins by passing over blanks. -/
theorem Reads.evaluates {f : Option Start → Reader α} {token : Input} {result : Except Cause α}
    (h : (start >>= f).Reads token result) : (start >>= f).Evaluates [token] result.toOption := by
  intro w rest hw hrest
  cases hw with
  | @cons blanks _ v _ hblanks hv =>
    cases hv
    have hread := accept?_of_is (h rest hrest)
    rw [accept?_bind, accept?_start] at hread ⊢
    rw [List.append_nil, List.append_assoc, List.dropWhile_append_of_pos hblanks]
    exact hread

theorem Evaluates.map {result : Option α} (h : r.Evaluates tokens result) (f : α → β) :
    (r >>= fun a => pure (f a)).Evaluates tokens (result.map f) :=
  fun w rest hw hrest => accept?_map (h w rest hw hrest) f

/-- Tokens that end by themselves may stand in front of any others. -/
theorem Delimits.bind {result : Option α} {next : α → Reader β} {f : α → Option β}
    (h : r.Delimits tokens result)
    (hnext : ∀ a, result = some a → (next a).Evaluates more (f a)) :
    (r >>= next).Evaluates (tokens ++ more) (result.bind f) := by
  intro w rest hw hrest
  obtain ⟨u, v, rfl, hu, hv⟩ := hw.exists_append
  rw [accept?_bind, List.append_assoc, h u _ hu]
  cases hresult : result with
  | none => rfl
  | some a => exact hnext a hresult v rest hv hrest

/-- Everything that the reader accepts is a row of tokens with this property. -/
def Takes (r : Reader α) (p : List Input → Prop) : Prop :=
  ∀ input value rest, r.accept? input = some (value, rest) →
    ∃ tokens w, p tokens ∧ input = w ++ rest ∧ Spaced tokens w

variable {p q : List Input → Prop}

theorem Takes.mono (h : r.Takes p) (hpq : ∀ tokens, p tokens → q tokens) : r.Takes q := by
  intro input value rest haccept
  obtain ⟨tokens, w, hp, hinput, hw⟩ := h input value rest haccept
  exact ⟨tokens, w, hpq tokens hp, hinput, hw⟩

theorem Takes.bind {next : α → Reader β} (h : r.Takes p) (hnext : ∀ a, (next a).Takes q) :
    (r >>= next).Takes fun tokens => ∃ ts us, p ts ∧ q us ∧ tokens = ts ++ us := by
  intro input value rest haccept
  obtain ⟨a, rest', hfirst, hsecond⟩ := accept?_bind_eq_some_iff.mp haccept
  obtain ⟨ts, u, hp, rfl, hu⟩ := h input a rest' hfirst
  obtain ⟨us, v, hq, rfl, hv⟩ := hnext a rest' value rest hsecond
  exact ⟨ts ++ us, u ++ v, ⟨ts, us, hp, hq, rfl⟩, (List.append_assoc u v rest).symm, hu.append hv⟩

theorem Takes.map (h : r.Takes p) (f : α → β) : (r >>= fun a => pure (f a)).Takes p := by
  intro input value rest haccept
  obtain ⟨a, rest', hfirst, hsecond⟩ := accept?_bind_eq_some_iff.mp haccept
  cases hsecond
  exact h input a _ hfirst

end Reader

end SchemaSpans
