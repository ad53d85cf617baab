import SchemaSpans.Reader.Skip

/-! What an outcome depends on. A reader looks at the bytes that it reads and at no more
than the one byte behind them, so inputs that agree so far lead to the same value or to
a stop for the same cause. Every elementary reader is local in this sense and sequencing
keeps it; a loop is local by induction on the number of bytes that it reads. -/

namespace SchemaSpans

variable {α β σ : Type}

/-- The same value or cause, in front of other bytes. -/
def Outcome.withRest (rest : Input) : Outcome α → Outcome α
  | done value _ => .done value rest
  | stopped cause _ => .stopped cause rest

theorem Outcome.withRest_of_rest_eq {o : Outcome α} {rest : Input} (h : o.rest = rest) :
    o.withRest rest = o := by
  subst h
  cases o <;> rfl

namespace Reader

/-- Where the reader reads at most `n` bytes, its outcome depends on these bytes and on the
byte behind them alone. -/
def IsLocalWithin (n : Nat) (r : Reader α) : Prop :=
  ∀ read rest rest' : Input, read.length ≤ n → rest.head? = rest'.head? →
    (r.run (read ++ rest)).rest = rest →
    r.run (read ++ rest') = (r.run (read ++ rest)).withRest rest'

/-- However much it reads, the reader looks no further than at the byte behind that. -/
def IsLocal (r : Reader α) : Prop :=
  ∀ n, r.IsLocalWithin n

variable {n : Nat}

/-- Where everything has been read, there is no other input that agrees with this one so far. -/
theorem run_append_of_nil {r : Reader α} {read rest' : Input}
    (hhead : ([] : Input).head? = rest'.head?) (hend : (r.run (read ++ [])).rest = []) :
    r.run (read ++ rest') = (r.run (read ++ [])).withRest rest' := by
  obtain rfl : rest' = [] := List.head?_eq_none_iff.mp hhead.symm
  exact (Outcome.withRest_of_rest_eq hend).symm

/-- A reader that reads nothing is local if its outcome depends on the next byte alone. -/
theorem isLocal_of_reads_nothing {r : Reader α} (hrest : ∀ input, (r.run input).rest = input)
    (hhead : ∀ input input' : Input, input.head? = input'.head? →
      r.run input' = (r.run input).withRest input') : r.IsLocal := by
  intro n read rest rest' _ hnext hend
  rw [hrest] at hend
  obtain rfl : read = [] := List.append_left_eq_self.mp hend
  exact hhead rest rest' hnext

theorem isLocal_pure (value : α) : (pure value : Reader α).IsLocal :=
  isLocal_of_reads_nothing (fun _ => rfl) fun _ _ _ => rfl

theorem isLocal_fail (cause : Cause) : (fail cause : Reader α).IsLocal :=
  isLocal_of_reads_nothing (fun _ => rfl) fun _ _ _ => rfl

theorem isLocal_peek : peek.IsLocal := by
  refine isLocal_of_reads_nothing (fun _ => rfl) fun input input' hnext => ?_
  rw [run_peek, run_peek, hnext]
  rfl

/-- What is read first decides where reading goes on, and there it goes on alike. -/
theorem isLocalWithin_bind {r : Reader α} {next : α → Reader β} (hr : r.IsLocalWithin n)
    (hnext : ∀ a, (next a).IsLocalWithin n) : (r >>= next).IsLocalWithin n := by
  intro read rest rest' hread hhead hend
  rw [run_bind] at hend ⊢
  rw [run_bind]
  cases hfirst : r.run (read ++ rest) with
  | stopped cause unread =>
    rw [hfirst] at hend
    have hlocal := hr read rest rest' hread hhead (by rw [hfirst]; exact hend)
    rw [hlocal, hfirst]
    rfl
  | done a middle =>
    rw [hfirst] at hend
    -- the first reader has read the front of what both of them read
    obtain ⟨read₂, rfl⟩ : rest <:+ middle := hend ▸ (next a).rest_suffix middle
    obtain ⟨read₁, hread₁⟩ : read₂ ++ rest <:+ read ++ rest := by
      have hsuffix := r.rest_suffix (read ++ rest)
      rwa [hfirst] at hsuffix
    rw [← List.append_assoc] at hread₁
    obtain rfl : read₁ ++ read₂ = read := List.append_cancel_right hread₁
    rw [List.length_append] at hread
    rw [List.append_assoc] at hfirst ⊢
    have hhead' : (read₂ ++ rest).head? = (read₂ ++ rest').head? := by
      rw [List.head?_append, List.head?_append, hhead]
    have hlocal := hr read₁ (read₂ ++ rest) (read₂ ++ rest') (by omega) hhead' (by rw [hfirst]; rfl)
    rw [hlocal, hfirst]
    exact hnext a read₂ rest rest' (by omega) hhead hend

theorem isLocal_bind {r : Reader α} {next : α → Reader β} (hr : r.IsLocal)
    (hnext : ∀ a, (next a).IsLocal) : (r >>= next).IsLocal :=
  fun n => isLocalWithin_bind (hr n) fun a => hnext a n

/-- Behind the next byte there is one byte less to read. -/
theorem isLocalWithin_next_bind {next' : Option UInt8 → Reader α}
    (h : ∀ b, ∀ m < n, (next' (some b)).IsLocalWithin m) : (next >>= next').IsLocalWithin n := by
  intro read rest rest' hread hhead hend
  cases read with
  | nil =>
    cases rest with
    | nil => exact run_append_of_nil hhead hend
    | cons b rest =>
      -- reading `b` takes it away from what is left
      have hle := (next' (some b)).length_rest_le rest
      have hlength := congrArg List.length hend
      rw [List.length_cons] at hlength
      have hrest : ((next >>= next').run ([] ++ b :: rest)).rest =
          ((next' (some b)).run rest).rest := rfl
      rw [hrest] at hlength
      omega
  | cons b read =>
    rw [List.length_cons] at hread
    exact h b read.length hread read rest rest' (Nat.le_refl _) hhead hend

theorem isLocal_next_bind {next' : Option UInt8 → Reader α} (h : ∀ b, (next' (some b)).IsLocal) :
    (next >>= next').IsLocal :=
  fun _ => isLocalWithin_next_bind fun b m _ => h b m

theorem isLocal_next : next.IsLocal := by
  rw [← bind_pure next]
  exact isLocal_next_bind fun b => isLocal_pure (some b)

theorem isLocal_reject (cause : Cause) : (reject cause : Reader α).IsLocal :=
  isLocal_next_bind fun _ => isLocal_fail cause

theorem isLocal_ite {c : Prop} [Decidable c] {r s : Reader α} (hr : r.IsLocal) (hs : s.IsLocal) :
    (if c then r else s).IsLocal := by
  split
  · exact hr
  · exact hs

/-- A run of bytes goes on as long as such bytes come next. -/
theorem takeWhile_eq (p : UInt8 → Bool) :
    takeWhile p = peek >>= fun b =>
      match b.filter p with
      | none => pure []
      | some b => next >>= fun _ => takeWhile p >>= fun more => pure (b :: more) := by
  ext input
  cases input with
  | nil => rfl
  | cons b rest =>
    rw [run_bind, run_peek, List.head?_cons]
    by_cases hb : p b = true
    · rw [run_takeWhile, List.takeWhile_cons_of_pos hb, List.dropWhile_cons_of_pos hb]
      simp only [Option.filter_some_pos hb]
      rfl
    · rw [run_takeWhile, List.takeWhile_cons_of_neg hb, List.dropWhile_cons_of_neg hb]
      simp only [Option.filter_some_neg (Bool.eq_false_iff.mpr hb)]
      rfl

theorem isLocal_takeWhile (p : UInt8 → Bool) : (takeWhile p).IsLocal := by
  intro n
  -- every byte of the run is read
  induction n using Nat.strongRecOn with
  | ind n ih =>
    rw [takeWhile_eq]
    refine isLocalWithin_bind (isLocal_peek n) fun b => ?_
    split
    · exact isLocal_pure [] n
    · exact isLocalWithin_next_bind fun _ m hm =>
        isLocalWithin_bind (ih m hm) fun _ => isLocal_pure _ m

theorem isLocal_blanks : blanks.IsLocal :=
  isLocal_bind (isLocal_takeWhile _) fun _ => isLocal_pure ()

theorem isLocal_token : token.IsLocal :=
  isLocal_bind isLocal_blanks fun _ => isLocal_peek

theorem isLocal_start : start.IsLocal :=
  isLocal_bind isLocal_token fun _ => isLocal_pure _

/-! ### Numbers and words -/

theorem isLocal_skipIf (b : UInt8) : (skipIf b).IsLocal :=
  isLocal_bind isLocal_peek fun _ =>
    isLocal_ite (isLocal_bind isLocal_next fun _ => isLocal_pure true) (isLocal_pure false)

theorem isLocal_digits : digits.IsLocal :=
  isLocal_bind (isLocal_takeWhile _) fun _ => isLocal_pure _

theorem isLocal_letters (word : List UInt8) : (letters word).IsLocal := by
  induction word with
  | nil => exact isLocal_pure ()
  | cons letter word ih =>
    refine isLocal_bind isLocal_next fun b => ?_
    match b with
    | none => exact isLocal_fail .endInValue
    | some b => exact isLocal_ite ih (isLocal_fail .expectedWord)

end Reader

namespace Numeral

open Reader

theorem isLocal_digit (r : Numeral) : r.digit.IsLocal := by
  refine isLocal_next_bind fun b => ?_
  dsimp only
  split
  · exact isLocal_pure _
  · exact isLocal_fail .malformedNumber

theorem isLocal_whole (r : Numeral) : r.whole.IsLocal := by
  refine isLocal_bind r.isLocal_digit fun first => isLocal_ite ?_ ?_
  · refine isLocal_bind isLocal_peek fun next => ?_
    split
    · exact isLocal_reject .malformedNumber
    · exact isLocal_pure [0]
  · exact isLocal_bind isLocal_digits fun more => isLocal_pure (first :: more)

theorem isLocal_fraction (r : Numeral) : r.fraction.IsLocal := by
  refine isLocal_bind (isLocal_skipIf Ascii.point) fun _ => isLocal_ite ?_ (isLocal_pure [])
  exact isLocal_bind r.isLocal_digit fun first => isLocal_bind isLocal_digits fun more =>
    isLocal_pure (first :: more)

/-- An exponent goes on as long as digits come next. -/
theorem exponentDigits_eq (refuses : Bool) (n : Nat) :
    exponentDigits refuses n = peek >>= fun b =>
      match b.bind Ascii.digit? with
      | none => pure n
      | some d => next >>= fun _ =>
        if refuses && exponentLimit < 10 * n + d then fail .numberTooLarge
        else exponentDigits refuses (10 * n + d) := by
  ext input
  cases input with
  | nil => rfl
  | cons b rest =>
    rw [run_bind, run_peek, List.head?_cons]
    change continueExponent refuses n (b :: rest) = _
    rw [continueExponent]
    dsimp only [Option.bind_some]
    cases Ascii.digit? b with
    | none => rfl
    | some d =>
      dsimp only [run_bind, run_next_cons]
      split
      · rfl
      · rfl

theorem isLocal_exponentDigits (refuses : Bool) (n : Nat) :
    (exponentDigits refuses n).IsLocal := by
  intro k
  -- every digit is a byte
  induction k using Nat.strongRecOn generalizing n with
  | ind k ih =>
    rw [exponentDigits_eq]
    refine isLocalWithin_bind (isLocal_peek k) fun b => ?_
    split
    · exact isLocal_pure n k
    · refine isLocalWithin_next_bind fun _ m hm => ?_
      split
      · exact isLocal_fail .numberTooLarge m
      · exact ih m hm _

theorem isLocal_exponentMark : exponentMark.IsLocal :=
  isLocal_bind (isLocal_skipIf Ascii.lowerE) fun _ =>
    isLocal_ite (isLocal_pure true) (isLocal_skipIf Ascii.upperE)

theorem isLocal_exponentSign : exponentSign.IsLocal :=
  isLocal_bind (isLocal_skipIf Ascii.minus) fun _ =>
    isLocal_ite (isLocal_pure true)
      (isLocal_bind (isLocal_skipIf Ascii.plus) fun _ => isLocal_pure false)

theorem isLocal_exponent (r : Numeral) (digits : List Nat) : (r.exponent digits).IsLocal := by
  refine isLocal_bind isLocal_exponentMark fun _ => isLocal_ite ?_ (isLocal_pure none)
  exact isLocal_bind isLocal_exponentSign fun _ => isLocal_bind r.isLocal_digit fun _ =>
    isLocal_bind (isLocal_exponentDigits _ _) fun _ => isLocal_pure _

theorem isLocal_read (r : Numeral) : r.read.IsLocal :=
  isLocal_bind (isLocal_skipIf Ascii.minus) fun _ => isLocal_bind r.isLocal_whole fun _ =>
    isLocal_bind r.isLocal_fraction fun _ => isLocal_bind (r.isLocal_exponent _) fun _ =>
      isLocal_pure _

end Numeral

namespace Reader

theorem isLocal_number : number.IsLocal := by
  refine isLocal_bind Numeral.kept.isLocal_read fun literal => ?_
  split
  · exact isLocal_pure _
  · exact isLocal_fail .numberTooLarge

/-! ### Strings -/

theorem length_rest_fourHex (input : Input) :
    (fourHex.run input).rest.length = input.length - 4 := by
  match input with
  | a :: b :: c :: d :: rest =>
    rw [fourHex]
    dsimp only
    split
    · rfl
    · rfl
  | [] | [_] | [_, _] | [_, _, _] => rfl

theorem isLocal_fourHex : fourHex.IsLocal := by
  intro n read rest rest' _ hhead hend
  cases rest with
  | nil => exact run_append_of_nil hhead hend
  | cons b rest =>
    have hlength := length_rest_fourHex (read ++ b :: rest)
    rw [hend, List.length_append, List.length_cons] at hlength
    obtain ⟨a₁, a₂, a₃, a₄, rfl⟩ : ∃ a₁ a₂ a₃ a₄, read = [a₁, a₂, a₃, a₄] := by
      match read, hlength with
      | [a₁, a₂, a₃, a₄], _ => exact ⟨a₁, a₂, a₃, a₄, rfl⟩
      | [], hlength | [_], hlength | [_, _], hlength | [_, _, _], hlength =>
        simp only [List.length_cons, List.length_nil] at hlength
        omega
      | _ :: _ :: _ :: _ :: _ :: _, hlength =>
        simp only [List.length_cons] at hlength
        omega
    rw [fourHex]
    dsimp only [List.cons_append, List.nil_append]
    split
    · rfl
    · rfl

theorem isLocal_pairByte (expected : UInt8) : (pairByte expected).IsLocal :=
  isLocal_next_bind fun _ => isLocal_ite (isLocal_pure ()) (isLocal_fail .unfinishedSurrogate)

theorem isLocal_unicodeEscape : unicodeEscape.IsLocal := by
  refine isLocal_bind isLocal_fourHex fun first =>
    isLocal_ite (isLocal_fail .loneSurrogate) (isLocal_ite ?_ (isLocal_pure _))
  exact isLocal_bind (isLocal_pairByte Ascii.backslash) fun _ =>
    isLocal_bind (isLocal_pairByte Ascii.lowerU) fun _ => isLocal_bind isLocal_fourHex fun _ =>
      isLocal_ite (isLocal_pure _) (isLocal_fail .loneSurrogate)

theorem isLocal_escapeWith {unicode : Reader (List UInt8)} (h : unicode.IsLocal) :
    (escapeWith unicode).IsLocal := by
  refine isLocal_next_bind fun b => isLocal_ite h ?_
  split
  · exact isLocal_pure _
  · exact isLocal_fail .unknownEscape

end Reader

namespace Quoting

open Reader

variable {q : Quoting}

/-- The bytes of a quoted string, of which some have been read. -/
def readOn (q : Quoting) (before : List UInt8) : Reader (List UInt8) where
  run := q.readBody before
  rest_suffix := q.readBody_suffix before

/-- A quoted string ends, goes on with an escape or another byte, or is broken. -/
theorem readOn_eq (q : Quoting) (before : List UInt8) :
    q.readOn before = peek >>= fun b =>
      match b with
      | none => fail .endInString
      | some b =>
        if b = Ascii.quote then next >>= fun _ => pure before.reverse
        else if b = Ascii.backslash then
          next >>= fun _ => q.escape >>= fun bytes => q.readOn (bytes.reverseAux before)
        else if Ascii.isControl b then
          if q.stopsBehindControl then reject .controlCharacter else fail .controlCharacter
        else next >>= fun _ => q.readOn (b :: before) := by
  ext input
  change q.readBody before input = _
  cases input with
  | nil =>
    rw [readBody]
    rfl
  | cons b rest =>
    rw [run_bind, run_peek, List.head?_cons]
    dsimp only
    by_cases hquote : b = Ascii.quote
    · rw [if_pos hquote, readBody, if_pos hquote]
      rfl
    · by_cases hbackslash : b = Ascii.backslash
      · subst hbackslash
        rw [if_neg hquote, if_pos rfl, readBody_escape, run_bind, run_next_cons]
        dsimp only [run_bind]
        cases q.escape.run rest <;> rfl
      · rw [if_neg hquote, if_neg hbackslash, readBody, if_neg hquote, if_neg hbackslash]
        by_cases hcontrol : Ascii.isControl b = true
        · rw [if_pos hcontrol, if_pos hcontrol]
          cases q.stopsBehindControl <;> rfl
        · rw [if_neg hcontrol, if_neg hcontrol]
          rfl

theorem isLocal_readOn (hescape : q.escape.IsLocal) (before : List UInt8) :
    (q.readOn before).IsLocal := by
  intro n
  -- every item between the quotes begins with a byte
  induction n using Nat.strongRecOn generalizing before with
  | ind n ih =>
    rw [readOn_eq]
    refine isLocalWithin_bind (isLocal_peek n) fun b => ?_
    match b with
    | none => exact isLocal_fail .endInString n
    | some b =>
      dsimp only
      split
      · exact isLocal_bind isLocal_next (fun _ => isLocal_pure _) n
      · split
        · exact isLocalWithin_next_bind fun _ m hm =>
            isLocalWithin_bind (hescape m) fun bytes => ih m hm _
        · split
          · exact isLocal_ite (isLocal_reject .controlCharacter) (isLocal_fail .controlCharacter) n
          · exact isLocalWithin_next_bind fun _ m hm => ih m hm _

theorem isLocal_read (hescape : q.escape.IsLocal) : q.read.IsLocal :=
  isLocal_readOn hescape []

end Quoting

namespace Reader

theorem isLocal_quotedText : quotedText.IsLocal :=
  isLocal_bind (Quoting.isLocal_read (isLocal_escapeWith isLocal_unicodeEscape)) fun _ =>
    isLocal_pure _

theorem isLocal_skipQuoted : skipQuoted.IsLocal :=
  isLocal_bind (Quoting.isLocal_read (isLocal_escapeWith
    (isLocal_bind isLocal_fourHex fun _ => isLocal_pure []))) fun _ => isLocal_pure ()

/-! ### Values without parts -/

theorem isLocal_mismatch (expected : Expected) (first : Option Start) :
    (mismatch expected first : Reader α).IsLocal := by
  match first with
  | none | some .list | some .object => exact isLocal_fail _
  | some .null | some .true | some .false =>
    exact isLocal_bind (isLocal_letters _) fun _ => isLocal_fail _
  | some .number => exact isLocal_bind isLocal_number fun _ => isLocal_fail _
  | some .string =>
    exact isLocal_bind isLocal_next fun _ => isLocal_bind isLocal_quotedText fun _ =>
      isLocal_fail _
  | some .other => exact isLocal_reject .expectedValue

theorem isLocal_string : string.IsLocal := by
  refine isLocal_bind isLocal_start fun first => ?_
  split
  · exact isLocal_bind isLocal_next fun _ => isLocal_quotedText
  · exact isLocal_mismatch .string _

theorem isLocal_int32 : int32.IsLocal := by
  refine isLocal_bind isLocal_start fun first => ?_
  split
  · refine isLocal_bind isLocal_number fun n => ?_
    split
    · exact isLocal_pure _
    · exact isLocal_fail _
  · exact isLocal_mismatch .int32 _

theorem isLocal_keyQuote : keyQuote.IsLocal := by
  refine isLocal_bind isLocal_token fun b => ?_
  match b with
  | none => exact isLocal_fail .endInObject
  | some b =>
    exact isLocal_ite (isLocal_bind isLocal_next fun _ => isLocal_pure ())
      (isLocal_reject .keyNotString)

theorem isLocal_colon : colon.IsLocal := by
  refine isLocal_bind isLocal_token fun b => ?_
  match b with
  | none => exact isLocal_fail .endInObject
  | some b =>
    exact isLocal_ite (isLocal_bind isLocal_next fun _ => isLocal_pure ())
      (isLocal_reject .expectedColon)

theorem isLocal_key : key.IsLocal :=
  isLocal_bind isLocal_keyQuote fun _ => isLocal_quotedText

theorem isLocal_descend {ν : Type} {inside : Option ν} {body : ν → Reader α}
    (h : ∀ inner, inside = some inner → (body inner).IsLocal) :
    (descend inside body).IsLocal := by
  cases inside with
  | none => exact isLocal_reject .nestedTooDeep
  | some inner => exact isLocal_bind isLocal_next fun _ => h inner rfl

end Reader

namespace Bracket

open Reader

variable {b : Bracket} {item : σ → Reader σ}

theorem isLocal_notEnding (close : UInt8) : (notEnding close).IsLocal := by
  refine isLocal_bind isLocal_token fun c => ?_
  match c with
  | none => exact isLocal_fail .endInValue
  | some c => exact isLocal_ite (isLocal_reject .trailingComma) (isLocal_pure ())

/-- Behind an item, the sequence ends, goes on or is broken at the next token. -/
theorem rest_eq (b : Bracket) (item : σ → Reader σ) (soFar : σ) :
    b.rest item soFar = blanks >>= fun _ => next >>= fun c =>
      match c with
      | none => fail b.atEnd
      | some c =>
        if c = b.close then pure soFar
        else if c = Ascii.comma then b.nextItem item soFar >>= b.rest item
        else fail b.expectedEnd := by
  ext input
  change b.readRest item soFar input = _
  rw [readRest_eq, run_bind, run_blanks]
  dsimp only
  cases input.dropWhile Ascii.isBlank with
  | nil => rfl
  | cons c rest =>
    rw [run_bind, run_next_cons]
    dsimp only
    split
    · rfl
    · split
      · rfl
      · rfl

theorem isLocal_rest (hcomma : b.afterComma.IsLocal) (hitem : ∀ s, (item s).IsLocal) (s : σ) :
    (b.rest item s).IsLocal := by
  intro n
  -- every item has a comma in front of it
  induction n using Nat.strongRecOn generalizing s with
  | ind n ih =>
    rw [rest_eq]
    refine isLocalWithin_bind (isLocal_blanks n) fun _ => isLocalWithin_next_bind fun c m hm => ?_
    dsimp only
    split
    · exact isLocal_pure s m
    · split
      · have hnext : (b.nextItem item s).IsLocalWithin m :=
          isLocal_bind hcomma (fun _ => hitem s) m
        exact isLocalWithin_bind hnext fun s => ih m hm s
      · exact isLocal_fail b.expectedEnd m

theorem isLocal_read (hcomma : b.afterComma.IsLocal) (hitem : ∀ s, (item s).IsLocal) (empty : σ) :
    (b.read item empty).IsLocal := by
  refine isLocal_bind isLocal_token fun c => ?_
  match c with
  | none => exact isLocal_fail b.atEnd
  | some c =>
    exact isLocal_ite (isLocal_bind isLocal_next fun _ => isLocal_pure empty)
      (isLocal_bind (hitem empty) fun _ => isLocal_rest hcomma hitem _)

theorem isLocal_readList {element : Reader α} (hcomma : b.afterComma.IsLocal)
    (helement : element.IsLocal) : (b.readList element).IsLocal :=
  isLocal_bind
    (isLocal_read hcomma (fun _ => isLocal_bind helement fun _ => isLocal_pure _) [])
    fun _ => isLocal_pure _

end Bracket

namespace Reader

/-! ### Values that are kept or passed over -/

theorem isLocal_keptMember {value : Reader Json} (h : value.IsLocal) (members : Members) :
    (keptMember value members).IsLocal :=
  isLocal_bind isLocal_key fun _ => isLocal_bind isLocal_colon fun _ =>
    isLocal_bind h fun _ => isLocal_pure _

theorem isLocal_keptWith {inside : Option (Reader Json)}
    (hinside : ∀ value, inside = some value → value.IsLocal) : (keptWith inside).IsLocal := by
  refine isLocal_bind isLocal_start fun first => ?_
  match first with
  | none => exact isLocal_fail .endInValue
  | some .null | some .true | some .false =>
    exact isLocal_bind (isLocal_letters _) fun _ => isLocal_pure _
  | some .number => exact isLocal_bind isLocal_number fun _ => isLocal_pure _
  | some .string =>
    exact isLocal_bind isLocal_next fun _ => isLocal_bind isLocal_quotedText fun _ =>
      isLocal_pure _
  | some .list =>
    refine isLocal_descend fun value hsome => ?_
    exact isLocal_bind
      (Bracket.isLocal_readList (Bracket.isLocal_notEnding _) (hinside value hsome))
      fun _ => isLocal_pure _
  | some .object =>
    refine isLocal_descend fun value hsome => ?_
    exact isLocal_bind
      (Bracket.isLocal_read (Bracket.isLocal_notEnding _)
        (isLocal_keptMember (hinside value hsome)) [])
      fun _ => isLocal_pure _
  | some .other => exact isLocal_reject .expectedValue

theorem isLocal_kept (n : Nat) : (kept n).IsLocal := by
  induction n with
  | zero => exact isLocal_keptWith fun value hsome => nomatch hsome
  | succ n ih => exact isLocal_keptWith fun value hsome => Option.some.inj hsome ▸ ih

theorem isLocal_skipMember {value : Reader Unit} (h : value.IsLocal) (u : Unit) :
    (skipMember value u).IsLocal :=
  isLocal_bind isLocal_keyQuote fun _ => isLocal_bind isLocal_skipQuoted fun _ =>
    isLocal_bind isLocal_colon fun _ => h

theorem isLocal_skipWith {inside : Option (Reader Unit)}
    (hinside : ∀ value, inside = some value → value.IsLocal) : (skipWith inside).IsLocal := by
  refine isLocal_bind isLocal_start fun first => ?_
  match first with
  | none => exact isLocal_fail .endInValue
  | some .null | some .true | some .false => exact isLocal_letters _
  | some .number =>
    exact isLocal_bind Numeral.skipped.isLocal_read fun _ => isLocal_pure ()
  | some .string => exact isLocal_bind isLocal_next fun _ => isLocal_skipQuoted
  | some .list =>
    exact isLocal_descend fun value hsome =>
      Bracket.isLocal_read (isLocal_pure ()) (fun _ => hinside value hsome) ()
  | some .object =>
    exact isLocal_descend fun value hsome =>
      Bracket.isLocal_read (isLocal_pure ()) (isLocal_skipMember (hinside value hsome)) ()
  | some .other => exact isLocal_reject .expectedValue

theorem isLocal_skipWithin (n : Nat) : (skipWithin n).IsLocal := by
  induction n with
  | zero => exact isLocal_skipWith fun value hsome => nomatch hsome
  | succ n ih => exact isLocal_skipWith fun value hsome => Option.some.inj hsome ▸ ih

end Reader

end SchemaSpans
