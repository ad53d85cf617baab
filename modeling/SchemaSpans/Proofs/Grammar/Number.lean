import SchemaSpans.Proofs.Grammar.Spacing
import SchemaSpans.Proofs.Reader.Integer

/-! Number literals as they are written: a sign, digits without a leading zero, and optionally a
fraction and an exponent. Every literal can be passed over; one whose exponent is out of all
proportion is refused when its value is wanted. -/

namespace SchemaSpans

open Reader

/-- One digit or more. -/
structure DigitRun where
  first : Fin 10
  more : List (Fin 10)
deriving DecidableEq

namespace DigitRun

def values (r : DigitRun) : List Nat :=
  (r.first :: r.more).map Fin.val

def bytes (r : DigitRun) : Input :=
  r.values.map Ascii.digitByte

theorem lt_ten_of_mem_map {ds : List (Fin 10)} {d : Nat} (h : d ∈ ds.map Fin.val) : d < 10 := by
  obtain ⟨e, -, rfl⟩ := List.mem_map.mp h
  exact e.isLt

theorem bytes_eq_cons (r : DigitRun) :
    r.bytes = Ascii.digitByte r.first :: (r.more.map Fin.val).map Ascii.digitByte := rfl

end DigitRun

/-- An exponent as it is written, with an upper or a lower case letter in front. -/
structure ExponentText where
  upper : Bool
  /-- Whether the sign, if there is one, is a minus. -/
  sign : Option Bool
  digits : DigitRun
deriving DecidableEq

namespace ExponentText

def letter (upper : Bool) : UInt8 :=
  if upper then Ascii.upperE else Ascii.lowerE

def signBytes : Option Bool → Input
  | none => []
  | some true => [Ascii.minus]
  | some false => [Ascii.plus]

def bytes (e : ExponentText) : Input :=
  letter e.upper :: (signBytes e.sign ++ e.digits.bytes)

def isNegative (e : ExponentText) : Bool :=
  e.sign = some true

def value (e : ExponentText) : Int :=
  if e.isNegative then -(Literal.ofDigits e.digits.values : Int)
  else Literal.ofDigits e.digits.values

end ExponentText

/-- A number literal as it is written. -/
structure NumberText where
  negative : Bool
  whole : DigitRun
  /-- No digit follows a leading zero. -/
  more_eq_nil : whole.first = 0 → whole.more = []
  fraction : Option DigitRun
  exponent : Option ExponentText
deriving DecidableEq

namespace NumberText

def signBytes (negative : Bool) : Input :=
  if negative then [Ascii.minus] else []

def fractionBytes : Option DigitRun → Input
  | none => []
  | some d => Ascii.point :: d.bytes

def exponentBytes : Option ExponentText → Input
  | none => []
  | some e => e.bytes

def bytes (n : NumberText) : Input :=
  signBytes n.negative ++ (n.whole.bytes ++ (fractionBytes n.fraction ++ exponentBytes n.exponent))

/-- The digits behind the point. -/
def fractionValues (n : NumberText) : List Nat :=
  match n.fraction with
  | none => []
  | some r => r.values

/-- What a literal says, part by part. -/
def literal (n : NumberText) : Literal where
  negative := n.negative
  whole := n.whole.values
  fraction := n.fractionValues
  exponent := n.exponent.map ExponentText.value

/-- Whether some digit in front of the exponent is not zero, and the exponent is positive and
beyond all that is read in full. -/
def isTooLarge (n : NumberText) : Bool :=
  match n.exponent with
  | none => false
  | some e => !e.isNegative && (n.whole.values ++ n.fractionValues).any (· ≠ 0) &&
      decide (Numeral.exponentLimit < Literal.ofDigits e.digits.values)

/-- The number that a literal stands for; none if it is too large. -/
def number? (n : NumberText) : Option Number :=
  if n.isTooLarge then none else n.literal.number?

/-- What follows a literal does not continue it: neither a digit, nor an exponent behind a literal
that has none, nor a point behind one that is nothing but its whole part. -/
structure EndsBefore (n : NumberText) (rest : Input) : Prop where
  digit : EndsDigits rest
  lower : n.exponent = none → rest.head? ≠ some Ascii.lowerE
  upper : n.exponent = none → rest.head? ≠ some Ascii.upperE
  point : n.exponent = none → n.fraction = none → rest.head? ≠ some Ascii.point

/-- What continues no number at all continues no literal. -/
theorem endsBefore_of_ends (n : NumberText) {rest : Input} (h : Ends rest) :
    n.EndsBefore rest where
  digit := h.endsDigits
  lower _ hb := (h _ hb).2.2.1 rfl
  upper _ hb := (h _ hb).2.2.2 rfl
  point _ _ hb := (h _ hb).2.1 rfl

/-- Only the byte behind a literal matters. -/
theorem EndsBefore.of_head?_eq {n : NumberText} {rest rest' : Input} (h : n.EndsBefore rest)
    (hhead : rest'.head? = rest.head?) : n.EndsBefore rest' where
  digit b hb := h.digit b (hhead ▸ hb)
  lower := hhead ▸ h.lower
  upper := hhead ▸ h.upper
  point := hhead ▸ h.point

theorem endsBefore_nil (n : NumberText) : n.EndsBefore [] :=
  n.endsBefore_of_ends ends_nil

end NumberText

namespace Ascii

theorem eq_digitByte_of_digit? {b : UInt8} {n : Nat} (h : digit? b = some n) :
    n < 10 ∧ b = digitByte n := by
  rw [digit?] at h
  split at h
  · rename_i hrange
    have hlower : 48 ≤ b.toNat := UInt8.le_iff_toNat_le.mp hrange.1
    have hupper : b.toNat ≤ 57 := UInt8.le_iff_toNat_le.mp hrange.2
    have hn : n = b.toNat - 48 := (Option.some.inj h).symm
    refine ⟨by omega, ?_⟩
    have hsum : n + 48 = b.toNat := by omega
    rw [digitByte, hsum, UInt8.ofNat_toNat]
  · cases h

theorem digitByte_ne_minus : ∀ d < 10, digitByte d ≠ minus := by
  decide

end Ascii

namespace Reader

theorem accept?_skipIf_of_ne {b : UInt8} {rest : Input} (h : rest.head? ≠ some b) :
    (skipIf b).accept? rest = some (false, rest) :=
  accept?_of_run (run_skipIf_of_ne h)

/-- A byte that is passed over if it comes next either stands there or does not. -/
theorem cases_of_accept?_skipIf {b : UInt8} {found : Bool} {input rest : Input}
    (h : (skipIf b).accept? input = some (found, rest)) :
    (found = true ∧ input = b :: rest) ∨
      (found = false ∧ input = rest ∧ rest.head? ≠ some b) := by
  by_cases hhead : input.head? = some b
  · obtain ⟨rest', rfl⟩ := List.head?_eq_some_iff.mp hhead
    rw [accept?_skipIf_self] at h
    cases h
    exact Or.inl ⟨rfl, rfl⟩
  · rw [accept?_skipIf_of_ne hhead] at h
    cases h
    exact Or.inr ⟨rfl, rfl, hhead⟩

/-- A run of digits that was read stands there digit by digit, and no digit follows it. -/
theorem exists_of_run_digits {input rest : Input} {ds : List Nat}
    (h : digits.run input = .done ds rest) : EndsDigits rest ∧
    ∃ es : List (Fin 10), input = (es.map Fin.val).map Ascii.digitByte ++ rest := by
  have hrun : digits.run input = .done
      ((input.takeWhile fun b => (Ascii.digit? b).isSome).filterMap Ascii.digit?)
      (input.dropWhile fun b => (Ascii.digit? b).isSome) := rfl
  rw [hrun] at h
  cases h
  have hdigits (bs : Input) (hbs : ∀ b ∈ bs, (Ascii.digit? b).isSome = true) :
      ∃ es : List (Fin 10), bs = (es.map Fin.val).map Ascii.digitByte := by
    induction bs with
    | nil => exact ⟨[], rfl⟩
    | cons b bs ih =>
      obtain ⟨n, hn⟩ := Option.isSome_iff_exists.mp (hbs b List.mem_cons_self)
      obtain ⟨hlt, hb⟩ := Ascii.eq_digitByte_of_digit? hn
      obtain ⟨es, hes⟩ := ih fun c hc => hbs c (List.mem_cons_of_mem b hc)
      exact ⟨⟨n, hlt⟩ :: es, by rw [List.map_cons, List.map_cons, ← hb, ← hes]⟩
  obtain ⟨es, hes⟩ := hdigits (input.takeWhile fun b => (Ascii.digit? b).isSome)
    fun b hb => List.mem_takeWhile_imp (p := fun b => (Ascii.digit? b).isSome) hb
  refine ⟨fun b hb => ?_, es, by rw [← hes, List.takeWhile_append_dropWhile]⟩
  have hstop := List.head?_dropWhile_not (fun b => (Ascii.digit? b).isSome) input
  rw [hb] at hstop
  exact Option.not_isSome_iff_eq_none.mp (Bool.eq_false_iff.mp hstop)

end Reader

namespace Numeral

open NumberText (signBytes fractionBytes exponentBytes)

variable (r : Numeral)

theorem run_digit_fin (d : Fin 10) (rest : Input) :
    r.digit.run (Ascii.digitByte d :: rest) = .done d.val rest :=
  run_digit r d.isLt rest

theorem exists_of_run_digit {r : Numeral} {input rest : Input} {n : Nat}
    (h : r.digit.run input = .done n rest) :
    ∃ d : Fin 10, n = d ∧ input = Ascii.digitByte d :: rest := by
  match input with
  | [] => cases h
  | b :: input =>
    cases hb : Ascii.digit? b with
    | none =>
      simp only [digit, run_bind, run_next_cons, hb] at h
      cases h
    | some m =>
      simp only [digit, run_bind, run_next_cons, hb, run_pure] at h
      cases h
      obtain ⟨hlt, hbyte⟩ := Ascii.eq_digitByte_of_digit? hb
      exact ⟨⟨n, hlt⟩, rfl, by rw [← hbyte]⟩

/-- One digit or more are read up to what is no digit. -/
theorem run_digit_digits (d : DigitRun) {rest : Input} (hrest : EndsDigits rest) :
    (r.digit >>= fun first => digits >>= fun more => pure (first :: more)).run (d.bytes ++ rest) =
      .done d.values rest := by
  have hmore : digits.run ((d.more.map Fin.val).map Ascii.digitByte ++ rest) =
      .done (d.more.map Fin.val) rest :=
    run_digits (fun e he => DigitRun.lt_ten_of_mem_map he) hrest
  rw [DigitRun.bytes_eq_cons, List.cons_append]
  simp only [run_bind, run_digit_fin, hmore]
  rfl

theorem exists_of_accept?_digit_digits {r : Numeral} {input rest : Input} {ds : List Nat}
    (h : (r.digit >>= fun first => digits >>= fun more => pure (first :: more)).accept? input =
      some (ds, rest)) : EndsDigits rest ∧ ∃ d : DigitRun, input = d.bytes ++ rest := by
  obtain ⟨first, rest₁, hfirst, hbehind⟩ := accept?_bind_eq_some_iff.mp h
  obtain ⟨more, rest₂, hmore, hpure⟩ := accept?_bind_eq_some_iff.mp hbehind
  obtain ⟨-, rfl⟩ := Prod.mk.inj (Option.some.inj hpure)
  obtain ⟨d, rfl, rfl⟩ := exists_of_run_digit (accept?_eq_some_iff.mp hfirst)
  obtain ⟨hends, ds, rfl⟩ := exists_of_run_digits (accept?_eq_some_iff.mp hmore)
  exact ⟨hends, ⟨d, ds⟩, rfl⟩

variable (n : NumberText) {rest : Input}

theorem endsDigits_point (rest : Input) : EndsDigits (Ascii.point :: rest) := by
  rintro b ⟨⟩
  rfl

theorem endsDigits_exponentBytes (hrest : EndsDigits rest) :
    EndsDigits (exponentBytes n.exponent ++ rest) := by
  cases n.exponent with
  | none => exact hrest
  | some e =>
    rintro b ⟨⟩
    cases e.upper <;> rfl

theorem endsDigits_fractionBytes (hrest : EndsDigits rest) :
    EndsDigits (fractionBytes n.fraction ++ (exponentBytes n.exponent ++ rest)) := by
  cases n.fraction with
  | none => exact endsDigits_exponentBytes n hrest
  | some d => exact endsDigits_point _

/-- The digits before the point are read up to what is no digit. -/
theorem run_whole_text (hrest : EndsDigits rest) :
    r.whole.run (n.whole.bytes ++ rest) = .done n.whole.values rest := by
  by_cases hzero : n.whole.first = 0
  · -- behind a leading zero the reader makes sure that there is no further digit
    have hmore := n.more_eq_nil hzero
    have hnext : (rest.head?).bind Ascii.digit? = none := by
      cases rest with
      | nil => rfl
      | cons b rest => exact hrest b rfl
    have hvalues : n.whole.values = [0] := by rw [DigitRun.values, hmore, hzero]; rfl
    have hbytes : n.whole.bytes ++ rest = Ascii.digitByte 0 :: rest := by
      rw [DigitRun.bytes, hvalues]
      rfl
    rw [hbytes, hvalues]
    simp only [whole, run_bind, run_digit r (by decide : 0 < 10), if_true, run_peek, hnext,
      run_pure]
  · have hne : ¬ n.whole.first.val = 0 := fun h => hzero (Fin.val_eq_zero_iff.mp h)
    have hmore : digits.run ((n.whole.more.map Fin.val).map Ascii.digitByte ++ rest) =
        .done (n.whole.more.map Fin.val) rest :=
      run_digits (fun e he => DigitRun.lt_ten_of_mem_map he) hrest
    rw [DigitRun.bytes_eq_cons, List.cons_append]
    simp only [whole, run_bind, run_digit_fin, if_neg hne, hmore, run_pure]
    rfl

theorem run_fraction_text (hrest : n.EndsBefore rest) :
    r.fraction.run (fractionBytes n.fraction ++ (exponentBytes n.exponent ++ rest)) =
      .done n.fractionValues (exponentBytes n.exponent ++ rest) := by
  rw [NumberText.fractionValues]
  cases hfraction : n.fraction with
  | none =>
    -- neither an exponent nor what ends a literal begins with a point
    have hpoint : (exponentBytes n.exponent ++ rest).head? ≠ some Ascii.point := by
      cases hexponent : n.exponent with
      | none => exact hrest.point hexponent hfraction
      | some e =>
        rw [exponentBytes, ExponentText.bytes]
        cases e.upper <;> exact fun h => absurd (Option.some.inj h) (by decide)
    simp only [fractionBytes, List.nil_append, fraction, run_bind, run_skipIf_of_ne hpoint,
      Bool.false_eq_true, if_false, run_pure]
  | some d =>
    have hdigits := run_digit_digits r d (endsDigits_exponentBytes n hrest.digit)
    simp only [fractionBytes, List.cons_append, fraction, run_bind, run_skipIf_self, if_true]
    simp only [run_bind] at hdigits
    exact hdigits

theorem le_foldl_digits (k : Nat) (ds : List Nat) : k ≤ ds.foldl (fun k d => 10 * k + d) k := by
  induction ds generalizing k with
  | nil => exact Nat.le_refl k
  | cons d ds ih =>
    have hstep : k ≤ 10 * k + d := by omega
    exact hstep.trans (ih (10 * k + d))

/-- The digits of an exponent are all read unless they go beyond what may be refused. -/
theorem continueExponent_is {refuses : Bool} {k : Nat} (hk : refuses = true → k ≤ exponentLimit)
    {ds : List Nat} (hds : ∀ d ∈ ds, d < 10) (hrest : EndsDigits rest) :
    (continueExponent refuses k (ds.map Ascii.digitByte ++ rest)).Is rest
      (if refuses && decide (exponentLimit < ds.foldl (fun k d => 10 * k + d) k) then
        .error .numberTooLarge
      else .ok (ds.foldl (fun k d => 10 * k + d) k)) := by
  induction ds generalizing k with
  | nil =>
    have hfits : (refuses && decide (exponentLimit < k)) = false := by
      rw [Bool.and_eq_false_imp]
      exact fun hrefuses => decide_eq_false (Nat.not_lt.mpr (hk hrefuses))
    rw [List.foldl_nil, hfits]
    match rest with
    | [] => rfl
    | b :: rest =>
      have hb : Ascii.digit? b = none := hrest b rfl
      simp only [List.map_nil, List.nil_append, continueExponent, hb]
      rfl
  | cons d ds ih =>
    have hd : Ascii.digit? (Ascii.digitByte d) = some d :=
      Ascii.digit?_digitByte d (hds d List.mem_cons_self)
    simp only [List.map_cons, List.cons_append, continueExponent, hd, List.foldl_cons]
    by_cases hstop : refuses = true ∧ exponentLimit < 10 * k + d
    · -- an exponent that is too large here only grows with the digits that follow
      have hfinal := hstop.2.trans_le (le_foldl_digits (10 * k + d) ds)
      simp only [hstop.1, hstop.2, hfinal, decide_true, Bool.and_self, if_true]
      exact ⟨_, rfl⟩
    · have hnext (hrefuses : refuses = true) : 10 * k + d ≤ exponentLimit :=
        Nat.not_lt.mp fun hlt => hstop ⟨hrefuses, hlt⟩
      have hgo : ¬ (refuses && decide (exponentLimit < 10 * k + d)) = true := by
        rw [Bool.and_eq_true, decide_eq_true_eq]
        exact hstop
      rw [if_neg hgo]
      exact ih hnext fun e he => hds e (List.mem_cons_of_mem d he)

theorem run_exponentMark (upper : Bool) (rest : Input) :
    exponentMark.run (ExponentText.letter upper :: rest) = .done true rest := by
  cases upper with
  | false => rfl
  | true => rfl

theorem run_exponentSign (e : ExponentText) (rest : Input) :
    exponentSign.run (ExponentText.signBytes e.sign ++ (e.digits.bytes ++ rest)) =
      .done e.isNegative (e.digits.bytes ++ rest) := by
  have hminus : ∀ d < 10, Ascii.digitByte d ≠ Ascii.minus := by decide
  have hplus : ∀ d < 10, Ascii.digitByte d ≠ Ascii.plus := by decide
  have hhead : (e.digits.bytes ++ rest).head? = some (Ascii.digitByte e.digits.first) := rfl
  match hsign : e.sign with
  | none =>
    have hminus' : (e.digits.bytes ++ rest).head? ≠ some Ascii.minus := by
      rw [hhead]
      exact fun h => hminus _ e.digits.first.isLt (Option.some.inj h)
    have hplus' : (e.digits.bytes ++ rest).head? ≠ some Ascii.plus := by
      rw [hhead]
      exact fun h => hplus _ e.digits.first.isLt (Option.some.inj h)
    simp only [ExponentText.signBytes, ExponentText.isNegative, hsign, List.nil_append,
      exponentSign, run_bind, run_skipIf_of_ne hminus', Bool.false_eq_true, if_false,
      run_skipIf_of_ne hplus', run_pure]
    rfl
  | some true =>
    simp only [ExponentText.signBytes, ExponentText.isNegative, hsign, List.cons_append,
      List.nil_append, exponentSign, run_bind, run_skipIf_self, if_true, run_pure]
    rfl
  | some false =>
    have hminus' : (Ascii.plus :: (e.digits.bytes ++ rest)).head? ≠ some Ascii.minus :=
      fun h => absurd (Option.some.inj h) (by decide)
    simp only [ExponentText.signBytes, ExponentText.isNegative, hsign, List.cons_append,
      List.nil_append, exponentSign, run_bind, run_skipIf_of_ne hminus', Bool.false_eq_true,
      if_false, run_skipIf_self, run_pure]
    rfl

/-- The digits of an exponent, of which the first one is read before. -/
theorem run_exponentDigits (d : DigitRun) (refuses : Bool) (hrest : EndsDigits rest) :
    ((exponentDigits refuses d.first).run
        ((d.more.map Fin.val).map Ascii.digitByte ++ rest)).Is rest
      (if refuses && decide (exponentLimit < Literal.ofDigits d.values) then .error .numberTooLarge
      else .ok (Literal.ofDigits d.values)) := by
  have hsmall : d.first.val ≤ exponentLimit := by
    have := d.first.isLt
    unfold exponentLimit
    omega
  have hvalue : (d.more.map Fin.val).foldl (fun k d => 10 * k + d) d.first.val =
      Literal.ofDigits d.values := by
    simp only [Literal.ofDigits, DigitRun.values, List.map_cons, List.foldl_cons, Nat.mul_zero,
      Nat.zero_add]
  rw [← hvalue]
  exact continueExponent_is (fun _ => hsmall) (fun d hd => DigitRun.lt_ten_of_mem_map hd) hrest

theorem run_exponent_some (e : ExponentText) (ds : List Nat) (hrest : EndsDigits rest) :
    ((r.exponent ds).run (e.bytes ++ rest)).Is rest
      (if r.bounded && !e.isNegative && ds.any (· ≠ 0) &&
        decide (exponentLimit < Literal.ofDigits e.digits.values) then .error .numberTooLarge
      else .ok (some e.value)) := by
  have hmark := run_exponentMark e.upper
    (ExponentText.signBytes e.sign ++ (e.digits.bytes ++ rest))
  have hsign := run_exponentSign e rest
  have hfirst := run_digit_fin r e.digits.first
    ((e.digits.more.map Fin.val).map Ascii.digitByte ++ rest)
  have hdigits := is_map (run_exponentDigits e.digits
    (r.bounded && !e.isNegative && ds.any (· ≠ 0)) hrest)
    fun k => some (if e.isNegative then -(k : Int) else k)
  have hbytes : e.bytes ++ rest = ExponentText.letter e.upper ::
      (ExponentText.signBytes e.sign ++ (e.digits.bytes ++ rest)) := by
    rw [ExponentText.bytes, List.cons_append, List.append_assoc]
  rw [DigitRun.bytes_eq_cons, List.cons_append] at hbytes hmark hsign
  rw [apply_ite (Except.map _)] at hdigits
  simp only [hbytes, exponent, run_bind, hmark, hsign, hfirst, if_true]
  exact hdigits

/-- The exponent is read in full, unless a reader that is bounded finds it too large. -/
theorem run_exponent_text (hrest : n.EndsBefore rest) :
    ((r.exponent (n.whole.values ++ n.fractionValues)).run
        (exponentBytes n.exponent ++ rest)).Is rest
      (if r.bounded && n.isTooLarge then .error .numberTooLarge
      else .ok (n.exponent.map ExponentText.value)) := by
  rw [NumberText.isTooLarge]
  cases hexponent : n.exponent with
  | none =>
    have hnone := run_exponent_of_ne r (n.whole.values ++ n.fractionValues)
      (hrest.lower hexponent) (hrest.upper hexponent)
    rw [exponentBytes, List.nil_append, Bool.and_false]
    exact hnone
  | some e =>
    have hsome := run_exponent_some r e (n.whole.values ++ n.fractionValues) hrest.digit
    simp only [exponentBytes, Option.map_some]
    simp only [Bool.and_assoc] at hsome ⊢
    exact hsome

theorem run_sign_text (rest : Input) :
    (skipIf Ascii.minus).run (signBytes n.negative ++ (n.whole.bytes ++ rest)) =
      .done n.negative (n.whole.bytes ++ rest) := by
  cases n.negative with
  | true =>
    simp only [signBytes, if_true, List.singleton_append, run_skipIf_self]
  | false =>
    have hhead : (n.whole.bytes ++ rest).head? ≠ some Ascii.minus :=
      fun h => Ascii.digitByte_ne_minus _ n.whole.first.isLt (Option.some.inj h)
    simp only [signBytes, Bool.false_eq_true, if_false, List.nil_append,
      run_skipIf_of_ne hhead]

/-- A literal is read in full, unless a reader that is bounded finds its exponent too large. -/
theorem run_read (hrest : n.EndsBefore rest) : (r.read.run (n.bytes ++ rest)).Is rest
    (if r.bounded && n.isTooLarge then .error .numberTooLarge else .ok n.literal) := by
  have hbytes : n.bytes ++ rest = signBytes n.negative ++
      (n.whole.bytes ++ (fractionBytes n.fraction ++ (exponentBytes n.exponent ++ rest))) := by
    simp only [NumberText.bytes, List.append_assoc]
  have hsign := run_sign_text n
    (fractionBytes n.fraction ++ (exponentBytes n.exponent ++ rest))
  have hwhole := run_whole_text r n (endsDigits_fractionBytes n hrest.digit)
  have hfraction := run_fraction_text r n hrest
  have hexponent := is_map (run_exponent_text r n hrest) fun exponent =>
    Literal.mk n.negative n.whole.values n.fractionValues exponent
  rw [apply_ite (Except.map _)] at hexponent
  simp only [hbytes, read, run_bind, hsign, hwhole, hfraction]
  exact hexponent

theorem accept?_read (hrest : n.EndsBefore rest) : r.read.accept? (n.bytes ++ rest) =
    if r.bounded && n.isTooLarge then none else some (n.literal, rest) := by
  rw [accept?_of_is (run_read r n hrest)]
  split
  · rfl
  · rfl

variable {r : Numeral} {input : Input}

theorem exists_of_accept?_whole {ds : List Nat}
    (h : r.whole.accept? input = some (ds, rest)) : EndsDigits rest ∧
    ∃ d : DigitRun, (d.first = 0 → d.more = []) ∧ input = d.bytes ++ rest := by
  obtain ⟨first, rest₁, hfirst, hbehind⟩ := accept?_bind_eq_some_iff.mp h
  obtain ⟨d, rfl, rfl⟩ := exists_of_run_digit (accept?_eq_some_iff.mp hfirst)
  split at hbehind
  -- a leading zero is accepted only if no digit follows it
  · obtain ⟨next, rest₂, hpeek, hstop⟩ := accept?_bind_eq_some_iff.mp hbehind
    cases hpeek
    split at hstop
    · rw [accept?_reject] at hstop
      cases hstop
    · rename_i hnext
      obtain ⟨-, rfl⟩ := Prod.mk.inj (Option.some.inj hstop)
      refine ⟨fun b hb => ?_, ⟨d, []⟩, fun _ => rfl, rfl⟩
      rwa [hb, Option.bind_some] at hnext
  · rename_i hne
    obtain ⟨more, rest₂, hmore, hpure⟩ := accept?_bind_eq_some_iff.mp hbehind
    obtain ⟨-, rfl⟩ := Prod.mk.inj (Option.some.inj hpure)
    obtain ⟨hends, ds, rfl⟩ := exists_of_run_digits (accept?_eq_some_iff.mp hmore)
    exact ⟨hends, ⟨d, ds⟩, fun hzero => absurd (Fin.val_eq_zero_iff.mpr hzero) hne, rfl⟩

/-- Behind a fraction, as behind the digits in front of it, no digit follows. -/
theorem exists_of_accept?_fraction {ds : List Nat}
    (h : r.fraction.accept? input = some (ds, rest)) :
    ∃ fraction, input = fractionBytes fraction ++ rest ∧
      (EndsDigits input → EndsDigits rest) ∧
      (fraction = none → rest.head? ≠ some Ascii.point) := by
  obtain ⟨found, rest₁, hpoint, hbehind⟩ := accept?_bind_eq_some_iff.mp h
  rcases cases_of_accept?_skipIf hpoint with ⟨rfl, rfl⟩ | ⟨rfl, rfl, hne⟩
  · rw [if_pos rfl] at hbehind
    obtain ⟨hends, d, rfl⟩ := exists_of_accept?_digit_digits hbehind
    exact ⟨some d, rfl, fun _ => hends, fun hnone => nomatch hnone⟩
  · cases hbehind
    exact ⟨none, rfl, id, fun _ => hne⟩

theorem cases_of_accept?_exponentMark {found : Bool}
    (h : exponentMark.accept? input = some (found, rest)) :
    (found = false ∧ input = rest ∧ rest.head? ≠ some Ascii.lowerE ∧
        rest.head? ≠ some Ascii.upperE) ∨
      (found = true ∧ ∃ upper, input = ExponentText.letter upper :: rest) := by
  obtain ⟨lower, rest₁, hlower, hupper⟩ := accept?_bind_eq_some_iff.mp h
  rcases cases_of_accept?_skipIf hlower with ⟨rfl, rfl⟩ | ⟨rfl, rfl, hne⟩
  · cases hupper
    exact Or.inr ⟨rfl, false, rfl⟩
  · rcases cases_of_accept?_skipIf hupper with ⟨rfl, rfl⟩ | ⟨rfl, rfl, hne'⟩
    · exact Or.inr ⟨rfl, true, rfl⟩
    · exact Or.inl ⟨rfl, rfl, hne, hne'⟩

theorem exists_of_accept?_exponentSign {negative : Bool}
    (h : exponentSign.accept? input = some (negative, rest)) :
    ∃ sign, input = ExponentText.signBytes sign ++ rest := by
  obtain ⟨minus, rest₁, hminus, hbehind⟩ := accept?_bind_eq_some_iff.mp h
  rcases cases_of_accept?_skipIf hminus with ⟨rfl, rfl⟩ | ⟨rfl, rfl, -⟩
  · cases hbehind
    exact ⟨some true, rfl⟩
  · obtain ⟨plus, rest₂, hplus, hpure⟩ := accept?_bind_eq_some_iff.mp hbehind
    cases hpure
    rcases cases_of_accept?_skipIf hplus with ⟨rfl, rfl⟩ | ⟨rfl, rfl, -⟩
    · exact ⟨some false, rfl⟩
    · exact ⟨none, rfl⟩

theorem exists_of_accepted?_continueExponent {refuses : Bool} {k m : Nat}
    (h : (continueExponent refuses k input).accepted? = some (m, rest)) : EndsDigits rest ∧
    ∃ ds : List (Fin 10), input = (ds.map Fin.val).map Ascii.digitByte ++ rest := by
  fun_induction continueExponent refuses k input with
  | case1 =>
    cases h
    exact ⟨ends_nil.endsDigits, [], rfl⟩
  | case2 k b input hb =>
    cases h
    exact ⟨fun _ heq => Option.some.inj heq ▸ hb, [], rfl⟩
  | case3 => cases h
  | case4 k b input d hd hgo ih =>
    obtain ⟨hlt, rfl⟩ := Ascii.eq_digitByte_of_digit? hd
    obtain ⟨hends, ds, rfl⟩ := ih h
    exact ⟨hends, ⟨d, hlt⟩ :: ds, rfl⟩

/-- Behind an exponent, as behind the digits in front of it, no digit follows. -/
theorem exists_of_accept?_exponent {ds : List Nat} {value : Option Int}
    (h : (r.exponent ds).accept? input = some (value, rest)) :
    ∃ exponent, input = exponentBytes exponent ++ rest ∧
      (EndsDigits input → EndsDigits rest) ∧
      (exponent = none → rest.head? ≠ some Ascii.lowerE ∧ rest.head? ≠ some Ascii.upperE) := by
  obtain ⟨found, rest₁, hmark, hbehind⟩ := accept?_bind_eq_some_iff.mp h
  rcases cases_of_accept?_exponentMark hmark with ⟨rfl, rfl, hne⟩ | ⟨rfl, upper, rfl⟩
  · cases hbehind
    exact ⟨none, rfl, id, fun _ => hne⟩
  · obtain ⟨negative, rest₂, hsign, hdigits⟩ := accept?_bind_eq_some_iff.mp hbehind
    obtain ⟨sign, rfl⟩ := exists_of_accept?_exponentSign hsign
    obtain ⟨first, rest₃, hfirst, hmore⟩ := accept?_bind_eq_some_iff.mp hdigits
    obtain ⟨d, rfl, rfl⟩ := exists_of_run_digit (accept?_eq_some_iff.mp hfirst)
    obtain ⟨k, rest₄, hmore, hpure⟩ := accept?_bind_eq_some_iff.mp hmore
    cases hpure
    obtain ⟨hends, ds, rfl⟩ := exists_of_accepted?_continueExponent hmore
    refine ⟨some ⟨upper, sign, ⟨d, ds⟩⟩, ?_, fun _ => hends, fun hnone => nomatch hnone⟩
    rw [exponentBytes, ExponentText.bytes, List.cons_append, List.append_assoc]
    rfl

/-- Whatever is read as a number is a literal, and it is read to its end. -/
theorem exists_of_accept?_read {l : Literal} (h : r.read.accept? input = some (l, rest)) :
    ∃ n : NumberText, input = n.bytes ++ rest ∧ n.EndsBefore rest := by
  obtain ⟨negative, rest₁, hsign, hbehind⟩ := accept?_bind_eq_some_iff.mp h
  obtain ⟨whole, rest₂, hwhole, hbehind⟩ := accept?_bind_eq_some_iff.mp hbehind
  obtain ⟨fraction, rest₃, hfraction, hbehind⟩ := accept?_bind_eq_some_iff.mp hbehind
  obtain ⟨exponent, rest₄, hexponent, hpure⟩ := accept?_bind_eq_some_iff.mp hbehind
  cases hpure
  obtain ⟨hdigit, d, hzero, rfl⟩ := exists_of_accept?_whole hwhole
  obtain ⟨f, rfl, hdigit', hpoint⟩ := exists_of_accept?_fraction hfraction
  obtain ⟨e, rfl, hdigit'', hletter⟩ := exists_of_accept?_exponent hexponent
  -- whether there is a sign is settled by the first byte
  have hminus : ∃ sign, input = signBytes sign ++
      (d.bytes ++ (fractionBytes f ++ (exponentBytes e ++ rest))) := by
    rcases cases_of_accept?_skipIf hsign with ⟨-, rfl⟩ | ⟨-, rfl, -⟩
    · exact ⟨true, rfl⟩
    · exact ⟨false, rfl⟩
  obtain ⟨sign, rfl⟩ := hminus
  refine ⟨⟨sign, d, hzero, f, e⟩, ?_, ?_⟩
  · simp only [NumberText.bytes, List.append_assoc]
  · refine ⟨hdigit'' (hdigit' hdigit), fun he => (hletter he).1, fun he => (hletter he).2, ?_⟩
    rintro rfl hf
    exact hpoint hf

/-- Where a literal ends, no longer literal begins with it. -/
theorem length_le_of_endsBefore {n m : NumberText} {rest rest' : Input} (h : n.EndsBefore rest)
    (heq : m.bytes ++ rest' = n.bytes ++ rest) : m.bytes.length ≤ n.bytes.length := by
  rcases List.append_eq_append_iff.mp heq with ⟨more, hn, -⟩ | ⟨more, hm, hrest⟩
  · rw [hn, List.length_append]
    exact Nat.le_add_right _ _
  match more with
  | [] => rw [hm, List.append_nil]
  | c :: more =>
    -- the reader stops behind the shorter literal, and would have to stop behind the longer one
    have hhead : (c :: more).head? = rest.head? := by
      rw [hrest]
      rfl
    have hshort := accept?_read skipped n (h.of_head?_eq hhead)
    have hlong := accept?_read skipped m m.endsBefore_nil
    rw [List.append_nil, hm, hshort] at hlong
    have hrest' : c :: more = [] := (Prod.mk.inj (Option.some.inj hlong)).2
    cases hrest'

end Numeral

namespace Reader

/-- A literal is read as the number that it stands for; if there is none, it is too large. -/
theorem run_number (n : NumberText) {rest : Input} (hrest : n.EndsBefore rest) :
    (number.run (n.bytes ++ rest)).Is rest (n.number?.elim (.error .numberTooLarge) .ok) := by
  have hread := Numeral.run_read Numeral.kept n hrest
  have hbounded : (Numeral.kept.bounded && n.isTooLarge) = n.isTooLarge := Bool.true_and _
  rw [hbounded] at hread
  rw [number, run_bind, NumberText.number?]
  split at hread
  · rename_i hlarge
    obtain ⟨unread, hstopped⟩ := hread
    rw [if_pos hlarge, hstopped]
    exact ⟨unread, rfl⟩
  · rename_i hfits
    have hdone : Numeral.kept.read.run (n.bytes ++ rest) = .done n.literal rest := hread
    rw [if_neg hfits, hdone]
    cases hnumber : n.literal.number? with
    | none => exact ⟨rest, by simp only [hnumber]; rfl⟩
    | some x =>
      simp only [hnumber]
      rfl

theorem accept?_number (n : NumberText) {rest : Input} (hrest : n.EndsBefore rest) :
    number.accept? (n.bytes ++ rest) = n.number?.map fun x => (x, rest) := by
  rw [accept?_of_is (run_number n hrest)]
  cases n.number? <;> rfl

theorem accept?_skipNumber (n : NumberText) {rest : Input} (hrest : n.EndsBefore rest) :
    skipNumber.accept? (n.bytes ++ rest) = some ((), rest) := by
  rw [skipNumber, accept?_bind, Numeral.accept?_read Numeral.skipped n hrest]
  rfl

theorem exists_of_accept?_number {input rest : Input} {x : Number}
    (h : number.accept? input = some (x, rest)) :
    ∃ n : NumberText, input = n.bytes ++ rest ∧ n.EndsBefore rest := by
  obtain ⟨l, rest', hread, hbehind⟩ := accept?_bind_eq_some_iff.mp h
  cases hnumber : l.number? with
  | none =>
    simp only [hnumber] at hbehind
    cases hbehind
  | some y =>
    simp only [hnumber] at hbehind
    cases hbehind
    exact Numeral.exists_of_accept?_read hread

theorem exists_of_accept?_skipNumber {input rest : Input}
    (h : skipNumber.accept? input = some ((), rest)) :
    ∃ n : NumberText, input = n.bytes ++ rest ∧ n.EndsBefore rest := by
  obtain ⟨l, rest', hread, hpure⟩ := accept?_bind_eq_some_iff.mp h
  cases hpure
  exact Numeral.exists_of_accept?_read hread

end Reader

end SchemaSpans
