import Mathlib.Data.List.Induction
import Mathlib.Data.Nat.Digits.Defs
import SchemaSpans.Proofs.Grammar.Number
import SchemaSpans.Proofs.Json.Bytes

/-! Number literals that are integers. A literal of digits alone stands for the integer that its
digits name, if 64 bits can hold it; nothing is rounded, and the integer is written with the same
digits again. Every other literal is kept as a double or is too large. -/

namespace SchemaSpans

open Reader

namespace Literal

/-- Digits in front of one another name a number in the usual way. -/
theorem ofDigits_eq_ofDigits_reverse (ds : List Nat) :
    ofDigits ds = Nat.ofDigits 10 ds.reverse := by
  rw [ofDigits, Nat.ofDigits_eq_foldr, List.foldr_reverse]
  have hstep : (fun n d : Nat => 10 * n + d) = fun n d => (d : Nat) + 10 * n := by
    funext n d
    exact Nat.add_comm (10 * n) d
  rw [hstep]
  rfl

theorem le_ofDigits_cons (d : Nat) (ds : List Nat) : d ≤ ofDigits (d :: ds) := by
  have hle : 10 * 0 + d ≤ ofDigits (d :: ds) := Numeral.le_foldl_digits (10 * 0 + d) ds
  omega

theorem ofDigits_concat (ds : List Nat) (d : Nat) :
    ofDigits (ds ++ [d]) = 10 * ofDigits ds + d := by
  rw [ofDigits, List.foldl_append]
  rfl

/-- Digits without a leading zero are the decimal digits of the number that they name. -/
theorem decimal_ofDigits {ds : List Nat} (hne : ds ≠ []) (hlt : ∀ d ∈ ds, d < 10)
    (hzero : ds.head? = some 0 → ds = [0]) : decimal (ofDigits ds) = ds := by
  induction ds using List.reverseRecOn with
  | nil => exact absurd rfl hne
  | append_singleton ds d ih =>
    have hd : d < 10 := hlt d (List.mem_append_right ds (List.mem_singleton_self d))
    cases ds with
    | nil =>
      have hone : ofDigits ([] ++ [d]) = d := by
        rw [ofDigits_concat]
        exact Nat.zero_add d
      rw [hone, decimal_of_lt hd]
      rfl
    | cons e ds =>
      -- the digits in front do not begin with a zero, so they name a positive number
      have he : e ≠ 0 := by
        rintro rfl
        have hlength := congrArg List.length (hzero rfl)
        simp at hlength
      have hfront : decimal (ofDigits (e :: ds)) = e :: ds := by
        apply ih (List.cons_ne_nil e ds)
        · exact fun x hx => hlt x (List.mem_append_left [d] hx)
        · exact fun h => absurd (Option.some.inj h) he
      have hpos : 0 < ofDigits (e :: ds) := by
        have := le_ofDigits_cons e ds
        omega
      rw [ofDigits_concat, decimal_append hpos hd, hfront]

end Literal

theorem Whole.ofInt?_eq_some_iff {i : Int} {w : Whole} : Whole.ofInt? i = some w ↔ w.val = i := by
  constructor
  · intro h
    rw [ofInt?] at h
    split at h
    · exact congrArg Whole.val (Option.some.inj h).symm
    · cases h
  · rintro rfl
    rw [ofInt?, dif_pos ⟨w.lower, w.upper⟩]

namespace NumberText

/-- The integer that the sign and the digits in front of the point name. -/
def integer (n : NumberText) : Int :=
  if n.negative then -(Nat.ofDigits 10 n.whole.values.reverse : Nat)
  else (Nat.ofDigits 10 n.whole.values.reverse : Nat)

/-- The literal is an integer between these bounds. A negative zero is no integer. -/
structure IsIntegerIn (n : NumberText) (lower upper : Int) : Prop where
  fraction : n.fraction = none
  exponent : n.exponent = none
  bytes_ne : n.bytes ≠ [Ascii.minus, Ascii.digitByte 0]
  lower_le : lower ≤ n.integer
  le_upper : n.integer ≤ upper

variable {n : NumberText}

theorem signedWhole_literal (n : NumberText) : n.literal.signedWhole = n.integer := by
  rw [Literal.signedWhole, integer, ← Literal.ofDigits_eq_ofDigits_reverse]
  rfl

theorem isPlain_literal_iff :
    n.literal.isPlain = true ↔ n.fraction = none ∧ n.exponent = none := by
  rw [Literal.isPlain, Bool.and_eq_true, List.isEmpty_iff, Option.isNone_iff_eq_none]
  apply and_congr
  · change n.fractionValues = [] ↔ _
    rw [fractionValues]
    cases n.fraction with
    | none => exact iff_of_true rfl rfl
    | some d => exact iff_of_false (List.cons_ne_nil _ _) (Option.some_ne_none d)
  · exact Option.map_eq_none_iff

/-- Only a zero names zero, since no other literal begins with one. -/
theorem ofDigits_whole_eq_zero_iff : Literal.ofDigits n.whole.values = 0 ↔ n.whole = ⟨0, []⟩ := by
  constructor
  · intro h
    have hle := Literal.le_ofDigits_cons n.whole.first (n.whole.more.map Fin.val)
    have hvalues : n.whole.first.val :: n.whole.more.map Fin.val = n.whole.values := rfl
    rw [hvalues, h] at hle
    have hfirst : n.whole.first = 0 := Fin.val_eq_zero_iff.mp (Nat.le_zero.mp hle)
    have hmore := n.more_eq_nil hfirst
    calc n.whole = ⟨n.whole.first, n.whole.more⟩ := rfl
      _ = ⟨0, []⟩ := by rw [hfirst, hmore]
  · intro h
    rw [h]
    rfl

theorem bytes_of_plain (hfraction : n.fraction = none) (hexponent : n.exponent = none) :
    n.bytes = signBytes n.negative ++ n.whole.bytes := by
  rw [bytes, hfraction, hexponent]
  simp only [fractionBytes, exponentBytes, List.append_nil]

/-- A negative zero is written in one way only. -/
theorem bytes_eq_negativeZero_iff (hfraction : n.fraction = none) (hexponent : n.exponent = none) :
    n.bytes = [Ascii.minus, Ascii.digitByte 0] ↔
      n.negative = true ∧ Literal.ofDigits n.whole.values = 0 := by
  rw [bytes_of_plain hfraction hexponent, ofDigits_whole_eq_zero_iff]
  constructor
  · intro h
    cases hnegative : n.negative with
    | false =>
      rw [hnegative] at h
      exact absurd (List.cons.inj h).1 (Ascii.digitByte_ne_minus _ n.whole.first.isLt)
    | true =>
      rw [hnegative] at h
      obtain ⟨hfirst, hmore⟩ := List.cons.inj (List.cons.inj h).2
      have hinj : ∀ d < 10, Ascii.digitByte d = Ascii.digitByte 0 → d = 0 := by decide
      have hzero : n.whole.first = 0 :=
        Fin.val_eq_zero_iff.mp (hinj _ n.whole.first.isLt hfirst)
      refine ⟨rfl, ?_⟩
      calc n.whole = ⟨n.whole.first, n.whole.more⟩ := rfl
        _ = ⟨0, []⟩ := by rw [hzero, n.more_eq_nil hzero]
  · rintro ⟨hnegative, hwhole⟩
    rw [hnegative, hwhole]
    rfl

/-- The digits stand for a whole number exactly if they are all of the literal and 64 bits can hold
what they name, with a sign or without. -/
theorem whole?_literal_eq_some_iff {w : Whole} : n.literal.whole? = some w ↔
    n.IsIntegerIn (-2 ^ 63) (2 ^ 64 - 1) ∧ w.val = n.integer := by
  rw [Literal.whole?, signedWhole_literal]
  by_cases hplain : n.literal.isPlain = true
  · obtain ⟨hfraction, hexponent⟩ := isPlain_literal_iff.mp hplain
    have hnegativeZero : (n.literal.negative && Literal.ofDigits n.literal.whole == 0) = true ↔
        n.bytes = [Ascii.minus, Ascii.digitByte 0] := by
      rw [bytes_eq_negativeZero_iff hfraction hexponent, Bool.and_eq_true, beq_iff_eq]
      rfl
    by_cases hbytes : n.bytes = [Ascii.minus, Ascii.digitByte 0]
    · rw [hnegativeZero.mpr hbytes, hplain]
      exact iff_of_false (Option.some_ne_none w).symm fun h => h.1.bytes_ne hbytes
    · rw [Bool.eq_false_iff.mpr fun h => hbytes (hnegativeZero.mp h), hplain]
      have hvalue : Whole.ofInt? n.integer = some w ↔ w.val = n.integer := Whole.ofInt?_eq_some_iff
      refine hvalue.trans ⟨fun h => ⟨?_, h⟩, And.right⟩
      have hlower := w.lower
      have hupper := w.upper
      exact ⟨hfraction, hexponent, hbytes, by omega, by omega⟩
  · rw [Bool.eq_false_iff.mpr hplain]
    refine iff_of_false (Option.some_ne_none w).symm ?_
    rintro ⟨h, -⟩
    exact hplain (isPlain_literal_iff.mpr ⟨h.fraction, h.exponent⟩)

/-- A literal stands for a whole number exactly if it is an integer that 64 bits can hold, with a
sign or without, and then for this integer. -/
theorem number?_eq_whole_iff {w : Whole} : n.number? = some (.whole w) ↔
    n.IsIntegerIn (-2 ^ 63) (2 ^ 64 - 1) ∧ w.val = n.integer := by
  have hliteral : n.literal.number? = some (.whole w) ↔ n.literal.whole? = some w := by
    rw [Literal.number?]
    cases n.literal.whole? with
    | none =>
      refine iff_of_false (fun h => ?_) (Option.some_ne_none w).symm
      obtain ⟨d, -, hd⟩ := Option.map_eq_some_iff.mp h
      cases hd
    | some v => simp only [Option.some.injEq, Number.whole.injEq]
  rw [← whole?_literal_eq_some_iff, ← hliteral, number?]
  split
  · -- what is too large has an exponent, and so it is no whole number
    rename_i hlarge
    refine iff_of_false (Option.some_ne_none _).symm fun h => ?_
    have hexponent := (whole?_literal_eq_some_iff.mp (hliteral.mp h)).1.exponent
    rw [isTooLarge, hexponent] at hlarge
    cases hlarge
  · exact Iff.rfl

/-- The digits in front of the point are those of the number that they name. -/
theorem decimal_ofDigits_whole (n : NumberText) :
    Literal.decimal (Literal.ofDigits n.whole.values) = n.whole.values := by
  have hne : n.whole.values ≠ [] := List.cons_ne_nil _ _
  apply Literal.decimal_ofDigits hne
  · exact fun d hd => DigitRun.lt_ten_of_mem_map hd
  · intro hhead
    have hfirst : n.whole.first = 0 := Fin.val_eq_zero_iff.mp (Option.some.inj hhead)
    rw [DigitRun.values, n.more_eq_nil hfirst, hfirst]
    rfl

/-- An integer is written back with its own digits. -/
theorem bytes_number_whole {lower upper : Int} {w : Whole} (h : n.IsIntegerIn lower upper)
    (hw : w.val = n.integer) : (Json.number (.whole w)).bytes = n.bytes := by
  have hwritten : (Json.number (.whole w)).bytes = Text.encode (Number.writtenInt n.integer) :=
    congrArg (fun i => Text.encode (Number.writtenInt i)) hw
  have hdigits : Text.encode (Nat.toDigits 10 (Literal.ofDigits n.whole.values)) =
      n.whole.bytes := by
    rw [Literal.encode_toDigits, decimal_ofDigits_whole]
    rfl
  have hinteger := signedWhole_literal n
  rw [hwritten, bytes_of_plain h.fraction h.exponent, ← hinteger, Literal.signedWhole]
  cases hnegative : n.negative with
  | false =>
    have hsign : n.literal.negative = false := hnegative
    rw [hsign, if_neg Bool.false_ne_true, Number.writtenInt, if_neg (by omega), Int.natAbs_natCast]
    exact hdigits
  | true =>
    -- the minus is there again because the digits do not name zero
    have hpos : 0 < Literal.ofDigits n.whole.values := by
      apply Nat.pos_of_ne_zero
      intro hzero
      exact h.bytes_ne ((bytes_eq_negativeZero_iff h.fraction h.exponent).mpr ⟨hnegative, hzero⟩)
    have hsign : n.literal.negative = true := hnegative
    have hneg : -(Literal.ofDigits n.literal.whole : Int) < 0 :=
      Int.neg_neg_of_pos (Int.natCast_pos.mpr hpos)
    rw [hsign, if_pos rfl, Number.writtenInt, if_pos hneg, Int.natAbs_neg, Int.natAbs_natCast,
      Text.encode_cons]
    exact congrArg (Ascii.minus :: ·) hdigits

/-- A literal is kept as this number: as an integer exactly if it is an integer that 64 bits can
hold, and then as this integer, which is written with the same bytes again. -/
inductive Keeps (n : NumberText) : Number → Prop where
  | whole {w : Whole} (inRange : n.IsIntegerIn (-2 ^ 63) (2 ^ 64 - 1)) (val_eq : w.val = n.integer)
      (written : Text.bytes (Json.number (.whole w)).render = n.bytes) : Keeps n (.whole w)
  | fractional {x : Double} (outOfRange : ¬ n.IsIntegerIn (-2 ^ 63) (2 ^ 64 - 1)) :
      Keeps n (.fractional x)

/-- Every integer of 64 bits stands for a whole number. -/
theorem exists_number?_of_isIntegerIn (h : n.IsIntegerIn (-2 ^ 63) (2 ^ 64 - 1)) :
    ∃ w : Whole, n.number? = some (.whole w) := by
  have hlower := h.lower_le
  have hupper := h.le_upper
  exact ⟨⟨n.integer, by omega, by omega⟩, number?_eq_whole_iff.mpr ⟨h, rfl⟩⟩

theorem keeps_of_number? {x : Number} (hx : n.number? = some x) : n.Keeps x := by
  cases x with
  | whole w =>
    obtain ⟨h, hw⟩ := number?_eq_whole_iff.mp hx
    exact .whole h hw (by rw [Json.bytes_render, bytes_number_whole h hw])
  | fractional x =>
    apply Keeps.fractional
    intro h
    obtain ⟨w, hw⟩ := exists_number?_of_isIntegerIn h
    rw [hx] at hw
    cases hw

end NumberText

end SchemaSpans
