import SchemaSpans.Proofs.Number.Decimal
import SchemaSpans.Proofs.Reader.Reads

/-! Whole numbers are read back from the digits that are written for them. The literal
of an integer has neither fraction nor exponent, so no rounding takes place between the
digits and the number. -/

namespace SchemaSpans

namespace Reader

theorem run_skipIf_of_ne {b : UInt8} {rest : Input} (h : rest.head? ≠ some b) :
    (skipIf b).run rest = .done false rest := by
  simp only [skipIf, run_bind, run_peek, if_neg h, run_pure]

theorem run_skipIf_self (b : UInt8) (rest : Input) :
    (skipIf b).run (b :: rest) = .done true rest := by
  simp only [skipIf, run_bind, run_peek, List.head?_cons, if_true, run_next_cons, run_pure]

/-- Input that does not continue a run of digits. -/
def EndsDigits (rest : Input) : Prop :=
  ∀ b, rest.head? = some b → Ascii.digit? b = none

theorem Ends.endsDigits {rest : Input} (h : Ends rest) : EndsDigits rest :=
  fun b hb => (h b hb).1

/-- A run of digits is read up to the first byte that is none. -/
theorem run_digits {ds : List Nat} (hds : ∀ d ∈ ds, d < 10) {rest : Input}
    (hrest : EndsDigits rest) :
    digits.run (ds.map Ascii.digitByte ++ rest) = .done ds rest := by
  have hall : ∀ b ∈ ds.map Ascii.digitByte, (Ascii.digit? b).isSome = true := by
    intro b hb
    obtain ⟨d, hd, rfl⟩ := List.mem_map.mp hb
    rw [Ascii.digit?_digitByte d (hds d hd)]
    rfl
  have hstop : rest.takeWhile (fun b => (Ascii.digit? b).isSome) = [] ∧
      rest.dropWhile (fun b => (Ascii.digit? b).isSome) = rest := by
    cases rest with
    | nil => exact ⟨rfl, rfl⟩
    | cons b rest =>
      have hb : ¬ (Ascii.digit? b).isSome = true := by
        rw [hrest b rfl]
        decide
      exact ⟨List.takeWhile_cons_of_neg hb, List.dropWhile_cons_of_neg hb⟩
  simp only [digits, run_bind, run_takeWhile, run_pure]
  rw [List.takeWhile_append_of_pos hall, List.dropWhile_append_of_pos hall, hstop.1, hstop.2,
    List.append_nil, Ascii.filterMap_digit? hds]

end Reader

namespace Literal

def ofInt (n : Int) : Literal where
  negative := n < 0
  whole := decimal n.natAbs
  fraction := []
  exponent := none

theorem signedWhole_ofInt (n : Int) : (ofInt n).signedWhole = n := by
  simp only [signedWhole, ofInt, ofDigits_decimal, decide_eq_true_eq]
  split <;> omega

/-- The literal of an integer of 64 bits stands for that integer. -/
theorem number?_ofInt (n : Whole) : (ofInt n.val).number? = some (.whole n) := by
  have hsign : ((ofInt n.val).negative && ofDigits (ofInt n.val).whole == 0) = false := by
    simp only [ofInt, ofDigits_decimal, Bool.and_eq_false_iff, decide_eq_false_iff_not,
      beq_eq_false_iff_ne]
    omega
  have hwhole : (ofInt n.val).whole? = some n := by
    rw [whole?, hsign, signedWhole_ofInt, Whole.ofInt?, dif_pos ⟨n.lower, n.upper⟩]
    rfl
  rw [number?, hwhole]

end Literal

namespace Numeral

open Reader

theorem run_digit (r : Numeral) {d : Nat} (hd : d < 10) (rest : Input) :
    r.digit.run (Ascii.digitByte d :: rest) = .done d rest := by
  simp only [digit, run_bind, run_next_cons, Ascii.digit?_digitByte d hd, run_pure]

theorem run_whole (r : Numeral) (n : Nat) {rest : Input} (hrest : Ends rest) :
    r.whole.run ((Literal.decimal n).map Ascii.digitByte ++ rest) =
      .done (Literal.decimal n) rest := by
  -- behind a leading zero no digit may follow, so zero is read in a way of its own
  rcases Nat.eq_zero_or_pos n with rfl | hn
  · have hnext : (rest.head?).bind Ascii.digit? = none := by
      cases rest with
      | nil => rfl
      | cons b rest => exact hrest.endsDigits b rfl
    rw [Literal.decimal_of_lt (by decide)]
    simp only [whole, List.map_cons, List.map_nil, List.cons_append, List.nil_append, run_bind,
      run_digit r (by decide : 0 < 10), if_true, run_peek, hnext, run_pure]
  · obtain ⟨d, ds, hds, hd⟩ := Literal.decimal_of_pos hn
    have hlt : ∀ e ∈ d :: ds, e < 10 := fun e he => Literal.lt_ten_of_mem_decimal (hds ▸ he)
    rw [hds]
    simp only [whole, List.map_cons, List.cons_append, run_bind,
      run_digit r (hlt d (List.mem_cons_self)), if_neg hd,
      run_digits (fun e he => hlt e (List.mem_cons_of_mem d he)) hrest.endsDigits, run_pure]

theorem run_fraction_of_ends (r : Numeral) {rest : Input} (hrest : Ends rest) :
    r.fraction.run rest = .done [] rest := by
  have hpoint : rest.head? ≠ some Ascii.point := fun h => (hrest _ h).2.1 rfl
  simp only [fraction, run_bind, run_skipIf_of_ne hpoint, Bool.false_eq_true, if_false, run_pure]

theorem run_exponent_of_ne (r : Numeral) (ds : List Nat) {rest : Input}
    (hlower : rest.head? ≠ some Ascii.lowerE) (hupper : rest.head? ≠ some Ascii.upperE) :
    (r.exponent ds).run rest = .done none rest := by
  simp only [exponent, exponentMark, run_bind, run_skipIf_of_ne hlower, run_skipIf_of_ne hupper,
    Bool.false_eq_true, if_false, run_pure]

theorem run_exponent_of_ends (r : Numeral) (ds : List Nat) {rest : Input} (hrest : Ends rest) :
    (r.exponent ds).run rest = .done none rest :=
  run_exponent_of_ne r ds (fun h => (hrest _ h).2.2.1 rfl) fun h => (hrest _ h).2.2.2 rfl

/-- The digits and the sign of an integer are read as its literal. -/
theorem reads_writtenInt (r : Numeral) (n : Int) :
    r.read.Reads (Text.encode (Number.writtenInt n)) (.ok (Literal.ofInt n)) := by
  intro rest hrest
  change r.read.run (Text.encode (Number.writtenInt n) ++ rest) = .done (Literal.ofInt n) rest
  have hdigits := Literal.encode_toDigits n.natAbs
  by_cases hn : n < 0
  · have hminus : Text.encode (Number.writtenInt n) =
        Ascii.minus :: (Literal.decimal n.natAbs).map Ascii.digitByte := by
      rw [Number.writtenInt, if_pos hn, Text.encode_cons, hdigits]
      rfl
    simp only [read, hminus, List.cons_append, run_bind, run_skipIf_self, run_whole r _ hrest,
      run_fraction_of_ends r hrest, run_exponent_of_ends r _ hrest, run_pure, Literal.ofInt, hn,
      decide_true]
  · have hplain : Text.encode (Number.writtenInt n) =
        (Literal.decimal n.natAbs).map Ascii.digitByte := by
      rw [Number.writtenInt, if_neg hn, hdigits]
    have hhead : ((Literal.decimal n.natAbs).map Ascii.digitByte ++ rest).head? ≠
        some Ascii.minus := by
      have hne : ∀ e < 10, Ascii.digitByte e ≠ Ascii.minus := by decide
      obtain ⟨d, ds, hds, hd⟩ := Literal.decimal_eq_cons n.natAbs
      rw [hds]
      exact fun h => hne d hd (Option.some.inj h)
    simp only [read, hplain, run_bind, run_skipIf_of_ne hhead, run_whole r _ hrest,
      run_fraction_of_ends r hrest, run_exponent_of_ends r _ hrest, run_pure, Literal.ofInt, hn,
      decide_false]

/-- In front of what continues no number, an integer can be told from its text, and so can the
place where it ends. -/
theorem writtenInt_append_inj {m n : Int} {xs ys : Input} (hxs : Ends xs) (hys : Ends ys)
    (h : Text.encode (Number.writtenInt m) ++ xs = Text.encode (Number.writtenInt n) ++ ys) :
    m = n ∧ xs = ys := by
  have hm : kept.read.run (Text.encode (Number.writtenInt m) ++ xs) = .done (Literal.ofInt m) xs :=
    reads_writtenInt kept m xs hxs
  have hn : kept.read.run (Text.encode (Number.writtenInt n) ++ ys) = .done (Literal.ofInt n) ys :=
    reads_writtenInt kept n ys hys
  rw [h, hn] at hm
  obtain ⟨hliteral, hrest⟩ := Outcome.done.inj hm
  refine ⟨?_, hrest.symm⟩
  rw [← Literal.signedWhole_ofInt m, ← hliteral, Literal.signedWhole_ofInt]

end Numeral

namespace Reader

theorem reads_whole (n : Whole) :
    number.Reads (Text.encode (Number.whole n).written) (.ok (.whole n)) := by
  intro rest hrest
  have hliteral : Numeral.kept.read.run (Text.encode (Number.writtenInt n.val) ++ rest) =
      .done (Literal.ofInt n.val) rest := Numeral.reads_writtenInt Numeral.kept n.val rest hrest
  change number.run (Text.encode (Number.writtenInt n.val) ++ rest) = .done (.whole n) rest
  simp only [number, run_bind, hliteral, Literal.number?_ofInt, run_pure]

end Reader

end SchemaSpans
