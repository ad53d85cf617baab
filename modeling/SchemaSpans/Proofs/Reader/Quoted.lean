import SchemaSpans.Json.Written
import SchemaSpans.Reader.Kept
import SchemaSpans.Proofs.Reader.Reads
import SchemaSpans.Proofs.Text.Encoding

/-! Strings are read back from between their quotes. A character is written as itself,
as a short escape or as a code unit; in each case the reader recovers exactly the bytes
of the character, so the text between the quotes names the string byte by byte. -/

namespace SchemaSpans

namespace Quoting

variable (q : Quoting)

/-- A byte that stands for itself between quotes. -/
def IsPlain (b : UInt8) : Prop :=
  b ≠ Ascii.quote ∧ b ≠ Ascii.backslash ∧ Ascii.isControl b = false

instance : DecidablePred IsPlain := fun b =>
  inferInstanceAs (Decidable (b ≠ Ascii.quote ∧ b ≠ Ascii.backslash ∧ Ascii.isControl b = false))

/-- Bytes that all stand for themselves. -/
def ArePlain (bs : Input) : Prop :=
  ∀ b ∈ bs, IsPlain b

instance : DecidablePred ArePlain := fun bs =>
  decidable_of_iff ((bs.all fun b => decide (IsPlain b)) = true) (by simp [ArePlain])

theorem ArePlain.head {b : UInt8} {bs : Input} (h : ArePlain (b :: bs)) : IsPlain b :=
  h b List.mem_cons_self

theorem ArePlain.tail {b : UInt8} {bs : Input} (h : ArePlain (b :: bs)) : ArePlain bs :=
  fun c hc => h c (List.mem_cons_of_mem b hc)

theorem readBody_quote (before rest : Input) :
    q.readBody before (Ascii.quote :: rest) = .done before.reverse rest := by
  rw [readBody, if_pos rfl]

theorem readBody_plain {b : UInt8} (hb : IsPlain b) (before rest : Input) :
    q.readBody before (b :: rest) = q.readBody (b :: before) rest := by
  obtain ⟨hquote, hbackslash, hcontrol⟩ := hb
  rw [readBody, if_neg hquote, if_neg hbackslash, hcontrol]
  rfl

theorem readBody_plains {bs : List UInt8} (hbs : ∀ b ∈ bs, IsPlain b) (before rest : Input) :
    q.readBody before (bs ++ rest) = q.readBody (bs.reverseAux before) rest := by
  induction bs generalizing before with
  | nil => rfl
  | cons b bs ih =>
    rw [List.cons_append, readBody_plain q (hbs b List.mem_cons_self),
      ih fun c hc => hbs c (List.mem_cons_of_mem b hc)]
    rfl

theorem isPlain_of_le {b : UInt8} (h : 0x80 ≤ b) : IsPlain b := by
  rw [UInt8.le_iff_toNat_le] at h
  refine ⟨?_, ?_, ?_⟩
  · rintro rfl
    exact absurd h (by decide)
  · rintro rfl
    exact absurd h (by decide)
  · rw [Ascii.isControl, decide_eq_false_iff_not, UInt8.lt_iff_toNat_lt]
    have : Ascii.space.toNat = 0x20 := rfl
    have : (0x80 : UInt8).toNat = 0x80 := rfl
    omega

/-- The bytes of a character that needs no escape stand for themselves. -/
theorem isPlain_of_mem {c : Char} (hquote : c ≠ '"') (hbackslash : c ≠ '\\')
    (hcontrol : ¬ c.toNat < 0x20) {b : UInt8} (hb : b ∈ String.utf8EncodeChar c) : IsPlain b := by
  by_cases hc : c.toNat < 0x80
  · rw [Text.utf8EncodeChar_of_ascii hc, List.mem_singleton] at hb
    have hbyte : b.toNat = c.toNat := by
      rw [hb, UInt8.toNat_ofNat', Nat.mod_eq_of_lt (by omega)]
    refine ⟨?_, ?_, ?_⟩
    · rintro rfl
      exact hquote (Char.toNat_inj.mp hbyte.symm)
    · rintro rfl
      exact hbackslash (Char.toNat_inj.mp hbyte.symm)
    · rw [Ascii.isControl, decide_eq_false_iff_not, UInt8.lt_iff_toNat_lt, hbyte]
      exact hcontrol
  · exact isPlain_of_le (Text.le_of_mem_utf8EncodeChar (Nat.le_of_not_lt hc) hb)

/-- A control character is recovered from the code unit that is written for it. -/
theorem run_escape_control {c : Char} (hc : c.toNat < 0x20) (rest : Input) :
    kept.escape.run (Text.encode ['u', '0', '0', Nat.digitChar (c.toNat / 16),
      Nat.digitChar (c.toNat % 16)] ++ rest) = .done (String.utf8EncodeChar c) rest := by
  have hdigits : ∀ d < 16, String.utf8EncodeChar (Nat.digitChar d) =
      [UInt8.ofNat (Nat.digitChar d).toNat] := by decide
  have hnumber : ∀ n < 0x20, Reader.hexNumber? Ascii.zero Ascii.zero
      (UInt8.ofNat (Nat.digitChar (n / 16)).toNat) (UInt8.ofNat (Nat.digitChar (n % 16)).toNat) =
        some n := by decide
  have htext : Text.encode ['u', '0', '0', Nat.digitChar (c.toNat / 16),
      Nat.digitChar (c.toNat % 16)] ++ rest = Ascii.lowerU :: Ascii.zero :: Ascii.zero ::
        UInt8.ofNat (Nat.digitChar (c.toNat / 16)).toNat ::
        UInt8.ofNat (Nat.digitChar (c.toNat % 16)).toNat :: rest := by
    simp only [Text.encode_cons, Text.encode_nil, hdigits (c.toNat / 16) (by omega),
      hdigits (c.toNat % 16) (by omega)]
    rfl
  have htrailing : Reader.isTrailing c.toNat = false := by
    simp only [Reader.isTrailing, Bool.and_eq_false_iff, decide_eq_false_iff_not]
    omega
  have hleading : Reader.isLeading c.toNat = false := by
    simp only [Reader.isLeading, Bool.and_eq_false_iff, decide_eq_false_iff_not]
    omega
  have hfour : Reader.fourHex.run (Ascii.zero :: Ascii.zero ::
      UInt8.ofNat (Nat.digitChar (c.toNat / 16)).toNat ::
      UInt8.ofNat (Nat.digitChar (c.toNat % 16)).toNat :: rest) = .done c.toNat rest := by
    simp only [Reader.fourHex, hnumber c.toNat hc]
  rw [htext]
  simp only [kept, Reader.escapeWith, Reader.run_bind, Reader.run_next_cons, if_true,
    Reader.unicodeEscape, hfour, htrailing, hleading, Bool.false_eq_true, if_false, Reader.run_pure,
    Reader.codePointBytes, Char.ofNat_toNat]

/-- A character is recovered from what is written for it. -/
theorem readBody_escaped (c : Char) (before rest : Input) :
    kept.readBody before (Text.encode (Json.escaped c) ++ rest) =
      kept.readBody ((String.utf8EncodeChar c).reverseAux before) rest := by
  have short {letter : Char} {b : UInt8}
      (hletter : kept.escape.run (Text.encode [letter] ++ rest) = .done [b] rest)
      (hbytes : String.utf8EncodeChar c = [b]) :
      kept.readBody before (Text.encode ['\\', letter] ++ rest) =
        kept.readBody ((String.utf8EncodeChar c).reverseAux before) rest := by
    have hstart : Text.encode ['\\', letter] ++ rest =
        Ascii.backslash :: (Text.encode [letter] ++ rest) := rfl
    rw [hstart, readBody_escape, hletter, hbytes]
  -- seven characters have a short escape, other control characters are written as a code unit
  fun_cases Json.escaped c with
  | case1 => exact short rfl rfl
  | case2 => exact short rfl rfl
  | case3 => exact short rfl rfl
  | case4 => exact short rfl rfl
  | case5 => exact short rfl rfl
  | case6 => exact short rfl rfl
  | case7 => exact short rfl rfl
  | case8 c _ _ _ _ _ _ _ hcontrol =>
    have hstart : Text.encode ['\\', 'u', '0', '0', Nat.digitChar (c.toNat / 16),
        Nat.digitChar (c.toNat % 16)] ++ rest = Ascii.backslash ::
          (Text.encode ['u', '0', '0', Nat.digitChar (c.toNat / 16),
            Nat.digitChar (c.toNat % 16)] ++ rest) := rfl
    rw [hstart, readBody_escape, run_escape_control hcontrol]
  | case9 c hquote hbackslash _ _ _ _ _ hcontrol =>
    have hplain : Text.encode [c] = String.utf8EncodeChar c := List.append_nil _
    rw [hplain]
    exact readBody_plains kept (fun b hb => isPlain_of_mem hquote hbackslash hcontrol hb) before rest

/-- What is written for a character stands for itself, or is a backslash, the byte behind it,
and bytes that stand for themselves. -/
theorem encode_escaped (c : Char) : (∀ b ∈ Text.encode (Json.escaped c), IsPlain b) ∨
    ∃ b bs, Text.encode (Json.escaped c) = Ascii.backslash :: b :: bs ∧ ∀ d ∈ bs, IsPlain d := by
  have short {letter : Char} {b : UInt8} (hletter : String.utf8EncodeChar letter = [b]) :
      ∃ b bs, Text.encode ['\\', letter] = Ascii.backslash :: b :: bs ∧ ∀ d ∈ bs, IsPlain d := by
    refine ⟨b, [], ?_, fun d hd => (List.not_mem_nil hd).elim⟩
    rw [Text.encode_cons, Text.encode_cons, hletter]
    rfl
  fun_cases Json.escaped c with
  | case1 => exact Or.inr (short rfl)
  | case2 => exact Or.inr (short rfl)
  | case3 => exact Or.inr (short rfl)
  | case4 => exact Or.inr (short rfl)
  | case5 => exact Or.inr (short rfl)
  | case6 => exact Or.inr (short rfl)
  | case7 => exact Or.inr (short rfl)
  | case8 c _ _ _ _ _ _ _ hcontrol =>
    refine Or.inr ⟨Ascii.lowerU, Text.encode ['0', '0', Nat.digitChar (c.toNat / 16),
      Nat.digitChar (c.toNat % 16)], rfl, ?_⟩
    have hplain : ∀ e ∈ ['0', '0', Nat.digitChar (c.toNat / 16), Nat.digitChar (c.toNat % 16)],
        e ≠ '"' ∧ e ≠ '\\' ∧ ¬ e.toNat < 0x20 := by
      have hdigits : ∀ d < 16, Nat.digitChar d ≠ '"' ∧ Nat.digitChar d ≠ '\\' ∧
          ¬ (Nat.digitChar d).toNat < 0x20 := by decide
      simp only [List.mem_cons, List.not_mem_nil, or_false]
      rintro e (rfl | rfl | rfl | rfl)
      · decide
      · decide
      · exact hdigits (c.toNat / 16) (by omega)
      · exact hdigits (c.toNat % 16) (by omega)
    intro d hd
    obtain ⟨e, he, hd⟩ := List.mem_flatMap.mp hd
    obtain ⟨hquote, hbackslash, hcontrol⟩ := hplain e he
    exact isPlain_of_mem hquote hbackslash hcontrol hd
  | case9 c hquote hbackslash _ _ _ _ _ hcontrol =>
    left
    intro b hb
    rw [Text.encode_cons, Text.encode_nil, List.append_nil] at hb
    exact isPlain_of_mem hquote hbackslash hcontrol hb

/-- The text between quotes gives back the bytes of the string, up to the closing quote. -/
theorem readBody_written (cs : List Char) (before rest : Input) :
    kept.readBody before (Text.encode (cs.flatMap Json.escaped) ++ Ascii.quote :: rest) =
      .done (before.reverse ++ Text.encode cs) rest := by
  induction cs generalizing before with
  | nil => rw [List.flatMap_nil, Text.encode_nil, List.nil_append, readBody_quote, List.append_nil]
  | cons c cs ih =>
    rw [List.flatMap_cons, Text.encode_append, List.append_assoc, readBody_escaped, ih,
      Text.encode_cons, List.reverseAux_eq, List.reverse_append, List.reverse_reverse,
      List.append_assoc]

end Quoting

namespace Json

def quotedBytes (s : String) : Input :=
  Text.encode (quoted s)

theorem quotedBytes_eq (s : String) : quotedBytes s =
    Ascii.quote :: (Text.encode (s.toList.flatMap escaped) ++ [Ascii.quote]) := by
  rw [quotedBytes, quoted, List.cons_append, Text.encode_cons, Text.encode_append]
  rfl

end Json

namespace Reader

theorem run_quotedText (s : String) (rest : Input) :
    quotedText.run (Text.encode (s.toList.flatMap Json.escaped) ++ Ascii.quote :: rest) =
      .done s rest := by
  have hread := Quoting.readBody_written s.toList [] rest
  simp only [quotedText, run_bind, Quoting.read, hread, List.reverse_nil, List.nil_append, run_pure]
  rw [← Text.bytes_eq_encode, Text.ofBytes_bytes]

theorem run_key (s : String) (rest : Input) :
    key.run (Json.quotedBytes s ++ rest) = .done s rest := by
  have htext : Json.quotedBytes s ++ rest = Ascii.quote ::
      (Text.encode (s.toList.flatMap Json.escaped) ++ Ascii.quote :: rest) := by
    rw [Json.quotedBytes_eq, List.cons_append, List.append_assoc]
    rfl
  simp only [key, keyQuote, htext, run_bind, run_token_cons (by decide : Ascii.isBlank Ascii.quote = false),
    if_true, run_next_cons, run_pure, run_quotedText]

theorem run_colon (rest : Input) : colon.run (Ascii.colon :: rest) = .done () rest := by
  simp only [colon, run_bind, run_token_cons (by decide : Ascii.isBlank Ascii.colon = false),
    if_true, run_next_cons, run_pure]

end Reader

end SchemaSpans
