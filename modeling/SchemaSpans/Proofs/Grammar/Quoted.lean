import SchemaSpans.Proofs.Grammar.Spacing
import SchemaSpans.Proofs.Reader.Quoted

/-! Quoted strings as they are written: bytes that stand for themselves, short escapes and code
units. A string that is passed over may hold any of these; it has a text only if its surrogates
come in pairs. -/

namespace SchemaSpans

open Reader

/-- A piece of what stands between quotes. -/
inductive QuotedItem where
  | plain (b : UInt8) (h : Quoting.IsPlain b)
  /-- A backslash and the letter for the byte `b`. -/
  | short (letter b : UInt8) (h : plainEscape? letter = some b)
  /-- A code unit as four hexadecimal digits. -/
  | unit (a b c d : UInt8) (n : Nat) (h : hexNumber? a b c d = some n)

def QuotedItem.bytes : QuotedItem → Input
  | plain b _ => [b]
  | short letter _ _ => [Ascii.backslash, letter]
  | unit a b c d _ _ => [Ascii.backslash, Ascii.lowerU, a, b, c, d]

/-- A quoted string, piece by piece. -/
abbrev QuotedText := List QuotedItem

namespace QuotedText

/-- What stands between the quotes. -/
def body (t : QuotedText) : Input :=
  t.flatMap QuotedItem.bytes

def bytes (t : QuotedText) : Input :=
  Ascii.quote :: (t.body ++ [Ascii.quote])

@[simp] theorem body_nil : body [] = [] := rfl

@[simp] theorem body_cons (item : QuotedItem) (t : QuotedText) :
    body (item :: t) = item.bytes ++ body t := rfl

@[simp] theorem body_append (t u : QuotedText) : body (t ++ u) = body t ++ body u :=
  List.flatMap_append

/-- The UTF-8 bytes that two halves of a surrogate pair stand for. -/
def pairBytes (first second : Nat) : List UInt8 :=
  codePointBytes (0x10000 + (first - 0xD800) * 0x400 + (second - 0xDC00))

/-- The bytes that a quoted string stands for; none if a surrogate stands alone. -/
def unescaped? : QuotedText → Option (List UInt8)
  | [] => some []
  | .plain b _ :: rest => (unescaped? rest).map (b :: ·)
  | .short _ b _ :: rest => (unescaped? rest).map (b :: ·)
  | .unit _ _ _ _ n _ :: rest =>
    if isTrailing n then none
    else if isLeading n then
      match rest with
      | .unit _ _ _ _ m _ :: rest =>
        if isTrailing m then (unescaped? rest).map (pairBytes n m ++ ·) else none
      | _ => none
    else (unescaped? rest).map (codePointBytes n ++ ·)

/-- The text of a quoted string; none if a surrogate stands alone. -/
def text? (t : QuotedText) : Option String :=
  t.unescaped?.map Text.ofBytes

/-- Bytes that are written as they are. -/
def plain : (bs : Input) → Quoting.ArePlain bs → QuotedText
  | [], _ => []
  | b :: bs, h => .plain b h.head :: plain bs h.tail

theorem body_plain {bs : Input} (h : Quoting.ArePlain bs) : (plain bs h).body = bs := by
  induction bs with
  | nil => rfl
  | cons b bs ih => rw [plain, body_cons, QuotedItem.bytes, List.singleton_append, ih]

theorem unescaped?_plain_append {bs : Input} (h : Quoting.ArePlain bs) (t : QuotedText) :
    unescaped? (plain bs h ++ t) = t.unescaped?.map (bs ++ ·) := by
  induction bs with
  | nil => exact (Option.map_id' (x := t.unescaped?)).symm
  | cons b bs ih =>
    rw [plain, List.cons_append, unescaped?, ih, Option.map_map]
    rfl

theorem text?_plain {s : String} (h : Quoting.ArePlain (Text.bytes s)) :
    (plain (Text.bytes s) h).text? = some s := by
  have hbytes := unescaped?_plain_append h []
  rw [List.append_nil, unescaped?, Option.map_some, List.append_nil] at hbytes
  rw [text?, hbytes, Option.map_some, Text.ofBytes_bytes]

end QuotedText

namespace Reader

theorem run_fourHex {a b c d : UInt8} {n : Nat} (h : hexNumber? a b c d = some n) (rest : Input) :
    fourHex.run (a :: b :: c :: d :: rest) = .done n rest := by
  simp only [fourHex, h]

/-- What four digits are read from are four digits. -/
theorem exists_of_run_fourHex {input rest : Input} {n : Nat}
    (h : fourHex.run input = .done n rest) :
    ∃ a b c d, input = a :: b :: c :: d :: rest ∧ hexNumber? a b c d = some n := by
  match input with
  | [] | [_] | [_, _] | [_, _, _] => cases h
  | a :: b :: c :: d :: rest' =>
    cases hn : hexNumber? a b c d with
    | none =>
      simp only [fourHex, hn] at h
      cases h
    | some m =>
      rw [run_fourHex hn] at h
      cases h
      exact ⟨a, b, c, d, rfl, hn⟩

theorem accept?_pairByte_self (b : UInt8) (rest : Input) :
    (pairByte b).accept? (b :: rest) = some ((), rest) := by
  simp only [pairByte, accept?_bind, accept?_next_cons, Option.bind_some, if_true, accept?_pure]

theorem accept?_pairByte_of_ne {b c : UInt8} (h : c ≠ b) (rest : Input) :
    (pairByte b).accept? (c :: rest) = none := by
  simp only [pairByte, accept?_bind, accept?_next_cons, Option.bind_some, if_neg h, accept?_fail]

theorem eq_cons_of_accept?_pairByte {b : UInt8} {input rest : Input}
    (h : (pairByte b).accept? input = some ((), rest)) : input = b :: rest := by
  match input with
  | [] => cases h
  | c :: input =>
    by_cases hc : c = b
    · subst hc
      rw [accept?_pairByte_self] at h
      cases h
      rfl
    · rw [accept?_pairByte_of_ne hc] at h
      cases h

/-- Behind the backslash a short escape is read as the byte that it stands for. -/
theorem run_escapeWith_short (unicode : Reader (List UInt8)) {letter b : UInt8}
    (h : plainEscape? letter = some b) (rest : Input) :
    (escapeWith unicode).run (letter :: rest) = .done [b] rest := by
  have hne : letter ≠ Ascii.lowerU := by
    rintro rfl
    cases h
  simp only [escapeWith, run_bind, run_next_cons, if_neg hne, h, run_pure]

theorem run_escapeWith_lowerU (unicode : Reader (List UInt8)) (rest : Input) :
    (escapeWith unicode).run (Ascii.lowerU :: rest) = unicode.run rest := by
  simp only [escapeWith, run_bind, run_next_cons, if_true]

/-- What is read behind a backslash is a short escape, or what stands behind the letter `u`. -/
theorem cases_of_run_escapeWith {unicode : Reader (List UInt8)} {input rest : Input}
    {bs : List UInt8} (h : (escapeWith unicode).run input = .done bs rest) :
    (∃ letter b, input = letter :: rest ∧ plainEscape? letter = some b) ∨
      ∃ input', input = Ascii.lowerU :: input' ∧ unicode.run input' = .done bs rest := by
  match input with
  | [] => cases h
  | c :: input =>
    by_cases hc : c = Ascii.lowerU
    · subst hc
      rw [run_escapeWith_lowerU] at h
      exact Or.inr ⟨input, rfl, h⟩
    · cases hplain : plainEscape? c with
      | none =>
        simp only [escapeWith, run_bind, run_next_cons, if_neg hc, hplain, run_fail] at h
        cases h
      | some b =>
        rw [run_escapeWith_short unicode hplain] at h
        cases h
        exact Or.inl ⟨c, b, rfl, hplain⟩

end Reader

namespace Quoting

open QuotedText

theorem isPlain_of_hexDigit? {b : UInt8} {n : Nat} (h : Ascii.hexDigit? b = some n) :
    IsPlain b := by
  have hrange : 48 ≤ b.toNat ∧ b.toNat ≤ 57 ∨ 97 ≤ b.toNat ∧ b.toNat ≤ 102 ∨
      65 ≤ b.toNat ∧ b.toNat ≤ 70 := by
    simp only [Ascii.hexDigit?, UInt8.le_iff_toNat_le] at h
    split at h
    · rename_i hdigit
      exact Or.inl hdigit
    · split at h
      · rename_i hlower
        exact Or.inr (Or.inl hlower)
      · split at h
        · rename_i hupper
          exact Or.inr (Or.inr hupper)
        · cases h
  refine ⟨?_, ?_, ?_⟩
  · rintro rfl
    exact absurd hrange (by decide)
  · rintro rfl
    exact absurd hrange (by decide)
  · have hspace : Ascii.space.toNat = 32 := rfl
    rw [Ascii.isControl, decide_eq_false_iff_not, UInt8.lt_iff_toNat_lt]
    omega

/-- Hexadecimal digits are never taken for the end of a string. -/
theorem isPlain_of_hexNumber? {a b c d : UInt8} {n : Nat}
    (h : hexNumber? a b c d = some n) : ∀ e ∈ [a, b, c, d], IsPlain e := by
  simp only [hexNumber?, Option.bind_eq_bind, Option.bind_eq_some_iff] at h
  obtain ⟨_, ha, _, hb, _, hc, _, hd, -⟩ := h
  simp only [List.forall_mem_cons, List.not_mem_nil, false_implies, implies_true, and_true]
  exact ⟨isPlain_of_hexDigit? ha, isPlain_of_hexDigit? hb, isPlain_of_hexDigit? hc,
    isPlain_of_hexDigit? hd⟩

variable (q : Quoting)

theorem accepted?_readBody_escape (before rest : Input) :
    (q.readBody before (Ascii.backslash :: rest)).accepted? =
      (q.escape.accept? rest).bind fun p => (q.readBody (p.1.reverseAux before) p.2).accepted? := by
  rw [readBody_escape, accept?]
  cases q.escape.run rest <;> rfl

/-- Reads the second half of a surrogate pair whose first half is `first`. -/
def secondHalf (first : Nat) : Reader (List UInt8) := do
  pairByte Ascii.backslash
  pairByte Ascii.lowerU
  let second ← fourHex
  if isTrailing second then pure (pairBytes first second) else fail .loneSurrogate

theorem accept?_escape_unit {a b c d : UInt8} {n : Nat} (h : hexNumber? a b c d = some n)
    (rest : Input) : kept.escape.accept? (Ascii.lowerU :: a :: b :: c :: d :: rest) =
      if isTrailing n then none
      else if isLeading n then (secondHalf n).accept? rest
      else some (codePointBytes n, rest) := by
  have hunit : kept.escape.run (Ascii.lowerU :: a :: b :: c :: d :: rest) =
      unicodeEscape.run (a :: b :: c :: d :: rest) := run_escapeWith_lowerU unicodeEscape _
  have hfour := run_fourHex h rest
  rw [accept?, hunit]
  simp only [unicodeEscape, run_bind, hfour]
  split
  · rfl
  · split <;> rfl

theorem accept?_secondHalf_unit {a b c d : UInt8} {m : Nat} (h : hexNumber? a b c d = some m)
    (n : Nat) (rest : Input) :
    (secondHalf n).accept? (Ascii.backslash :: Ascii.lowerU :: a :: b :: c :: d :: rest) =
      if isTrailing m then some (pairBytes n m, rest) else none := by
  have hfour := accept?_of_run (run_fourHex h rest)
  simp only [secondHalf, accept?_bind, accept?_pairByte_self, Option.bind_some, hfour]
  split <;> rfl

/-- Only a code unit can be the second half of a pair. -/
theorem accept?_secondHalf_of_not_unit {t : QuotedText} (n : Nat)
    (h : ∀ a b c d m hm rest, t ≠ .unit a b c d m hm :: rest) (rest : Input) :
    (secondHalf n).accept? (t.body ++ Ascii.quote :: rest) = none := by
  match t with
  | [] => rw [body_nil, List.nil_append, secondHalf, accept?_bind,
      accept?_pairByte_of_ne (by decide), Option.bind_none]
  | .plain b hb :: t =>
    rw [body_cons, QuotedItem.bytes, List.append_assoc, List.singleton_append, secondHalf,
      accept?_bind, accept?_pairByte_of_ne hb.2.1, Option.bind_none]
  | .short letter b hletter :: t =>
    have hne : letter ≠ Ascii.lowerU := by
      rintro rfl
      cases hletter
    simp only [body_cons, QuotedItem.bytes, List.cons_append, secondHalf, accept?_bind,
      accept?_pairByte_self, Option.bind_some, accept?_pairByte_of_ne hne, Option.bind_none]
  | .unit a b c d m hm :: t => exact absurd rfl (h a b c d m hm t)

/-- What is read as the second half of a pair is a code unit. -/
theorem exists_of_accept?_secondHalf {n : Nat} {input rest : Input} {bs : List UInt8}
    (h : (secondHalf n).accept? input = some (bs, rest)) :
    ∃ (a b c d : UInt8) (m : Nat) (hm : hexNumber? a b c d = some m),
      input = (QuotedItem.unit a b c d m hm).bytes ++ rest := by
  obtain ⟨_, rest₁, hbackslash, hletter⟩ := accept?_bind_eq_some_iff.mp h
  obtain ⟨_, rest₂, hletter, hfour⟩ := accept?_bind_eq_some_iff.mp hletter
  obtain ⟨m, rest₃, hfour, htrailing⟩ := accept?_bind_eq_some_iff.mp hfour
  obtain ⟨a, b, c, d, rfl, hm⟩ := exists_of_run_fourHex (accept?_eq_some_iff.mp hfour)
  rw [eq_cons_of_accept?_pairByte hbackslash, eq_cons_of_accept?_pairByte hletter]
  refine ⟨a, b, c, d, m, hm, ?_⟩
  split at htrailing
  · obtain ⟨-, rfl⟩ := Prod.mk.inj (Option.some.inj htrailing)
    rfl
  · cases htrailing

/-- What is read between quotes are the bytes that the pieces stand for. -/
theorem accepted?_readBody_kept (t : QuotedText) (before rest : Input) :
    (kept.readBody before (t.body ++ Ascii.quote :: rest)).accepted? =
      t.unescaped?.map fun bs => (before.reverse ++ bs, rest) := by
  -- a byte that is read goes in front of `before`, and the pieces behind it are read as before
  have hgo (bs : List UInt8) {u : QuotedText}
      (ih : ∀ before, (kept.readBody before (body u ++ Ascii.quote :: rest)).accepted? =
        u.unescaped?.map fun bs => (before.reverse ++ bs, rest)) (before : List UInt8) :
      (kept.readBody (bs.reverseAux before) (body u ++ Ascii.quote :: rest)).accepted? =
        (u.unescaped?.map (bs ++ ·)).map fun bs => (before.reverse ++ bs, rest) := by
    rw [ih, Option.map_map]
    simp only [Function.comp_def, List.reverseAux_eq, List.reverse_append, List.reverse_reverse,
      List.append_assoc]
  fun_induction unescaped? t generalizing before with
  | case1 =>
    rw [body_nil, List.nil_append, readBody_quote]
    exact congrArg (fun bs => some (bs, rest)) (List.append_nil _).symm
  | case2 b hb t ih =>
    rw [body_cons, QuotedItem.bytes, List.append_assoc, List.singleton_append,
      readBody_plain kept hb]
    exact hgo [b] ih before
  | case3 letter b hb t ih =>
    have hescape : kept.escape.accept? (letter :: (body t ++ Ascii.quote :: rest)) =
        some ([b], body t ++ Ascii.quote :: rest) :=
      accept?_of_run (run_escapeWith_short unicodeEscape hb _)
    simp only [body_cons, QuotedItem.bytes, List.cons_append, List.nil_append,
      accepted?_readBody_escape, hescape, Option.bind_some]
    exact hgo [b] ih before
  | case4 a b c d n hn t htrailing =>
    simp only [body_cons, QuotedItem.bytes, List.cons_append, List.nil_append,
      accepted?_readBody_escape, accept?_escape_unit hn, if_pos htrailing, Option.bind_none,
      Option.map_none]
  | case5 a b c d n hn htrailing hleading a' b' c' d' m hm t hsecond ih =>
    simp only [body_cons, QuotedItem.bytes, List.cons_append, List.nil_append,
      accepted?_readBody_escape, accept?_escape_unit hn, if_neg htrailing, if_pos hleading,
      accept?_secondHalf_unit hm, if_pos hsecond, Option.bind_some]
    exact hgo _ ih before
  | case6 a b c d n hn htrailing hleading a' b' c' d' m hm t hsecond =>
    simp only [body_cons, QuotedItem.bytes, List.cons_append, List.nil_append,
      accepted?_readBody_escape, accept?_escape_unit hn, if_neg htrailing, if_pos hleading,
      accept?_secondHalf_unit hm, if_neg hsecond, Option.bind_none, Option.map_none]
  | case7 a b c d n hn t htrailing hleading hunit =>
    -- what follows the first half of a pair is no code unit, or the closing quote
    simp only [body_cons, QuotedItem.bytes, List.cons_append, List.nil_append,
      accepted?_readBody_escape, accept?_escape_unit hn, if_neg htrailing, if_pos hleading,
      accept?_secondHalf_of_not_unit n hunit, Option.bind_none, Option.map_none]
  | case8 a b c d n hn t htrailing hleading ih =>
    simp only [body_cons, QuotedItem.bytes, List.cons_append, List.nil_append,
      accepted?_readBody_escape, accept?_escape_unit hn, if_neg htrailing, if_neg hleading,
      Option.bind_some]
    exact hgo _ ih before

/-- A quoted string that is passed over may hold any pieces. -/
theorem exists_readBody_skipped (t : QuotedText) (before rest : Input) :
    ∃ bs, skipped.readBody before (t.body ++ Ascii.quote :: rest) = .done bs rest := by
  induction t generalizing before with
  | nil => exact ⟨before.reverse, readBody_quote skipped before rest⟩
  | cons item t ih =>
    match item with
    | .plain b hb =>
      rw [body_cons, QuotedItem.bytes, List.append_assoc, List.singleton_append,
        readBody_plain skipped hb]
      exact ih (b :: before)
    | .short letter b hb =>
      have hescape : skipped.escape.run (letter :: (body t ++ Ascii.quote :: rest)) =
          .done [b] (body t ++ Ascii.quote :: rest) := run_escapeWith_short _ hb _
      simp only [body_cons, QuotedItem.bytes, List.cons_append, List.nil_append, readBody_escape,
        hescape]
      exact ih _
    | .unit a b c d n hn =>
      have hescape : skipped.escape.run
          (Ascii.lowerU :: a :: b :: c :: d :: (body t ++ Ascii.quote :: rest)) =
            .done [] (body t ++ Ascii.quote :: rest) := by
        simp only [skipped, run_escapeWith_lowerU, run_bind, run_fourHex hn, run_pure]
      simp only [body_cons, QuotedItem.bytes, List.cons_append, List.nil_append, readBody_escape,
        hescape]
      exact ih _

/-- An escape is made of pieces, whatever is read behind a backslash. -/
def EscapesItems (q : Quoting) : Prop :=
  ∀ input bs rest, q.escape.run input = .done bs rest →
    ∃ t : QuotedText, Ascii.backslash :: input = t.body ++ rest

theorem escapesItems_skipped : skipped.EscapesItems := by
  intro input bs rest hrun
  rcases cases_of_run_escapeWith hrun with ⟨letter, b, rfl, hb⟩ | ⟨input', rfl, hunicode⟩
  · rw [skipped, run_escapeWith_short _ hb] at hrun
    cases hrun
    exact ⟨[.short letter b hb], rfl⟩
  · rw [run_bind] at hunicode
    split at hunicode
    · rename_i n rest' hfour
      obtain ⟨a, b, c, d, rfl, hn⟩ := exists_of_run_fourHex hfour
      cases hunicode
      exact ⟨[.unit a b c d n hn], rfl⟩
    · cases hunicode

theorem escapesItems_kept : kept.EscapesItems := by
  intro input bs rest hrun
  rcases cases_of_run_escapeWith hrun with ⟨letter, b, rfl, hb⟩ | ⟨input', rfl, hunicode⟩
  · rw [kept, run_escapeWith_short _ hb] at hrun
    cases hrun
    exact ⟨[.short letter b hb], rfl⟩
  · rw [unicodeEscape, run_bind] at hunicode
    split at hunicode
    · rename_i n rest' hfour
      obtain ⟨a, b, c, d, rfl, hn⟩ := exists_of_run_fourHex hfour
      have haccept : kept.escape.accept? (Ascii.lowerU :: a :: b :: c :: d :: rest') =
          some (bs, rest) := accept?_of_run hrun
      rw [accept?_escape_unit hn] at haccept
      split at haccept
      · cases haccept
      · split at haccept
        · obtain ⟨a', b', c', d', m, hm, rfl⟩ := exists_of_accept?_secondHalf haccept
          exact ⟨[.unit a b c d n hn, .unit a' b' c' d' m hm], rfl⟩
        · cases haccept
          exact ⟨[.unit a b c d n hn], rfl⟩
    · cases hunicode

/-- What is read up to the closing quote is made of pieces. -/
theorem exists_body_of_readBody {q : Quoting} (hq : q.EscapesItems) {before input rest : Input}
    {bs : List UInt8} (h : q.readBody before input = .done bs rest) :
    ∃ t : QuotedText, input = t.body ++ Ascii.quote :: rest := by
  fun_induction readBody q before input with
  | case1 | case4 | case5 => cases h
  | case2 before rest' =>
    cases h
    exact ⟨[], rfl⟩
  | case3 before rest' bs' rest'' hescape _ _ ih =>
    obtain ⟨t, ht⟩ := hq rest' bs' rest'' hescape
    obtain ⟨u, rfl⟩ := ih h
    refine ⟨t ++ u, ?_⟩
    rw [ht, body_append, List.append_assoc]
  | case6 before b rest' hquote hbackslash hcontrol ih =>
    obtain ⟨t, rfl⟩ := ih h
    exact ⟨.plain b ⟨hquote, hbackslash, Bool.eq_false_iff.mpr hcontrol⟩ :: t, rfl⟩

end Quoting

namespace Reader

open QuotedText

theorem accept?_quotedText (t : QuotedText) (rest : Input) :
    quotedText.accept? (t.body ++ Ascii.quote :: rest) = t.text?.map fun s => (s, rest) := by
  have hread : Quoting.kept.read.accept? (t.body ++ Ascii.quote :: rest) =
      t.unescaped?.map fun bs => (bs, rest) := Quoting.accepted?_readBody_kept t [] rest
  rw [quotedText, accept?_bind, hread, text?]
  cases t.unescaped? <;> rfl

theorem accept?_skipQuoted (t : QuotedText) (rest : Input) :
    skipQuoted.accept? (t.body ++ Ascii.quote :: rest) = some ((), rest) := by
  obtain ⟨bs, hread⟩ := Quoting.exists_readBody_skipped t [] rest
  have hread : Quoting.skipped.read.accept? (t.body ++ Ascii.quote :: rest) = some (bs, rest) :=
    accept?_of_run hread
  rw [skipQuoted, accept?_bind, hread]
  rfl

theorem exists_body_of_accept?_quotedText {input rest : Input} {s : String}
    (h : quotedText.accept? input = some (s, rest)) :
    ∃ t : QuotedText, input = t.body ++ Ascii.quote :: rest := by
  obtain ⟨bs, rest', hread, hpure⟩ := accept?_bind_eq_some_iff.mp h
  cases hpure
  exact Quoting.exists_body_of_readBody Quoting.escapesItems_kept (accept?_eq_some_iff.mp hread)

theorem exists_body_of_accept?_skipQuoted {input rest : Input}
    (h : skipQuoted.accept? input = some ((), rest)) :
    ∃ t : QuotedText, input = t.body ++ Ascii.quote :: rest := by
  obtain ⟨bs, rest', hread, hpure⟩ := accept?_bind_eq_some_iff.mp h
  cases hpure
  exact Quoting.exists_body_of_readBody Quoting.escapesItems_skipped (accept?_eq_some_iff.mp hread)

/-- Reads the next token, which must be this byte. -/
def mark (b : UInt8) (atEnd otherwise : Cause) : Reader Unit := do
  match ← token with
  | none => fail atEnd
  | some c =>
    if c = b then
      let _ ← next
    else reject otherwise

theorem keyQuote_eq : keyQuote = mark Ascii.quote .endInObject .keyNotString := rfl

theorem accept?_mark_eq_some_iff {b : UInt8} {atEnd otherwise : Cause} {input rest : Input} :
    (mark b atEnd otherwise).accept? input = some ((), rest) ↔
      input.dropWhile Ascii.isBlank = b :: rest := by
  simp only [mark, accept?_bind, accept?_token, Option.bind_some]
  match input.dropWhile Ascii.isBlank with
  | [] =>
    simp only [List.head?_nil, accept?_fail]
    exact ⟨fun h => (nomatch h), fun h => (nomatch h)⟩
  | c :: rest' =>
    simp only [List.head?_cons]
    by_cases hc : c = b
    · subst hc
      simp only [if_true, accept?_bind, accept?_next_cons, Option.bind_some, accept?_pure,
        Option.some.injEq, Prod.mk.injEq, true_and, List.cons.injEq]
    · simp only [if_neg hc, accept?_reject]
      exact ⟨fun h => (nomatch h), fun h => absurd (List.cons.inj h).1 hc⟩

theorem delimits_colon : colon.Delimits [[Ascii.colon]] (some ()) := by
  intro w rest hw
  obtain ⟨v, hv, hdrop⟩ := hw.dropWhile_append (by decide) rest
  cases hv
  exact accept?_mark_eq_some_iff.mpr hdrop

theorem takes_colon : colon.Takes (· = [[Ascii.colon]]) := by
  intro input value rest h
  have hdrop := accept?_mark_eq_some_iff.mp h
  have hcolon : Spaced [[Ascii.colon]] [Ascii.colon] := .singleton _
  obtain ⟨w, hinput, hw⟩ := hcolon.of_dropWhile hdrop
  exact ⟨_, w, rfl, hinput, hw⟩

/-- The colon in front of a value does not change what the value is read as. -/
theorem evaluates_behindColon {α : Type} {value : Reader α} {tokens : List Input}
    {result : Option α} (h : value.Evaluates tokens result) :
    (colon >>= fun _ => value).Evaluates ([Ascii.colon] :: tokens) result :=
  delimits_colon.bind fun _ _ => h

theorem takes_behindColon {α : Type} {value : Reader α} {p : List Input → Prop}
    (h : value.Takes p) : (colon >>= fun _ => value).Takes fun tokens =>
      ∃ more, p more ∧ tokens = [Ascii.colon] :: more := by
  apply (takes_colon.bind fun _ => h).mono
  rintro tokens ⟨ts, us, rfl, hus, rfl⟩
  exact ⟨us, hus, rfl⟩

/-- A quoted key is read as what stands between the quotes says. -/
theorem delimits_quoted {α : Type} {body : Reader α} {t : QuotedText} {result : Option α}
    (hbody : ∀ rest, body.accept? (t.body ++ Ascii.quote :: rest) =
      result.map fun a => (a, rest)) :
    (keyQuote >>= fun _ => body).Delimits [t.bytes] result := by
  intro w rest hw
  obtain ⟨v, hv, hdrop⟩ := hw.dropWhile_append (by decide) rest
  cases hv
  rw [accept?_bind, keyQuote_eq, accept?_mark_eq_some_iff.mpr hdrop, Option.bind_some,
    List.nil_append, List.append_assoc]
  exact hbody rest

theorem takes_quoted {α : Type} {body : Reader α}
    (hbody : ∀ input a rest, body.accept? input = some (a, rest) →
      ∃ t : QuotedText, input = t.body ++ Ascii.quote :: rest) :
    (keyQuote >>= fun _ => body).Takes fun tokens => ∃ t : QuotedText, tokens = [t.bytes] := by
  intro input a rest h
  obtain ⟨_, rest', hquote, h⟩ := accept?_bind_eq_some_iff.mp h
  obtain ⟨t, rfl⟩ := hbody rest' a rest h
  have hdrop : input.dropWhile Ascii.isBlank = t.bytes ++ rest := by
    rw [accept?_mark_eq_some_iff.mp hquote, bytes, List.cons_append, List.append_assoc]
    rfl
  obtain ⟨w, hinput, hw⟩ := (Spaced.singleton t.bytes).of_dropWhile hdrop
  exact ⟨[t.bytes], w, ⟨t, rfl⟩, hinput, hw⟩

theorem delimits_key (t : QuotedText) : key.Delimits [t.bytes] t.text? :=
  delimits_quoted (accept?_quotedText t)

theorem takes_key : key.Takes fun tokens => ∃ t : QuotedText, tokens = [t.bytes] :=
  takes_quoted fun _ _ _ => exists_body_of_accept?_quotedText

/-- Passes over a key with its quotes. -/
def skipKey : Reader Unit := do
  keyQuote
  skipQuoted

theorem delimits_skipKey (t : QuotedText) : skipKey.Delimits [t.bytes] (some ()) :=
  delimits_quoted (accept?_skipQuoted t)

theorem takes_skipKey : skipKey.Takes fun tokens => ∃ t : QuotedText, tokens = [t.bytes] :=
  takes_quoted fun _ _ _ => exists_body_of_accept?_skipQuoted

end Reader

end SchemaSpans
