import SchemaSpans.Proofs.Grammar.Quoted

/-! Ways to write a text between quotes. A character can be written as it is, by a short escape, or
by its code units; which of them is chosen makes no difference to the text. -/

namespace SchemaSpans

open Reader

/-- The pieces that stand for a character. -/
inductive Writes (c : Char) : QuotedText → Prop where
  | plain (h : Quoting.ArePlain (String.utf8EncodeChar c)) :
      Writes c (.plain (String.utf8EncodeChar c) h)
  | short {letter b : UInt8} (h : plainEscape? letter = some b)
      (hc : String.utf8EncodeChar c = [b]) : Writes c [.short letter b h]
  | unit {w x y z : UInt8} {n : Nat} (h : hexNumber? w x y z = some n) (hc : c.toNat = n) :
      Writes c [.unit w x y z n h]
  /-- The two halves of a surrogate pair, for a character beyond the range of one code unit. -/
  | pair {w x y z w' x' y' z' : UInt8} {n m : Nat} (h : hexNumber? w x y z = some n)
      (h' : hexNumber? w' x' y' z' = some m) (hn : isLeading n = true) (hm : isTrailing m = true)
      (hc : c.toNat = 0x10000 + (n - 0xD800) * 0x400 + (m - 0xDC00)) :
      Writes c [.unit w x y z n h, .unit w' x' y' z' m h']

namespace QuotedText

/-- The first piece is the second half of a surrogate pair. -/
def StartsTrailing : QuotedText → Prop
  | .unit _ _ _ _ n _ :: _ => isTrailing n = true
  | _ => False

theorem not_isTrailing_of_isLeading {n : Nat} (h : isLeading n = true) :
    ¬ isTrailing n = true := by
  simp only [isLeading, isTrailing, Bool.and_eq_true, decide_eq_true_eq] at h ⊢
  omega

/-- The first half of a surrogate pair stands for nothing without the second one. -/
theorem unescaped?_leading {w x y z : UInt8} {n : Nat} (h : hexNumber? w x y z = some n)
    (hn : isLeading n = true) {t : QuotedText} (ht : ¬ t.StartsTrailing) :
    unescaped? (.unit w x y z n h :: t) = none := by
  rw [unescaped?.eq_def]
  simp only [if_neg (not_isTrailing_of_isLeading hn), if_pos hn]
  match t with
  | [] | .plain .. :: _ | .short .. :: _ => rfl
  | .unit _ _ _ _ m _ :: _ => exact if_neg ht

/-- The two parts of a quoted string stand for what they stand for alone, unless the second one
continues a surrogate pair. -/
theorem unescaped?_append (t : QuotedText) {u : QuotedText} (hu : ¬ u.StartsTrailing) :
    unescaped? (t ++ u) = t.unescaped?.bind fun bs => u.unescaped?.map (bs ++ ·) := by
  -- the bytes of the first piece go in front of what the other pieces stand for
  have hgo (bs : List UInt8) {t : QuotedText}
      (ih : unescaped? (t ++ u) = t.unescaped?.bind fun bs => u.unescaped?.map (bs ++ ·)) :
      (unescaped? (t ++ u)).map (bs ++ ·) =
        (t.unescaped?.map (bs ++ ·)).bind fun bs => u.unescaped?.map (bs ++ ·) := by
    rw [ih]
    cases t.unescaped? with
    | none => rfl
    | some bs' => simp only [Option.bind_some, Option.map_some, Option.map_map, Function.comp_def,
        List.append_assoc]
  fun_induction unescaped? t with
  | case1 =>
    simp only [List.nil_append, Option.bind_some, Option.map_id']
  | case2 b hb t ih =>
    rw [List.cons_append, unescaped?]
    exact hgo [b] ih
  | case3 letter b hb t ih =>
    rw [List.cons_append, unescaped?]
    exact hgo [b] ih
  | case4 w x y z n hn t htrailing =>
    -- a second half that stands alone makes the whole string stand for nothing
    rw [List.cons_append, unescaped?.eq_def]
    exact if_pos htrailing
  | case5 w x y z n hn htrailing hleading w' x' y' z' m hm t hsecond ih =>
    rw [List.cons_append, List.cons_append, unescaped?.eq_def]
    simp only [if_neg htrailing, if_pos hleading, if_pos hsecond]
    exact hgo (pairBytes n m) ih
  | case6 w x y z n hn htrailing hleading w' x' y' z' m hm t hsecond =>
    exact unescaped?_leading hn hleading hsecond
  | case7 w x y z n hn t htrailing hleading hunit =>
    refine unescaped?_leading hn hleading ?_
    cases t with
    -- only here do the two parts meet: the second one must not bring the missing half
    | nil => exact hu
    | cons item t =>
      cases item with
      | plain | short => exact id
      | unit a b c d m hm => exact (hunit a b c d m hm t rfl).elim
  | case8 w x y z n hn t htrailing hleading ih =>
    rw [List.cons_append, unescaped?.eq_def]
    simp only [if_neg htrailing, if_neg hleading]
    exact hgo (codePointBytes n) ih

variable {c : Char} {u u' : QuotedText}

/-- No character is half of a surrogate pair. -/
theorem isTrailing_toNat (c : Char) : isTrailing c.toNat = false ∧ isLeading c.toNat = false := by
  have hvalid : c.toNat < 0xD800 ∨ (0xDFFF < c.toNat ∧ c.toNat < 0x110000) := c.valid
  simp only [isTrailing, isLeading, Bool.and_eq_false_iff, decide_eq_false_iff_not]
  omega

/-- However a character is written, it stands for its bytes. -/
theorem unescaped?_writes (h : Writes c u) (t : QuotedText) :
    unescaped? (u ++ t) = t.unescaped?.map (String.utf8EncodeChar c ++ ·) := by
  cases h with
  | plain hplain => exact unescaped?_plain_append hplain t
  | short hletter hc =>
    rw [List.singleton_append, unescaped?, hc]
    rfl
  | unit hn hc =>
    subst hc
    obtain ⟨htrailing, hleading⟩ := isTrailing_toNat c
    rw [List.singleton_append, unescaped?.eq_def]
    simp only [htrailing, hleading, Bool.false_eq_true, if_false, codePointBytes,
      Char.ofNat_toNat]
  | pair hn hm hleading htrailing hc =>
    rw [List.cons_append, List.singleton_append, unescaped?.eq_def]
    simp only [if_neg (not_isTrailing_of_isLeading hleading), if_pos hleading, if_pos htrailing,
      pairBytes, ← hc, codePointBytes, Char.ofNat_toNat]

theorem not_startsTrailing_of_writes (h : Writes c u) (t : QuotedText) :
    ¬ (u ++ t).StartsTrailing := by
  cases h with
  | plain hplain =>
    -- a character has one byte at least, so the first piece is a plain one
    have hne : String.utf8EncodeChar c ≠ [] := by
      rw [← List.length_pos_iff, String.length_utf8EncodeChar]
      exact c.utf8Size_pos
    obtain ⟨b, bs, hbs⟩ := List.exists_cons_of_ne_nil hne
    revert hplain
    rw [hbs]
    exact fun _ => id
  | short _ _ => exact id
  | unit hn hc =>
    subst hc
    exact Bool.eq_false_iff.mp (isTrailing_toNat c).1
  | pair hn hm hleading _ _ => exact not_isTrailing_of_isLeading hleading

/-- It makes no difference to a text how one of its characters is written. -/
theorem text?_respell (h : Writes c u) (h' : Writes c u') (before after : QuotedText) :
    text? (before ++ (u ++ after)) = text? (before ++ (u' ++ after)) := by
  rw [text?, text?, unescaped?_append before (not_startsTrailing_of_writes h after),
    unescaped?_append before (not_startsTrailing_of_writes h' after), unescaped?_writes h,
    unescaped?_writes h']

end QuotedText

end SchemaSpans
