import SchemaSpans.Proofs.Json.Bytes

/-! How deeply a text nests: the greatest number of brackets and braces that are open at
once, not counting those between quotes. This is a property of the bytes alone. For a
written value it is the depth of the value, also when the value holds fractional numbers. -/

namespace SchemaSpans

namespace Text

/-- Where a byte stands: among the punctuation, between quotes, or behind a backslash there. -/
inductive Standing where
  | outside
  | quoted
  | escaped
deriving DecidableEq

/-- The nesting of bytes in front of which `n` brackets or braces are open. -/
def nestingFrom : Standing → Nat → Input → Nat
  | _, n, [] => n
  | .outside, n, b :: rest =>
    if b = Ascii.quote then nestingFrom .quoted n rest
    else if b = Ascii.openBracket ∨ b = Ascii.openBrace then nestingFrom .outside (n + 1) rest
    else if b = Ascii.closeBracket ∨ b = Ascii.closeBrace then
      max n (nestingFrom .outside (n - 1) rest)
    else nestingFrom .outside n rest
  | .quoted, n, b :: rest =>
    if b = Ascii.backslash then nestingFrom .escaped n rest
    else if b = Ascii.quote then nestingFrom .outside n rest
    else nestingFrom .quoted n rest
  | .escaped, n, _ :: rest => nestingFrom .quoted n rest

/-- The greatest number of brackets and braces that are open at once outside of strings. -/
def nesting (text : String) : Nat :=
  nestingFrom .outside 0 (bytes text)

/-- The brackets that are open in front of a text count. -/
theorem le_nestingFrom (s : Standing) (n : Nat) (bs : Input) : n ≤ nestingFrom s n bs := by
  fun_induction nestingFrom s n bs with
  | case1 => exact Nat.le_refl _
  | case2 n rest ih => exact ih
  | case3 n b rest _ _ ih => exact Nat.le_trans (Nat.le_succ n) ih
  | case4 n b rest _ _ _ ih => exact Nat.le_max_left ..
  | case5 n b rest _ _ _ ih => exact ih
  | case6 n rest ih => exact ih
  | case7 n rest _ ih => exact ih
  | case8 n b rest _ _ ih => exact ih
  | case9 n b rest ih => exact ih

/-- Every bracket is a byte. -/
theorem nestingFrom_le (s : Standing) (n : Nat) (bs : Input) :
    nestingFrom s n bs ≤ n + bs.length := by
  fun_induction nestingFrom s n bs <;> simp only [List.length_nil, List.length_cons] <;> omega

/-- A byte that neither opens nor closes anything outside of strings. -/
def IsNeutral (b : UInt8) : Prop :=
  b ≠ Ascii.quote ∧ b ≠ Ascii.openBracket ∧ b ≠ Ascii.openBrace ∧
    b ≠ Ascii.closeBracket ∧ b ≠ Ascii.closeBrace

instance (b : UInt8) : Decidable (IsNeutral b) :=
  inferInstanceAs (Decidable (_ ∧ _))

theorem nestingFrom_neutral {b : UInt8} (hb : IsNeutral b) (n : Nat) (rest : Input) :
    nestingFrom .outside n (b :: rest) = nestingFrom .outside n rest := by
  obtain ⟨hquote, hbracket, hbrace, hbracket', hbrace'⟩ := hb
  rw [nestingFrom, if_neg hquote, if_neg (not_or.mpr ⟨hbracket, hbrace⟩),
    if_neg (not_or.mpr ⟨hbracket', hbrace'⟩)]

theorem nestingFrom_neutrals {bs : Input} (hbs : ∀ b ∈ bs, IsNeutral b) (n : Nat) (rest : Input) :
    nestingFrom .outside n (bs ++ rest) = nestingFrom .outside n rest := by
  induction bs with
  | nil => rfl
  | cons b bs ih =>
    rw [List.cons_append, nestingFrom_neutral (hbs b List.mem_cons_self),
      ih fun c hc => hbs c (List.mem_cons_of_mem b hc)]

theorem nestingFrom_plains {bs : Input} (hbs : ∀ b ∈ bs, Quoting.IsPlain b) (n : Nat)
    (rest : Input) : nestingFrom .quoted n (bs ++ rest) = nestingFrom .quoted n rest := by
  induction bs with
  | nil => rfl
  | cons b bs ih =>
    obtain ⟨hquote, hbackslash, -⟩ := hbs b List.mem_cons_self
    rw [List.cons_append, nestingFrom, if_neg hbackslash, if_neg hquote,
      ih fun c hc => hbs c (List.mem_cons_of_mem b hc)]

/-- Nothing between quotes counts. -/
theorem nestingFrom_escaped (cs : List Char) (n : Nat) (rest : Input) :
    nestingFrom .quoted n (encode (cs.flatMap Json.escaped) ++ rest) =
      nestingFrom .quoted n rest := by
  induction cs with
  | nil => rfl
  | cons c cs ih =>
    rw [List.flatMap_cons, encode_append, List.append_assoc]
    rcases Quoting.encode_escaped c with hplain | ⟨b, bs, htext, hplain⟩
    · rw [nestingFrom_plains hplain, ih]
    · rw [htext, List.cons_append, List.cons_append, nestingFrom, if_pos rfl, nestingFrom,
        nestingFrom_plains hplain, ih]

theorem nestingFrom_quotedBytes (s : String) (n : Nat) (rest : Input) :
    nestingFrom .outside n (Json.quotedBytes s ++ rest) = nestingFrom .outside n rest := by
  rw [Json.quotedBytes_eq, List.cons_append, List.append_assoc, nestingFrom, if_pos rfl,
    nestingFrom_escaped, List.singleton_append, nestingFrom, if_neg (by decide), if_pos rfl]

end Text

namespace Number

/-- The characters that numbers are written with. -/
def IsNumeric (c : Char) : Prop :=
  c.isDigit = true ∨ c = '-' ∨ c = '+' ∨ c = '.' ∨ c = 'e'

theorem isNumeric_of_mem_toDigits {n : Nat} {c : Char} (h : c ∈ Nat.toDigits 10 n) :
    IsNumeric c :=
  Or.inl (Nat.isDigit_of_mem_toDigits (by decide) (by decide) h)

theorem isNumeric_of_mem_writtenInt {n : Int} {c : Char} (h : c ∈ writtenInt n) : IsNumeric c := by
  rw [writtenInt] at h
  split at h
  · rcases List.mem_cons.mp h with rfl | h
    · exact Or.inr (Or.inl rfl)
    · exact isNumeric_of_mem_toDigits h
  · exact isNumeric_of_mem_toDigits h

theorem isNumeric_of_mem_shortest {x : Double} {c : Char} (h : c ∈ x.shortest.digits) :
    IsNumeric c := by
  have hmem := List.mem_reverse.mp h
  exact isNumeric_of_mem_toDigits
    (List.mem_reverse.mp ((List.dropWhile_sublist _).mem hmem))

theorem isNumeric_of_mem_padded {digits : List Char} (hdigits : ∀ c ∈ digits, IsNumeric c) {n : Nat}
    {c : Char} (h : c ∈ Double.padded digits n) : IsNumeric c := by
  rcases List.mem_append.mp h with h | h
  · exact hdigits c h
  · exact Or.inl (List.eq_of_mem_replicate h ▸ rfl)

theorem isNumeric_of_mem_decimal {d : Double.Decimal} (hdigits : ∀ c ∈ d.digits, IsNumeric c)
    {c : Char} (h : c ∈ d.written) : IsNumeric c := by
  rw [Double.Decimal.written] at h
  split at h
  · simp only [List.mem_append, List.mem_cons, Double.afterPoint] at h
    rcases h with h | rfl | h
    · exact isNumeric_of_mem_padded hdigits (List.mem_of_mem_take h)
    · exact Or.inr (Or.inr (Or.inr (Or.inl rfl)))
    · split at h
      · exact Or.inl (List.mem_singleton.mp h ▸ rfl)
      · exact hdigits c (List.mem_of_mem_drop h)
  · split at h
    · simp only [List.cons_append, List.mem_append, List.mem_cons] at h
      rcases h with rfl | rfl | h | h
      · exact Or.inl rfl
      · exact Or.inr (Or.inr (Or.inr (Or.inl rfl)))
      · exact Or.inl (List.eq_of_mem_replicate h ▸ rfl)
      · exact hdigits c h
    · simp only [List.mem_append, List.mem_cons] at h
      rcases h with (h | h) | rfl | rfl | h
      · exact hdigits c (List.mem_of_mem_take h)
      · split at h
        · exact (List.not_mem_nil h).elim
        · rcases List.mem_cons.mp h with rfl | h
          · exact Or.inr (Or.inr (Or.inr (Or.inl rfl)))
          · exact hdigits c (List.mem_of_mem_drop h)
      · exact Or.inr (Or.inr (Or.inr (Or.inr rfl)))
      · split
        · exact Or.inr (Or.inr (Or.inl rfl))
        · exact Or.inr (Or.inl rfl)
      · exact isNumeric_of_mem_toDigits h

theorem isNumeric_of_mem_written {n : Number} {c : Char} (h : c ∈ n.written) : IsNumeric c := by
  cases n with
  | whole n => exact isNumeric_of_mem_writtenInt h
  | fractional x =>
    rw [written, Double.written, List.mem_append] at h
    rcases h with h | h
    · split at h
      · exact Or.inr (Or.inl (List.mem_singleton.mp h))
      · exact (List.not_mem_nil h).elim
    · split at h
      · simp only [List.mem_cons, List.not_mem_nil, or_false] at h
        rcases h with rfl | rfl | rfl
        · exact Or.inl rfl
        · exact Or.inr (Or.inr (Or.inr (Or.inl rfl)))
        · exact Or.inl rfl
      · exact isNumeric_of_mem_decimal (fun _ => isNumeric_of_mem_shortest) h

end Number

namespace Json

open Text

/-- No number opens or closes anything. -/
theorem isNeutral_of_mem_encode {cs : List Char} (hcs : ∀ c ∈ cs, Number.IsNumeric c) {b : UInt8}
    (hb : b ∈ encode cs) : IsNeutral b := by
  have hdigits : ∀ n < 58, 48 ≤ n → IsNeutral (UInt8.ofNat n) := by decide
  obtain ⟨c, hc, hb⟩ := List.mem_flatMap.mp hb
  rcases hcs c hc with hdigit | rfl | rfl | rfl | rfl
  · have hc : 48 ≤ c.toNat ∧ c.toNat ≤ 57 := Char.isDigit_iff_toNat.mp hdigit
    rw [utf8EncodeChar_of_ascii (by omega), List.mem_singleton] at hb
    exact hb ▸ hdigits c.toNat (by omega) hc.1
  all_goals
    rw [utf8EncodeChar_of_ascii (by decide), List.mem_singleton] at hb
    exact hb ▸ by decide

theorem nestingFrom_flat {bs : Input} (hbs : ∀ b ∈ bs, IsNeutral b) (n : Nat) (rest : Input) :
    nestingFrom .outside n (bs ++ rest) = max (n + 0) (nestingFrom .outside n rest) := by
  rw [nestingFrom_neutrals hbs, Nat.add_zero, Nat.max_eq_right (le_nestingFrom _ n rest)]

theorem nestingFrom_word {bs : Input} (hbs : bs.all (fun b => decide (IsNeutral b)) = true)
    (n : Nat) (rest : Input) :
    nestingFrom .outside n (bs ++ rest) = max (n + 0) (nestingFrom .outside n rest) :=
  nestingFrom_flat (fun b hb => of_decide_eq_true (List.all_eq_true.mp hbs b hb)) n rest

theorem nestingFrom_comma (n : Nat) (rest : Input) :
    nestingFrom .outside n (Ascii.comma :: rest) = nestingFrom .outside n rest :=
  nestingFrom_neutral (by decide) n rest

theorem nestingFrom_memberBytes (m : String × Json) (n : Nat) (rest : Input) :
    nestingFrom .outside n (memberBytes m ++ rest) =
      nestingFrom .outside n (m.2.bytes ++ rest) := by
  rw [memberBytes, List.append_assoc, nestingFrom_quotedBytes, List.cons_append,
    nestingFrom_neutral (by decide)]

/-- Brackets or braces around parts of which the deepest has depth `d`. -/
theorem nestingFrom_enclosed {opening closing : UInt8} {body : Input} {d : Nat}
    (hopening : opening = Ascii.openBracket ∨ opening = Ascii.openBrace)
    (hclosing : closing = Ascii.closeBracket ∨ closing = Ascii.closeBrace)
    (hbody : ∀ n rest, nestingFrom .outside n (body ++ rest) =
      max (n + d) (nestingFrom .outside n rest)) (n : Nat) (rest : Input) :
    nestingFrom .outside n (opening :: (body ++ [closing]) ++ rest) =
      max (n + (d + 1)) (nestingFrom .outside n rest) := by
  have hquote : opening ≠ Ascii.quote ∧ closing ≠ Ascii.quote := by
    rcases hopening with rfl | rfl <;> rcases hclosing with rfl | rfl <;> decide
  have hclose : ¬ (closing = Ascii.openBracket ∨ closing = Ascii.openBrace) := by
    rcases hclosing with rfl | rfl <;> decide
  rw [List.cons_append, nestingFrom, if_neg hquote.1, if_pos hopening, List.append_assoc, hbody,
    List.singleton_append, nestingFrom, if_neg hquote.2, if_neg hclose, if_pos hclosing,
    Nat.add_sub_cancel]
  -- the closing bracket leads back to `n` open ones, which what follows takes into account
  have := le_nestingFrom .outside n rest
  omega

mutual

/-- Behind a value as many brackets are open as in front of it; inside it, as many more as
the value is deep. -/
theorem nestingFrom_bytes : ∀ (v : Json) (n : Nat) (rest : Input),
    nestingFrom .outside n (v.bytes ++ rest) =
      max (n + v.depth) (nestingFrom .outside n rest)
  | null, n, rest => nestingFrom_word rfl n rest
  | bool true, n, rest => nestingFrom_word rfl n rest
  | bool false, n, rest => nestingFrom_word rfl n rest
  | number x, n, rest =>
    nestingFrom_flat (fun _ => isNeutral_of_mem_encode fun _ => Number.isNumeric_of_mem_written) n
      rest
  | string s, n, rest => by
    -- brackets between quotes are part of the string and do not count
    have hdepth : (string s).depth = 0 := rfl
    rw [bytes, written, ← quotedBytes, nestingFrom_quotedBytes, hdepth, Nat.add_zero,
      Nat.max_eq_right (le_nestingFrom _ n rest)]
  | list items, n, rest => by
    rw [bytes_list, depth]
    exact nestingFrom_enclosed (Or.inl rfl) (Or.inl rfl) (nestingFrom_items items) n rest
  | object members, n, rest => by
    rw [bytes_object, depth]
    exact nestingFrom_enclosed (Or.inr rfl) (Or.inr rfl) (nestingFrom_members members) n rest

theorem nestingFrom_items : ∀ (items : List Json) (n : Nat) (rest : Input),
    nestingFrom .outside n (separated (items.map bytes) ++ rest) =
      max (n + depthOfItems items) (nestingFrom .outside n rest)
  | [], n, rest => (Nat.max_eq_right (le_nestingFrom _ n rest)).symm
  | v :: items, n, rest => by
    rw [List.map_cons, separated, List.append_assoc, nestingFrom_bytes v, depthOfItems,
      List.flatMap_map]
    rw [nestingFrom_moreItems items]
    omega

theorem nestingFrom_moreItems : ∀ (items : List Json) (n : Nat) (rest : Input),
    nestingFrom .outside n (items.flatMap (fun v => Ascii.comma :: v.bytes) ++ rest) =
      max (n + depthOfItems items) (nestingFrom .outside n rest)
  | [], n, rest => (Nat.max_eq_right (le_nestingFrom _ n rest)).symm
  | v :: items, n, rest => by
    rw [List.flatMap_cons, List.append_assoc, List.cons_append, nestingFrom_comma,
      nestingFrom_bytes v, nestingFrom_moreItems items, depthOfItems]
    omega

theorem nestingFrom_members : ∀ (members : List (String × Json)) (n : Nat) (rest : Input),
    nestingFrom .outside n (separated (members.map memberBytes) ++ rest) =
      max (n + depthOfMembers members) (nestingFrom .outside n rest)
  | [], n, rest => (Nat.max_eq_right (le_nestingFrom _ n rest)).symm
  | (k, v) :: members, n, rest => by
    rw [List.map_cons, separated, List.append_assoc, nestingFrom_memberBytes, nestingFrom_bytes v,
      depthOfMembers, List.flatMap_map, nestingFrom_moreMembers members]
    omega

theorem nestingFrom_moreMembers : ∀ (members : List (String × Json)) (n : Nat) (rest : Input),
    nestingFrom .outside n (members.flatMap (fun m => Ascii.comma :: memberBytes m) ++ rest) =
      max (n + depthOfMembers members) (nestingFrom .outside n rest)
  | [], n, rest => (Nat.max_eq_right (le_nestingFrom _ n rest)).symm
  | (k, v) :: members, n, rest => by
    rw [List.flatMap_cons, List.append_assoc, List.cons_append, nestingFrom_comma,
      nestingFrom_memberBytes, nestingFrom_bytes v, nestingFrom_moreMembers members, depthOfMembers]
    omega

end

/-- A written value nests exactly as deeply as the value. -/
theorem nesting_render (v : Json) : nesting v.render = v.depth := by
  have h := nestingFrom_bytes v 0 []
  rw [List.append_nil, nestingFrom, Nat.zero_add, Nat.max_zero] at h
  rw [nesting, bytes_render, h]

end Json

end SchemaSpans
