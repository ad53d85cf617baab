import SchemaSpans.Proofs.Grammar.Number
import SchemaSpans.Proofs.Grammar.Quoted
import SchemaSpans.Proofs.Json.Nesting
import SchemaSpans.Proofs.Reader.Kept

/-! Well-formed JSON texts as trees. A tree keeps every token as it is written, so that two
spellings of one value are two trees; what a tree leaves open are the blanks between its tokens.
A text is a layout of a tree if it consists of the tree's tokens with blanks around them. -/

namespace SchemaSpans

/-- A value of the JSON grammar, as it is written. -/
inductive JsonTree where
  | null
  | bool (value : Bool)
  | number (text : NumberText)
  | string (text : QuotedText)
  | list (items : List JsonTree)
  | object (members : List (QuotedText × JsonTree))

/-- Parts with commas between them. -/
def listed : List (List Input) → List Input
  | [] => []
  | part :: parts => part ++ parts.flatMap ([Ascii.comma] :: ·)

/-- Tokens between an opening and a closing bracket. -/
def enclosed (opening closing : UInt8) (inside : List Input) : List Input :=
  [opening] :: (inside ++ [[closing]])

namespace JsonTree

/-- How a tree begins. -/
def start : JsonTree → Start
  | null => .null
  | bool true => .true
  | bool false => .false
  | number _ => .number
  | string _ => .string
  | list _ => .list
  | object _ => .object

mutual

/-- The tokens of a tree in their order. -/
def tokens : JsonTree → List Input
  | null => [[Ascii.lowerN, Ascii.lowerU, Ascii.lowerL, Ascii.lowerL]]
  | bool true => [[Ascii.lowerT, Ascii.lowerR, Ascii.lowerU, Ascii.lowerE]]
  | bool false => [[Ascii.lowerF, Ascii.lowerA, Ascii.lowerL, Ascii.lowerS, Ascii.lowerE]]
  | number n => [n.bytes]
  | string s => [s.bytes]
  | list items => enclosed Ascii.openBracket Ascii.closeBracket (listed (itemTokens items))
  | object members => enclosed Ascii.openBrace Ascii.closeBrace (listed (memberTokens members))

/-- The tokens of each item of a list. -/
def itemTokens : List JsonTree → List (List Input)
  | [] => []
  | t :: rest => tokens t :: itemTokens rest

/-- The tokens of each member of an object. -/
def memberTokens : List (QuotedText × JsonTree) → List (List Input)
  | [] => []
  | (k, t) :: rest => (k.bytes :: [Ascii.colon] :: tokens t) :: memberTokens rest

end

mutual

/-- How many brackets and braces are open at once at the innermost place of a tree. -/
def depth : JsonTree → Nat
  | list items => depthOfItems items + 1
  | object members => depthOfMembers members + 1
  | _ => 0

def depthOfItems : List JsonTree → Nat
  | [] => 0
  | t :: rest => max (depth t) (depthOfItems rest)

def depthOfMembers : List (QuotedText × JsonTree) → Nat
  | [] => 0
  | (_, t) :: rest => max (depth t) (depthOfMembers rest)

end

/-- The tokens of one member. -/
def tokensOfMember (m : QuotedText × JsonTree) : List Input :=
  m.1.bytes :: [Ascii.colon] :: m.2.tokens

theorem itemTokens_eq_map (items : List JsonTree) : itemTokens items = items.map tokens := by
  induction items with
  | nil => rfl
  | cons t rest ih => rw [itemTokens, ih, List.map_cons]

theorem memberTokens_eq_map (members : List (QuotedText × JsonTree)) :
    memberTokens members = members.map tokensOfMember := by
  induction members with
  | nil => rfl
  | cons m rest ih =>
    rw [memberTokens, ih, List.map_cons]
    rfl

theorem tokens_list (items : List JsonTree) : (list items).tokens =
    enclosed Ascii.openBracket Ascii.closeBracket (listed (items.map tokens)) := by
  rw [tokens, itemTokens_eq_map]

theorem tokens_object (members : List (QuotedText × JsonTree)) : (object members).tokens =
    enclosed Ascii.openBrace Ascii.closeBrace (listed (members.map tokensOfMember)) := by
  rw [tokens, memberTokens_eq_map]

theorem depth_list_le_iff {items : List JsonTree} {n : Nat} :
    (list items).depth ≤ n + 1 ↔ ∀ t ∈ items, t.depth ≤ n := by
  have hitems : depthOfItems items ≤ n ↔ ∀ t ∈ items, t.depth ≤ n := by
    induction items with
    | nil => simp [depthOfItems]
    | cons t rest ih => rw [depthOfItems, Nat.max_le, ih, List.forall_mem_cons]
  rw [depth, Nat.add_le_add_iff_right, hitems]

theorem depth_object_le_iff {members : List (QuotedText × JsonTree)} {n : Nat} :
    (object members).depth ≤ n + 1 ↔ ∀ m ∈ members, m.2.depth ≤ n := by
  have hmembers : depthOfMembers members ≤ n ↔ ∀ m ∈ members, m.2.depth ≤ n := by
    induction members with
    | nil => simp [depthOfMembers]
    | cons m rest ih => rw [depthOfMembers, Nat.max_le, ih, List.forall_mem_cons]
  rw [depth, Nat.add_le_add_iff_right, hmembers]

theorem start_ne_other (t : JsonTree) : t.start ≠ .other := by
  fun_cases start t <;> decide

/-- The first byte of a number is a sign or a digit. -/
theorem exists_numberBytes_eq_cons (n : NumberText) :
    ∃ c rest, n.bytes = c :: rest ∧ Start.ofByte c = .number := by
  have hdigit : ∀ d < 10, Start.ofByte (Ascii.digitByte d) = .number := by decide
  rw [NumberText.bytes]
  cases n.negative with
  | true => exact ⟨_, _, rfl, rfl⟩
  | false => exact ⟨_, _, rfl, hdigit n.whole.first n.whole.first.isLt⟩

/-- The first byte of a tree tells how it begins. -/
theorem exists_tokens_eq_cons (t : JsonTree) :
    ∃ c token more, t.tokens = (c :: token) :: more ∧ Start.ofByte c = t.start := by
  match t with
  | null | bool true | bool false | string _ | list _ | object _ => exact ⟨_, _, _, rfl, rfl⟩
  | number n =>
    obtain ⟨c, rest, hbytes, hstart⟩ := exists_numberBytes_eq_cons n
    exact ⟨c, rest, [], by rw [tokens, hbytes], hstart⟩

/-- The text consists of the tokens of the tree, with any blanks around them. -/
def IsLayout (t : JsonTree) (text : String) : Prop :=
  ∃ w blanks, Text.bytes text = w ++ blanks ∧ Spaced t.tokens w ∧
    ∀ b ∈ blanks, Ascii.isBlank b = true

theorem isLayout_of_spaced {t : JsonTree} {text : String}
    (h : Spaced t.tokens (Text.bytes text)) : t.IsLayout text :=
  ⟨Text.bytes text, [], (List.append_nil _).symm, h, fun _ hb => (List.not_mem_nil hb).elim⟩

/-- A text may have no blanks at all. -/
theorem isLayout_of_flatten {t : JsonTree} {text : String}
    (h : Text.bytes text = t.tokens.flatten) : t.IsLayout text :=
  isLayout_of_spaced (h ▸ .flatten t.tokens)

end JsonTree

namespace Text

/-- Between brackets that are open anyway, these tokens open at most `d` at once. -/
def Nests (d : Nat) (tokens : List Input) : Prop :=
  ∀ w n rest, Spaced tokens w →
    nestingFrom .outside n (w ++ rest) = max (n + d) (nestingFrom .outside n rest)

theorem isNeutral_of_isBlank {b : UInt8} (h : Ascii.isBlank b = true) : IsNeutral b := by
  simp only [Ascii.isBlank, Bool.or_eq_true, decide_eq_true_eq] at h
  rcases h with ((rfl | rfl) | rfl) | rfl <;> decide

theorem nestingFrom_blanks {blanks : Input} (h : ∀ b ∈ blanks, Ascii.isBlank b = true) (n : Nat)
    (rest : Input) : nestingFrom .outside n (blanks ++ rest) = nestingFrom .outside n rest :=
  nestingFrom_neutrals (fun b hb => isNeutral_of_isBlank (h b hb)) n rest

theorem nests_nil : Nests 0 [] := by
  rintro w n rest ⟨⟩
  exact (Nat.max_eq_right (le_nestingFrom _ n rest)).symm

theorem Nests.append {d e : Nat} {tokens more : List Input} (h : Nests d tokens)
    (hmore : Nests e more) : Nests (max d e) (tokens ++ more) := by
  intro w n rest hw
  obtain ⟨u, v, rfl, hu, hv⟩ := hw.exists_append
  rw [List.append_assoc, h u n (v ++ rest) hu, hmore v n rest hv]
  omega

/-- A token that leads back to where it began opens nothing. -/
theorem nests_token {token : Input}
    (h : ∀ n rest, nestingFrom .outside n (token ++ rest) = nestingFrom .outside n rest) :
    Nests 0 [token] := by
  intro w n rest hw
  cases hw with
  | cons hblanks hnil =>
    cases hnil
    rw [List.append_nil, List.append_assoc, nestingFrom_blanks hblanks, h, Nat.add_zero,
      Nat.max_eq_right (le_nestingFrom _ n rest)]

theorem nests_neutrals {token : Input} (h : ∀ b ∈ token, IsNeutral b) : Nests 0 [token] :=
  nests_token fun n rest => nestingFrom_neutrals h n rest

theorem nests_word {token : Input} (h : token.all (fun b => decide (IsNeutral b)) = true) :
    Nests 0 [token] :=
  nests_neutrals fun b hb => of_decide_eq_true (List.all_eq_true.mp h b hb)

/-- Nothing between quotes counts. -/
theorem nestingFrom_body (t : QuotedText) (n : Nat) (rest : Input) :
    nestingFrom .quoted n (t.body ++ rest) = nestingFrom .quoted n rest := by
  induction t with
  | nil => rfl
  | cons item t ih =>
    rw [QuotedText.body_cons, List.append_assoc]
    match item with
    -- no piece ends with an escape that is still open, nor has a quote that ends the string
    | .plain b hb =>
      rw [QuotedItem.bytes, List.singleton_append, nestingFrom, if_neg hb.2.1, if_neg hb.1, ih]
    | .short letter b hb =>
      rw [QuotedItem.bytes, List.cons_append, List.singleton_append, nestingFrom, if_pos rfl,
        nestingFrom, ih]
    | .unit a b c d m hm =>
      have hdigits := nestingFrom_plains (Quoting.isPlain_of_hexNumber? hm) n
        (QuotedText.body t ++ rest)
      rw [QuotedItem.bytes, List.cons_append, nestingFrom, if_pos rfl, List.cons_append,
        nestingFrom, hdigits, ih]

theorem nests_quoted (t : QuotedText) : Nests 0 [t.bytes] := by
  apply nests_token
  intro n rest
  rw [QuotedText.bytes, List.cons_append, List.append_assoc, nestingFrom, if_pos rfl,
    nestingFrom_body, List.singleton_append, nestingFrom, if_neg (by decide), if_pos rfl]

/-- Brackets around tokens open one more than these. -/
theorem Nests.enclosed {opening closing : UInt8} {d : Nat} {inside : List Input}
    (hopening : opening = Ascii.openBracket ∨ opening = Ascii.openBrace)
    (hclosing : closing = Ascii.closeBracket ∨ closing = Ascii.closeBrace)
    (h : Nests d inside) : Nests (d + 1) (enclosed opening closing inside) := by
  intro w n rest hw
  have hquote : opening ≠ Ascii.quote ∧ closing ≠ Ascii.quote := by
    rcases hopening with rfl | rfl <;> rcases hclosing with rfl | rfl <;> decide
  have hclose : ¬ (closing = Ascii.openBracket ∨ closing = Ascii.openBrace) := by
    rcases hclosing with rfl | rfl <;> decide
  cases hw with
  | cons hblanks hinside =>
    obtain ⟨u, v, rfl, hu, hv⟩ := hinside.exists_append
    cases hv with
    | cons hblanks' hnil =>
      cases hnil
      simp only [List.append_assoc]
      rw [nestingFrom_blanks hblanks, List.cons_append, nestingFrom, if_neg hquote.1,
        if_pos hopening, List.nil_append, h u _ _ hu, nestingFrom_blanks hblanks',
        List.cons_append, nestingFrom, if_neg hquote.2, if_neg hclose, if_pos hclosing,
        Nat.add_sub_cancel]
      simp only [List.nil_append]
      -- the closing bracket leads back to `n` open ones, which what follows takes into account
      have := le_nestingFrom .outside n rest
      omega

theorem nests_comma : Nests 0 [[Ascii.comma]] :=
  nests_word rfl

theorem isNeutral_of_mem_digits {d : DigitRun} {b : UInt8} (h : b ∈ d.bytes) : IsNeutral b := by
  have hdigit : ∀ e < 10, IsNeutral (Ascii.digitByte e) := by decide
  obtain ⟨e, he, rfl⟩ := List.mem_map.mp h
  exact hdigit e (DigitRun.lt_ten_of_mem_map he)

/-- No number opens or closes anything. -/
theorem isNeutral_of_mem_numberBytes {n : NumberText} {b : UInt8} (h : b ∈ n.bytes) :
    IsNeutral b := by
  obtain ⟨negative, whole, _, fraction, exponent⟩ := n
  simp only [NumberText.bytes, List.mem_append] at h
  rcases h with h | h | h | h
  · cases negative with
    | true =>
      rw [List.mem_singleton.mp h]
      decide
    | false => exact (List.not_mem_nil h).elim
  · exact isNeutral_of_mem_digits h
  · cases fraction with
    | none => exact (List.not_mem_nil h).elim
    | some d =>
      rcases List.mem_cons.mp h with rfl | h
      · decide
      · exact isNeutral_of_mem_digits h
  · cases exponent with
    | none => exact (List.not_mem_nil h).elim
    | some e =>
      have hletter : ∀ upper, IsNeutral (ExponentText.letter upper) := by decide
      obtain ⟨upper, sign, digits⟩ := e
      rcases List.mem_cons.mp h with rfl | h
      · exact hletter upper
      · rcases List.mem_append.mp h with h | h
        · rcases sign with _ | _ | _
          · exact (List.not_mem_nil h).elim
          · rw [List.mem_singleton.mp h]
            decide
          · rw [List.mem_singleton.mp h]
            decide
        · exact isNeutral_of_mem_digits h

end Text

namespace JsonTree

open Text

theorem nests_member {d : Nat} {tokens : List Input} (k : QuotedText) (h : Nests d tokens) :
    Nests d (k.bytes :: [Ascii.colon] :: tokens) := by
  have hcolon : Nests 0 [[Ascii.colon]] := nests_word rfl
  have hall := (nests_quoted k).append (hcolon.append h)
  rwa [Nat.zero_max, Nat.zero_max] at hall

mutual

/-- A tree opens as many brackets at once as it is deep, however it is laid out. -/
theorem nests_tokens : ∀ t : JsonTree, Nests t.depth t.tokens
  | null => nests_word rfl
  | bool true => nests_word rfl
  | bool false => nests_word rfl
  | number n => nests_neutrals fun b => isNeutral_of_mem_numberBytes
  | string s => nests_quoted s
  | list items => by
    have hitems : Nests (depthOfItems items) (listed (itemTokens items)) := by
      cases items with
      | nil => exact nests_nil
      | cons t rest => exact (nests_tokens t).append (nests_moreItems rest)
    exact hitems.enclosed (Or.inl rfl) (Or.inl rfl)
  | object members => by
    have hmembers : Nests (depthOfMembers members) (listed (memberTokens members)) := by
      cases members with
      | nil => exact nests_nil
      | cons m rest => exact (nests_member m.1 (nests_tokens m.2)).append (nests_moreMembers rest)
    exact hmembers.enclosed (Or.inr rfl) (Or.inr rfl)

theorem nests_moreItems : ∀ items : List JsonTree,
    Nests (depthOfItems items) ((itemTokens items).flatMap ([Ascii.comma] :: ·))
  | [] => nests_nil
  | t :: rest => by
    have hall := nests_comma.append ((nests_tokens t).append (nests_moreItems rest))
    rwa [Nat.zero_max] at hall

theorem nests_moreMembers : ∀ members : List (QuotedText × JsonTree),
    Nests (depthOfMembers members) ((memberTokens members).flatMap ([Ascii.comma] :: ·))
  | [] => nests_nil
  | (k, t) :: rest => by
    have hall := nests_comma.append
      ((nests_member k (nests_tokens t)).append (nests_moreMembers rest))
    rwa [Nat.zero_max] at hall

end

/-- A layout nests exactly as deeply as its tree. -/
theorem IsLayout.nesting_eq {t : JsonTree} {text : String} (h : t.IsLayout text) :
    nesting text = t.depth := by
  obtain ⟨w, blanks, htext, hw, hblanks⟩ := h
  have hend : nestingFrom .outside 0 blanks = 0 := by
    have hend := nestingFrom_blanks hblanks 0 []
    rwa [List.append_nil] at hend
  rw [nesting, htext, nests_tokens t w 0 blanks hw, hend, Nat.zero_add, Nat.max_zero]

end JsonTree

end SchemaSpans
