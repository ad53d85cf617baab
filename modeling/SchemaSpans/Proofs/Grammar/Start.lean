import SchemaSpans.Proofs.Grammar.Sequence

/-! How the reading of a tree begins. Every reader of values looks at the first byte and goes on
by the kind of value that it announces, so what a reader makes of a tree is settled kind by
kind; and a reader that takes nothing but trees is one that does so for every first byte. -/

namespace SchemaSpans

open Reader

variable {α : Type}

/-- The first byte of a value, where its kind leaves no choice. -/
def Start.byte? : Start → Option UInt8
  | .null => some Ascii.lowerN
  | .true => some Ascii.lowerT
  | .false => some Ascii.lowerF
  | .string => some Ascii.quote
  | .list => some Ascii.openBracket
  | .object => some Ascii.openBrace
  | .number | .other => none

theorem Start.eq_of_byte? {b c : UInt8} (h : (Start.ofByte b).byte? = some c) : b = c := by
  unfold Start.ofByte at h
  split at h
  case h_8 =>
    split at h <;> cases h
  all_goals
    cases h <;> rfl

namespace Bracket

theorem opensWith_closeBracket {b : Bracket} (hb : b.close = Ascii.closeBracket) (t : JsonTree) :
    b.OpensWith t.tokens := by
  obtain ⟨c, token, more, htokens, hstart⟩ := t.exists_tokens_eq_cons
  have hother : Start.ofByte c ≠ .other := hstart ▸ t.start_ne_other
  refine ⟨c, token, more, htokens, Start.isBlank_eq_false hother, ?_⟩
  rintro rfl
  rw [hb] at hother
  exact hother rfl

theorem opensWith_closeBrace {b : Bracket} (hb : b.close = Ascii.closeBrace)
    (m : QuotedText × JsonTree) : b.OpensWith (JsonTree.tokensOfMember m) := by
  refine ⟨Ascii.quote, QuotedText.body m.1 ++ [Ascii.quote], _, rfl, by decide, ?_⟩
  rw [hb]
  decide

end Bracket

namespace JsonTree

theorem tokens_ne_nil (t : JsonTree) : t.tokens ≠ [] := by
  obtain ⟨c, token, more, htokens, -⟩ := t.exists_tokens_eq_cons
  rw [htokens]
  exact List.cons_ne_nil _ _

theorem tokensOfMember_ne_nil (m : QuotedText × JsonTree) : tokensOfMember m ≠ [] :=
  List.cons_ne_nil _ _

/-- What follows a tree does not continue it, which only a number could be. -/
def EndsBefore : JsonTree → Input → Prop
  | number n, rest => n.EndsBefore rest
  | _, _ => True

theorem endsBefore_of_ends (t : JsonTree) {rest : Input} (h : Ends rest) : t.EndsBefore rest := by
  match t with
  | number n => exact n.endsBefore_of_ends h
  | null | bool _ | string _ | list _ | object _ => trivial

end JsonTree

namespace Reader

theorem accept?_letters_eq_some_iff {word input rest : Input} :
    (letters word).accept? input = some ((), rest) ↔ input = word ++ rest := by
  induction word generalizing input with
  | nil =>
    rw [letters, accept?_pure, Option.some.injEq, Prod.mk.injEq]
    exact and_iff_right rfl
  | cons letter word ih =>
    rw [letters]
    cases input with
    | nil =>
      constructor <;>
      · intro h
        cases h
    | cons b input =>
      simp only [accept?_bind, accept?_next_cons, Option.bind_some]
      by_cases hb : b = letter
      · subst hb
        rw [if_pos rfl, ih, List.cons_append, List.cons.injEq]
        exact (and_iff_right rfl).symm
      · rw [if_neg hb]
        constructor <;> intro h
        · cases h
        · exact absurd (List.cons.inj h).1 hb

theorem accept?_letters (word rest : Input) :
    (letters word).accept? (word ++ rest) = some ((), rest) :=
  accept?_letters_eq_some_iff.mpr rfl

/-- A tree is read as its kind says, from its first byte on. -/
theorem accept?_start_append {f : Option Start → Reader α} {t : JsonTree} {result : Option α}
    {w rest : Input} (hw : Spaced t.tokens w)
    (h : ∀ c token more v, t.tokens = (c :: token) :: more → Spaced more v →
      (f (some t.start)).accept? (c :: (token ++ (v ++ rest))) =
        result.map fun value => (value, rest)) :
    (start >>= f).accept? (w ++ rest) = result.map fun value => (value, rest) := by
  obtain ⟨c, token, more, htokens, hstart⟩ := t.exists_tokens_eq_cons
  have hblank : Ascii.isBlank c = false := Start.isBlank_eq_false (hstart ▸ t.start_ne_other)
  rw [htokens] at hw
  obtain ⟨v, hv, hdrop⟩ := hw.dropWhile_append hblank rest
  rw [accept?_bind, accept?_start, hdrop, List.head?_cons, Option.map_some, hstart,
    Option.bind_some]
  exact h c token more v htokens hv

/-- The reader accepts the tree with this value, or stops at it if there is none, whatever
follows that does not continue the tree. -/
def EvaluatesTree (r : Reader α) (t : JsonTree) (result : Option α) : Prop :=
  ∀ w rest, Spaced t.tokens w → t.EndsBefore rest →
    r.accept? (w ++ rest) = result.map fun value => (value, rest)

theorem EvaluatesTree.evaluates {r : Reader α} {t : JsonTree} {result : Option α}
    (h : r.EvaluatesTree t result) : r.Evaluates t.tokens result :=
  fun w rest hw hrest => h w rest hw (t.endsBefore_of_ends hrest)

theorem evaluates_start {f : Option Start → Reader α} {t : JsonTree} {result : Option α}
    (h : ∀ c token more v rest, t.tokens = (c :: token) :: more → Spaced more v →
      t.EndsBefore rest → (f (some t.start)).accept? (c :: (token ++ (v ++ rest))) =
        result.map fun value => (value, rest)) : (start >>= f).EvaluatesTree t result :=
  fun _ rest hw hrest => accept?_start_append hw fun c token more v htokens hv =>
    h c token more v rest htokens hv hrest

/-- The same where it does not matter what follows the tree. -/
theorem delimits_start {f : Option Start → Reader α} {t : JsonTree} {result : Option α}
    (h : ∀ c token more v rest, t.tokens = (c :: token) :: more → Spaced more v →
      (f (some t.start)).accept? (c :: (token ++ (v ++ rest))) =
        result.map fun value => (value, rest)) : (start >>= f).Delimits t.tokens result :=
  fun _ rest hw => accept?_start_append hw fun c token more v htokens hv =>
    h c token more v rest htokens hv

/-- A tree that is one token is read from its first byte to its last. -/
theorem cons_append_eq_of_tokens {t : JsonTree} {whole token v rest : Input} {more : List Input}
    {c : UInt8} (ht : t.tokens = [whole]) (htokens : t.tokens = (c :: token) :: more)
    (hv : Spaced more v) : c :: (token ++ (v ++ rest)) = whole ++ rest := by
  rw [ht] at htokens
  obtain ⟨rfl, rfl⟩ := List.cons.inj htokens
  cases hv
  rfl

theorem accept?_next_string {body : Reader α} {s : QuotedText} {result : Option α}
    (hbody : ∀ rest, body.accept? (s.body ++ Ascii.quote :: rest) =
      result.map fun value => (value, rest)) (rest : Input) :
    (next >>= fun _ => body).accept? (s.bytes ++ rest) =
      result.map fun value => (value, rest) := by
  rw [QuotedText.bytes, List.cons_append, List.append_assoc, accept?_bind, accept?_next_cons]
  exact hbody rest

/-- The tokens of a tree. -/
def IsTree (row : List Input) : Prop :=
  ∃ t : JsonTree, row = t.tokens

/-- The tokens of a member with a tree as its value. -/
def IsMember (row : List Input) : Prop :=
  ∃ m : QuotedText × JsonTree, row = JsonTree.tokensOfMember m

theorem takes_keyed {κ : Type} {keyReader : Reader κ} {next : κ → Reader α}
    (hkey : keyReader.Takes fun row => ∃ k : QuotedText, row = [k.bytes])
    (hnext : ∀ k, (next k).Takes fun row => ∃ more, IsTree more ∧ row = [Ascii.colon] :: more) :
    (keyReader >>= next).Takes IsMember := by
  apply (hkey.bind hnext).mono
  rintro row ⟨_, _, ⟨k, rfl⟩, ⟨_, ⟨t, rfl⟩, rfl⟩, rfl⟩
  exact ⟨(k, t), rfl⟩

/-- What is taken from here on begins with this tree. -/
def BeginsWithTree (input rest : Input) : Prop :=
  ∃ (t : JsonTree) (w : Input), input = w ++ rest ∧ Spaced t.tokens w

theorem beginsWithTree_of_token {t : JsonTree} {token input rest : Input} (ht : t.tokens = [token])
    (h : input = token ++ rest) : BeginsWithTree input rest :=
  ⟨t, token, h, ht ▸ .singleton token⟩

/-- A reader of quoted strings begins with a tree behind the opening quote. -/
theorem beginsWithTree_string {body : Reader α} {c : UInt8} {input rest : Input} {a : α}
    (hstart : Start.ofByte c = .string)
    (hbody : ∀ input rest a, body.accept? input = some (a, rest) →
      ∃ s : QuotedText, input = s.body ++ Ascii.quote :: rest)
    (h : (next >>= fun _ => body).accept? (c :: input) = some (a, rest)) :
    BeginsWithTree (c :: input) rest := by
  obtain rfl : c = Ascii.quote := Start.eq_of_byte? (by rw [hstart]; rfl)
  rw [accept?_bind, accept?_next_cons, Option.bind_some] at h
  obtain ⟨s, rfl⟩ := hbody input rest a h
  apply beginsWithTree_of_token (t := .string s) rfl
  rw [QuotedText.bytes, List.cons_append, List.append_assoc]
  rfl

/-- Items with commas between them make up a list. -/
def IsListRest (row : List Input) : Prop :=
  ∃ items : List JsonTree, row = listed (items.map JsonTree.tokens) ++ [[Ascii.closeBracket]]

/-- Members with commas between them make up an object. -/
def IsObjectRest (row : List Input) : Prop :=
  ∃ members : List (QuotedText × JsonTree),
    row = listed (members.map JsonTree.tokensOfMember) ++ [[Ascii.closeBrace]]

variable {ν : Type} {inside : Option ν} {body : ν → Reader α} {c : UInt8} {input rest : Input}
  {a : α}

/-- What stands inside brackets may be items of a list. -/
theorem beginsWithTree_list (hstart : Start.ofByte c = .list)
    (hbody : ∀ inner, inside = some inner → (body inner).Takes IsListRest)
    (h : (descend inside body).accept? (c :: input) = some (a, rest)) :
    BeginsWithTree (c :: input) rest := by
  obtain rfl : c = Ascii.openBracket := Start.eq_of_byte? (by rw [hstart]; rfl)
  rw [accept?_descend] at h
  obtain ⟨inner, hsome, h⟩ := Option.bind_eq_some_iff.mp h
  obtain ⟨row, w, ⟨items, rfl⟩, rfl, hw⟩ := hbody inner hsome input a rest h
  refine ⟨.list items, [Ascii.openBracket] ++ w, rfl, ?_⟩
  rw [JsonTree.tokens_list, enclosed]
  exact hw.cons_self

/-- What stands inside braces may be members of an object. -/
theorem beginsWithTree_object (hstart : Start.ofByte c = .object)
    (hbody : ∀ inner, inside = some inner → (body inner).Takes IsObjectRest)
    (h : (descend inside body).accept? (c :: input) = some (a, rest)) :
    BeginsWithTree (c :: input) rest := by
  obtain rfl : c = Ascii.openBrace := Start.eq_of_byte? (by rw [hstart]; rfl)
  rw [accept?_descend] at h
  obtain ⟨inner, hsome, h⟩ := Option.bind_eq_some_iff.mp h
  obtain ⟨row, w, ⟨members, rfl⟩, rfl, hw⟩ := hbody inner hsome input a rest h
  refine ⟨.object members, [Ascii.openBrace] ++ w, rfl, ?_⟩
  rw [JsonTree.tokens_object, enclosed]
  exact hw.cons_self

/-- There is no tree in an empty text. -/
theorem Takes.accept?_nil {r : Reader α} (h : r.Takes IsTree) : r.accept? [] = none := by
  rw [Option.eq_none_iff_forall_ne_some]
  rintro ⟨a, rest⟩ haccept
  obtain ⟨_, w, ⟨t, rfl⟩, hnil, hw⟩ := h [] a rest haccept
  obtain ⟨c, token, more, htokens, -⟩ := t.exists_tokens_eq_cons
  have hw_nil : w = [] := (List.nil_eq_append_iff.mp hnil).1
  rw [htokens, hw_nil] at hw
  generalize hv : ([] : Input) = v at hw
  cases hw with
  | cons => simp at hv

/-- A reader that goes on with nothing but trees behind every first byte takes trees. -/
theorem takes_start {f : Option Start → Reader α} (hnone : (f none).accept? [] = none)
    (h : ∀ c input a rest, (f (some (Start.ofByte c))).accept? (c :: input) = some (a, rest) →
      BeginsWithTree (c :: input) rest) :
    (start >>= f).Takes IsTree := by
  intro input a rest haccept
  rw [accept?_bind, accept?_start, Option.bind_some] at haccept
  cases hdrop : input.dropWhile Ascii.isBlank with
  | nil =>
    rw [hdrop, List.head?_nil, Option.map_none, hnone] at haccept
    cases haccept
  | cons c input' =>
    rw [hdrop, List.head?_cons, Option.map_some] at haccept
    obtain ⟨t, w, hw, hspaced⟩ := h c input' a rest haccept
    -- the blanks that were dropped belong in front of the first token of the tree
    obtain ⟨d, token, more, htokens, -⟩ := t.exists_tokens_eq_cons
    rw [htokens] at hspaced
    obtain ⟨v, hinput, hv⟩ := hspaced.of_dropWhile (hdrop.trans hw)
    exact ⟨t.tokens, v, ⟨t, rfl⟩, hinput, htokens ▸ hv⟩

end Reader

end SchemaSpans
