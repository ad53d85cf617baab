import SchemaSpans.Proofs.Grammar.Kept
import SchemaSpans.Proofs.Grammar.Skip
import SchemaSpans.Schema.Text

/-! What a record is read as, worked out on its tree: member by member for an object, element by
element for a list. Nothing of a text but its tree counts, and of a member that is passed over not
even that. -/

namespace SchemaSpans

open Reader

/-- What trees between brackets stand for. -/
structure Sense where
  json : JsonTree → Option Json
  value : (v : ValueType) → JsonTree → Option v.Value

/-- The 32-bit integer that a literal stands for, if it stands for one. -/
def NumberText.int32? (n : NumberText) : Option Int32 :=
  n.number?.bind fun x => (toInt32 x).toOption

namespace JsonTree

/-- What a tree gives a field as. Only an absent value may be `null`. -/
def fieldValue? (value : (v : ValueType) → JsonTree → Option v.Value) :
    (type : FieldType) → JsonTree → Option type.Value
  | .optional _, null => some none
  | .optional v, x => (value v x).map some
  | .repeated v, x => value (.list v) x

variable {t : RecordType}

/-- The draft with one more member, unless the member cannot be read or names a field that has
been given. -/
def member? (sense : Sense) (d : Draft t) (m : QuotedText × JsonTree) : Option (Draft t) :=
  m.1.text?.bind fun k =>
    match t.field? k with
    | some f =>
      if (d.given f).isSome then none
      else (fieldValue? sense.value (t.spec f).type m.2).map fun value => d.give f value
    | none => if t.isOpen then (sense.json m.2).map fun value => d.keep k value else some d

/-- The draft with the given fields from the elements of a list, which must not be more. -/
def elements? (sense : Sense) : List t.Field → Draft t → List JsonTree → Option (Draft t)
  | _, d, [] => some d
  | [], _, _ :: _ => none
  | f :: fields, d, x :: items =>
    (fieldValue? sense.value (t.spec f).type x).bind fun value =>
      elements? sense fields (d.give f value) items

/-- The record that a tree stands for; `inside` evaluates what stands between its brackets, if it
may have any. -/
def record? (inside : Option Sense) (t : RecordType) : JsonTree → Option t.Value
  | object members =>
    inside.bind fun sense => (members.foldlM (member? sense) (Draft.empty t)).map Draft.finish
  | list items =>
    if t.isOpen then none
    else inside.bind fun sense =>
      (elements? sense t.fields (Draft.empty t) items).map Draft.finish
  | _ => none

def list? (inside : Option Sense) (v : ValueType) : JsonTree → Option (List v.Value)
  | list items => inside.bind fun sense => items.mapM (sense.value v)
  | _ => none

def string? : JsonTree → Option String
  | string s => s.text?
  | _ => none

def int32? : JsonTree → Option Int32
  | number n => n.int32?
  | _ => none

/-- The value of a type that a tree stands for. -/
def valueWith? (inside : Option Sense) : (v : ValueType) → JsonTree → Option v.Value
  | .string => string?
  | .int32 => int32?
  | .record t => record? inside t
  | .list v => list? inside v

/-- The value of a type that a tree stands for with at most so many brackets open at once. -/
def value? : Nat → (v : ValueType) → JsonTree → Option v.Value
  | 0, v => valueWith? none v
  | allowance + 1, v =>
    valueWith? (some { json := kept? allowance, value := fun v => value? allowance v }) v

end JsonTree

namespace Reader

variable {α : Type} {t : RecordType}

/-- What is read inside brackets is what the trees there stand for. -/
structure Inside.Interprets (inside : Inside) (sense : Sense) : Prop where
  json : inside.json.Interprets sense.json
  value : ∀ v, (inside.value v).Interprets (sense.value v)

theorem interprets_string : string.Interprets JsonTree.string? := by
  intro x
  apply evaluates_start
  intro c token more v rest htokens hv hrest
  match x with
  | .string s =>
    rw [cons_append_eq_of_tokens rfl htokens hv]
    exact accept?_next_string (accept?_quotedText s) rest
  | .null | .bool true | .bool false | .number _ | .list _ | .object _ =>
    exact accept?_mismatch ..

theorem interprets_int32 : int32.Interprets JsonTree.int32? := by
  intro x
  apply evaluates_start
  intro c token more v rest htokens hv hrest
  match x with
  | .number n =>
    rw [cons_append_eq_of_tokens rfl htokens hv]
    simp only [JsonTree.start, accept?_bind, accept?_number n hrest, JsonTree.int32?,
      NumberText.int32?]
    cases n.number? with
    | none => rfl
    | some x => cases hx : toInt32 x <;> simp only [Option.map_some, Option.bind_some, hx] <;> rfl
  | .null | .bool true | .bool false | .string _ | .list _ | .object _ =>
    exact accept?_mismatch ..

theorem interprets_fieldValue {value : (v : ValueType) → Reader v.Value}
    {sense : (v : ValueType) → JsonTree → Option v.Value}
    (h : ∀ v, (value v).Interprets (sense v)) (type : FieldType) :
    (fieldValue value type).Interprets (JsonTree.fieldValue? sense type) := by
  cases type with
  | repeated v => exact h (.list v)
  | optional v =>
    intro x
    apply evaluates_start
    intro c token more w rest htokens hw hrest
    have hx : Spaced x.tokens (c :: token ++ w) := htokens ▸ hw.cons_self
    have hvalue := accept?_map (h v x (c :: token ++ w) rest hx hrest) some
    rw [List.append_assoc] at hvalue
    match x with
    -- every other first byte leaves the value to its own reader, which `hvalue` is about
    | .null =>
      rw [cons_append_eq_of_tokens rfl htokens hw]
      exact accept?_bind_eq_some_iff.mpr ⟨(), rest, accept?_letters _ rest, rfl⟩
    | .bool true | .bool false | .number _ | .string _ | .list _ | .object _ => exact hvalue

theorem accept?_duplicate (name : String) (input : Input) :
    (duplicate name : Reader α).accept? input = none := by
  simp only [duplicate, accept?_bind, accept?_fail, Option.bind_fun_none]

variable {inside : Inside} {sense : Sense}

theorem evaluates_member (h : inside.Interprets sense) (m : QuotedText × JsonTree) (d : Draft t) :
    (member inside d).Evaluates (JsonTree.tokensOfMember m) (JsonTree.member? sense d m) := by
  apply (delimits_key m.1).bind
  intro k _
  cases hk : t.field? k with
  | some f =>
    dsimp only
    split
    -- a field that has been given is refused in front of the colon
    · exact fun w rest _ _ => accept?_duplicate _ _
    · exact evaluates_behindColon ((interprets_fieldValue h.value _ m.2).evaluates.map _)
  | none =>
    apply evaluates_behindColon
    dsimp only
    split
    · exact (h.json m.2).evaluates.map _
    · exact (evaluates_skip m.2).evaluates.map fun _ => d

theorem accept?_elements_close (inside : Inside) (isFirst : Bool) (f : t.Field)
    (fields : List t.Field) (d : Draft t) {input rest : Input}
    (h : input.dropWhile Ascii.isBlank = Ascii.closeBracket :: rest) :
    (elements inside isFirst (f :: fields) d).accept? input = some (d, rest) := by
  simp only [elements, accept?_bind, accept?_token, h, List.head?_cons, Option.bind_some, if_true,
    accept?_next_cons, accept?_pure]

theorem accept?_elements_open (inside : Inside) (isFirst : Bool) (f : t.Field)
    (fields : List t.Field) (d : Draft t) {input rest : Input} {c : UInt8}
    (hc : c ≠ Ascii.closeBracket) (h : input.dropWhile Ascii.isBlank = c :: rest) :
    (elements inside isFirst (f :: fields) d).accept? input =
      ((separator isFirst >>= fun _ => fieldValue inside.value (t.spec f).type).accept?
        (c :: rest)).bind fun p => (elements inside false fields (d.give f p.1)).accept? p.2 := by
  simp only [elements, accept?_bind, accept?_token, h, List.head?_cons, Option.bind_some, if_neg hc]
  cases (separator isFirst).accept? (c :: rest) <;> rfl

theorem accept?_separator_comma (r : Reader α) (input : Input) :
    (separator false >>= fun _ => r).accept? (Ascii.comma :: input) =
      (Bracket.list.afterComma >>= fun _ => r).accept? input := by
  simp only [separator, Bool.false_eq_true, if_false, accept?_bind, accept?_skipIf_self,
    Option.bind_some, if_true]
  rfl

/-- Behind a comma there is no end of a list that has all its fields. -/
theorem accept?_fullListEnd_comma {input rest : Input}
    (h : input.dropWhile Ascii.isBlank = Ascii.comma :: rest) :
    fullListEnd.accept? input = none := by
  have hcomma : ¬ Ascii.comma = Ascii.closeBracket := by decide
  simp only [fullListEnd, accept?_bind, accept?_token, h, List.head?_cons, Option.bind_some,
    if_neg hcomma, if_true, accept?_next_cons]
  split <;> exact accept?_reject _ _

theorem accept?_fullListEnd_close {input rest : Input}
    (h : input.dropWhile Ascii.isBlank = Ascii.closeBracket :: rest) :
    fullListEnd.accept? input = some ((), rest) := by
  simp only [fullListEnd, accept?_bind, accept?_token, h, List.head?_cons, Option.bind_some,
    if_true, accept?_next_cons, accept?_pure]

open SchemaSpans.Bracket in
/-- Behind an element the elements that are left give the fields that are left. -/
theorem delimits_elements_false (h : inside.Interprets sense) (fields : List t.Field) (d : Draft t)
    (items : List JsonTree) :
    (elements inside false fields d).Delimits
      (Bracket.list.tokensBehind (items.map JsonTree.tokens))
      (JsonTree.elements? sense fields d items) := by
  have hlist : Bracket.list.IsGrammatical := isRegular_list.isGrammatical
  -- on the fields that are left; where they end, a further element is refused at its comma
  induction fields generalizing d items with
  | nil =>
    intro w rest hw
    cases items with
    | nil =>
      obtain ⟨v, hv, hdrop⟩ := hw.dropWhile_append (by decide) rest
      cases hv
      rw [elements, accept?_bind, accept?_fullListEnd_close hdrop]
      rfl
    | cons x items =>
      obtain ⟨v, hv, hdrop⟩ := hw.dropWhile_append (by decide) rest
      rw [elements, accept?_bind, accept?_fullListEnd_comma hdrop]
      rfl
  | cons f fields ih =>
    intro w rest hw
    cases items with
    | nil =>
      obtain ⟨v, hv, hdrop⟩ := hw.dropWhile_append (by decide) rest
      cases hv
      exact accept?_elements_close inside false f fields d hdrop
    | cons x items =>
      rw [List.map_cons, tokensBehind_cons] at hw
      obtain ⟨v, hv, hdrop⟩ := hw.dropWhile_append (by decide) rest
      obtain ⟨u, v, rfl, hu, hv⟩ := hv.exists_append
      have hx := evaluates_afterComma hlist (opensWith_closeBracket rfl x)
        (interprets_fieldValue h.value (t.spec f).type x).evaluates u (v ++ rest) hu
        (ends_tokensBehind hlist hv rest)
      rw [List.nil_append, List.append_assoc] at hdrop
      rw [accept?_elements_open inside false f fields d (by decide) hdrop,
        accept?_separator_comma, hx, JsonTree.elements?]
      cases JsonTree.fieldValue? sense.value (t.spec f).type x with
      | none => rfl
      | some value => exact ih (d.give f value) items v rest hv

open SchemaSpans.Bracket in
/-- The elements of a list give the fields of a record in their order. -/
theorem delimits_elements (h : inside.Interprets sense) (fields : List t.Field) (hne : fields ≠ [])
    (d : Draft t) (items : List JsonTree) :
    (elements inside true fields d).Delimits
      (listed (items.map JsonTree.tokens) ++ [[Ascii.closeBracket]])
      (JsonTree.elements? sense fields d items) := by
  have hlist : Bracket.list.IsGrammatical := isRegular_list.isGrammatical
  -- the first element stands behind no comma, so it cannot be one of the loop above
  obtain ⟨f, fields, rfl⟩ := List.exists_cons_of_ne_nil hne
  intro w rest hw
  cases items with
  | nil =>
    obtain ⟨v, hv, hdrop⟩ := hw.dropWhile_append (by decide) rest
    cases hv
    exact accept?_elements_close inside true f fields d hdrop
  | cons x items =>
    have hw' : Spaced (x.tokens ++ Bracket.list.tokensBehind (items.map JsonTree.tokens)) w := by
      rw [← listed_cons_append]
      exact hw
    obtain ⟨u, v, rfl, hu, hv⟩ := hw'.exists_append
    obtain ⟨c, token, more, htokens, hblank, hclose⟩ :=
      opensWith_closeBracket (b := Bracket.list) rfl x
    rw [htokens] at hu
    obtain ⟨u', hu', hdrop⟩ := hu.dropWhile_append hblank (v ++ rest)
    have hu'' : Spaced x.tokens (c :: token ++ u') := htokens ▸ hu'.cons_self
    have hx := interprets_fieldValue h.value (t.spec f).type x _ (v ++ rest) hu''
      (x.endsBefore_of_ends (ends_tokensBehind hlist hv rest))
    rw [List.append_assoc, List.cons_append] at hx
    have hfirst : (separator true >>= fun _ => fieldValue inside.value (t.spec f).type).accept?
        (c :: (token ++ (u' ++ (v ++ rest)))) =
      (JsonTree.fieldValue? sense.value (t.spec f).type x).map fun a => (a, v ++ rest) := hx
    rw [List.append_assoc, accept?_elements_open inside true f fields d hclose hdrop, hfirst,
      JsonTree.elements?]
    cases JsonTree.fieldValue? sense.value (t.spec f).type x with
    | none => rfl
    | some value => exact delimits_elements_false h fields (d.give f value) items v rest hv

theorem fields_ne_nil (t : RecordType) : t.fields ≠ [] := by
  cases t <;> exact List.cons_ne_nil _ _

/-- A record ends with its bracket, whatever follows it. -/
theorem delimits_record {inside : Option Inside} {sense : Option Sense}
    (h : Option.Rel Inside.Interprets inside sense) (t : RecordType) (x : JsonTree) :
    (record inside t).Delimits x.tokens (JsonTree.record? sense t x) := by
  apply delimits_start
  intro c token more v rest htokens hv
  match x with
  | .object members =>
    rw [JsonTree.tokens_object, enclosed] at htokens
    cases htokens
    cases h with
    | none => rfl
    | @some inner sense h =>
      have hread := Bracket.delimits_read Bracket.isRegular_object.isGrammatical
        (fun m _ => ⟨Bracket.opensWith_closeBrace rfl m, evaluates_member h m⟩) (Draft.empty t)
        v rest hv
      exact accept?_map hread Draft.finish
  | .list items =>
    rw [JsonTree.tokens_list, enclosed] at htokens
    cases htokens
    simp only [JsonTree.start, JsonTree.record?]
    split
    · exact accept?_mismatch ..
    · cases h with
      | none => rfl
      | @some inner sense h =>
        have hread := delimits_elements h t.fields (fields_ne_nil t) (Draft.empty t) items v rest hv
        exact accept?_map hread Draft.finish
  | .null | .bool true | .bool false | .number _ | .string _ => exact accept?_mismatch ..

theorem interprets_record {inside : Option Inside} {sense : Option Sense}
    (h : Option.Rel Inside.Interprets inside sense) (t : RecordType) :
    (record inside t).Interprets (JsonTree.record? sense t) :=
  fun x w rest hw _ => delimits_record h t x w rest hw

theorem interprets_list {inside : Option Inside} {sense : Option Sense}
    (h : Option.Rel Inside.Interprets inside sense) (v : ValueType) :
    (list inside v).Interprets (JsonTree.list? sense v) := by
  intro x
  apply evaluates_start
  intro c token more w rest htokens hw hrest
  match x with
  | .list items =>
    rw [JsonTree.tokens_list, enclosed] at htokens
    cases htokens
    cases h with
    | none => rfl
    | some h => exact delimits_items (h.value v) items w rest hw
  | .null | .bool true | .bool false | .number _ | .string _ | .object _ =>
    exact accept?_mismatch ..

theorem interprets_valueWith {inside : Option Inside} {sense : Option Sense}
    (h : Option.Rel Inside.Interprets inside sense) (v : ValueType) :
    (valueWith inside v).Interprets (JsonTree.valueWith? sense v) := by
  cases v with
  | string => exact interprets_string
  | int32 => exact interprets_int32
  | record t => exact interprets_record h t
  | list v => exact interprets_list h v

/-- Every value is read as what its tree stands for. -/
theorem interprets_value (n : Nat) (v : ValueType) :
    (value n v).Interprets (JsonTree.value? n v) := by
  -- on the allowance; the trees between brackets are evaluated with one less
  induction n generalizing v with
  | zero => exact interprets_valueWith .none v
  | succ n ih => exact interprets_valueWith (.some ⟨interprets_kept n, ih⟩) v

theorem delimits_value_record (n : Nat) (t : RecordType) (x : JsonTree) :
    (value n (.record t)).Delimits x.tokens (x.value? n (.record t)) := by
  cases n with
  | zero => exact delimits_record .none t x
  | succ n => exact delimits_record (.some ⟨interprets_kept n, interprets_value n⟩) t x

theorem accept?_textEnd {blanks : Input} (h : ∀ b ∈ blanks, Ascii.isBlank b = true) :
    textEnd.accept? blanks = some ((), []) := by
  have hdrop : blanks.dropWhile Ascii.isBlank = [] := List.dropWhile_eq_nil_iff.mpr h
  simp only [textEnd, accept?_bind, accept?_token, hdrop, List.head?_nil, Option.bind_some,
    accept?_pure]

theorem forall_isBlank_of_accept?_textEnd {input rest : Input}
    (h : textEnd.accept? input = some ((), rest)) : ∀ b ∈ input, Ascii.isBlank b = true := by
  rw [textEnd, accept?_bind, accept?_token, Option.bind_some] at h
  cases hdrop : input.dropWhile Ascii.isBlank with
  | nil => exact List.dropWhile_eq_nil_iff.mp hdrop
  | cons c rest' =>
    rw [hdrop, List.head?_cons, accept?_reject] at h
    cases h

end Reader

namespace RecordType

variable {t : RecordType} {text : String}

theorem read_eq_ok_iff_accept? {r : t.Value} :
    t.read text = .ok r ↔ ∃ rest, (whole t).accept? (Text.bytes text) = some (r, rest) := by
  simp only [read, readBytes, accept?_eq_some_iff]
  cases (whole t).run (Text.bytes text) with
  | done r' rest => simp
  | stopped cause rest => simp

/-- A text is read as a record or refused. -/
theorem exists_fault_of_forall_ne (h : ∀ r, t.read text ≠ .ok r) :
    ∃ fault, t.read text = .error fault := by
  cases hread : t.read text with
  | ok r => exact absurd hread (h r)
  | error fault => exact ⟨fault, rfl⟩

theorem read_of_run {r : t.Value}
    (h : (whole t).run (Text.bytes text) = .done r []) : t.read text = .ok r := by
  rw [read, readBytes, h]

/-- A text is read as a record exactly if its tree stands for this record. -/
theorem read_eq_ok_iff {x : JsonTree} (h : x.IsLayout text) {r : t.Value} :
    t.read text = .ok r ↔ x.value? maxDepth (.record t) = some r := by
  obtain ⟨w, blanks, htext, hw, hblanks⟩ := h
  have hends : Ends blanks := by
    have hends := ends_blanks hblanks ends_nil
    rwa [List.append_nil] at hends
  have hvalue := interprets_value maxDepth (.record t) x w blanks hw (x.endsBefore_of_ends hends)
  have hwhole : (whole t).accept? (Text.bytes text) =
      (x.value? maxDepth (.record t)).map fun r => (r, []) := by
    rw [whole, accept?_bind, htext, hvalue]
    cases x.value? maxDepth (.record t) with
    | none => rfl
    | some r =>
      simp only [Option.map_some, Option.bind_some, accept?_bind, accept?_textEnd hblanks,
        accept?_pure]
  rw [read_eq_ok_iff_accept?, hwhole]
  simp

end RecordType

end SchemaSpans
