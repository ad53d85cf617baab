import SchemaSpans.Proofs.Schema.Place

/-! Records in list form. A list gives the first fields of a record in their order, so it is read as
the object that has these fields as its members would be. A list with more elements than there are
fields is refused, and file options have no list form at all. -/

namespace SchemaSpans

open JsonTree

namespace JsonTree

variable {t : RecordType} {sense : Sense}

/-- The elements of a list do to a draft what members do that name the fields in their order. -/
theorem elements?_eq_foldlM {fields : List t.Field} (hnodup : fields.Nodup) {d : Draft t}
    (hnew : ∀ f ∈ fields, d.given f = none) {ms : List (QuotedText × JsonTree)}
    (hnames : List.Forall₂ (fun f m => (t.spec f).isNamedBy m = true) (fields.take ms.length) ms) :
    elements? sense fields d (ms.map Prod.snd) = ms.foldlM (member? sense) d := by
  induction ms generalizing fields d with
  | nil => cases fields <;> rfl
  | cons m ms ih =>
    cases fields with
    | nil => cases hnames
    | cons f fields =>
      obtain ⟨hfresh, hnodup⟩ := List.nodup_cons.mp hnodup
      rw [List.length_cons, List.take_succ_cons] at hnames
      obtain ⟨hm, hnames⟩ := List.forall₂_cons.mp hnames
      -- the field is new to the draft, so its member is not refused as a second one
      have hmember : member? sense d m =
          (fieldValue? sense.value (t.spec f).type m.2).map fun value => d.give f value := by
        rw [member?_of_isNamedBy hm, hnew f List.mem_cons_self]
        rfl
      have hrest (value : t.FieldValue f) : ∀ g ∈ fields, (d.give f value).given g = none := by
        intro g hg
        have hne : f ≠ g := fun heq => hfresh (heq ▸ hg)
        rw [Draft.given_give_of_ne d hne]
        exact hnew g (List.mem_cons_of_mem f hg)
      rw [List.map_cons, elements?, List.foldlM_cons, hmember]
      cases fieldValue? sense.value (t.spec f).type m.2 with
      | none => rfl
      | some value => exact ih hnodup (hrest value) hnames

/-- Elements for which there are no fields left are refused. -/
theorem elements?_of_length_lt {fields : List t.Field} {items : List JsonTree}
    (h : fields.length < items.length) (d : Draft t) : elements? sense fields d items = none := by
  induction items generalizing fields d with
  | nil => cases h
  | cons x items ih =>
    cases fields with
    | nil => rfl
    | cons f fields =>
      have hshorter : fields.length < items.length := Nat.lt_of_succ_lt_succ h
      rw [elements?]
      cases fieldValue? sense.value (t.spec f).type x with
      | none => rfl
      | some value => exact ih hshorter (d.give f value)

variable {ms : List (QuotedText × JsonTree)} {items : List JsonTree}

/-- A record in list form stands for the same as the object with its fields in their order. -/
theorem value?_list_eq_value?_object (hclosed : t.isOpen = false)
    (hnames : List.Forall₂ (fun f m => (t.spec f).isNamedBy m = true) (t.fields.take ms.length) ms)
    (n : Nat) :
    value? n (.record t) (list (ms.map Prod.snd)) = value? n (.record t) (object ms) := by
  cases n with
  | zero =>
    have hlist : value? 0 (.record t) (list (ms.map Prod.snd)) = none :=
      valueWith?_none (.record t) (Nat.succ_ne_zero _)
    exact hlist
  | succ n =>
    have helements : elements? (senseOf n) t.fields (Draft.empty t) (ms.map Prod.snd) =
        ms.foldlM (member? (senseOf n)) (Draft.empty t) :=
      elements?_eq_foldlM t.nodup_fields (fun f _ => Draft.given_empty f) hnames
    apply Option.ext
    intro r
    rw [value?_list_eq_some_iff, helements, value?_object, Option.map_eq_some_iff]
    exact and_iff_right hclosed

/-- The fields behind those that a list gives are absent. -/
theorem holds_of_value?_list {n : Nat} {r : t.Value}
    (h : value? n (.record t) (list items) = some r) {f : t.Field}
    (hf : f ∈ t.fields.drop items.length) : t.holds r f = (t.spec f).type.absent := by
  obtain ⟨_, d, -, hd, rfl⟩ := exists_of_value?_list h
  have hnot : f ∉ t.fields.take items.length := fun hmem =>
    List.disjoint_take_drop t.nodup_fields (Nat.le_refl _) hmem hf
  have hgiven : d.given f = none := given_of_elements?_of_notMem hd hnot
  rw [Draft.holds_finish, Draft.value, hgiven]
  rfl

/-- File options have no list form, and no other record has more elements than fields. -/
theorem value?_list_eq_none (h : t = .options ∨ t.fields.length < items.length) (n : Nat) :
    value? n (.record t) (list items) = none := by
  rw [Option.eq_none_iff_forall_ne_some]
  intro r hr
  obtain ⟨_, d, hclosed, hd, -⟩ := exists_of_value?_list hr
  rcases h with rfl | hlength
  · cases hclosed
  · rw [elements?_of_length_lt hlength] at hd
    cases hd

end JsonTree

namespace RecordType

variable {text : String}

/-- File options are read from nothing that begins with a bracket. -/
theorem exists_fault_of_openBracket {blanks rest : Input}
    (htext : Text.bytes text = blanks ++ Ascii.openBracket :: rest)
    (hblanks : ∀ b ∈ blanks, Ascii.isBlank b = true) :
    ∃ fault, options.read text = .error fault := by
  apply exists_fault_of_forall_ne
  intro r hread
  obtain ⟨x, hx⟩ := exists_isLayout_of_read hread
  have hvalue := (read_eq_ok_iff hx).mp hread
  match x with
  | .list items =>
    rw [value?_list_eq_none (Or.inl rfl)] at hvalue
    cases hvalue
  | .object ms =>
    -- behind the same blanks there would have to be a brace
    obtain ⟨w, blanks', hw', hw, -⟩ := hx
    rw [tokens_object, enclosed] at hw
    obtain ⟨v, -, hdrop⟩ := hw.dropWhile_append (by decide) blanks'
    rw [← hw', htext, List.dropWhile_append_of_pos hblanks,
      List.dropWhile_cons_of_neg (by decide)] at hdrop
    exact absurd (List.cons.inj hdrop).1 (by decide)
  | .null | .bool _ | .number _ | .string _ => cases hvalue

/-- A list of the first fields of a record is read exactly as the object with these fields is, by
itself and inside of other records, and all other fields are absent then. Where a record stands, a
list with more elements than it has fields is refused, and so is every list where file options
stand. -/
theorem read_list_iff_read_object :
    (∀ (t : RecordType) (ms : List (QuotedText × JsonTree)), t ≠ options →
      List.Forall₂ (fun f m => (t.spec f).isNamedBy m = true) (t.fields.take ms.length) ms →
      (∀ (text text' : String) (r : t.Value), (list (ms.map Prod.snd)).IsLayout text →
        (object ms).IsLayout text' → (t.read text = .ok r ↔ t.read text' = .ok r) ∧
          (t.read text = .ok r →
            ∀ f ∈ t.fields.drop ms.length, t.holds r f = (t.spec f).type.absent)) ∧
      ∀ (n : Nat) (w w' rest : Input) (r : t.Value), Spaced (list (ms.map Prod.snd)).tokens w →
        Spaced (object ms).tokens w' →
          ((Reader.value n (.record t)).run (w ++ rest) = .done r rest ↔
            (Reader.value n (.record t)).run (w' ++ rest) = .done r rest)) ∧
    (∀ (t u : RecordType) (p : Place (.record u) (.record t)) (x : JsonTree)
      (items : List JsonTree) (text : String), x.IsLayout text → p.Stands x (list items) →
        u = options ∨ u.fields.length < items.length → ∃ fault, t.read text = .error fault) ∧
    ∀ (text : String) (blanks rest : Input), Text.bytes text = blanks ++ Ascii.openBracket :: rest →
      (∀ b ∈ blanks, Ascii.isBlank b = true) → ∃ fault, options.read text = .error fault := by
  refine ⟨fun t ms ht hnames => ?_, fun t u p x items text hx hp hitems => ?_,
    fun text blanks rest => exists_fault_of_openBracket⟩
  · have hclosed : t.isOpen = false := decide_eq_false ht
    have hvalue := value?_list_eq_value?_object hclosed hnames
    constructor
    · intro text text' r hlist hobject
      refine ⟨?_, fun hread f hf => ?_⟩
      · rw [read_eq_ok_iff hlist, read_eq_ok_iff hobject, hvalue]
      · rw [read_eq_ok_iff hlist] at hread
        exact holds_of_value?_list hread (by rwa [List.length_map])
    · intro n w w' rest r hw hw'
      have hlist := Reader.delimits_value_record n t _ w rest hw
      have hobject := Reader.delimits_value_record n t _ w' rest hw'
      rw [← Reader.accept?_eq_some_iff, ← Reader.accept?_eq_some_iff, hlist, hobject, hvalue]
  · exact exists_fault_of_stands hx hp nofun (value?_list_eq_none hitems)

/-- The first four fields of a location, a set with two elements, and options in list form alone
and in a file of either form. -/
theorem read_list_iff_read_object_location :
    location.read ("\x7b\"path\":[],\"span\":[]," ++
        "\"leadingComments\":null,\"trailing_comments\":\"x\"\x7d") =
      .ok { trailingComments := some "x" } ∧
      (∃ fault, fileSet.read "[[],[]]" = .error fault) ∧
      (∃ fault, file.read "[null,null,[],[],[]]" = .error fault) ∧
      (∃ fault, file.read "\x7b\"options\":[]\x7d" = .error fault) ∧
      ∃ fault, options.read " [" = .error fault := by
  let key (s : String) (h : Quoting.ArePlain (Text.bytes s)) : QuotedText :=
    .plain (Text.bytes s) h
  let members : List (QuotedText × JsonTree) :=
    [(key "path" (by decide), list []), (key "span" (by decide), list []),
      (key "leadingComments" (by decide), null),
      (key "trailing_comments" (by decide), .string (key "x" (by decide)))]
  let inFile : Place (.record options) (.record file) := .field FileField.options .here
  obtain ⟨hforms, hplaces, hstart⟩ := read_list_iff_read_object
  have hread : location.read "[[],[],null,\"x\"]" = .ok { trailingComments := some "x" } :=
    read_of_run (by decide +kernel)
  have hnames : List.Forall₂ (fun f m => (location.spec f).isNamedBy m = true)
      (location.fields.take members.length) members :=
    .cons (by decide +kernel) (.cons (by decide +kernel) (.cons (by decide +kernel)
      (.cons (by decide +kernel) .nil)))
  have hlist : (list (members.map Prod.snd)).IsLayout "[[],[],null,\"x\"]" :=
    isLayout_of_flatten (by decide +kernel)
  have hobject : (object members).IsLayout ("\x7b\"path\":[],\"span\":[]," ++
      "\"leadingComments\":null,\"trailing_comments\":\"x\"\x7d") :=
    isLayout_of_flatten (by decide +kernel)
  have hsame := (hforms location members (by decide) hnames).1 _ _
    { trailingComments := some "x" } hlist hobject
  refine ⟨hsame.1.mp hread, ?_, ?_, ?_, hstart " [" [Ascii.space] [] (by decide +kernel)
    (List.forall_mem_singleton.mpr (by decide))⟩
  · exact hplaces fileSet fileSet .here _ [list [], list []] _
      (isLayout_of_flatten (by decide +kernel)) (.here _) (Or.inr (by decide))
  · exact hplaces file options inFile (list [null, null, list [], list [], list []]) [] _
      (isLayout_of_flatten (by decide +kernel))
      (.element (List.mem_of_getElem? (i := 4) rfl) (.here _)) (Or.inl rfl)
  · exact hplaces file options inFile (object [(key "options" (by decide), list [])]) [] _
      (isLayout_of_flatten (by decide +kernel))
      (.member (List.mem_singleton_self _) (by decide +kernel) (.here _)) (Or.inl rfl)

end RecordType

end SchemaSpans
