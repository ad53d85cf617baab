import SchemaSpans.Proofs.Schema.Evaluation

/-! Accepted texts are layouts of trees: a reader of records takes nothing but well-formed JSON,
in whatever form the record comes. Together with the evaluation of trees this settles what any
text is read as, so that what follows can speak of trees alone. -/

namespace SchemaSpans

namespace Reader

variable {α : Type} {t : RecordType}

/-- A reader that accepts nothing takes whatever one likes. -/
theorem takes_of_none {r : Reader α} (h : ∀ input, r.accept? input = none)
    (p : List Input → Prop) : r.Takes p := by
  intro input a rest haccept
  rw [h input] at haccept
  cases haccept

theorem takes_string : string.Takes IsTree := by
  apply takes_start rfl
  intro c input a rest h
  cases hstart : Start.ofByte c with
  | string =>
    rw [hstart] at h
    exact beginsWithTree_string hstart (fun _ _ _ => exists_body_of_accept?_quotedText) h
  | null | true | false | number | list | object | other =>
    rw [hstart, accept?_mismatch] at h
    cases h

theorem takes_int32 : int32.Takes IsTree := by
  apply takes_start rfl
  intro c input a rest h
  cases hstart : Start.ofByte c with
  | number =>
    rw [hstart] at h
    obtain ⟨x, rest', hnumber, hrange⟩ := accept?_bind_eq_some_iff.mp h
    obtain ⟨n, hn, -⟩ := exists_of_accept?_number hnumber
    cases hx : toInt32 x with
    | ok i =>
      rw [hx] at hrange
      cases hrange
      exact beginsWithTree_of_token (t := .number n) rfl hn
    | error cause =>
      rw [hx] at hrange
      cases hrange
  | null | true | false | string | list | object | other =>
    rw [hstart, accept?_mismatch] at h
    cases h

theorem takes_fieldValue {value : (v : ValueType) → Reader v.Value}
    (h : ∀ v, (value v).Takes IsTree) (type : FieldType) :
    (fieldValue value type).Takes IsTree := by
  cases type with
  | repeated v => exact h (.list v)
  | optional v =>
    have hvalue : (value v >>= fun given => pure (some given)).Takes IsTree := (h v).map some
    -- an empty text is left to the reader of values, which accepts no such thing
    refine takes_start hvalue.accept?_nil fun c input a rest haccept => ?_
    split at haccept
    · obtain ⟨_, hword⟩ := exists_of_accept?_map haccept
      exact beginsWithTree_of_token (t := .null) rfl (accept?_letters_eq_some_iff.mp hword)
    · obtain ⟨row, w, ⟨x, rfl⟩, hinput, hw⟩ := hvalue (c :: input) a rest haccept
      exact ⟨x, w, hinput, hw⟩

/-- What stands inside brackets is read from trees. -/
structure Inside.TakesTrees (inside : Inside) : Prop where
  json : inside.json.Takes IsTree
  value : ∀ v, (inside.value v).Takes IsTree

variable {inside : Inside}

theorem takes_member (h : inside.TakesTrees) (d : Draft t) : (member inside d).Takes IsMember := by
  apply takes_keyed takes_key
  intro k
  cases hk : t.field? k with
  | some f =>
    dsimp only
    split
    · exact takes_of_none (accept?_duplicate _) _
    · exact takes_behindColon ((takes_fieldValue h.value _).map _)
  | none =>
    apply takes_behindColon
    split
    · exact h.json.map _
    · exact takes_skip.map _

open SchemaSpans.Bracket

/-- The end of a list, or a comma and the items behind it. -/
def IsListContinuation (row : List Input) : Prop :=
  ∃ items : List JsonTree, row = Bracket.list.tokensBehind (items.map JsonTree.tokens)

theorem takes_fullListEnd : fullListEnd.Takes IsListContinuation := by
  intro input a rest h
  rw [fullListEnd, accept?_bind, accept?_token, Option.bind_some] at h
  cases hdrop : input.dropWhile Ascii.isBlank with
  | nil =>
    rw [hdrop] at h
    cases h
  | cons c rest' =>
    rw [hdrop, List.head?_cons] at h
    dsimp only at h
    split at h
    · rename_i hclose
      subst hclose
      cases h
      obtain ⟨w, hinput, hw⟩ := exists_spaced_close (b := Bracket.list) hdrop
      exact ⟨_, w, ⟨[], rfl⟩, hinput, hw⟩
    -- a comma or anything else is refused
    · split at h
      · rw [accept?_bind, accept?_next_cons, Option.bind_some, accept?_bind, accept?_token,
          Option.bind_some] at h
        dsimp only at h
        split at h <;>
        · rw [accept?_reject] at h
          cases h
      · rw [accept?_reject] at h
        cases h

theorem accept?_elements_nil (isFirst : Bool) (f : t.Field) (fields : List t.Field) (d : Draft t)
    {input : Input} (h : input.dropWhile Ascii.isBlank = []) :
    (elements inside isFirst (f :: fields) d).accept? input = none := by
  simp only [elements, accept?_bind, accept?_token, h, List.head?_nil, Option.bind_some,
    accept?_fail]

/-- What separates an element from the one in front of it is a comma. -/
theorem accept?_afterComma_of_separator {r : Reader α} {c : UInt8} {input rest : Input} {a : α}
    (h : (separator false >>= fun _ => r).accept? (c :: input) = some (a, rest)) :
    c = Ascii.comma ∧ (Bracket.list.afterComma >>= fun _ => r).accept? input = some (a, rest) := by
  by_cases hc : c = Ascii.comma
  · subst hc
    rw [accept?_separator_comma] at h
    exact ⟨rfl, h⟩
  · have hhead : (c :: input).head? ≠ some Ascii.comma := fun heq => hc (Option.some.inj heq)
    simp only [separator, Bool.false_eq_true, if_false, accept?_bind,
      accept?_skipIf_of_ne hhead, Option.bind_some, accept?_reject, Option.bind_none] at h
    cases h

/-- The elements that are left of a list are trees behind commas. -/
theorem takes_elements_false (h : inside.TakesTrees) (fields : List t.Field) (d : Draft t) :
    (elements inside false fields d).Takes IsListContinuation := by
  -- on the fields that are left; the list may end at each of them, or go on with a comma
  induction fields generalizing d with
  | nil => exact takes_fullListEnd.map _
  | cons f fields ih =>
    intro input d' rest haccept
    cases hdrop : input.dropWhile Ascii.isBlank with
    | nil =>
      rw [accept?_elements_nil false f fields d hdrop] at haccept
      cases haccept
    | cons c rest' =>
      by_cases hc : c = Ascii.closeBracket
      · subst hc
        rw [accept?_elements_close inside false f fields d hdrop] at haccept
        cases haccept
        obtain ⟨w, hinput, hw⟩ := exists_spaced_close (b := Bracket.list) hdrop
        exact ⟨_, w, ⟨[], rfl⟩, hinput, hw⟩
      · rw [accept?_elements_open inside false f fields d hc hdrop] at haccept
        obtain ⟨⟨value, rest''⟩, hfirst, hmore⟩ := Option.bind_eq_some_iff.mp haccept
        obtain ⟨rfl, hfirst⟩ := accept?_afterComma_of_separator hfirst
        obtain ⟨_, u, ⟨x, rfl⟩, rfl, hu⟩ := takes_afterComma isRegular_list.isGrammatical
          JsonTree.tokens_ne_nil (takes_fieldValue h.value (t.spec f).type) _ value rest'' hfirst
        obtain ⟨_, v, ⟨items, rfl⟩, hv', hv⟩ := ih (d.give f value) rest'' d' rest hmore
        subst hv'
        obtain ⟨w, hinput, hw⟩ := exists_spaced_comma hu hv hdrop
        exact ⟨_, w, ⟨x :: items, rfl⟩, hinput, hw⟩

theorem takes_elements (h : inside.TakesTrees) {fields : List t.Field} (hne : fields ≠ [])
    (d : Draft t) : (elements inside true fields d).Takes IsListRest := by
  obtain ⟨f, fields, rfl⟩ := List.exists_cons_of_ne_nil hne
  intro input d' rest haccept
  cases hdrop : input.dropWhile Ascii.isBlank with
  | nil =>
    rw [accept?_elements_nil true f fields d hdrop] at haccept
    cases haccept
  | cons c rest' =>
    by_cases hc : c = Ascii.closeBracket
    · subst hc
      rw [accept?_elements_close inside true f fields d hdrop] at haccept
      cases haccept
      obtain ⟨w, hinput, hw⟩ := exists_spaced_close (b := Bracket.list) hdrop
      exact ⟨_, w, ⟨[], rfl⟩, hinput, hw⟩
    · rw [accept?_elements_open inside true f fields d hc hdrop] at haccept
      obtain ⟨⟨value, rest''⟩, hfirst, hmore⟩ := Option.bind_eq_some_iff.mp haccept
      obtain ⟨_, u, ⟨x, rfl⟩, hu', hu⟩ :=
        takes_fieldValue h.value (t.spec f).type _ value rest'' hfirst
      obtain ⟨_, v, ⟨items, rfl⟩, hv', hv⟩ :=
        takes_elements_false h fields (d.give f value) rest'' d' rest hmore
      subst hv'
      obtain ⟨w, hinput, hw⟩ := exists_spaced_first x.tokens_ne_nil hu hv (hdrop.trans hu')
      exact ⟨_, w, ⟨x :: items, rfl⟩, hinput, hw⟩

/-- What may be inside brackets is read from trees. -/
def TakesTreesInside (inside : Option Inside) : Prop :=
  ∀ inner, inside = some inner → inner.TakesTrees

theorem takes_record {inside : Option Inside} (hinside : TakesTreesInside inside)
    (t : RecordType) : (record inside t).Takes IsTree := by
  apply takes_start rfl
  intro c input a rest h
  cases hstart : Start.ofByte c with
  | object =>
    rw [hstart] at h
    refine beginsWithTree_object hstart (fun inner hsome => ?_) h
    have hmembers : (Bracket.object.read (member inner) (Draft.empty t)).Takes IsObjectRest :=
      takes_read isRegular_object.isGrammatical
        ⟨JsonTree.tokensOfMember_ne_nil, takes_member (hinside inner hsome)⟩ (Draft.empty t)
    exact hmembers.map Draft.finish
  | list =>
    rw [hstart] at h
    dsimp only at h
    split at h
    · rw [accept?_mismatch] at h
      cases h
    · refine beginsWithTree_list hstart (fun inner hsome => ?_) h
      have helements := takes_elements (hinside inner hsome) (fields_ne_nil t) (Draft.empty t)
      exact helements.map Draft.finish
  | null | true | false | number | string | other =>
    rw [hstart, accept?_mismatch] at h
    cases h

theorem takes_list {inside : Option Inside} (hinside : TakesTreesInside inside) (v : ValueType) :
    (list inside v).Takes IsTree := by
  apply takes_start rfl
  intro c input a rest h
  cases hstart : Start.ofByte c with
  | list =>
    rw [hstart] at h
    exact beginsWithTree_list hstart
      (fun inner hsome => takes_items ((hinside inner hsome).value v)) h
  | null | true | false | number | string | object | other =>
    rw [hstart, accept?_mismatch] at h
    cases h

theorem takes_valueWith {inside : Option Inside} (hinside : TakesTreesInside inside)
    (v : ValueType) : (valueWith inside v).Takes IsTree := by
  cases v with
  | string => exact takes_string
  | int32 => exact takes_int32
  | record t => exact takes_record hinside t
  | list v => exact takes_list hinside v

/-- Whatever is read as a value is a tree. -/
theorem takes_value (n : Nat) (v : ValueType) : (value n v).Takes IsTree := by
  induction n generalizing v with
  | zero =>
    have hnone : TakesTreesInside none := fun inner hsome => nomatch hsome
    exact takes_valueWith hnone v
  | succ n ih =>
    refine takes_valueWith (fun inner hsome => ?_) v
    exact Option.some.inj hsome ▸ ⟨takes_kept n, ih⟩

end Reader

namespace JsonTree

variable {t : RecordType} {sense sense' : Sense}

/-- The second sense makes of a tree at least what the first one does. -/
structure Extends (sense sense' : Sense) (x : JsonTree) : Prop where
  json : ∀ v, sense.json x = some v → sense'.json x = some v
  value : ∀ (v : ValueType) a, sense.value v x = some a → sense'.value v x = some a

theorem fieldValue?_of_extends {x : JsonTree} (h : Extends sense sense' x) {type : FieldType}
    {a : type.Value} (ha : fieldValue? sense.value type x = some a) :
    fieldValue? sense'.value type x = some a := by
  cases type with
  | repeated v => exact h.value (.list v) a ha
  | optional v =>
    match x with
    | null => exact ha
    | bool _ | number _ | string _ | list _ | object _ =>
      obtain ⟨b, hb, rfl⟩ := Option.map_eq_some_iff.mp ha
      exact Option.map_eq_some_iff.mpr ⟨b, h.value v b hb, rfl⟩

theorem member?_of_extends {m : QuotedText × JsonTree} (h : Extends sense sense' m.2)
    {d d' : Draft t} (hm : member? sense d m = some d') : member? sense' d m = some d' := by
  rw [member?] at hm ⊢
  obtain ⟨k, hk, hm⟩ := Option.bind_eq_some_iff.mp hm
  rw [hk, Option.bind_some]
  cases hfield : t.field? k with
  | some f =>
    simp only [hfield] at hm
    split at hm
    · cases hm
    · rename_i hnew
      obtain ⟨a, ha, rfl⟩ := Option.map_eq_some_iff.mp hm
      simp only [if_neg hnew, fieldValue?_of_extends h ha, Option.map_some]
  | none =>
    simp only [hfield] at hm
    split at hm
    · rename_i hopen
      obtain ⟨v, hv, rfl⟩ := Option.map_eq_some_iff.mp hm
      simp only [if_pos hopen, h.json v hv, Option.map_some]
    · rename_i hclosed
      simp only [if_neg hclosed, hm]

theorem elements?_of_extends {items : List JsonTree} (h : ∀ x ∈ items, Extends sense sense' x)
    {fields : List t.Field} {d d' : Draft t} (hd : elements? sense fields d items = some d') :
    elements? sense' fields d items = some d' := by
  induction items generalizing fields d with
  | nil => cases fields <;> exact hd
  | cons x items ih =>
    cases fields with
    | nil => exact hd
    | cons f fields =>
      obtain ⟨a, ha, hd⟩ := Option.bind_eq_some_iff.mp hd
      rw [elements?, fieldValue?_of_extends (h x List.mem_cons_self) ha, Option.bind_some]
      exact ih (fun y hy => h y (List.mem_cons_of_mem x hy)) hd

/-- The trees right inside the brackets of a tree. -/
def parts : JsonTree → List JsonTree
  | list items => items
  | object members => members.map Prod.snd
  | _ => []

theorem depth_lt_of_mem_parts {x y : JsonTree} (h : y ∈ x.parts) : y.depth < x.depth := by
  match x with
  | list items => exact le_depth_list h
  | object members =>
    obtain ⟨m, hm, rfl⟩ := List.mem_map.mp h
    exact le_depth_object hm
  | null | bool _ | number _ | string _ => exact (List.not_mem_nil h).elim

theorem valueWith?_of_extends {v : ValueType} {x : JsonTree}
    (h : ∀ y ∈ x.parts, Extends sense sense' y) {a : v.Value}
    (ha : valueWith? (some sense) v x = some a) : valueWith? (some sense') v x = some a := by
  match v, x with
  | .string, _ | .int32, _ => exact ha
  | .record t, object members =>
    obtain ⟨d, hd, rfl⟩ := Option.map_eq_some_iff.mp ha
    refine Option.map_eq_some_iff.mpr ⟨d, foldlM_eq_some_of_imp (fun m hm d d' => ?_) hd, rfl⟩
    exact member?_of_extends (h m.2 (List.mem_map_of_mem hm))
  | .record t, list items =>
    simp only [valueWith?, record?] at ha ⊢
    split at ha
    · cases ha
    · rename_i hclosed
      obtain ⟨d, hd, rfl⟩ := Option.map_eq_some_iff.mp ha
      rw [if_neg hclosed]
      exact Option.map_eq_some_iff.mpr ⟨d, elements?_of_extends h hd, rfl⟩
  | .list v, list items =>
    exact mapM_eq_some_of_imp (fun x hx => (h x hx).value v) ha
  | .record t, null | .record t, bool _ | .record t, number _ | .record t, string _
  | .list v, null | .list v, bool _ | .list v, number _ | .list v, string _
  | .list v, object _ => cases ha

theorem valueWith?_of_depth_eq_zero (inside inside' : Option Sense) (v : ValueType) {x : JsonTree}
    (h : x.depth = 0) : valueWith? inside v x = valueWith? inside' v x := by
  match v, x with
  | .string, _ | .int32, _ => rfl
  | .record t, null | .record t, bool _ | .record t, number _ | .record t, string _ => rfl
  | .list v, null | .list v, bool _ | .list v, number _ | .list v, string _ => rfl
  | _, list items | _, object members => exact absurd h (Nat.succ_ne_zero _)

theorem valueWith?_none (v : ValueType) {x : JsonTree} (h : x.depth ≠ 0) :
    valueWith? none v x = none := by
  match v, x with
  | _, null | _, bool _ | _, number _ | _, string _ => exact absurd rfl h
  | .record t, list items =>
    simp only [valueWith?, record?, Option.bind_none, ite_self]
  | .string, list _ | .int32, list _ | .list v, list _ => rfl
  | .string, object _ | .int32, object _ | .record t, object _ | .list v, object _ => rfl

/-- An allowance that is enough for the depth is as good as any other. -/
theorem value?_of_min_le {n m : Nat} {v : ValueType} {x : JsonTree} {a : v.Value}
    (h : value? n v x = some a) (hm : min n x.depth ≤ m) : value? m v x = some a := by
  -- on the first allowance; behind a bracket both allowances and the depth are one less
  induction n generalizing m v x with
  | zero =>
    by_cases hx : x.depth = 0
    · cases m with
      | zero => exact h
      | succ m => exact (valueWith?_of_depth_eq_zero _ none v hx).trans h
    · rw [value?, valueWith?_none v hx] at h
      cases h
  | succ n ih =>
    cases m with
    | zero =>
      have hx : x.depth = 0 := by omega
      exact (valueWith?_of_depth_eq_zero none _ v hx).trans h
    | succ m =>
      refine valueWith?_of_extends (fun y hy => ?_) h
      -- the parts are less deep than the whole by one bracket at least
      have hdepth := depth_lt_of_mem_parts hy
      exact ⟨fun v hv => kept?_of_min_le hv (by omega), fun v a ha => ih ha (by omega)⟩

end JsonTree

namespace RecordType

/-- An accepted text is the layout of a tree. -/
theorem exists_isLayout_of_read {t : RecordType} {text : String} {r : t.Value}
    (h : t.read text = .ok r) : ∃ x : JsonTree, x.IsLayout text := by
  obtain ⟨rest, haccept⟩ := read_eq_ok_iff_accept?.mp h
  obtain ⟨r', rest', hvalue, hend⟩ := Reader.accept?_bind_eq_some_iff.mp haccept
  obtain ⟨_, rest'', hblanks, -⟩ := Reader.accept?_bind_eq_some_iff.mp hend
  obtain ⟨_, w, ⟨x, rfl⟩, htext, hw⟩ := Reader.takes_value Reader.maxDepth (.record t) _ _ _ hvalue
  exact ⟨x, w, rest', htext, hw, Reader.forall_isBlank_of_accept?_textEnd hblanks⟩

end RecordType

end SchemaSpans
