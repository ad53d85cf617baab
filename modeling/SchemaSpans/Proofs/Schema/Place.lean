import SchemaSpans.Proofs.Json.Path
import SchemaSpans.Proofs.Schema.Members

/-! Places inside records. A place leads through fields and items to a value of some type. What
stands at a place in the tree of a text is what the value that is read holds at this place. -/

namespace SchemaSpans

namespace FieldType

/-- The type of what a field is given as, if it is not given as absent. -/
def valueType : FieldType → ValueType
  | optional v => v
  | repeated v => .list v

/-- What a field has been given, unless it is absent. -/
def given? : (type : FieldType) → type.Value → Option type.valueType.Value
  | optional _, value => value
  | repeated _, xs => some xs

end FieldType

/-- A way that leads through fields and items to a value of type `w`. -/
inductive Place (w : ValueType) : ValueType → Type where
  | here : Place w w
  | item {v : ValueType} (i : Nat) (inside : Place w v) : Place w (.list v)
  | field {t : RecordType} (f : t.Field) (inside : Place w (t.spec f).type.valueType) :
      Place w (.record t)

namespace Place

open JsonTree

variable {w : ValueType}

/-- What a value holds at a place, if it holds anything there. -/
def value? : {v : ValueType} → Place w v → v.Value → Option w.Value
  | _, here, r => some r
  | _, item i inside, xs => xs[i]?.bind inside.value?
  | .record t, field f inside, r => ((t.spec f).type.given? (t.holds r f)).bind inside.value?

/-- The way to a place in what is written. -/
def way : {v : ValueType} → Place w v → List JsonStep
  | _, here => []
  | _, item i inside => .item i :: inside.way
  | .record t, field f inside => .member (t.spec f).name :: inside.way

/-- In the tree `x` this place is taken by `y`. A field of a record stands behind a key that names
it, or in a list where it stands among the fields. -/
inductive Stands : {v : ValueType} → Place w v → JsonTree → JsonTree → Prop where
  | here (x : JsonTree) : Stands here x x
  | item {v : ValueType} {i : Nat} {inside : Place w v} {items : List JsonTree} {x y : JsonTree}
      (hi : items[i]? = some x) (h : inside.Stands x y) : Stands (item i inside) (list items) y
  | member {t : RecordType} {f : t.Field} {inside : Place w (t.spec f).type.valueType}
      {ms : List (QuotedText × JsonTree)} {m : QuotedText × JsonTree} {y : JsonTree}
      (hm : m ∈ ms) (hf : (t.spec f).isNamedBy m = true) (h : inside.Stands m.2 y) :
      Stands (field f inside) (object ms) y
  | element {t : RecordType} {f : t.Field} {inside : Place w (t.spec f).type.valueType}
      {items : List JsonTree} {x y : JsonTree} (hx : (f, x) ∈ t.fields.zip items)
      (h : inside.Stands x y) : Stands (field f inside) (list items) y

/-- Nothing stands inside of a `null`. -/
theorem Stands.ne_null {v : ValueType} {p : Place w v} {x y : JsonTree} (h : p.Stands x y)
    (hy : y ≠ null) : x ≠ null := by
  cases h with
  | here => exact hy
  | item | member | element => exact nofun

/-- A record holds inside a field what the field has been given holds there. -/
theorem value?_field_finish {t : RecordType} {f : t.Field}
    {inside : Place w (t.spec f).type.valueType} {d : Draft t} {a : t.FieldValue f}
    {b : (t.spec f).type.valueType.Value} (hgiven : d.given f = some a)
    (hb : (t.spec f).type.given? a = some b) :
    (field f inside).value? d.finish = inside.value? b := by
  rw [value?, Draft.holds_finish, Draft.value, hgiven, Option.getD_some, hb, Option.bind_some]

end Place

theorem RecordType.fst_of_mem_member {t : RecordType} {r : t.Value} {f : t.Field}
    {m : String × Json} (h : m ∈ t.member r f) : m.1 = (t.spec f).name := by
  obtain ⟨v, -, rfl⟩ := List.mem_map.mp h
  rfl

/-- What is written for a field stands behind its name. -/
theorem RecordType.lookup_member {t : RecordType} {r : t.Value} {f : t.Field} {json : Json}
    (h : t.written? r f = some json) :
    (t.fields.flatMap (t.member r) ++ t.others r).lookup (t.spec f).name = some json := by
  have hfields : ∀ {fs : List t.Field}, f ∈ fs →
      (fs.flatMap (t.member r)).lookup (t.spec f).name = some json := by
    intro fs hf
    induction fs with
    | nil => exact (List.not_mem_nil hf).elim
    | cons g fs ih =>
      rw [List.flatMap_cons, List.lookup_append]
      by_cases hg : f = g
      · subst hg
        rw [member, h]
        simp
      · -- no other field is written under this name
        have hname : (t.spec f).name ≠ (t.spec g).name := by
          intro heq
          have hfield := t.field?_name f
          rw [heq, t.field?_name g] at hfield
          exact hg (Option.some.inj hfield).symm
        have hnone : (t.member r g).lookup (t.spec f).name = none := by
          rw [List.lookup_eq_none_iff]
          intro m hm
          rw [fst_of_mem_member hm]
          exact bne_iff_ne.mpr hname
        rw [hnone, Option.none_or]
        exact ih ((List.mem_cons.mp hf).resolve_left hg)
  rw [List.lookup_append, hfields (t.mem_fields f), Option.some_or]

namespace Place

variable {w : ValueType}

/-- A field is written if there is something at a place inside it. -/
theorem written?_of_value? (hw : ∀ u, w ≠ .list u) {type : FieldType}
    {inside : Place w type.valueType} {a : type.Value} {b : type.valueType.Value} {c : w.Value}
    (hb : type.given? a = some b) (hc : inside.value? b = some c) (whenEmpty : Bool) :
    type.written? whenEmpty a = some (type.valueType.toJson b) := by
  cases type with
  | optional v =>
    have ha : a = some b := hb
    rw [FieldType.written?, ha]
    rfl
  | repeated v =>
    cases hb
    -- a list that holds something at a place is not empty
    have hempty : a.isEmpty = false := by
      cases inside with
      | here => exact absurd rfl (hw v)
      | item i inside =>
        obtain ⟨x, hx, -⟩ := Option.bind_eq_some_iff.mp hc
        exact List.isEmpty_eq_false_iff.mpr (List.ne_nil_of_mem (List.mem_of_getElem? hx))
    rw [FieldType.written?, hempty, Bool.false_and, if_neg Bool.false_ne_true]
    rfl

/-- What a value holds at a place is written on the way to it. -/
theorem reach?_toJson (hw : ∀ u, w ≠ .list u) {v : ValueType} (p : Place w v) {a : v.Value}
    {b : w.Value} (h : p.value? a = some b) :
    (v.toJson a).reach? p.way = some (w.toJson b) := by
  induction p with
  | here =>
    cases h
    rfl
  | item i inside ih =>
    obtain ⟨x, hx, hinside⟩ := Option.bind_eq_some_iff.mp h
    rw [ValueType.toJson, way, Json.reach?, List.getElem?_map, hx]
    exact ih hinside
  | @field t f inside ih =>
    obtain ⟨c, hc, hinside⟩ := Option.bind_eq_some_iff.mp h
    have hwritten : t.written? a f = some ((t.spec f).type.valueType.toJson c) :=
      written?_of_value? hw hc hinside _
    rw [ValueType.toJson, way, RecordType.toJson_eq, Json.reach?,
      RecordType.lookup_member hwritten]
    exact ih hinside

end Place

namespace JsonTree

variable {t : RecordType} {sense : Sense}

/-- A field that is given as anything but `null` is given as a value. -/
theorem exists_of_fieldValue? {value : (v : ValueType) → JsonTree → Option v.Value}
    {type : FieldType} {x : JsonTree} {a : type.Value} (hx : x ≠ null)
    (h : fieldValue? value type x = some a) :
    ∃ b, value type.valueType x = some b ∧ type.given? a = some b := by
  cases type with
  | repeated v => exact ⟨a, h, rfl⟩
  | optional v =>
    match x with
    | null => exact absurd rfl hx
    | bool _ | number _ | string _ | list _ | object _ =>
      obtain ⟨b, hb, rfl⟩ := Option.map_eq_some_iff.mp h
      exact ⟨b, hb, rfl⟩

/-- The elements of a list leave all other fields alone. -/
theorem given_of_elements?_of_notMem {fields : List t.Field} {d d' : Draft t}
    {items : List JsonTree} (h : elements? sense fields d items = some d') {f : t.Field}
    (hf : f ∉ fields.take items.length) : d'.given f = d.given f := by
  induction items generalizing fields d with
  | nil =>
    cases fields <;> cases h <;> rfl
  | cons x items ih =>
    cases fields with
    | nil => cases h
    | cons g fields =>
      obtain ⟨a, -, hmore⟩ := Option.bind_eq_some_iff.mp h
      rw [List.length_cons, List.take_succ_cons, List.mem_cons, not_or] at hf
      rw [ih hmore hf.2, Draft.given_give_of_ne d (Ne.symm hf.1)]

/-- Each element of a list gives the field in its place. -/
theorem given_of_elements? {fields : List t.Field} (hnodup : fields.Nodup) {d d' : Draft t}
    {items : List JsonTree} (h : elements? sense fields d items = some d') {f : t.Field}
    {x : JsonTree} (hx : (f, x) ∈ fields.zip items) :
    ∃ a, fieldValue? sense.value (t.spec f).type x = some a ∧ d'.given f = some a := by
  induction items generalizing fields d with
  | nil =>
    rw [List.zip_nil_right] at hx
    exact (List.not_mem_nil hx).elim
  | cons y items ih =>
    cases fields with
    | nil => exact (List.not_mem_nil hx).elim
    | cons g fields =>
      obtain ⟨a, ha, hmore⟩ := Option.bind_eq_some_iff.mp h
      obtain ⟨hnew, hnodup⟩ := List.nodup_cons.mp hnodup
      rcases List.mem_cons.mp hx with heq | hx
      · -- no later element gives the field again
        obtain ⟨rfl, rfl⟩ := Prod.mk.inj heq
        have hlater : f ∉ fields.take items.length := fun hmem => hnew (List.mem_of_mem_take hmem)
        refine ⟨a, ha, ?_⟩
        rw [given_of_elements?_of_notMem hmore hlater, Draft.given_give_self]
      · exact ih hnodup hmore hx

/-- A record with a list form is read from a list element by element, and no other is. -/
theorem value?_list_eq_some_iff {n : Nat} {items : List JsonTree} {r : t.Value} :
    value? (n + 1) (.record t) (list items) = some r ↔ t.isOpen = false ∧
      ∃ d, elements? (senseOf n) t.fields (Draft.empty t) items = some d ∧ d.finish = r := by
  change (if t.isOpen then none else
    (elements? (senseOf n) t.fields (Draft.empty t) items).map Draft.finish) = some r ↔ _
  cases t.isOpen with
  | true => simp
  | false => simp

/-- A list is never read without an allowance. -/
theorem exists_of_value?_list {n : Nat} {items : List JsonTree} {r : t.Value}
    (h : value? n (.record t) (list items) = some r) : ∃ m d, t.isOpen = false ∧
      elements? (senseOf m) t.fields (Draft.empty t) items = some d ∧ d.finish = r := by
  cases n with
  | zero =>
    have hnone : value? 0 (.record t) (list items) = none :=
      valueWith?_none (.record t) (Nat.succ_ne_zero _)
    rw [hnone] at h
    cases h
  | succ n =>
    obtain ⟨hclosed, d, hd, hr⟩ := value?_list_eq_some_iff.mp h
    exact ⟨n, d, hclosed, hd, hr⟩

/-- What stands at a place is read, and what it is read as stands there in the value. -/
theorem exists_value?_of_stands {v w : ValueType} {p : Place w v} {x y : JsonTree}
    (h : p.Stands x y) (hy : y ≠ null) {n : Nat} {a : v.Value} (ha : value? n v x = some a) :
    ∃ m b, value? m w y = some b ∧ p.value? a = some b := by
  induction h generalizing n with
  | here x => exact ⟨n, a, ha, rfl⟩
  | @item v i inside items x y hi _ ih =>
    match n with
    | 0 => cases ha
    | n + 1 =>
      obtain ⟨b, hb, hx⟩ := exists_getElem?_of_forall₂ (mapM_eq_some_iff.mp ha) hi
      obtain ⟨m, c, hc, hinside⟩ := ih hy hx
      refine ⟨m, c, hc, ?_⟩
      rw [Place.value?, hb, Option.bind_some, hinside]
  | @member t f inside ms m y hm hf hinside ih =>
    match n with
    | 0 => cases ha
    | n + 1 =>
      obtain ⟨d, hd, rfl⟩ := Option.map_eq_some_iff.mp ha
      obtain ⟨given, hvalue, hgiven⟩ := exists_given_of_mem hd hm hf
      obtain ⟨b, hb, hgiven?⟩ := exists_of_fieldValue? (hinside.ne_null hy) hvalue
      obtain ⟨k, c, hc, hplace⟩ := ih hy hb
      exact ⟨k, c, hc, (Place.value?_field_finish hgiven hgiven?).trans hplace⟩
  | @element t f inside items x y hx hinside ih =>
    obtain ⟨n, d, -, hd, rfl⟩ := exists_of_value?_list ha
    obtain ⟨given, hvalue, hgiven⟩ := given_of_elements? t.nodup_fields hd hx
    obtain ⟨b, hb, hgiven?⟩ := exists_of_fieldValue? (hinside.ne_null hy) hvalue
    obtain ⟨k, c, hc, hplace⟩ := ih hy hb
    exact ⟨k, c, hc, (Place.value?_field_finish hgiven hgiven?).trans hplace⟩

end JsonTree

/-- A record is not read from a tree that holds what cannot be read at one of its places. -/
theorem RecordType.exists_fault_of_stands {t : RecordType} {text : String} {v : ValueType}
    {x y : JsonTree} (hx : x.IsLayout text) {p : Place v (.record t)} (hp : p.Stands x y)
    (hy : y ≠ .null) (hnone : ∀ n, y.value? n v = none) : ∃ fault, t.read text = .error fault := by
  apply exists_fault_of_forall_ne
  intro r hread
  obtain ⟨m, b, hb, -⟩ := JsonTree.exists_value?_of_stands hp hy ((read_eq_ok_iff hx).mp hread)
  rw [hnone m] at hb
  cases hb

end SchemaSpans
