import SchemaSpans.Proofs.Reader.Yields
import SchemaSpans.Proofs.Schema.ReadBack

/-! Every record that is read is well formed: the options inside it are maps, and what is
written for it nests no deeper than what was read. The writer adds brackets that no text has
to have, for lists that are written even when they are empty; `floor` says how many brackets a
type of value may take through them alone. -/

namespace SchemaSpans

namespace ValueType

/-- How many brackets may be open at once inside what is written for a value of a type, for
reasons other than the brackets that were read. -/
def floor : ValueType → Nat
  | .string | .int32 | .record .options | .record .field | .record .message => 0
  | .record .location => 2
  | .record .sourceInfo => 4
  | .record .file => 5
  | .record .fileSet => 7
  | .list element => if element.floor = 0 then 0 else element.floor + 1

theorem floor_le_floor_list (v : ValueType) : v.floor ≤ (list v).floor - 1 := by
  rw [floor]
  split <;> omega

/-- A value whose options are maps, and which is written with at most `n` brackets open at
once unless that is too few for any value of its type. -/
structure IsWellFormed (n : Nat) (v : ValueType) (x : v.Value) : Prop where
  isMap : ∀ o ∈ v.optionsIn x, o.IsMap
  depth_le : v.floor ≤ n → (v.toJson x).depth ≤ n

theorem isWellFormed_list {n : Nat} {v : ValueType} {xs : List v.Value}
    (h : ∀ x ∈ xs, v.IsWellFormed n x) : (list v).IsWellFormed (n + 1) xs := by
  constructor
  · intro o ho
    obtain ⟨x, hx, ho⟩ := List.mem_flatMap.mp ho
    exact (h x hx).isMap o ho
  · intro hfloor
    have hv : v.floor ≤ n := Nat.le_trans v.floor_le_floor_list (Nat.sub_le_of_le_add hfloor)
    refine Json.depth_list_le_iff.mpr fun json hjson => ?_
    obtain ⟨x, hx, rfl⟩ := List.mem_map.mp hjson
    exact (h x hx).depth_le hv

end ValueType

namespace FieldType

/-- The same number of brackets for what is written for a field. -/
def floor (whenEmpty : Bool) : FieldType → Nat
  | .optional v => v.floor
  | .repeated v => max (ValueType.list v).floor whenEmpty.toNat

/-- What a field holds, with the same properties as a value. -/
structure IsWellFormed (n : Nat) (whenEmpty : Bool) (type : FieldType) (x : type.Value) :
    Prop where
  isMap : ∀ o ∈ type.optionsIn x, o.IsMap
  depth_le : type.floor whenEmpty ≤ n → ∀ json, type.written? whenEmpty x = some json →
    json.depth ≤ n

variable {n : Nat} {whenEmpty : Bool}

theorem isWellFormed_absent (type : FieldType) : type.IsWellFormed n whenEmpty type.absent := by
  cases type with
  | optional v =>
    exact ⟨fun o ho => (List.not_mem_nil ho).elim, fun _ json hjson => nomatch hjson⟩
  | repeated v =>
    -- nothing was read, but a list that is written when empty still takes its bracket
    refine ⟨fun o ho => (List.not_mem_nil ho).elim, fun hfloor json hjson => ?_⟩
    cases whenEmpty with
    | false => cases hjson
    | true =>
      cases hjson
      exact Nat.le_trans (Nat.le_max_right ..) hfloor

theorem isWellFormed_some {v : ValueType} {x : v.Value} (h : v.IsWellFormed n x) :
    (optional v).IsWellFormed n whenEmpty (some x) := by
  constructor
  · intro o ho
    obtain ⟨y, hy, ho⟩ := List.mem_flatMap.mp ho
    exact h.isMap o (List.mem_singleton.mp hy ▸ ho)
  · intro hfloor json hjson
    exact Option.some.inj hjson ▸ h.depth_le hfloor

theorem isWellFormed_repeated {v : ValueType} {xs : List v.Value}
    (h : (ValueType.list v).IsWellFormed n xs) : (repeated v).IsWellFormed n whenEmpty xs := by
  refine ⟨h.isMap, fun hfloor json hjson => ?_⟩
  rw [written?] at hjson
  split at hjson
  · cases hjson
  · exact Option.some.inj hjson ▸ h.depth_le (Nat.le_trans (Nat.le_max_left ..) hfloor)

end FieldType

namespace RecordType

/-- What the table says about the number of brackets: a record takes one more than each of its
fields. -/
theorem floor_spec_le (t : RecordType) (f : t.Field) :
    (t.spec f).type.floor (t.spec f).writtenWhenEmpty ≤ (ValueType.record t).floor - 1 := by
  cases t <;> cases f <;> decide

end RecordType

namespace Draft

variable {t : RecordType} {n : Nat}

/-- A draft in which everything read so far is well formed. -/
structure IsWellFormed (n : Nat) (d : Draft t) : Prop where
  given : ∀ f x, d.given f = some x →
    (t.spec f).type.IsWellFormed n (t.spec f).writtenWhenEmpty x
  other : Json.AreKept n d.other
  notMem_spellings : ∀ k ∈ Members.keys d.other, k ∉ t.spellings

theorem isWellFormed_empty (n : Nat) (t : RecordType) : (empty t).IsWellFormed n where
  given _ _ h := nomatch h
  other := Json.areKept_nil n
  notMem_spellings _ h := (List.not_mem_nil h).elim

variable {d : Draft t}

theorem IsWellFormed.give (h : d.IsWellFormed n) {f : t.Field} {x : t.FieldValue f}
    (hx : (t.spec f).type.IsWellFormed n (t.spec f).writtenWhenEmpty x) :
    (d.give f x).IsWellFormed n where
  given g y hy := by
    by_cases hne : f = g
    · subst hne
      rw [given_give_self] at hy
      exact Option.some.inj hy ▸ hx
    · rw [given_give_of_ne d hne] at hy
      exact h.given g y hy
  other := h.other
  notMem_spellings := h.notMem_spellings

theorem IsWellFormed.keep (h : d.IsWellFormed n) {k : String} (hk : k ∉ t.spellings) {v : Json}
    (hv : v.IsKept n) : (d.keep k v).IsWellFormed n where
  given := h.given
  other := h.other.insert hv
  notMem_spellings l hl := by
    rcases Members.eq_or_mem_of_mem_keys_insert hl with rfl | hl
    · exact hk
    · exact h.notMem_spellings l hl

theorem IsWellFormed.value (h : d.IsWellFormed n) (f : t.Field) :
    (t.spec f).type.IsWellFormed n (t.spec f).writtenWhenEmpty (d.value f) := by
  rw [Draft.value]
  cases hf : d.given f with
  | none => exact FieldType.isWellFormed_absent _
  | some x => exact h.given f x hf

/-- The record that a well-formed draft becomes is well formed, with one more bracket. -/
theorem IsWellFormed.finish (h : d.IsWellFormed n) :
    (ValueType.record t).IsWellFormed (n + 1) d.finish := by
  have hother {m : String × Json} (hm : m ∈ t.others d.finish) : m ∈ d.other := by
    rcases d.others_finish with hnil | heq
    · exact (List.not_mem_nil (hnil ▸ hm)).elim
    · exact heq ▸ hm
  constructor
  · intro o ho
    rcases RecordType.holds_of_mem_optionsIn ho with ⟨f, hf⟩ | ⟨rfl, hkept⟩
    · rw [holds_finish] at hf
      exact (h.value f).isMap o hf
    · have hmembers : o.other = d.other := hkept
      refine ⟨?_, hmembers ▸ h.notMem_spellings⟩
      rw [hmembers]
      exact (Json.isKept_object h.other).isOrdered
  · intro hfloor
    refine RecordType.depth_toJson_le_iff.mpr ⟨fun f _ json hjson => ?_, fun m hm => ?_⟩
    · rw [RecordType.written?, holds_finish] at hjson
      have hf := t.floor_spec_le f
      exact (h.value f).depth_le (by omega) json hjson
    · exact (h.other.isKept m (hother hm)).depth_le

end Draft

namespace Reader

variable {t : RecordType} {n : Nat}

structure Inside.IsWellFormed (n : Nat) (inside : Inside) : Prop where
  json : inside.json.Yields (Json.IsKept n)
  value : ∀ v, (inside.value v).Yields (v.IsWellFormed n)

theorem yields_fieldValue {value : (v : ValueType) → Reader v.Value}
    (hvalue : ∀ v, (value v).Yields (v.IsWellFormed n)) (whenEmpty : Bool) (type : FieldType) :
    (fieldValue value type).Yields (type.IsWellFormed n whenEmpty) := by
  cases type with
  | optional v =>
    refine yields_then fun first => ?_
    split
    · exact yields_then fun _ => yields_pure (FieldType.isWellFormed_absent (.optional v))
    · exact yields_bind (hvalue v) fun x hx => yields_pure (FieldType.isWellFormed_some hx)
  | repeated v =>
    intro input xs rest hrun
    exact FieldType.isWellFormed_repeated (hvalue (.list v) input xs rest hrun)

variable {inside : Inside} {d : Draft t}

/-- A member that can be read leaves a well-formed draft well formed. -/
theorem yields_member (hinside : inside.IsWellFormed n) (hd : d.IsWellFormed n) :
    (member inside d).Yields (Draft.IsWellFormed n) := by
  refine yields_then fun k => ?_
  cases hk : t.field? k with
  | some f =>
    dsimp only
    split
    · exact yields_then fun _ => yields_then fun _ => yields_fail _
    · exact yields_then fun _ => yields_bind (yields_fieldValue hinside.value _ _) fun x hx =>
        yields_pure (hd.give hx)
  | none =>
    dsimp only
    refine yields_then fun _ => ?_
    split
    · exact yields_bind hinside.json fun v hv =>
        yields_pure (hd.keep (RecordType.field?_eq_none_iff.mp hk) hv)
    · exact yields_then fun _ => yields_pure hd

theorem yields_elements (hinside : inside.IsWellFormed n) (isFirst : Bool) (fields : List t.Field)
    (hd : d.IsWellFormed n) : (elements inside isFirst fields d).Yields (Draft.IsWellFormed n) := by
  induction fields generalizing isFirst d with
  | nil => exact yields_then fun _ => yields_pure hd
  | cons f fields ih =>
    refine yields_then fun b => ?_
    cases b with
    | none => exact yields_fail .endInList
    | some b =>
      change Reader.Yields (if b = Ascii.closeBracket then _ else _) _
      split
      · exact yields_then fun _ => yields_pure hd
      · exact yields_then fun _ => yields_bind (yields_fieldValue hinside.value _ _) fun x hx =>
          ih false (hd.give hx)

/-- What may be inside brackets is well formed with one bracket less. -/
def IsWellFormedInside (n : Nat) (inside : Option Inside) : Prop :=
  ∀ inner, inside = some inner → ∃ m, n = m + 1 ∧ inner.IsWellFormed m

theorem yields_record {inside : Option Inside} (hinside : IsWellFormedInside n inside)
    (t : RecordType) : (record inside t).Yields ((ValueType.record t).IsWellFormed n) := by
  refine yields_then fun first => ?_
  match first with
  | some .object =>
    refine yields_descend fun inner hsome => ?_
    obtain ⟨m, rfl, hinner⟩ := hinside inner hsome
    exact yields_bind (Bracket.yields_read (fun d => yields_member hinner)
      (Draft.isWellFormed_empty m t)) fun d hd => yields_pure hd.finish
  | some .list =>
    change Reader.Yields (if t.isOpen = true then _ else _) _
    split
    · exact yields_mismatch _ _
    · refine yields_descend fun inner hsome => ?_
      obtain ⟨m, rfl, hinner⟩ := hinside inner hsome
      exact yields_bind (yields_elements hinner true t.fields (Draft.isWellFormed_empty m t))
        fun d hd => yields_pure hd.finish
  | none | some .null | some .true | some .false | some .number | some .string | some .other =>
    exact yields_mismatch _ _

theorem yields_list {inside : Option Inside} (hinside : IsWellFormedInside n inside)
    (v : ValueType) : (list inside v).Yields ((ValueType.list v).IsWellFormed n) := by
  refine yields_then fun first => ?_
  match first with
  | some .list =>
    refine yields_descend fun inner hsome => ?_
    obtain ⟨m, rfl, hinner⟩ := hinside inner hsome
    intro input xs rest hrun
    exact ValueType.isWellFormed_list (Bracket.yields_readList (hinner.value v) input xs rest hrun)
  | none | some .null | some .true | some .false | some .number | some .string | some .object
  | some .other =>
    exact yields_mismatch _ _

theorem yields_valueWith {inside : Option Inside} (hinside : IsWellFormedInside n inside)
    (v : ValueType) : (valueWith inside v).Yields (v.IsWellFormed n) := by
  cases v with
  | string | int32 =>
    exact fun _ _ _ _ => ⟨fun o ho => (List.not_mem_nil ho).elim, fun _ => Nat.zero_le n⟩
  | record t => exact yields_record hinside t
  | list v => exact yields_list hinside v

/-- Every value that is read is well formed. -/
theorem yields_value (n : Nat) (v : ValueType) : (value n v).Yields (v.IsWellFormed n) := by
  -- on the allowance; the values between brackets are read with one less
  induction n generalizing v with
  | zero =>
    have hnone : IsWellFormedInside 0 none := fun inner hsome => nomatch hsome
    exact yields_valueWith hnone v
  | succ n ih =>
    refine yields_valueWith (fun inner hsome => ⟨n, rfl, ?_⟩) v
    exact Option.some.inj hsome ▸ ⟨yields_kept n, ih⟩

theorem yields_whole (t : RecordType) :
    (whole t).Yields ((ValueType.record t).IsWellFormed maxDepth) :=
  yields_bind (yields_value maxDepth (.record t)) fun _ hr =>
    yields_then fun _ => yields_pure hr

end Reader

namespace RecordType

theorem isWellFormed_of_read {t : RecordType} {text : String} {r : t.Value}
    (h : t.read text = .ok r) : (ValueType.record t).IsWellFormed Reader.maxDepth r := by
  rw [read, readBytes] at h
  split at h
  · rename_i r' rest hrun
    cases h
    exact Reader.yields_whole t _ r rest hrun
  · cases h

/-- Every text that is accepted yields a record whose options are maps and which is written
no deeper than what can be read. If it holds no fractional number, the text that is written
for it is accepted and yields the same record. -/
theorem isMap_and_read_write_of_read {t : RecordType} {text : String} {r : t.Value}
    (h : t.read text = .ok r) :
    (∀ o ∈ t.optionsIn r, o.IsMap) ∧ Text.nesting (t.write r) ≤ 127 ∧
      ((∀ o ∈ t.optionsIn r, o.IsWhole) → t.read (t.write r) = .ok r) := by
  obtain ⟨hmap, hdepth⟩ := isWellFormed_of_read h
  -- what the writer may add on its own is far below what can be read
  have hfloor : (ValueType.record t).floor ≤ Reader.maxDepth := by cases t <;> decide
  have hnesting : Text.nesting (t.write r) ≤ 127 := by
    rw [write, Json.nesting_render]
    exact hdepth hfloor
  refine ⟨hmap, hnesting, fun hwhole => ?_⟩
  exact read_write_of_le (fun o ho => ⟨hmap o ho, hwhole o ho⟩) hnesting

/-- A file in list form, and one whose options come in any order and one of them twice. -/
theorem isMap_and_read_write_of_read_twoFiles :
    let text := "\x7b\"file\":[[\"a\",null,[\"b\"]],\x7b\"options\":\x7b\"zip\":true," ++
      "\"java_package\":\"p\",\"alt\":[\"x\"],\"zip\":null\x7d\x7d]\x7d"
    let options : FileOptions :=
      { javaPackage := some "p", other := [("alt", .list [.string "x"]), ("zip", .null)] }
    let set : FileSet :=
      { files := [{ name := some "a", dependencies := ["b"] }, { options := some options }] }
    fileSet.read text = .ok set ∧ fileSet.read (fileSet.write set) = .ok set := by
  intro text options set
  have hrun : (Reader.whole fileSet).run (Text.bytes text) = .done set [] := by decide +kernel
  have hread : fileSet.read text = .ok set := by rw [read, readBytes, hrun]
  have hwhole : ∀ o ∈ fileSet.optionsIn set, o.IsWhole :=
    fun o ho => List.mem_singleton.mp ho ▸ rfl
  exact ⟨hread, (isMap_and_read_write_of_read hread).2.2 hwhole⟩

end RecordType

end SchemaSpans
