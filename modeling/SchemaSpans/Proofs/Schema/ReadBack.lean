import SchemaSpans.Schema.Text
import SchemaSpans.Proofs.Json.Nesting
import SchemaSpans.Proofs.Reader.Kept
import SchemaSpans.Proofs.Schema.Table

/-! Records are read back from what is written for them. The reader of a record meets the
members in the order in which they are written, so each of them is new to the draft and
none is in the way of another; what is left out is what a draft has anyway. -/

namespace SchemaSpans

/-- Options whose other members form a map: keys ascend, here and inside the values, and
no key is a spelling of an option that has a field of its own. -/
structure FileOptions.IsMap (o : FileOptions) : Prop where
  isOrdered : (Json.object o.other).IsOrdered
  notMem_spellings : ∀ k ∈ Members.keys o.other, k ∉ RecordType.options.spellings

/-- Options without fractional numbers. -/
def FileOptions.IsWhole (o : FileOptions) : Prop :=
  (Json.object o.other).IsWhole

namespace RecordType

theorem isOpen_of_others_ne_nil {t : RecordType} {r : t.Value} (h : t.others r ≠ []) :
    t.isOpen = true := by
  cases t with
  | options => rfl
  | fileSet | file | message | field | sourceInfo | location => exact absurd rfl h

/-- What is known of the options inside a record is known of its own other members. -/
theorem isOrdered_others {t : RecordType} {r : t.Value}
    (h : ∀ o ∈ t.optionsIn r, o.IsMap ∧ o.IsWhole) :
    (Json.object (t.others r)).IsOrdered ∧ (Json.object (t.others r)).IsWhole ∧
      ∀ k ∈ Members.keys (t.others r), t.field? k = none := by
  cases t with
  | options =>
    obtain ⟨hmap, hwhole⟩ := h r (List.mem_singleton_self r)
    exact ⟨hmap.isOrdered, hwhole, fun k hk => field?_eq_none_iff.mpr (hmap.notMem_spellings k hk)⟩
  | fileSet | file | message | field | sourceInfo | location =>
    exact ⟨rfl, rfl, fun k hk => (List.not_mem_nil hk).elim⟩

end RecordType

namespace ValueType

theorem isNotFractional_toJson {v : ValueType} (x : v.Value) :
    (v.toJson x).isNotFractional = true := by
  cases v with
  | string | int32 | list => rfl
  | record t =>
    rw [toJson, RecordType.toJson_eq]
    rfl

theorem start_toJson_ne_null {v : ValueType} (x : v.Value) : (v.toJson x).start ≠ .null := by
  cases v with
  | string | int32 | list => exact fun h => Start.noConfusion h
  | record t =>
    rw [toJson, RecordType.toJson_eq]
    exact fun h => Start.noConfusion h

end ValueType

namespace Draft

variable {t : RecordType}

/-- The draft with all those of some fields given that are written for a record. -/
def giveAll (r : t.Value) : List t.Field → Draft t → Draft t
  | [], d => d
  | f :: fs, d =>
    giveAll r fs (if (t.written? r f).isSome then d.give f (t.holds r f) else d)

theorem other_giveAll (r : t.Value) (fs : List t.Field) (d : Draft t) :
    (giveAll r fs d).other = d.other := by
  induction fs generalizing d with
  | nil => rfl
  | cons f fs ih =>
    rw [giveAll, ih]
    split <;> rfl

theorem given_giveAll_of_notMem (r : t.Value) {fs : List t.Field} {f : t.Field} (hf : f ∉ fs)
    (d : Draft t) : (giveAll r fs d).given f = d.given f := by
  induction fs generalizing d with
  | nil => rfl
  | cons g fs ih =>
    obtain ⟨hne, hf⟩ := List.ne_and_not_mem_of_not_mem_cons hf
    rw [giveAll, ih hf]
    split
    · exact given_give_of_ne d (Ne.symm hne) (t.holds r g)
    · rfl

/-- Fields that are given once hold what the record holds, also those that are left out. -/
theorem value_giveAll (r : t.Value) {fs : List t.Field} (hnodup : fs.Nodup) {d : Draft t}
    (hd : ∀ f ∈ fs, d.given f = none) {f : t.Field} (hf : f ∈ fs) :
    (giveAll r fs d).value f = t.holds r f := by
  induction fs generalizing d with
  | nil => exact (List.not_mem_nil hf).elim
  | cons g fs ih =>
    obtain ⟨hg, hnodup⟩ := List.nodup_cons.mp hnodup
    rw [giveAll]
    -- a field is given when its turn comes, and no field behind it changes it again
    rcases List.mem_cons.mp hf with rfl | hf
    · rw [value, given_giveAll_of_notMem r hg]
      split
      · rw [given_give_self]
        rfl
      · rename_i hwritten
        rw [hd f List.mem_cons_self]
        exact (RecordType.holds_of_written?_eq_none (Option.not_isSome_iff_eq_none.mp hwritten)).symm
    · refine ih hnodup ?_ hf
      intro h hh
      have hne : g ≠ h := fun heq => hg (heq ▸ hh)
      split
      · rw [given_give_of_ne d hne]
        exact hd h (List.mem_cons_of_mem g hh)
      · exact hd h (List.mem_cons_of_mem g hh)

end Draft

namespace Reader

theorem reads_string (s : String) : string.Reads (Json.string s).bytes (.ok s) := by
  intro rest hrest
  have hstart := run_start (v := .string s) rfl rest
  simp only [string, run_bind, hstart, Json.start]
  simp only [Json.bytes_string_append, run_next_cons, run_quotedText]
  rfl

theorem reads_int32 (i : Int32) : int32.Reads (Json.ofInt32 i).bytes (.ok i) := by
  have hlower : -0x8000000000000000 ≤ i.toInt := by have := i.le_toInt; omega
  have hupper : i.toInt < 0x10000000000000000 := by have := i.toInt_lt; omega
  have hinRange : toInt32 (.whole ⟨i.toInt, hlower, hupper⟩) = .ok i := by
    rw [toInt32, if_pos ⟨i.le_toInt, i.toInt_lt⟩, Int32.ofInt_toInt]
  intro rest hrest
  have hstart : start.run ((Json.ofInt32 i).bytes ++ rest) =
      .done (some .number) ((Json.ofInt32 i).bytes ++ rest) := run_start rfl rest
  have hnumber : number.run ((Json.ofInt32 i).bytes ++ rest) =
      .done (.whole ⟨i.toInt, hlower, hupper⟩) rest := reads_whole ⟨i.toInt, hlower, hupper⟩ rest hrest
  simp only [int32, run_bind, hstart, hnumber, hinRange]
  rfl

theorem reads_fieldValue {value : (v : ValueType) → Reader v.Value} {n : Nat} {whenEmpty : Bool}
    {type : FieldType} {x : type.Value} {json : Json} (hjson : type.written? whenEmpty x = some json)
    (hvalue : ∀ (v : ValueType) (y : v.Value), (∀ o ∈ v.optionsIn y, o ∈ type.optionsIn x) →
      (value v).Reads (v.toJson y).bytes ((v.toJson y).limited n y)) :
    (fieldValue value type).Reads json.bytes (json.limited n x) := by
  cases type with
  | optional v =>
    obtain ⟨y, hy, rfl⟩ := Option.map_eq_some_iff.mp hjson
    have hoptions : ∀ o ∈ v.optionsIn y, o ∈ (FieldType.optional v).optionsIn x := fun o ho =>
      List.mem_flatMap.mpr ⟨y, Option.mem_toList.mpr hy, ho⟩
    intro rest hrest
    have hstart := run_start (ValueType.isNotFractional_toJson y) rest
    have hnull : ¬ some (v.toJson y).start = some .null := fun h =>
      ValueType.start_toJson_ne_null y (Option.some.inj h)
    have hread := is_map (hvalue v y hoptions rest hrest) some
    rw [Json.map_limited] at hread
    simp only [fieldValue, run_bind, hstart, if_neg hnull]
    exact hy ▸ hread
  | repeated v =>
    rw [FieldType.written?] at hjson
    split at hjson
    · exact absurd hjson.symm (Option.some_ne_none _)
    · have hread := hvalue (.list v) x (fun o ho => ho)
      rw [ValueType.toJson, Option.some.inj hjson] at hread
      exact hread

variable {t : RecordType}

/-- A member for a field that was not given before gives the field. -/
theorem reads_member_field (inside : Inside) {d : Draft t} {f : t.Field} (hf : d.given f = none)
    {json : Json} {n : Nat} {x : t.FieldValue f}
    (hread : (fieldValue inside.value (t.spec f).type).Reads json.bytes (json.limited n x)) :
    (member inside d).Reads (Json.memberBytes ((t.spec f).name, json))
      (json.limited n (d.give f x)) := by
  intro rest hrest
  have hvalue := is_map (hread rest hrest) (d.give f)
  rw [Json.map_limited] at hvalue
  simp only [member, run_bind, run_key_memberBytes, t.field?_name f, hf, Option.isSome_none,
    Bool.false_eq_true, if_false, run_colon]
  exact hvalue

/-- A member that is none of the fields is kept by an open record. -/
theorem reads_member_other (inside : Inside) (d : Draft t) (hopen : t.isOpen = true) {k : String}
    (hk : t.field? k = none) {v : Json} {n : Nat}
    (hread : inside.json.Reads v.bytes (v.limited n v)) :
    (member inside d).Reads (Json.memberBytes (k, v)) (v.limited n (d.keep k v)) := by
  intro rest hrest
  have hvalue := is_map (hread rest hrest) (d.keep k)
  rw [Json.map_limited] at hvalue
  simp only [member, run_bind, run_key_memberBytes, hk, run_colon, hopen, if_true]
  exact hvalue

/-- The members for some fields give these fields, unless one of them is too deep. -/
theorem chain_fields (inside : Inside) (n : Nat) (r : t.Value)
    (hread : ∀ f json, t.written? r f = some json →
      (fieldValue inside.value (t.spec f).type).Reads json.bytes (json.limited n (t.holds r f)))
    {fs : List t.Field} (hnodup : fs.Nodup) {d : Draft t} (hd : ∀ f ∈ fs, d.given f = none)
    {more : List Input} {result : Except Cause (Draft t)}
    (hmore : Bracket.Chain .object (member inside) (d.giveAll r fs) more result) :
    Bracket.Chain .object (member inside) d
      ((fs.flatMap (t.member r)).map Json.memberBytes ++ more)
      (if ∀ m ∈ fs.flatMap (t.member r), m.2.depth ≤ n then result
        else .error .nestedTooDeep) := by
  -- on the fields still to come, none of which the draft has yet
  induction fs generalizing d with
  | nil =>
    rw [List.flatMap_nil, if_pos fun m hm => (List.not_mem_nil hm).elim]
    exact hmore
  | cons f fs ih =>
    obtain ⟨hf, hnodup⟩ := List.nodup_cons.mp hnodup
    rw [Draft.giveAll] at hmore
    rw [List.flatMap_cons]
    cases hjson : t.written? r f with
    | none =>
      rw [hjson] at hmore
      rw [RecordType.member, hjson]
      exact ih hnodup (fun g hg => hd g (List.mem_cons_of_mem f hg)) hmore
    | some json =>
      rw [hjson] at hmore
      rw [RecordType.member, hjson]
      have hmember := reads_member_field inside (hd f List.mem_cons_self) (hread f json hjson)
      have hopens := Bracket.opens_object ((t.spec f).name, json)
      have hnew : ∀ g ∈ fs, (d.give f (t.holds r f)).given g = none := by
        intro g hg
        have hne : f ≠ g := fun heq => hf (heq ▸ hg)
        rw [Draft.given_give_of_ne d hne]
        exact hd g (List.mem_cons_of_mem f hg)
      have hrest := ih hnodup hnew hmore
      simp only [Option.toList_some, List.map_cons, List.map_nil, List.cons_append,
        List.forall_mem_cons]
      by_cases hdepth : json.depth ≤ n
      · rw [Json.limited, if_pos hdepth] at hmember
        simp only [hdepth, true_and]
        exact .step hopens hmember hrest
      · rw [Json.limited, if_neg hdepth] at hmember
        simp only [hdepth, false_and, if_false]
        exact .stop hopens hmember

/-- The other members of an open record are kept in their order. -/
theorem chain_others (inside : Inside) (n : Nat) {d : Draft t} (hd : d.other = [])
    {members : Members} (hopen : members ≠ [] → t.isOpen = true)
    (hascending : Members.Ascending members)
    (hfield : ∀ k ∈ Members.keys members, t.field? k = none)
    (hread : ∀ m ∈ members, inside.json.Reads m.2.bytes (m.2.limited n m.2)) :
    Bracket.Chain .object (member inside) d (members.map Json.memberBytes)
      (if ∀ m ∈ members, m.2.depth ≤ n then .ok { d with other := members }
        else .error .nestedTooDeep) := by
  obtain ⟨given, other⟩ := d
  subst hd
  refine Bracket.chain_of_parts Json.memberBytes (fun m => m.2.depth) n
    (fun done => Draft.mk given done) members (fun m _ => Bracket.opens_object m) ?_
  rintro done ⟨k, v⟩ todo rfl
  have hmem : (k, v) ∈ done ++ (k, v) :: todo := List.mem_append_right done List.mem_cons_self
  have hinsert : Members.insert k v done = done ++ [(k, v)] :=
    Members.insert_eq_append (Members.precedes_of_ascending_append hascending) v
  have hmember := reads_member_other inside (Draft.mk given done)
    (hopen (List.ne_nil_of_mem hmem)) (hfield k (Members.mem_keys.mpr ⟨v, hmem⟩))
    (hread (k, v) hmem)
  rw [Draft.keep, hinsert] at hmember
  exact hmember

/-- Behind the opening brace the members of a record are read, which make up the record. -/
theorem is_readRecord (inside : Inside) (n : Nat) (r : t.Value)
    (hread : ∀ f json, t.written? r f = some json →
      (fieldValue inside.value (t.spec f).type).Reads json.bytes (json.limited n (t.holds r f)))
    (hopen : t.others r ≠ [] → t.isOpen = true) (hascending : Members.Ascending (t.others r))
    (hfield : ∀ k ∈ Members.keys (t.others r), t.field? k = none)
    (hjson : ∀ m ∈ t.others r, inside.json.Reads m.2.bytes (m.2.limited n m.2)) (rest : Input) :
    ((Bracket.object.read (member inside) (Draft.empty t) >>= fun d => pure d.finish).run
      (separated ((t.fields.flatMap (t.member r) ++ t.others r).map Json.memberBytes) ++
        Ascii.closeBrace :: rest)).Is rest ((t.toJson r).limited (n + 1) r) := by
  -- first come the members for the fields, then the others, in one chain
  have hempty : ∀ f ∈ t.fields, (Draft.empty t).given f = none := fun f _ => rfl
  have hchain := chain_fields inside n r hread t.nodup_fields hempty
    (chain_others inside n (Draft.other_giveAll r t.fields (Draft.empty t)) hopen hascending hfield
      hjson)
  have hfinish : Draft.finish { (Draft.empty t).giveAll r t.fields with other := t.others r } = r :=
    Draft.finish_eq (fun f => Draft.value_giveAll r t.nodup_fields hempty (t.mem_fields f)) rfl
  have hall := is_map (Bracket.read_of_chain Bracket.isRegular_object hchain rest) Draft.finish
  rw [← List.map_append] at hall
  rw [RecordType.toJson_eq, Json.limited]
  simp only [Json.depth_object_le_iff, List.forall_mem_append]
  -- the chain stops at the first member that is too deep, be it for a field or another one
  by_cases hfields : ∀ m ∈ t.fields.flatMap (t.member r), m.2.depth ≤ n
  · by_cases hothers : ∀ m ∈ t.others r, m.2.depth ≤ n
    · rw [if_pos hfields, if_pos hothers] at hall
      rw [if_pos ⟨hfields, hothers⟩]
      rw [Except.map, hfinish] at hall
      exact hall
    · rw [if_pos hfields, if_neg hothers] at hall
      rw [if_neg fun h => hothers h.2]
      exact hall
  · rw [if_neg hfields] at hall
    rw [if_neg fun h => hfields h.1]
    exact hall

theorem run_record (inside : Inside) (r : t.Value) (rest : Input) :
    (record (some inside) t).run ((t.toJson r).bytes ++ rest) =
      (Bracket.object.read (member inside) (Draft.empty t) >>= fun d => pure d.finish).run
        (separated ((t.fields.flatMap (t.member r) ++ t.others r).map Json.memberBytes) ++
          Ascii.closeBrace :: rest) := by
  rw [RecordType.toJson_eq, Json.bytes_object, List.cons_append, List.append_assoc]
  rfl

theorem run_list (inside : Inside) (v : ValueType) (xs : List v.Value) (rest : Input) :
    (list (some inside) v).run (((ValueType.list v).toJson xs).bytes ++ rest) =
      (Bracket.list.readList (inside.value v)).run
        (separated (xs.map fun x => (v.toJson x).bytes) ++ Ascii.closeBracket :: rest) := by
  rw [ValueType.toJson, Json.bytes_list, List.cons_append, List.append_assoc, List.map_map]
  rfl

theorem reads_valueWith_none {v : ValueType} {x : v.Value} (hdepth : (v.toJson x).depth ≠ 0) :
    (valueWith none v).Reads (v.toJson x).bytes (.error .nestedTooDeep) := by
  intro rest hrest
  cases v with
  | string | int32 => exact absurd rfl hdepth
  | record t =>
    rw [ValueType.toJson, RecordType.toJson_eq, Json.bytes_object]
    exact ⟨_, rfl⟩
  | list v =>
    rw [ValueType.toJson, Json.bytes_list]
    exact ⟨_, rfl⟩

/-- A value with at most `n` brackets open at once is read back; any other is refused. -/
theorem reads_value (n : Nat) (v : ValueType) (x : v.Value)
    (hoptions : ∀ o ∈ v.optionsIn x, o.IsMap ∧ o.IsWhole) :
    (value n v).Reads (v.toJson x).bytes ((v.toJson x).limited n x) := by
  -- on the allowance, since messages nest to any depth but every level takes brackets
  induction n generalizing v with
  | zero =>
    cases v with
    | string => exact reads_string x
    | int32 => exact reads_int32 x
    | record t =>
      have hdepth : ((ValueType.record t).toJson x).depth ≠ 0 := by
        rw [ValueType.toJson, RecordType.toJson_eq]
        exact Nat.succ_ne_zero _
      rw [Json.limited, if_neg fun h => hdepth (Nat.le_zero.mp h)]
      exact reads_valueWith_none hdepth
    | list v => exact reads_valueWith_none (Nat.succ_ne_zero _)
  | succ n ih =>
    cases v with
    | string => exact reads_string x
    | int32 => exact reads_int32 x
    | record t =>
      intro rest hrest
      obtain ⟨hordered, hwhole, hfield⟩ := RecordType.isOrdered_others hoptions
      obtain ⟨hascending, hordered⟩ := Json.isOrdered_object.mp hordered
      rw [value, valueWith, ValueType.toJson, run_record]
      refine is_readRecord _ n x ?_ RecordType.isOpen_of_others_ne_nil hascending hfield ?_ rest
      · intro f json hjson
        refine reads_fieldValue hjson fun v y hinside => ih v y fun o ho => ?_
        exact hoptions o (RecordType.mem_optionsIn_of_holds (hinside o ho))
      · intro m hm
        exact reads_kept n m.2 (Json.isWhole_object.mp hwhole m hm) (hordered m hm)
    | list v =>
      intro rest hrest
      rw [value, valueWith, run_list]
      refine is_readList (value n v) v.toJson n x (fun y _ => ValueType.isNotFractional_toJson y) ?_ rest
      intro y hy
      exact ih v y fun o ho => hoptions o (List.mem_flatMap.mpr ⟨y, hy, ho⟩)

end Reader

namespace RecordType

/-- A record is read back from its own text; only a bracket too many can stop the reader. -/
theorem run_whole (t : RecordType) {r : t.Value} (h : ∀ o ∈ t.optionsIn r, o.IsMap ∧ o.IsWhole) :
    ((Reader.whole t).run (t.toJson r).bytes).Is [] ((t.toJson r).limited Reader.maxDepth r) := by
  have hread := Reader.reads_value Reader.maxDepth (.record t) r h [] Reader.ends_nil
  rw [List.append_nil, ValueType.toJson] at hread
  rw [Reader.whole, Reader.run_bind]
  rw [Json.limited] at hread ⊢
  split at hread
  · rename_i hdepth
    have hdone : (Reader.value Reader.maxDepth (.record t)).run (t.toJson r).bytes = .done r [] :=
      hread
    rw [hdone, if_pos hdepth]
    rfl
  · rename_i hdepth
    obtain ⟨unread, hstopped⟩ := hread
    rw [hstopped, if_neg hdepth]
    exact ⟨unread, rfl⟩

theorem read_write_of_le {t : RecordType} {r : t.Value}
    (h : ∀ o ∈ t.optionsIn r, o.IsMap ∧ o.IsWhole)
    (hdepth : Text.nesting (t.write r) ≤ Reader.maxDepth) : t.read (t.write r) = .ok r := by
  have hrun := run_whole t h
  rw [write, Json.nesting_render] at hdepth
  rw [Json.limited, if_pos hdepth] at hrun
  have hdone : (Reader.whole t).run (t.toJson r).bytes = .done r [] := hrun
  rw [read, write, Json.bytes_render, readBytes, hdone]

theorem read_write_of_lt {t : RecordType} {r : t.Value}
    (h : ∀ o ∈ t.optionsIn r, o.IsMap ∧ o.IsWhole)
    (hdepth : Reader.maxDepth < Text.nesting (t.write r)) :
    ∃ position, t.read (t.write r) = .error ⟨.nestedTooDeep, position⟩ := by
  have hrun := run_whole t h
  rw [write, Json.nesting_render] at hdepth
  rw [Json.limited, if_neg (Nat.not_le_of_lt hdepth)] at hrun
  obtain ⟨unread, hstopped⟩ := hrun
  rw [read, write, Json.bytes_render, readBytes, hstopped]
  exact ⟨_, rfl⟩

/-- What is written for a record reads as the same record, unless it nests too deeply. -/
theorem read_write (t : RecordType) (r : t.Value)
    (hoptions : ∀ o ∈ t.optionsIn r, o.IsMap ∧ o.IsWhole) :
    (Text.nesting (t.write r) ≤ 127 → t.read (t.write r) = .ok r) ∧
      (127 < Text.nesting (t.write r) → ∃ fault, t.read (t.write r) = .error fault ∧
        fault.message = s!"recursion limit exceeded at {fault.position.describe}") := by
  refine ⟨fun hdepth => read_write_of_le hoptions hdepth, fun hdepth => ?_⟩
  obtain ⟨position, hread⟩ := read_write_of_lt hoptions hdepth
  exact ⟨⟨.nestedTooDeep, position⟩, hread, rfl⟩

end RecordType

namespace Json

/-- Lists inside one another, with `n` brackets open at the innermost place. -/
def nestedLists : Nat → Json
  | 0 => null
  | n + 1 => list [nestedLists n]

theorem depth_nestedLists (n : Nat) : (nestedLists n).depth = n := by
  induction n with
  | zero => rfl
  | succ n ih => rw [nestedLists, depth, depthOfItems, depthOfItems, ih, Nat.max_zero]

theorem everywhere_nestedLists {p : Json → Bool} (hnull : p null = true)
    (hlist : ∀ items, p (list items) = true) (n : Nat) : (nestedLists n).everywhere p = true := by
  induction n with
  | zero => exact hnull
  | succ n ih => exact everywhere_list.mpr ⟨hlist _, fun v hv => List.mem_singleton.mp hv ▸ ih⟩

end Json

def FileOptions.ofNestedLists (n : Nat) : FileOptions :=
  { other := [("lists", .nestedLists n)] }

def FileSet.ofNestedLists (n : Nat) : FileSet :=
  { files := [{ options := some (.ofNestedLists n) }] }

namespace RecordType

theorem nesting_options_ofNestedLists (n : Nat) :
    Text.nesting (options.write (.ofNestedLists n)) = n + 1 := by
  rw [write, Json.nesting_render]
  simp [FileOptions.ofNestedLists, toJson, FileOptions.toJson, FieldSpec.textMember,
    FieldSpec.optionalMember, Json.depth, Json.depthOfMembers, Json.depth_nestedLists]

theorem nesting_fileSet_ofNestedLists (n : Nat) :
    Text.nesting (fileSet.write (.ofNestedLists n)) = n + 4 := by
  rw [write, Json.nesting_render]
  simp [FileSet.ofNestedLists, FileOptions.ofNestedLists, toJson, FileSet.toJson,
    SchemaFile.toJson, FileOptions.toJson, FieldSpec.textMember, FieldSpec.textsMember,
    FieldSpec.optionalMember, FieldSpec.repeatedMember, FileSetField.spec, FileField.spec,
    Json.depth, Json.depthOfItems, Json.depthOfMembers, Json.depth_nestedLists]

theorem isMap_ofNestedLists (n : Nat) :
    (FileOptions.ofNestedLists n).IsMap ∧ (FileOptions.ofNestedLists n).IsWhole := by
  have hkeys : ∀ k ∈ ["lists"], k ∉ options.spellings := by decide
  have hordered := Json.everywhere_nestedLists (p := Json.hasAscendingKeys) rfl (fun _ => rfl) n
  have hwhole := Json.everywhere_nestedLists (p := Json.isNotFractional) rfl (fun _ => rfl) n
  refine ⟨⟨Json.isOrdered_object.mpr ⟨List.pairwise_singleton .., ?_⟩, hkeys⟩,
    Json.isWhole_object.mpr ?_⟩
  · exact fun m hm => List.mem_singleton.mp hm ▸ hordered
  · exact fun m hm => List.mem_singleton.mp hm ▸ hwhole

/-- The set, its file and the options take four of the brackets; lists may take all others. -/
theorem read_write_ofNestedLists :
    fileSet.read (fileSet.write (.ofNestedLists 123)) = .ok (.ofNestedLists 123) ∧
      ∃ fault, fileSet.read (fileSet.write (.ofNestedLists 124)) = .error fault ∧
        fault.message = s!"recursion limit exceeded at {fault.position.describe}" := by
  have hoptions (n : Nat) : ∀ o ∈ fileSet.optionsIn (.ofNestedLists n), o.IsMap ∧ o.IsWhole :=
    fun o ho => List.mem_singleton.mp ho ▸ isMap_ofNestedLists n
  constructor
  · have hdepth : Text.nesting (fileSet.write (.ofNestedLists 123)) = 127 :=
      nesting_fileSet_ofNestedLists 123
    exact (read_write fileSet (.ofNestedLists 123) (hoptions 123)).1 (Nat.le_of_eq hdepth)
  · have hdepth : Text.nesting (fileSet.write (.ofNestedLists 124)) = 128 :=
      nesting_fileSet_ofNestedLists 124
    exact (read_write fileSet (.ofNestedLists 124) (hoptions 124)).2 (Nat.le_of_eq hdepth.symm)

end RecordType

end SchemaSpans
