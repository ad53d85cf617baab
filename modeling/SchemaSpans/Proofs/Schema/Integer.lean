import SchemaSpans.Proofs.Grammar.Integer
import SchemaSpans.Proofs.Schema.Options
import SchemaSpans.Proofs.Schema.Place

/-! Integers in records. Where a 32-bit integer is called for, a literal is accepted exactly if it
is such an integer, and it is this integer that is stored. Among the other members of options every
literal is kept, unless it is too large; an integer of 64 bits is kept as it is and written back
digit for digit, and nothing else becomes an integer. -/

namespace SchemaSpans

open Reader

/-- Only a whole number in range becomes a 32-bit integer, and nothing of it is cut off. -/
theorem Reader.toInt32_eq_ok_iff {x : Number} {i : Int32} : toInt32 x = .ok i ↔
    ∃ w : Whole, x = .whole w ∧ (-2 ^ 31 ≤ w.val ∧ w.val ≤ 2 ^ 31 - 1) ∧ i.toInt = w.val := by
  cases x with
  | fractional x =>
    constructor
    · intro h
      cases h
    · rintro ⟨w, hw, -⟩
      cases hw
  | whole w =>
    rw [toInt32]
    constructor
    · intro h
      split at h
      · rename_i hrange
        cases h
        have hvalue : (Int32.ofInt w.val).toInt = w.val :=
          Int32.toInt_ofInt_of_le hrange.1 hrange.2
        exact ⟨w, rfl, ⟨by omega, by omega⟩, hvalue⟩
      · cases h
    · rintro ⟨w', hw, hrange, hi⟩
      cases hw
      have hlower : -0x80000000 ≤ w.val := by omega
      have hupper : w.val < 0x80000000 := by omega
      rw [if_pos ⟨hlower, hupper⟩, ← hi, Int32.ofInt_toInt]

namespace NumberText

variable {n : NumberText}

/-- A literal that is an integer in some bounds is one in any wider bounds. -/
theorem IsIntegerIn.mono {lower upper lower' upper' : Int} (h : n.IsIntegerIn lower upper)
    (hlower : lower' ≤ lower) (hupper : upper ≤ upper') : n.IsIntegerIn lower' upper' :=
  { h with
    lower_le := hlower.trans h.lower_le
    le_upper := h.le_upper.trans hupper }

/-- A literal stands for a 32-bit integer exactly if it is one, and then for this integer. -/
theorem int32?_eq_some_iff {i : Int32} : n.int32? = some i ↔
    n.IsIntegerIn (-2 ^ 31) (2 ^ 31 - 1) ∧ i.toInt = n.integer := by
  have hint32 : n.int32? = some i ↔ ∃ x, n.number? = some x ∧ toInt32 x = .ok i := by
    rw [int32?, Option.bind_eq_some_iff]
    refine exists_congr fun x => and_congr_right fun _ => ?_
    cases toInt32 x <;> simp [Except.toOption]
  rw [hint32]
  constructor
  · rintro ⟨x, hx, hi⟩
    obtain ⟨w, rfl, hrange, hvalue⟩ := toInt32_eq_ok_iff.mp hi
    obtain ⟨h, hw⟩ := number?_eq_whole_iff.mp hx
    have hinteger : i.toInt = n.integer := hvalue.trans hw
    exact ⟨{ h with lower_le := hw ▸ hrange.1, le_upper := hw ▸ hrange.2 }, hinteger⟩
  · rintro ⟨h, hi⟩
    -- 64 bits hold the integer before it is cut down to 32
    obtain ⟨w, hw⟩ := exists_number?_of_isIntegerIn (h.mono (by decide) (by decide))
    have hvalue : w.val = n.integer := (number?_eq_whole_iff.mp hw).2
    refine ⟨.whole w, hw, toInt32_eq_ok_iff.mpr ⟨w, rfl, ?_, hi.trans hvalue.symm⟩⟩
    exact hvalue ▸ ⟨h.lower_le, h.le_upper⟩

end NumberText

theorem JsonTree.value?_int32_number (allowance : Nat) (n : NumberText) :
    value? allowance .int32 (number n) = n.int32? := by
  cases allowance <;> rfl

namespace Reader

variable {n : NumberText} {w rest : Input}

theorem run_value_int32 (hw : Spaced (JsonTree.number n).tokens w) (hrest : n.EndsBefore rest)
    {allowance : Nat} {i : Int32} {rest' : Input} :
    (value allowance .int32).run (w ++ rest) = .done i rest' ↔
      rest' = rest ∧ n.IsIntegerIn (-2 ^ 31) (2 ^ 31 - 1) ∧ i.toInt = n.integer := by
  have hvalue := interprets_value allowance .int32 (JsonTree.number n) w rest hw hrest
  rw [JsonTree.value?_int32_number] at hvalue
  rw [← accept?_eq_some_iff, hvalue, Option.map_eq_some_iff, ← NumberText.int32?_eq_some_iff]
  constructor
  · rintro ⟨j, hj, heq⟩
    obtain ⟨rfl, rfl⟩ := Prod.mk.inj heq
    exact ⟨rfl, hj⟩
  · rintro ⟨rfl, hi⟩
    exact ⟨i, hi, rfl⟩

/-- A literal for a field that may be absent is read as a value is. -/
theorem run_fieldValue_int32 (hw : Spaced (JsonTree.number n).tokens w) (hrest : n.EndsBefore rest)
    {allowance : Nat} {given : Option Int32} {rest' : Input} :
    (fieldValue (value allowance) (.optional .int32)).run (w ++ rest) = .done given rest' ↔
      rest' = rest ∧ n.IsIntegerIn (-2 ^ 31) (2 ^ 31 - 1) ∧
        given.map Int32.toInt = some n.integer := by
  have hfield := interprets_fieldValue (interprets_value allowance) (.optional .int32)
    (JsonTree.number n) w rest hw hrest
  have hgiven : JsonTree.fieldValue? (fun v => JsonTree.value? allowance v) (.optional .int32)
      (JsonTree.number n) = n.int32?.map some :=
    congrArg (Option.map some) (JsonTree.value?_int32_number allowance n)
  rw [← accept?_eq_some_iff, hfield, hgiven, Option.map_map, Option.map_eq_some_iff]
  constructor
  · rintro ⟨i, hi, heq⟩
    obtain ⟨rfl, rfl⟩ := Prod.mk.inj heq
    obtain ⟨h, hvalue⟩ := NumberText.int32?_eq_some_iff.mp hi
    exact ⟨rfl, h, congrArg some hvalue⟩
  · rintro ⟨rfl, h, hmap⟩
    obtain ⟨i, rfl, hi⟩ := Option.map_eq_some_iff.mp hmap
    exact ⟨i, NumberText.int32?_eq_some_iff.mpr ⟨h, hi⟩, rfl⟩

theorem run_start_number (hw : Spaced (JsonTree.number n).tokens w) (rest : Input) :
    start.run (w ++ rest) = .done (some .number) (n.bytes ++ rest) := by
  obtain ⟨c, more, hbytes, hstart⟩ := JsonTree.exists_numberBytes_eq_cons n
  have htokens : (JsonTree.number n).tokens = [c :: more] := by rw [JsonTree.tokens, hbytes]
  have hblank : Ascii.isBlank c = false := Start.isBlank_eq_false (by rw [hstart]; decide)
  rw [htokens] at hw
  obtain ⟨v, hv, hdrop⟩ := hw.dropWhile_append hblank rest
  cases hv
  apply accept?_eq_some_iff.mp
  rw [accept?_start, hdrop, List.head?_cons, Option.map_some, hstart, hbytes]
  rfl

/-- A literal is kept as what it is, or it is no integer of 64 bits and too large. -/
theorem run_kept_number (hw : Spaced (JsonTree.number n).tokens w) (hrest : n.EndsBefore rest)
    (allowance : Nat) :
    (∃ x, n.Keeps x ∧ (kept allowance).run (w ++ rest) = .done (.number x) rest) ∨
      (¬ n.IsIntegerIn (-2 ^ 63) (2 ^ 64 - 1) ∧ ∃ unread,
        (kept allowance).run (w ++ rest) = .stopped .numberTooLarge unread) := by
  have hkept : (kept allowance).run (w ++ rest) =
      (number >>= fun x => pure (Json.number x)).run (n.bytes ++ rest) := by
    cases allowance <;>
    · rw [kept, keptWith, run_bind, run_start_number hw rest]
  have hread := is_map (run_number n hrest) Json.number
  rw [← hkept] at hread
  cases hx : n.number? with
  | some x =>
    rw [hx] at hread
    exact Or.inl ⟨x, NumberText.keeps_of_number? hx, hread⟩
  | none =>
    rw [hx] at hread
    refine Or.inr ⟨fun h => ?_, hread⟩
    obtain ⟨w, hw⟩ := NumberText.exists_number?_of_isIntegerIn h
    rw [hx] at hw
    cases hw

end Reader

namespace RecordType

/-- What stands behind a key that names no field is one of the other members. -/
theorem lookup_of_notMem {t : RecordType} {k : String} (hk : k ∉ t.spellings) (r : t.Value) :
    (t.fields.flatMap (t.member r) ++ t.others r).lookup k = (t.others r).lookup k := by
  have hfields : (t.fields.flatMap (t.member r)).lookup k = none := by
    rw [List.lookup_eq_none_iff]
    intro m hm
    obtain ⟨f, -, hm⟩ := List.mem_flatMap.mp hm
    rw [fst_of_mem_member hm, bne_iff_ne]
    rintro rfl
    have hnone := field?_eq_none_iff.mpr hk
    rw [field?_name] at hnone
    cases hnone
  rw [List.lookup_append, hfields, Option.none_or]

open JsonTree in
/-- What stands at a place for a 32-bit integer in an accepted text is such an integer, and the
record holds it there. -/
theorem exists_value?_of_stands_number {t : RecordType} {text : String} {x : JsonTree}
    {n : NumberText} (hx : x.IsLayout text) {p : Place .int32 (.record t)}
    (hp : p.Stands x (number n)) {r : t.Value} (hr : t.read text = .ok r) :
    n.IsIntegerIn (-2 ^ 31) (2 ^ 31 - 1) ∧ ∃ i, p.value? r = some i ∧ i.toInt = n.integer := by
  have hvalue := (read_eq_ok_iff hx).mp hr
  obtain ⟨m, i, hi, hplace⟩ := exists_value?_of_stands hp nofun hvalue
  rw [value?_int32_number] at hi
  obtain ⟨hrange, hinteger⟩ := NumberText.int32?_eq_some_iff.mp hi
  exact ⟨hrange, i, hplace, hinteger⟩

end RecordType

namespace FileOptions

open JsonTree

variable {ms : List (QuotedText × JsonTree)} {o : FileOptions}

/-- What is kept of a literal is found on the way to it, in the options and in what is written for
them. -/
theorem Collects.exists_reach? (h : o.Collects ms) {way : List JsonStep} {n : NumberText}
    (hway : (object (remaining ms)).LeadsTo way (number n)) :
    ∃ x, n.Keeps x ∧ (Json.object o.other).reach? way = some (.number x) ∧
      o.toJson.reach? way = some (.number x) := by
  have hmeans : Means (object (remaining ms)) (.object o.other) :=
    .object h.other.ascending h.other.mem_keys_iff h.other.means_of_isLast
  obtain ⟨u, hreach, hu⟩ := exists_reach?_of_leadsTo hway hmeans
  cases hu with
  | @number _ x hx =>
    refine ⟨x, NumberText.keeps_of_number? hx, hreach, ?_⟩
    -- in what is written the fields come first, but the way begins with a key that names none
    obtain ⟨k, more, y, rfl, hlast⟩ := hway.exists_isLast nofun
    have hother : k ∉ RecordType.options.spellings := by
      obtain ⟨before, key, after, heq, hkey, -⟩ := hlast
      have hmem : (key, y) ∈ remaining ms := heq ▸ List.mem_append_right before List.mem_cons_self
      obtain ⟨l, hl, hspelling⟩ := (Option.any_eq_true _ _).mp (List.mem_filter.mp hmem).2
      rw [hkey] at hl
      exact Option.some.inj hl ▸ of_decide_eq_true hspelling
    have hjson : o.toJson = .object (RecordType.options.fields.flatMap
        (RecordType.options.member o) ++ RecordType.options.others o) :=
      RecordType.toJson_eq .options o
    rw [hjson, Json.reach?, RecordType.lookup_of_notMem hother]
    exact hreach

end FileOptions

namespace RecordType

open JsonTree

/-- No literal becomes an integer other than the one it names. A reader of 32-bit integers accepts
a literal exactly if it is one, and so does every place in a text that calls for one. Inside options
a literal is kept as what it is, or else it is too large; and what is kept of it is written out in
the place where it stood. -/
theorem integers_read_exactly :
    (∀ (n : NumberText) (w rest : Input), Spaced (number n).tokens w → n.EndsBefore rest →
      ∀ (allowance : Nat) (rest' : Input),
        (∀ i : Int32, (value allowance .int32).run (w ++ rest) = .done i rest' ↔
          rest' = rest ∧ n.IsIntegerIn (-2 ^ 31) (2 ^ 31 - 1) ∧ i.toInt = n.integer) ∧
        ∀ given : Option Int32,
          (fieldValue (value allowance) (.optional .int32)).run (w ++ rest) = .done given rest' ↔
            rest' = rest ∧ n.IsIntegerIn (-2 ^ 31) (2 ^ 31 - 1) ∧
              given.map Int32.toInt = some n.integer) ∧
    (∀ (t : RecordType) (text : String) (x : JsonTree) (p : Place .int32 (.record t))
      (n : NumberText), x.IsLayout text → p.Stands x (number n) →
        (∀ r, t.read text = .ok r → n.IsIntegerIn (-2 ^ 31) (2 ^ 31 - 1) ∧
          ∃ i, p.value? r = some i ∧ i.toInt = n.integer) ∧
        (¬ n.IsIntegerIn (-2 ^ 31) (2 ^ 31 - 1) → ∃ fault, t.read text = .error fault)) ∧
    (∀ (n : NumberText) (w rest : Input), Spaced (number n).tokens w → n.EndsBefore rest →
      ∀ allowance : Nat,
        (∃ x, n.Keeps x ∧ (kept allowance).run (w ++ rest) = .done (.number x) rest) ∨
          (¬ n.IsIntegerIn (-2 ^ 63) (2 ^ 64 - 1) ∧ ∃ unread,
            (kept allowance).run (w ++ rest) = .stopped .numberTooLarge unread)) ∧
    ∀ (t : RecordType) (text : String) (x : JsonTree) (p : Place (.record .options) (.record t))
      (ms : List (QuotedText × JsonTree)) (way : List JsonStep) (n : NumberText),
      x.IsLayout text → p.Stands x (object ms) →
        (object (FileOptions.remaining ms)).LeadsTo way (number n) →
          ∀ r, t.read text = .ok r → ∃ (o : FileOptions) (y : Number), p.value? r = some o ∧
            n.Keeps y ∧ (Json.object o.other).reach? way = some (.number y) ∧
            (t.toJson r).reach? (p.way ++ way) = some (.number y) ∧
            Text.bytes (Json.number y).render <:+: Text.bytes (t.write r) := by
  refine ⟨fun n w rest hw hrest allowance rest' => ?_, fun t text x p n hx hp => ?_,
    fun n w rest hw hrest => run_kept_number hw hrest, ?_⟩
  · exact ⟨fun i => run_value_int32 hw hrest, fun given => run_fieldValue_int32 hw hrest⟩
  · refine ⟨fun r => exists_value?_of_stands_number hx hp, fun hrange => ?_⟩
    apply exists_fault_of_forall_ne
    exact fun r hread => hrange (exists_value?_of_stands_number hx hp hread).1
  · intro t text x p ms way n hx hp hway r hr
    have hvalue := (read_eq_ok_iff hx).mp hr
    obtain ⟨m, o, ho, hplace⟩ := exists_value?_of_stands hp nofun hvalue
    cases m with
    | zero => cases ho
    | succ m =>
      obtain ⟨d, hd, rfl⟩ := Option.map_eq_some_iff.mp ho
      have hcollects := FileOptions.collects_of_foldlM (FileOptions.string?_senseOf m)
        (fun _ _ => means_of_kept?) hd
      obtain ⟨y, hkeeps, hother, hjson⟩ := hcollects.exists_reach? hway
      -- in the whole text the way to the options comes first
      have htoJson : (t.toJson r).reach? p.way = some d.finish.toJson :=
        p.reach?_toJson (fun _ h => ValueType.noConfusion h) hplace
      have hreach : (t.toJson r).reach? (p.way ++ way) = some (.number y) := by
        rw [Json.reach?_append, htoJson, Option.bind_some, hjson]
      refine ⟨d.finish, y, hplace, hkeeps, hother, hreach, ?_⟩
      rw [write, Json.bytes_render, Json.bytes_render]
      exact Json.bytes_infix_of_reach? hreach

/-- The least integer of a path, the first number too large for a field, and the greatest integer
that options keep. -/
theorem integers_read_exactly_bounds :
    let least : NumberText := ⟨true, ⟨2, [1, 4, 7, 4, 8, 3, 6, 4, 8]⟩, nofun, none, none⟩
    let large : NumberText := ⟨false, ⟨2, [1, 4, 7, 4, 8, 3, 6, 4, 8]⟩, nofun, none, none⟩
    let greatest : NumberText :=
      ⟨false, ⟨1, [8, 4, 4, 6, 7, 4, 4, 0, 7, 3, 7, 0, 9, 5, 5, 1, 6, 1, 5]⟩, nofun, none, none⟩
    let path : Place .int32 (.record location) := .field LocationField.path (.item 0 .here)
    let inFile : Place (.record options) (.record file) := .field FileField.options .here
    let o : FileOptions :=
      { other := [("limits", .list [.number (.whole ⟨2 ^ 64 - 1, by decide, by decide⟩)])] }
    (∃ i, path.value? { path := [-2147483648], span := [] } = some i ∧ i.toInt = least.integer) ∧
      (∃ fault, field.read "\x7b\"number\":2147483648\x7d" = .error fault) ∧
      (∀ i rest, (value 0 .int32).run large.bytes ≠ .done i rest) ∧
      (∃ x, greatest.Keeps x ∧ (kept 0).run greatest.bytes = .done (.number x) []) ∧
      ∃ o' y, inFile.value? { options := some o } = some o' ∧ greatest.Keeps y ∧
        (Json.object o'.other).reach? [.member "limits", .item 0] = some (.number y) := by
  intro least large greatest path inFile o
  let key (s : String) (h : Quoting.ArePlain (Text.bytes s)) : QuotedText :=
    .plain (Text.bytes s) h
  obtain ⟨hvalue, hplaces, hjson, hoptions⟩ := integers_read_exactly
  -- what the readers make of a literal that is all there is to read
  have hread (n : NumberText) {i : Int32} {rest : Input}
      (h : (value 0 .int32).run n.bytes = .done i rest) : n.IsIntegerIn (-2 ^ 31) (2 ^ 31 - 1) := by
    have hn := (hvalue n n.bytes [] (.singleton n.bytes) n.endsBefore_nil 0 rest).1 i
    rw [List.append_nil] at hn
    exact (hn.mp h).2.1
  have hkept (n : NumberText) (h : n.IsIntegerIn (-2 ^ 63) (2 ^ 64 - 1)) :
      ∃ x, n.Keeps x ∧ (kept 0).run n.bytes = .done (.number x) [] := by
    have hn := hjson n n.bytes [] (.singleton n.bytes) n.endsBefore_nil 0
    rw [List.append_nil] at hn
    exact hn.resolve_right fun hout => hout.1 h
  have hnot : ¬ large.IsIntegerIn (-2 ^ 31) (2 ^ 31 - 1) :=
    fun h => absurd h.le_upper (by decide +kernel)
  have hin : greatest.IsIntegerIn (-2 ^ 63) (2 ^ 64 - 1) :=
    ⟨rfl, rfl, by decide, by decide +kernel, by decide +kernel⟩
  refine ⟨?_, ?_, ?_, ?_, ?_⟩
  · have hlocation : location.read "\x7b\"path\":[-2147483648],\"span\":[]\x7d" =
        .ok { path := [-2147483648], span := [] } := read_of_run (by decide +kernel)
    exact ((hplaces location _
      (object [(key "path" (by decide), list [number least]), (key "span" (by decide), list [])])
      path least (isLayout_of_flatten (by decide +kernel))
      (.member (List.mem_cons_self) (by decide +kernel) (.item rfl (.here _)))).1 _ hlocation).2
  · exact (hplaces field _ (object [(key "number" (by decide), number large)])
      (.field FieldField.number .here) large (isLayout_of_flatten (by decide +kernel))
      (.member (List.mem_singleton_self _) (by decide +kernel) (.here _))).2 hnot
  · exact fun i rest hrun => hnot (hread large hrun)
  · exact hkept greatest hin
  · have hfile : file.read "\x7b\"options\":\x7b\"limits\":[18446744073709551615]\x7d\x7d" =
        .ok { options := some o } := read_of_run (by decide +kernel)
    let limits : QuotedText × JsonTree := (key "limits" (by decide), list [number greatest])
    obtain ⟨o', y, ho', hy, hreach, -⟩ := hoptions file _
      (object [(key "options" (by decide), object [limits])]) inFile [limits]
      [.member "limits", .item 0] greatest (isLayout_of_flatten (by decide +kernel))
      (.member (List.mem_singleton_self _) (by decide +kernel) (.here _))
      (.member (x := list [number greatest])
        ⟨[], limits.1, [], rfl, by decide +kernel, nofun⟩ (.item rfl (.here _))) _ hfile
    exact ⟨o', y, ho', hy, hreach⟩

end RecordType

end SchemaSpans
