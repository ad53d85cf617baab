import SchemaSpans.Proofs.Reader.Allowance
import SchemaSpans.Schema.Text

/-! Where a text is refused. The fault names the line and the column of the first byte
that has not been read, and since readers look no further than at this byte, no text
that agrees with the refused one as far as this byte is read in any other way. -/

namespace SchemaSpans

namespace Position

/-- A place counts the lines up to it, and the bytes of the last of them. -/
theorem exists_lines (before : List UInt8) :
    ∃ earlier line, before = earlier ++ line ∧
      (earlier = [] ∨ earlier.getLast? = some Ascii.newline) ∧ Ascii.newline ∉ line ∧
      after before = { line := before.count Ascii.newline + 1, column := line.length } := by
  let notNewline (b : UInt8) : Bool := b ≠ Ascii.newline
  refine ⟨(before.reverse.dropWhile notNewline).reverse,
    (before.reverse.takeWhile notNewline).reverse, ?_, ?_, ?_, ?_⟩
  · rw [← List.reverse_append, List.takeWhile_append_dropWhile, List.reverse_reverse]
  · rw [List.getLast?_reverse, List.reverse_eq_nil_iff]
    cases hdrop : before.reverse.dropWhile notNewline with
    | nil => exact .inl rfl
    | cons b rest =>
      have hhead := List.head?_dropWhile_not notNewline before.reverse
      rw [hdrop] at hhead
      have hb : b = Ascii.newline := Decidable.not_not.mp (of_decide_eq_false hhead)
      exact .inr (congrArg some hb)
  · intro hmem
    have hb := List.all_eq_true.mp List.all_takeWhile _ (List.mem_reverse.mp hmem)
    exact of_decide_eq_true hb rfl
  · rw [after, List.length_reverse]

/-- The place of what follows some bytes is the place behind them. -/
theorem ofOffset_append (before rest : List UInt8) :
    ofOffset (before ++ rest) ((before ++ rest).length - rest.length) = after before := by
  rw [ofOffset, List.length_append, Nat.add_sub_cancel, List.take_left]

end Position

theorem Fault.message_eq (f : Fault) :
    f.message = s!"{f.cause.text} at line {f.position.line} column {f.position.column}" := by
  have hline : " at line " = " at " ++ "line " := by decide
  simp only [message, Position.describe, toString, hline, String.append_assoc]

namespace Reader

variable {t : RecordType} {inside : Inside}

/-- What is read between brackets is local. -/
structure Inside.IsLocal (inside : Inside) : Prop where
  json : inside.json.IsLocal
  value : ∀ v, (inside.value v).IsLocal

theorem isLocal_fieldValue {value : (v : ValueType) → Reader v.Value}
    (h : ∀ v, (value v).IsLocal) (type : FieldType) : (fieldValue value type).IsLocal := by
  cases type with
  | optional v =>
    exact isLocal_bind isLocal_start fun _ => isLocal_ite
      (isLocal_bind (isLocal_letters _) fun _ => isLocal_pure none)
      (isLocal_bind (h v) fun _ => isLocal_pure _)
  | repeated v => exact h (.list v)

theorem isLocal_duplicate {α : Type} (name : String) : (duplicate name : Reader α).IsLocal :=
  isLocal_bind isLocal_blanks fun _ => isLocal_bind (isLocal_skipIf _) fun _ => isLocal_fail _

theorem isLocal_member (h : inside.IsLocal) (d : Draft t) : (member inside d).IsLocal := by
  refine isLocal_bind isLocal_key fun k => ?_
  split
  · refine isLocal_ite (isLocal_duplicate _) ?_
    exact isLocal_bind isLocal_colon fun _ =>
      isLocal_bind (isLocal_fieldValue h.value _) fun _ => isLocal_pure _
  · exact isLocal_bind isLocal_colon fun _ => isLocal_ite
      (isLocal_bind h.json fun _ => isLocal_pure _)
      (isLocal_bind isLocal_skip fun _ => isLocal_pure d)

theorem isLocal_fullListEnd : fullListEnd.IsLocal := by
  refine isLocal_bind isLocal_token fun b => ?_
  match b with
  | none => exact isLocal_fail .endInList
  | some b =>
    refine isLocal_ite (isLocal_bind isLocal_next fun _ => isLocal_pure ()) (isLocal_ite ?_ ?_)
    · exact isLocal_bind isLocal_next fun _ => isLocal_bind isLocal_token fun _ =>
        isLocal_ite (isLocal_reject .trailingComma) (isLocal_reject .trailingText)
    · exact isLocal_reject .trailingText

theorem isLocal_separator (isFirst : Bool) : (separator isFirst).IsLocal :=
  isLocal_ite (isLocal_pure ()) (isLocal_bind (isLocal_skipIf _) fun _ =>
    isLocal_ite (Bracket.isLocal_notEnding _) (isLocal_reject .expectedListEnd))

theorem isLocal_elements (h : inside.IsLocal) (isFirst : Bool) (fields : List t.Field)
    (d : Draft t) : (elements inside isFirst fields d).IsLocal := by
  induction fields generalizing isFirst d with
  | nil => exact isLocal_bind isLocal_fullListEnd fun _ => isLocal_pure d
  | cons f fields ih =>
    refine isLocal_bind isLocal_token fun b => ?_
    match b with
    | none => exact isLocal_fail .endInList
    | some b =>
      refine isLocal_ite (isLocal_bind isLocal_next fun _ => isLocal_pure d) ?_
      exact isLocal_bind (isLocal_separator isFirst) fun _ =>
        isLocal_bind (isLocal_fieldValue h.value _) fun _ => ih false _

theorem isLocal_record {inside : Option Inside} (h : ∀ inner, inside = some inner → inner.IsLocal)
    (t : RecordType) : (record inside t).IsLocal := by
  refine isLocal_bind isLocal_start fun first => ?_
  split
  · refine isLocal_descend fun inner hsome => ?_
    exact isLocal_bind (Bracket.isLocal_read (Bracket.isLocal_notEnding _)
      (isLocal_member (h inner hsome)) _) fun _ => isLocal_pure _
  · refine isLocal_ite (isLocal_mismatch _ _) (isLocal_descend fun inner hsome => ?_)
    exact isLocal_bind (isLocal_elements (h inner hsome) true _ _) fun _ => isLocal_pure _
  · exact isLocal_mismatch _ _

theorem isLocal_list {inside : Option Inside} (h : ∀ inner, inside = some inner → inner.IsLocal)
    (v : ValueType) : (list inside v).IsLocal := by
  refine isLocal_bind isLocal_start fun first => ?_
  split
  · exact isLocal_descend fun inner hsome =>
      Bracket.isLocal_readList (Bracket.isLocal_notEnding _) ((h inner hsome).value v)
  · exact isLocal_mismatch .list _

theorem isLocal_valueWith {inside : Option Inside}
    (h : ∀ inner, inside = some inner → inner.IsLocal) (v : ValueType) :
    (valueWith inside v).IsLocal := by
  cases v with
  | string => exact isLocal_string
  | int32 => exact isLocal_int32
  | record t => exact isLocal_record h t
  | list v => exact isLocal_list h v

theorem isLocal_value (n : Nat) (v : ValueType) : (value n v).IsLocal := by
  -- on the allowance, which goes down with every bracket
  induction n generalizing v with
  | zero => exact isLocal_valueWith (fun _ hsome => nomatch (hsome : none = some _)) v
  | succ n ih =>
    refine isLocal_valueWith (fun inner hsome => ?_) v
    exact Option.some.inj hsome ▸ ⟨isLocal_kept n, ih⟩

theorem isLocal_textEnd : textEnd.IsLocal := by
  refine isLocal_bind isLocal_token fun b => ?_
  match b with
  | none => exact isLocal_pure ()
  | some _ => exact isLocal_reject .trailingText

/-- Whether and why a text is refused is decided by what is read of it. -/
theorem isLocal_whole (t : RecordType) : (whole t).IsLocal :=
  isLocal_bind (isLocal_value maxDepth _) fun _ => isLocal_bind isLocal_textEnd fun _ =>
    isLocal_pure _

end Reader

namespace RecordType

variable {t : RecordType} {text : String} {fault : Fault}

/-- A text is refused behind the bytes of it that have been read. -/
theorem read_eq_error_iff : t.read text = .error fault ↔
    ∃ before rest, Text.bytes text = before ++ rest ∧
      (Reader.whole t).run (Text.bytes text) = .stopped fault.cause rest ∧
      fault.position = .after before := by
  obtain ⟨cause, position⟩ := fault
  rw [read, readBytes]
  have hsuffix := (Reader.whole t).rest_suffix (Text.bytes text)
  cases hrun : (Reader.whole t).run (Text.bytes text) with
  | done r rest => simp only [reduceCtorEq, false_and, and_false, exists_false]
  | stopped cause' rest =>
    rw [hrun] at hsuffix
    obtain ⟨before, hbytes⟩ := hsuffix
    have hplace : faultAt (Text.bytes text) cause' rest =
        { cause := cause', position := .after before } := by
      rw [faultAt, ← hbytes, Outcome.rest, Position.ofOffset_append]
    dsimp only
    rw [hplace]
    constructor
    · rintro ⟨⟩
      exact ⟨before, rest, hbytes.symm, rfl, rfl⟩
    · rintro ⟨before', _, hbytes', ⟨⟩, rfl⟩
      obtain rfl : before = before' := List.append_cancel_right (hbytes.trans hbytes')
      rfl

/-- A text that is refused in front of the byte `b` is refused alike with any bytes behind it. -/
theorem read_eq_error_of_stopped {before rest rest' : Input} {b : UInt8} {other : String}
    (hbytes : Text.bytes text = before ++ b :: rest)
    (hother : Text.bytes other = before ++ b :: rest')
    (hrun : (Reader.whole t).run (Text.bytes text) = .stopped fault.cause (b :: rest))
    (hposition : fault.position = .after before) : t.read other = .error fault := by
  rw [hbytes] at hrun
  have hlocal := Reader.isLocal_whole t before.length before (b :: rest) (b :: rest')
    (Nat.le_refl _) rfl (by rw [hrun]; rfl)
  rw [hrun, Outcome.withRest, ← hother] at hlocal
  exact read_eq_error_iff.mpr ⟨before, b :: rest', hother, hlocal, hposition⟩

/-- A fault names the line and the column of a place in the text, and no other text that agrees
with this one up to that place and in the byte behind it is read in any other way. -/
theorem read_error_names_decisive_byte (h : t.read text = .error fault) :
    ∃ p ≤ (Text.bytes text).length,
      (∃ earlier line, (Text.bytes text).take p = earlier ++ line ∧
        (earlier = [] ∨ earlier.getLast? = some Ascii.newline) ∧ Ascii.newline ∉ line ∧
        fault.position =
          { line := ((Text.bytes text).take p).count Ascii.newline + 1, column := line.length } ∧
        fault.message =
          s!"{fault.cause.text} at line {fault.position.line} column {fault.position.column}") ∧
      (p < (Text.bytes text).length → ∀ other : String,
        (Text.bytes other).take (p + 1) = (Text.bytes text).take (p + 1) →
        t.read other = .error fault) := by
  -- what has been read is the text up to the place of the fault
  obtain ⟨before, rest, hbytes, hrun, hposition⟩ := read_eq_error_iff.mp h
  have hlength : (Text.bytes text).length = before.length + rest.length := by
    rw [hbytes, List.length_append]
  have htake : (Text.bytes text).take before.length = before := by
    rw [hbytes, List.take_left]
  refine ⟨before.length, by omega, ?_, fun hlt other hother => ?_⟩
  · obtain ⟨earlier, line, happend, hearlier, hline, hplace⟩ := Position.exists_lines before
    rw [htake]
    exact ⟨earlier, line, happend, hearlier, hline, hposition.trans hplace, fault.message_eq⟩
  · -- the byte behind that place is the same one in the other text
    rw [hlength] at hlt
    obtain ⟨b, rest, rfl⟩ := List.exists_cons_of_length_pos (l := rest) (by omega)
    have htake' : (Text.bytes text).take (before.length + 1) = before ++ [b] := by
      rw [hbytes, List.take_length_add_append, List.take_succ_cons, List.take_zero]
    have hother' : Text.bytes other =
        before ++ b :: (Text.bytes other).drop (before.length + 1) := by
      have happend := List.take_append_drop (before.length + 1) (Text.bytes other)
      rw [hother, htake', List.append_assoc] at happend
      exact happend.symm
    exact read_eq_error_of_stopped hbytes hother' hrun hposition

/-- Behind the second of two commas nothing can be mended. -/
theorem read_error_names_decisive_byte_comma :
    ∃ fault, location.read "\x7b\"span\":[1,,2]\x7d" = .error fault ∧
      fault.message = "expected value at line 1 column 12" ∧
      location.read "\x7b\"span\":[1,,2" = .error fault ∧
      location.read "\x7b\"span\":[1,,2,\x7b\"span\":null\x7d" = .error fault := by
  let fault : Fault := { cause := .expectedValue, position := { line := 1, column := 12 } }
  have hread : location.read "\x7b\"span\":[1,,2]\x7d" = .error fault :=
    read_eq_error_iff.mpr ⟨Text.bytes "\x7b\"span\":[1,,", Text.bytes "2]\x7d", by decide +kernel,
      by decide +kernel, by decide +kernel⟩
  obtain ⟨p, hp, ⟨earlier, line, hlines, hearlier, -, hposition, -⟩, hother⟩ :=
    read_error_names_decisive_byte hread
  -- the text is one line, so its column is the place itself
  obtain rfl : p = 12 := by
    have hnewline : Ascii.newline ∉ (Text.bytes "\x7b\"span\":[1,,2]\x7d").take p :=
      fun hmem => absurd (List.mem_of_mem_take hmem) (by decide +kernel)
    rw [hlines] at hnewline
    obtain rfl : earlier = [] := hearlier.resolve_right fun hlast =>
      hnewline (List.mem_append_left line (List.mem_of_getLast? hlast))
    have hcolumn : 12 = line.length := congrArg Position.column hposition
    rw [hcolumn, ← List.nil_append line, ← hlines, List.length_take_of_le hp]
  exact ⟨fault, hread, by decide +kernel, hother (by decide +kernel) _ (by decide +kernel),
    hother (by decide +kernel) _ (by decide +kernel)⟩

end RecordType

end SchemaSpans
