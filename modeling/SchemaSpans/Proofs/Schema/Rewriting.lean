import Mathlib.Logic.Relation
import SchemaSpans.Proofs.Grammar.Spelling
import SchemaSpans.Proofs.Schema.Members

/-! How an object can be written differently without making another record. The order of the
members, the spelling of their keys, members that name no field and fields that are `null` are all
left behind when the record is read. -/

namespace SchemaSpans

open JsonTree

/-- A key with one of its characters written in another way. -/
inductive QuotedText.Respells : QuotedText → QuotedText → Prop where
  | intro {c : Char} {u u' : QuotedText} (h : Writes c u) (h' : Writes c u')
      (before after : QuotedText) : Respells (before ++ (u ++ after)) (before ++ (u' ++ after))

theorem QuotedText.Respells.text?_eq {k k' : QuotedText} (h : k.Respells k') :
    k.text? = k'.text? := by
  cases h with
  | intro h h' before after => exact text?_respell h h' before after

/-- A change to the members of an object that leaves the record as it is. -/
inductive Rewrites (t : RecordType) :
    List (QuotedText × JsonTree) → List (QuotedText × JsonTree) → Prop where
  | permute {ms ms' : List (QuotedText × JsonTree)} (h : ms.Perm ms') : Rewrites t ms ms'
  /-- A key that names a field becomes any other that names it. -/
  | rename {f : t.Field} {k k' : QuotedText} {x : JsonTree}
      (hk : (t.spec f).isNamedBy (k, x) = true) (hk' : (t.spec f).isNamedBy (k', x) = true)
      (before after : List (QuotedText × JsonTree)) :
      Rewrites t (before ++ (k, x) :: after) (before ++ (k', x) :: after)
  | respell {k k' : QuotedText} (h : k.Respells k') (x : JsonTree)
      (before after : List (QuotedText × JsonTree)) :
      Rewrites t (before ++ (k, x) :: after) (before ++ (k', x) :: after)
  /-- A member whose key is no spelling of a field may hold anything. -/
  | insertOther {k : QuotedText} {s : String} (hk : k.text? = some s) (hs : s ∉ t.spellings)
      (x : JsonTree) (before after : List (QuotedText × JsonTree)) :
      Rewrites t (before ++ after) (before ++ (k, x) :: after)
  | insertNull {f : t.Field} {v : ValueType} {k : QuotedText}
      (htype : (t.spec f).type = .optional v) (hk : (t.spec f).isNamedBy (k, .null) = true)
      (before after : List (QuotedText × JsonTree))
      (hnew : ∀ m ∈ before ++ after, ¬ (t.spec f).isNamedBy m = true) :
      Rewrites t (before ++ after) (before ++ (k, .null) :: after)
  | removeNull {f : t.Field} {v : ValueType} {k : QuotedText}
      (htype : (t.spec f).type = .optional v) (hk : (t.spec f).isNamedBy (k, .null) = true)
      (before after : List (QuotedText × JsonTree)) :
      Rewrites t (before ++ (k, .null) :: after) (before ++ after)

/-- To give a field as absent that has not been given makes no difference in the end. -/
theorem Draft.finish_give_absent {t : RecordType} {d : Draft t} {f : t.Field}
    (h : d.given f = none) : (d.give f (t.spec f).type.absent).finish = d.finish := by
  refine finish_congr (fun g => ?_) rfl
  rw [value, value]
  by_cases hg : f = g
  · subst hg
    rw [given_give_self, h]
    rfl
  · rw [given_give_of_ne d hg]

namespace JsonTree

variable {t : RecordType} {sense : Sense} {d : Draft t} {f : t.Field} {k : QuotedText}
  {x : JsonTree}

theorem member?_null {v : ValueType} (htype : (t.spec f).type = .optional v)
    (hk : (t.spec f).isNamedBy (k, null) = true) (d : Draft t) :
    member? sense d (k, null) =
      if (d.given f).isSome then none else some (d.give f (t.spec f).type.absent) := by
  have hnull {type : FieldType} (h : type = .optional v) :
      fieldValue? sense.value type null = some type.absent := by
    subst h
    rfl
  rw [member?_of_isNamedBy hk, hnull htype, Option.map_some]

/-- A closed record passes over a member that names no field. -/
theorem member?_of_notMem (hclosed : t.isOpen = false) {s : String} (hk : k.text? = some s)
    (hs : s ∉ t.spellings) (x : JsonTree) (d : Draft t) : member? sense d (k, x) = some d := by
  simp only [member?, hk, Option.bind_some, RecordType.field?_eq_none_iff.mpr hs, hclosed,
    Bool.false_eq_true, if_false]

/-- In a closed record every member may be looked at in the end. -/
theorem foldlM_member?_middle (hclosed : t.isOpen = false) (m : QuotedText × JsonTree)
    (before after : List (QuotedText × JsonTree)) (d : Draft t) :
    (before ++ m :: after).foldlM (member? sense) d =
      ((before ++ after).foldlM (member? sense) d).bind fun d => member? sense d m := by
  have hperm : (before ++ m :: after).Perm (before ++ after ++ [m]) :=
    List.perm_middle.trans (List.perm_append_singleton m (before ++ after)).symm
  rw [foldlM_member?_of_perm hperm (fun hopen => absurd hopen (by simp [hclosed])), foldlM_concat]

/-- One change leads from a record to the same record. -/
theorem finish_of_rewrites (hclosed : t.isOpen = false) {ms ms' : List (QuotedText × JsonTree)}
    (h : Rewrites t ms ms') (hd : ms.foldlM (member? sense) (Draft.empty t) = some d) :
    ∃ d', ms'.foldlM (member? sense) (Draft.empty t) = some d' ∧ d'.finish = d.finish := by
  cases h with
  | permute hperm =>
    refine ⟨d, ?_, rfl⟩
    rw [← hd]
    exact foldlM_member?_of_perm hperm.symm (fun hopen => absurd hopen (by simp [hclosed])) _
  | rename hk hk' before after =>
    refine ⟨d, ?_, rfl⟩
    rw [← hd]
    exact foldlM_replace (fun d => by rw [member?_of_isNamedBy hk, member?_of_isNamedBy hk']) ..
  | respell hkey x before after =>
    refine ⟨d, ?_, rfl⟩
    rw [← hd]
    exact foldlM_replace (fun d => by rw [member?, member?, hkey.text?_eq]) ..
  | insertOther hk hs x before after =>
    -- looked at last, the new member is passed over
    refine ⟨d, ?_, rfl⟩
    rw [foldlM_member?_middle hclosed, hd]
    exact member?_of_notMem hclosed hk hs x d
  | @insertNull f v k htype hk before after hnew =>
    -- no other member names the field, so it is still to be given when the `null` is looked at
    have hnone : d.given f = none := by
      rcases given_of_foldlM hd f with ⟨-, hnone⟩ | ⟨m, _, hone, -, -⟩
      · exact hnone
      · have hm := List.mem_filter.mp (hone ▸ List.mem_singleton_self m)
        exact absurd (fieldNamed?_eq_some_iff.mp (of_decide_eq_true hm.2)) (hnew m hm.1)
    refine ⟨d.give f (t.spec f).type.absent, ?_, Draft.finish_give_absent hnone⟩
    rw [foldlM_member?_middle hclosed, hd, Option.bind_some, member?_null htype hk, hnone]
    rfl
  | @removeNull f v k htype hk before after =>
    -- looked at last, the `null` has given as absent what the others leave absent anyway
    rw [foldlM_member?_middle hclosed] at hd
    obtain ⟨d₀, hd₀, hnull⟩ := Option.bind_eq_some_iff.mp hd
    rw [member?_null htype hk] at hnull
    split at hnull
    · cases hnull
    · rename_i hnew
      cases hnull
      exact ⟨d₀, hd₀, (Draft.finish_give_absent (Option.not_isSome_iff_eq_none.mp hnew)).symm⟩

/-- Any number of changes lead from a record to the same record. -/
theorem finish_of_reflTransGen (hclosed : t.isOpen = false)
    {ms ms' : List (QuotedText × JsonTree)} (h : Relation.ReflTransGen (Rewrites t) ms ms')
    (hd : ms.foldlM (member? sense) (Draft.empty t) = some d) :
    ∃ d', ms'.foldlM (member? sense) (Draft.empty t) = some d' ∧ d'.finish = d.finish := by
  induction h with
  | refl => exact ⟨d, hd, rfl⟩
  | tail _ hstep ih =>
    obtain ⟨d₁, hd₁, hfinish₁⟩ := ih
    obtain ⟨d₂, hd₂, hfinish₂⟩ := finish_of_rewrites hclosed hstep hd₁
    exact ⟨d₂, hd₂, hfinish₂.trans hfinish₁⟩

end JsonTree

namespace RecordType

/-- Reading a record does not depend on how its object is laid out. What is accepted is an object
or a list; and an object is read as the same record after any number of changes that leave the
record as it is, with blanks around its tokens or without. -/
theorem read_of_rewrites {t : RecordType} (ht : t ≠ options) {text : String} {r : t.Value}
    (h : t.read text = .ok r) :
    ((∃ ms, (JsonTree.object ms).IsLayout text) ∨ ∃ items, (JsonTree.list items).IsLayout text) ∧
      ∀ ms ms' text', (JsonTree.object ms).IsLayout text →
        Relation.ReflTransGen (Rewrites t) ms ms' → (JsonTree.object ms').IsLayout text' →
          t.read text' = .ok r := by
  constructor
  · obtain ⟨x, hx⟩ := exists_isLayout_of_read h
    have hvalue := (read_eq_ok_iff hx).mp h
    match x with
    | .object ms => exact Or.inl ⟨ms, hx⟩
    | .list items => exact Or.inr ⟨items, hx⟩
    | .null | .bool _ | .number _ | .string _ => cases hvalue
  · intro ms ms' text' hms hrewrites hms'
    have hclosed : t.isOpen = false := decide_eq_false ht
    obtain ⟨d, hd, rfl⟩ := (read_object_eq_ok_iff hms).mp h
    exact (read_object_eq_ok_iff hms').mpr (finish_of_reflTransGen hclosed hrewrites hd)

/-- One `null` goes and another one comes, a letter of a key is escaped, and a member that nobody
knows holds half of a surrogate pair. -/
theorem read_of_rewrites_file :
    RecordType.file.read ("\x7b\"later\":[\"\\ud800\"],\"package\":null," ++
      "\"\\u0073yntax\":\"p\"\x7d\n") = .ok { syntaxVersion := some "p" } := by
  let key (s : String) (h : Quoting.ArePlain (Text.bytes s)) : QuotedText :=
    .plain (Text.bytes s) h
  let plainS : QuotedText := .plain (String.utf8EncodeChar 's') (by decide)
  let escapedS : QuotedText := [.unit 0x30 0x30 0x37 0x33 0x73 (by decide)]
  let yntax := key "yntax" (by decide)
  let version : JsonTree := .string (key "p" (by decide))
  let half : JsonTree := .list [.string [.unit 0x64 0x38 0x30 0x30 0xD800 (by decide)]]
  let package := (key "package" (by decide), JsonTree.null)
  have hread : RecordType.file.read "\x7b\"syntax\":\"p\",\"name\":null\x7d" =
      .ok { syntaxVersion := some "p" } :=
    read_of_run (by decide +kernel)
  have hlayout : (JsonTree.object [(plainS ++ yntax, version),
      (key "name" (by decide), .null)]).IsLayout "\x7b\"syntax\":\"p\",\"name\":null\x7d" :=
    isLayout_of_flatten (by decide +kernel)
  have hremove : Rewrites .file [(plainS ++ yntax, version), (key "name" (by decide), .null)]
      [(plainS ++ yntax, version)] :=
    .removeNull (f := FileField.name) rfl (by decide +kernel) [(plainS ++ yntax, version)] []
  have hrespell : Rewrites .file [(plainS ++ yntax, version)] [(escapedS ++ yntax, version)] :=
    .respell (.intro (.plain (c := 's') (by decide)) (.unit _ rfl) [] yntax) version [] []
  have hinsert : Rewrites .file [(escapedS ++ yntax, version)]
      [package, (escapedS ++ yntax, version)] := by
    apply Rewrites.insertNull (f := FileField.package) rfl (by decide +kernel) [] _
    exact List.forall_mem_singleton.mpr (by decide +kernel)
  have hother : Rewrites .file [package, (escapedS ++ yntax, version)]
      [package, (key "later" (by decide), half), (escapedS ++ yntax, version)] :=
    .insertOther (QuotedText.text?_plain _) (by decide) half [package] _
  have hswap : Rewrites .file
      [package, (key "later" (by decide), half), (escapedS ++ yntax, version)]
      [(key "later" (by decide), half), package, (escapedS ++ yntax, version)] :=
    .permute (.swap _ _ _)
  refine (read_of_rewrites (by decide) hread).2 _ _ _ hlayout
    (((((Relation.ReflTransGen.single hremove).tail hrespell).tail hinsert).tail hother).tail hswap)
    ⟨_, [Ascii.newline], ?_, .flatten _, List.all_eq_true.mp rfl⟩
  decide +kernel

end RecordType

end SchemaSpans
