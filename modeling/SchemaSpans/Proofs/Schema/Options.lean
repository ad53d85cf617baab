import SchemaSpans.Proofs.Grammar.Meaning
import SchemaSpans.Proofs.Schema.Members

/-! What the members of an object make of the options of a file. No member is lost: a key that is
a spelling of a field gives the field and is the only one that does, and every other key is kept
with the last value under it. -/

namespace SchemaSpans

open JsonTree

namespace FileOptions

/-- What an option with a field of its own holds. -/
def text? (o : FileOptions) : OptionsField → Option String
  | .javaPackage => o.javaPackage
  | .javaOuterClassname => o.javaOuterClassname
  | .goPackage => o.goPackage
  | .objcClassPrefix => o.objcClassPrefix
  | .csharpNamespace => o.csharpNamespace
  | .swiftPrefix => o.swiftPrefix
  | .phpClassPrefix => o.phpClassPrefix
  | .phpNamespace => o.phpNamespace
  | .phpMetadataNamespace => o.phpMetadataNamespace
  | .rubyPackage => o.rubyPackage

/-- The members whose keys are spellings of no field. -/
def remaining (ms : List (QuotedText × JsonTree)) : List (QuotedText × JsonTree) :=
  ms.filter fun m => m.1.text?.any (· ∉ RecordType.options.spellings)

/-- A field holds the string of the one member that names it, and nothing if there is no such
member or if it is `null`. -/
inductive HoldsTextOf (holds : Option String) : List (QuotedText × JsonTree) → Prop where
  | unnamed (h : holds = none) : HoldsTextOf holds []
  | null (key : QuotedText) (h : holds = none) : HoldsTextOf holds [(key, .null)]
  | text (key : QuotedText) {s : QuotedText} {text : String} (hs : s.text? = some text)
      (h : holds = some text) : HoldsTextOf holds [(key, .string s)]

/-- The options have every member of an object in its place. -/
structure Collects (o : FileOptions) (ms : List (QuotedText × JsonTree)) : Prop where
  text : ∀ f : OptionsField, HoldsTextOf (o.text? f) (ms.filter f.spec.isNamedBy)
  other : Gathers Means (remaining ms) o.other

variable {ms : List (QuotedText × JsonTree)} {d : Draft .options} {sense : Sense}

theorem remaining_eq_filter (ms : List (QuotedText × JsonTree)) :
    remaining ms = ms.filter fun m => (otherKey? .options m).isSome := by
  apply List.filter_congr
  intro m _
  rw [Bool.eq_iff_iff, Option.any_eq_true, Option.isSome_iff_exists]
  simp only [otherKey?_eq_some_iff, decide_eq_true_eq]

/-- What gives a text field is a string or `null`. -/
theorem holdsTextOf_of_fieldValue? (hstring : sense.value .string = string?)
    {m : QuotedText × JsonTree} {value : Option String}
    (h : fieldValue? sense.value .text m.2 = some value) : HoldsTextOf value [m] := by
  obtain ⟨key, x⟩ := m
  match x with
  | .null =>
    cases h
    exact .null key rfl
  | .string s =>
    simp only [fieldValue?, hstring] at h
    obtain ⟨text, htext, rfl⟩ := Option.map_eq_some_iff.mp h
    exact .text key htext rfl
  | .bool _ | .number _ | .list _ | .object _ =>
    simp only [fieldValue?, hstring] at h
    cases h

theorem string?_senseOf (n : Nat) : (senseOf n).value .string = string? := by
  cases n <;> rfl

theorem collects_of_foldlM (hstring : sense.value .string = string?)
    (hmeans : ∀ x v, sense.json x = some v → Means x v)
    (h : ms.foldlM (member? sense) (Draft.empty .options) = some d) :
    Collects d.finish ms where
  text f := by
    -- to be named by a spelling and to be found under it are the same
    have hfilter : ms.filter f.spec.isNamedBy = ms.filter (fieldNamed? .options · = some f) :=
      List.filter_congr fun m _ => by
        rw [Bool.eq_iff_iff, decide_eq_true_eq]
        exact (fieldNamed?_eq_some_iff (t := .options) (f := f)).symm
    rw [hfilter]
    rcases given_of_foldlM h f with ⟨hnone, hgiven⟩ | ⟨m, value, hone, hvalue, hgiven⟩
    · rw [hnone]
      apply HoldsTextOf.unnamed
      cases f <;> exact congrArg (fun given => given.getD none) hgiven
    · rw [hone]
      -- every one of the fields holds a text
      cases f <;>
      · have hholds : HoldsTextOf value [m] := holdsTextOf_of_fieldValue? hstring hvalue
        rw [← Option.getD_some (a := value) (b := none), ← hgiven] at hholds
        exact hholds
  other := by
    rw [remaining_eq_filter]
    exact gathers_of_foldlM hmeans (other_of_foldlM rfl h)

theorem HoldsTextOf.unique {a b : Option String} (ha : HoldsTextOf a ms) (hb : HoldsTextOf b ms) :
    a = b := by
  cases ha with
  | unnamed ha =>
    cases hb with
    | unnamed hb => rw [ha, hb]
  | null _ ha =>
    cases hb with
    | null _ hb => rw [ha, hb]
  | text _ hs ha =>
    cases hb with
    | text _ hs' hb => rw [ha, hb, Option.some.inj (hs.symm.trans hs')]

/-- The members of an object leave no choice. -/
theorem Collects.unique {o o' : FileOptions} (h : o.Collects ms) (h' : o'.Collects ms) :
    o = o' := by
  have htext (f : OptionsField) : o.text? f = o'.text? f := (h.text f).unique (h'.text f)
  have hother : o.other = o'.other := h.other.unique h'.other fun _ _ _ _ => Means.unique
  obtain ⟨_, _, _, _, _, _, _, _, _, _, other⟩ := o
  obtain ⟨_, _, _, _, _, _, _, _, _, _, other'⟩ := o'
  rw [FileOptions.mk.injEq]
  exact ⟨htext .javaPackage, htext .javaOuterClassname, htext .goPackage, htext .objcClassPrefix,
    htext .csharpNamespace, htext .swiftPrefix, htext .phpClassPrefix, htext .phpNamespace,
    htext .phpMetadataNamespace, htext .rubyPackage, hother⟩

end FileOptions

end SchemaSpans
