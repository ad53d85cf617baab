import Mathlib.Data.List.Induction
import SchemaSpans.Proofs.Schema.Layout
import SchemaSpans.Proofs.Schema.Table

/-! What the members of an object make of a record, one after another. Two members may change
places unless both are kept under one key; every field is given by the one member that names
it, and all other members are kept or passed over. -/

namespace SchemaSpans

namespace Draft

variable {t : RecordType} {d : Draft t}

theorem give_comm {f g : t.Field} (hne : f ≠ g) (v : t.FieldValue f) (w : t.FieldValue g) :
    (d.give f v).give g w = (d.give g w).give f v := by
  have hgiven : ((d.give f v).give g w).given = ((d.give g w).give f v).given := by
    funext h
    by_cases hf : f = h
    · subst hf
      rw [given_give_self, given_give_of_ne _ hne.symm, given_give_self]
    · by_cases hg : g = h
      · subst hg
        rw [given_give_self, given_give_of_ne _ hf, given_give_self]
      · rw [given_give_of_ne _ hg, given_give_of_ne _ hf, given_give_of_ne _ hf,
          given_give_of_ne _ hg]
  exact congrArg (fun given => { given, other := d.other : Draft t }) hgiven

end Draft

/-- What a member does to a draft. -/
inductive Move (t : RecordType) where
  /-- The member cannot be read. -/
  | refuse
  | give (f : t.Field) (value : t.FieldValue f)
  | keep (key : String) (value : Json)
  | pass

/-- The draft after a move. No field can be given twice. -/
def Move.apply {t : RecordType} (d : Draft t) : Move t → Option (Draft t)
  | refuse => none
  | give f value => if (d.given f).isSome then none else some (d.give f value)
  | keep key value => some (d.keep key value)
  | pass => some d

/-- Whether the key of a member is one of the spellings of a field. -/
def FieldSpec.isNamedBy (f : FieldSpec) (m : QuotedText × JsonTree) : Bool :=
  m.1.text?.any f.isNamed

namespace JsonTree

variable {t : RecordType} {sense : Sense}

/-- What a member does is settled before it is known what was read in front of it. -/
def move (sense : Sense) (t : RecordType) (m : QuotedText × JsonTree) : Move t :=
  match m.1.text? with
  | none => .refuse
  | some k =>
    match t.field? k with
    | some f => (fieldValue? sense.value (t.spec f).type m.2).elim .refuse (.give f)
    | none => if t.isOpen then (sense.json m.2).elim .refuse (.keep k) else .pass

theorem member?_eq_apply_move (d : Draft t) (m : QuotedText × JsonTree) :
    member? sense d m = (move sense t m).apply d := by
  rw [member?, move]
  cases m.1.text? with
  | none => rfl
  | some k =>
    simp only [Option.bind_some]
    cases t.field? k with
    | some f =>
      dsimp only
      cases fieldValue? sense.value (t.spec f).type m.2 with
      | none => exact ite_self none
      | some value => rfl
    | none =>
      dsimp only
      split
      · cases sense.json m.2 <;> rfl
      · rfl

/-- The field that the key of a member names. -/
def fieldNamed? (t : RecordType) (m : QuotedText × JsonTree) : Option t.Field :=
  m.1.text?.bind t.field?

theorem fieldNamed?_eq_some_iff {f : t.Field} {m : QuotedText × JsonTree} :
    fieldNamed? t m = some f ↔ (t.spec f).isNamedBy m = true := by
  rw [fieldNamed?, FieldSpec.isNamedBy, Option.bind_eq_some_iff, Option.any_eq_true]
  simp only [RecordType.field?_eq_some_iff]

/-- A member that names a field gives it, if it can. -/
theorem member?_of_isNamedBy {f : t.Field} {k : QuotedText} {x : JsonTree}
    (hk : (t.spec f).isNamedBy (k, x) = true) (d : Draft t) :
    member? sense d (k, x) =
      if (d.given f).isSome then none
      else (fieldValue? sense.value (t.spec f).type x).map fun value => d.give f value := by
  obtain ⟨s, hs, hf⟩ := Option.bind_eq_some_iff.mp (fieldNamed?_eq_some_iff.mpr hk)
  simp only [member?, hs, Option.bind_some, hf]

/-- The key of a member that names no field. -/
def otherKey? (t : RecordType) (m : QuotedText × JsonTree) : Option String :=
  m.1.text?.filter fun k => t.field? k = none

theorem otherKey?_eq_some_iff {m : QuotedText × JsonTree} {k : String} :
    otherKey? t m = some k ↔ m.1.text? = some k ∧ k ∉ t.spellings := by
  rw [otherKey?, Option.filter_eq_some_iff, decide_eq_true_eq, RecordType.field?_eq_none_iff]

/-- Which move a member makes, and why. -/
inductive Makes (sense : Sense) (m : QuotedText × JsonTree) : Move t → Prop where
  | refuse : Makes sense m .refuse
  | give {f : t.Field} {value : t.FieldValue f} (hfield : fieldNamed? t m = some f)
      (hvalue : fieldValue? sense.value (t.spec f).type m.2 = some value) :
      Makes sense m (.give f value)
  | keep {k : String} {v : Json} (hopen : t.isOpen = true) (hkey : otherKey? t m = some k)
      (hvalue : sense.json m.2 = some v) : Makes sense m (.keep k v)
  | pass {k : String} (hclosed : t.isOpen = false) (hkey : otherKey? t m = some k) :
      Makes sense m .pass

theorem makes_move (sense : Sense) (t : RecordType) (m : QuotedText × JsonTree) :
    Makes sense m (move sense t m) := by
  rw [move]
  cases hk : m.1.text? with
  | none => exact .refuse
  | some k =>
    dsimp only
    cases hfield : t.field? k with
    | some f =>
      have hnamed : fieldNamed? t m = some f := by rw [fieldNamed?, hk, Option.bind_some, hfield]
      dsimp only
      cases hvalue : fieldValue? sense.value (t.spec f).type m.2 with
      | none => exact .refuse
      | some value => exact .give hnamed hvalue
    | none =>
      have hother : otherKey? t m = some k :=
        otherKey?_eq_some_iff.mpr ⟨hk, RecordType.field?_eq_none_iff.mp hfield⟩
      dsimp only
      split
      · rename_i hopen
        cases hvalue : sense.json m.2 with
        | none => exact .refuse
        | some v => exact .keep hopen hother hvalue
      · rename_i hclosed
        exact .pass (eq_false_of_ne_true hclosed) hother

theorem keep_give_comm (k : String) (v : Json) (f : t.Field) (w : t.FieldValue f) (d : Draft t) :
    (Move.apply d (.keep k v)).bind (fun d => Move.apply d (.give f w)) =
      (Move.apply d (.give f w)).bind fun d => Move.apply d (.keep k v) := by
  by_cases hf : (d.given f).isSome <;>
  · simp only [Move.apply, Option.bind_some, Draft.given_keep, hf]
    rfl

theorem give_give_comm (f g : t.Field) (v : t.FieldValue f) (w : t.FieldValue g) (d : Draft t) :
    (Move.apply d (.give f v)).bind (fun d => Move.apply d (.give g w)) =
      (Move.apply d (.give g w)).bind fun d => Move.apply d (.give f v) := by
  by_cases hfg : f = g
  · subst hfg
    by_cases hf : (d.given f).isSome <;>
      simp only [Move.apply, hf, if_true, if_false, Bool.false_eq_true, Option.bind_none,
        Option.bind_some, Draft.given_give_self, Option.isSome_some]
  · by_cases hf : (d.given f).isSome <;> by_cases hg : (d.given g).isSome <;>
      simp only [Move.apply, hf, hg, if_true, if_false, Bool.false_eq_true, Option.bind_none,
        Option.bind_some, Draft.given_give_of_ne _ hfg, Draft.given_give_of_ne _ (Ne.symm hfg),
        Draft.give_comm hfg]

/-- Moves that do not keep two members under one key can be made in either order. -/
theorem apply_comm {a b : Move t} (h : ∀ k v l w, a = .keep k v → b = .keep l w → k ≠ l)
    (d : Draft t) :
    (a.apply d).bind (fun d => b.apply d) = (b.apply d).bind fun d => a.apply d := by
  match a, b with
  | .refuse, _ => exact (Option.bind_fun_none _).symm
  | .pass, _ => exact (Option.bind_fun_some _).symm
  | .keep .., .refuse | .give .., .refuse => exact Option.bind_fun_none _
  | .keep .., .pass | .give .., .pass => exact Option.bind_fun_some _
  | .keep k v, .give f w => exact keep_give_comm k v f w d
  | .give f w, .keep k v => exact (keep_give_comm k v f w d).symm
  | .give f v, .give g w => exact give_give_comm f g v w d
  | .keep k v, .keep l w =>
    refine congrArg (fun other => some { d with other }) ?_
    exact Members.insert_comm (h k v l w rfl rfl) v w d.other

/-- Two members may change places unless both are kept under one key. -/
theorem commutes_member? {a b : QuotedText × JsonTree}
    (h : t.isOpen = true → ∀ k, otherKey? t a = some k → otherKey? t b ≠ some k) :
    Commutes (member? (t := t) sense) a b := by
  intro d
  simp only [member?_eq_apply_move]
  apply apply_comm
  rintro k v l w ha hb rfl
  -- both are kept, and under the same key, which is what `h` rules out
  have hmakes_a := makes_move sense t a
  have hmakes_b := makes_move sense t b
  rw [ha] at hmakes_a
  rw [hb] at hmakes_b
  cases hmakes_a with
  | keep hopen hkey_a _ =>
    cases hmakes_b with
    | keep _ hkey_b _ => exact h hopen k hkey_a hkey_b

/-- Members of an object may be rearranged if those that are kept under one key stay in their
order. -/
theorem foldlM_member?_of_perm {ms ms' : List (QuotedText × JsonTree)} (h : ms.Perm ms')
    (hkey : t.isOpen = true →
      ∀ k, ms.filter (otherKey? t · = some k) = ms'.filter (otherKey? t · = some k))
    (d : Draft t) : ms.foldlM (member? sense) d = ms'.foldlM (member? sense) d := by
  cases hopen : t.isOpen with
  | true =>
    exact foldlM_eq_of_perm _ h (hkey hopen) (fun a b hab => commutes_member? fun _ => hab) d
  | false =>
    -- nothing is kept, so no member has to stay in its place
    let key : QuotedText × JsonTree → Option String := fun _ => none
    have hnone (ms : List (QuotedText × JsonTree)) (k : String) :
        ms.filter (key · = some k) = [] :=
      List.filter_eq_nil_iff.mpr fun m _ heq => nomatch of_decide_eq_true heq
    refine foldlM_eq_of_perm key h (fun k => ?_) (fun a b _ => commutes_member? fun htrue => ?_) d
    · rw [hnone, hnone]
    · rw [hopen] at htrue
      cases htrue

theorem fieldNamed?_of_otherKey? {m : QuotedText × JsonTree} {k : String}
    (h : otherKey? t m = some k) : fieldNamed? t m = none := by
  obtain ⟨hk, hother⟩ := otherKey?_eq_some_iff.mp h
  rw [fieldNamed?, hk, Option.bind_some, RecordType.field?_eq_none_iff.mpr hother]

variable {ms : List (QuotedText × JsonTree)} {d d' : Draft t}

/-- What a member that is accepted has done to the draft. -/
theorem cases_of_member? {m : QuotedText × JsonTree} (h : member? sense d m = some d') :
    (∃ (f : t.Field) (value : t.FieldValue f), fieldNamed? t m = some f ∧
        fieldValue? sense.value (t.spec f).type m.2 = some value ∧
        d.given f = none ∧ d' = d.give f value) ∨
      (∃ k v, t.isOpen = true ∧ otherKey? t m = some k ∧ sense.json m.2 = some v ∧
        d' = d.keep k v) ∨
      (∃ k, t.isOpen = false ∧ otherKey? t m = some k ∧ d' = d) := by
  have hmakes := makes_move sense t m
  rw [member?_eq_apply_move] at h
  generalize move sense t m = made at h hmakes
  cases hmakes with
  | refuse => cases h
  | give hfield hvalue =>
    rw [Move.apply] at h
    split at h
    · cases h
    · rename_i hnew
      exact Or.inl ⟨_, _, hfield, hvalue, Option.not_isSome_iff_eq_none.mp hnew,
        (Option.some.inj h).symm⟩
  | keep hopen hkey hvalue =>
    exact Or.inr (Or.inl ⟨_, _, hopen, hkey, hvalue, (Option.some.inj h).symm⟩)
  | pass hclosed hkey => exact Or.inr (Or.inr ⟨_, hclosed, hkey, (Option.some.inj h).symm⟩)

/-- A member gives the field that it names, for the first time, and leaves all other fields
alone. -/
theorem given_of_member? {m : QuotedText × JsonTree} (h : member? sense d m = some d')
    (f : t.Field) :
    (fieldNamed? t m = some f ∧ d.given f = none ∧ ∃ value,
        fieldValue? sense.value (t.spec f).type m.2 = some value ∧ d'.given f = some value) ∨
      (fieldNamed? t m ≠ some f ∧ d'.given f = d.given f) := by
  have hother {k : String} (hkey : otherKey? t m = some k) : fieldNamed? t m ≠ some f := by
    rw [fieldNamed?_of_otherKey? hkey]
    exact (Option.some_ne_none f).symm
  rcases cases_of_member? h with ⟨g, value, hfield, hvalue, hnew, rfl⟩ | ⟨k, v, -, hkey, -, rfl⟩ |
    ⟨k, -, hkey, rfl⟩
  · by_cases hg : g = f
    · subst hg
      exact Or.inl ⟨hfield, hnew, value, hvalue, Draft.given_give_self d g value⟩
    · refine Or.inr ⟨fun hf => hg ?_, Draft.given_give_of_ne d hg value⟩
      exact Option.some.inj (hfield.symm.trans hf)
  · exact Or.inr ⟨hother hkey, Draft.given_keep d k v f⟩
  · exact Or.inr ⟨hother hkey, rfl⟩

/-- A field is given by the one member that names it. -/
theorem given_of_foldlM (h : ms.foldlM (member? sense) (Draft.empty t) = some d) (f : t.Field) :
    (ms.filter (fieldNamed? t · = some f) = [] ∧ d.given f = none) ∨
      ∃ m value, ms.filter (fieldNamed? t · = some f) = [m] ∧
        fieldValue? sense.value (t.spec f).type m.2 = some value ∧ d.given f = some value := by
  -- from the last member backwards, since the draft is what all members in front have made
  induction ms using List.reverseRecOn generalizing d with
  | nil =>
    cases h
    exact Or.inl ⟨rfl, rfl⟩
  | append_singleton ms m ih =>
    rw [foldlM_concat] at h
    obtain ⟨d₀, hms, hm⟩ := Option.bind_eq_some_iff.mp h
    rw [List.filter_append]
    rcases given_of_member? hm f with ⟨hfield, hnone, value, hvalue, hgiven⟩ | ⟨hother, hgiven⟩
    · -- the field has not been given before, so no member in front of this one names it
      rcases ih hms with ⟨hfilter, -⟩ | ⟨_, _, -, -, hsome⟩
      · refine Or.inr ⟨m, value, ?_, hvalue, hgiven⟩
        rw [hfilter, List.filter_singleton, hfield]
        simp
      · rw [hnone] at hsome
        cases hsome
    · have hfilter : [m].filter (fieldNamed? t · = some f) = [] := by simp [hother]
      rw [hfilter, List.append_nil, hgiven]
      exact ih hms

/-- A member that names a field gives it for good. -/
theorem exists_given_of_mem (h : ms.foldlM (member? sense) (Draft.empty t) = some d)
    {m : QuotedText × JsonTree} (hm : m ∈ ms) {f : t.Field}
    (hf : (t.spec f).isNamedBy m = true) :
    ∃ value, fieldValue? sense.value (t.spec f).type m.2 = some value ∧ d.given f = some value := by
  have hnamed : m ∈ ms.filter (fieldNamed? t · = some f) :=
    List.mem_filter.mpr ⟨hm, decide_eq_true (fieldNamed?_eq_some_iff.mpr hf)⟩
  rcases given_of_foldlM h f with ⟨hnil, -⟩ | ⟨m', value, hone, hvalue, hgiven⟩
  · rw [hnil] at hnamed
    exact (List.not_mem_nil hnamed).elim
  · -- the member is the only one that names the field
    rw [hone] at hnamed
    obtain rfl := List.mem_singleton.mp hnamed
    exact ⟨value, hvalue, hgiven⟩

/-- An open record keeps exactly the members that name no field. -/
theorem other_of_member? {m : QuotedText × JsonTree} (hopen : t.isOpen = true)
    (h : member? sense d m = some d') :
    (otherKey? t m = none ∧ d'.other = d.other) ∨
      ∃ k, otherKey? t m = some k ∧ keptMember? sense.json d.other m = some d'.other := by
  rcases cases_of_member? h with ⟨f, value, hfield, -, -, rfl⟩ | ⟨k, v, -, hkey, hvalue, rfl⟩ |
    ⟨k, hclosed, -, -⟩
  · refine Or.inl ⟨?_, Draft.other_give d f value⟩
    cases hkey : otherKey? t m with
    | none => rfl
    | some k =>
      rw [fieldNamed?_of_otherKey? hkey] at hfield
      cases hfield
  · refine Or.inr ⟨k, hkey, ?_⟩
    rw [keptMember?, (otherKey?_eq_some_iff.mp hkey).1, Option.bind_some, hvalue]
    rfl
  · rw [hopen] at hclosed
    cases hclosed

/-- What is kept of an open record are the members that name no field, one after another. -/
theorem other_of_foldlM (hopen : t.isOpen = true)
    (h : ms.foldlM (member? sense) (Draft.empty t) = some d) :
    (ms.filter fun m => (otherKey? t m).isSome).foldlM (keptMember? sense.json) [] =
      some d.other := by
  induction ms using List.reverseRecOn generalizing d with
  | nil =>
    cases h
    rfl
  | append_singleton ms m ih =>
    rw [foldlM_concat] at h
    obtain ⟨d₀, hms, hm⟩ := Option.bind_eq_some_iff.mp h
    rw [List.filter_append, List.filter_singleton]
    rcases other_of_member? hopen hm with ⟨hkey, hother⟩ | ⟨k, hkey, hother⟩
    · rw [hkey, hother]
      exact (List.append_nil _).symm ▸ ih hms
    · rw [hkey]
      exact (foldlM_concat _ m []).trans ((congrArg (Option.bind · _) (ih hms)).trans hother)

/-- What trees stand for inside brackets, with so many more that may be opened. -/
def senseOf (n : Nat) : Sense where
  json := kept? n
  value v := value? n v

theorem value?_object (n : Nat) (t : RecordType) (ms : List (QuotedText × JsonTree)) :
    value? (n + 1) (.record t) (object ms) =
      (ms.foldlM (member? (senseOf n)) (Draft.empty t)).map Draft.finish := rfl

end JsonTree

namespace RecordType

/-- An object is read member by member. -/
theorem read_object_eq_ok_iff {t : RecordType} {text : String}
    {ms : List (QuotedText × JsonTree)} (h : (JsonTree.object ms).IsLayout text) {r : t.Value} :
    t.read text = .ok r ↔ ∃ d,
      ms.foldlM (JsonTree.member? (JsonTree.senseOf 126)) (Draft.empty t) = some d ∧
        d.finish = r := by
  rw [read_eq_ok_iff h, Reader.maxDepth, JsonTree.value?_object, Option.map_eq_some_iff]

end RecordType

end SchemaSpans
