import SchemaSpans.Proofs.Json.Ordered
import SchemaSpans.Reader.Kept

/-! What holds of every value that a reader yields, whatever its input is. A sequence of
items keeps what each item keeps, and a kept value is a map at every depth with no more
brackets inside one another than could be opened. -/

namespace SchemaSpans

variable {α β σ : Type}

namespace Reader

/-- Every value that the reader yields has this property. -/
def Yields (r : Reader α) (p : α → Prop) : Prop :=
  ∀ input value rest, r.run input = .done value rest → p value

variable {p : α → Prop} {q : β → Prop}

theorem yields_pure {value : α} (h : p value) : (pure value : Reader α).Yields p := by
  rintro input value rest ⟨⟩
  exact h

theorem yields_fail (cause : Cause) : (fail cause : Reader α).Yields p := by
  intro input value rest hrun
  cases hrun

theorem yields_bind {r : Reader β} {next : β → Reader α} (hr : r.Yields q)
    (hnext : ∀ value, q value → (next value).Yields p) : (r >>= next).Yields p := by
  intro input value rest hrun
  rw [run_bind] at hrun
  cases hfirst : r.run input with
  | done first rest' =>
    rw [hfirst] at hrun
    exact hnext first (hr input first rest' hfirst) rest' value rest hrun
  | stopped cause rest' =>
    rw [hfirst] at hrun
    cases hrun

/-- What is read first does not matter if everything behind it has the property. -/
theorem yields_then {r : Reader β} {next : β → Reader α} (hnext : ∀ value, (next value).Yields p) :
    (r >>= next).Yields p :=
  yields_bind (q := fun _ => True) (fun _ _ _ _ => trivial) fun value _ => hnext value

theorem yields_reject (cause : Cause) : (reject cause : Reader α).Yields p :=
  yields_then fun _ => yields_fail cause

theorem yields_mismatch (expected : Expected) (first : Option Start) :
    (mismatch expected first : Reader α).Yields p := by
  match first with
  | none | some .list | some .object => exact yields_fail _
  | some .null | some .true | some .false | some .number => exact yields_then fun _ => yields_fail _
  | some .string => exact yields_then fun _ => yields_then fun _ => yields_fail _
  | some .other => exact yields_reject _

theorem yields_descend {ν : Type} {inside : Option ν} {body : ν → Reader α}
    (h : ∀ inner, inside = some inner → (body inner).Yields p) :
    (descend inside body).Yields p := by
  cases inside with
  | none => exact yields_reject .nestedTooDeep
  | some inner => exact yields_then fun _ => h inner rfl

end Reader

namespace Bracket

variable {b : Bracket} {item : σ → Reader σ} {inv : σ → Prop}

theorem yields_readRest (hitem : ∀ s, inv s → (item s).Yields inv) {s s' : σ}
    {input rest : Input} (hs : inv s) (hrun : b.readRest item s input = .done s' rest) :
    inv s' := by
  have hnext (s : σ) (hs : inv s) : (b.nextItem item s).Yields inv :=
    Reader.yields_then fun _ => hitem s hs
  -- only two ways lead to a value: the sequence ends here, or an item is read and it goes on
  fun_induction readRest b item s input with
  | case1 | case4 | case5 => cases hrun
  | case2 s =>
    cases hrun
    exact hs
  | case3 s input rest' s'' rest'' hstep _ _ _ ih => exact ih (hnext s hs _ _ _ hstep) hrun

/-- What every item keeps holds behind the end of a sequence. -/
theorem yields_read (hitem : ∀ s, inv s → (item s).Yields inv) {empty : σ} (hempty : inv empty) :
    (b.read item empty).Yields inv := by
  refine Reader.yields_then fun c => ?_
  cases c with
  | none => exact Reader.yields_fail b.atEnd
  | some c =>
    change Reader.Yields (if c = b.close then _ else _) inv
    split
    · exact Reader.yields_then fun _ => Reader.yields_pure hempty
    · exact Reader.yields_bind (hitem empty hempty) fun s hs input s' rest hrun =>
        yields_readRest hitem hs hrun

theorem yields_readList {element : Reader α} {p : α → Prop} (h : element.Yields p) :
    (b.readList element).Yields fun xs => ∀ x ∈ xs, p x := by
  have hitem (before : List α) (hbefore : ∀ x ∈ before, p x) :
      (element >>= fun a => pure (a :: before)).Yields fun xs => ∀ x ∈ xs, p x :=
    Reader.yields_bind h fun a ha => Reader.yields_pure (List.forall_mem_cons.mpr ⟨ha, hbefore⟩)
  refine Reader.yields_bind (yields_read hitem fun x hx => (List.not_mem_nil hx).elim) ?_
  intro xs hxs
  exact Reader.yields_pure fun x hx => hxs x (List.mem_reverse.mp hx)

end Bracket

namespace Json

/-- A value that is a map at every depth, with at most `n` brackets open at once. -/
structure IsKept (n : Nat) (v : Json) : Prop where
  isOrdered : v.IsOrdered
  depth_le : v.depth ≤ n

/-- Members with ascending keys whose values are kept. -/
structure AreKept (n : Nat) (members : Members) : Prop where
  ascending : Members.Ascending members
  isKept : ∀ m ∈ members, m.2.IsKept n

end Json

namespace Json

theorem isKept_of_depth_eq_zero {v : Json} (hv : v.depth = 0) (n : Nat) : v.IsKept n := by
  refine ⟨?_, hv ▸ Nat.zero_le n⟩
  match v with
  | null | bool _ | number _ | string _ => rfl
  | list _ | object _ => exact absurd hv (Nat.succ_ne_zero _)

theorem isKept_list {n : Nat} {items : List Json} (h : ∀ v ∈ items, v.IsKept n) :
    (list items).IsKept (n + 1) :=
  ⟨isOrdered_list.mpr fun v hv => (h v hv).isOrdered,
    depth_list_le_iff.mpr fun v hv => (h v hv).depth_le⟩

theorem isKept_object {n : Nat} {members : Members} (h : AreKept n members) :
    (object members).IsKept (n + 1) :=
  ⟨isOrdered_object.mpr ⟨h.ascending, fun m hm => (h.isKept m hm).isOrdered⟩,
    depth_object_le_iff.mpr fun m hm => (h.isKept m hm).depth_le⟩

theorem areKept_nil (n : Nat) : AreKept n [] :=
  ⟨Members.ascending_nil, fun _ hm => (List.not_mem_nil hm).elim⟩

theorem AreKept.insert {n : Nat} {members : Members} (h : AreKept n members) {k : String} {v : Json}
    (hv : v.IsKept n) : AreKept n (Members.insert k v members) := by
  refine ⟨Members.ascending_insert h.ascending k v, fun m hm => ?_⟩
  rcases Members.mem_of_mem_insert hm with rfl | hm
  · exact hv
  · exact h.isKept m hm

end Json

namespace Reader

theorem yields_keptMember {value : Reader Json} {n : Nat} (hvalue : value.Yields (Json.IsKept n))
    (members : Members) (hmembers : Json.AreKept n members) :
    (keptMember value members).Yields (Json.AreKept n) :=
  yields_then fun _ => yields_then fun _ => yields_bind hvalue fun _ hv =>
    yields_pure (hmembers.insert hv)

/-- A value is kept where values may have `n` brackets open at once, if what is read inside its
brackets is kept where they may have one less. -/
theorem yields_keptWith {inside : Option (Reader Json)} {n : Nat}
    (hinside : ∀ value, inside = some value → ∃ m, n = m + 1 ∧ value.Yields (Json.IsKept m)) :
    (keptWith inside).Yields (Json.IsKept n) := by
  refine yields_then fun first => ?_
  -- values without brackets are well formed whatever may be inside brackets
  have hflat {v : Json} (hv : v.depth = 0) : (pure v : Reader Json).Yields (Json.IsKept n) :=
    yields_pure (Json.isKept_of_depth_eq_zero hv n)
  match first with
  | none => exact yields_fail .endInValue
  | some .null | some .true | some .false | some .number =>
    exact yields_then fun _ => hflat rfl
  | some .string => exact yields_then fun _ => yields_then fun _ => hflat rfl
  | some .list =>
    refine yields_descend fun value hsome => ?_
    obtain ⟨m, rfl, hvalue⟩ := hinside value hsome
    exact yields_bind (Bracket.yields_readList hvalue) fun items hitems =>
      yields_pure (Json.isKept_list hitems)
  | some .object =>
    refine yields_descend fun value hsome => ?_
    obtain ⟨m, rfl, hvalue⟩ := hinside value hsome
    exact yields_bind (Bracket.yields_read (yields_keptMember hvalue) (Json.areKept_nil m))
      fun members hmembers => yields_pure (Json.isKept_object hmembers)
  | some .other => exact yields_reject .expectedValue

/-- A kept value is a map at every depth and nests no deeper than the reader may go. -/
theorem yields_kept (n : Nat) : (kept n).Yields (Json.IsKept n) := by
  induction n with
  | zero => exact yields_keptWith fun value hsome => nomatch hsome
  | succ n ih =>
    refine yields_keptWith fun value hsome => ⟨n, rfl, ?_⟩
    exact Option.some.inj hsome ▸ ih

end Reader

end SchemaSpans
