import SchemaSpans.Proofs.Json.Bytes
import SchemaSpans.Proofs.Json.Ordered

/-! Ways into JSON values. A way leads through items and members to one value inside another, and
the bytes of this value are a part of the bytes of the other. -/

namespace SchemaSpans

/-- One step of a way into a JSON value. -/
inductive JsonStep where
  | item (i : Nat)
  | member (key : String)
deriving DecidableEq

namespace Json

/-- The value at the end of a way, if the way leads anywhere. -/
def reach? : List JsonStep → Json → Option Json
  | [], v => some v
  | .item i :: way, list items => items[i]?.bind (reach? way)
  | .member k :: way, object members => (members.lookup k).bind (reach? way)
  | _ :: _, _ => none

/-- A way that goes on goes on from where it has led. -/
theorem reach?_append (way more : List JsonStep) (v : Json) :
    v.reach? (way ++ more) = (v.reach? way).bind (reach? more) := by
  induction way generalizing v with
  | nil => rfl
  | cons step way ih =>
    have hih : reach? (way ++ more) = fun v => (v.reach? way).bind (reach? more) := funext ih
    match step, v with
    | .item i, list items =>
      simp only [List.cons_append, reach?, hih, Option.bind_assoc]
    | .member k, object members =>
      simp only [List.cons_append, reach?, hih, Option.bind_assoc]
    | .item _, null | .item _, bool _ | .item _, number _ | .item _, string _
    | .item _, object _ => rfl
    | .member _, null | .member _, bool _ | .member _, number _ | .member _, string _
    | .member _, list _ => rfl

/-- Every one of the texts between commas is there. -/
theorem infix_separated_of_mem {w : Input} {ws : List Input} (h : w ∈ ws) :
    w <:+: separated ws := by
  cases ws with
  | nil => exact (List.not_mem_nil h).elim
  | cons w' ws =>
    rcases List.mem_cons.mp h with rfl | h
    · exact (List.prefix_append w _).isInfix
    · have hpart : Ascii.comma :: w ∈ ws.map (Ascii.comma :: ·) := List.mem_map_of_mem h
      have hcomma : Ascii.comma :: w <:+: ws.flatMap (Ascii.comma :: ·) :=
        List.infix_of_mem_flatten hpart
      have hbehind : ws.flatMap (Ascii.comma :: ·) <:+ separated (w' :: ws) :=
        List.suffix_append w' _
      exact ((List.suffix_cons _ w).isInfix.trans hcomma).trans hbehind.isInfix

/-- What a way leads to is written as a part of the whole. -/
theorem bytes_infix_of_reach? {way : List JsonStep} {v u : Json} (h : v.reach? way = some u) :
    u.bytes <:+: v.bytes := by
  have henclosed (opening closing : UInt8) (body : Input) :
      body <:+: opening :: (body ++ [closing]) :=
    ⟨[opening], [closing], rfl⟩
  induction way generalizing v with
  | nil =>
    cases h
    exact List.infix_rfl
  | cons step way ih =>
    match step, v with
    | .item i, list items =>
      obtain ⟨item, hitem, hway⟩ := Option.bind_eq_some_iff.mp h
      have hmem : item.bytes ∈ items.map bytes :=
        List.mem_map_of_mem (List.mem_of_getElem? hitem)
      rw [bytes_list]
      exact (ih hway).trans ((infix_separated_of_mem hmem).trans (henclosed _ _ _))
    | .member k, object members =>
      obtain ⟨w, hlookup, hway⟩ := Option.bind_eq_some_iff.mp h
      obtain ⟨before, after, rfl, -⟩ := List.lookup_eq_some_iff.mp hlookup
      have hmem : memberBytes (k, w) ∈ (before ++ (k, w) :: after).map memberBytes :=
        List.mem_map_of_mem (List.mem_append_right before List.mem_cons_self)
      have hvalue : w.bytes <:+: memberBytes (k, w) :=
        ((List.suffix_cons _ w.bytes).trans (List.suffix_append _ _)).isInfix
      rw [bytes_object]
      exact (ih hway).trans (hvalue.trans ((infix_separated_of_mem hmem).trans (henclosed _ _ _)))
    | .item _, null | .item _, bool _ | .item _, number _ | .item _, string _
    | .item _, object _ => cases h
    | .member _, null | .member _, bool _ | .member _, number _ | .member _, string _
    | .member _, list _ => cases h

end Json

/-- Under a key of ascending members the one value with this key is found. -/
theorem Members.Ascending.lookup_eq_some {members : Members} (h : members.Ascending) {k : String}
    {v : Json} (hmem : (k, v) ∈ members) : members.lookup k = some v := by
  obtain ⟨before, after, rfl⟩ := List.append_of_mem hmem
  refine List.lookup_eq_some_iff.mpr ⟨before, after, rfl, fun m hm => ?_⟩
  rw [bne_iff_ne]
  intro heq
  have hbefore : Text.precedes m.1 k = true :=
    Members.precedes_of_ascending_append h m.1 (List.mem_map_of_mem hm)
  exact Text.precedes_irrefl k (heq ▸ hbefore)

end SchemaSpans
