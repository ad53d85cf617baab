import SchemaSpans.Proofs.Grammar.Start
import SchemaSpans.Reader.Skip

/-! What is passed over is one tree, and every tree is passed over, however deep it is and
whatever its numbers and its surrogates are. -/

namespace SchemaSpans

open Reader

namespace JsonTree

/-- Each bracket of a tree takes a byte. -/
theorem depth_le_length {t : JsonTree} {w : Input} (h : Spaced t.tokens w) :
    t.depth ≤ w.length := by
  have hdepth := nests_tokens t w 0 [] h
  have hle := Text.nestingFrom_le .outside 0 w
  rw [List.append_nil, Text.nestingFrom, Nat.zero_add] at hdepth
  omega

end JsonTree

namespace Reader

variable {α : Type}

theorem skipMember_eq (value : Reader Unit) (u : Unit) :
    skipMember value u = skipKey >>= fun _ => colon >>= fun _ => value :=
  (bind_assoc ..).symm

theorem evaluates_skipMember {value : Reader Unit} {m : QuotedText × JsonTree}
    (h : value.Evaluates m.2.tokens (some ())) (u : Unit) :
    (skipMember value u).Evaluates (JsonTree.tokensOfMember m) (some ()) := by
  rw [skipMember_eq]
  exact (delimits_skipKey m.1).bind fun _ _ => evaluates_behindColon h

theorem foldlM_some (parts : List α) : parts.foldlM (fun u _ => some u) () = some () := by
  induction parts with
  | nil => rfl
  | cons part parts ih => exact ih

/-- A value without parts is passed over whatever may be inside brackets. -/
theorem evaluates_skipWith_flat (inside : Option (Reader Unit)) {t : JsonTree}
    (h : t.depth = 0) : (skipWith inside).EvaluatesTree t (some ()) := by
  apply evaluates_start
  intro c token more v rest htokens hv hrest
  match t with
  | .null | .bool true | .bool false =>
    rw [cons_append_eq_of_tokens rfl htokens hv]
    exact accept?_letters _ rest
  | .number n =>
    rw [cons_append_eq_of_tokens rfl htokens hv]
    exact accept?_skipNumber n hrest
  | .string s =>
    rw [cons_append_eq_of_tokens rfl htokens hv]
    exact accept?_next_string (accept?_skipQuoted s) rest
  | .list items | .object members => exact absurd h (Nat.succ_ne_zero _)

theorem evaluates_skipWith_list {value : Reader Unit} {items : List JsonTree}
    (h : ∀ t ∈ items, value.Evaluates t.tokens (some ())) :
    (skipWith (some value)).EvaluatesTree (.list items) (some ()) := by
  have hread : (Bracket.list.lenient.read (skipItem value) ()).Delimits
      (listed (items.map JsonTree.tokens) ++ [[Ascii.closeBracket]])
      (items.foldlM (fun u _ => some u) ()) :=
    Bracket.delimits_read Bracket.isRegular_list.isGrammatical_lenient
      (fun t ht => ⟨Bracket.opensWith_closeBracket rfl t, fun _ => h t ht⟩) ()
  rw [foldlM_some] at hread
  apply evaluates_start
  intro c token more v rest htokens hv hrest
  rw [JsonTree.tokens_list, enclosed] at htokens
  cases htokens
  exact hread v rest hv

theorem evaluates_skipWith_object {value : Reader Unit} {members : List (QuotedText × JsonTree)}
    (h : ∀ m ∈ members, value.Evaluates m.2.tokens (some ())) :
    (skipWith (some value)).EvaluatesTree (.object members) (some ()) := by
  have hread : (Bracket.object.lenient.read (skipMember value) ()).Delimits
      (listed (members.map JsonTree.tokensOfMember) ++ [[Ascii.closeBrace]])
      (members.foldlM (fun u _ => some u) ()) :=
    Bracket.delimits_read Bracket.isRegular_object.isGrammatical_lenient
      (fun m hm => ⟨Bracket.opensWith_closeBrace rfl m, evaluates_skipMember (h m hm)⟩) ()
  rw [foldlM_some] at hread
  apply evaluates_start
  intro c token more v rest htokens hv hrest
  rw [JsonTree.tokens_object, enclosed] at htokens
  cases htokens
  exact hread v rest hv

/-- A tree is passed over if the allowance is enough for its brackets. -/
theorem evaluates_skipWithin {n : Nat} {t : JsonTree} (h : t.depth ≤ n) :
    (skipWithin n).EvaluatesTree t (some ()) := by
  -- on the allowance, which goes down with every bracket as the depth of the tree does
  induction n generalizing t with
  | zero => exact evaluates_skipWith_flat none (Nat.le_zero.mp h)
  | succ n ih =>
    match t with
    | .list items =>
      have hitems := JsonTree.depth_list_le_iff.mp h
      exact evaluates_skipWith_list fun t ht => (ih (hitems t ht)).evaluates
    | .object members =>
      have hmembers := JsonTree.depth_object_le_iff.mp h
      exact evaluates_skipWith_object fun m hm => (ih (hmembers m hm)).evaluates
    | .null | .bool _ | .number _ | .string _ => exact evaluates_skipWith_flat _ rfl

/-- Every tree is passed over. -/
theorem evaluates_skip (t : JsonTree) : skip.EvaluatesTree t (some ()) := by
  intro w rest hw hrest
  -- the allowance is the length of the input, and each bracket of the tree is one byte of it
  have hdepth : t.depth ≤ (w ++ rest).length := by
    have := JsonTree.depth_le_length hw
    rw [List.length_append]
    omega
  exact evaluates_skipWithin hdepth w rest hw hrest

theorem takes_skipItems {value : Reader Unit} (h : value.Takes IsTree) :
    (Bracket.list.lenient.read (skipItem value) ()).Takes IsListRest :=
  Bracket.takes_read Bracket.isRegular_list.isGrammatical_lenient
    ⟨JsonTree.tokens_ne_nil, fun _ => h⟩ ()

theorem takes_skipMember {value : Reader Unit} (h : value.Takes IsTree) (u : Unit) :
    (skipMember value u).Takes IsMember := by
  rw [skipMember_eq]
  exact takes_keyed takes_skipKey fun _ => takes_behindColon h

theorem takes_skipMembers {value : Reader Unit} (h : value.Takes IsTree) :
    (Bracket.object.lenient.read (skipMember value) ()).Takes IsObjectRest :=
  Bracket.takes_read Bracket.isRegular_object.isGrammatical_lenient
    ⟨JsonTree.tokensOfMember_ne_nil, takes_skipMember h⟩ ()

theorem takes_skipWith {inside : Option (Reader Unit)}
    (hinside : ∀ value, inside = some value → value.Takes IsTree) :
    (skipWith inside).Takes IsTree := by
  apply takes_start rfl
  intro c input a rest h
  cases hstart : Start.ofByte c with
  | null =>
    rw [hstart] at h
    exact beginsWithTree_of_token (t := .null) rfl (accept?_letters_eq_some_iff.mp h)
  | true =>
    rw [hstart] at h
    exact beginsWithTree_of_token (t := .bool true) rfl (accept?_letters_eq_some_iff.mp h)
  | false =>
    rw [hstart] at h
    exact beginsWithTree_of_token (t := .bool false) rfl (accept?_letters_eq_some_iff.mp h)
  | number =>
    rw [hstart] at h
    obtain ⟨n, hn, -⟩ := exists_of_accept?_skipNumber h
    exact beginsWithTree_of_token (t := .number n) rfl hn
  | string =>
    rw [hstart] at h
    exact beginsWithTree_string hstart (fun _ _ _ => exists_body_of_accept?_skipQuoted) h
  | list =>
    rw [hstart] at h
    exact beginsWithTree_list hstart (fun value hsome => takes_skipItems (hinside value hsome)) h
  | object =>
    rw [hstart] at h
    exact beginsWithTree_object hstart
      (fun value hsome => takes_skipMembers (hinside value hsome)) h
  | other =>
    rw [hstart, accept?_reject] at h
    cases h

theorem takes_skipWithin (n : Nat) : (skipWithin n).Takes IsTree := by
  induction n with
  | zero => exact takes_skipWith fun value hsome => nomatch hsome
  | succ n ih => exact takes_skipWith fun value hsome => Option.some.inj hsome ▸ ih

/-- Nothing but a tree is passed over. -/
theorem takes_skip : skip.Takes IsTree :=
  fun input => takes_skipWithin input.length input

/-- A number is passed over by its own reader, whatever the allowance. -/
theorem accept?_skipWithin_number (k : Nat) {n : NumberText} {w : Input}
    (hw : Spaced (JsonTree.number n).tokens w) (rest : Input) :
    (skipWithin k).accept? (w ++ rest) = skipNumber.accept? (n.bytes ++ rest) := by
  obtain ⟨c, digits, hbytes, hstart⟩ := JsonTree.exists_numberBytes_eq_cons n
  have hblank : Ascii.isBlank c = false :=
    Start.isBlank_eq_false (by rw [hstart]; exact nofun)
  have hw' : Spaced [c :: digits] w := hbytes ▸ hw
  obtain ⟨v, hv, hdrop⟩ := hw'.dropWhile_append hblank rest
  cases hv
  have hskip (inside : Option (Reader Unit)) :
      (skipWith inside).accept? (w ++ rest) = skipNumber.accept? (n.bytes ++ rest) := by
    simp only [skipWith, accept?_bind, accept?_start, hdrop, List.head?_cons, Option.map_some,
      hstart, Option.bind_some, hbytes]
    rfl
  cases k with
  | zero => exact hskip none
  | succ k => exact hskip (some (skipWithin k))

/-- A number that has been passed over is a literal that nothing continues. -/
theorem exists_endsBefore_of_accept?_skip {n : NumberText} {w rest : Input}
    (hw : Spaced (JsonTree.number n).tokens w) (h : skip.accept? (w ++ rest) = some ((), rest)) :
    ∃ m : NumberText, m.bytes = n.bytes ∧ m.EndsBefore rest := by
  have hnumber : skipNumber.accept? (n.bytes ++ rest) = some ((), rest) := by
    rw [← accept?_skipWithin_number (w ++ rest).length hw rest]
    exact h
  obtain ⟨m, hm, hends⟩ := exists_of_accept?_skipNumber hnumber
  exact ⟨m, (List.append_cancel_right hm).symm, hends⟩

/-- What is passed over is one tree with nothing behind it that would continue it, and that is all
that a tree needs to be passed over. -/
theorem accept?_skip_eq_some_iff {input rest : Input} :
    skip.accept? input = some ((), rest) ↔
      ∃ (t : JsonTree) (w : Input), input = w ++ rest ∧ Spaced t.tokens w ∧ t.EndsBefore rest := by
  constructor
  · intro h
    obtain ⟨_, w, ⟨t, rfl⟩, rfl, hw⟩ := takes_skip _ _ _ h
    match t with
    | .number n =>
      obtain ⟨m, hbytes, hends⟩ := exists_endsBefore_of_accept?_skip hw h
      have hm : Spaced [m.bytes] w := by
        rw [hbytes]
        exact hw
      exact ⟨.number m, w, rfl, hm, hends⟩
    | .null | .bool _ | .string _ | .list _ | .object _ => exact ⟨_, w, rfl, hw, trivial⟩
  · rintro ⟨t, w, rfl, hw, hends⟩
    exact evaluates_skip t w rest hw hends

end Reader

end SchemaSpans
