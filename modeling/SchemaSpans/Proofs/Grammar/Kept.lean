import SchemaSpans.Proofs.List.Parts
import SchemaSpans.Proofs.Grammar.Start
import SchemaSpans.Reader.Kept

/-! What a kept value is read as, worked out on its tree. The reader and the evaluation of the
tree go hand in hand down the brackets, so a tree that is read with some allowance is read in
the same way with every allowance that is enough for its depth. -/

namespace SchemaSpans

open Reader

variable {α β σ : Type}

namespace JsonTree

/-- Puts a member among the others, if its key and its value can be kept. -/
def keptMember? (value : JsonTree → Option Json) (members : Members)
    (m : QuotedText × JsonTree) : Option Members :=
  m.1.text?.bind fun k => (value m.2).map fun v => members.insert k v

/-- The JSON value of a tree; `inside` evaluates what stands between its brackets, if it may have
any. -/
def keptWith? (inside : Option (JsonTree → Option Json)) : JsonTree → Option Json
  | null => some .null
  | bool b => some (.bool b)
  | number n => n.number?.map .number
  | string s => s.text?.map .string
  | list items => inside.bind fun value => (items.mapM value).map .list
  | object members => inside.bind fun value => (members.foldlM (keptMember? value) []).map .object

/-- The JSON value of a tree with at most so many brackets open at once. -/
def kept? : Nat → JsonTree → Option Json
  | 0 => keptWith? none
  | allowance + 1 => keptWith? (some (kept? allowance))

theorem le_depth_list {items : List JsonTree} {t : JsonTree} (h : t ∈ items) :
    t.depth + 1 ≤ (list items).depth :=
  Nat.succ_le_succ (depth_list_le_iff.mp (Nat.le_refl (list items).depth) t h)

theorem le_depth_object {members : List (QuotedText × JsonTree)} {m : QuotedText × JsonTree}
    (h : m ∈ members) : m.2.depth + 1 ≤ (object members).depth :=
  Nat.succ_le_succ (depth_object_le_iff.mp (Nat.le_refl (object members).depth) m h)

/-- An allowance that is enough for the depth is as good as any other. -/
theorem kept?_of_min_le {n m : Nat} {t : JsonTree} {v : Json} (h : kept? n t = some v)
    (hm : min n t.depth ≤ m) : kept? m t = some v := by
  -- on the first allowance; behind a bracket both allowances and the depth are one less
  induction n generalizing m t v with
  | zero =>
    match t with
    | list items | object members => cases h
    | null | bool _ | number _ | string _ => cases m <;> exact h
  | succ n ih =>
    match t with
    | null | bool _ | number _ | string _ => cases m <;> exact h
    | list items =>
      obtain ⟨vs, hvs, rfl⟩ := Option.map_eq_some_iff.mp h
      cases m with
      -- no allowance at all is not enough for a bracket
      | zero => exact absurd hm (by simp [depth])
      | succ m =>
        have hitems : items.mapM (kept? m) = some vs := by
          refine mapM_eq_some_of_imp (fun t ht v hv => ih hv ?_) hvs
          have := le_depth_list ht
          omega
        exact Option.map_eq_some_iff.mpr ⟨vs, hitems, rfl⟩
    | object members =>
      obtain ⟨kvs, hkvs, rfl⟩ := Option.map_eq_some_iff.mp h
      cases m with
      | zero => exact absurd hm (by simp [depth])
      | succ m =>
        have hmembers : members.foldlM (keptMember? (kept? m)) [] = some kvs := by
          refine foldlM_eq_some_of_imp (fun x hx kvs kvs' hstep => ?_) hkvs
          obtain ⟨k, hk, hstep⟩ := Option.bind_eq_some_iff.mp hstep
          obtain ⟨v, hv, rfl⟩ := Option.map_eq_some_iff.mp hstep
          have hdepth := le_depth_object hx
          have hv' : kept? m x.2 = some v := ih hv (by omega)
          rw [keptMember?, hk, Option.bind_some, hv', Option.map_some]
        exact Option.map_eq_some_iff.mpr ⟨kvs, hmembers, rfl⟩

end JsonTree

namespace Reader

/-- The reader makes of every tree what the evaluation says. -/
def Interprets (r : Reader α) (value : JsonTree → Option α) : Prop :=
  ∀ t : JsonTree, r.EvaluatesTree t (value t)

theorem evaluates_keptMember {r : Reader Json} {value : JsonTree → Option Json}
    (h : r.Interprets value) (m : QuotedText × JsonTree) (members : Members) :
    (keptMember r members).Evaluates (JsonTree.tokensOfMember m)
      (JsonTree.keptMember? value members m) :=
  (delimits_key m.1).bind fun k _ =>
    evaluates_behindColon ((h m.2).evaluates.map fun v => members.insert k v)

theorem delimits_items {r : Reader α} {value : JsonTree → Option α}
    (h : r.Interprets value) (items : List JsonTree) : (Bracket.list.readList r).Delimits
      (listed (items.map JsonTree.tokens) ++ [[Ascii.closeBracket]]) (items.mapM value) :=
  Bracket.delimits_readList Bracket.isRegular_list.isGrammatical
    (fun t _ => Bracket.opensWith_closeBracket rfl t) fun t _ => (h t).evaluates

theorem delimits_keptMembers {r : Reader Json} {value : JsonTree → Option Json}
    (h : r.Interprets value) (members : List (QuotedText × JsonTree)) :
    (Bracket.object.read (keptMember r) []).Delimits
      (listed (members.map JsonTree.tokensOfMember) ++ [[Ascii.closeBrace]])
      (members.foldlM (JsonTree.keptMember? value) []) :=
  Bracket.delimits_read Bracket.isRegular_object.isGrammatical
    (fun m _ => ⟨Bracket.opensWith_closeBrace rfl m, evaluates_keptMember h m⟩) []

theorem interprets_keptWith {inside : Option (Reader Json)}
    {sense : Option (JsonTree → Option Json)} (h : Option.Rel Interprets inside sense) :
    (keptWith inside).Interprets (JsonTree.keptWith? sense) := by
  intro t
  apply evaluates_start
  intro c token more v rest htokens hv hrest
  match t with
  | .null | .bool true | .bool false =>
    rw [cons_append_eq_of_tokens rfl htokens hv]
    exact accept?_bind_eq_some_iff.mpr ⟨(), rest, accept?_letters _ rest, rfl⟩
  | .number n =>
    rw [cons_append_eq_of_tokens rfl htokens hv]
    exact accept?_map (accept?_number n hrest) Json.number
  | .string s =>
    rw [cons_append_eq_of_tokens rfl htokens hv]
    exact accept?_next_string (fun rest => accept?_map (accept?_quotedText s rest) Json.string) rest
  | .list items =>
    rw [JsonTree.tokens_list, enclosed] at htokens
    cases htokens
    cases h with
    | none => rfl
    | some hvalue => exact accept?_map (delimits_items hvalue items v rest hv) Json.list
  | .object members =>
    rw [JsonTree.tokens_object, enclosed] at htokens
    cases htokens
    cases h with
    | none => rfl
    | some hvalue => exact accept?_map (delimits_keptMembers hvalue members v rest hv) Json.object

theorem interprets_kept (n : Nat) : (kept n).Interprets (JsonTree.kept? n) := by
  induction n with
  | zero => exact interprets_keptWith .none
  | succ n ih => exact interprets_keptWith (.some ih)

theorem takes_keptMember {r : Reader Json} (h : r.Takes IsTree) (members : Members) :
    (keptMember r members).Takes IsMember :=
  takes_keyed takes_key fun k => takes_behindColon (h.map fun v => members.insert k v)

theorem takes_keptMembers {r : Reader Json} (h : r.Takes IsTree) :
    (Bracket.object.read (keptMember r) []).Takes IsObjectRest :=
  Bracket.takes_read Bracket.isRegular_object.isGrammatical
    ⟨JsonTree.tokensOfMember_ne_nil, takes_keptMember h⟩ []

theorem takes_items {r : Reader α} (h : r.Takes IsTree) :
    (Bracket.list.readList r).Takes IsListRest :=
  Bracket.takes_readList Bracket.isRegular_list.isGrammatical JsonTree.tokens_ne_nil h

theorem takes_keptWith {inside : Option (Reader Json)}
    (hinside : ∀ value, inside = some value → value.Takes IsTree) :
    (keptWith inside).Takes IsTree := by
  apply takes_start rfl
  intro c input a rest h
  cases hstart : Start.ofByte c with
  | null =>
    rw [hstart] at h
    obtain ⟨_, hword⟩ := exists_of_accept?_map h
    exact beginsWithTree_of_token (t := .null) rfl (accept?_letters_eq_some_iff.mp hword)
  | true =>
    rw [hstart] at h
    obtain ⟨_, hword⟩ := exists_of_accept?_map h
    exact beginsWithTree_of_token (t := .bool true) rfl (accept?_letters_eq_some_iff.mp hword)
  | false =>
    rw [hstart] at h
    obtain ⟨_, hword⟩ := exists_of_accept?_map h
    exact beginsWithTree_of_token (t := .bool false) rfl (accept?_letters_eq_some_iff.mp hword)
  | number =>
    rw [hstart] at h
    obtain ⟨x, hnumber⟩ := exists_of_accept?_map h
    obtain ⟨n, hn, -⟩ := exists_of_accept?_number hnumber
    exact beginsWithTree_of_token (t := .number n) rfl hn
  | string =>
    rw [hstart] at h
    refine beginsWithTree_string hstart (fun input rest v hv => ?_) h
    obtain ⟨text, htext⟩ := exists_of_accept?_map hv
    exact exists_body_of_accept?_quotedText htext
  | list =>
    rw [hstart] at h
    exact beginsWithTree_list hstart
      (fun value hsome => (takes_items (hinside value hsome)).map Json.list) h
  | object =>
    rw [hstart] at h
    exact beginsWithTree_object hstart
      (fun value hsome => (takes_keptMembers (hinside value hsome)).map Json.object) h
  | other =>
    rw [hstart, accept?_reject] at h
    cases h

theorem takes_kept (n : Nat) : (kept n).Takes IsTree := by
  induction n with
  | zero => exact takes_keptWith fun value hsome => nomatch hsome
  | succ n ih => exact takes_keptWith fun value hsome => Option.some.inj hsome ▸ ih

end Reader

end SchemaSpans
