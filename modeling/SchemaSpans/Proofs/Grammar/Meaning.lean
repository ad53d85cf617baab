import Mathlib.Data.List.Induction
import Mathlib.Data.List.Sort
import SchemaSpans.Proofs.Grammar.Kept
import SchemaSpans.Proofs.Json.Path

/-! What a value means, told without saying how it is read. An object means its keys in ascending
order, each of them once, with what the last value under this key means. Whatever is kept is what
its tree means. -/

namespace SchemaSpans

/-- The value of the last member with this key. -/
def IsLast (ms : List (QuotedText × JsonTree)) (k : String) (x : JsonTree) : Prop :=
  ∃ before key after, ms = before ++ (key, x) :: after ∧ key.text? = some k ∧
    ∀ m ∈ after, m.1.text? ≠ some k

/-- These are the keys of the members, once each and in ascending order, with what the last value
under each key means. -/
structure Gathers (means : JsonTree → Json → Prop) (ms : List (QuotedText × JsonTree))
    (kvs : Members) : Prop where
  ascending : kvs.Ascending
  mem_keys_iff : ∀ k, k ∈ kvs.keys ↔ ∃ m ∈ ms, m.1.text? = some k
  means_of_isLast : ∀ k v, (k, v) ∈ kvs → ∀ x, IsLast ms k x → means x v

/-- The JSON value that a tree means. -/
inductive Means : JsonTree → Json → Prop where
  | null : Means .null .null
  | bool (b : Bool) : Means (.bool b) (.bool b)
  | number {n : NumberText} {x : Number} (h : n.number? = some x) : Means (.number n) (.number x)
  | string {s : QuotedText} {text : String} (h : s.text? = some text) :
      Means (.string s) (.string text)
  | list {items : List JsonTree} {values : List Json} (h : List.Forall₂ Means items values) :
      Means (.list items) (.list values)
  /-- The members gather into `kvs`. -/
  | object {ms : List (QuotedText × JsonTree)} {kvs : Members} (ascending : kvs.Ascending)
      (mem_keys_iff : ∀ k, k ∈ kvs.keys ↔ ∃ m ∈ ms, m.1.text? = some k)
      (means_of_isLast : ∀ k v, (k, v) ∈ kvs → ∀ x, IsLast ms k x → Means x v) :
      Means (.object ms) (.object kvs)

section Last

variable {ms : List (QuotedText × JsonTree)} {m : QuotedText × JsonTree} {k : String}
  {x : JsonTree}

/-- The last member of all is the last one with its key, and leaves the last ones with other keys
as they are. -/
theorem isLast_concat_iff : IsLast (ms ++ [m]) k x ↔
    (m.1.text? = some k ∧ x = m.2) ∨ (m.1.text? ≠ some k ∧ IsLast ms k x) := by
  constructor
  · rintro ⟨before, key, after, heq, hkey, hafter⟩
    -- the member in question is the last one of all exactly if nothing is behind it
    cases after using List.reverseRecOn with
    | nil =>
      obtain ⟨-, hm⟩ := List.append_inj' heq rfl
      rw [(List.cons.inj hm).1]
      exact Or.inl ⟨hkey, rfl⟩
    | append_singleton after m' =>
      rw [← List.cons_append, ← List.append_assoc] at heq
      obtain ⟨hms, hm⟩ := List.append_inj' heq rfl
      obtain ⟨hafter, hm'⟩ := List.forall_mem_append.mp hafter
      refine Or.inr ⟨?_, before, key, after, hms, hkey, hafter⟩
      rw [(List.cons.inj hm).1]
      exact hm' m' (List.mem_singleton_self m')
  · rintro (⟨hk, rfl⟩ | ⟨hk, before, key, after, rfl, hkey, hafter⟩)
    · exact ⟨ms, m.1, [], rfl, hk, fun _ h => (List.not_mem_nil h).elim⟩
    · refine ⟨before, key, after ++ [m], ?_, hkey, ?_⟩
      · rw [List.append_assoc, List.cons_append]
      · exact List.forall_mem_append.mpr ⟨hafter, List.forall_mem_singleton.mpr hk⟩

theorem IsLast.exists_mem (h : IsLast ms k x) : ∃ key, (key, x) ∈ ms := by
  obtain ⟨before, key, after, rfl, -⟩ := h
  exact ⟨key, List.mem_append_right before List.mem_cons_self⟩

/-- A key that is there has a last member. -/
theorem exists_isLast (h : ∃ m ∈ ms, m.1.text? = some k) : ∃ x, IsLast ms k x := by
  induction ms using List.reverseRecOn with
  | nil =>
    obtain ⟨m, hm, -⟩ := h
    exact (List.not_mem_nil hm).elim
  | append_singleton ms m ih =>
    by_cases hk : m.1.text? = some k
    · exact ⟨m.2, isLast_concat_iff.mpr (Or.inl ⟨hk, rfl⟩)⟩
    · obtain ⟨m', hm', hk'⟩ := h
      rcases List.mem_append.mp hm' with hm' | hm'
      · obtain ⟨x, hx⟩ := ih ⟨m', hm', hk'⟩
        exact ⟨x, isLast_concat_iff.mpr (Or.inr ⟨hk, hx⟩)⟩
      · exact absurd (List.mem_singleton.mp hm' ▸ hk') hk

end Last

variable {means : JsonTree → Json → Prop} {ms : List (QuotedText × JsonTree)} {kvs : Members}

theorem gathers_nil : Gathers means [] [] where
  ascending := Members.ascending_nil
  mem_keys_iff k := by simp [Members.keys]
  means_of_isLast _ _ h := (List.not_mem_nil h).elim

/-- One more member takes the place of all others with its key. -/
theorem Gathers.concat (h : Gathers means ms kvs) {m : QuotedText × JsonTree} {k : String}
    {v : Json} (hk : m.1.text? = some k) (hv : means m.2 v) :
    Gathers means (ms ++ [m]) (kvs.insert k v) where
  ascending := Members.ascending_insert h.ascending k v
  mem_keys_iff l := by
    rw [Members.mem_keys_insert_iff, h.mem_keys_iff]
    constructor
    · rintro (rfl | ⟨m', hm', hl⟩)
      · exact ⟨m, List.mem_append_right ms (List.mem_singleton_self m), hk⟩
      · exact ⟨m', List.mem_append_left [m] hm', hl⟩
    · rintro ⟨m', hm', hl⟩
      rcases List.mem_append.mp hm' with hm' | hm'
      · exact Or.inr ⟨m', hm', hl⟩
      · rw [List.mem_singleton.mp hm', hk] at hl
        exact Or.inl (Option.some.inj hl).symm
  means_of_isLast l w hw x hx := by
    -- what is new under `k` comes from the new member, and what is under other keys stays
    rcases (Members.mem_insert_iff h.ascending).mp hw with ⟨rfl, rfl⟩ | ⟨hne, hw⟩
    · rcases isLast_concat_iff.mp hx with ⟨-, rfl⟩ | ⟨hne, -⟩
      · exact hv
      · exact absurd hk hne
    · rcases isLast_concat_iff.mp hx with ⟨hl, -⟩ | ⟨-, hx⟩
      · rw [hk] at hl
        exact absurd (Option.some.inj hl).symm hne
      · exact h.means_of_isLast l w hw x hx

/-- Ascending members with the same keys and values are the same. -/
theorem Members.Ascending.eq_of_mem_iff {kvs kvs' : Members} (h : kvs.Ascending)
    (h' : kvs'.Ascending) (hmem : ∀ m, m ∈ kvs ↔ m ∈ kvs') : kvs = kvs' := by
  let before (m m' : String × Json) : Prop := Text.precedes m.1 m'.1 = true
  have hirrefl (m : String × Json) : ¬ before m m := Text.precedes_irrefl m.1
  have : Std.Irrefl before := ⟨hirrefl⟩
  have : Std.Antisymm before := ⟨fun m m' hm hm' =>
    absurd (Text.precedes_trans hm hm') (hirrefl m)⟩
  have hkvs : kvs.Pairwise before := List.pairwise_map.mp h
  exact hkvs.eq_of_mem_iff (List.pairwise_map.mp h') hmem

/-- Members gather in one way only, if each of their values means one thing only. -/
theorem Gathers.unique {kvs' : Members} (h : Gathers means ms kvs) (h' : Gathers means ms kvs')
    (hunique : ∀ m ∈ ms, ∀ v w, means m.2 v → means m.2 w → v = w) : kvs = kvs' := by
  have hsub {kvs kvs' : Members} (h : Gathers means ms kvs) (h' : Gathers means ms kvs')
      (k : String) (v : Json) (hkv : (k, v) ∈ kvs) : (k, v) ∈ kvs' := by
    -- both have the key, and under it what the same last member means
    have hmem := (h.mem_keys_iff k).mp (Members.mem_keys.mpr ⟨v, hkv⟩)
    obtain ⟨w, hkw⟩ := Members.mem_keys.mp ((h'.mem_keys_iff k).mpr hmem)
    obtain ⟨x, hx⟩ := exists_isLast hmem
    obtain ⟨key, hin⟩ := hx.exists_mem
    have hvw : v = w :=
      hunique (key, x) hin v w (h.means_of_isLast k v hkv x hx) (h'.means_of_isLast k w hkw x hx)
    exact hvw ▸ hkw
  exact h.ascending.eq_of_mem_iff h'.ascending fun m =>
    ⟨hsub h h' m.1 m.2, hsub h' h m.1 m.2⟩

/-- A tree means one value at most. -/
theorem Means.unique {x : JsonTree} {v w : Json} (hv : Means x v) (hw : Means x w) : v = w := by
  -- on the depth of the tree; what stands inside its brackets is less deep
  induction hd : x.depth using Nat.strong_induction_on generalizing x v w with
  | _ d ih =>
    subst hd
    cases hv with
    | null | bool b =>
      cases hw
      rfl
    | number h =>
      cases hw with
      | number h' => exact congrArg Json.number (Option.some.inj (h.symm.trans h'))
    | string h =>
      cases hw with
      | string h' => exact congrArg Json.string (Option.some.inj (h.symm.trans h'))
    | list h =>
      cases hw with
      | list h' =>
        have hvalues := forall₂_unique (p := Means)
          (fun y hy v w hv hw => ih y.depth (JsonTree.le_depth_list hy) hv hw rfl) h h'
        rw [hvalues]
    | object hascending hkeys hlast =>
      cases hw with
      | object hascending' hkeys' hlast' =>
        have hkvs := Gathers.unique ⟨hascending, hkeys, hlast⟩ ⟨hascending', hkeys', hlast'⟩
          fun m hm v w hv hw => ih m.2.depth (JsonTree.le_depth_object hm) hv hw rfl
        rw [hkvs]

namespace JsonTree

/-- Members that are put in one after another gather. -/
theorem gathers_of_foldlM {value : JsonTree → Option Json}
    (hvalue : ∀ x v, value x = some v → means x v)
    (h : ms.foldlM (keptMember? value) [] = some kvs) : Gathers means ms kvs := by
  induction ms using List.reverseRecOn generalizing kvs with
  | nil =>
    cases h
    exact gathers_nil
  | append_singleton ms m ih =>
    rw [foldlM_concat] at h
    obtain ⟨kvs₀, hms, hm⟩ := Option.bind_eq_some_iff.mp h
    obtain ⟨k, hk, hm⟩ := Option.bind_eq_some_iff.mp hm
    obtain ⟨v, hv, rfl⟩ := Option.map_eq_some_iff.mp hm
    exact (ih hms).concat hk (hvalue m.2 v hv)

theorem means_of_keptWith?_none {x : JsonTree} {v : Json} (h : keptWith? none x = some v) :
    Means x v := by
  match x with
  | null => exact Option.some.inj h ▸ .null
  | bool b => exact Option.some.inj h ▸ .bool b
  | number t =>
    obtain ⟨y, hy, rfl⟩ := Option.map_eq_some_iff.mp h
    exact .number hy
  | string s =>
    obtain ⟨text, htext, rfl⟩ := Option.map_eq_some_iff.mp h
    exact .string htext
  | list _ | object _ => cases h

/-- Whatever a tree is kept as is what it means. -/
theorem means_of_kept? {n : Nat} {x : JsonTree} {v : Json} (h : kept? n x = some v) :
    Means x v := by
  -- on the allowance; what stands between brackets is kept with one less
  induction n generalizing x v with
  | zero => exact means_of_keptWith?_none h
  | succ n ih =>
    match x with
    | null | bool _ | number _ | string _ => exact means_of_keptWith?_none h
    | list items =>
      obtain ⟨values, hvalues, rfl⟩ := Option.map_eq_some_iff.mp h
      exact .list ((mapM_eq_some_iff.mp hvalues).imp fun y w hw => ih hw)
    | object ms =>
      obtain ⟨kvs, hkvs, rfl⟩ := Option.map_eq_some_iff.mp h
      have hgathers : Gathers Means ms kvs := gathers_of_foldlM (fun y w hw => ih hw) hkvs
      exact .object hgathers.ascending hgathers.mem_keys_iff hgathers.means_of_isLast

/-- A way leads from a tree to one inside it. Of the members with one key only the last one
counts. -/
inductive LeadsTo : JsonTree → List JsonStep → JsonTree → Prop where
  | here (x : JsonTree) : LeadsTo x [] x
  | item {items : List JsonTree} {i : Nat} {way : List JsonStep} {x y : JsonTree}
      (hitem : items[i]? = some x) (h : LeadsTo x way y) : LeadsTo (list items) (.item i :: way) y
  | member {ms : List (QuotedText × JsonTree)} {k : String} {way : List JsonStep} {x y : JsonTree}
      (hlast : IsLast ms k x) (h : LeadsTo x way y) : LeadsTo (object ms) (.member k :: way) y

/-- A way that leads through the members of an object begins with the key of one of them. -/
theorem LeadsTo.exists_isLast {ms : List (QuotedText × JsonTree)} {way : List JsonStep}
    {y : JsonTree} (h : LeadsTo (object ms) way y) (hy : y ≠ object ms) :
    ∃ k more x, way = .member k :: more ∧ IsLast ms k x := by
  cases h with
  | here => exact absurd rfl hy
  | @member _ k more x _ hlast _ => exact ⟨k, more, x, rfl, hlast⟩

/-- Where a way leads in a tree it leads in what the tree means, to what is meant there. -/
theorem exists_reach?_of_leadsTo {x y : JsonTree} {way : List JsonStep} (h : x.LeadsTo way y)
    {v : Json} (hv : Means x v) : ∃ u, v.reach? way = some u ∧ Means y u := by
  induction h generalizing v with
  | here x => exact ⟨v, rfl, hv⟩
  | item hitem _ ih =>
    cases hv with
    | list hvalues =>
      obtain ⟨w, hw, hx⟩ := exists_getElem?_of_forall₂ hvalues hitem
      obtain ⟨u, hreach, hu⟩ := ih hx
      refine ⟨u, ?_, hu⟩
      rw [Json.reach?, hw, Option.bind_some, hreach]
  | @member ms k way x y hlast _ ih =>
    cases hv with
    | @object _ kvs hascending hkeys hmeans =>
      -- the key is there, and under it stands what its last member means
      obtain ⟨before, key, after, hms, hkey, -⟩ := id hlast
      have hthere : ∃ m ∈ ms, m.1.text? = some k :=
        ⟨(key, x), hms ▸ List.mem_append_right before List.mem_cons_self, hkey⟩
      obtain ⟨w, hw⟩ := Members.mem_keys.mp ((hkeys k).mpr hthere)
      obtain ⟨u, hreach, hu⟩ := ih (hmeans k w hw x hlast)
      refine ⟨u, ?_, hu⟩
      rw [Json.reach?, hascending.lookup_eq_some hw, Option.bind_some, hreach]

end JsonTree

end SchemaSpans
