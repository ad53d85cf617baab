import SchemaSpans.Proofs.Json.Ordered
import SchemaSpans.Proofs.Reader.Integer
import SchemaSpans.Proofs.Reader.Sequence

/-! A kept value is read back from what is written for it, if its objects are maps and
its numbers are whole. The only thing that can stop the reader is a bracket too many, so
the result depends on the depth of the value alone. -/

namespace SchemaSpans

namespace Json

variable {α : Type}

def start : Json → Start
  | null => .null
  | bool true => .true
  | bool false => .false
  | number _ => .number
  | string _ => .string
  | list _ => .list
  | object _ => .object

theorem start_ne_other (v : Json) : v.start ≠ .other := by
  fun_cases start v <;> decide

/-- The first byte of a value tells how it begins. -/
theorem bytes_eq_cons {v : Json} (hv : v.isNotFractional = true) :
    ∃ b rest, v.bytes = b :: rest ∧ Start.ofByte b = v.start := by
  have hdigit : ∀ d < 10, Start.ofByte (Ascii.digitByte d) = .number := by decide
  match v with
  | null => exact ⟨_, _, rfl, rfl⟩
  | bool true => exact ⟨_, _, rfl, rfl⟩
  | bool false => exact ⟨_, _, rfl, rfl⟩
  | number (.whole n) =>
    by_cases hn : n.val < 0
    · refine ⟨Ascii.minus, Text.encode (Nat.toDigits 10 n.val.natAbs), ?_, rfl⟩
      rw [bytes, written, Number.written, Number.writtenInt, if_pos hn]
      rfl
    · obtain ⟨d, ds, hds, hd⟩ := Literal.decimal_eq_cons n.val.natAbs
      refine ⟨Ascii.digitByte d, ds.map Ascii.digitByte, ?_, hdigit d hd⟩
      rw [bytes, written, Number.written, Number.writtenInt, if_neg hn, Literal.encode_toDigits, hds,
        List.map_cons]
  | number (.fractional x) => exact absurd hv Bool.false_ne_true
  | string s => exact ⟨_, _, quotedBytes_eq s, rfl⟩
  | list items => exact ⟨_, _, bytes_list items, rfl⟩
  | object members => exact ⟨_, _, bytes_object members, rfl⟩

/-- The result of reading a value as `a` where at most `n` brackets may be open. -/
def limited (n : Nat) (v : Json) (a : α) : Except Cause α :=
  if v.depth ≤ n then .ok a else .error .nestedTooDeep

theorem map_limited {β : Type} (f : α → β) (n : Nat) (v : Json) (a : α) :
    (v.limited n a).map f = v.limited n (f a) := by
  rw [limited, limited]
  split <;> rfl

end Json

theorem Start.isBlank_eq_false {b : UInt8} (h : Start.ofByte b ≠ .other) :
    Ascii.isBlank b = Bool.false := by
  rw [Bool.eq_false_iff]
  intro hb
  simp only [Ascii.isBlank, Bool.or_eq_true, decide_eq_true_eq] at hb
  rcases hb with ((rfl | rfl) | rfl) | rfl <;> exact h rfl

namespace Bracket

theorem opens_list {v : Json} (hv : v.isNotFractional = true) : list.Opens v.bytes := by
  obtain ⟨b, rest, hbytes, hstart⟩ := Json.bytes_eq_cons hv
  have hother : Start.ofByte b ≠ .other := hstart ▸ v.start_ne_other
  refine ⟨b, rest, hbytes, Start.isBlank_eq_false hother, ?_⟩
  rintro rfl
  exact hother rfl

theorem opens_object (m : String × Json) : object.Opens (Json.memberBytes m) := by
  refine ⟨Ascii.quote, Text.encode (m.1.toList.flatMap Json.escaped) ++ [Ascii.quote] ++
    Ascii.colon :: m.2.bytes, ?_, by decide, by decide⟩
  rw [Json.memberBytes, Json.quotedBytes_eq, List.cons_append]

end Bracket

namespace Reader

variable {α : Type}

theorem run_start {v : Json} (hv : v.isNotFractional = true) (rest : Input) :
    start.run (v.bytes ++ rest) = .done (some v.start) (v.bytes ++ rest) := by
  obtain ⟨b, w, hbytes, hstart⟩ := Json.bytes_eq_cons hv
  have hblank : Ascii.isBlank b = false := Start.isBlank_eq_false (hstart ▸ v.start_ne_other)
  simp only [start, hbytes, List.cons_append, run_bind, run_token_cons hblank, Option.map_some,
    hstart, run_pure]

theorem is_readList (element : Reader α) (toJson : α → Json) (n : Nat) (xs : List α)
    (hstart : ∀ x ∈ xs, (toJson x).isNotFractional = true)
    (hreads : ∀ x ∈ xs, element.Reads (toJson x).bytes ((toJson x).limited n x)) (rest : Input) :
    ((Bracket.list.readList element).run
      (separated (xs.map fun x => (toJson x).bytes) ++ Ascii.closeBracket :: rest)).Is rest
      ((Json.list (xs.map toJson)).limited (n + 1) xs) := by
  have hchain : Bracket.Chain .list (fun before => do let a ← element; pure (a :: before)) []
      (xs.map fun x => (toJson x).bytes)
      (if ∀ x ∈ xs, (toJson x).depth ≤ n then .ok xs.reverse else .error .nestedTooDeep) := by
    -- the list reader keeps what it has read last first
    refine Bracket.chain_of_parts _ _ n List.reverse xs
      (fun x hx => Bracket.opens_list (hstart x hx)) ?_
    rintro done x todo rfl
    have hread := (hreads x (List.mem_append_right done List.mem_cons_self)).map
      fun a => a :: done.reverse
    rw [Json.map_limited] at hread
    rw [List.reverse_append]
    exact hread
  have hread := is_map (Bracket.read_of_chain Bracket.isRegular_list hchain rest) List.reverse
  rw [Json.limited]
  simp only [Json.depth_list_le_iff, List.forall_mem_map]
  split at hread
  · rename_i hdepth
    rw [if_pos hdepth]
    rwa [Except.map, List.reverse_reverse] at hread
  · rename_i hdepth
    rw [if_neg hdepth]
    exact hread

theorem run_key_memberBytes (m : String × Json) (rest : Input) :
    key.run (Json.memberBytes m ++ rest) =
      .done m.1 (Ascii.colon :: (m.2.bytes ++ rest)) := by
  rw [Json.memberBytes, List.append_assoc, run_key, List.cons_append]

/-- The members of an object go in behind those that were read before. -/
theorem is_readMembers (value : Reader Json) (n : Nat) {members : Members}
    (hascending : Members.Ascending members)
    (hreads : ∀ m ∈ members, value.Reads m.2.bytes (m.2.limited n m.2)) (rest : Input) :
    ((Bracket.object.read (keptMember value) []).run
      (separated (members.map Json.memberBytes) ++ Ascii.closeBrace :: rest)).Is rest
      ((Json.object members).limited (n + 1) members) := by
  have hchain : Bracket.Chain .object (keptMember value) [] (members.map Json.memberBytes)
      (if ∀ m ∈ members, m.2.depth ≤ n then .ok members else .error .nestedTooDeep) := by
    refine Bracket.chain_of_parts _ _ n id members (fun m _ => Bracket.opens_object m) ?_
    rintro done ⟨k, v⟩ todo rfl
    intro rest hrest
    -- keys ascend, so the place of a new member is behind those that were read before
    have hinsert : Members.insert k v done = done ++ [(k, v)] :=
      Members.insert_eq_append (Members.precedes_of_ascending_append hascending) v
    have hvalue := is_map
      (hreads (k, v) (List.mem_append_right done List.mem_cons_self) rest hrest)
      fun v => Members.insert k v done
    rw [Json.map_limited, hinsert] at hvalue
    simp only [keptMember, run_bind, run_key_memberBytes, run_colon]
    exact hvalue
  have hread := Bracket.read_of_chain Bracket.isRegular_object hchain rest
  rw [Json.limited]
  simp only [Json.depth_object_le_iff]
  exact hread

theorem run_keptWith_string (inside : Option (Reader Json)) (s : String) (rest : Input) :
    (keptWith inside).run ((Json.string s).bytes ++ rest) = .done (.string s) rest := by
  have hstart := run_start (v := .string s) rfl rest
  simp only [keptWith, run_bind, hstart, Json.start]
  simp only [Json.bytes_string_append, run_next_cons, run_quotedText, run_pure]

theorem reads_keptWith_flat (inside : Option (Reader Json)) {v : Json} (hwhole : v.IsWhole)
    (hdepth : v.depth = 0) : (keptWith inside).Reads v.bytes (.ok v) := by
  intro rest hrest
  match v with
  | .null => rfl
  | .bool true => rfl
  | .bool false => rfl
  | .string s => exact run_keptWith_string inside s rest
  | .number (.whole n) =>
    have hstart := run_start (v := .number (.whole n)) rfl rest
    simp only [keptWith, run_bind, hstart, Json.start]
    exact is_map (reads_whole n rest hrest) Json.number
  | .number (.fractional x) => exact absurd hwhole (Json.not_isWhole_fractional x)
  | .list items => exact absurd hdepth (Nat.succ_ne_zero _)
  | .object members => exact absurd hdepth (Nat.succ_ne_zero _)

theorem run_keptWith_list (value : Reader Json) (items : List Json) (rest : Input) :
    (keptWith (some value)).run ((Json.list items).bytes ++ rest) =
      (Bracket.list.readList value >>= fun items => pure (Json.list items)).run
        (separated (items.map Json.bytes) ++ Ascii.closeBracket :: rest) := by
  rw [Json.bytes_list, List.cons_append, List.append_assoc]
  rfl

theorem run_keptWith_object (value : Reader Json) (members : Members) (rest : Input) :
    (keptWith (some value)).run ((Json.object members).bytes ++ rest) =
      (Bracket.object.read (keptMember value) [] >>= fun members => pure (Json.object members)).run
        (separated (members.map Json.memberBytes) ++ Ascii.closeBrace :: rest) := by
  rw [Json.bytes_object, List.cons_append, List.append_assoc]
  rfl

theorem reads_keptWith_none {v : Json} (hdepth : v.depth ≠ 0) :
    (keptWith none).Reads v.bytes (.error .nestedTooDeep) := by
  intro rest hrest
  match v with
  | .list items =>
    rw [Json.bytes_list]
    exact ⟨_, rfl⟩
  | .object members =>
    rw [Json.bytes_object]
    exact ⟨_, rfl⟩
  | .null | .bool _ | .number _ | .string _ => exact absurd rfl hdepth

/-- A value with at most `n` brackets open at once is read back; any other is refused. -/
theorem reads_kept (n : Nat) (v : Json) (hwhole : v.IsWhole) (hordered : v.IsOrdered) :
    (kept n).Reads v.bytes (v.limited n v) := by
  -- on the allowance, which goes down with every bracket as the depth of the value does
  induction n generalizing v with
  | zero =>
    rw [Json.limited]
    split
    · rename_i hdepth
      exact reads_keptWith_flat none hwhole (Nat.le_zero.mp hdepth)
    · rename_i hdepth
      exact reads_keptWith_none fun hzero => hdepth (Nat.le_zero.mpr hzero)
  | succ n ih =>
    match v with
    | .list items =>
      rw [Json.isWhole_list] at hwhole
      rw [Json.isOrdered_list] at hordered
      intro rest hrest
      have hread := is_map (is_readList (kept n) id n items
        (fun v hv => Json.isNotFractional_of_isWhole (hwhole v hv))
        (fun v hv => ih v (hwhole v hv) (hordered v hv)) rest) Json.list
      rw [Json.map_limited, List.map_id] at hread
      rw [kept, run_keptWith_list]
      exact hread
    | .object members =>
      rw [Json.isWhole_object] at hwhole
      obtain ⟨hascending, hordered⟩ := Json.isOrdered_object.mp hordered
      intro rest hrest
      have hread := is_map (is_readMembers (kept n) n hascending
        (fun m hm => ih m.2 (hwhole m hm) (hordered m hm)) rest) Json.object
      rw [Json.map_limited] at hread
      rw [kept, run_keptWith_object]
      exact hread
    | .null | .bool _ | .number _ | .string _ => exact reads_keptWith_flat _ hwhole rfl

end Reader

end SchemaSpans
