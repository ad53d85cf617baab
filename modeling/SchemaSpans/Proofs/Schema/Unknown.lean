import SchemaSpans.Proofs.Schema.Evaluation
import SchemaSpans.Proofs.Schema.Table

/-! Members that a record has no field for. What stands behind their keys is passed over if it is a
value of the grammar, whatever it is, and all of it is passed over; nothing else is. -/

namespace SchemaSpans

open Reader

namespace Reader

variable {t : RecordType} {k : QuotedText} {key : String} {w : Input}

/-- A closed record passes over the value of a member that it has no field for. -/
theorem accept?_member_of_notMem (hclosed : t.isOpen = false) (hk : k.text? = some key)
    (hkey : key ∉ t.spellings) (hw : Spaced [k.bytes, [Ascii.colon]] w) (inside : Inside)
    (d : Draft t) (input : Input) : (member inside d).accept? (w ++ input) =
      (skip.accept? input).map fun p => (d, p.2) := by
  have hsplit : Spaced ([k.bytes] ++ [[Ascii.colon]]) w := hw
  obtain ⟨u, v, rfl, hu, hv⟩ := hsplit.exists_append
  have hreadKey : Reader.key.accept? (u ++ (v ++ input)) = some (key, v ++ input) := by
    rw [delimits_key k u (v ++ input) hu, hk]
    rfl
  have hreadColon : colon.accept? (v ++ input) = some ((), input) := delimits_colon v input hv
  have hnone : t.field? key = none := RecordType.field?_eq_none_iff.mpr hkey
  simp only [member, List.append_assoc, accept?_bind, hreadKey, hreadColon, Option.bind_some,
    hnone, hclosed, Bool.false_eq_true, if_false, accept?_pure]
  cases skip.accept? input <;> rfl

/-- Behind the key of a member that a record has no field for, one value of the grammar is passed
over, up to its end and no further, and nothing is read of it; and if there is none, reading stops.
Where a number ends, no longer literal begins with it. -/
theorem run_member_unknown_iff (ht : t ≠ .options) (hk : k.text? = some key)
    (hkey : key ∉ t.spellings) (hw : Spaced [k.bytes, [Ascii.colon]] w) (inside : Inside)
    (d : Draft t) :
    (∀ input d' rest, (member inside d).run (w ++ input) = .done d' rest ↔
        d' = d ∧ ∃ (x : JsonTree) (v : Input),
          input = v ++ rest ∧ Spaced x.tokens v ∧ x.EndsBefore rest) ∧
      ∀ (n : NumberText) (v rest : Input), Spaced (JsonTree.number n).tokens v →
        (member inside d).run (w ++ (v ++ rest)) = .done d rest →
        ∀ (m : NumberText) (rest' : Input), m.bytes ++ rest' = n.bytes ++ rest →
          m.bytes.length ≤ n.bytes.length := by
  have hclosed : t.isOpen = false := decide_eq_false ht
  have hrun (input : Input) (d' : Draft t) (rest : Input) :
      (member inside d).run (w ++ input) = .done d' rest ↔
        d' = d ∧ skip.accept? input = some ((), rest) := by
    rw [← accept?_eq_some_iff, accept?_member_of_notMem hclosed hk hkey hw inside d input,
      Option.map_eq_some_iff]
    constructor
    · rintro ⟨⟨_, rest'⟩, hskip, heq⟩
      obtain ⟨rfl, rfl⟩ := Prod.mk.inj heq
      exact ⟨rfl, hskip⟩
    · rintro ⟨rfl, hskip⟩
      exact ⟨((), rest), hskip, rfl⟩
  constructor
  · intro input d' rest
    rw [hrun, accept?_skip_eq_some_iff]
  · intro n v rest hv hdone m rest' hlonger
    have hskip : skip.accept? (v ++ rest) = some ((), rest) := ((hrun _ _ _).mp hdone).2
    obtain ⟨n', hbytes, hends⟩ := exists_endsBefore_of_accept?_skip hv hskip
    rw [← hbytes] at hlonger ⊢
    exact Numeral.length_le_of_endsBefore hends hlonger

/-- A list that holds a number beyond all doubles and half of a surrogate pair, in front of the
brace that ends the record, and a number that goes on behind its point. -/
theorem run_member_unknown_iff_later :
    (member { json := kept 0, value := value 0 } (Draft.empty .location)).run
        (Text.bytes "\"later\" :[1e999,\"\\ud800\"]\x7d") =
      .done (Draft.empty .location) [Ascii.closeBrace] ∧
    (member { json := kept 0, value := value 0 } (Draft.empty .location)).run
        (Text.bytes "\"later\" :1.5.") =
      .done (Draft.empty .location) [Ascii.point] := by
  let later : QuotedText := .plain (Text.bytes "later") (by decide)
  let one : DigitRun := ⟨1, []⟩
  let huge : NumberText := ⟨false, one, fun h => absurd h (by decide), none,
    some ⟨false, none, ⟨9, [9, 9]⟩⟩⟩
  let half : QuotedText := [.unit 0x64 0x38 0x30 0x30 0xD800 (by decide)]
  let small : NumberText := ⟨false, one, fun h => absurd h (by decide), some ⟨5, []⟩, none⟩
  let w : Input := later.bytes ++ ([Ascii.space] ++ ([Ascii.colon] ++ []))
  have hw : Spaced [later.bytes, [Ascii.colon]] w :=
    .cons_self (.cons (List.forall_mem_singleton.mpr (by decide)) .nil)
  have hrun := run_member_unknown_iff (t := .location) (by decide) (QuotedText.text?_plain _)
    (by decide) hw { json := kept 0, value := value 0 } (Draft.empty .location)
  have hlist : Text.bytes "\"later\" :[1e999,\"\\ud800\"]\x7d" =
      w ++ ((JsonTree.list [.number huge, .string half]).tokens.flatten ++ [Ascii.closeBrace]) := by
    decide +kernel
  have hnumber : Text.bytes "\"later\" :1.5." = w ++ (small.bytes ++ [Ascii.point]) := by
    decide +kernel
  -- a second point does not continue a number that has one
  have hends : small.EndsBefore [Ascii.point] :=
    ⟨Numeral.endsDigits_point [], fun _ => by decide, fun _ => by decide,
      fun _ hfraction => absurd hfraction (by decide)⟩
  rw [hlist, hnumber]
  exact ⟨(hrun.1 _ _ _).mpr ⟨rfl, _, _, rfl, .flatten _, trivial⟩,
    (hrun.1 _ _ _).mpr ⟨rfl, .number small, small.bytes, rfl, .singleton _, hends⟩⟩

end Reader

end SchemaSpans
