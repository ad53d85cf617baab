import SchemaSpans.Number.Literal
import SchemaSpans.Proofs.Text.Encoding

/-! Decimal digits: the digits of a number name that number, are written as one byte
each, and begin with a zero only if the number is zero. -/

namespace SchemaSpans

def Ascii.digitByte (d : Nat) : UInt8 :=
  UInt8.ofNat (d + 48)

theorem Ascii.digit?_digitByte : ∀ d < 10, Ascii.digit? (Ascii.digitByte d) = some d := by
  decide

theorem Ascii.filterMap_digit? {ds : List Nat} (h : ∀ d ∈ ds, d < 10) :
    (ds.map Ascii.digitByte).filterMap Ascii.digit? = ds := by
  induction ds with
  | nil => rfl
  | cons d ds ih =>
    have hd := Ascii.digit?_digitByte d (h d List.mem_cons_self)
    rw [List.map_cons, List.filterMap_cons_some hd, ih fun e he => h e (List.mem_cons_of_mem d he)]

namespace Literal

/-- The decimal digits of a number, the most significant one first. -/
def decimal (n : Nat) : List Nat :=
  (Nat.toDigits 10 n).map fun c => c.toNat - 48

theorem decimal_of_lt {n : Nat} (h : n < 10) : decimal n = [n] := by
  rw [decimal, Nat.toDigits_of_lt_base h, List.map_singleton, Nat.toNat_digitChar_sub_48_of_lt_ten h]

theorem decimal_append {m d : Nat} (hm : 0 < m) (hd : d < 10) :
    decimal (10 * m + d) = decimal m ++ [d] := by
  rw [← decimal_of_lt hd]
  simp only [decimal, ← List.map_append, Nat.toDigits_append_toDigits (by decide : 1 < 10) hm hd]

theorem lt_ten_of_mem_decimal {n d : Nat} (h : d ∈ decimal n) : d < 10 := by
  induction n using Nat.base_induction 10 (by decide) with
  | single m hm =>
    rw [decimal_of_lt hm, List.mem_singleton] at h
    exact h ▸ hm
  | digit m k hk hm ih =>
    rw [decimal_append hm hk, List.mem_append, List.mem_singleton] at h
    rcases h with h | rfl
    · exact ih h
    · exact hk

theorem ofDigits_decimal (n : Nat) : ofDigits (decimal n) = n := by
  induction n using Nat.base_induction 10 (by decide) with
  | single m hm =>
    rw [decimal_of_lt hm]
    exact Nat.zero_add m
  | digit m k hk hm ih =>
    rw [decimal_append hm hk, ofDigits, List.foldl_append]
    rw [ofDigits] at ih
    rw [ih]
    rfl

/-- The digits of a positive number do not begin with a zero. -/
theorem decimal_of_pos {n : Nat} (h : 0 < n) : ∃ d ds, decimal n = d :: ds ∧ d ≠ 0 := by
  induction n using Nat.base_induction 10 (by decide) with
  | single m hm => exact ⟨m, [], decimal_of_lt hm, Nat.ne_of_gt h⟩
  | digit m k hk hm ih =>
    obtain ⟨d, ds, hds, hd⟩ := ih hm
    exact ⟨d, ds ++ [k], by rw [decimal_append hm hk, hds, List.cons_append], hd⟩

theorem decimal_eq_cons (n : Nat) : ∃ d ds, decimal n = d :: ds ∧ d < 10 := by
  rcases Nat.eq_zero_or_pos n with rfl | hn
  · exact ⟨0, [], decimal_of_lt (by decide), by decide⟩
  · obtain ⟨d, ds, hds, -⟩ := decimal_of_pos hn
    exact ⟨d, ds, hds, lt_ten_of_mem_decimal (hds ▸ List.mem_cons_self)⟩

/-- Each digit of a number is written as one byte. -/
theorem encode_toDigits (n : Nat) :
    Text.encode (Nat.toDigits 10 n) = (decimal n).map Ascii.digitByte := by
  have single : ∀ d < 10, Text.encode [Nat.digitChar d] = [Ascii.digitByte d] := by decide
  induction n using Nat.base_induction 10 (by decide) with
  | single m hm => rw [decimal_of_lt hm, Nat.toDigits_of_lt_base hm, single m hm, List.map_singleton]
  | digit m k hk hm ih =>
    rw [decimal_append hm hk, ← Nat.toDigits_append_toDigits (by decide) hm hk, Text.encode_append,
      ih, Nat.toDigits_of_lt_base hk, single k hk, List.map_append, List.map_singleton]

end Literal

end SchemaSpans
