import SchemaSpans.Proofs.Reader.Local

/-! The allowance for what is passed over. It is the length of the input, which differs between
two inputs, but it has no say in the outcome: each bracket is a byte, so with any two allowances
that are large enough the same becomes of an input. What is passed over is therefore settled by
the bytes that are read of it, as everything else is. -/

namespace SchemaSpans

variable {α β σ : Type}

namespace Reader

variable {n : Nat}

/-- The two readers lead to the same outcome for inputs of at most `n` bytes. -/
def AgreeWithin (n : Nat) (r s : Reader α) : Prop :=
  ∀ input : Input, input.length ≤ n → r.run input = s.run input

theorem agreeWithin_refl (n : Nat) (r : Reader α) : AgreeWithin n r r :=
  fun _ _ => rfl

theorem agreeWithin_bind {r s : Reader α} {next next' : α → Reader β} (h : AgreeWithin n r s)
    (hnext : ∀ a, AgreeWithin n (next a) (next' a)) : AgreeWithin n (r >>= next) (s >>= next') := by
  intro input hinput
  rw [run_bind, run_bind, ← h input hinput]
  cases hr : r.run input with
  | done a rest => exact hnext a rest (Nat.le_trans (r.length_le_of_done hr) hinput)
  | stopped cause rest => rfl

theorem agreeWithin_next_bind {next₁ next₂ : Option UInt8 → Reader α}
    (hnone : next₁ none = next₂ none)
    (hsome : ∀ b, ∀ m < n, AgreeWithin m (next₁ (some b)) (next₂ (some b))) :
    AgreeWithin n (next >>= next₁) (next >>= next₂) := by
  intro input hinput
  cases input with
  | nil =>
    rw [run_bind, run_bind, run_next_nil]
    dsimp only
    rw [hnone]
  | cons b rest => exact hsome b rest.length hinput rest (Nat.le_refl _)

end Reader

namespace Bracket

open Reader

variable {b : Bracket} {n : Nat} {item item' : σ → Reader σ}

theorem agreeWithin_rest (h : ∀ s, AgreeWithin n (item s) (item' s)) (s : σ) :
    AgreeWithin n (b.rest item s) (b.rest item' s) := by
  induction n using Nat.strongRecOn generalizing s with
  | ind n ih =>
    rw [rest_eq, rest_eq]
    refine agreeWithin_bind (agreeWithin_refl n blanks) fun _ => agreeWithin_next_bind rfl ?_
    intro c m hm
    have hitem (s : σ) : AgreeWithin m (item s) (item' s) :=
      fun input hinput => h s input (Nat.le_trans hinput (Nat.le_of_lt hm))
    dsimp only
    split
    · exact agreeWithin_refl m _
    · split
      · have hnext : AgreeWithin m (b.nextItem item s) (b.nextItem item' s) :=
          agreeWithin_bind (agreeWithin_refl m _) fun _ => hitem s
        exact agreeWithin_bind hnext (ih m hm hitem)
      · exact agreeWithin_refl m _

theorem agreeWithin_read (h : ∀ s, AgreeWithin n (item s) (item' s)) (empty : σ) :
    AgreeWithin n (b.read item empty) (b.read item' empty) := by
  refine agreeWithin_bind (agreeWithin_refl n token) fun c => ?_
  match c with
  | none => exact agreeWithin_refl n _
  | some c =>
    dsimp only
    split
    · exact agreeWithin_refl n _
    · exact agreeWithin_bind (h empty) (agreeWithin_rest h)

end Bracket

namespace Reader

theorem agreeWithin_descend {ν : Type} {inner inner' : ν} {body : ν → Reader α}
    (h : AgreeWithin n (body inner) (body inner')) :
    AgreeWithin (n + 1) (descend (some inner) body) (descend (some inner') body) := by
  intro input hinput
  cases input with
  | nil => exact h [] (Nat.zero_le n)
  | cons b rest => exact h rest (Nat.le_of_succ_le_succ hinput)

theorem agreeWithin_skipMember {value value' : Reader Unit} (h : AgreeWithin n value value')
    (u : Unit) : AgreeWithin n (skipMember value u) (skipMember value' u) :=
  agreeWithin_bind (agreeWithin_refl n _) fun _ => agreeWithin_bind (agreeWithin_refl n _) fun _ =>
    agreeWithin_bind (agreeWithin_refl n _) fun _ => h

theorem agreeWithin_skipWith {value value' : Reader Unit} (h : AgreeWithin n value value') :
    AgreeWithin (n + 1) (skipWith (some value)) (skipWith (some value')) := by
  refine agreeWithin_bind (agreeWithin_refl _ start) fun first => ?_
  match first with
  | some .list => exact agreeWithin_descend (Bracket.agreeWithin_read (fun _ => h) ())
  | some .object =>
    exact agreeWithin_descend (Bracket.agreeWithin_read (agreeWithin_skipMember h) ())
  | none | some .null | some .true | some .false | some .number | some .string | some .other =>
    exact agreeWithin_refl _ _

theorem agreeWithin_skipWithin {a b : Nat} (ha : n ≤ a) (hb : n ≤ b) :
    AgreeWithin n (skipWithin a) (skipWithin b) := by
  induction n generalizing a b with
  | zero =>
    intro input hinput
    obtain rfl : input = [] := List.length_eq_zero_iff.mp (Nat.le_zero.mp hinput)
    cases a <;> cases b <;> rfl
  | succ n ih =>
    cases a with
    | zero => exact absurd ha n.not_succ_le_zero
    | succ a =>
      cases b with
      | zero => exact absurd hb n.not_succ_le_zero
      | succ b =>
        exact agreeWithin_skipWith (ih (Nat.le_of_succ_le_succ ha) (Nat.le_of_succ_le_succ hb))

theorem isLocal_skip : skip.IsLocal := by
  intro n read rest rest' hread hhead hend
  -- one allowance that is large enough for both inputs
  have hrun (input : Input) (h : input.length ≤ read.length + rest.length + rest'.length) :
      skip.run input = (skipWithin (read.length + rest.length + rest'.length)).run input :=
    agreeWithin_skipWithin (Nat.le_refl _) h input (Nat.le_refl _)
  rw [hrun (read ++ rest) (by rw [List.length_append]; omega)] at hend ⊢
  rw [hrun (read ++ rest') (by rw [List.length_append]; omega)]
  exact isLocal_skipWithin _ n read rest rest' hread hhead hend

end Reader

end SchemaSpans
