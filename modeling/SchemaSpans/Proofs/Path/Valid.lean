import Mathlib.Data.List.Basic
import SchemaSpans.Path.Basic

/-! Which paths pass their check, and what is said of those that do not. A path is valid if no
component is negative and its first two components are numbers that are known at their places.
The check looks at three things in this order: negative components anywhere, the first number,
the number of an option; the first of them that is wrong is the one that is reported. -/

namespace SchemaSpans

/-- The numbers of the fields of a schema file. -/
def FileNumber.IsKnown (n : Int32) : Prop :=
  1 ≤ n.toInt ∧ n.toInt ≤ 12 ∨ n.toInt = 14

instance (n : Int32) : Decidable (FileNumber.IsKnown n) :=
  inferInstanceAs (Decidable (1 ≤ n.toInt ∧ n.toInt ≤ 12 ∨ n.toInt = 14))

/-- The numbers of options: those of the listed ones, and all from where extensions begin. -/
def OptionNumber.IsKnown (n : Int32) : Prop :=
  n.toInt ∈ [1, 8, 9, 10, 11, 16, 17, 18, 20, 23, 27, 31, 36, 37, 39, 40, 41, 42, 44, 45, 50, 999] ∨
    1000 ≤ n.toInt

/-- A number is in a table if its value is among the values there. -/
theorem contains_iff_toInt_mem {numbers : List Int32} {n : Int32} :
    numbers.contains n = true ↔ n.toInt ∈ numbers.map Int32.toInt := by
  rw [List.contains_iff_mem, List.mem_map_of_injective fun _ _ => Int32.toInt_inj.mp]

theorem FileNumber.contains_all_iff {n : Int32} : all.contains n = true ↔ IsKnown n := by
  have hvalues : all.map Int32.toInt = [1, 2, 3, 4, 5, 6, 7, 8, 9, 10, 11, 12, 14] := by decide
  rw [contains_iff_toInt_mem, hvalues, IsKnown]
  simp only [List.mem_cons, List.not_mem_nil, or_false]
  omega

theorem DescriptorPath.isOptionNumber_iff {n : Int32} :
    isOptionNumber n = true ↔ OptionNumber.IsKnown n := by
  rw [isOptionNumber, Bool.or_eq_true, contains_iff_toInt_mem, decide_eq_true_eq,
    Int32.le_iff_toInt_le, or_comm]
  rfl

namespace DescriptorPath

/-- No component of the path is negative. -/
def IsNonneg (p : DescriptorPath) : Prop :=
  ∀ c ∈ p, 0 ≤ c.toInt

instance (p : DescriptorPath) : Decidable p.IsNonneg :=
  List.decidableBAll (fun c : Int32 => 0 ≤ c.toInt) p

/-- The paths that a schema file can have. What comes behind the second component is free, as
long as it is not negative. -/
structure IsValid (p : DescriptorPath) : Prop where
  nonneg : p.IsNonneg
  root : ∀ root, p[0]? = some root → FileNumber.IsKnown root
  option : ∀ option, p[0]? = some 8 → p[1]? = some option → OptionNumber.IsKnown option

/-- The component with index `i` is the first negative one, and has the value `v`. -/
structure IsFirstNegative (p : DescriptorPath) (i : Nat) (v : Int32) : Prop where
  getElem?_eq : p[i]? = some v
  neg : v.toInt < 0
  least : ∀ j < i, ∀ c, p[j]? = some c → 0 ≤ c.toInt

/-- What is to be said of a path. -/
inductive Verdict (p : DescriptorPath) : Except Error Unit → Prop where
  | valid (h : p.IsValid) : Verdict p (.ok ())
  /-- A negative component comes first, whatever else is wrong. -/
  | negative {i : Nat} {v : Int32} (h : p.IsFirstNegative i v) :
      Verdict p (.error (.negativeComponent i v))
  | root {root : Int32} (hnonneg : p.IsNonneg) (hroot : p[0]? = some root)
      (h : ¬ FileNumber.IsKnown root) :
      Verdict p (.error (.unknownNumber "FileDescriptorProto" root))
  | option {option : Int32} (hnonneg : p.IsNonneg) (hroot : p[0]? = some 8)
      (hoption : p[1]? = some option) (h : ¬ OptionNumber.IsKnown option) :
      Verdict p (.error (.unknownNumber "FileOptions" option))

variable {p q : DescriptorPath}

theorem lt_zero_iff {c : Int32} : c < 0 ↔ c.toInt < 0 :=
  Int32.lt_iff_toInt_lt

/-- The search for a negative component finds the first one, counted from where it starts. -/
theorem firstNegative?_of_isFirstNegative {start i : Nat} {v : Int32}
    (h : p.IsFirstNegative i v) : firstNegative? start p = some (start + i, v) := by
  -- one component at a time: it is the negative one, or the search goes on behind it
  induction p generalizing start i with
  | nil => cases h.getElem?_eq
  | cons c rest ih =>
    rw [firstNegative?]
    cases i with
    | zero =>
      obtain rfl : c = v := Option.some.inj h.getElem?_eq
      rw [if_pos (lt_zero_iff.mpr h.neg)]
      rfl
    | succ i =>
      have hc : ¬ c < 0 := fun hc =>
        absurd (lt_zero_iff.mp hc) (Int.not_lt.mpr (h.least 0 (Nat.succ_pos i) c rfl))
      have hrest : IsFirstNegative rest i v :=
        ⟨h.getElem?_eq, h.neg, fun j hj => h.least (j + 1) (Nat.succ_lt_succ hj)⟩
      rw [if_neg hc, ih hrest, Nat.add_right_comm, Nat.add_assoc]

theorem firstNegative?_of_isNonneg {start : Nat} (h : p.IsNonneg) :
    firstNegative? start p = none := by
  induction p generalizing start with
  | nil => rfl
  | cons c rest ih =>
    have hc : ¬ c < 0 := fun hc =>
      absurd (lt_zero_iff.mp hc) (Int.not_lt.mpr (h c List.mem_cons_self))
    rw [firstNegative?, if_neg hc, ih fun d hd => h d (List.mem_cons_of_mem c hd)]

theorem isNonneg_or_exists_isFirstNegative (p : DescriptorPath) :
    p.IsNonneg ∨ ∃ i v, p.IsFirstNegative i v := by
  induction p with
  | nil => exact Or.inl fun c hc => (List.not_mem_nil hc).elim
  | cons c rest ih =>
    rcases Int.lt_or_le c.toInt 0 with hc | hc
    · exact Or.inr ⟨0, c, rfl, hc, fun j hj => absurd hj (Nat.not_lt_zero j)⟩
    · rcases ih with h | ⟨i, v, h⟩
      · exact Or.inl (List.forall_mem_cons.mpr ⟨hc, h⟩)
      · refine Or.inr ⟨i + 1, v, h.getElem?_eq, h.neg, fun j hj d hd => ?_⟩
        cases j with
        | zero => exact Option.some.inj hd ▸ hc
        | succ j => exact h.least j (Nat.lt_of_succ_lt_succ hj) d hd

theorem check_of_isFirstNegative {i : Nat} {v : Int32} (h : p.IsFirstNegative i v) :
    p.check = .error (.negativeComponent i v) := by
  rw [check, firstNegative?_of_isFirstNegative h, Nat.zero_add]

theorem check_of_isNonneg (h : p.IsNonneg) : p.check = checkNumbers p := by
  rw [check, firstNegative?_of_isNonneg h]

theorem checkNumbers_of_not_isKnown {root : Int32} {below : DescriptorPath}
    (h : ¬ FileNumber.IsKnown root) :
    checkNumbers (root :: below) = .error (.unknownNumber "FileDescriptorProto" root) := by
  have hroot : ¬ FileNumber.all.contains root = true :=
    fun hroot => h (FileNumber.contains_all_iff.mp hroot)
  cases below with
  | nil => rw [checkNumbers, if_neg hroot]
  | cons => rw [checkNumbers, if_neg hroot]

theorem checkNumbers_singleton {root : Int32} (h : FileNumber.IsKnown root) :
    checkNumbers [root] = .ok () := by
  rw [checkNumbers, if_pos (FileNumber.contains_all_iff.mpr h)]

/-- Behind a known first number the second one matters only if it is that of an option. -/
theorem checkNumbers_cons_cons {root option : Int32} {below : DescriptorPath}
    (h : FileNumber.IsKnown root) : checkNumbers (root :: option :: below) =
      if root = 8 ∧ isOptionNumber option = false
      then .error (.unknownNumber "FileOptions" option) else .ok () := by
  rw [checkNumbers, if_pos (FileNumber.contains_all_iff.mpr h)]
  simp only [FileNumber.options, Bool.and_eq_true, decide_eq_true_eq, Bool.not_eq_true']

theorem check_of_isValid (h : p.IsValid) : p.check = .ok () := by
  rw [check_of_isNonneg h.nonneg]
  match p with
  | [] => rfl
  | [root] => exact checkNumbers_singleton (h.root root rfl)
  | root :: option :: below =>
    rw [checkNumbers_cons_cons (h.root root rfl), if_neg]
    rintro ⟨rfl, hoption⟩
    rw [isOptionNumber_iff.mpr (h.option option rfl rfl)] at hoption
    cases hoption

/-- The check says what is to be said. -/
theorem check_of_verdict {r : Except Error Unit} (h : p.Verdict r) : p.check = r := by
  cases h with
  | valid h => exact check_of_isValid h
  | negative h => exact check_of_isFirstNegative h
  | root hnonneg hroot h =>
    rw [check_of_isNonneg hnonneg]
    match p, hroot with
    | _ :: below, rfl => exact checkNumbers_of_not_isKnown h
  | option hnonneg hroot hoption h =>
    -- the first number is that of the options, which is known, so the second one is looked at
    have hunknown : isOptionNumber _ = false :=
      Bool.eq_false_iff.mpr fun hknown => h (isOptionNumber_iff.mp hknown)
    rw [check_of_isNonneg hnonneg]
    match p, hroot, hoption with
    | _ :: _ :: below, rfl, rfl =>
      rw [checkNumbers_cons_cons (Or.inl (by decide)), if_pos ⟨rfl, hunknown⟩]

/-- Something is to be said of every path. -/
theorem exists_verdict (p : DescriptorPath) : ∃ r, p.Verdict r := by
  -- the cases come in the order in which the check looks for what is wrong
  rcases isNonneg_or_exists_isFirstNegative p with hnonneg | ⟨i, v, h⟩
  · by_cases hroot : ∀ root, p[0]? = some root → FileNumber.IsKnown root
    · by_cases hoption : ∀ option, p[0]? = some 8 → p[1]? = some option →
          OptionNumber.IsKnown option
      · exact ⟨_, .valid ⟨hnonneg, hroot, hoption⟩⟩
      · simp only [not_forall] at hoption
        obtain ⟨option, height, hoption, h⟩ := hoption
        exact ⟨_, .option hnonneg height hoption h⟩
    · simp only [not_forall] at hroot
      obtain ⟨root, hroot, h⟩ := hroot
      exact ⟨_, .root hnonneg hroot h⟩
  · exact ⟨_, .negative h⟩

theorem check_eq_iff {r : Except Error Unit} : p.check = r ↔ p.Verdict r := by
  refine ⟨?_, check_of_verdict⟩
  rintro rfl
  obtain ⟨r, h⟩ := exists_verdict p
  exact check_of_verdict h ▸ h

theorem check_eq_ok_iff : p.check = .ok () ↔ p.IsValid := by
  refine ⟨fun h => ?_, check_of_isValid⟩
  cases check_eq_iff.mp h with
  | valid h => exact h

/-- What a path begins with is valid if the path is: it has the same first components, or
fewer. -/
theorem IsValid.of_isPrefix (h : p.IsValid) (hq : q <+: p) : q.IsValid := by
  have hgetElem {i : Nat} {c : Int32} (hc : q[i]? = some c) : p[i]? = some c := by
    obtain ⟨hi, rfl⟩ := List.getElem?_eq_some_iff.mp hc
    exact List.prefix_iff_getElem?.mp hq i hi
  exact ⟨fun c hc => h.nonneg c (hq.mem hc), fun root hroot => h.root root (hgetElem hroot),
    fun option hroot hoption => h.option option (hgetElem hroot) (hgetElem hoption)⟩

/-- Only the first two components are looked up, so all others may be different ones, fewer or
more. -/
theorem IsValid.of_take_two_eq (h : p.IsValid) (htake : q.take 2 = p.take 2)
    (hdrop : IsNonneg (q.drop 2)) : q.IsValid := by
  have hgetElem (i : Nat) (hi : i < 2) : q[i]? = p[i]? := by
    rw [← List.getElem?_take_of_lt hi, htake, List.getElem?_take_of_lt hi]
  have hfirst : q[0]? = p[0]? := hgetElem 0 (by decide)
  have hsecond : q[1]? = p[1]? := hgetElem 1 (by decide)
  refine ⟨fun c hc => ?_, fun root hroot => h.root root (hfirst ▸ hroot),
    fun option hroot hoption => h.option option (hfirst ▸ hroot) (hsecond ▸ hoption)⟩
  -- a component of `q` is one of the two that `p` has as well, or stands behind them
  rw [← List.take_append_drop 2 q, List.mem_append, htake] at hc
  rcases hc with hc | hc
  · exact h.nonneg c (List.mem_of_mem_take hc)
  · exact hdrop c hc

/-- The check accepts the valid paths and no others, and of a path that is not valid it names the
first thing that is wrong. What a valid path begins with is valid, and so is a path that differs
from it behind the second component only, as long as nothing there is negative. -/
theorem check_eq_ok_iff_and_verdict (p : DescriptorPath) :
    (p.check = .ok () ↔ p = [] ∨ p.IsValid) ∧
    (∀ r, p.check = r ↔ p.Verdict r) ∧
    ((∃ c ∈ p, c.toInt < 0) →
      ∃ i v, p.IsFirstNegative i v ∧ p.check = .error (.negativeComponent i v)) ∧
    (∀ q : DescriptorPath, q <+: p → p.check = .ok () → q.check = .ok ()) ∧
    (∀ q : DescriptorPath, q.take 2 = p.take 2 → IsNonneg (q.drop 2) → p.check = .ok () →
      q.check = .ok ()) := by
  refine ⟨?_, fun r => check_eq_iff, fun ⟨c, hc, hneg⟩ => ?_, fun q hq h => ?_,
    fun q htake hdrop h => ?_⟩
  · rw [check_eq_ok_iff, or_iff_right_of_imp]
    rintro rfl
    exact check_eq_ok_iff.mp rfl
  · obtain ⟨i, v, h⟩ := (isNonneg_or_exists_isFirstNegative p).resolve_left
      fun hnonneg => absurd hneg (Int.not_lt.mpr (hnonneg c hc))
    exact ⟨i, v, h, check_of_isFirstNegative h⟩
  · exact check_eq_ok_iff.mpr ((check_eq_ok_iff.mp h).of_isPrefix hq)
  · exact check_eq_ok_iff.mpr ((check_eq_ok_iff.mp h).of_take_two_eq htake hdrop)

/-- A negative component is reported, although the first number is unknown and another negative
component stands behind; and a path that stays valid when it ends elsewhere. -/
theorem check_eq_ok_iff_and_verdict_option :
    check [13, 0, -3, -1] = .error (.negativeComponent 2 (-3)) ∧
      check [8, 37] = .ok () ∧ check [8] = .ok () ∧ check [8, 37, 5, 0] = .ok () := by
  have hnegative : IsFirstNegative [13, 0, -3, -1] 2 (-3) := by
    refine ⟨rfl, by decide, fun j hj c hc => ?_⟩
    match j, hj with
    | 0, _ | 1, _ =>
      cases hc
      decide
  have hspec := check_eq_ok_iff_and_verdict [8, 37]
  have hvalid : check [8, 37] = .ok () := by
    refine hspec.1.mpr (Or.inr ⟨by decide, fun root hroot => ?_, fun option _ hoption => ?_⟩)
    · cases hroot
      decide
    · cases hoption
      exact Or.inl (by decide)
  exact ⟨((check_eq_ok_iff_and_verdict _).2.1 _).mpr (.negative hnegative), hvalid,
    hspec.2.2.2.1 [8] ⟨[37], rfl⟩ hvalid, hspec.2.2.2.2 [8, 37, 5, 0] rfl (by decide) hvalid⟩

end DescriptorPath

end SchemaSpans
