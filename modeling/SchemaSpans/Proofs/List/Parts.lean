import Mathlib.Data.List.Forall2
import Mathlib.Data.List.Perm.Basic

/-! Lists taken part by part: values of all parts, relations between the parts of two lists, and
steps that lead from part to part and may fail. -/

namespace SchemaSpans

section Parts

variable {α β γ : Type}

/-- Parts that all have a value have these values, one for each part in its place. -/
theorem mapM_eq_some_iff {f : α → Option β} {xs : List α} {ys : List β} :
    xs.mapM f = some ys ↔ List.Forall₂ (fun x y => f x = some y) xs ys := by
  induction xs generalizing ys with
  | nil =>
    rw [List.mapM_nil, List.forall₂_nil_left_iff]
    exact ⟨fun h => (Option.some.inj h).symm, fun h => congrArg some h.symm⟩
  | cons x xs ih =>
    rw [List.mapM_cons, List.forall₂_cons_left_iff]
    simp only [Option.bind_eq_bind, Option.bind_eq_some_iff, Option.pure_def, Option.some.injEq]
    constructor
    · rintro ⟨y, hy, ys', hys, rfl⟩
      exact ⟨y, ys', hy, ih.mp hys, rfl⟩
    · rintro ⟨y, ys', hy, hys, rfl⟩
      exact ⟨y, hy, ys', ih.mpr hys, rfl⟩

theorem mapM_eq_some_of_imp {f g : α → Option β} {xs : List α} {ys : List β}
    (hfg : ∀ x ∈ xs, ∀ y, f x = some y → g x = some y) (h : xs.mapM f = some ys) :
    xs.mapM g = some ys := by
  induction xs generalizing ys with
  | nil => exact h
  | cons x xs ih =>
    rw [mapM_eq_some_iff, List.forall₂_cons_left_iff] at h ⊢
    obtain ⟨y, ys', hy, hys, rfl⟩ := h
    have hys' := ih (fun z hz => hfg z (List.mem_cons_of_mem x hz)) (mapM_eq_some_iff.mpr hys)
    exact ⟨y, ys', hfg x List.mem_cons_self y hy, mapM_eq_some_iff.mp hys', rfl⟩

theorem forall₂_unique {p : α → β → Prop} {xs : List α} {ys zs : List β}
    (hunique : ∀ x ∈ xs, ∀ y z, p x y → p x z → y = z) (hy : List.Forall₂ p xs ys)
    (hz : List.Forall₂ p xs zs) : ys = zs := by
  induction hy generalizing zs with
  | nil =>
    cases hz
    rfl
  | cons hxy _ ih =>
    cases hz with
    | cons hxz hz =>
      rw [hunique _ List.mem_cons_self _ _ hxy hxz,
        ih (fun x hx => hunique x (List.mem_cons_of_mem _ hx)) hz]

/-- Two relations between lists, one behind the other. -/
theorem forall₂_comp {p : α → β → Prop} {q : β → γ → Prop} {r : α → γ → Prop}
    (hpqr : ∀ a b c, p a b → q b c → r a c) {xs : List α} {ys : List β} {zs : List γ}
    (hp : List.Forall₂ p xs ys) (hq : List.Forall₂ q ys zs) : List.Forall₂ r xs zs := by
  induction hp generalizing zs with
  | nil =>
    cases hq
    exact .nil
  | cons hab _ ih =>
    cases hq with
    | cons hbc hq => exact .cons (hpqr _ _ _ hab hbc) (ih hq)

theorem exists_of_mem_of_forall₂ {p : α → β → Prop} {xs : List α} {ys : List β}
    (h : List.Forall₂ p xs ys) {x : α} (hx : x ∈ xs) : ∃ y, p x y := by
  induction h with
  | nil => exact (List.not_mem_nil hx).elim
  | cons hxy _ ih =>
    rcases List.mem_cons.mp hx with rfl | hx
    · exact ⟨_, hxy⟩
    · exact ih hx

theorem exists_getElem?_of_forall₂ {p : α → β → Prop} {xs : List α} {ys : List β}
    (h : List.Forall₂ p xs ys) {i : Nat} {x : α} (hi : xs[i]? = some x) :
    ∃ y, ys[i]? = some y ∧ p x y := by
  induction h generalizing i with
  | nil => cases hi
  | cons hxy _ ih =>
    cases i with
    | zero =>
      cases hi
      exact ⟨_, rfl, hxy⟩
    | succ i => exact ih hi

end Parts

section Steps

variable {σ α κ : Type} {f : σ → α → Option σ}

theorem foldlM_eq_some_of_imp {g : σ → α → Option σ} {xs : List α} {s s' : σ}
    (hfg : ∀ x ∈ xs, ∀ s s', f s x = some s' → g s x = some s')
    (h : xs.foldlM f s = some s') : xs.foldlM g s = some s' := by
  induction xs generalizing s with
  | nil => exact h
  | cons x xs ih =>
    rw [List.foldlM_cons] at h ⊢
    obtain ⟨s'', hstep, hrest⟩ := Option.bind_eq_some_iff.mp h
    rw [hfg x List.mem_cons_self s s'' hstep]
    exact ih (fun y hy => hfg y (List.mem_cons_of_mem x hy)) hrest

theorem foldlM_concat (xs : List α) (a : α) (s : σ) :
    (xs ++ [a]).foldlM f s = (xs.foldlM f s).bind fun s => f s a := by
  rw [List.foldlM_append]
  simp only [List.foldlM_cons, List.foldlM_nil, bind_pure]
  rfl

theorem foldlM_replace {a b : α} (h : ∀ s, f s a = f s b) (before after : List α) (s : σ) :
    (before ++ a :: after).foldlM f s = (before ++ b :: after).foldlM f s := by
  simp only [List.foldlM_append, List.foldlM_cons, h]

/-- It does not matter which of two elements comes first. -/
def Commutes (f : σ → α → Option σ) (a b : α) : Prop :=
  ∀ s, (f s a).bind (f · b) = (f s b).bind (f · a)

theorem foldlM_move {a : α} {before : List α} (h : ∀ b ∈ before, Commutes f a b) (after : List α)
    (s : σ) : (before ++ a :: after).foldlM f s = (a :: (before ++ after)).foldlM f s := by
  induction before generalizing s with
  | nil => rfl
  | cons b before ih =>
    -- past the others by induction, and past `b` because the two commute
    have hrest := ih fun c hc => h c (List.mem_cons_of_mem b hc)
    have hswap := congrArg (fun o => o.bind fun s => (before ++ after).foldlM f s)
      (h b List.mem_cons_self s)
    simp only [Option.bind_assoc] at hswap
    simp only [List.cons_append, List.foldlM_cons, Option.bind_eq_bind, hrest]
    exact hswap.symm

section Rearranged

variable [DecidableEq κ] {key : α → Option κ} {a : α} {xs ys before after : List α}

/-- The first element in another arrangement, which none of the elements with its key has
overtaken. -/
theorem exists_eq_append_of_perm (h : (a :: xs).Perm ys)
    (hkey : ∀ k, (a :: xs).filter (key · = some k) = ys.filter (key · = some k)) :
    ∃ before after, ys = before ++ a :: after ∧
      ∀ b ∈ before, ∀ k, key a = some k → key b ≠ some k := by
  cases ha : key a with
  | none =>
    obtain ⟨before, after, hys⟩ := List.append_of_mem (h.subset List.mem_cons_self)
    exact ⟨before, after, hys, fun b _ k hk => nomatch hk⟩
  | some k =>
    have hfirst := (hkey k).symm
    rw [List.filter_cons, if_pos (decide_eq_true ha), List.filter_eq_cons_iff] at hfirst
    obtain ⟨before, after, hys, hbefore, -⟩ := hfirst
    refine ⟨before, after, hys, fun b hb l hl heq => hbefore b hb (decide_eq_true ?_)⟩
    rw [heq, ← hl]

theorem filter_eq_of_filter_cons_eq (hbefore : ∀ b ∈ before, ∀ k, key a = some k → key b ≠ some k)
    {k : κ} (hk : (a :: xs).filter (key · = some k) =
      (before ++ a :: after).filter (key · = some k)) :
    xs.filter (key · = some k) = (before ++ after).filter (key · = some k) := by
  rw [List.filter_append] at hk ⊢
  by_cases ha : key a = some k
  · have hnone : before.filter (key · = some k) = [] :=
      List.filter_eq_nil_iff.mpr fun b hb heq => hbefore b hb k ha (of_decide_eq_true heq)
    rw [hnone, List.filter_cons, List.filter_cons, if_pos (decide_eq_true ha),
      if_pos (decide_eq_true ha)] at hk
    rw [hnone]
    exact (List.cons.inj hk).2
  · have ha : ¬ decide (key a = some k) = true := fun heq => ha (of_decide_eq_true heq)
    rwa [List.filter_cons, List.filter_cons, if_neg ha, if_neg ha] at hk

/-- Elements may be rearranged if those that have the same key stay in their order. -/
theorem foldlM_eq_of_perm (key : α → Option κ) (h : xs.Perm ys)
    (hkey : ∀ k, xs.filter (key · = some k) = ys.filter (key · = some k))
    (hcomm : ∀ a b, (∀ k, key a = some k → key b ≠ some k) → Commutes f a b) (s : σ) :
    xs.foldlM f s = ys.foldlM f s := by
  -- the first element is moved to the front of the other arrangement, past elements that it
  -- commutes with, since none of them has its key
  induction xs generalizing ys s with
  | nil => rw [h.nil_eq]
  | cons a xs ih =>
    obtain ⟨before, after, rfl, hbefore⟩ := exists_eq_append_of_perm h hkey
    have hperm : xs.Perm (before ++ after) := (h.trans List.perm_middle).cons_inv
    have hrest : ∀ k, xs.filter (key · = some k) = (before ++ after).filter (key · = some k) :=
      fun k => filter_eq_of_filter_cons_eq hbefore (hkey k)
    rw [foldlM_move fun b hb => hcomm a b (hbefore b hb)]
    simp only [List.foldlM_cons, ih hperm hrest]

end Rearranged

end Steps

end SchemaSpans
