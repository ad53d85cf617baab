import SchemaSpans.Proofs.Grammar.Tree
import SchemaSpans.Proofs.Reader.Sequence

/-! Sequences between brackets as rows of tokens. What a sequence is read as follows from what
each of its parts does to the state it is read in, one part after another; and whatever is read
as a sequence is a row of parts with commas between them. -/

namespace SchemaSpans

open Reader

variable {σ π α : Type}

namespace Bracket

/-- The end of the sequence can be told apart from a part of it, whether or not it is looked for
behind a comma. -/
structure IsGrammatical (b : Bracket) : Prop where
  comma_ne_close : Ascii.comma ≠ b.close
  isBlank_close : Ascii.isBlank b.close = false
  ends_close : ∀ rest, Ends (b.close :: rest)
  afterComma_eq : b.afterComma = notEnding b.close ∨ b.afterComma = pure ()

theorem IsRegular.isGrammatical {b : Bracket} (h : b.IsRegular) : b.IsGrammatical :=
  ⟨h.comma_ne_close, h.isBlank_close, h.ends_close, Or.inl h.afterComma_eq⟩

theorem IsRegular.isGrammatical_lenient {b : Bracket} (h : b.IsRegular) :
    b.lenient.IsGrammatical :=
  ⟨h.comma_ne_close, h.isBlank_close, h.ends_close, Or.inr rfl⟩

/-- Tokens that can stand where the sequence could end. -/
def OpensWith (b : Bracket) (tokens : List Input) : Prop :=
  ∃ c token more, tokens = (c :: token) :: more ∧ Ascii.isBlank c = false ∧ c ≠ b.close

theorem Opens.opensWith {b : Bracket} {token : Input} (h : b.Opens token) :
    b.OpensWith [token] := by
  obtain ⟨c, rest, rfl, hblank, hclose⟩ := h
  exact ⟨c, rest, [], rfl, hblank, hclose⟩

variable {b : Bracket} {item : σ → Reader σ}

/-- Looking for the end of the sequence behind a comma does not get in the way of a part. -/
theorem evaluates_afterComma (hb : b.IsGrammatical) {tokens : List Input}
    (hopens : b.OpensWith tokens) {r : Reader α} {result : Option α}
    (h : r.Evaluates tokens result) : (b.afterComma >>= fun _ => r).Evaluates tokens result := by
  obtain ⟨c, token, more, rfl, hblank, hclose⟩ := hopens
  intro w rest hw hrest
  rcases hb.afterComma_eq with hstrict | hlenient
  · -- the end is looked for by the first byte of the part, which is not the closing one
    obtain ⟨v, hv, hdrop⟩ := hw.dropWhile_append hblank rest
    have hr := h (c :: token ++ v) rest hv.cons_self hrest
    rw [List.append_assoc, List.cons_append] at hr
    simp only [hstrict, notEnding, accept?_bind, accept?_token, hdrop, List.head?_cons,
      Option.bind_some, if_neg hclose, accept?_pure, hr]
  · simp only [hlenient, pure_bind]
    exact h w rest hw hrest

theorem accepted?_readRest_close (s : σ) {input rest : Input}
    (h : input.dropWhile Ascii.isBlank = b.close :: rest) :
    (b.readRest item s input).accepted? = some (s, rest) := by
  rw [readRest_eq, h]
  simp only [if_true]
  rfl

theorem accepted?_readRest_comma (hb : b.IsGrammatical) (s : σ) {input rest : Input}
    (h : input.dropWhile Ascii.isBlank = Ascii.comma :: rest) :
    (b.readRest item s input).accepted? =
      ((b.nextItem item s).accept? rest).bind fun p => (b.readRest item p.1 p.2).accepted? := by
  rw [readRest_eq, h, accept?]
  simp only [if_neg hb.comma_ne_close, if_true]
  cases (b.nextItem item s).run rest <;> rfl

/-- The tokens of some parts behind another one, up to the end of the sequence. -/
def tokensBehind (b : Bracket) (parts : List (List Input)) : List Input :=
  parts.flatMap ([Ascii.comma] :: ·) ++ [[b.close]]

theorem tokensBehind_cons (part : List Input) (parts : List (List Input)) :
    b.tokensBehind (part :: parts) = [Ascii.comma] :: (part ++ b.tokensBehind parts) := by
  rw [tokensBehind, List.flatMap_cons, List.cons_append, List.cons_append, List.append_assoc]
  rfl

theorem listed_cons_append (part : List Input) (parts : List (List Input)) :
    listed (part :: parts) ++ [[b.close]] = part ++ b.tokensBehind parts :=
  List.append_assoc ..

theorem ends_tokensBehind (hb : b.IsGrammatical) {parts : List (List Input)} {w : Input}
    (h : Spaced (b.tokensBehind parts) w) (rest : Input) : Ends (w ++ rest) := by
  cases parts with
  | nil => exact ends_spaced h hb.ends_close rest
  | cons part parts => exact ends_spaced h ends_comma rest

variable {tokens : π → List Input} {step : σ → π → Option σ} {parts : List π}

/-- A part that is told apart from the end of the sequence, and what it does to the state. -/
structure EvaluatesPart (b : Bracket) (item : σ → Reader σ) (tokens : π → List Input)
    (step : σ → π → Option σ) (part : π) : Prop where
  opens : b.OpensWith (tokens part)
  evaluates : ∀ s, (item s).Evaluates (tokens part) (step s part)

theorem accepted?_readRest (hb : b.IsGrammatical)
    (hparts : ∀ part ∈ parts, b.EvaluatesPart item tokens step part) {w : Input} (s : σ)
    (rest : Input) (hw : Spaced (b.tokensBehind (parts.map tokens)) w) :
    (b.readRest item s (w ++ rest)).accepted? =
      (parts.foldlM step s).map fun s => (s, rest) := by
  -- on the parts; a comma or the end is in front of what is left, so the part before it is over
  induction parts generalizing s w with
  | nil =>
    obtain ⟨v, hv, hdrop⟩ := hw.dropWhile_append hb.isBlank_close rest
    cases hv
    exact accepted?_readRest_close s hdrop
  | cons part parts ih =>
    rw [List.map_cons, tokensBehind_cons] at hw
    obtain ⟨v, hv, hdrop⟩ := hw.dropWhile_append (by decide) rest
    obtain ⟨u, v, rfl, hu, hv⟩ := hv.exists_append
    have hpart := hparts part List.mem_cons_self
    have hnext : (b.nextItem item s).accept? (u ++ (v ++ rest)) =
        (step s part).map fun s => (s, v ++ rest) :=
      evaluates_afterComma hb hpart.opens (hpart.evaluates s) u (v ++ rest) hu
        (ends_tokensBehind hb hv rest)
    rw [List.nil_append, List.append_assoc] at hdrop
    rw [accepted?_readRest_comma hb s hdrop, hnext, List.foldlM_cons]
    cases step s part with
    | none => rfl
    | some s' => exact ih (fun p hp => hparts p (List.mem_cons_of_mem part hp)) s' hv

/-- Behind the opening bracket a sequence is read part by part. -/
theorem delimits_read (hb : b.IsGrammatical)
    (hparts : ∀ part ∈ parts, b.EvaluatesPart item tokens step part) (s : σ) :
    (b.read item s).Delimits (listed (parts.map tokens) ++ [[b.close]]) (parts.foldlM step s) := by
  intro w rest hw
  cases parts with
  | nil =>
    obtain ⟨v, hv, hdrop⟩ := hw.dropWhile_append hb.isBlank_close rest
    cases hv
    simp only [read, accept?_bind, accept?_token, hdrop, List.head?_cons, Option.bind_some,
      if_true, accept?_next_cons, accept?_pure]
    rfl
  | cons part parts =>
    have hpart := hparts part List.mem_cons_self
    obtain ⟨c, token, more, htokens, hblank, hclose⟩ := hpart.opens
    rw [List.map_cons, listed_cons_append] at hw
    obtain ⟨u, v, rfl, hu, hv⟩ := hw.exists_append
    rw [htokens] at hu
    -- the blanks in front of the first part are gone when the part itself is read
    obtain ⟨u', hu', hdrop⟩ := hu.dropWhile_append hblank (v ++ rest)
    have hu'' : Spaced (tokens part) (c :: token ++ u') := htokens ▸ hu'.cons_self
    have hitem := hpart.evaluates s (c :: token ++ u') (v ++ rest) hu''
      (ends_tokensBehind hb hv rest)
    rw [List.append_assoc, List.cons_append] at hitem
    rw [List.append_assoc]
    simp only [read, accept?_bind, accept?_token, hdrop, List.head?_cons, Option.bind_some,
      if_neg hclose, hitem]
    rw [List.foldlM_cons]
    cases step s part with
    | none => rfl
    | some s' =>
      exact accepted?_readRest hb (fun p hp => hparts p (List.mem_cons_of_mem part hp)) s' rest hv

/-- Elements that are put in front of one another come out in reverse. -/
theorem foldlM_cons_eq {element : π → Option α} (parts : List π) (before : List α) :
    parts.foldlM (fun before part => (element part).map (· :: before)) before =
      (parts.mapM element).map fun xs => xs.reverse ++ before := by
  induction parts generalizing before with
  | nil => rfl
  | cons part parts ih =>
    rw [List.foldlM_cons, List.mapM_cons]
    cases element part with
    | none => rfl
    | some x =>
      have hstep := ih (x :: before)
      simp only [Option.map_some, Option.bind_eq_bind, Option.bind_some, hstep]
      cases parts.mapM element with
      | none => rfl
      | some xs =>
        simp only [Option.map_some, Option.bind_some, Option.pure_def, List.reverse_cons,
          List.append_assoc, List.singleton_append]

/-- A list is read element by element. -/
theorem delimits_readList (hb : b.IsGrammatical) {element : Reader α} {value : π → Option α}
    (hopens : ∀ part ∈ parts, b.OpensWith (tokens part))
    (helement : ∀ part ∈ parts, element.Evaluates (tokens part) (value part)) :
    (b.readList element).Delimits (listed (parts.map tokens) ++ [[b.close]])
      (parts.mapM value) := by
  have hread : (b.read (fun before => do let a ← element; pure (a :: before)) []).Delimits
      (listed (parts.map tokens) ++ [[b.close]])
      (parts.foldlM (fun before part => (value part).map (· :: before)) []) :=
    delimits_read hb
      (fun part hpart => ⟨hopens part hpart, fun before => (helement part hpart).map _⟩) []
  intro w rest hw
  rw [readList, accept?_bind, hread w rest hw, foldlM_cons_eq]
  cases parts.mapM value with
  | none => rfl
  | some xs =>
    simp only [Option.map_some, Option.bind_some, accept?_pure, List.append_nil,
      List.reverse_reverse]

theorem exists_spaced_close {input rest : Input}
    (h : input.dropWhile Ascii.isBlank = b.close :: rest) :
    ∃ w, input = w ++ rest ∧ Spaced (b.tokensBehind []) w :=
  (Spaced.singleton [b.close]).of_dropWhile h

theorem exists_spaced_comma {part : List Input} {parts : List (List Input)}
    {input u v rest : Input} (hu : Spaced part u) (hv : Spaced (b.tokensBehind parts) v)
    (h : input.dropWhile Ascii.isBlank = Ascii.comma :: (u ++ (v ++ rest))) :
    ∃ w, input = w ++ rest ∧ Spaced (b.tokensBehind (part :: parts)) w := by
  have hrow : Spaced (b.tokensBehind (part :: parts)) ([Ascii.comma] ++ (u ++ v)) := by
    rw [tokensBehind_cons]
    exact .cons_self (hu.append hv)
  apply hrow.of_dropWhile
  rw [h, List.append_assoc, List.append_assoc]
  rfl

theorem exists_spaced_first {part : List Input} {parts : List (List Input)}
    {input u v rest : Input} (hne : part ≠ []) (hu : Spaced part u)
    (hv : Spaced (b.tokensBehind parts) v)
    (h : input.dropWhile Ascii.isBlank = u ++ (v ++ rest)) :
    ∃ w, input = w ++ rest ∧ Spaced (listed (part :: parts) ++ [[b.close]]) w := by
  obtain ⟨token, more, rfl⟩ := List.exists_cons_of_ne_nil hne
  have hrow : Spaced (token :: (more ++ b.tokensBehind parts)) (u ++ v) := hu.append hv
  rw [listed_cons_append]
  exact hrow.of_dropWhile (h.trans (List.append_assoc u v rest).symm)

theorem dropWhile_eq_of_accept?_notEnding {close : UInt8} {input rest : Input}
    (h : (notEnding close).accept? input = some ((), rest)) :
    input.dropWhile Ascii.isBlank = rest := by
  rw [notEnding, accept?_bind, accept?_token, Option.bind_some] at h
  cases hdrop : input.dropWhile Ascii.isBlank with
  | nil =>
    rw [hdrop] at h
    cases h
  | cons c rest' =>
    rw [hdrop] at h
    simp only [List.head?_cons] at h
    split at h
    · rw [accept?_reject] at h
      cases h
    · cases h
      rfl

/-- What is read for a part are the tokens of some part. -/
structure TakesParts (item : σ → Reader σ) (tokens : π → List Input) : Prop where
  ne_nil : ∀ part, tokens part ≠ []
  takes : ∀ s, (item s).Takes fun row => ∃ part, row = tokens part

theorem takes_afterComma (hb : b.IsGrammatical) {r : Reader α} (hne : ∀ part, tokens part ≠ [])
    (h : r.Takes fun row => ∃ part, row = tokens part) :
    (b.afterComma >>= fun _ => r).Takes fun row => ∃ part, row = tokens part := by
  rcases hb.afterComma_eq with hstrict | hlenient
  · intro input a rest haccept
    obtain ⟨_, rest', hcomma, hread⟩ := accept?_bind_eq_some_iff.mp haccept
    obtain ⟨row, w, ⟨part, rfl⟩, rfl, hw⟩ := h rest' a rest hread
    obtain ⟨token, more, htokens⟩ := List.exists_cons_of_ne_nil (hne part)
    rw [htokens] at hw
    -- looking for the end has taken away the blanks in front of the part
    rw [hstrict] at hcomma
    obtain ⟨v, hinput, hv⟩ := hw.of_dropWhile (dropWhile_eq_of_accept?_notEnding hcomma)
    exact ⟨tokens part, v, ⟨part, rfl⟩, hinput, htokens ▸ hv⟩
  · simp only [hlenient, pure_bind]
    exact h

theorem takes_readRest (hb : b.IsGrammatical) (hitem : TakesParts item tokens) {s s' : σ}
    {input rest : Input} (h : b.readRest item s input = .done s' rest) :
    ∃ (parts : List π) (w : Input), input = w ++ rest ∧
      Spaced (b.tokensBehind (parts.map tokens)) w := by
  -- on the run of the loop; each round that goes on has taken a comma and one more part
  fun_induction readRest b item s input with
  | case1 | case4 | case5 => cases h
  | case2 s input rest' hdrop =>
    cases h
    obtain ⟨w, hinput, hw⟩ := exists_spaced_close hdrop
    exact ⟨[], w, hinput, hw⟩
  | case3 s input rest' s'' rest'' hnext hdrop _ _ ih =>
    obtain ⟨parts, v, rfl, hv⟩ := ih h
    obtain ⟨row, u, ⟨part, rfl⟩, rfl, hu⟩ :=
      takes_afterComma hb hitem.ne_nil (hitem.takes s) rest' s'' (v ++ rest) (accept?_of_run hnext)
    obtain ⟨w, hinput, hw⟩ := exists_spaced_comma hu hv hdrop
    exact ⟨part :: parts, w, hinput, hw⟩

/-- Behind the opening bracket, whatever is read are parts with commas between them. -/
theorem takes_read (hb : b.IsGrammatical) (hitem : TakesParts item tokens) (s : σ) :
    (b.read item s).Takes fun row =>
      ∃ parts : List π, row = listed (parts.map tokens) ++ [[b.close]] := by
  intro input s' rest h
  rw [read, accept?_bind, accept?_token, Option.bind_some] at h
  cases hdrop : input.dropWhile Ascii.isBlank with
  | nil =>
    rw [hdrop] at h
    cases h
  | cons c rest' =>
    rw [hdrop] at h
    simp only [List.head?_cons] at h
    split at h
    · rename_i hclose
      subst hclose
      rw [accept?_bind, accept?_next_cons] at h
      cases h
      obtain ⟨w, hinput, hw⟩ := exists_spaced_close hdrop
      exact ⟨_, w, ⟨[], rfl⟩, hinput, hw⟩
    · obtain ⟨s'', rest'', hfirst, hmore⟩ := accept?_bind_eq_some_iff.mp h
      obtain ⟨parts, v, rfl, hv⟩ := takes_readRest hb hitem (accept?_eq_some_iff.mp hmore)
      obtain ⟨row, u, ⟨part, rfl⟩, hrest', hu⟩ := hitem.takes s _ s'' (v ++ rest) hfirst
      obtain ⟨w, hinput, hw⟩ :=
        exists_spaced_first (hitem.ne_nil part) hu hv (hdrop.trans hrest')
      exact ⟨_, w, ⟨part :: parts, rfl⟩, hinput, hw⟩

theorem takes_readList (hb : b.IsGrammatical) {element : Reader α}
    (hne : ∀ part, tokens part ≠ [])
    (helement : element.Takes fun row => ∃ part, row = tokens part) :
    (b.readList element).Takes fun row =>
      ∃ parts : List π, row = listed (parts.map tokens) ++ [[b.close]] :=
  (takes_read hb ⟨hne, fun before => helement.map (· :: before)⟩ []).map List.reverse

end Bracket

end SchemaSpans
