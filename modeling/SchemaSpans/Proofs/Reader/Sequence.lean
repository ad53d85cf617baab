import SchemaSpans.Proofs.Json.Bytes

/-! Reading what stands between brackets, part by part. Each part is read in the state
that the parts before it have led to, so what becomes of the whole is a chain of results
that ends behind the last part or at the first one that stops. -/

namespace SchemaSpans

namespace Bracket

variable {σ : Type}

/-- Punctuation that can be told apart from what it separates. -/
structure IsRegular (b : Bracket) : Prop where
  comma_ne_close : Ascii.comma ≠ b.close
  isBlank_close : Ascii.isBlank b.close = false
  ends_close : ∀ rest, Reader.Ends (b.close :: rest)
  afterComma_eq : b.afterComma = notEnding b.close

theorem isRegular_list : list.IsRegular :=
  ⟨by decide, by decide, Reader.ends_closeBracket, rfl⟩

theorem isRegular_object : object.IsRegular :=
  ⟨by decide, by decide, Reader.ends_closeBrace, rfl⟩

/-- A text that can stand where the sequence could end: its first byte is no blank and does
not end the sequence. -/
def Opens (b : Bracket) (w : Input) : Prop :=
  ∃ c rest, w = c :: rest ∧ Ascii.isBlank c = false ∧ c ≠ b.close

/-- What becomes of reading parts one after another: each one leads to the state in which the
next one is read, and the first one that stops ends the sequence. -/
inductive Chain (b : Bracket) (item : σ → Reader σ) :
    σ → List Input → Except Cause σ → Prop where
  | done (s : σ) : Chain b item s [] (.ok s)
  | step {s s' : σ} {w : Input} {ws : List Input} {result : Except Cause σ} (hw : b.Opens w)
      (hs : (item s).Reads w (.ok s')) (hrest : Chain b item s' ws result) :
      Chain b item s (w :: ws) result
  | stop {s : σ} {w : Input} {ws : List Input} {cause : Cause} (hw : b.Opens w)
      (hs : (item s).Reads w (.error cause)) : Chain b item s (w :: ws) (.error cause)

variable {b : Bracket} {item : σ → Reader σ}

theorem run_nextItem (hb : b.IsRegular) {w : Input} (hw : b.Opens w) (s : σ) (rest : Input) :
    (b.nextItem item s).run (w ++ rest) = (item s).run (w ++ rest) := by
  obtain ⟨c, w', rfl, hblank, hclose⟩ := hw
  simp only [nextItem, hb.afterComma_eq, notEnding, List.cons_append, Reader.run_bind,
    Reader.run_token_cons hblank, if_neg hclose, Reader.run_pure]

theorem readRest_close (hb : b.IsRegular) (s : σ) (rest : Input) :
    b.readRest item s (b.close :: rest) = .done s rest := by
  have hclose : (b.close :: rest).dropWhile Ascii.isBlank = b.close :: rest :=
    List.dropWhile_cons_of_neg (by rw [hb.isBlank_close]; decide)
  rw [readRest_eq, hclose]
  exact if_pos rfl

theorem readRest_comma (hb : b.IsRegular) {w : Input} (hw : b.Opens w) (s : σ) (rest : Input) :
    b.readRest item s (Ascii.comma :: (w ++ rest)) =
      match (item s).run (w ++ rest) with
      | .done s rest => b.readRest item s rest
      | .stopped cause rest => .stopped cause rest := by
  have hcomma : (Ascii.comma :: (w ++ rest)).dropWhile Ascii.isBlank =
      Ascii.comma :: (w ++ rest) := rfl
  rw [readRest_eq, hcomma]
  refine (if_neg hb.comma_ne_close).trans ((if_pos rfl).trans ?_)
  exact congrArg (fun o : Outcome σ => match o with
    | .done s rest => b.readRest item s rest
    | .stopped cause rest => .stopped cause rest) (run_nextItem hb hw s rest)

theorem ends_parts (hb : b.IsRegular) (ws : List Input) (rest : Input) :
    Reader.Ends (ws.flatMap (Ascii.comma :: ·) ++ b.close :: rest) := by
  cases ws with
  | nil => exact hb.ends_close rest
  | cons w ws => exact Reader.ends_comma _

/-- Reading on behind a part follows the chain of the parts that are left. -/
theorem readRest_of_chain (hb : b.IsRegular) {s : σ} {ws : List Input} {result : Except Cause σ}
    (h : Chain b item s ws result) (rest : Input) :
    (b.readRest item s (ws.flatMap (Ascii.comma :: ·) ++ b.close :: rest)).Is rest result := by
  -- along the chain; each part ends where the comma or the closing bracket stands
  induction h with
  | done s => exact readRest_close hb s rest
  | @step s s' w ws result hw hs _ ih =>
    have hrun : (item s).run (w ++ (ws.flatMap (Ascii.comma :: ·) ++ b.close :: rest)) =
        .done s' (ws.flatMap (Ascii.comma :: ·) ++ b.close :: rest) := hs _ (ends_parts hb ws rest)
    rw [List.flatMap_cons, List.append_assoc, List.cons_append, readRest_comma hb hw, hrun]
    exact ih
  | @stop s w ws cause hw hs =>
    obtain ⟨unread, hrun⟩ := hs _ (ends_parts hb ws rest)
    rw [List.flatMap_cons, List.append_assoc, List.cons_append, readRest_comma hb hw, hrun]
    exact ⟨unread, rfl⟩

theorem run_read_of_opens {w : Input} (hw : b.Opens w) (s : σ) (rest : Input) :
    (b.read item s).run (w ++ rest) =
      match (item s).run (w ++ rest) with
      | .done s rest => b.readRest item s rest
      | .stopped cause rest => .stopped cause rest := by
  obtain ⟨c, w', rfl, hblank, hclose⟩ := hw
  simp only [read, List.cons_append, Reader.run_bind, Reader.run_token_cons hblank, if_neg hclose]
  rfl

/-- A sequence is read as the chain of its parts says. -/
theorem read_of_chain (hb : b.IsRegular) {s : σ} {ws : List Input} {result : Except Cause σ}
    (h : Chain b item s ws result) (rest : Input) :
    ((b.read item s).run (separated ws ++ b.close :: rest)).Is rest result := by
  cases h with
  | done s =>
    simp only [separated, List.nil_append, read, Reader.run_bind,
      Reader.run_token_cons hb.isBlank_close, if_true, Reader.run_next_cons, Reader.run_pure]
    rfl
  | @step _ s' w ws _ hw hs hrest =>
    have hrun : (item s).run (w ++ (ws.flatMap (Ascii.comma :: ·) ++ b.close :: rest)) =
        .done s' (ws.flatMap (Ascii.comma :: ·) ++ b.close :: rest) := hs _ (ends_parts hb ws rest)
    rw [separated, List.append_assoc, run_read_of_opens hw, hrun]
    exact readRest_of_chain hb hrest rest
  | @stop _ w ws _ hw hs =>
    obtain ⟨unread, hrun⟩ := hs _ (ends_parts hb ws rest)
    rw [separated, List.append_assoc, run_read_of_opens hw, hrun]
    exact ⟨unread, rfl⟩

/-- Parts that are read one after another unless one of them is too deep: the state behind
some of them is `state` of these parts. -/
theorem chain_of_parts {α : Type} (text : α → Input) (depth : α → Nat) (n : Nat)
    (state : List α → σ) (parts : List α) (hopens : ∀ x ∈ parts, b.Opens (text x))
    (hitem : ∀ done x todo, parts = done ++ x :: todo → (item (state done)).Reads (text x)
      (if depth x ≤ n then .ok (state (done ++ [x])) else .error .nestedTooDeep)) :
    Chain b item (state []) (parts.map text)
      (if ∀ x ∈ parts, depth x ≤ n then .ok (state parts) else .error .nestedTooDeep) := by
  -- the first part moves into `state`, which then speaks of the parts behind it
  induction parts generalizing state with
  | nil =>
    rw [if_pos fun x hx => (List.not_mem_nil hx).elim]
    exact .done (state [])
  | cons x xs ih =>
    have hx := hitem [] x xs rfl
    have hopens' := hopens x List.mem_cons_self
    by_cases hdepth : depth x ≤ n
    · rw [if_pos hdepth] at hx
      have hrest := ih (fun done => state (x :: done))
        (fun y hy => hopens y (List.mem_cons_of_mem x hy))
        (fun done y todo h => hitem (x :: done) y todo (congrArg (x :: ·) h))
      simp only [List.forall_mem_cons, hdepth, true_and]
      exact .step hopens' hx hrest
    · rw [if_neg hdepth] at hx
      rw [if_neg fun h => hdepth (h x List.mem_cons_self)]
      exact .stop hopens' hx

end Bracket

end SchemaSpans
