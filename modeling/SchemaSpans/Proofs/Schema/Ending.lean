import SchemaSpans.Proofs.Schema.Fault
import SchemaSpans.Proofs.Schema.Layout

/-! Where a text ends. A record ends with its closing bracket, and what has been read up to there
does not depend on what follows. So blanks may follow and nothing else may, and a text that is cut
in front of its closing bracket is not the text of a record. -/

namespace SchemaSpans

open Reader

/-- Nothing but spaces, line ends, tabs and carriage returns. -/
def Ascii.AreBlanks (bs : Input) : Prop :=
  ∀ b ∈ bs, b = space ∨ b = newline ∨ b = tab ∨ b = carriageReturn

namespace Ascii

theorem areBlanks_iff {bs : Input} : AreBlanks bs ↔ ∀ b ∈ bs, isBlank b = true := by
  simp only [AreBlanks, isBlank, Bool.or_eq_true, decide_eq_true_eq, or_assoc]

instance : DecidablePred AreBlanks := fun bs =>
  decidable_of_iff (bs.all isBlank = true) (by rw [areBlanks_iff, List.all_eq_true])

theorem areBlanks_singleton_iff {b : UInt8} : AreBlanks [b] ↔ isBlank b = true := by
  rw [areBlanks_iff, List.forall_mem_singleton]

theorem areBlanks_append_iff {bs cs : Input} :
    AreBlanks (bs ++ cs) ↔ AreBlanks bs ∧ AreBlanks cs :=
  List.forall_mem_append

/-- Bytes that are not all blanks have a first one that is none. -/
theorem exists_of_not_areBlanks {bs : Input} (h : ¬ AreBlanks bs) :
    ∃ blanks b rest, bs = blanks ++ b :: rest ∧ AreBlanks blanks ∧ ¬ AreBlanks [b] := by
  cases hdrop : bs.dropWhile isBlank with
  | nil => exact absurd (areBlanks_iff.mpr (List.dropWhile_eq_nil_iff.mp hdrop)) h
  | cons b rest =>
    have hb := List.head?_dropWhile_not isBlank bs
    rw [hdrop] at hb
    refine ⟨bs.takeWhile isBlank, b, rest, ?_, ?_, ?_⟩
    · rw [← hdrop, List.takeWhile_append_dropWhile]
    · exact areBlanks_iff.mpr fun c hc => List.mem_takeWhile_imp hc
    · rw [areBlanks_singleton_iff, hb]
      decide

end Ascii

theorem Spaced.exists_append_last {tokens : List Input} {last w : Input}
    (h : Spaced (tokens ++ [last]) w) : ∃ u, w = u ++ last := by
  obtain ⟨u, v, rfl, -, hv⟩ := h.exists_append
  cases hv with
  | @cons blanks _ _ _ _ hnil =>
    cases hnil
    exact ⟨u ++ blanks, by rw [List.append_nil, List.append_assoc]⟩

/-- The tree of a record ends with a closing bracket. -/
theorem JsonTree.exists_tokens_eq_append_close {n : Nat} {t : RecordType} {x : JsonTree}
    {r : t.Value} (h : x.value? n (.record t) = some r) : ∃ tokens close,
      x.tokens = tokens ++ [[close]] ∧ (close = Ascii.closeBracket ∨ close = Ascii.closeBrace) := by
  match x with
  | .list items =>
    refine ⟨[Ascii.openBracket] :: listed (items.map tokens), _, ?_, .inl rfl⟩
    rw [tokens_list, enclosed, List.cons_append]
  | .object members =>
    refine ⟨[Ascii.openBrace] :: listed (members.map tokensOfMember), _, ?_, .inr rfl⟩
    rw [tokens_object, enclosed, List.cons_append]
  | .null | .bool _ | .number _ | .string _ => cases n <;> cases h

namespace Reader

theorem run_textEnd_of_areBlanks {blanks : Input} (h : Ascii.AreBlanks blanks) :
    textEnd.run blanks = .done () [] :=
  accept?_eq_some_iff.mp (accept?_textEnd (Ascii.areBlanks_iff.mp h))

/-- Anything else than a blank behind a value is read and refused. -/
theorem run_textEnd_append {blanks rest : Input} {b : UInt8} (h : Ascii.AreBlanks blanks)
    (hb : ¬ Ascii.AreBlanks [b]) :
    textEnd.run (blanks ++ b :: rest) = .stopped .trailingText rest := by
  rw [Ascii.areBlanks_singleton_iff] at hb
  have hdrop : (blanks ++ b :: rest).dropWhile Ascii.isBlank = b :: rest := by
    rw [List.dropWhile_append_of_pos (Ascii.areBlanks_iff.mp h), List.dropWhile_cons_of_neg hb]
  rw [textEnd, run_bind, run_token, hdrop]
  rfl

end Reader

namespace RecordType

variable {t : RecordType} {text : String} {r : t.Value}

/-- A text that is read as a record ends with a bracket and blanks, and the same record is read up
to this bracket whatever follows it. -/
theorem exists_close_of_read (h : t.read text = .ok r) : ∃ inside close blanks,
    Text.bytes text = inside ++ close :: blanks ∧
      (close = Ascii.closeBracket ∨ close = Ascii.closeBrace) ∧ Ascii.AreBlanks blanks ∧
      ∀ rest, (value maxDepth (.record t)).run (inside ++ close :: rest) = .done r rest := by
  obtain ⟨x, hx⟩ := exists_isLayout_of_read h
  have hr := (read_eq_ok_iff hx).mp h
  obtain ⟨tokens, close, htokens, hclose⟩ := JsonTree.exists_tokens_eq_append_close hr
  obtain ⟨w, blanks, htext, hw, hblanks⟩ := hx
  have hdelimits := delimits_value_record maxDepth t x w
  rw [htokens] at hw hdelimits
  obtain ⟨inside, rfl⟩ := hw.exists_append_last
  rw [List.append_assoc] at htext
  refine ⟨inside, close, blanks, htext, hclose, Ascii.areBlanks_iff.mpr hblanks, fun rest => ?_⟩
  have haccept := hdelimits rest hw
  rw [hr, List.append_assoc] at haccept
  exact accept?_eq_some_iff.mp haccept

/-- With more behind it, a text that is read leads on to the end of the text, with its own blanks
in front of what is there. -/
theorem exists_run_append (h : t.read text = .ok r) : ∃ blanks, Ascii.AreBlanks blanks ∧
    ∀ s : String, (whole t).run (Text.bytes (text ++ s)) =
      (textEnd >>= fun _ => pure r).run (blanks ++ Text.bytes s) := by
  obtain ⟨inside, close, blanks, htext, -, hblanks, hrun⟩ := exists_close_of_read h
  refine ⟨blanks, hblanks, fun s => ?_⟩
  rw [Text.bytes_append, htext, List.append_assoc, List.cons_append, whole, run_bind, hrun]

theorem read_append_of_areBlanks (h : t.read text = .ok r) {s : String}
    (hs : Ascii.AreBlanks (Text.bytes s)) : t.read (text ++ s) = .ok r := by
  obtain ⟨blanks, hblanks, hrun⟩ := exists_run_append h
  have hend := run_textEnd_of_areBlanks (Ascii.areBlanks_append_iff.mpr ⟨hblanks, hs⟩)
  apply read_of_run
  rw [hrun, run_bind, hend]
  rfl

/-- Behind the blanks that may follow a record, the first other byte is at fault. -/
theorem read_append_of_not_areBlanks (h : t.read text = .ok r) {s : String} {blanks rest : Input}
    {b : UInt8} (hs : Text.bytes s = blanks ++ b :: rest) (hblanks : Ascii.AreBlanks blanks)
    (hb : ¬ Ascii.AreBlanks [b]) :
    t.read (text ++ s) = .error
      { cause := .trailingText, position := .after (Text.bytes text ++ (blanks ++ [b])) } := by
  obtain ⟨blanks', hblanks', hrun⟩ := exists_run_append h
  have hend : textEnd.run (blanks' ++ (blanks ++ b :: rest)) = .stopped .trailingText rest := by
    rw [← List.append_assoc]
    exact run_textEnd_append (Ascii.areBlanks_append_iff.mpr ⟨hblanks', hblanks⟩) hb
  refine read_eq_error_iff.mpr ⟨Text.bytes text ++ (blanks ++ [b]), rest, ?_, ?_, rfl⟩
  · rw [Text.bytes_append, hs, List.append_assoc, List.append_assoc, List.singleton_append]
  · rw [hrun, hs, run_bind, hend]

theorem areBlanks_of_read_append (h : t.read text = .ok r) {s : String} {r' : t.Value}
    (h' : t.read (text ++ s) = .ok r') : Ascii.AreBlanks (Text.bytes s) := by
  by_contra hs
  obtain ⟨blanks, b, rest, hbytes, hblanks, hb⟩ := Ascii.exists_of_not_areBlanks hs
  rw [read_append_of_not_areBlanks h hbytes hblanks hb] at h'
  cases h'

/-- What is cut off in front of a closing bracket holds this bracket, so it could not follow a text
that is read. -/
theorem exists_fault_of_cut {start rest : String} (h : t.read (start ++ rest) = .ok r)
    {inside blanks : Input} {close : UInt8}
    (htext : Text.bytes (start ++ rest) = inside ++ close :: blanks)
    (hclose : close = Ascii.closeBracket ∨ close = Ascii.closeBrace)
    (hlength : (Text.bytes start).length ≤ inside.length) :
    ∃ fault, t.read start = .error fault := by
  cases hstart : t.read start with
  | error fault => exact ⟨fault, rfl⟩
  | ok r' =>
    have hrest := areBlanks_of_read_append hstart h
    have hdrop : Text.bytes rest = inside.drop (Text.bytes start).length ++ close :: blanks := by
      rw [← List.drop_append_of_le_length hlength, ← htext, Text.bytes_append, List.drop_left]
    have hmem : close ∈ Text.bytes rest := hdrop ▸ List.mem_append_right _ List.mem_cons_self
    have hblank := hrest close hmem
    rcases hclose with rfl | rfl <;> exact absurd hblank (by decide)

/-- A text that is read goes on with blanks or is refused at the first byte that is none, and it is
refused when it is cut anywhere in front of its closing bracket. -/
theorem read_append_iff_and_cut_refused (h : t.read text = .ok r) :
    (∀ s r', t.read (text ++ s) = .ok r' ↔ Ascii.AreBlanks (Text.bytes s) ∧ r' = r) ∧
      (∀ s blanks b rest, Text.bytes s = blanks ++ b :: rest → Ascii.AreBlanks blanks →
        ¬ Ascii.AreBlanks [b] → ∃ fault, t.read (text ++ s) = .error fault ∧
          fault.position = .after (Text.bytes text ++ (blanks ++ [b])) ∧
          fault.message =
            s!"trailing characters at line {fault.position.line} column {fault.position.column}") ∧
      ∃ inside close blanks, Text.bytes text = inside ++ close :: blanks ∧
        (close = Ascii.closeBracket ∨ close = Ascii.closeBrace) ∧ Ascii.AreBlanks blanks ∧
        ∀ start rest, text = start ++ rest → (Text.bytes start).length ≤ inside.length →
          ∃ fault, t.read start = .error fault := by
  refine ⟨fun s r' => ⟨fun hread => ?_, ?_⟩, fun s blanks b rest hs hblanks hb => ?_, ?_⟩
  · have hs := areBlanks_of_read_append h hread
    rw [read_append_of_areBlanks h hs] at hread
    exact ⟨hs, (Except.ok.inj hread).symm⟩
  · rintro ⟨hs, rfl⟩
    exact read_append_of_areBlanks h hs
  · exact ⟨_, read_append_of_not_areBlanks h hs hblanks hb, rfl, Fault.message_eq _⟩
  · obtain ⟨inside, close, blanks, htext, hclose, hblanks, -⟩ := exists_close_of_read h
    refine ⟨inside, close, blanks, htext, hclose, hblanks, ?_⟩
    rintro start rest rfl hlength
    exact exists_fault_of_cut h htext hclose hlength

/-- A set of no files, with blanks or a bracket behind it and with its last bracket cut off. -/
theorem read_append_iff_and_cut_refused_set :
    fileSet.read ("\x7b\"file\":[]\x7d" ++ " \n") = .ok {} ∧
      (∃ fault, fileSet.read ("\x7b\"file\":[]\x7d" ++ "\n]") = .error fault ∧
        fault.message = "trailing characters at line 2 column 1") ∧
      ∃ fault, fileSet.read "\x7b\"file\":[]" = .error fault := by
  have hread : fileSet.read "\x7b\"file\":[]\x7d" = .ok {} := read_of_run (by decide +kernel)
  obtain ⟨hblank, hother, inside, close, blanks, htext, -, hblanks, hcut⟩ :=
    read_append_iff_and_cut_refused hread
  obtain ⟨fault, hfault, hposition, hmessage⟩ := hother "\n]" [Ascii.newline] Ascii.closeBracket []
    (by decide +kernel) (by decide) (by decide)
  have hline : fault.position = { line := 2, column := 1 } :=
    hposition.trans (by decide +kernel)
  refine ⟨(hblank _ _).mpr ⟨by decide +kernel, rfl⟩, ⟨fault, hfault, ?_⟩,
    hcut _ "\x7d" (by decide) ?_⟩
  · rw [hmessage, hline]
    decide +kernel
  · -- the closing brace is the last byte, with no blanks behind it
    have hlast : (Text.bytes "\x7b\"file\":[]\x7d").getLast? = some Ascii.closeBrace := by
      decide +kernel
    rcases List.eq_nil_or_concat blanks with rfl | ⟨front, b, rfl⟩
    · have hlength := congrArg List.length htext
      rw [List.length_append, List.length_singleton] at hlength
      have hstart : (Text.bytes "\x7b\"file\":[]").length + 1 =
          (Text.bytes "\x7b\"file\":[]\x7d").length := by decide +kernel
      omega
    · rw [List.concat_eq_append] at htext hblanks
      rw [htext, ← List.cons_append, ← List.append_assoc, List.getLast?_concat] at hlast
      obtain rfl : b = Ascii.closeBrace := Option.some.inj hlast
      exact absurd (hblanks _ List.mem_concat_self) (by decide)

end RecordType

end SchemaSpans
