import SchemaSpans.Location.Span
import SchemaSpans.Proofs.Reader.Integer

/-! What can be told from the printed form of a span. Its four coordinates can: each of them ends
where something stands that continues no number, and that is as true of the minus sign between
the two ends of the span as of a colon, whatever signs the coordinates have themselves. Whether
the span was recorded with both of its lines cannot. -/

namespace SchemaSpans

theorem Number.ofList_writtenInt (n : Int) : String.ofList (Number.writtenInt n) = toString n := by
  cases n with
  | ofNat n => rfl
  | negSucc n =>
    rw [Number.writtenInt, if_pos (Int.negSucc_lt_zero n), String.ofList_cons]
    rfl

theorem Reader.ends_colon (rest : Input) : Ends (Ascii.colon :: rest) := by
  rintro b ⟨⟩
  decide

theorem Reader.ends_minus (rest : Input) : Ends (Ascii.minus :: rest) := by
  rintro b ⟨⟩
  decide

namespace Span

/-- A span as messages show it is made of its coordinates, each one greater than recorded. -/
theorem describe_eq (s : Span) : s.describe =
    toString (s.startLine.toInt + 1) ++ ":" ++ toString (s.startColumn.toInt + 1) ++ "-" ++
      toString (s.endLine.toInt + 1) ++ ":" ++ toString (s.endColumn.toInt + 1) := by
  rw [describe, written]
  simp only [String.ofList_append, String.ofList_cons, writtenFromOne, Number.ofList_writtenInt,
    String.append_assoc]
  rfl

/-- One more than a coordinate is beyond 32 bits at most, so 64 bits hold it. -/
theorem writtenFromOne_eq (n : Int32) :
    writtenFromOne n = Number.writtenInt (n.toInt64 + 1).toInt := by
  have hlower : -2 ^ 31 ≤ n.toInt := Int32.le_toInt n
  have hupper : n.toInt < 2 ^ 31 := Int32.toInt_lt n
  have hone : (1 : Int64).toInt = 1 := by decide
  have hsum : (n.toInt64 + 1).toInt = n.toInt + 1 := by
    rw [Int64.toInt_add, Int32.toInt_toInt64, hone]
    exact Int.bmod_eq_of_le (by omega) (by omega)
  rw [writtenFromOne, hsum]

theorem writtenFromOne_append_inj {m n : Int32} {xs ys : Input} (hxs : Reader.Ends xs)
    (hys : Reader.Ends ys)
    (h : Text.encode (writtenFromOne m) ++ xs = Text.encode (writtenFromOne n) ++ ys) :
    m = n ∧ xs = ys := by
  obtain ⟨hsum, hrest⟩ := Numeral.writtenInt_append_inj hxs hys h
  exact ⟨Int32.toInt_inj.mp ((Int.add_left_inj 1).mp hsum), hrest⟩

/-- The bytes of a printed span. -/
theorem encode_written (s : Span) : Text.encode s.written =
    Text.encode (writtenFromOne s.startLine) ++ Ascii.colon ::
      (Text.encode (writtenFromOne s.startColumn) ++ Ascii.minus ::
        (Text.encode (writtenFromOne s.endLine) ++ Ascii.colon ::
          (Text.encode (writtenFromOne s.endColumn) ++ []))) := by
  have hcolon : String.utf8EncodeChar ':' = [Ascii.colon] := by decide
  have hminus : String.utf8EncodeChar '-' = [Ascii.minus] := by decide
  simp only [written, Text.encode_append, Text.encode_cons, hcolon, hminus, List.append_assoc,
    List.cons_append, List.nil_append, List.append_nil]

/-- Spans that print alike have the same coordinates: they are read back one after another. -/
theorem coordinates_eq_of_describe_eq {s t : Span} (h : s.describe = t.describe) :
    s.startLine = t.startLine ∧ s.startColumn = t.startColumn ∧ s.endLine = t.endLine ∧
      s.endColumn = t.endColumn := by
  have hbytes : Text.encode s.written = Text.encode t.written :=
    congrArg Text.encode (String.ofList_inj.mp h)
  rw [encode_written, encode_written] at hbytes
  -- the byte behind each number ends it, so the next one starts at the same place in both
  obtain ⟨hstartLine, h₁⟩ :=
    writtenFromOne_append_inj (Reader.ends_colon _) (Reader.ends_colon _) hbytes
  obtain ⟨hstartColumn, h₂⟩ :=
    writtenFromOne_append_inj (Reader.ends_minus _) (Reader.ends_minus _) (List.cons.inj h₁).2
  obtain ⟨hendLine, h₃⟩ :=
    writtenFromOne_append_inj (Reader.ends_colon _) (Reader.ends_colon _) (List.cons.inj h₂).2
  obtain ⟨hendColumn, -⟩ :=
    writtenFromOne_append_inj Reader.ends_nil Reader.ends_nil (List.cons.inj h₃).2
  exact ⟨hstartLine, hstartColumn, hendLine, hendColumn⟩

theorem describe_eq_iff_coordinates {s t : Span} : s.describe = t.describe ↔
    s.startLine = t.startLine ∧ s.startColumn = t.startColumn ∧ s.endLine = t.endLine ∧
      s.endColumn = t.endColumn := by
  refine ⟨coordinates_eq_of_describe_eq, fun ⟨hstartLine, hstartColumn, hendLine, hendColumn⟩ => ?_⟩
  rw [describe, describe, written, written, hstartLine, hstartColumn, hendLine, hendColumn]

/-- The printed form of a span determines its coordinates and nothing else. Each of them is
printed as the exact number that is one greater, which 64 bits always hold. The only spans that
print alike without being the same are one line recorded once and the same line recorded twice. -/
theorem describe_eq_iff (s t : Span) :
    (s.describe = t.describe ↔
      s.startLine = t.startLine ∧ s.startColumn = t.startColumn ∧ s.endLine = t.endLine ∧
        s.endColumn = t.endColumn) ∧
    s.describe =
      toString (s.startLine.toInt + 1) ++ ":" ++ toString (s.startColumn.toInt + 1) ++ "-" ++
        toString (s.endLine.toInt + 1) ++ ":" ++ toString (s.endColumn.toInt + 1) ∧
    (∀ n : Int32, writtenFromOne n = Number.writtenInt (n.toInt64 + 1).toInt) ∧
    (s.describe = t.describe ∧ s ≠ t ↔ ∃ line startColumn endColumn,
      s = .singleLine line startColumn endColumn ∧
          t = .multiLine line startColumn line endColumn ∨
        s = .multiLine line startColumn line endColumn ∧
          t = .singleLine line startColumn endColumn) := by
  refine ⟨describe_eq_iff_coordinates, describe_eq s, writtenFromOne_eq, ?_⟩
  rw [describe_eq_iff_coordinates]
  constructor
  · -- two spans of one shape with the same coordinates are the same
    rintro ⟨hcoordinates, hne⟩
    cases s with
    | singleLine line startColumn endColumn =>
      cases t with
      | singleLine =>
        obtain ⟨⟨⟩, ⟨⟩, ⟨⟩, ⟨⟩⟩ := hcoordinates
        exact absurd rfl hne
      | multiLine =>
        obtain ⟨⟨⟩, ⟨⟩, ⟨⟩, ⟨⟩⟩ := hcoordinates
        exact ⟨_, _, _, Or.inl ⟨rfl, rfl⟩⟩
    | multiLine startLine startColumn endLine endColumn =>
      cases t with
      | singleLine =>
        obtain ⟨⟨⟩, ⟨⟩, ⟨⟩, ⟨⟩⟩ := hcoordinates
        exact ⟨_, _, _, Or.inr ⟨rfl, rfl⟩⟩
      | multiLine =>
        obtain ⟨⟨⟩, ⟨⟩, ⟨⟩, ⟨⟩⟩ := hcoordinates
        exact absurd rfl hne
  · rintro ⟨line, startColumn, endColumn, ⟨rfl, rfl⟩ | ⟨rfl, rfl⟩⟩
    · exact ⟨⟨rfl, rfl, rfl, rfl⟩, Span.noConfusion⟩
    · exact ⟨⟨rfl, rfl, rfl, rfl⟩, Span.noConfusion⟩

example : (multiLine (-5) (-1) 2147483647 0).describe = "-4:0-2147483648:1" := by decide

end Span

end SchemaSpans
