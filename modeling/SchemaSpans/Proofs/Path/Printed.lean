import SchemaSpans.Proofs.Grammar.Sequence
import SchemaSpans.Proofs.Location.Entry
import SchemaSpans.Proofs.Schema.ReadBack

/-! What can be told from the printed form of a path. It is a list of integers as descriptor texts
hold them, only with a blank behind each comma, so the reader of such lists gives the path back and
stops behind the closing bracket. A printed path can therefore be told from any other, also where
more text follows it, as it does in the log. -/

namespace SchemaSpans

open Reader

namespace DescriptorPath

/-- The tokens of a component, of which there is only one. -/
def componentTokens (c : Int32) : List Input :=
  [(Json.ofInt32 c).bytes]

theorem encode_writtenRest_cons (c : Int32) (rest : DescriptorPath) :
    Text.encode (writtenRest (c :: rest)) =
      Ascii.comma :: Ascii.space :: ((Json.ofInt32 c).bytes ++ Text.encode (writtenRest rest)) := by
  rw [writtenRest, Text.encode_append]
  rfl

/-- Behind a component stand a comma, a blank and the next component, or the bracket that ends the
path. -/
theorem spaced_writtenRest (p : DescriptorPath) :
    Spaced (Bracket.list.tokensBehind (p.map componentTokens))
      (Text.encode (writtenRest p) ++ [Ascii.closeBracket]) := by
  -- on the components; the blank belongs in front of the one that stands behind it
  induction p with
  | nil => exact .singleton [Ascii.closeBracket]
  | cons c rest ih =>
    have hspace : Ascii.isBlank Ascii.space = true := by decide
    have hblank : ∀ b ∈ [Ascii.space], Ascii.isBlank b = true := List.forall_mem_singleton.mpr hspace
    have hnext : Spaced (componentTokens c ++ Bracket.list.tokensBehind (rest.map componentTokens))
        ([Ascii.space] ++ ((Json.ofInt32 c).bytes ++
          (Text.encode (writtenRest rest) ++ [Ascii.closeBracket]))) := .cons hblank ih
    rw [List.map_cons, Bracket.tokensBehind_cons, encode_writtenRest_cons, List.cons_append,
      List.cons_append, List.append_assoc]
    exact hnext.cons_self

theorem spaced_writtenComponents (p : DescriptorPath) :
    Spaced (listed (p.map componentTokens) ++ [[Bracket.list.close]])
      (Text.encode (writtenComponents p) ++ [Ascii.closeBracket]) := by
  cases p with
  | nil => exact .singleton [Ascii.closeBracket]
  | cons c rest =>
    have hrest := spaced_writtenRest rest
    rw [List.map_cons, Bracket.listed_cons_append, writtenComponents, Text.encode_append,
      List.append_assoc]
    exact hrest.cons_self

/-- The components of a path are read one after another, up to the bracket that ends it. -/
theorem delimits_components (p : DescriptorPath) :
    (Bracket.list.readList int32).Delimits
      (listed (p.map componentTokens) ++ [[Bracket.list.close]]) (some p) := by
  have hread : (Bracket.list.readList int32).Delimits
      (listed (p.map componentTokens) ++ [[Bracket.list.close]]) (p.mapM some) :=
    Bracket.delimits_readList Bracket.isRegular_list.isGrammatical
      (fun c _ => (Bracket.opens_list (v := Json.ofInt32 c) rfl).opensWith)
      fun c _ => (reads_int32 c).evaluates
  have hall : p.mapM some = some (p.map id) := List.mapM_pure
  rwa [hall, List.map_id] at hread

theorem bytes_describe (p : DescriptorPath) : Text.bytes p.describe =
    Ascii.openBracket :: (Text.encode (writtenComponents p) ++ [Ascii.closeBracket]) := by
  have hbytes : Text.bytes p.describe = Text.encode ('[' :: writtenComponents p ++ [']']) :=
    Text.bytes_ofList _
  rw [hbytes, Text.encode_append]
  rfl

example : describe [4, -1, 2147483647] = "[4, -1, 2147483647]" := by decide

/-- A printed path is read back as the path by the reader for lists of integers, whatever follows
it. -/
theorem run_value_describe (allowance : Nat) (p : DescriptorPath) (rest : Input) :
    (value (allowance + 1) (.list .int32)).run (Text.bytes p.describe ++ rest) = .done p rest := by
  have hblank : ¬ Ascii.isBlank Ascii.openBracket = true := by decide
  have hstart : Start.ofByte Ascii.openBracket = .list := by decide
  have helement : value allowance .int32 = int32 := by cases allowance <;> rfl
  have hinside := delimits_components p _ rest (spaced_writtenComponents p)
  apply accept?_eq_some_iff.mp
  -- behind the bracket that tells it is a list, the components are all that is left to read
  rw [bytes_describe, List.cons_append]
  simp only [value, valueWith, list, accept?_bind, accept?_start, List.dropWhile_cons_of_neg hblank,
    List.head?_cons, Option.map_some, Option.bind_some, hstart, accept?_descend, helement, hinside]

/-- Of a text that begins with a printed path, it is certain which path that is and where it
ends. -/
theorem describe_append_inj {p q : DescriptorPath} {s t : String}
    (h : p.describe ++ s = q.describe ++ t) : p = q ∧ s = t := by
  have hp := run_value_describe 0 p (Text.bytes s)
  have hq := run_value_describe 0 q (Text.bytes t)
  -- both are what the reader makes of one and the same text
  rw [← Text.bytes_append, h, Text.bytes_append, hq] at hp
  obtain ⟨hpath, hrest⟩ := Outcome.done.inj hp
  exact ⟨hpath.symm, Text.bytes_injective hrest.symm⟩

end DescriptorPath

theorem Event.line_noLocation_inj {p q : DescriptorPath} {f g : String} :
    (noLocation p f).line = (noLocation q g).line ↔ p = q ∧ f = g := by
  refine ⟨fun h => ?_, fun ⟨hpath, hfile⟩ => by rw [hpath, hfile]⟩
  rw [line_noLocation, line_noLocation] at h
  simp only [String.append_assoc, String.append_right_inj] at h
  obtain ⟨hpath, hfile⟩ := DescriptorPath.describe_append_inj h
  exact ⟨hpath, (String.append_right_inj _).mp hfile⟩

namespace SchemaFile

variable {f g : SchemaFile} {p q : DescriptorPath}

theorem line_log_find_eq_singleton_iff {line : String} :
    (f.find p).log.map Event.line = [line] ↔
      f.HasNoRecord p ∧ (Event.noLocation p f.fileName).line = line := by
  rcases f.isFirst_or_hasNoRecord p with ⟨r, hr⟩ | hnone
  · refine iff_of_false (fun h => ?_) fun h => not_hasNoRecord_of_isFirst hr h.1
    rw [find_of_isFirst hr] at h
    cases h
  · rw [find_of_hasNoRecord hnone, List.map_singleton, List.singleton_inj, and_iff_right hnone]

/-- Two lookups leave the same line in the log exactly if both find nothing, and look for one path
in files of one name. -/
theorem exists_line_log_find_iff :
    (∃ line, (f.find p).log.map Event.line = [line] ∧ (g.find q).log.map Event.line = [line]) ↔
      p = q ∧ f.fileName = g.fileName ∧ f.HasNoRecord p ∧ g.HasNoRecord q := by
  constructor
  · rintro ⟨line, hlinef, hlineg⟩
    obtain ⟨hf, hline⟩ := line_log_find_eq_singleton_iff.mp hlinef
    obtain ⟨hg, rfl⟩ := line_log_find_eq_singleton_iff.mp hlineg
    obtain ⟨hpath, hfile⟩ := Event.line_noLocation_inj.mp hline
    exact ⟨hpath, hfile, hf, hg⟩
  · rintro ⟨hpath, hfile, hf, hg⟩
    have hline := Event.line_noLocation_inj.mpr ⟨hpath, hfile⟩
    exact ⟨_, line_log_find_eq_singleton_iff.mpr ⟨hf, hline⟩,
      line_log_find_eq_singleton_iff.mpr ⟨hg, rfl⟩⟩

end SchemaFile

namespace DescriptorPath

/-- The printed form of a path determines the path. So does the line that a lookup leaves in the
log if it finds nothing, although the name of the file stands in it as well. -/
theorem describe_inj_and_line_log_find (p q : DescriptorPath) :
    (p.describe = q.describe ↔ p = q) ∧
    ∀ f g : SchemaFile,
      (∃ line, (f.find p).log.map Event.line = [line] ∧ (g.find q).log.map Event.line = [line]) ↔
        p = q ∧ f.fileName = g.fileName ∧ f.HasNoRecord p ∧ g.HasNoRecord q := by
  refine ⟨⟨fun h => ?_, congrArg describe⟩, fun f g => SchemaFile.exists_line_log_find_iff⟩
  have happend : p.describe ++ "" = q.describe ++ "" := congrArg (· ++ "") h
  exact (describe_append_inj happend).1

end DescriptorPath

end SchemaSpans
