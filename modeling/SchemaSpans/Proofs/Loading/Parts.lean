import SchemaSpans.Descriptor.Edit
import SchemaSpans.Loading.Set
import SchemaSpans.Proofs.Schema.Members

/-! Texts that are put together from other texts. A set whose files are given as texts is read by
reading these texts one by one: the brackets around them take from the depth that is left for
them, and change nothing else. -/

namespace SchemaSpans

namespace Text

/-- The text of a list whose items are given as texts. -/
def ofList (texts : List String) : String :=
  "[" ++ ",".intercalate texts ++ "]"

/-- The text of an object with one member, whose value is given as a text. -/
def ofMember (key text : String) : String :=
  "\x7b\"" ++ key ++ "\":" ++ text ++ "\x7d"

end Text

theorem listed_cons_cons (part part' : List Input) (parts : List (List Input)) :
    listed (part :: part' :: parts) = part ++ [Ascii.comma] :: listed (part' :: parts) := by
  rw [listed, listed, List.flatMap_cons, List.cons_append]

namespace JsonTree

variable {x : JsonTree} {xs : List JsonTree} {text : String} {texts : List String}

/-- The blanks behind a text are blanks in front of what follows it. -/
theorem IsLayout.append (h : x.IsLayout text) {token w : Input} {more : List Input}
    (hw : Spaced (token :: more) w) :
    Spaced (x.tokens ++ token :: more) (Text.bytes text ++ w) := by
  obtain ⟨u, blanks, htext, hu, hblanks⟩ := h
  rw [htext, List.append_assoc]
  exact hu.append (hw.blanks_append hblanks)

theorem spaced_intercalate (h : List.Forall₂ IsLayout xs texts) {token w : Input}
    {more : List Input} (hw : Spaced (token :: more) w) :
    Spaced (listed (xs.map tokens) ++ token :: more)
      (Text.bytes (",".intercalate texts) ++ w) := by
  induction h with
  | nil => exact hw
  | @cons x text xs texts hx hxs ih =>
    -- there is a comma behind a text if and only if there is another text
    cases hxs with
    | nil =>
      rw [String.intercalate_singleton, List.map_singleton, listed, List.flatMap_nil,
        List.append_nil]
      exact hx.append hw
    | @cons y text' ys texts' hy hys =>
      rw [String.intercalate_cons_cons, List.map_cons, List.map_cons, listed_cons_cons,
        Text.bytes_append, Text.bytes_append, List.append_assoc, List.append_assoc,
        List.append_assoc]
      exact hx.append (Spaced.cons_self ih)

theorem isLayout_ofList (h : List.Forall₂ IsLayout xs texts) :
    (list xs).IsLayout (Text.ofList texts) := by
  have hinside : Spaced (listed (xs.map tokens) ++ [[Ascii.closeBracket]])
      (Text.bytes (",".intercalate texts) ++ [Ascii.closeBracket]) :=
    spaced_intercalate h (Spaced.singleton _)
  have hbytes : Text.bytes (Text.ofList texts) =
      [Ascii.openBracket] ++ (Text.bytes (",".intercalate texts) ++ [Ascii.closeBracket]) := by
    rw [Text.ofList, Text.bytes_append, Text.bytes_append, List.append_assoc]
    rfl
  apply isLayout_of_spaced
  rw [tokens_list, hbytes]
  exact hinside.cons_self

theorem isLayout_ofMember {key : String} (hkey : Quoting.ArePlain (Text.bytes key))
    (h : x.IsLayout text) :
    (object [(.plain (Text.bytes key) hkey, x)]).IsLayout (Text.ofMember key text) := by
  have hvalue : Spaced (x.tokens ++ [[Ascii.closeBrace]])
      (Text.bytes text ++ [Ascii.closeBrace]) :=
    h.append (Spaced.singleton _)
  have hbytes : Text.bytes (Text.ofMember key text) = [Ascii.openBrace] ++
      ((QuotedText.plain (Text.bytes key) hkey).bytes ++
        ([Ascii.colon] ++ (Text.bytes text ++ [Ascii.closeBrace]))) := by
    simp only [Text.ofMember, Text.bytes_append, QuotedText.bytes, QuotedText.body_plain,
      List.append_assoc, List.cons_append, List.nil_append]
    rfl
  apply isLayout_of_spaced
  rw [tokens_object, hbytes]
  have hmember : listed [tokensOfMember (QuotedText.plain (Text.bytes key) hkey, x)] =
      tokensOfMember (QuotedText.plain (Text.bytes key) hkey, x) :=
    List.append_nil _
  rw [List.map_singleton, hmember]
  exact Spaced.cons_self (Spaced.cons_self (Spaced.cons_self hvalue))

variable {key : QuotedText}

theorem isNamedBy_of_text? {t : RecordType} {f : t.Field}
    (hkey : key.text? = some (t.spec f).name) : (t.spec f).isNamedBy (key, x) = true := by
  rw [FieldSpec.isNamedBy, hkey, Option.any_some, FieldSpec.isNamed, decide_eq_true rfl,
    Bool.true_or]

/-- A set that is given as its list of files is read file by file. -/
theorem value?_fileSet (n : Nat) (hkey : key.text? = some "file") :
    value? (n + 2) (.record .fileSet) (object [(key, list xs)]) =
      (xs.mapM (value? n (.record .file))).map FileSet.mk := by
  have hmember : member? (senseOf (n + 1)) (Draft.empty .fileSet) (key, list xs) =
      (xs.mapM (value? n (.record .file))).map fun files =>
        (Draft.empty .fileSet).give FileSetField.files files :=
    member?_of_isNamedBy (f := FileSetField.files) (isNamedBy_of_text? hkey) _
  rw [value?_object, List.foldlM_cons, hmember]
  cases xs.mapM (value? n (.record .file)) <;> rfl

/-- A file that has nothing but options is read as its options are. -/
theorem value?_file {n : Nat} (hkey : key.text? = some "options") {o : FileOptions}
    (h : value? n (.record .options) x = some o) :
    value? (n + 1) (.record .file) (object [(key, x)]) = some { options := some o } := by
  have hvalue : fieldValue? (senseOf n).value (.optional (.record .options)) x = some (some o) := by
    cases x with
    | null => cases n <;> cases h
    | _ => exact congrArg (Option.map some) h
  have hmember : member? (senseOf n) (Draft.empty .file) (key, x) =
      (fieldValue? (senseOf n).value (.optional (.record .options)) x).map fun o =>
        (Draft.empty .file).give FileField.options o :=
    member?_of_isNamedBy (t := .file) (f := FileField.options) (isNamedBy_of_text? hkey) _
  rw [value?_object, List.foldlM_cons, hmember, hvalue]
  rfl

end JsonTree

/-- Texts that each have a tree have a list of trees. -/
theorem exists_forall₂_isLayout {texts : List String}
    (h : ∀ text ∈ texts, ∃ x : JsonTree, x.IsLayout text) :
    ∃ xs, List.Forall₂ JsonTree.IsLayout xs texts := by
  induction texts with
  | nil => exact ⟨[], .nil⟩
  | cons text texts ih =>
    obtain ⟨x, hx⟩ := h text List.mem_cons_self
    obtain ⟨xs, hxs⟩ := ih fun text ht => h text (List.mem_cons_of_mem _ ht)
    exact ⟨x :: xs, .cons hx hxs⟩

namespace FileSet

variable {texts : List String} {xs : List JsonTree} {files : List SchemaFile}

/-- The text of a set whose files are given as texts. -/
def textOf (texts : List String) : String :=
  Text.ofMember "file" (Text.ofList texts)

/-- A set is accepted exactly if each of its files is, within the depth that the two brackets
around it leave. -/
theorem read_textOf_iff (h : List.Forall₂ JsonTree.IsLayout xs texts) :
    RecordType.fileSet.read (textOf texts) = .ok ⟨files⟩ ↔
      List.Forall₂ (fun x f => x.value? 125 (.record .file) = some f) xs files := by
  have hplain : Quoting.ArePlain (Text.bytes "file") := by decide
  have hlayout : (JsonTree.object [(.plain (Text.bytes "file") hplain, .list xs)]).IsLayout
      (textOf texts) :=
    JsonTree.isLayout_ofMember hplain (JsonTree.isLayout_ofList h)
  rw [RecordType.read_eq_ok_iff hlayout, ← mapM_eq_some_iff, Reader.maxDepth,
    JsonTree.value?_fileSet 125 (QuotedText.text?_plain hplain), Option.map_eq_some_iff]
  constructor
  · rintro ⟨files', hfiles, heq⟩
    rw [← FileSet.mk.inj heq]
    exact hfiles
  · intro hfiles
    exact ⟨files, hfiles, rfl⟩

/-- What is read as a set is read file by file as well. -/
theorem forall₂_read_of_read_textOf (h : List.Forall₂ JsonTree.IsLayout xs texts)
    (hread : RecordType.fileSet.read (textOf texts) = .ok ⟨files⟩) :
    List.Forall₂ (fun text f => RecordType.file.read text = .ok f) texts files := by
  refine forall₂_comp (fun text x f hx hvalue => ?_) h.flip ((read_textOf_iff h).mp hread)
  have hx : x.IsLayout text := hx
  -- a file that is accepted with less depth left is accepted with all of it
  exact (RecordType.read_eq_ok_iff hx).mpr
    (JsonTree.value?_of_min_le hvalue (Nat.le_trans (Nat.min_le_left _ _) (by decide)))

/-- What is read file by file is read as a set, unless one of the files is too deep. -/
theorem read_textOf_of_forall₂_read
    (h : List.Forall₂ (fun text f => RecordType.file.read text = .ok f) texts files)
    (hdepth : ∀ text ∈ texts, Text.nesting text ≤ 125) :
    RecordType.fileSet.read (textOf texts) = .ok ⟨files⟩ := by
  have hread := (List.forall₂_and_left texts files).mpr ⟨hdepth, h⟩
  have hlayouts : ∀ text ∈ texts, ∃ x : JsonTree, x.IsLayout text := by
    intro text htext
    obtain ⟨f, hf⟩ := exists_of_mem_of_forall₂ h htext
    exact RecordType.exists_isLayout_of_read hf
  obtain ⟨xs, hxs⟩ := exists_forall₂_isLayout hlayouts
  refine (read_textOf_iff hxs).mpr (forall₂_comp (fun x text f hx hf => ?_) hxs hread)
  have hvalue := (RecordType.read_eq_ok_iff hx).mp hf.2
  -- the depth that is left is enough for the tree, so it makes no difference
  have hmin : min Reader.maxDepth x.depth ≤ 125 :=
    Nat.le_trans (Nat.min_le_right _ _) (hx.nesting_eq ▸ hf.1)
  exact JsonTree.value?_of_min_le hvalue hmin

end FileSet

/-- The text of a file that has nothing but options. -/
def SchemaFile.textOfOptions (text : String) : String :=
  Text.ofMember "options" text

theorem SchemaFile.read_textOfOptions {text : String} {o : FileOptions}
    (h : RecordType.options.read text = .ok o) (hdepth : Text.nesting text ≤ 126) :
    RecordType.file.read (textOfOptions text) = .ok (({} : SchemaFile).edit (.options o)) := by
  obtain ⟨x, hx⟩ := RecordType.exists_isLayout_of_read h
  have hplain : Quoting.ArePlain (Text.bytes "options") := by decide
  have hlayout : (JsonTree.object [(.plain (Text.bytes "options") hplain, x)]).IsLayout
      (textOfOptions text) :=
    JsonTree.isLayout_ofMember hplain hx
  have hmin : min Reader.maxDepth x.depth ≤ 126 :=
    Nat.le_trans (Nat.min_le_right _ _) (hx.nesting_eq ▸ hdepth)
  have hvalue : x.value? 126 (.record .options) = some o :=
    JsonTree.value?_of_min_le ((RecordType.read_eq_ok_iff hx).mp h) hmin
  exact (RecordType.read_eq_ok_iff hlayout).mpr
    (JsonTree.value?_file (QuotedText.text?_plain hplain) hvalue)

namespace FileSet

/-- Reading is compositional. A set is read exactly as the texts of its files are, if none of
them is too deep for the brackets around it; a set of well-formed values with one among them
that is no file is refused, and not noted in the log; and a file that is given as its options
has the options that their text is read as. -/
theorem parse_textOf_and_read_textOfOptions (texts : List String) (source : String) :
    (∀ files, List.Forall₂ (fun text f => RecordType.file.read text = .ok f) texts files →
      (∀ text ∈ texts, Text.nesting text ≤ 125) →
      FileSet.parse (textOf texts) source =
        { value := .ok { files }, log := [.loaded texts.length source] }) ∧
    ((∀ text ∈ texts, ∃ x : JsonTree, x.IsLayout text) →
      (∃ text ∈ texts, ∃ fault, RecordType.file.read text = .error fault) →
      ∃ detail, FileSet.parse (textOf texts) source =
        { value := .error (.setMalformed source detail), log := [] }) ∧
    ∀ text o, RecordType.options.read text = .ok o → Text.nesting text ≤ 126 →
      RecordType.file.read (SchemaFile.textOfOptions text) =
        .ok (({} : SchemaFile).edit (.options o)) := by
  refine ⟨?accepted, ?refused, fun text o => SchemaFile.read_textOfOptions⟩
  case accepted =>
    -- the trees of the files stand right inside the two brackets of the set
    intro files h hdepth
    have hread := read_textOf_of_forall₂_read h hdepth
    rw [parse, hread, h.length_eq]
    rfl
  case refused =>
    -- a set that was accepted would have every one of its files accepted
    rintro hlayouts ⟨text, htext, fault, hfault⟩
    cases hread : RecordType.fileSet.read (textOf texts) with
    | error e =>
      refine ⟨e.message, ?_⟩
      rw [parse, hread]
      rfl
    | ok set =>
      obtain ⟨xs, hxs⟩ := exists_forall₂_isLayout hlayouts
      have hfiles := forall₂_read_of_read_textOf hxs hread
      obtain ⟨f, hok⟩ := exists_of_mem_of_forall₂ hfiles htext
      rw [hfault] at hok
      cases hok

/-- A file in list form behind one in object form; a set with a `null` for a file; and options of
which one is kept. -/
theorem parse_textOf_and_read_textOfOptions_two :
    FileSet.parse (textOf ["\x7b\"name\":\"a\"\x7d", " [\"b\"] "]) "two.json" =
        { value := .ok { files := [.new "a", .new "b"] }, log := [.loaded 2 "two.json"] } ∧
      (∃ detail, FileSet.parse (textOf ["\x7b\x7d", "null"]) "two.json" =
        { value := .error (.setMalformed "two.json" detail), log := [] }) ∧
      RecordType.file.read (SchemaFile.textOfOptions "\x7b\"java_package\":\"p\",\"x\":[]\x7d") =
        .ok { options := some { javaPackage := some "p", other := [("x", .list [])] } } := by
  have hobject : RecordType.file.read "\x7b\"name\":\"a\"\x7d" = .ok (.new "a") :=
    RecordType.read_of_run (by decide +kernel)
  have hlist : RecordType.file.read " [\"b\"] " = .ok (.new "b") :=
    RecordType.read_of_run (by decide +kernel)
  have hempty : RecordType.file.read "\x7b\x7d" = .ok {} :=
    RecordType.read_of_run (by decide +kernel)
  have hnull : JsonTree.null.IsLayout "null" := JsonTree.isLayout_of_spaced (Spaced.singleton _)
  have hrefused : ∃ fault, RecordType.file.read "null" = .error fault := by
    cases hread : RecordType.file.read "null" with
    | error fault => exact ⟨fault, rfl⟩
    | ok f => cases (RecordType.read_eq_ok_iff hnull).mp hread
  have hoptions : RecordType.options.read "\x7b\"java_package\":\"p\",\"x\":[]\x7d" =
      .ok { javaPackage := some "p", other := [("x", .list [])] } :=
    RecordType.read_of_run (by decide +kernel)
  refine ⟨?_, ?_, ?_⟩
  · exact (parse_textOf_and_read_textOfOptions _ _).1 _ (.cons hobject (.cons hlist .nil))
      (by decide +kernel)
  · refine (parse_textOf_and_read_textOfOptions _ _).2.1 ?_ ⟨"null", by simp, hrefused⟩
    exact List.forall_mem_cons.mpr ⟨RecordType.exists_isLayout_of_read hempty,
      List.forall_mem_singleton.mpr ⟨_, hnull⟩⟩
  · exact (parse_textOf_and_read_textOfOptions [] "").2.2 _ _ hoptions (by decide +kernel)

end FileSet

end SchemaSpans
