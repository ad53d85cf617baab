import SchemaSpans.Session.Basic

/-!
What each step does to a session. A step that fails leaves the session as it was;
a step that succeeds changes the set or the file being worked on, never both.
-/

namespace SchemaSpans.Session

/-- Replies without touching the session. -/
def answer (s : Session) (a : Logged Answer) : Session × Reply :=
  (s, { value := .ok a.value, log := a.log })

/-- Fails without touching the session. -/
def refuse (s : Session) (failure : Failure) (log : List Event) : Session × Reply :=
  (s, { value := .error failure, log })

/-- Takes over a set, if there is one. -/
def adopt (s : Session) (loaded : Logged (Except Error FileSet)) (a : FileSet → Answer) :
    Session × Reply :=
  match loaded.value with
  | .ok set => ({ s with set }, { value := .ok (a set), log := loaded.log })
  | .error e => s.refuse (.error e) loaded.log

/-- Works on a file from now on and tells about it. -/
def workOn (s : Session) (f : SchemaFile) (log : List Event) : Session × Reply :=
  ({ s with current := f }, { value := .ok (.file f.summary), log })

/-- Puts a file in place of the one being worked on and writes it. -/
def replace (s : Session) (f : SchemaFile) : Session × Reply :=
  ({ s with current := f }, pure (.ok (.text (RecordType.file.write f))))

/-- Replies with what is known of the statement with this name. -/
def aboutStatement (s : Session) (name : String) (a : Statement → Logged Answer) :
    Session × Reply :=
  match Statement.ofName name with
  | .ok statement => s.answer (a statement)
  | .error e => s.refuse (.error e) []

/-- The span that an accessor yields for the file being worked on. -/
def access (s : Session) : Accessor → Logged Span
  | .wholeFile => s.current.wholeSpan
  | .statement statement => s.current.statementSpan statement

/-- The session after a step, and the reply to it. -/
def step (w : Workspace) (s : Session) : Step → Session × Reply
  | .parse text source => s.adopt (FileSet.parse text source) fun set => .set set.summary
  | .loadSet path => s.adopt (w.loadSet path) fun set => .set set.summary
  | .loadFile path name =>
    let loaded := w.loadFile path name
    match loaded.value with
    | .ok f => s.workOn f loaded.log
    | .error e => s.refuse (.error e) loaded.log
  | .select name =>
    match s.set.fileNamed? name with
    | some f => s.workOn f []
    | none => s.answer (pure .nothing)
  | .push =>
    let set := s.set.push s.current
    ({ s with set }, pure (.ok (.set set.summary)))
  | .describeSet => s.answer (pure (.set s.set.summary))
  | .writeSet => s.answer (pure (.text (RecordType.fileSet.write s.set)))
  | .reload =>
    s.adopt (FileSet.parse (RecordType.fileSet.write s.set) "reload.json") fun set =>
      .same (set = s.set)
  | .new name => s.replace (SchemaFile.new name)
  | .blank => s.replace {}
  | .edit change => s.replace (s.current.edit change)
  | .readOptions text =>
    match RecordType.options.read text with
    | .ok options => s.replace (s.current.edit (.options options))
    | .error fault => s.refuse (.fault fault) []
  | .reverse => s.replace s.current.reverseRecords
  | .rotate count => s.replace (s.current.rotateRecords count)
  | .describeFile => s.answer (pure (.file s.current.summary))
  | .writeFile => s.answer (pure (.text (RecordType.file.write s.current)))
  | .otherOptions => s.answer (pure (.keys (s.current.options.map fun o => o.other.keys)))
  | .records => s.answer (pure (.records s.current.records))
  | .find path => s.answer do
    let found ← s.current.find path
    pure (.record found)
  | .resolve path =>
    let resolved := s.current.resolve path
    match resolved.value with
    | .ok found => s.answer { value := .record found, log := resolved.log }
    | .error e => s.refuse (.error e) resolved.log
  | .recordOf name => s.aboutStatement name fun statement => do
    let found ← s.current.statementRecord statement
    pure (.record found)
  | .spanOf name => s.aboutStatement name fun statement => do
    let span ← s.current.statementSpan statement
    pure (.span span)
  | .statementSpans => s.answer do
    let spans ← s.current.statementSpans
    pure (.lines (spans.map fun (statement, span) => statementLine statement span))
  | .importSpan index => s.answer do
    let span ← s.current.importSpan index
    pure (.span span)
  | .access accessor => s.answer do
    let span ← s.access accessor
    pure (.span span)

/-- The session after some steps, and the replies to them in order. -/
def run (w : Workspace) (s : Session) : List Step → Session × List Reply
  | [] => (s, [])
  | step :: steps =>
    let (s, reply) := s.step w step
    let (s, replies) := s.run w steps
    (s, reply :: replies)

end SchemaSpans.Session
