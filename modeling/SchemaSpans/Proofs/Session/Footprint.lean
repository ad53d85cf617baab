import SchemaSpans.Proofs.Location.Relevant
import SchemaSpans.Proofs.Schema.Table

/-! What a step leaves alone. A failure and a question leave the session as it was; every other
step has one part of the session to change, and an edit one field of the file being worked on. So
failures and questions can be taken out of a run, and nobody can tell from the other replies. -/

namespace SchemaSpans

/-- The field that an edit is about. -/
def Edit.field : Edit → FileField
  | package _ => .package
  | syntaxVersion _ => .syntaxVersion
  | dependency _ => .dependencies
  | message _ => .messages
  | options _ => .options
  | sourceInfo _ => .sourceInfo

namespace SchemaFile

variable {f : SchemaFile}

/-- An edit leaves all other fields as they are. -/
theorem holds_edit_of_ne (f : SchemaFile) {change : Edit} {g : FileField} (h : g ≠ change.field) :
    RecordType.file.holds (f.edit change) g = RecordType.file.holds f g := by
  cases change <;> cases g
  case package.package | syntaxVersion.syntaxVersion | dependency.dependencies
      | message.messages | options.options | sourceInfo.sourceInfo => exact absurd rfl h
  all_goals rfl

/-- The second file is the first one with its location records in some order. -/
structure IsRearranged (f f' : SchemaFile) : Prop where
  perm_records : f'.records.Perm f.records
  hasSourceInfo_eq : f'.hasSourceInfo = f.hasSourceInfo
  holds_eq : ∀ g, g ≠ FileField.sourceInfo →
    RecordType.file.holds f' g = RecordType.file.holds f g

theorem isRearranged_rearrange (f : SchemaFile)
    {order : List LocationRecord → List LocationRecord} (horder : ∀ rs, (order rs).Perm rs) :
    f.IsRearranged (f.rearrange order) := by
  refine ⟨?_, Option.isSome_map, fun g hg => ?_⟩
  · rw [records_rearrange f (List.perm_nil.mp (horder []))]
    exact horder f.records
  · cases g with
    | sourceInfo => exact absurd rfl hg
    | name | package | dependencies | messages | options | syntaxVersion => rfl

end SchemaFile

/-- The part of a session that a step may change. -/
inductive Scope where
  | set
  | current
  | nothing
deriving DecidableEq

/-- The session after a step in this scope, as far as it is settled by the session before. -/
def Scope.Keeps : Scope → Session → Session → Prop
  | set, s, s' => s'.current = s.current
  | current, s, s' => s'.set = s.set
  | nothing, s, s' => s' = s

theorem Scope.keeps_refl (scope : Scope) (s : Session) : scope.Keeps s s := by
  cases scope <;> rfl

namespace Step

/-- The part of the session that a step is about; a question is about none. -/
def scope : Step → Scope
  | parse .. | loadSet _ | push | reload => .set
  | loadFile .. | select _ | new _ | blank | edit _ | readOptions _ | reverse | rotate _ =>
    .current
  | describeSet | writeSet | describeFile | writeFile | otherOptions | records | find _
  | resolve _ | recordOf _ | spanOf _ | statementSpans | importSpan _ | access _ => .nothing

/-- The field of the file being worked on that a step is about, if it is about one field. -/
def field? : Step → Option FileField
  | edit change => some change.field
  | readOptions _ => some .options
  | reverse | rotate _ => some .sourceInfo
  | _ => none

end Step

/-- Whether a reply reports a failure. -/
def Reply.isFailure (r : Reply) : Bool :=
  !r.value.isOk

namespace Session

variable {s : Session}

/-- What comes of a step in this scope: the rest of the session is kept, and all of it if the
step fails. -/
structure Respects (s : Session) (scope : Scope) (result : Session × Reply) : Prop where
  keeps : scope.Keeps s result.1
  unchanged_of_failure : result.2.isFailure = true → result.1 = s

theorem respects_answer (s : Session) (scope : Scope) (a : Logged Answer) :
    s.Respects scope (s.answer a) :=
  ⟨scope.keeps_refl s, fun _ => rfl⟩

theorem respects_refuse (s : Session) (scope : Scope) (failure : Failure) (log : List Event) :
    s.Respects scope (s.refuse failure log) :=
  ⟨scope.keeps_refl s, fun _ => rfl⟩

theorem respects_adopt (s : Session) (loaded : Logged (Except Error FileSet))
    (a : FileSet → Answer) : s.Respects .set (s.adopt loaded a) := by
  rw [adopt]
  split
  · exact ⟨rfl, fun h => nomatch h⟩
  · exact respects_refuse ..

theorem respects_workOn (s : Session) (f : SchemaFile) (log : List Event) :
    s.Respects .current (s.workOn f log) :=
  ⟨rfl, fun h => nomatch h⟩

theorem respects_replace (s : Session) (f : SchemaFile) : s.Respects .current (s.replace f) :=
  ⟨rfl, fun h => nomatch h⟩

theorem respects_aboutStatement (s : Session) (scope : Scope) (name : String)
    (a : Statement → Logged Answer) : s.Respects scope (s.aboutStatement name a) := by
  rw [aboutStatement]
  split
  · exact respects_answer ..
  · exact respects_refuse ..

/-- Every step keeps to its scope, and a failing one changes nothing. -/
theorem respects_step (w : Workspace) (s : Session) (step : Step) :
    s.Respects step.scope (s.step w step) := by
  cases step with
  | parse | loadSet | reload => exact respects_adopt ..
  | push => exact ⟨rfl, fun h => nomatch h⟩
  | loadFile =>
    rw [Session.step]
    split
    · exact respects_workOn ..
    · exact respects_refuse ..
  | select =>
    rw [Session.step]
    split
    · exact respects_workOn ..
    · exact respects_answer ..
  | readOptions =>
    rw [Session.step]
    split
    · exact respects_replace ..
    · exact respects_refuse ..
  | new | blank | edit | reverse | rotate => exact respects_replace ..
  | resolve =>
    rw [Session.step]
    split
    · exact respects_answer ..
    · exact respects_refuse ..
  | recordOf | spanOf => exact respects_aboutStatement ..
  | describeSet | writeSet | describeFile | writeFile | otherOptions | records | find
  | statementSpans | importSpan | access => exact respects_answer ..

/-- A step that is about one field of a file leaves all other fields as they are. -/
theorem holds_step_of_ne (w : Workspace) (s : Session) {step : Step} {f g : FileField}
    (hf : step.field? = some f) (hg : g ≠ f) :
    RecordType.file.holds (s.step w step).1.current g = RecordType.file.holds s.current g := by
  cases step with
  | edit change =>
    cases hf
    exact SchemaFile.holds_edit_of_ne s.current hg
  | readOptions text =>
    cases hf
    rw [Session.step]
    split
    · rename_i options _
      have hne : g ≠ (Edit.options options).field := hg
      exact SchemaFile.holds_edit_of_ne s.current hne
    · rfl
  | reverse =>
    cases hf
    exact (SchemaFile.isRearranged_rearrange _ List.reverse_perm).holds_eq g hg
  | rotate count =>
    cases hf
    have hperm (rs : List LocationRecord) := SchemaFile.perm_rotateLeft rs count
    exact (SchemaFile.isRearranged_rearrange _ hperm).holds_eq g hg
  | _ => cases hf

theorem isRearranged_step (w : Workspace) (s : Session) {step : Step}
    (h : step = .reverse ∨ ∃ count, step = .rotate count) :
    s.current.IsRearranged (s.step w step).1.current := by
  rcases h with rfl | ⟨count, rfl⟩
  · exact SchemaFile.isRearranged_rearrange _ List.reverse_perm
  · exact SchemaFile.isRearranged_rearrange _ fun rs => SchemaFile.perm_rotateLeft rs count

/-- Whether a step that had this reply may have moved the session. -/
def isMove (m : Step × Reply) : Bool :=
  m.1.scope ≠ .nothing && !m.2.isFailure

/-- The steps of a run that may have moved the session, with the replies they had. -/
def moves (w : Workspace) (s : Session) (steps : List Step) : List (Step × Reply) :=
  (steps.zip (s.run w steps).2).filter isMove

theorem step_of_not_isMove {w : Workspace} {step : Step}
    (h : isMove (step, (s.step w step).2) = false) : (s.step w step).1 = s := by
  obtain ⟨hkeeps, hunchanged⟩ := respects_step w s step
  cases hfailure : (s.step w step).2.isFailure with
  | true => exact hunchanged hfailure
  | false =>
    -- what does not fail and is no move is a question
    have hscope : step.scope = .nothing := by
      simpa only [isMove, hfailure, Bool.not_false, Bool.and_true, decide_eq_false_iff_not,
        Decidable.not_not] using h
    rw [hscope] at hkeeps
    exact hkeeps

theorem moves_cons_of_isMove {w : Workspace} {step : Step}
    (h : isMove (step, (s.step w step).2) = true) (steps : List Step) :
    s.moves w (step :: steps) =
      (step, (s.step w step).2) :: (s.step w step).1.moves w steps :=
  List.filter_cons_of_pos h

theorem moves_cons_of_not_isMove {w : Workspace} {step : Step}
    (h : isMove (step, (s.step w step).2) = false) (steps : List Step) :
    s.moves w (step :: steps) = s.moves w steps := by
  have hsame := step_of_not_isMove h
  have hmoves : s.moves w (step :: steps) = (s.step w step).1.moves w steps :=
    List.filter_cons_of_neg (Bool.eq_false_iff.mp h)
  rw [hmoves, hsame]

theorem run_cons (w : Workspace) (s : Session) (step : Step) (steps : List Step) :
    s.run w (step :: steps) =
      (((s.step w step).1.run w steps).1,
        (s.step w step).2 :: ((s.step w step).1.run w steps).2) := rfl

/-- Without the steps that do not move it a session comes to the same end, and the other steps
have the same replies. -/
theorem run_moves (w : Workspace) (s : Session) (steps : List Step) :
    s.run w ((s.moves w steps).map Prod.fst) =
      ((s.run w steps).1, (s.moves w steps).map Prod.snd) := by
  induction steps generalizing s with
  | nil => rfl
  | cons step steps ih =>
    cases hmove : isMove (step, (s.step w step).2) with
    | true =>
      rw [moves_cons_of_isMove hmove, List.map_cons, List.map_cons, run_cons, run_cons,
        ih (s.step w step).1]
    | false =>
      -- the step is left out, and the session that it leads to is the one before it
      have hend : (s.run w (step :: steps)).1 = (s.run w steps).1 := by
        rw [run_cons, step_of_not_isMove hmove]
      rw [moves_cons_of_not_isMove hmove, hend]
      exact ih s

/-- Steps disturb no more than they are about. A failing step and a question change nothing, and
neither does the choice of a file that is not in the set; a step about the set leaves the file
being worked on alone, a step about the file leaves the set alone, and of the file it leaves all
fields alone but its own; a table that is turned keeps its records. So a run may be cut down to
the steps that move the session. -/
theorem respects_step_and_run_moves (w : Workspace) :
    (∀ (s : Session) step, s.Respects step.scope (s.step w step)) ∧
    (∀ (s : Session) name, s.set.fileNamed? name = none → (s.step w (.select name)).1 = s) ∧
    (∀ (s : Session) step f g, step.field? = some f → g ≠ f →
      RecordType.file.holds (s.step w step).1.current g = RecordType.file.holds s.current g) ∧
    (∀ (s : Session) step, (step = .reverse ∨ ∃ count, step = .rotate count) →
      s.current.IsRearranged (s.step w step).1.current) ∧
    ∀ (s : Session) steps, s.run w ((s.moves w steps).map Prod.fst) =
      ((s.run w steps).1, (s.moves w steps).map Prod.snd) := by
  refine ⟨respects_step w, fun s name hname => ?_, fun s step f g => holds_step_of_ne w s,
    fun s step => isRearranged_step w s, run_moves w⟩
  rw [Session.step, hname]
  rfl

/-- A text that breaks off, a file that is not there, a question, and a path that no file can
have: the run is the same without them. -/
theorem respects_step_and_run_moves_package :
    let steps : List Step := [.new "a.proto", .parse "[" "x.json", .loadFile "" "b.proto",
      .edit (.package "acme"), .describeSet, .resolve [-1], .push]
    let s := (run {} {} steps).1
    run {} {} [.new "a.proto", .edit (.package "acme"), .push] =
        (s, (moves {} {} steps).map Prod.snd) ∧
      (s.step {} (.parse "[" "x.json")).1 = s ∧ (s.step {} (.select "b.proto")).1 = s ∧
      RecordType.file.holds (s.step {} (.edit (.package "p"))).1.current FileField.name =
        RecordType.file.holds s.current FileField.name ∧
      s.current.IsRearranged (s.step {} (.rotate 1)).1.current := by
  intro steps s
  obtain ⟨hstep, hselect, hfield, hrearranged, hrun⟩ := respects_step_and_run_moves {}
  have hmoves : (moves {} {} steps).map Prod.fst =
      [.new "a.proto", .edit (.package "acme"), .push] := rfl
  have hkept := hrun {} steps
  rw [hmoves] at hkept
  exact ⟨hkept, (hstep s _).unchanged_of_failure (by decide +kernel),
    hselect s _ (by decide +kernel), hfield s (.edit _) _ _ rfl (by decide),
    hrearranged s _ (.inr ⟨1, rfl⟩)⟩

end Session

end SchemaSpans
