import GrantPath.Directory.Staged
import GrantPath.Session

/-! # Rehearsals

A rehearsal is a session whose collaborator is a staged directory. Besides the steps of every
session it can change the stage and ask the directory itself, past the stage.
-/

namespace GrantPath

/-- A session with a staged directory. -/
abbrev Rehearsal := Session StagedDirectory

namespace Rehearsal

/-- One step of a rehearsal. -/
inductive Step where
  | session (step : GrantPath.Step StagedDirectory)
  | change (change : StageChange)
  /-- Counts what the directory holds. -/
  | summary
  /-- A request to the directory itself. -/
  | ask (request : Request)

/-- What a step of a rehearsal reports. -/
inductive Report where
  | session (report : GrantPath.Report)
  | summary (summary : Directory.Summary)
  | answer (request : Request) (answer : request.Answer)

/-- A rehearsal in which nothing has happened yet. -/
def start (config : Config) (directory : Directory) (clock : Clock) : Rehearsal :=
  Session.start config StagedDirectory.service { directory } clock

/-- Carries one step of a session out. -/
def onSession (s : Rehearsal) (step : GrantPath.Step StagedDirectory) :
    Except Error Report × Rehearsal :=
  let (report, s) := Session.step s step
  (report.map .session, s)

/-- Carries one step out. -/
def step (s : Rehearsal) : Step → Except Error Report × Rehearsal
  | .session step => s.onSession step
  | .change change => s.onSession (.alter (·.change change))
  | .summary => (.ok (.summary s.run.state.directory.summary), s)
  | .ask request => ((s.run.state.directory.answers request).map (.answer request), s)

/-- Carries steps out one after the other. -/
def steps (s : Rehearsal) (steps : List Step) : Rehearsal :=
  steps.foldl (fun s step => (s.step step).2) s

end Rehearsal

end GrantPath
