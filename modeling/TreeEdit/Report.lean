import TreeEdit.Document.Hosting
import TreeEdit.Document.Markup
import TreeEdit.Failure
import TreeEdit.Json
import TreeEdit.Program.Builder
import TreeEdit.Session

/-!
# Reports of runs

A program is tried out on a new document: a container whose only child, the seed, is the node that
the program starts from. It may be run several times in one session. The report shows the
markup of the seed after the last time and counts what the session holds then. The first run that
fails ends the trial.
-/

namespace TreeEdit

/-- What came of running a program. -/
structure Report where
  /-- The markup of the seed. -/
  html : String
  /-- How often the program was run. -/
  applied : Nat
  /-- The number of listeners in use. -/
  listeners : Nat
  /-- The number of string ids in use. -/
  strings : Nat
  deriving DecidableEq, Repr

namespace Report

/-- The sessions that programs are tried out in. Nobody receives events there. -/
abbrev Trial := Session (Document ListenerId) NodeId Nat Empty

/-- A new session on a container whose only child is a seed with the given tag. -/
def newTrial (seed : String) (config : Config) : Trial :=
  .start (.withSeed "body" seed) ⟨0⟩ config

/-- Runs a program once, for the time with the given number. -/
def runOnce (image : Image) (round : Nat) : EStateM Failure Trial Unit :=
  let H := Document.host id
  EStateM.adaptExcept (fun e => Failure.during (.applying round) (.error e)) do
    Session.queue ⟨image.start, image.len⟩
    Session.apply H image.bytes

/-- Runs a program a number of times. `done` is the number of times before. -/
def runTimes (image : Image) (done : Nat) : Nat → EStateM Failure Trial Unit
  | 0 => return
  | times + 1 => do
    runOnce image (done + 1)
    runTimes image (done + 1) times

/-- What a session shows after a number of runs. -/
def ofTrial (applied : Nat) (s : Trial) : Report where
  html := s.doc.markup ⟨1⟩
  applied := applied
  listeners := s.listeners.size
  strings := s.strings.size

/-- Tries a program out. The answer is the report or the failure, with the journal of the
session. -/
def ofRuns (image : Image) (seed : String) (times : Nat) (config : Config) :
    Except Failure Report × Journal :=
  match runTimes image 0 times (newTrial seed config) with
  | .ok () s => (.ok (ofTrial times s), s.journal)
  | .error f s => (.error f, s.journal)

/-- A report as structured output. -/
def view (r : Report) : Json :=
  .object
    [("html", .text r.html), ("applied", .number r.applied), ("listeners", .number r.listeners),
      ("strings", .number r.strings)]

end Report

end TreeEdit
