import SsaCompiler.Log
import SsaCompiler.Stats

/-!
# Sessions

A session goes along with the compilation of a whole program. It keeps the
statistics, the log, the drawings written so far and the name of the
function at work. After a failure that name is still set, so that the
failure can be attributed.
-/

namespace SsaCompiler

/-- **The files of a directory**, ascending by name. -/
abbrev Files := List (String × String)

/-- Write a file; one of the same name is replaced. -/
def Files.write (name content : String) : Files → Files
  | [] => [(name, content)]
  | (other, old) :: rest =>
    if name < other then (name, content) :: (other, old) :: rest
    else if name = other then (other, content) :: rest
    else (other, old) :: Files.write name content rest

/-- **The state of a session.** -/
structure Session where
  stats : Stats := {}
  /-- The function at work. -/
  current : Option String := none
  log : Log := #[]
  /-- The drawings written. -/
  files : Files := []
  /-- The texts interned on request, oldest first. -/
  interned : List String := []
deriving DecidableEq

namespace Session

/-- Change the statistics. -/
def count (s : Session) (f : Stats → Stats) : Session :=
  { s with stats := f s.stats }

/-- Report an event. -/
def report (s : Session) (e : Event) : Session :=
  { s with log := s.log.push e }

/-- Begin with a function. -/
def enter (s : Session) (function : String) : Session :=
  { s with current := some function }

/-- The function at work is done. -/
def leave (s : Session) : Session :=
  { s with current := none }

/-- Count an instruction of a function, and report it. -/
def emit (function : String) (s : Session) (mnemonic : String) : Session :=
  (s.count (·.recordInstruction mnemonic)).report (.instructionEmitted function mnemonic)

/-- **Intern a text**, and find the earlier request for the same text. -/
def intern (s : Session) (text : String) : Option Nat × Session :=
  (s.interned.idxOf? text, { s with interned := s.interned ++ [text] })

end Session

end SsaCompiler
