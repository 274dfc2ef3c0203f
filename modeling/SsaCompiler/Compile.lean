import SsaCompiler.Config
import SsaCompiler.Emission
import SsaCompiler.Graph.Dot
import SsaCompiler.Program.ToGraph
import SsaCompiler.Session

/-!
# Compiling programs

A function goes through all stages: graph, optional drawing, schedule,
virtual registers, liveness, places, instructions. Every stage
leaves its count in the session at once, so after a failure the session
tells how far the function got.

The text of a program is the directive `.text` and then, function by
function, an empty line and the function's text. The first function that
fails ends the compilation.
-/

namespace SsaCompiler

/-- **A computation in a session** that may fail; what it did to the session
before it failed stays. -/
abbrev Compile := ExceptT Failure (StateM Session)

/-- **Where drawings are written**: a directory, and the file names it
takes. -/
structure DumpTarget where
  dir : String
  accepts : String → Bool

namespace DumpTarget

/-- The longest file name, in bytes. -/
def maxNameBytes : Nat := 255

/-- Whether a directory can hold a file of this name: it may not lead to
another directory, and it has to have a length that file systems take. -/
def isPlainName (name : String) : Bool :=
  !name.toList.contains '/' && !name.toList.contains '\x00' && name.utf8ByteSize ≤ maxNameBytes

/-- A directory that takes every plain name. -/
def writable (dir : String) : DumpTarget :=
  { dir, accepts := isPlainName }

/-- A directory that cannot be written to. -/
def blocked (dir : String) : DumpTarget :=
  { dir, accepts := fun _ => false }

end DumpTarget

/-- **The options of a compilation**: the machine registers that values may
have, those preferred first, and where drawings go. -/
structure Options where
  registers : List Register := Register.allocatable
  dump : Option DumpTarget := none

/-- The options that a configuration asks for. -/
def Options.ofConfig (c : Config) : Options :=
  { dump := c.dumpDir.map DumpTarget.writable }

namespace Compile

/-- Change the session. -/
def update (f : Session → Session) : Compile Unit :=
  modify f

/-- Report an event. -/
def report (e : Event) : Compile Unit :=
  update (·.report e)

/-- The result of a stage that may end in an error. -/
def stage {α : Type} (r : Except CompileError α) : Compile α :=
  match r with
  | .ok a => pure a
  | .error e => throw (.error e)

/-- The result of a stage that may end in a fault. -/
def certain {α : Type} (r : Except Fault α) : Compile α :=
  match r with
  | .ok a => pure a
  | .error e => throw (.fault e)

/-- The result of a stage that may fail either way. -/
def attempt {α : Type} (r : Except Failure α) : Compile α :=
  match r with
  | .ok a => pure a
  | .error e => throw e

/-- **Write the drawing of a graph.** -/
def dump (target : DumpTarget) (g : Graph) : Compile Unit := do
  let file := s!"{g.name}.dot"
  if target.accepts file then
    update fun s => { s with files := s.files.write file g.dot }
    report (.graphWritten g.name s!"{target.dir}/{file}")
  else stage (.error (.dumpFailed g.name))

/-- **Emit the code of a placed graph**, counting every instruction as it is
written. -/
def emit (p : Placed) (schedule : Schedule) : Compile (List Asm) := do
  let name := p.graph.name
  let written (code : List Asm) : Compile Unit :=
    update fun s => ((Asm.instructions code).map (·.mnemonic)).foldl (Session.emit name) s
  match p.function schedule with
  | .ok code =>
    written code
    report (.functionEmitted name (Asm.instructions code).length p.allocation.frameSize)
    pure code
  | .error e =>
    written e.code
    throw e.cause

/-- **Allocate places** for the registers of an interference graph. -/
def allocate (registers : List Register) (g : Interference) : Compile Allocation := do
  let allocation := Allocation.ofInterference registers g
  report (.colored allocation.colors.length allocation.colorCount allocation.spillSlots)
  pure allocation

/-- **Compile a function.** -/
def function (o : Options) (f : Function) : Compile (List Asm) := do
  report (.functionEntered f.name)
  update (·.enter f.name)
  let built ← certain f.toGraph
  update fun s => { s with log := s.log ++ built.log }
  let g := built.graph
  update (·.count (·.recordGraph g.size built.phisRemoved))
  match o.dump with
  | some target => dump target g
  | none => pure ()
  let schedule ← stage (Schedule.build g)
  report (.scheduled g.name schedule.blocks.length schedule.postorder.length)
  let numbering ← certain (Numbering.ofSchedule g schedule)
  report (.registersNumbered g.name numbering.size)
  let lines ← attempt (Line.ofSchedule g schedule numbering)
  let liveness := Liveness.solve lines
  report (.livenessSettled g.name lines.size liveness.facts)
  let allocation ← allocate o.registers (Interference.ofLiveness liveness)
  update (·.count (·.recordAllocation numbering.size allocation.spillSlots))
  report (.allocated f.name numbering.size allocation.spillSlots)
  let code ← emit ⟨g, numbering, allocation⟩ schedule
  update (·.count (·.recordFunction f.name (Asm.instructions code).length))
  update (·.leave)
  pure code

/-- Compile a function, and report a failure under the name of the function
at work. -/
def functionOrReport (o : Options) (f : Function) : Compile (List Asm) :=
  tryCatch (function o f) fun e => do
    let s ← get
    report (.functionFailed (s.current.getD "") e)
    throw e

/-- **Compile a program** to assembly text. -/
def program (o : Options) (p : Program) : Compile String := do
  let codes ← p.mapM (functionOrReport o)
  let text := ".text\n" ++ String.join (codes.map fun code => "\n" ++ Asm.render code)
  report (.programCompiled p.length text.utf8ByteSize)
  pure text

/-- Run a computation from a session on. -/
def runIn {α : Type} (s : Session) (c : Compile α) : Except Failure α × Session :=
  Id.run (StateT.run (ExceptT.run c) s)

end Compile

/-- **The assembly text of a program**, with the default configuration. -/
def compile (p : Program) : Except Failure String :=
  (Compile.runIn {} (Compile.program (.ofConfig {}) p)).1

end SsaCompiler
