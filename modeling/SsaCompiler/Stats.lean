/-!
# Statistics

A session counts what it compiles. The instructions are also counted by
mnemonic, in a **tally**: a list of counts, ascending by name, with no name
twice.
-/

namespace SsaCompiler

/-- **Counts by name**, ascending by name. -/
abbrev Tally := List (String × Nat)

namespace Tally

/-- Count one more of a name. -/
def add (name : String) : Tally → Tally
  | [] => [(name, 1)]
  | (other, count) :: rest =>
    if name < other then (name, 1) :: (other, count) :: rest
    else if name = other then (other, count + 1) :: rest
    else (other, count) :: add name rest

/-- The sum of all counts. -/
def total (t : Tally) : Nat :=
  t.foldr (fun x rest => x.2 + rest) 0

/-- Put an entry after those that count at least as many. -/
def insertByCount (x : String × Nat) : Tally → Tally
  | [] => [x]
  | y :: rest => if x.2 ≤ y.2 then y :: insertByCount x rest else x :: y :: rest

/-- **The entries by falling count**; equal counts keep the order of their
names. -/
def byCount (t : Tally) : Tally :=
  t.foldl (fun sorted x => insertByCount x sorted) []

end Tally

/-- **What a session has compiled so far.** -/
structure Stats where
  functionsCompiled : Nat := 0
  nodesCreated : Nat := 0
  phisRemoved : Nat := 0
  virtualRegisters : Nat := 0
  spillSlots : Nat := 0
  instructionsEmitted : Nat := 0
  /-- The instructions by mnemonic. -/
  mnemonics : Tally := []
  /-- The size of the largest function, and its name. -/
  largestSize : Nat := 0
  largestName : String := ""
deriving DecidableEq

namespace Stats

/-- Count a graph. -/
def recordGraph (s : Stats) (nodes phisRemoved : Nat) : Stats :=
  { s with
    nodesCreated := s.nodesCreated + nodes
    phisRemoved := s.phisRemoved + phisRemoved }

/-- Count an allocation. -/
def recordAllocation (s : Stats) (virtualRegisters spillSlots : Nat) : Stats :=
  { s with
    virtualRegisters := s.virtualRegisters + virtualRegisters
    spillSlots := s.spillSlots + spillSlots }

/-- Count an instruction. -/
def recordInstruction (s : Stats) (mnemonic : String) : Stats :=
  { s with
    instructionsEmitted := s.instructionsEmitted + 1
    mnemonics := s.mnemonics.add mnemonic }

/-- **Count a finished function.** Of two functions of the same size the
earlier stays the largest. -/
def recordFunction (s : Stats) (name : String) (instructions : Nat) : Stats :=
  let s := { s with functionsCompiled := s.functionsCompiled + 1 }
  if s.largestSize < instructions then
    { s with largestSize := instructions, largestName := name }
  else s

/-- The number of mnemonics a summary shows. -/
def shownMnemonics : Nat := 10

/-- **The summary of a session.** -/
def summary (s : Stats) : String :=
  let counts :=
    "Compilation Session Statistics:\n"
      ++ s!"  Functions compiled: {s.functionsCompiled}\n"
      ++ s!"  IR nodes created: {s.nodesCreated}\n"
      ++ s!"  Trivial phis removed: {s.phisRemoved}\n"
      ++ s!"  Virtual registers: {s.virtualRegisters}\n"
      ++ s!"  Spill slots: {s.spillSlots}\n"
      ++ s!"  Instructions emitted: {s.instructionsEmitted}\n"
  let largest :=
    if s.largestName = "" then ""
    else s!"  Largest function: {s.largestName} ({s.largestSize} instructions)\n"
  let breakdown :=
    if s.mnemonics = [] then ""
    else
      "  Instruction breakdown:\n"
        ++ String.join ((s.mnemonics.byCount.take shownMnemonics).map fun (name, count) =>
          s!"    {name}: {count}\n")
  counts ++ largest ++ breakdown

end Stats

end SsaCompiler
