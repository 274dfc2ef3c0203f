/-!
# Configuration

The one thing to configure is where drawings of the graphs go. The setting
is a text: white space around it is ignored, an empty text means no
drawings, `vcg` means the working directory, and any other text names a
directory.
-/

namespace SsaCompiler

/-- The characters with the property White_Space. -/
def isWhiteSpace (c : Char) : Bool :=
  let n := c.toNat
  (0x09 ≤ n && n ≤ 0x0D) || n == 0x20 || n == 0x85 || n == 0xA0 || n == 0x1680
    || (0x2000 ≤ n && n ≤ 0x200A) || n == 0x2028 || n == 0x2029 || n == 0x202F || n == 0x205F
    || n == 0x3000

/-- Drop what satisfies a test from both ends of a list. -/
def dropAround {α : Type} (p : α → Bool) (l : List α) : List α :=
  ((l.dropWhile p).reverse.dropWhile p).reverse

/-- A text without the white space around it. -/
def trimWhiteSpace (s : String) : String :=
  String.ofList (dropAround isWhiteSpace s.toList)

/-- **The options of a compilation.** -/
structure Config where
  /-- The directory that receives the drawings, if any. -/
  dumpDir : Option String := none
deriving DecidableEq

namespace Config

/-- **The configuration that a setting asks for.** -/
def ofSetting (setting : Option String) : Config :=
  match setting.map trimWhiteSpace with
  | none | some "" => {}
  | some "vcg" => { dumpDir := some "." }
  | some dir => { dumpDir := some dir }

/-- Ask for drawings in a directory. -/
def withDumpDir (c : Config) (dir : String) : Config :=
  { c with dumpDir := some dir }

end Config

end SsaCompiler
