import ApiSurface.Files.Tree
import ApiSurface.SignatureFile.Writer

/-!
Settings for work on class paths and files. The tool that extracts module images can be given, or is found
from the environment. Main statement: a tool that is given is the one to use (`tool_of_given`).
-/

namespace ApiSurface

/-- What the environment tells about tools. -/
structure Environment where
  /-- The tool that extracts module images. -/
  tool : Option Path
  /-- Where the tools of the language are. -/
  home : Option Path
  deriving DecidableEq, Repr

/-- An environment that tells nothing. -/
def Environment.silent : Environment := ⟨none, none⟩

/-- Settings. -/
structure Settings where
  environment : Environment
  /-- The tool that extracts module images, if it is given. -/
  givenTool : Option Path
  /-- How long the tool can take, in milliseconds. -/
  timeLimit : Option Nat
  /-- Where module images are extracted, if it is given. -/
  temporary : Option Path
  /-- What stands between the elements of a class path. -/
  separator : Char
  copyright : Option String
  deriving DecidableEq, Repr

namespace Settings

/-- How long a tool can take unless something else is said: five minutes. -/
def usualTimeLimit : Nat := 300000

/-- The settings when nothing is said. -/
def usual : Settings := ⟨.silent, none, some usualTimeLimit, none, ':', none⟩

/-- The name of the tool that extracts module images. -/
def toolName : Path := "jimage".toList

/-- Where that tool is below the home of the tools. -/
def toolBelowHome : Path := "bin".toList

/-- The tool that extracts module images: the one that is given, or else the one that the environment
names, or else the one at home, or else one that is looked for by its name. -/
def tool (s : Settings) (fs : FileSystem) : Path :=
  match s.givenTool with
  | some tool => tool
  | none =>
    match s.environment.tool.filter (!·.isEmpty) with
    | some tool => tool
    | none =>
      let atHome := s.environment.home.map fun home => (home.join toolBelowHome).join toolName
      (atHome.filter fs.exists?).getD toolName

/-- A writer for the latest format. -/
def writer (s : Settings) : Writer :=
  let w := Writer.ofFormat .latest
  match s.copyright with
  | some text => w.setCopyright text
  | none => w

/-- A tool that is given is the one to use. -/
theorem tool_of_given {s : Settings} {tool : Path} (given : s.givenTool = some tool) (fs : FileSystem) :
    s.tool fs = tool := by
  simp [Settings.tool, given]

end Settings

end ApiSurface
