import Monotype.Command.Options
import Monotype.Config.Basic

/-!
# The command line

Two commands: `check` infers the principal type of a term file, and `constraints` lists the
equations of a term file without solving them.  This module holds their grammars and usage texts.
-/

namespace Monotype

namespace Command

inductive ConfigChoice where
  | nearest
  | file (path : String)
  | nameless

/-- The arguments of a command.  What a command has no option for keeps its initial value. -/
structure Arguments where
  file : String
  format : Option OutputFormat
  builtin : Bool
  everyType : Bool
  config : ConfigChoice
  verbose : Bool

def Arguments.initial : Arguments := ⟨"", none, false, false, .nearest, false⟩

inductive Invocation where
  | check (args : Arguments)
  | constraints (args : Arguments)

def textOfLines (lines : List String) : String :=
  String.join (lines.map (· ++ "\n"))

/-! ## Usage -/

def mainUsage : String := "usage: simpl [-h] [--version] \x7bcheck,constraints\x7d ..."

def mainHelp : String := textOfLines
  [mainUsage, "",
   "simpl: Hindley-Milner type inference for the simpl language", "",
   "positional arguments:",
   "  \x7bcheck,constraints\x7d  Available commands",
   "    check              Infer the principal type of a term",
   "    constraints        Print generated constraints", "",
   "options:",
   "  -h, --help           show this help message and exit",
   "  --version            show program's version number and exit"]

def checkUsage : String :=
  "usage: simpl check [-h] [--format \x7bpretty,json\x7d] [--prelude] [--annotate]\n" ++
  "                   [--config CONFIG] [-v]\n" ++
  "                   file"

def checkHelp : String := textOfLines
  [checkUsage, "",
   "positional arguments:",
   "  file                  JSON term file", "",
   "options:",
   "  -h, --help            show this help message and exit",
   "  --format \x7bpretty,json\x7d",
   "                        Output format (default: from config, else pretty)",
   "  --prelude             Start from the built-in environment (add, sub, mul,",
   "                        is_zero, not)",
   "  --annotate            Also print the type of every sub-expression",
   "  --config CONFIG       Config file (default: nearest .simplrc.yml)",
   "  -v, --verbose         Debug logging"]

def constraintsUsage : String := "usage: simpl constraints [-h] [--prelude] [--config CONFIG] file"

def constraintsHelp : String := textOfLines
  [constraintsUsage, "",
   "positional arguments:",
   "  file             JSON term file", "",
   "options:",
   "  -h, --help       show this help message and exit",
   "  --prelude        Start from the built-in environment",
   "  --config CONFIG  Config file (default: nearest .simplrc.yml)"]

/-! ## Grammars -/

def mainGrammar : Grammar Unit where
  program := "simpl"
  usage := mainUsage
  options :=
    [⟨["-h", "--help"], .print mainHelp⟩, ⟨["--version"], .print "simpl 0.1.0\n"⟩]
  operand := .command "command" ["check", "constraints"]

def fileOperand : Operand Arguments := .required "file" fun s a => { a with file := s }

def builtinOption : Choice Arguments :=
  ⟨["--prelude"], .switch fun a => { a with builtin := true }⟩

def configOption : Choice Arguments :=
  ⟨["--config"], .value none fun s a =>
    { a with config := match s with
        | some path => .file path
        | none => .nameless }⟩

def checkGrammar : Grammar Arguments where
  program := "simpl check"
  usage := checkUsage
  options :=
    [⟨["-h", "--help"], .print checkHelp⟩,
     ⟨["--format"], .value (some OutputFormat.names) fun s a =>
        { a with format := s.bind fun name => OutputFormat.ofName? name }⟩,
     builtinOption,
     ⟨["--annotate"], .switch fun a => { a with everyType := true }⟩,
     configOption,
     ⟨["-v", "--verbose"], .switch fun a => { a with verbose := true }⟩]
  operand := fileOperand

def constraintsGrammar : Grammar Arguments where
  program := "simpl constraints"
  usage := constraintsUsage
  options := [⟨["-h", "--help"], .print constraintsHelp⟩, builtinOption, configOption]
  operand := fileOperand

/-- Read a command line.  Arguments that nothing takes are reported once all others are read. -/
def parseArguments (argv : List String) : Except Stop Invocation := do
  let main ← mainGrammar.parse () argv
  let unrecognized (left : List String) : Except Stop Unit :=
    if left.isEmpty then .ok ()
    else .error (mainGrammar.fail ("unrecognized arguments: " ++ " ".intercalate left))
  match main.command with
  | some ("check", args) =>
      let r ← checkGrammar.parse .initial args
      unrecognized (main.left ++ r.left)
      return .check r.settings
  | some (_, args) =>
      let r ← constraintsGrammar.parse .initial args
      unrecognized (main.left ++ r.left)
      return .constraints r.settings
  | none =>
      unrecognized main.left
      throw ⟨1, mainHelp, ""⟩

end Command

end Monotype
