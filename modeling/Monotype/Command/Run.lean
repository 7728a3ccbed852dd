import Monotype.Codec.File
import Monotype.Command.Arguments
import Monotype.Command.Log
import Monotype.Config.Load
import Monotype.Fault

/-!
# Running a command

A run reads the settings, then the term file, then does its work, and ends with what it wrote and an
exit status: 0 on success, 1 when the term has no type, 2 when the settings or the term file cannot
be used.  A few kinds of input break a run off instead; these have no exit status.

JSON is written in ASCII, which every output takes.  Lines for people hold names as they are, and
the host decides which of them the output takes.
-/

namespace Monotype

namespace Command

/-- What breaks a run off. -/
inductive Breakdown where
  | notUtf8 (fault : Text.Utf8Fault)
  | tooLong (digits : Nat)
  | overflow
  -- The settings file, or a type that has to be written out, nests too deeply.
  | tooDeep
  -- The settings file has the form of YAML, and yet it holds nothing.
  | noValue (fault : Yaml.Fault)
  -- A setting has to be written out and holds an integer of too many digits.
  | unshowable
  | unwritable
  | badPath
  | nameless

def Breakdown.message : Breakdown → String
  | .notUtf8 fault => "settings: " ++ fault.message
  | .tooLong digits => "an integer of " ++ toString digits ++ " digits is too long"
  | .overflow => "an integer is too large for a floating-point number"
  | .tooDeep => "settings or types are nested too deeply"
  | .noValue _ => "settings: a scalar has no value"
  | .unshowable => "settings: an integer is too long to be written out"
  | .unwritable => "the output cannot show a surrogate"
  | .badPath => "a path holds a NUL character"
  | .nameless => "the settings file has no name"

def Breakdown.ofStop : Config.LoadStop → Except ConfigFault Breakdown
  | .fault cause => .error cause
  | .notUtf8 cause => .ok (.notUtf8 cause)
  | .tooLong n => .ok (.tooLong n)
  | .tooDeep => .ok .tooDeep
  | .noValue cause => .ok (.noValue cause)
  | .unshowable => .ok .unshowable
  | .badPath => .ok .badPath

inductive Ending where
  | status (code : Nat)
  | broken (cause : Breakdown)

/-- A run: what it wrote, and how it ends. -/
structure Run where
  out : String
  err : String
  ending : Ending

/-- Lines for people that are written at once, if there is room to put them together. -/
abbrev Block := Option (List Text)

namespace Run

def exit (code : Nat) (out : String) : Run := ⟨out, "", .status code⟩

def breakOff (cause : Breakdown) : Run := ⟨"", "", .broken cause⟩

def logged (lines : String) (r : Run) : Run := { r with err := lines ++ r.err }

/-- Write one block after the other and end with a status.  A block that cannot be put together, or
that the output does not take, breaks the run off. -/
def blocks (host : Host) (code : Nat) : List Block → Run
  | [] => .exit code ""
  | none :: _ => .breakOff .tooDeep
  | some lines :: rest =>
      match lines.mapM host.write? with
      | none => .breakOff .unwritable
      | some written =>
          let r := blocks host code rest
          { r with out := textOfLines written ++ r.out }

end Run

def blockFor (host : Host) (task : Task) (lines : List Text) : Block :=
  if host.hasRoom task then some lines else none

def Arguments.override (a : Arguments) (c : Config) : Config :=
  { builtin := c.builtin || a.builtin
    format := a.format.getD c.format
    everyType := c.everyType || a.everyType
    logLevel := if a.verbose then "DEBUG" else c.logLevel }

def scopeFor (c : Config) : Scope := if c.builtin then .builtin else .empty

/-! ## Reports -/

def reportJson (r : Report) : String :=
  (Json.obj [("status", .str "error"), ("error", r.toJson)]).pretty 2 ++ "\n"

def reportRun (host : Host) (format : OutputFormat) (code : Nat) (r : Report) : Run :=
  match format with
  | .json => .exit code (reportJson r)
  | .pretty => .blocks host code [some [r.line]]

def tooDeepRun (host : Host) (format : OutputFormat) : Run :=
  reportRun host format 2 (.tooDeep shownLimit)

def equationOf? : InferFault → Option Equation
  | .conflict _ e => some e
  | _ => none

def equationBlocks (host : Host) (fault : InferFault) : List Block :=
  match equationOf? fault with
  | some e => [blockFor host (.equation e) fault.report.equationLine?.toList]
  | none => []

/-- End with a status after the report of a fault of inference.  The equation that the fault is
about is written out only now. -/
def faultRun (host : Host) (format : OutputFormat) (code : Nat) (fault : InferFault) : Run :=
  match format with
  | .json =>
      if (equationOf? fault).all fun e => host.hasRoom (.equation e) then
        .exit code (reportJson fault.report)
      else .breakOff .tooDeep
  | .pretty => .blocks host code (some [fault.report.line] :: equationBlocks host fault)

def outerFault (kind : String) (message : Text) : String :=
  (Json.obj [("status", .str "error"),
    ("error", .obj [("kind", .str kind), ("message", .str message)])]).compact ++ "\n"

/-! ## Settings and terms -/

/-- Do the work once the settings are there; `onFault` is the run for unusable settings. -/
def withConfig (host : Host) (disk : Disk) (a : Arguments) (onFault : ConfigFault → Run)
    (work : Config → Run) : Run :=
  let loaded (path : Option String) : Run :=
    match Config.load host disk path "." with
    | .ok c => work (a.override c)
    | .error stop =>
        match Breakdown.ofStop stop with
        | .ok cause => .breakOff cause
        | .error fault => onFault fault
  match a.config with
  | .nearest => loaded none
  | .file path => loaded (some path)
  | .nameless => .breakOff .nameless

/-- Do the work once the term is there; `onUnreadable` is the run for a file that cannot be read and
`onReport` the one for a file that holds no term. -/
def withTerm (host : Host) (disk : Disk) (path : String) (onUnreadable : String → Run)
    (onReport : Report → Run) (work : Term → Run) : Run :=
  match Term.load host disk path with
  | .ok t => work t
  | .error (.unreadable path fault) => onUnreadable (fault.message path)
  | .error (.malformed m) => onReport m.report
  | .error .tooDeep => onReport (.tooDeep shownLimit)
  | .error (.tooLong n) => .breakOff (.tooLong n)
  | .error .overflow => .breakOff .overflow
  | .error .badPath => .breakOff .badPath

/-! ## Inferring a type -/

def resultJson (c : Config) (r : Inference) : Json :=
  let typeJson :=
    match r.type.toJson with
    | .ok v => v
    | .error _ => .null
  .obj (("status", .str "ok") :: ("type", .str r.type.text) :: ("type_json", typeJson) ::
    if c.everyType then [("typed_term", r.tree.toJson)] else [])

def shownTree? (c : Config) (r : Inference) : Option TypedTerm :=
  if c.everyType then some r.tree else none

def resultBlocks (host : Host) (c : Config) (r : Inference) : List Block :=
  blockFor host (.typeText r.type) [r.type.text] ::
    match shownTree? c r with
    | some tree => [blockFor host (.listing tree) tree.lines]
    | none => []

/-- Print a type that was found.  A JSON value that there is no room to write gives way to a
report. -/
def resultRun (host : Host) (c : Config) (r : Inference) : Run :=
  match c.format with
  | .json =>
      if host.hasRoom (.typeJson r.type) then
        if host.hasRoom (.writeJson r.type (shownTree? c r)) then
          .exit 0 ((resultJson c r).pretty 2 ++ "\n")
        else tooDeepRun host .json
      else .breakOff .tooDeep
  | .pretty => .blocks host 0 (resultBlocks host c r)

def checkTerm (host : Host) (c : Config) (path : String) (t : Term) : Run :=
  let bound := threshold c.logLevel
  let lines (events : List Event) : String := String.join (events.map (eventLine bound))
  match host.cutShort? c t with
  | some events => (tooDeepRun host c.format).logged (lines events)
  | none =>
      match t.inferTraced (scopeFor c) with
      | (events, .ok r) =>
          if host.hasRoom (.summary r) then
            let info := logLine bound "INFO" "simpl" (path ++ ": " ++ r.summary)
            (resultRun host c r).logged (lines events ++ info)
          else (Run.breakOff .tooDeep).logged (lines events)
      | (events, .error fault) =>
          let failed :=
            logLine bound "DEBUG" "simpl" ("inference failed: " ++ fault.report.text.escaped)
          (faultRun host c.format 1 fault).logged (lines events ++ failed)

/-- The command that infers the type of a term file. -/
def runCheck (host : Host) (disk : Disk) (a : Arguments) : Run :=
  withConfig host disk a (fun fault => .exit 2 (outerFault "config_error" fault.message)) fun c =>
    withTerm host disk a.file (fun message => .exit 2 (outerFault "io_error" message))
      (reportRun host c.format 2) (checkTerm host c a.file)

/-! ## Listing equations -/

def listEquations (host : Host) (c : Config) (t : Term) : Run :=
  if host.hasRoom (.generate (scopeFor c) t) then
    match (t.generateFrom (scopeFor c) .initial).1 with
    | .ok g =>
        .blocks host 0 (blockFor host (.typeText g.trees.type) ["root: " ++ g.trees.type.text] ::
          g.equations.map fun e => blockFor host (.equation e) [e.text])
    | .error fault => reportRun host .pretty 1 fault.report
  else tooDeepRun host .pretty

/-- The command that lists the equations of a term file. -/
def runConstraints (host : Host) (disk : Disk) (a : Arguments) : Run :=
  withConfig host disk a
    (fun fault => .blocks host 2 [some ["error[config_error]: " ++ fault.message]]) fun c =>
    withTerm host disk a.file
      (fun message => .blocks host 2 [some ["error[io_error]: " ++ message]])
      (reportRun host .pretty 2) (listEquations host c)

/-! ## The program -/

def Invocation.arguments : Invocation → Arguments
  | .check a => a
  | .constraints a => a

/-- The paths that a run with these arguments may ask the file system for. -/
def pathsAskedFor (cwd : String) (argv : List String) : List String :=
  match parseArguments argv with
  | .error _ => []
  | .ok invocation =>
      let a := invocation.arguments
      let settings :=
        match a.config with
        | .nameless => []
        | .file path => [path]
        | .nearest =>
            (Config.searchOrder (Disk.AbsolutePath.resolve cwd ".")).map Disk.AbsolutePath.text
      a.file :: settings

/-- Run the program on its arguments. -/
def run (host : Host) (disk : Disk) (argv : List String) : Run :=
  match parseArguments argv with
  | .error stop => ⟨stop.out, stop.err, .status stop.status⟩
  | .ok (.check a) => runCheck host disk a
  | .ok (.constraints a) => runConstraints host disk a

end Command

end Monotype
