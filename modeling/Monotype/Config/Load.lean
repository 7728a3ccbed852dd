import Monotype.Host

/-!
# Settings files

Settings stand in a file of one of three names.  The nearest directory with such a file counts, from
the starting directory upwards, and in it the first of the names.  A file whose name ends in `.json`
holds JSON, any other file YAML, which the host reads.
-/

namespace Monotype

namespace Config

def fileNames : List String := [".simplrc.yml", ".simplrc.yaml", ".simplrc.json"]

def candidates (dir : Disk.AbsolutePath) : List Disk.AbsolutePath := fileNames.map dir.child

/-- The settings files that could count for a starting directory, nearest first. -/
def searchOrder (start : Disk.AbsolutePath) : List Disk.AbsolutePath :=
  start.ancestors.flatMap candidates

/-- The settings file that counts for a starting directory, given which files there are. -/
def find? (isFile : Disk.AbsolutePath → Bool) (start : Disk.AbsolutePath) :
    Option Disk.AbsolutePath :=
  (searchOrder start).find? isFile

/-- The settings file that counts for a starting directory, as seen from the working directory. -/
def findFrom? (disk : Disk) (start : String) : Option Disk.AbsolutePath :=
  find? disk.isFile (Disk.AbsolutePath.resolve disk.cwd start)

/-- What keeps a settings file from being read at all. -/
inductive LoadStop where
  | fault (fault : ConfigFault)
  | notUtf8 (fault : Text.Utf8Fault)
  | tooLong (digits : Nat)
  | tooDeep
  -- A scalar of the file has no value, though its form is right.
  | noValue (fault : Yaml.Fault)
  | unshowable
  | badPath

def LoadStop.ofYaml (path : String) : Yaml.Fault → LoadStop
  | .malformed => .fault (.notYaml path)
  | .tooDeep => .tooDeep
  | .tooLong n => .tooLong n
  | cause => .noValue cause

def LoadStop.ofMapping : ConfigStop → LoadStop
  | .fault cause => .fault cause
  | .unshowable .tooLong => .unshowable
  | .unshowable .tooDeep => .tooDeep

def settingsIn (host : Host) (path : String) (text : List Char) : Except LoadStop Settings :=
  if path.endsWith ".json" then
    match host.readJson text with
    | .ok v => .ok (v.toDocument.settings fun d => host.hasRoom (.writeSetting d))
    | .error (.fault fault left) =>
        .error (.fault (.notJson path fault (Json.Place.ofLeft text left)))
    | .error (.tooLong n) => .error (.tooLong n)
    | .error .tooDeep => .error .tooDeep
  else
    (host.readYaml text).mapError (.ofYaml path)

def ofBytes (host : Host) (path : String) (bytes : List UInt8) : Except LoadStop Config := do
  match Text.decodeUtf8 bytes with
  | .error fault => .error (.notUtf8 fault)
  | .ok cs =>
      match ← settingsIn host path (Text.universalNewlines cs) with
      | .none => .ok default
      | .mapping value? => (ofMapping value?).mapError .ofMapping
      | .other => .error (.fault (.notMapping path))

def loadFile (host : Host) (disk : Disk) (path : String) : Except LoadStop Config :=
  if Disk.isPath path then
    match disk.read path with
    | .error fault => .error (.fault (.unreadable path fault))
    | .ok bytes => ofBytes host path bytes
  else .error .badPath

/-- The settings in a file that is named, or else in the file that counts for a directory. -/
def load (host : Host) (disk : Disk) (path : Option String) (start : String) :
    Except LoadStop Config :=
  match path with
  | some path => loadFile host disk path
  | none =>
      match findFrom? disk start with
      | some path => loadFile host disk path.text
      | none => .ok default

end Config

end Monotype
