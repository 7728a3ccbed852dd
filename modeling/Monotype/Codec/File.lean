import Monotype.Disk.Basic
import Monotype.Host

/-!
# Term files

A term file holds one JSON value in UTF-8.  Its bytes are read as text with line feeds as line ends,
the text as JSON, and the value as a term; each stage has its own faults, and the first stage that
fails decides.  How deeply a file may nest is up to the host.
-/

namespace Monotype

namespace Term

/-- How deeply the values in term files may nest on the standard host. -/
def readLimit : Nat := 500

/-- Why a term file gives no term. -/
inductive LoadFault where
  | unreadable (path : String) (fault : ReadFault)
  | malformed (cause : Malformed)
  | tooDeep
  | tooLong (digits : Nat)
  | overflow
  | badPath

/-- The JSON value that the bytes of a file hold. -/
def jsonOfBytes (host : Host) (path : String) (bytes : List UInt8) : Except LoadFault Json :=
  match Text.decodeUtf8 bytes with
  | .error fault => .error (.malformed (.notUtf8 path fault))
  | .ok cs =>
      let text := Text.universalNewlines cs
      match host.readJson text with
      | .ok v => .ok v
      | .error (.fault fault left) =>
          .error (.malformed (.notJson path fault (Json.Place.ofLeft text left).line))
      | .error .tooDeep => .error .tooDeep
      | .error (.tooLong n) => .error (.tooLong n)

/-- The term that the bytes of a file hold. -/
def ofBytes (host : Host) (path : String) (bytes : List UInt8) : Except LoadFault Term := do
  let v ← jsonOfBytes host path bytes
  match host.decode v with
  | .ok t => .ok t
  | .error (.malformed cause) => .error (.malformed cause)
  | .error .tooDeep => .error .tooDeep
  | .error .overflow => .error .overflow

def load (host : Host) (disk : Disk) (path : String) : Except LoadFault Term :=
  if Disk.isPath path then
    match disk.read path with
    | .error fault => .error (.unreadable path fault)
    | .ok bytes => ofBytes host path bytes
  else .error .badPath

end Term

end Monotype
