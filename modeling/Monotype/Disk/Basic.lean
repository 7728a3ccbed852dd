import Monotype.Disk.Path
import Monotype.Text.Quoted

/-!
# Files

What a program may ask of the file system: the working directory, whether there is a regular file
at an absolute path, and the bytes of a file.  A file that cannot be read has a reason.
-/

namespace Monotype

inductive ReadFault where
  | noEntry
  | notDirectory
  | isDirectory
  | nameTooLong
  | other (number : Nat) (wording : String)
  deriving DecidableEq, Repr

namespace ReadFault

def message (path : String) : ReadFault → String
  | .noEntry => "[Errno 2] No such file or directory: " ++ Text.quoted path
  | .notDirectory => "[Errno 20] Not a directory: " ++ Text.quoted path
  | .isDirectory => "[Errno 21] Is a directory: " ++ Text.quoted path
  | .nameTooLong => "[Errno 36] File name too long: " ++ Text.quoted path
  | .other number wording =>
      "[Errno " ++ toString number ++ "] " ++ wording ++ ": " ++ Text.quoted path

end ReadFault

/-- What a program may ask of the file system. -/
structure Disk where
  cwd : String
  isFile : Disk.AbsolutePath → Bool
  -- The bytes of the file at a path, as seen from the working directory.
  read : String → Except ReadFault (List UInt8)

/-- The file system as far as some paths tell: what reading each of them gives.  There is nothing at
any other path. -/
def Disk.ofReadings (cwd : String) (readings : List (String × Except ReadFault (List UInt8))) :
    Disk where
  cwd := cwd
  isFile path :=
    match readings.lookup path.text with
    | some (.ok _) => true
    | _ => false
  read path := (readings.lookup path).getD (.error .noEntry)

end Monotype
