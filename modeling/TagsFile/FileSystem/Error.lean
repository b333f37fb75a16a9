import TagsFile.Text.Quoted

/-!
# Errors of the file system
-/

namespace TagsFile

inductive SystemError where
  | notPermitted
  | noEntry
  | deviceFailure
  | accessDenied
  | busy
  | alreadyExists
  | notDirectory
  | isDirectory
  | invalid
  | noSpace
  | readOnly
  | nameTooLong
  | notEmpty
  | tooManyLinks
deriving DecidableEq, Repr

namespace SystemError

def number : SystemError → Nat
  | .notPermitted => 1
  | .noEntry => 2
  | .deviceFailure => 5
  | .accessDenied => 13
  | .busy => 16
  | .alreadyExists => 17
  | .notDirectory => 20
  | .isDirectory => 21
  | .invalid => 22
  | .noSpace => 28
  | .readOnly => 30
  | .nameTooLong => 36
  | .notEmpty => 39
  | .tooManyLinks => 40

def text : SystemError → String
  | .notPermitted => "Operation not permitted"
  | .noEntry => "No such file or directory"
  | .deviceFailure => "Input/output error"
  | .accessDenied => "Permission denied"
  | .busy => "Device or resource busy"
  | .alreadyExists => "File exists"
  | .notDirectory => "Not a directory"
  | .isDirectory => "Is a directory"
  | .invalid => "Invalid argument"
  | .noSpace => "No space left on device"
  | .readOnly => "Read-only file system"
  | .nameTooLong => "File name too long"
  | .notEmpty => "Directory not empty"
  | .tooManyLinks => "Too many levels of symbolic links"

/-- The error as a message about some paths. -/
def message (e : SystemError) (paths : List Text) : String :=
  let about := " -> ".intercalate (paths.map Text.quoted)
  "[Errno " ++ toString e.number ++ "] " ++ e.text ++ (if paths = [] then "" else ": " ++ about)

end SystemError

/-- Why a text is no path. -/
inductive PathFault where
  /-- It holds a NUL, which no name can hold. -/
  | embeddedNul
  /-- It stands for no bytes. -/
  | unencodable
deriving DecidableEq, Repr

/-- Why a path leads nowhere. -/
inductive FileError where
  | system (e : SystemError)
  | badPath (f : PathFault)
deriving DecidableEq, Repr

/-- Whether an error means that nothing of the kind asked for is there. -/
def FileError.meansAbsent : FileError → Bool
  | .system .noEntry | .system .notDirectory | .system .tooManyLinks | .badPath _ => true
  | _ => false

end TagsFile
