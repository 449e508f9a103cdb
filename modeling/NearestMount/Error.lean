import NearestMount.Path.Parse
import NearestMount.Settings.Basic
import NearestMount.Json.Fault

/-! # Errors

    Everything that an operation on mounts or settings can be refused for, by cause;
    `Error.message` is the wording.
-/

namespace NearestMount

/-- Why the contents of a file cannot be had as text. -/
inductive FileFault where
  | missing
  | isDirectory
  | notText
  deriving DecidableEq, Repr

/-- The wording of a fault of a file. -/
def FileFault.message : FileFault → String
  | .missing => "No such file or directory (os error 2)"
  | .isDirectory => "Is a directory (os error 21)"
  | .notText => "stream did not contain valid UTF-8"

/-- Why an operation was refused. -/
inductive Error where
  /-- The text is no path. -/
  | invalidPath (path : String) (fault : Path.Fault)
  /-- Something is already mounted at this path. -/
  | occupied (path : String)
  /-- Nothing is mounted at this path. -/
  | vacant (path : String)
  /-- The permanent mount of the root cannot be unmounted. -/
  | rootPinned
  /-- No mount point is this path or encloses it. -/
  | uncovered (path : String)
  /-- The settings cannot work. -/
  | settings (fault : Settings.Fault)
  /-- The file of the settings cannot be read. -/
  | file (fault : FileFault)
  /-- The text is no document, or none of settings. -/
  | document (fault : Json.Fault)
  deriving DecidableEq, Repr

namespace Error

/-- The wording of an error. -/
def message : Error → String
  | invalidPath path fault => "invalid path '" ++ path ++ "': " ++ fault.message
  | occupied path => "already mounted: " ++ path
  | vacant path => "not a mount point: " ++ path
  | rootPinned => "cannot unmount the root mount point"
  | uncovered path => "no mount point covers path: " ++ path
  | settings fault => "invalid config: " ++ fault.message
  | file fault => "io error: " ++ fault.message
  | document (.mismatch m) => "json error: " ++ m.message
  | document (.flaw .malformed) => "json error: malformed document"
  | document (.flaw .truncated) => "json error: document ends too early"

end Error

/-- The path that is written as `s`, or the error that it is none. -/
def Path.read (s : String) : Except Error Path :=
  match Path.parse s with
  | .ok p => .ok p
  | .error fault => .error (.invalidPath s fault)

@[simp] theorem Path.read_text (p : Path) : Path.read p.text = .ok p := by
  simp [Path.read, Path.parse_text]

end NearestMount
