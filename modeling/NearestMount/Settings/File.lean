import NearestMount.Settings.Document

/-! # Settings in a file

    A file of settings holds one document as UTF-8 text. A byte order mark is text
    like any other, and no document begins with one.
-/

namespace NearestMount

/-- What is found where a file of settings should be. -/
inductive FileContent where
  | missing
  | directory
  | bytes (content : ByteArray)

/-- The text of a file. -/
def FileContent.text : FileContent → Except FileFault String
  | .missing => .error .missing
  | .directory => .error .isDirectory
  | .bytes content =>
    match String.fromUTF8? content with
    | some s => .ok s
    | none => .error .notText

/-- The settings that a file describes, if they can work. -/
def Settings.ofFile (file : FileContent) : Except Error Settings :=
  match file.text with
  | .error fault => .error (.file fault)
  | .ok s => Settings.ofDocument s

end NearestMount
