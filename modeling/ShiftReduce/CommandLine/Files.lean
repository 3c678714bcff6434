/-
  Files as a command sees them: texts that it reads and writes by path.

  A command is written against `Files`, so that the same definition runs on
  the files of a system and on a `FileTree`, a value.
-/

namespace ShiftReduce

/-- Why a file could not be read or written. -/
inductive FileError where
  | notFound
  | notDirectory
  | isDirectory
  | nameTooLong
  | notText
  | other (reason : String)
deriving DecidableEq, Repr

/-- The wording of a file error. -/
def FileError.message : FileError → String
  | notFound => "No such file or directory (os error 2)"
  | notDirectory => "Not a directory (os error 20)"
  | isDirectory => "Is a directory (os error 21)"
  | nameTooLong => "File name too long (os error 36)"
  | notText => "stream did not contain valid UTF-8"
  | other reason => reason

/-- A setting with files in it. -/
class Files (m : Type → Type) where
  read : String → m (Except FileError ByteArray)
  write : String → String → m (Except FileError Unit)

/-- Reads a file as text. -/
def Files.readText {m : Type → Type} [Monad m] [Files m] (path : String) :
    m (Except FileError String) := do
  match ← Files.read path with
  | .error error => return .error error
  | .ok bytes =>
    match String.fromUTF8? bytes with
    | some text => return .ok text
    | none => return .error .notText

end ShiftReduce
