/-!
# Errors of reading a file

A program text comes from a file, and reading one can fail: `ReadError` holds the words and the
number of the operating system for what went wrong.
-/

namespace PipeLang.CommandLine

/-- Why a file cannot be read: the system's words, and its number for them if it has one. -/
structure ReadError where
  words : String
  number? : Option Nat
deriving DecidableEq

namespace ReadError

/-- Nothing has this name. -/
def missing : ReadError := ⟨"No such file or directory", some 2⟩

/-- The file is not for this reader. -/
def permissionDenied : ReadError := ⟨"Permission denied", some 13⟩

/-- The name goes on below a file. -/
def notDirectory : ReadError := ⟨"Not a directory", some 20⟩

/-- The name belongs to a directory. -/
def directory : ReadError := ⟨"Is a directory", some 21⟩

/-- The name is longer than names can be. -/
def nameTooLong : ReadError := ⟨"File name too long", some 36⟩

/-- The file holds bytes that are no text. -/
def noText : ReadError := ⟨"stream did not contain valid UTF-8", none⟩

/-- The error with a number, with the given words if it is none of those above. -/
def ofNumber (number : Nat) (words : String) : ReadError :=
  let known := [missing, permissionDenied, notDirectory, directory, nameTooLong]
  (known.find? fun e => e.number? == some number).getD ⟨words, some number⟩

/-- The words, with the number in parentheses. -/
def message (e : ReadError) : String :=
  match e.number? with
  | some number => e.words ++ " (os error " ++ toString number ++ ")"
  | none => e.words

end ReadError

end PipeLang.CommandLine
