/-!
# Faults of file operations

What a file operation can fail with, and how messages show it: faults of the operating system with
their number, others as plain text.
-/

namespace ModPackager

/-- Why a file operation failed. -/
inductive IoFault
  | notFound
  | permissionDenied
  | exists
  | notDirectory
  | isDirectory
  | nameTooLong
  | notEmpty
  | tooManyLinks
  /-- The bytes of a text are not encoded as they should be. -/
  | notText
  /-- Something else than a file was to be copied. -/
  | notRegular
  /-- An empty path has no absolute form. -/
  | emptyPath
  /-- A name holds the character that ends names. -/
  | nulInName
  /-- The name or an argument of a program holds that character. -/
  | nulInArgument
deriving DecidableEq, Repr

/-- The text that reports a fault. -/
def IoFault.message : IoFault → String
  | .notFound => "No such file or directory (os error 2)"
  | .permissionDenied => "Permission denied (os error 13)"
  | .exists => "File exists (os error 17)"
  | .notDirectory => "Not a directory (os error 20)"
  | .isDirectory => "Is a directory (os error 21)"
  | .nameTooLong => "File name too long (os error 36)"
  | .notEmpty => "Directory not empty (os error 39)"
  | .tooManyLinks => "Too many levels of symbolic links (os error 40)"
  | .notText => "stream did not contain valid UTF-8"
  | .notRegular => "the source path is neither a regular file nor a symlink to a regular file"
  | .emptyPath => "cannot make an empty path absolute"
  | .nulInName => "file name contained an unexpected NUL byte"
  | .nulInArgument => "nul byte found in provided data"

end ModPackager
