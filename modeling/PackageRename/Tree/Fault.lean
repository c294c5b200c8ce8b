/-!
# Faults of file operations

Each way in which an operation on files can go wrong, with the text that
reports it.  The numbered ones are the operating system's own.

What depends on more than the tree is left out: whether the process may read,
write or enter what it finds (the mode matters only where it lets nobody write),
whether the disk is full, and whether two places are on different devices.
-/

namespace PackageRename

inductive Fault where
  | notFound
  | busy
  | alreadyExists
  | notDirectory
  | isDirectory
  | invalidArgument
  | nameTooLong
  /-- The absolute path of a temporary file is too long. -/
  | temporaryTooLong
  | notEmpty
  | tooManyLinks
  /-- A path holds a NUL byte and cannot be passed on. -/
  | nulByte
  /-- Contents read as text are not well-formed UTF-8. -/
  | notText
  /-- None of the write bits of the file is set. -/
  | readOnly
  /-- A link leads back to a directory that is being walked. -/
  | linkLoop
  /-- A package already stands where one is to be parked. -/
  | stagingOccupied
  /-- A manifest has no package attribute. -/
  | noPackage
deriving DecidableEq

/-- What is reported.  Where a temporary file cannot be made, its path follows;
the path ends in letters drawn at random and is left out. -/
def Fault.message : Fault → String
  | notFound => "No such file or directory (os error 2)"
  | busy => "Device or resource busy (os error 16)"
  | alreadyExists => "File exists (os error 17)"
  | notDirectory => "Not a directory (os error 20)"
  | isDirectory => "Is a directory (os error 21)"
  | invalidArgument => "Invalid argument (os error 22)"
  | nameTooLong => "File name too long (os error 36)"
  | temporaryTooLong => "File name too long (os error 36)"
  | notEmpty => "Directory not empty (os error 39)"
  | tooManyLinks => "Too many levels of symbolic links (os error 40)"
  | nulByte => "file name contained an unexpected NUL byte"
  | notText => "stream did not contain valid UTF-8"
  | readOnly => "file is read-only"
  | linkLoop => "filesystem loop detected"
  | stagingOccupied => "staging directory already exists"
  | noPackage => "manifest declares no package"

end PackageRename
