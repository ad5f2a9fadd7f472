/-
# Files

The program reads and writes files through `Files`, so that it runs on the files of a system as well
as on a `FileTree`, which is a value.  What goes wrong with a file is known by the number that the
system gives to it.
-/
import ClassFile.Bytes
import ClassFile.Text.Quoted

namespace ClassFile.CommandLine

/-! ## 1. Errors -/

/-- What can go wrong with a file, by its number. -/
structure FileError where
  code : Nat
  deriving DecidableEq, Repr

namespace FileError

/-- Nothing has this name. -/
def notFound : FileError := ⟨2⟩

/-- A part of the path is a file, which has nothing in it. -/
def notADirectory : FileError := ⟨20⟩

/-- The path leads to a folder. -/
def isADirectory : FileError := ⟨21⟩

/-- The path, or a name in it, is too long. -/
def nameTooLong : FileError := ⟨36⟩

/-- The kinds of errors and their descriptions, by number. -/
def descriptions : List (Nat × String × String) :=
  [(1, "PermissionDenied", "Operation not permitted"),
    (2, "NotFound", "No such file or directory"),
    (4, "Interrupted", "Interrupted system call"),
    (5, "Uncategorized", "Input/output error"),
    (6, "Uncategorized", "No such device or address"),
    (9, "Uncategorized", "Bad file descriptor"),
    (11, "WouldBlock", "Resource temporarily unavailable"),
    (12, "OutOfMemory", "Cannot allocate memory"),
    (13, "PermissionDenied", "Permission denied"),
    (16, "ResourceBusy", "Device or resource busy"),
    (17, "AlreadyExists", "File exists"),
    (19, "Uncategorized", "No such device"),
    (20, "NotADirectory", "Not a directory"),
    (21, "IsADirectory", "Is a directory"),
    (22, "InvalidInput", "Invalid argument"),
    (23, "Uncategorized", "Too many open files in system"),
    (24, "Uncategorized", "Too many open files"),
    (26, "ExecutableFileBusy", "Text file busy"),
    (27, "FileTooLarge", "File too large"),
    (28, "StorageFull", "No space left on device"),
    (29, "NotSeekable", "Illegal seek"),
    (30, "ReadOnlyFilesystem", "Read-only file system"),
    (32, "BrokenPipe", "Broken pipe"),
    (36, "InvalidFilename", "File name too long"),
    (40, "FilesystemLoop", "Too many levels of symbolic links"),
    (95, "Unsupported", "Operation not supported"),
    (116, "StaleNetworkFileHandle", "Stale file handle"),
    (122, "QuotaExceeded", "Disk quota exceeded")]

/-- The kind of an error and its description. -/
def describe (e : FileError) : String × String :=
  (descriptions.lookup e.code).getD ("Uncategorized", "Unknown error " ++ toString e.code)

/-- An error of a file with its parts. -/
def text (e : FileError) : String :=
  let (kind, message) := e.describe
  Text.call "IoError" [Text.braced "Os"
    [("code", toString e.code), ("kind", kind), ("message", Text.quote message)]]

end FileError

/-! ## 2. Reading and writing -/

/-- How to read and write files. -/
structure Files (m : Type → Type) where
  read : String → m (Except FileError Bytes)
  write : String → Bytes → m (Except FileError Unit)

end ClassFile.CommandLine
