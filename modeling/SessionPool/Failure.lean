import SessionPool.Errno

/-!
# Failed file operations

A negative reply to a file operation becomes a `FileFailure`: what kind of failure it is, which
operation failed on which path, and the reply itself, kept for diagnosis.  Kinds and operations
travel as numbers in places, so both have a value for a number outside the list; no operation of
this library produces it.
-/

namespace SessionPool

/-! ## Kinds of failure -/

/-- What kind of failure a negative reply stands for. -/
inductive FailureKind where
  | notFound
  | accessDenied
  | directoryNotEmpty
  | alreadyExists
  | ioError
  /-- A number that names no kind. -/
  | unlisted
  deriving DecidableEq, Inhabited

namespace FailureKind

/-- The kind that a number stands for. -/
def ofNumber : Int → FailureKind
  | 0 => notFound
  | 1 => accessDenied
  | 2 => directoryNotEmpty
  | 3 => alreadyExists
  | 4 => ioError
  | _ => unlisted

/-- The name of a kind. -/
def name : FailureKind → String
  | notFound => "NotFound"
  | accessDenied => "AccessDenied"
  | directoryNotEmpty => "DirectoryNotEmpty"
  | alreadyExists => "AlreadyExists"
  | ioError => "IOError"
  | unlisted => "Unknown"

/-- The error number of a kind. -/
def errno : FailureKind → Errno
  | notFound => .noEntry
  | accessDenied => .noAccess
  | directoryNotEmpty => .notEmpty
  | alreadyExists => .alreadyThere
  | ioError => .inputOutput
  | unlisted => .inputOutput

end FailureKind

/-! ## Operations -/

/-- The file operation that a reply answered. -/
inductive FileOperation where
  | getFile
  | changeDirectory
  | createDirectory
  | delete
  | newInputStream
  | newOutputStream
  | copy
  | move
  /-- A number that names no operation. -/
  | unlisted
  deriving DecidableEq, Inhabited

namespace FileOperation

/-- The operation that a number stands for. -/
def ofNumber : Int → FileOperation
  | 0 => getFile
  | 1 => changeDirectory
  | 2 => createDirectory
  | 3 => delete
  | 4 => newInputStream
  | 5 => newOutputStream
  | 6 => copy
  | 7 => move
  | _ => unlisted

/-- The name of an operation. -/
def name : FileOperation → String
  | getFile => "get file"
  | changeDirectory => "change directory"
  | createDirectory => "create directory"
  | delete => "delete"
  | newInputStream => "open input stream"
  | newOutputStream => "open output stream"
  | copy => "copy"
  | move => "move"
  | unlisted => "unknown"

end FileOperation

/-! ## The failure itself -/

/-- A failed file operation.  `other` is the target of a copy or a move and empty otherwise. -/
structure FileFailure where
  kind : FailureKind
  operation : FileOperation
  file : Text
  other : Text
  reply : Reply
  deriving DecidableEq, Inhabited

namespace FileFailure

/-- The text of the reply, as far as it can be reported: up to its first zero byte. -/
def text (f : FileFailure) : Text := f.reply.text.uptoNul

/-- The error number of the failure. -/
def errno (f : FileFailure) : Errno := f.kind.errno

end FileFailure
end SessionPool
