import SessionPool.Failure
import SessionPool.Pattern

/-!
# From replies to failures

The reply code is coarse: 550 covers a missing file, a forbidden one and a directory that is not
empty.  So a failure is classified by the wording of the reply first and by its code second.

* `Attempt` is what was tried, with the facts that only some operations have: whether a directory
  was to be deleted, with which options a stream was to be opened, where a copy was to go.
* `Wording` says, for each of four failures, which texts speak of it.  `Dialect` gives the wording
  by searches for patterns, and `Dialect.standard` is the usual one.
* `classify` is the decision, and `translate` the whole failure.
* `Translator` has one function for each operation, so that a caller can replace any of them;
  `Translator.ofWording` is the translator that `translate` describes.
-/

namespace SessionPool

/-! ## What was tried -/

/-- How a stream is to be opened. -/
inductive OpenOption where
  | read
  | write
  | append
  | create
  | createNew
  | truncateExisting
  deriving DecidableEq, Inhabited

/-- A file operation that was tried, with its operands. -/
inductive Attempt where
  | getFile (path : Text)
  | changeDirectory (path : Text)
  | createDirectory (path : Text)
  | delete (path : Text) (isDirectory : Bool)
  | newInputStream (path : Text)
  | newOutputStream (path : Text) (options : List OpenOption)
  | copy (source target : Text)
  | move (source target : Text)
  deriving DecidableEq, Inhabited

namespace Attempt

/-- Which operation it is. -/
def operation : Attempt → FileOperation
  | getFile _ => .getFile
  | changeDirectory _ => .changeDirectory
  | createDirectory _ => .createDirectory
  | delete _ _ => .delete
  | newInputStream _ => .newInputStream
  | newOutputStream _ _ => .newOutputStream
  | copy _ _ => .copy
  | move _ _ => .move

/-- The path that it is about. -/
def file : Attempt → Text
  | getFile p | changeDirectory p | createDirectory p | delete p _ | newInputStream p
  | newOutputStream p _ => p
  | copy s _ | move s _ => s

/-- The target of a copy or a move, and nothing otherwise. -/
def target : Attempt → Text
  | copy _ t | move _ t => t
  | _ => []

/-- A directory was to be deleted. -/
def deletesDirectory : Attempt → Bool
  | delete _ isDirectory => isDirectory
  | _ => false

/-- Something was to come into being that must not be there yet. -/
def needsNewName : Attempt → Bool
  | createDirectory _ | copy _ _ | move _ _ => true
  | newOutputStream _ options => options.contains .createNew
  | _ => false

/-- A directory was to be created. -/
def createsDirectory : Attempt → Bool
  | createDirectory _ => true
  | _ => false

/-- What it is about had to be there: all but the creation of a directory, and of a stream that may
create its file. -/
def needsExisting : Attempt → Bool
  | createDirectory _ => false
  | newOutputStream _ options => !(options.contains .createNew || options.contains .create)
  | _ => true

end Attempt

/-! ## How servers word it -/

/-- Which texts speak of which failure. -/
structure Wording where
  notFound : Text → Bool
  accessDenied : Text → Bool
  alreadyExists : Text → Bool
  directoryNotEmpty : Text → Bool

/-- The searches that recognise the failures in the texts of one kind of server. -/
structure Dialect where
  notFound : Search
  accessDenied : Search
  alreadyExists : Search
  directoryNotEmpty : Search
  deriving DecidableEq, Inhabited

namespace Dialect

/-- The wording that a dialect recognises. -/
def wording (d : Dialect) : Wording where
  notFound := d.notFound.finds
  accessDenied := d.accessDenied.finds
  alreadyExists := d.alreadyExists.finds
  directoryNotEmpty := d.directoryNotEmpty.finds

/-- The usual phrases, in any case. -/
def standard : Dialect where
  notFound := Search.ofText
    (Text.ascii "no such (file|directory)|not found|does not exist|can'?not find|can't find") true
  accessDenied := Search.ofText
    (Text.ascii "permission denied|access (is )?denied|not permitted|insufficient privileges") true
  alreadyExists := Search.ofText (Text.ascii "already exists|file exists") true
  directoryNotEmpty := Search.ofText (Text.ascii "not empty") true

end Dialect

/-! ## The decision -/

/-- The codes that mean missing rights whatever the text. -/
def isRightsCode (code : Int) : Bool := code == 530 || code == 532

/-- The codes for a file that is not available. -/
def isUnavailableCode (code : Int) : Bool := code == 450 || code == 550

/-- The kind of a failure.  The first of these that applies decides: a directory to be deleted is
not empty; rights are missing; the new name is taken; the text or the code says that something is
missing; nothing of the kind. -/
def classify (w : Wording) (a : Attempt) (r : Reply) : FailureKind :=
  if a.deletesDirectory && w.directoryNotEmpty r.text then .directoryNotEmpty
  else if w.accessDenied r.text || isRightsCode r.code then .accessDenied
  else if a.needsNewName && w.alreadyExists r.text then .alreadyExists
  else if a.createsDirectory && r.code == 521 then .alreadyExists
  else if w.notFound r.text then .notFound
  else if isUnavailableCode r.code && a.needsExisting then .notFound
  else .ioError

/-- The failure that a negative reply to an attempt stands for. -/
def translate (w : Wording) (a : Attempt) (r : Reply) : FileFailure where
  kind := classify w a r
  operation := a.operation
  file := a.file
  other := a.target
  reply := r

/-! ## Replaceable translators -/

/-- One translation for each operation. -/
structure Translator where
  getFile : Text → Reply → FileFailure
  changeDirectory : Text → Reply → FileFailure
  createDirectory : Text → Reply → FileFailure
  delete : Text → Bool → Reply → FileFailure
  newInputStream : Text → Reply → FileFailure
  newOutputStream : Text → List OpenOption → Reply → FileFailure
  copy : Text → Text → Reply → FileFailure
  move : Text → Text → Reply → FileFailure

namespace Translator

/-- The translator whose members all go by one wording. -/
def ofWording (w : Wording) : Translator where
  getFile p := translate w (.getFile p)
  changeDirectory p := translate w (.changeDirectory p)
  createDirectory p := translate w (.createDirectory p)
  delete p d := translate w (.delete p d)
  newInputStream p := translate w (.newInputStream p)
  newOutputStream p o := translate w (.newOutputStream p o)
  copy s t := translate w (.copy s t)
  move s t := translate w (.move s t)

/-- The translation of an attempt by the member for its operation. -/
def apply (t : Translator) : Attempt → Reply → FileFailure
  | .getFile p => t.getFile p
  | .changeDirectory p => t.changeDirectory p
  | .createDirectory p => t.createDirectory p
  | .delete p d => t.delete p d
  | .newInputStream p => t.newInputStream p
  | .newOutputStream p o => t.newOutputStream p o
  | .copy s d => t.copy s d
  | .move s d => t.move s d

end Translator
end SessionPool
