import SessionPool.Settings.Key

/-!
# Reading a settings file

A file is read line by line.  A line is, after trimming, one of four things: nothing (empty, or a
remark behind `#` or `;`), the header of a section in square brackets, an assignment with an equals
sign, or something else, which is passed over like nothing.  An assignment belongs to the section of
the nearest header before it.

* `Line.ofText` says which of the four a line is;
* `Reader.line` takes one line, `Reader.file` all of them;
* a refused value leaves the settings as they were and adds one `Warning`, with the number of its
  line.

Sections and keys that nobody knows are passed over without a word.
-/

namespace SessionPool
namespace Settings

/-! ## Lines -/

/-- What a line of a settings file says. -/
inductive Line where
  /-- Nothing: it is empty, or a remark. -/
  | nothing
  /-- From here on the section of this name. -/
  | header (name : Text)
  /-- This value for this key. -/
  | assignment (key value : Text)
  /-- Neither of these. -/
  | other
  deriving DecidableEq, Inhabited

/-- The sign between a key and its value. -/
def equalsSign : UInt8 := 61

/-- A line that only remarks something begins with a number sign or a semicolon. -/
def isRemark (line : Text) : Bool := line.head? == some 35 || line.head? == some 59

/-- A header stands in square brackets. -/
def isHeader (line : Text) : Bool := line.head? == some 91 && line.getLast? == some 93

/-- What a line says. -/
def Line.ofText (line : Text) : Line :=
  let line := line.trim
  if line.isEmpty || isRemark line then nothing
  else if isHeader line then header (line.drop 1).dropLast
  else if line.contains equalsSign then
    assignment (Text.trim (line.takeWhile (· ≠ equalsSign)))
      (Text.unquote (Text.trim ((line.dropWhile (· ≠ equalsSign)).drop 1)))
  else other

/-! ## Refused values -/

/-- A value that was refused: on which line, for which key, and why. -/
structure Warning where
  line : Nat
  key : Text
  value : Text
  refusal : Refusal
  deriving DecidableEq

/-- What the journal says about a refused value in the file of this name. -/
def Warning.entry (path : Text) (w : Warning) : Journal.Entry :=
  ⟨.warning, path ++ Text.ascii ":" ++ Text.decimal w.line
    ++ Text.ascii ": ignoring invalid value '" ++ w.value
    ++ Text.ascii "' for '" ++ w.key ++ Text.ascii "': " ++ w.refusal.message⟩

/-! ## The file -/

/-- What has been read so far: in which section we are, how many lines were read, the settings, and
the refused values in order. -/
structure Reader where
  current : Text := []
  count : Nat := 0
  settings : Settings := {}
  warnings : List Warning := []

namespace Reader

/-- Stores a value under a key of the current section. -/
def store (r : Reader) (keyName value : Text) : Reader :=
  match Key.find? r.current keyName with
  | none => r
  | some k =>
    match k.assign value r.settings with
    | .ok settings => { r with settings }
    | .error refusal => { r with warnings := r.warnings ++ [⟨r.count, keyName, value, refusal⟩] }

/-- Takes what one line says. -/
def take (r : Reader) : Line → Reader
  | .nothing => r
  | .header name => { r with current := name }
  | .assignment key value => r.store key value
  | .other => r

/-- Takes one line. -/
def line (r : Reader) (l : Text) : Reader := take { r with count := r.count + 1 } (Line.ofText l)

/-- Takes the lines of a file. -/
def file (content : Text) : Reader := (Text.lines content).foldl line {}

end Reader

/-- The settings that a file gives. -/
def ofFile (content : Text) : Settings := (Reader.file content).settings

/-- What the journal says while the file of this name is read. -/
def fileEntries (path content : Text) : List Journal.Entry :=
  (Reader.file content).warnings.map (Warning.entry path)

/-! ## Paths

A path is taken up to its first zero byte.  The current directory, the one above it and so on can
be opened like a file, and there is nothing in them.  Nothing can be opened under an empty path, or
under one that is too long as a whole or in one of its parts. -/

/-- How many bytes a path may have. -/
def longestPath : Nat := 4095

/-- How many bytes a part of a path may have. -/
def longestName : Nat := 255

/-- A byte before the parts of a path: a slash ends a part, any other byte joins the first one. -/
def beforeParts (b : UInt8) (parts : List Text) : List Text :=
  match parts with
  | [] => [[b]]
  | p :: ps => if b = 47 then [] :: p :: ps else (b :: p) :: ps

/-- The parts of a path between its slashes. -/
def pathParts (path : Text) : List Text := path.foldr beforeParts [[]]

/-- Something could have this path. -/
def isPath (path : Text) : Bool :=
  !path.isEmpty && path.length ≤ longestPath && (pathParts path).all (·.length ≤ longestName)

/-- A part of a path that stays in a directory or climbs to the one above. -/
def isStep (p : Text) : Bool := p.isEmpty || p = Text.ascii "." || p = Text.ascii ".."

/-- What can be read from a path: nothing from a directory above, and from a file in such a
directory what is stored there, if anything is.  There are no other directories. -/
def readable (path : Text) (stored : Option Text) : Option Text :=
  let path := path.uptoNul
  if !isPath path then none
  else if (pathParts path).all isStep then some []
  else if (pathParts path).dropLast.all isStep then stored
  else none

end Settings
end SessionPool
