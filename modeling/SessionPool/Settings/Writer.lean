import SessionPool.Settings.Key

/-!
# Writing a settings file

A file is written section by section and key by key, each on a line of its own.  Texts stand in
double quotes and are otherwise written byte by byte as they are: only the outermost pair of
quotes is ever taken off, and nothing inside a line can end it but a line feed.  Numbers are
written in decimal, switches as `true` and `false`.

In which order the sections stand, and the keys in each, is left to a `Layout`; all that a
complete one has to do is name each once.
-/

namespace SessionPool
namespace Settings

/-! ## Values -/

/-- A text in double quotes. -/
def quoted (t : Text) : Text := Text.ascii "\"" ++ t ++ Text.ascii "\""

/-- A switch as it is written. -/
def onOff (b : Bool) : Text := if b then Text.ascii "true" else Text.ascii "false"

/-- The value of a key as it is written. -/
def written (s : Settings) : Key → Text
  | .host => quoted s.connection.host
  | .port => Text.decimal s.connection.port.toNat
  | .user => quoted s.connection.user
  | .password => quoted s.connection.password
  | .account => quoted s.connection.account
  | .passiveMode => onOff s.connection.passiveMode
  | .connectTimeout => Text.ofInt s.connection.connectTimeout
  | .readTimeout => Text.ofInt s.connection.readTimeout
  | .maxClients => Text.decimal s.pool.maxClients.toNat
  | .acquireTimeout => Text.ofInt s.pool.acquireTimeout
  | .initialClients => Text.decimal s.pool.initialClients.toNat
  | .keepAliveInterval => Text.ofInt s.pool.keepAliveInterval
  | .level => quoted s.journal.level
  | .file => quoted s.journal.file
  | .console => onOff s.journal.console

/-! ## Layouts -/

/-- The sections of a file in the order in which they stand, each with its keys in their order. -/
abbrev Layout := List (Group × List Key)

/-- A layout that has each section once, and in it each key of its group once. -/
structure Layout.IsComplete (layout : Layout) : Prop where
  groups : (layout.map Prod.fst).Perm Group.all
  keys : ∀ part ∈ layout, part.2.Perm (Key.all.filter fun k => k.group = part.1)

/-- The usual layout. -/
def Layout.usual : Layout := Group.all.map fun g => (g, Key.all.filter fun k => k.group = g)

/-! ## Files -/

/-- The line that begins the section of a group. -/
def headerLine (g : Group) : Text := Text.ascii "[" ++ g.name ++ Text.ascii "]"

/-- The line of a key. -/
def keyLine (s : Settings) (k : Key) : Text := k.name ++ Text.ascii " = " ++ s.written k

/-- The lines of a file. -/
def writtenLines (s : Settings) (layout : Layout) : List Text :=
  layout.flatMap fun part => headerLine part.1 :: part.2.map s.keyLine

/-- A file that gives these settings. -/
def toFile (s : Settings) (layout : Layout) : Text :=
  (s.writtenLines layout).flatMap fun l => l ++ [Text.lineFeed]

end Settings
end SessionPool
