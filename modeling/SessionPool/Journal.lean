import SessionPool.Text

/-!
# The journal

What the library does is written to a journal, one entry a line.  An entry has a level and a text;
the text is complete, nothing is filled in later.
-/

namespace SessionPool
namespace Journal

/-- How important an entry is, from the least to the most; `off` is above every entry and stands
for a journal that is switched off. -/
inductive Level where
  | trace
  | debug
  | info
  | warning
  | error
  | critical
  | off
  deriving DecidableEq, Inhabited

namespace Level

/-- The name of a level. -/
def name : Level → String
  | trace => "trace"
  | debug => "debug"
  | info => "info"
  | warning => "warning"
  | error => "error"
  | critical => "critical"
  | off => "off"

/-- The level that a setting asks for.  A warning has a short name too, and an unknown name asks
for `info`. -/
def ofText (t : Text) : Level :=
  if t = Text.ascii "trace" then trace
  else if t = Text.ascii "debug" then debug
  else if t = Text.ascii "info" then info
  else if t = Text.ascii "warn" ∨ t = Text.ascii "warning" then warning
  else if t = Text.ascii "error" then error
  else if t = Text.ascii "critical" then critical
  else if t = Text.ascii "off" then off
  else info

end Level

/-- One line of the journal. -/
structure Entry where
  level : Level
  text : Text
  deriving DecidableEq, Inhabited

end Journal
end SessionPool
