import SessionPool.Text

/-!
# Replies of the server

A reply is a code and the text as it was received, code included.  The first digit of the code
says how the command fared: 1 it was accepted and another reply follows, 2 it was done, 3 more is
needed, 4 it failed and may succeed later, 5 it failed for good.
-/

namespace SessionPool

/-- What the server answered to one command. -/
structure Reply where
  code : Int
  text : Text
  deriving DecidableEq, Inhabited

namespace Reply

/-- The hundred that a code belongs to; only 100 to 599 have one. -/
def inHundred (h : Int) (code : Int) : Bool := 100 * h ≤ code && code < 100 * (h + 1)

/-- The command was accepted and another reply follows. -/
def isPositivePreliminary (r : Reply) : Bool := inHundred 1 r.code

/-- The command was carried out. -/
def isPositiveCompletion (r : Reply) : Bool := inHundred 2 r.code

/-- The command was accepted and more information is needed. -/
def isPositiveIntermediate (r : Reply) : Bool := inHundred 3 r.code

/-- The command failed and may succeed later. -/
def isNegativeTransient (r : Reply) : Bool := inHundred 4 r.code

/-- The command failed and will fail again. -/
def isNegativePermanent (r : Reply) : Bool := inHundred 5 r.code

/-- The command failed. -/
def isNegative (r : Reply) : Bool := r.isNegativeTransient || r.isNegativePermanent

/-- The server is closing the control connection. -/
def announcesClosing (r : Reply) : Bool := r.code == 421

/-- The text begins with the code, as servers usually write it. -/
def repeatsCode (r : Reply) : Bool := (Text.ofInt r.code).isPrefixOf r.text

end Reply
end SessionPool
