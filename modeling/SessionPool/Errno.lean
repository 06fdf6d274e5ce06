import SessionPool.Reply

/-!
# Error numbers and plain words for reply codes

A collaborator that speaks to an operating system needs an error number instead of a reply code.
The numbers are those of Linux.  `Errno.ofReply` gives none for a code that is no failure;
`replySummary` puts a code into words.
-/

namespace SessionPool

/-- The error numbers that a reply or a failed file operation can turn into, and those that are
published beside them. -/
inductive Errno where
  | noEntry
  | inputOutput
  | noAccess
  | busy
  | alreadyThere
  | invalid
  | noSpace
  | notImplemented
  | notEmpty
  | timedOut
  deriving DecidableEq

namespace Errno

/-- The number on Linux. -/
def number : Errno → Int
  | noEntry => 2
  | inputOutput => 5
  | noAccess => 13
  | busy => 16
  | alreadyThere => 17
  | invalid => 22
  | noSpace => 28
  | notImplemented => 38
  | notEmpty => 39
  | timedOut => 110

/-- The number that stands for success or for one of the errors. -/
def numberOf (e : Option Errno) : Int := e.elim 0 number

/-- The error number of a reply code, or none if the code is 0 or below 400 and positive. -/
def ofReply (code : Int) : Option Errno :=
  match code with
  | 0 => none
  | 421 | 425 | 426 | 451 => some inputOutput
  | 450 => some busy
  | 452 | 552 => some noSpace
  | 500 | 501 | 503 | 553 => some invalid
  | 502 | 504 => some notImplemented
  | 521 => some alreadyThere
  | 530 | 532 => some noAccess
  | 550 | 551 => some noEntry
  | code => if 0 < code && code < 400 then none else some inputOutput

/-- The constants that file system code returns: success, then nine errors, negated. -/
def published : List Int :=
  [0, -noEntry.number, -noAccess.number, -inputOutput.number, -invalid.number, -alreadyThere.number,
    -notEmpty.number, -timedOut.number, -noSpace.number, -busy.number]

end Errno

/-- A failure of this code may go away by itself. -/
def isTransientCode (code : Int) : Bool := Reply.inHundred 4 code

/-- The code says that the control connection is gone or cannot be used. -/
def isConnectionCode (code : Int) : Bool := code == 421 || code == 425 || code == 426

/-- A reply code in plain words; a code without words of its own is given as a number. -/
def replySummary (code : Int) : Text :=
  match code with
  | 0 => Text.ascii "Success"
  | 421 => Text.ascii "Service not available, closing control connection"
  | 425 => Text.ascii "Can't open data connection"
  | 426 => Text.ascii "Connection closed; transfer aborted"
  | 450 => Text.ascii "File unavailable (busy)"
  | 452 => Text.ascii "Insufficient storage space"
  | 500 => Text.ascii "Syntax error, command unrecognized"
  | 530 => Text.ascii "Not logged in"
  | 550 => Text.ascii "File unavailable"
  | 552 => Text.ascii "Exceeded storage allocation"
  | 553 => Text.ascii "File name not allowed"
  | code => Text.ascii "FTP reply " ++ Text.ofInt code

end SessionPool
