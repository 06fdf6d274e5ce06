import SessionPool.Client

/-!
# Faults of calls

What can go wrong in a call to a pool, a client or a lease, as causes.  `Fault.message` puts a
fault into words, and `Fault.kind` sorts the faults by what a caller may do about them.
-/

namespace SessionPool

/-- What went wrong in a call. -/
inductive Fault where
  /-- A pool is asked to hold no clients at all. -/
  | noClients
  /-- A pool has nobody who opens sessions. -/
  | noFactory
  /-- A client is made without a session. -/
  | noSession
  /-- The pool is closing or closed. -/
  | poolClosed (address : Text)
  /-- No client came free in time. -/
  | timedOut (address : Text)
  /-- No session could be opened. -/
  | notCreated (address cause : Text)
  /-- The connection failed. -/
  | transport (message : Text)
  /-- A ping was answered, but not well. -/
  | pingRefused (id reply : Text)
  /-- A session failed in a way that says nothing about its connection. -/
  | unforeseen (message : Text)
  /-- The client belongs to someone else. -/
  | foreign (id : Text)
  /-- The client is not busy and cannot be shared. -/
  | notBusy (id : Text) (state : Lifecycle)
  /-- The client has no references. -/
  | notBorrowed (id : Text)
  /-- There is nothing in the lease to share. -/
  | emptyLease
  deriving DecidableEq

/-- The sorts of faults that a caller can tell apart. -/
inductive FaultKind where
  | poolTimeout
  | poolClosed
  | clientCreation
  | transport
  | invalidArgument
  | misuse
  | other
  deriving DecidableEq

namespace Fault

/-- What a caller may do about a fault. -/
def kind : Fault → FaultKind
  | noClients | noFactory | noSession => .invalidArgument
  | poolClosed _ => .poolClosed
  | timedOut _ => .poolTimeout
  | notCreated _ _ => .clientCreation
  | transport _ | pingRefused _ _ => .transport
  | unforeseen _ => .other
  | foreign _ | notBusy _ _ | notBorrowed _ | emptyLease => .misuse

/-- A client's name in quotes. -/
def quoted (id : Text) : Text := Text.ascii "'" ++ id ++ Text.ascii "'"

/-- A fault in words, at full length. -/
def words : Fault → Text
  | noClients => Text.ascii "Client pool size must be at least 1"
  | noFactory => Text.ascii "Client pool requires a client factory"
  | noSession => Text.ascii "PooledClient requires a session"
  | poolClosed address => Text.ascii "Client pool to " ++ address ++ Text.ascii " is closed"
  | timedOut address => Text.ascii "Timeout waiting for a client from pool to " ++ address
  | notCreated address cause =>
    Text.ascii "Failed to create client for " ++ address ++ Text.ascii ": " ++ cause
  | transport message => message
  | pingRefused id reply =>
    Text.ascii "Keep alive failed for client " ++ quoted id ++ Text.ascii ": " ++ reply
  | unforeseen message => message
  | foreign id =>
    Text.ascii "Client " ++ quoted id ++ Text.ascii " does not belong to this pool"
  | notBusy id state =>
    Text.ascii "Client " ++ quoted id ++ Text.ascii " is " ++ Text.ascii state.name
      ++ Text.ascii ", not busy"
  | notBorrowed id => Text.ascii "Client " ++ quoted id ++ Text.ascii " is not borrowed"
  | emptyLease => Text.ascii "Cannot share an empty lease"

/-- A fault in words, as far as a zero-terminated text can hold them. -/
def message (f : Fault) : Text := f.words.uptoNul

end Fault
end SessionPool
