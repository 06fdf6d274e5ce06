import SessionPool.Fault
import SessionPool.Journal
import SessionPool.Reply

/-!
# What calls write to the journal

A call says what it does by notices.  `Notice.entry` gives each of them its level and its words.
-/

namespace SessionPool

/-- Something that a call has to say. -/
inductive Notice where
  | creatingPool (address : Text) (size : UInt64) (timeout : Int)
  | createdPool (address : Text) (size : UInt64)
  | stockFailed (reason : Text)
  | creationFailed (address reason : Text)
  | clientCreated (id : Text)
  | clientTaken (id : Text) (left : Nat)
  | referenceAdded (id : Text) (count : UInt64)
  | referenceDropped (id : Text) (count : UInt64)
  | discarding (id : Text)
  | clientReturned (id : Text) (left : Nat)
  | acquireTimedOut (timeout : Int) (address : Text)
  | drainedForPing
  | drainedForClose
  | pingFailed (id reason : Text)
  | poolClosed (address : Text)
  | disconnected (id : Text)
  | disconnectFailed (id reason : Text)
  | command (command : Text)
  | commandFailed (id command reason : Text)
  | replied (reply : Reply)
  | closingAnnounced (id reply : Text)
  | leaseReleaseFailed (reason : Text)
  | heartbeatStarted (interval : Int)
  | beat (pinged : Nat)
  | beatFailed (reason : Text)
  | heartbeatStopped
  deriving DecidableEq

namespace Notice

/-- The level of a notice. -/
def level : Notice → Journal.Level
  | command _ | replied _ | beat _ => .trace
  | stockFailed _ | discarding _ | pingFailed _ _ | disconnectFailed _ _ | commandFailed _ _ _
  | closingAnnounced _ _ | beatFailed _ => .warning
  | creationFailed _ _ | leaseReleaseFailed _ => .error
  | poolClosed _ => .info
  | creatingPool _ _ _ | createdPool _ _ | clientCreated _ | clientTaken _ _
  | referenceAdded _ _ | referenceDropped _ _ | clientReturned _ _ | acquireTimedOut _ _
  | drainedForPing | drainedForClose | disconnected _ | heartbeatStarted _
  | heartbeatStopped => .debug

/-- The words of a notice. -/
def words : Notice → Text
  | creatingPool address size timeout =>
    Text.ascii "Creating client pool to " ++ address ++ Text.ascii " with poolSize "
      ++ Text.decimal size.toNat ++ Text.ascii " and poolWaitTimeout " ++ Text.ofInt timeout
  | createdPool address size =>
    Text.ascii "Created client pool to " ++ address ++ Text.ascii " with poolSize "
      ++ Text.decimal size.toNat
  | stockFailed reason => Text.ascii "Failed to pre-create client: " ++ reason
  | creationFailed address reason =>
    Text.ascii "Failed to create client for " ++ address ++ Text.ascii ": " ++ reason
  | clientCreated id =>
    Text.ascii "Created new client with id " ++ Fault.quoted id ++ Text.ascii " (pooled: true)"
  | clientTaken id left =>
    Text.ascii "Took client " ++ Fault.quoted id ++ Text.ascii " from pool, current pool size: "
      ++ Text.decimal left
  | referenceAdded id count =>
    Text.ascii "Reference count for client " ++ Fault.quoted id ++ Text.ascii " increased to "
      ++ Text.decimal count.toNat
  | referenceDropped id count =>
    Text.ascii "Reference count for client " ++ Fault.quoted id ++ Text.ascii " decreased to "
      ++ Text.decimal count.toNat
  | discarding id => Text.ascii "Discarding broken client " ++ Fault.quoted id
  | clientReturned id left =>
    Text.ascii "Returned client " ++ Fault.quoted id ++ Text.ascii " to pool, current pool size: "
      ++ Text.decimal left
  | acquireTimedOut timeout address =>
    Text.ascii "Timed out after " ++ Text.ofInt timeout
      ++ Text.ascii " ms waiting for a client from pool to " ++ address
  | drainedForPing => Text.ascii "Drained pool for keep alive"
  | drainedForClose => Text.ascii "Drained pool for close"
  | pingFailed id reason =>
    Text.ascii "Keep alive failed for client " ++ Fault.quoted id ++ Text.ascii ": " ++ reason
  | poolClosed address => Text.ascii "Client pool to " ++ address ++ Text.ascii " closed"
  | disconnected id => Text.ascii "Disconnected client " ++ Fault.quoted id
  | disconnectFailed id reason =>
    Text.ascii "Failed to disconnect client " ++ Fault.quoted id ++ Text.ascii ": " ++ reason
  | command c => Text.ascii "FTP command: " ++ c
  | commandFailed id c reason =>
    Text.ascii "Client " ++ Fault.quoted id ++ Text.ascii " failed on " ++ Fault.quoted c
      ++ Text.ascii ": " ++ reason
  | replied r =>
    Text.ascii "FTP reply: "
      ++ (if r.repeatsCode then r.text else Text.ofInt r.code ++ Text.ascii " " ++ r.text)
  | closingAnnounced id reply =>
    Text.ascii "Client " ++ Fault.quoted id ++ Text.ascii " received " ++ Fault.quoted reply
      ++ Text.ascii ", connection will be discarded"
  | leaseReleaseFailed reason => Text.ascii "Failed to release client: " ++ reason
  | heartbeatStarted interval =>
    Text.ascii "Keep alive scheduler started with interval " ++ Text.ofInt interval
      ++ Text.ascii " ms"
  | beat pinged =>
    Text.ascii "Keep alive sent to " ++ Text.decimal pinged ++ Text.ascii " idle clients"
  | beatFailed reason => Text.ascii "Keep alive failed: " ++ reason
  | heartbeatStopped => Text.ascii "Client pool closed, stopping keep alive scheduler"

/-- The journal entry of a notice. -/
def entry (n : Notice) : Journal.Entry := ⟨n.level, n.words⟩

end Notice
end SessionPool
