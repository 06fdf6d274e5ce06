import SessionPool.Operation

/-!
# Rehearsals

A rehearsal plays a list of steps against a server that follows a script.  Each step is one
operation, and each names what it acts on.  The script says what the server does the next time a
session is opened, a command arrives or a session is disconnected, and may hold steps of its own
that are played in the middle of that, while the call that asked for it waits.  So a rehearsal can
put any operation inside any window of another.

This module has the steps and the script, and the answers that a rehearsal gives.
-/

namespace SessionPool
namespace Rehearsal

/-! ## The script of the server -/

/-- How a scripted command comes out. -/
inductive ReplyOutcome where
  /-- As a good server would answer. -/
  | usual
  | reply (r : Reply)
  | transportError (message : Text)
  | error (message : Text)
  deriving DecidableEq, Inhabited

/-- What happens at a command: steps that are played first, whether the connection is lost then,
and how the command comes out. -/
structure ReplyItem (σ : Type) where
  during : List σ := []
  drop : Bool := false
  outcome : ReplyOutcome := .usual

/-- What happens at a disconnection: steps that are played first, and why it fails, if it does. -/
structure DisconnectItem (σ : Type) where
  during : List σ := []
  error : Option Text := none

/-- The part of the script for one session. -/
structure SessionScript (σ : Type) where
  replies : List (ReplyItem σ) := []
  disconnects : List (DisconnectItem σ) := []

/-- How the opening of a session comes out. -/
inductive OpenOutcome where
  | session (connected : Bool)
  /-- It fails for this reason. -/
  | failed (message : Text)
  /-- The login is refused. -/
  | loginRefused
  /-- There is no session and no reason. -/
  | nothing
  deriving DecidableEq, Inhabited

/-- What happens at the opening of a session: steps that are played first, how it comes out, and the
script of the new session. -/
structure OpenItem (σ : Type) where
  during : List σ := []
  outcome : OpenOutcome := .session true
  script : SessionScript σ := {}

/-! ## Steps -/

/-- One step of a rehearsal.  Pools, clients, leases and heartbeats go by the names that earlier
steps gave them. -/
inductive Step where
  | newPool (name : Text) (connection : Connection) (limits : PoolLimits) (factory : Bool)
      (dialect : Dialect)
  | poolInfo (pool : Text)
  | destroyPool (pool : Text)
  | acquire (pool name : Text) (timeout : Option Int)
  | lease (pool name : Text) (timeout : Option Int)
  | close (pool name : Text)
  | keepAlive (pool : Text)
  | addReference (pool client : Text)
  | release (pool client : Text)
  | execute (client command : Text)
  | markBroken (client : Text)
  | setState (client : Text) (state : Option Lifecycle)
  | clientInfo (client : Text)
  | script (client : Text) (more : SessionScript Step) (connected : Option Bool)
  | scriptOpenings (items : List (OpenItem Step))
  | newClient (name id : Text) (session : Option Bool) (script : SessionScript Step)
  | destroyClient (client : Text)
  | pingClient (client : Text)
  | disconnectClient (client : Text)
  | addClientReference (client : Text)
  | dropClientReference (client : Text)
  | setClientReferences (client : Text) (count : UInt64)
  | newLease (name : Text)
  | shareLease (lease name : Text)
  | moveLease (lease name : Text)
  | assignLease (target source : Text)
  | releaseLease (lease : Text)
  | leaseInfo (lease : Text)
  | dropLease (lease : Text)
  | leaseClient (lease name : Text)
  | translate (pool : Text) (attempt : Option Attempt) (reply : Reply)
  | newHeartbeat (name pool : Text) (interval : Option Int)
  | heartbeatInfo (heartbeat : Text)
  | startHeartbeat (heartbeat : Text)
  | stopHeartbeat (heartbeat : Text)
  | runHeartbeat (heartbeat : Text) (rounds : Nat)
  | destroyHeartbeat (heartbeat : Text)
  /-- A step that nobody knows. -/
  | unknown

instance : Inhabited Step := ⟨.unknown⟩

instance {σ : Type} : Inhabited (ReplyItem σ) := ⟨{}⟩

instance {σ : Type} : Inhabited (DisconnectItem σ) := ⟨{}⟩

instance {σ : Type} : Inhabited (SessionScript σ) := ⟨{}⟩

instance {σ : Type} : Inhabited (OpenItem σ) := ⟨{}⟩

/-! ## Answers -/

/-- Why a step is not even tried. -/
inductive Refusal where
  | badRequest
  | noPool
  | noHandle
  | gone
  | nameTaken
  | inUse
  | unsupported
  deriving DecidableEq

/-- A client as it is shown. -/
structure ClientView where
  id : Text
  state : Lifecycle
  references : UInt64

/-- A heartbeat as it is shown. -/
structure HeartbeatView where
  interval : Int
  running : Bool
  rounds : UInt64

/-- A pool as it is shown after every step. -/
structure PoolView where
  available : Nat
  total : UInt64
  busy : Nat
  waiting : UInt64
  closed : Bool
  clients : List ClientView

/-- The server after a step: how many sessions were ever opened, are still connected, and belong to
clients that have been destroyed. -/
structure ServerView where
  opened : Nat
  connected : Nat
  destroyed : Nat

/-- A piece of a call's log: an entry of the journal, or the answers of steps that were played in
the middle of the call. -/
inductive LogItem (σ : Type) where
  | entry (e : Journal.Entry)
  | during (answers : List σ)

/-- What a step yields. -/
inductive Value (σ : Type) where
  | done
  | client (c : Option ClientView)
  | count (n : Nat)
  | reply (r : Reply)
  | pool (connection : Connection) (limits : PoolLimits)
  | clientInfo (c : ClientView) (serial : Nat)
  | assigned (target source : Option ClientView)
  | heartbeat (h : HeartbeatView)
  | rounds (h : HeartbeatView) (log : List (LogItem σ))
  | failure (f : FileFailure)

/-- How a step came out. -/
inductive Report (σ : Type) where
  | ok (v : Value σ)
  | fault (f : Fault)
  | refused (r : Refusal)
  /-- The step's call sleeps. -/
  | blocked

/-- A call that had been asleep and has ended. -/
structure Ended (σ : Type) where
  name : Text
  report : Report σ
  log : List (LogItem σ)

/-- The answer to a step: how it came out, what its call wrote, which sleeping calls have ended, and
what the pools and the server look like now. -/
inductive StepAnswer where
  | mk (report : Report StepAnswer) (log : List (LogItem StepAnswer))
      (ended : List (Ended StepAnswer)) (pools : List (Text × PoolView)) (server : ServerView)

/-- A session as it is shown at the end. -/
structure SessionView where
  serial : Nat
  connected : Bool
  destroyed : Bool
  disconnects : Nat
  commands : List Text

/-- The answer to a whole rehearsal. -/
structure Answers where
  steps : List StepAnswer
  sessions : List SessionView

end Rehearsal
end SessionPool
