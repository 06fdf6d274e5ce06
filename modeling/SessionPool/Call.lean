import SessionPool.Notice
import SessionPool.World

/-!
# Calls in progress

Many calls may be in progress at once, and their steps may interleave in any order.  What a call
does between taking the lock of a pool and giving it back happens in one step.  Between two steps a
call stands at a `Point`: it is about to take its next step, or it waits in a window for an answer
from outside, or it sleeps until another call wakes it.

## Windows

Three things take long and are done without the lock: opening a session, running a command on one,
and disconnecting one.  Each is a window.  The step before it says what is asked for
(`Point.request?`); the answer, whatever it is and whenever it comes, starts the next step.
Meanwhile all other calls go on.

## Sleeping

A caller that finds neither a client nor a slot sleeps (`AcquirePoint.asleep`).  A call that frees
one wakes one sleeper, a call that frees many wakes all.  A sleeper that was woken is not running
yet: it stands at `woken` until its next step, in which it looks again and may go back to sleep.  A
sleeper whose patience is over stands at `expired` and looks a last time.  A call that closes a pool
sleeps in the same way until everything is given back, and further calls that want to close it sleep
until the first is done.

## What happens to a result

A call that is a part of something larger has a `Sequel`: what is done with its result when it has
one.
-/

namespace SessionPool

/-- How long a caller is willing to wait for a client, in milliseconds; for ever if that is zero
or less. -/
abbrev Patience := Int

/-! ## Results -/

/-- What a call yields when it succeeds. -/
inductive Yield where
  | done
  | pool (p : PoolKey)
  | client (c : ClientKey)
  | lease (l : LeaseKey)
  | count (n : Nat)
  | reply (r : Reply)
  deriving DecidableEq

/-- How a call ends. -/
inductive Outcome where
  | ok (y : Yield)
  | error (f : Fault)
  deriving DecidableEq

/-! ## Points -/

/-- Where the stocking of a new pool stands. -/
inductive StockPoint where
  /-- It is about to reserve a slot for the next client, or has no more to create. -/
  | reserving
  /-- It waits for a session. -/
  | opening
  /-- It has a new client for the pool. -/
  | arrived (c : ClientKey)
  /-- It got no session. -/
  | refused (f : Fault)
  deriving DecidableEq

/-- Where a caller who wants a client stands. -/
inductive AcquirePoint where
  /-- It is about to look for one. -/
  | seeking
  /-- It has reserved a slot and waits for a session. -/
  | opening
  /-- It has a new client, which the pool does not know yet. -/
  | arrived (c : ClientKey)
  /-- It got no session and is about to give the slot back. -/
  | refused (f : Fault)
  /-- It sleeps. -/
  | asleep
  /-- It has been woken and is about to look again. -/
  | woken
  /-- Its patience is over and it is about to look a last time. -/
  | expired
  deriving DecidableEq

/-- Where the pinging of the idle clients of a pool stands. -/
inductive KeepAlivePoint where
  /-- It is about to take all idle clients out. -/
  | draining
  /-- It has pinged some of them and has others before it, the next one first; if it is `waiting`,
  that one has been pinged and has not answered.  The first failure is kept. -/
  | pinging (waiting : Bool) (pinged todo : List ClientKey) (failure : Option Fault)
  deriving DecidableEq

/-- Where the closing of a pool stands. -/
inductive ClosePoint where
  /-- It is about to begin. -/
  | entering
  /-- It waits until everything is given back, asleep or woken. -/
  | draining (woken : Bool)
  /-- It waits until another call has closed the pool, asleep or woken. -/
  | attending (woken : Bool)
  /-- It has disconnected these clients and is about to mark the pool as closed. -/
  | sealing (shut : List ClientKey)
  /-- It is about to tell the calls that wait for it. -/
  | announcing (shut : List ClientKey)
  deriving DecidableEq

/-- How clients are sent off. -/
inductive Rite where
  /-- They are disconnected, as well as it goes. -/
  | disconnect
  /-- They are destroyed, and disconnected before if that has not happened yet. -/
  | destroy
  deriving DecidableEq

/-- What a call does after it has sent clients off. -/
inductive Afterwards where
  /-- It is finished. -/
  | finish (o : Outcome)
  /-- It destroys these clients and is finished. -/
  | destroy (cs : List ClientKey) (o : Outcome)
  /-- It goes on closing the pool. -/
  | markClosed (p : PoolKey) (cs : List ClientKey)
  deriving DecidableEq

/-- Where a call that has to do with a heartbeat stands. -/
inductive HeartbeatPoint where
  /-- It is about to start the heartbeat. -/
  | starting
  /-- It waits for the old worker, if there is one, before it starts another. -/
  | restarting (old : Option CallKey)
  /-- It is about to ask the heartbeat to stop. -/
  | stopping
  /-- It waits for the worker of a heartbeat that was asked to stop. -/
  | reaping
  /-- It is the worker, between two rounds. -/
  | resting
  deriving DecidableEq

/-- Where a call stands. -/
inductive Point where
  /-- It stocks a new pool and has so many clients still to create. -/
  | stock (p : PoolKey) (left : Nat) (stage : StockPoint)
  /-- It wants a client; if it is `leased`, for a new lease. -/
  | acquire (p : PoolKey) (t : Patience) (leased : Bool) (stage : AcquirePoint)
  /-- It is about to add a reference; if it is `leased`, for a new lease. -/
  | addReference (p : PoolKey) (c : ClientKey) (leased : Bool)
  /-- It is about to give a reference back; if it is `leased`, the one that a lease held. -/
  | release (p : PoolKey) (c : ClientKey) (leased : Bool)
  /-- It pings the idle clients. -/
  | keepAlive (p : PoolKey) (stage : KeepAlivePoint)
  /-- It closes a pool. -/
  | close (p : PoolKey) (stage : ClosePoint)
  /-- It runs a command on a client; as a `ping` it insists on success.  If it is `waiting`, the
  command has been sent. -/
  | exchange (c : ClientKey) (command : Text) (ping waiting : Bool)
  /-- It sends clients off, the next one first; if it is `waiting`, the disconnection of that one
  has been asked for. -/
  | farewell (rite : Rite) (waiting : Bool) (todo : List ClientKey) (next : Afterwards)
  /-- It starts, stops or is the worker of a heartbeat. -/
  | heartbeat (h : HeartbeatKey) (stage : HeartbeatPoint)
  /-- It has a result. -/
  | finished (o : Outcome)
  deriving DecidableEq

/-- What is done with the result of a call. -/
inductive Sequel where
  /-- It is what the caller gets. -/
  | none
  /-- A lease that has been emptied takes over from another, whether the emptying went well or
  not. -/
  | takeOver (target source : LeaseKey)
  /-- A lease was dropped, which always succeeds. -/
  | forgive
  /-- A round of a heartbeat is complete. -/
  | beat (h : HeartbeatKey)
  deriving DecidableEq

/-- A call: where it stands, what becomes of its result, and what it has said so far. -/
structure Call where
  point : Point
  sequel : Sequel := .none
  notices : List Notice := []
  deriving DecidableEq

/-- The call is over and its result is what its caller gets. -/
def Call.outcome? (k : Call) : Option Outcome :=
  match k.point, k.sequel with
  | .finished o, .none => some o
  | _, _ => none

/-- The call is over. -/
def Call.isOver (k : Call) : Bool := k.outcome?.isSome

/-! ## Windows -/

/-- What a call asks of the outside in a window. -/
inductive Request where
  /-- Open a session for this pool. -/
  | openSession (p : PoolKey)
  /-- Run a command on the session of this client. -/
  | send (c : ClientKey) (command : Text)
  /-- Disconnect the session of this client. -/
  | disconnect (c : ClientKey)
  deriving DecidableEq

/-- The answer to the wish for a session. -/
inductive OpenAnswer where
  /-- Here is one, connected or not. -/
  | session (connected : Bool)
  /-- There is none, without a reason. -/
  | nothing
  /-- It failed for this reason. -/
  | failed (reason : Text)
  deriving DecidableEq

/-- The answer to a command. -/
inductive SendAnswer where
  | reply (r : Reply)
  /-- The connection failed. -/
  | lost (reason : Text)
  /-- Something else failed. -/
  | failed (reason : Text)
  deriving DecidableEq

/-- The answer to the wish to disconnect. -/
inductive DisconnectAnswer where
  | done
  /-- It failed, and the connection is as it was. -/
  | failed (reason : Text)
  deriving DecidableEq

/-- An answer from the outside. -/
inductive Answer where
  | opened (a : OpenAnswer)
  | sent (a : SendAnswer)
  | disconnected (a : DisconnectAnswer)
  deriving DecidableEq

/-- The command that pings a client. -/
def pingCommand : Text := Text.ascii "NOOP"

/-- What a call asks for, if it stands in a window. -/
def Point.request? : Point → Option Request
  | .stock p _ .opening => some (.openSession p)
  | .acquire p _ _ .opening => some (.openSession p)
  | .keepAlive _ (.pinging true _ (c :: _) _) => some (.send c pingCommand)
  | .exchange c command _ true => some (.send c command)
  | .farewell _ true (c :: _) _ => some (.disconnect c)
  | _ => none

/-! ## Turns -/

/-- A wake-up that a step sends out. -/
inductive Signal where
  /-- One of the callers who sleep for a client of this pool. -/
  | oneAcquirer (p : PoolKey)
  /-- All of them. -/
  | allAcquirers (p : PoolKey)
  /-- All calls that sleep in the closing of this pool. -/
  | allClosers (p : PoolKey)
  deriving DecidableEq

/-- What one step of a call leads to: the shared state after it, where the call stands then, what
it says, whom it wakes, and where a call stands that it starts. -/
structure Turn where
  world : World
  point : Point
  notices : List Notice := []
  signals : List Signal := []
  started : Option Point := none

/-- A step that changes nothing but the point. -/
def Turn.goto (w : World) (p : Point) : Turn := { world := w, point := p }

/-- A step that ends the call. -/
def Turn.finish (w : World) (o : Outcome) : Turn := { world := w, point := .finished o }

/-- A reference to a client goes to a new lease, or straight to the caller. -/
def World.handOver (w : World) (p : PoolKey) (c : ClientKey) (leased : Bool) : World × Yield :=
  if leased then (w.addLease (some (p, c)), .lease w.leases.length) else (w, .client c)

/-- A step that ends the call with a reference to a client. -/
def Turn.lend (w : World) (p : PoolKey) (c : ClientKey) (leased : Bool) : Turn :=
  let (w, y) := w.handOver p c leased
  .finish w (.ok y)

/-- A step that says more before what it says. -/
def Turn.saying (ns : List Notice) (t : Turn) : Turn := { t with notices := ns ++ t.notices }

end SessionPool
