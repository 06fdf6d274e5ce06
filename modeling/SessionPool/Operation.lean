import SessionPool.Call.Close
import SessionPool.Call.Heartbeat

/-!
# Operations

What can be asked of pools, clients, leases and heartbeats.  `Operation.enter` says how a call for
an operation begins: what it changes at once, at which point it stands, and what becomes of its
result.

A lease is a reference with an owner.  Sharing a lease makes a second one with a reference of its
own; moving one hands its reference on; assigning one to another first gives back what the other
held.  Dropping a lease gives its reference back and never fails.  A lease that gives its reference
back is empty at once, while the reference is still on its way.
-/

namespace SessionPool

/-- Something that can be asked for and that takes steps of its own. -/
inductive Operation where
  /-- Make a pool, and stock it. -/
  | construct (connection : Connection) (limits : PoolLimits) (factory : Bool) (dialect : Dialect)
  | acquire (p : PoolKey) (t : Patience)
  /-- Borrow a client for a new lease. -/
  | lease (p : PoolKey) (t : Patience)
  | addReference (p : PoolKey) (c : ClientKey)
  | release (p : PoolKey) (c : ClientKey)
  | keepAlive (p : PoolKey)
  | close (p : PoolKey)
  | execute (c : ClientKey) (command : Text)
  /-- Ping a client that was made by hand. -/
  | ping (c : ClientKey)
  /-- Disconnect one. -/
  | disconnect (c : ClientKey)
  /-- Destroy one. -/
  | destroy (c : ClientKey)
  /-- Add a reference for a new lease. -/
  | shareLease (l : LeaseKey)
  | releaseLease (l : LeaseKey)
  | assignLease (target source : LeaseKey)
  | dropLease (l : LeaseKey)
  | startHeartbeat (h : HeartbeatKey)
  | stopHeartbeat (h : HeartbeatKey)
  deriving DecidableEq

/-- How a call begins. -/
structure Entrance where
  world : World
  point : Point
  sequel : Sequel := .none
  notices : List Notice := []

namespace Operation

/-- Makes a pool, if it can be made. -/
def make (w : World) (connection : Connection) (limits : PoolLimits) (factory : Bool)
    (dialect : Dialect) : Entrance :=
  if limits.maxClients = 0 then { world := w, point := .finished (.error .noClients) }
  else if ¬ factory then { world := w, point := .finished (.error .noFactory) }
  else
    let pool : Pool := { connection, limits, dialect }
    { world := w.addPool pool
      point := .stock w.pools.length pool.initialCount.toNat .reserving
      notices := [.creatingPool pool.address limits.maxClients limits.acquireTimeout] }

/-- A lease gives its reference back; an empty one has nothing to give back. -/
def giveUp (w : World) (l : LeaseKey) (s : Sequel) : Entrance :=
  match w.lease l with
  | none => { world := w, point := .finished (.ok .done), sequel := s }
  | some (p, c) => { world := w.setLease l none, point := .release p c true, sequel := s }

/-- How a call for an operation begins. -/
def enter (w : World) : Operation → Entrance
  | .construct connection limits factory dialect => make w connection limits factory dialect
  | .acquire p t => { world := w, point := .acquire p t false .seeking }
  | .lease p t => { world := w, point := .acquire p t true .seeking }
  | .addReference p c => { world := w, point := .addReference p c false }
  | .release p c => { world := w, point := .release p c false }
  | .keepAlive p => { world := w, point := .keepAlive p .draining }
  | .close p => { world := w, point := .close p .entering }
  | .execute c command => { world := w, point := .exchange c command false false }
  | .ping c => { world := w, point := .exchange c pingCommand true false }
  | .disconnect c =>
    { world := w, point := .farewell .disconnect false [c] (.finish (.ok .done)) }
  | .destroy c => { world := w, point := .farewell .destroy false [c] (.finish (.ok .done)) }
  | .shareLease l =>
    match w.lease l with
    | none => { world := w, point := .finished (.error .emptyLease) }
    | some (p, c) => { world := w, point := .addReference p c true }
  | .releaseLease l => giveUp w l .none
  | .assignLease target source =>
    if target = source then { world := w, point := .finished (.ok .done) }
    else giveUp w target (.takeOver target source)
  | .dropLease l => giveUp w l .forgive
  | .startHeartbeat h => { world := w, point := .heartbeat h .starting }
  | .stopHeartbeat h => { world := w, point := .heartbeat h .stopping }

end Operation
end SessionPool
