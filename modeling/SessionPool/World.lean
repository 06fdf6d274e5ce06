import SessionPool.Pool

/-!
# The shared state

Everything that several calls can see: all clients ever made, all pools, all leases, and all
heartbeats that ping a pool at intervals.  Each kind is kept in a list and named by its place in it.
Nothing is ever taken out of these lists, so that a key never changes its meaning; a client that is
gone is marked as destroyed, and a lease that is gone stays empty.

Looking up a key that names nothing gives a default, and changing it changes nothing.  The laws at
the end say what a change of one entry does to the look-up of any other.
-/

namespace SessionPool

/-- The key of a lease. -/
abbrev LeaseKey := Nat

/-- The key of a heartbeat. -/
abbrev HeartbeatKey := Nat

/-- The key of a call. -/
abbrev CallKey := Nat

/-- A lease holds one reference to a client of a pool, or it is empty. -/
abbrev Lease := Option (PoolKey × ClientKey)

/-- A heartbeat pings the idle clients of a pool every `interval` milliseconds, by a worker of its
own.  `worker` is the worker that has been started and not been waited for since, whether it still
runs or not; `rounds` counts the pings that workers have completed, failed ones included. -/
structure Heartbeat where
  pool : PoolKey
  interval : Int
  running : Bool := false
  stopRequested : Bool := false
  rounds : UInt64 := 0
  worker : Option CallKey := none
  deriving DecidableEq, Inhabited

/-- The state that calls share.  `crashed` is the end of the whole program, which comes when a
worker that nobody has waited for is forgotten. -/
structure World where
  clients : List Client := []
  pools : List Pool := []
  leases : List Lease := []
  heartbeats : List Heartbeat := []
  crashed : Bool := false
  deriving DecidableEq, Inhabited

namespace World

/-! ## Looking up -/

/-- The client of a key. -/
def client (w : World) (c : ClientKey) : Client := w.clients[c]?.getD default

/-- The pool of a key. -/
def pool (w : World) (p : PoolKey) : Pool := w.pools[p]?.getD default

/-- The lease of a key. -/
def lease (w : World) (l : LeaseKey) : Lease := w.leases[l]?.getD none

/-- The heartbeat of a key. -/
def heartbeat (w : World) (h : HeartbeatKey) : Heartbeat := w.heartbeats[h]?.getD default

/-- There is a client of this key, and it has not been destroyed. -/
def hasClient (w : World) (c : ClientKey) : Bool :=
  c < w.clients.length && !(w.client c).destroyed

/-- There is such a client, and it was made by hand, so that no pool is in charge of it. -/
def hasHandmade (w : World) (c : ClientKey) : Bool := w.hasClient c && (w.client c).home.isNone

/-- Somebody can have such a client in hand.  Who has ever had it may keep it in hand, with or
without a reference. -/
def isInHand (w : World) (c : ClientKey) : Bool := w.hasClient c && (w.client c).wasHeld

/-- The name of a client. -/
def idOf (w : World) (c : ClientKey) : Text := (w.client c).id

/-! ## Changing -/

/-- A client is changed. -/
def onClient (w : World) (c : ClientKey) (f : Client → Client) : World :=
  { w with clients := w.clients.modify c f }

/-- A pool is changed. -/
def onPool (w : World) (p : PoolKey) (f : Pool → Pool) : World :=
  { w with pools := w.pools.modify p f }

/-- A heartbeat is changed. -/
def onHeartbeat (w : World) (h : HeartbeatKey) (f : Heartbeat → Heartbeat) : World :=
  { w with heartbeats := w.heartbeats.modify h f }

/-- A lease is filled or emptied. -/
def setLease (w : World) (l : LeaseKey) (value : Lease) : World :=
  { w with leases := w.leases.set l value }

/-! ## Adding -/

/-- A client is added; its key is the number of clients before. -/
def addClient (w : World) (c : Client) : World := { w with clients := w.clients ++ [c] }

/-- A pool is added; its key is the number of pools before. -/
def addPool (w : World) (p : Pool) : World := { w with pools := w.pools ++ [p] }

/-- A lease is added; its key is the number of leases before. -/
def addLease (w : World) (l : Lease) : World := { w with leases := w.leases ++ [l] }

/-- A heartbeat is added; its key is the number of heartbeats before. -/
def addHeartbeat (w : World) (h : Heartbeat) : World :=
  { w with heartbeats := w.heartbeats ++ [h] }

/-! ## Laws -/

variable (w : World)

@[simp] theorem pool_onClient (p : PoolKey) (c : ClientKey) (f : Client → Client) :
    (w.onClient c f).pool p = w.pool p := rfl

@[simp] theorem client_onPool (c : ClientKey) (p : PoolKey) (f : Pool → Pool) :
    (w.onPool p f).client c = w.client c := rfl

@[simp] theorem pool_onHeartbeat (p : PoolKey) (h : HeartbeatKey) (f : Heartbeat → Heartbeat) :
    (w.onHeartbeat h f).pool p = w.pool p := rfl

@[simp] theorem client_onHeartbeat (c : ClientKey) (h : HeartbeatKey)
    (f : Heartbeat → Heartbeat) : (w.onHeartbeat h f).client c = w.client c := rfl

@[simp] theorem lease_onHeartbeat (l : LeaseKey) (h : HeartbeatKey)
    (f : Heartbeat → Heartbeat) : (w.onHeartbeat h f).lease l = w.lease l := rfl

@[simp] theorem heartbeat_onClient (h : HeartbeatKey) (c : ClientKey) (f : Client → Client) :
    (w.onClient c f).heartbeat h = w.heartbeat h := rfl

@[simp] theorem heartbeat_onPool (h : HeartbeatKey) (p : PoolKey) (f : Pool → Pool) :
    (w.onPool p f).heartbeat h = w.heartbeat h := rfl

@[simp] theorem lease_onClient (l : LeaseKey) (c : ClientKey) (f : Client → Client) :
    (w.onClient c f).lease l = w.lease l := rfl

@[simp] theorem lease_onPool (l : LeaseKey) (p : PoolKey) (f : Pool → Pool) :
    (w.onPool p f).lease l = w.lease l := rfl

@[simp] theorem client_setLease (c : ClientKey) (l : LeaseKey) (v : Lease) :
    (w.setLease l v).client c = w.client c := rfl

@[simp] theorem pool_setLease (p : PoolKey) (l : LeaseKey) (v : Lease) :
    (w.setLease l v).pool p = w.pool p := rfl

/-- A change of another client is not seen. -/
theorem client_onClient_of_ne {c d : ClientKey} (h : d ≠ c) (f : Client → Client) :
    (w.onClient c f).client d = w.client d := by
  simp [client, onClient, Ne.symm h]

/-- A change of a client is seen. -/
theorem client_onClient {c : ClientKey} (h : c < w.clients.length) (f : Client → Client) :
    (w.onClient c f).client c = f (w.client c) := by
  unfold client onClient
  rw [List.getElem?_modify_eq, List.getElem?_eq_getElem h]
  rfl

/-- A change of another pool is not seen. -/
theorem pool_onPool_of_ne {p q : PoolKey} (h : q ≠ p) (f : Pool → Pool) :
    (w.onPool p f).pool q = w.pool q := by
  simp [pool, onPool, Ne.symm h]

/-- A change of a pool is seen. -/
theorem pool_onPool {p : PoolKey} (h : p < w.pools.length) (f : Pool → Pool) :
    (w.onPool p f).pool p = f (w.pool p) := by
  unfold pool onPool
  rw [List.getElem?_modify_eq, List.getElem?_eq_getElem h]
  rfl

end World
end SessionPool
