import SessionPool.Client
import SessionPool.Settings
import SessionPool.Translation

/-!
# Pools

A pool owns a bounded number of clients and keeps the idle ones in a queue: the client that became
idle first is lent first.  Clients are owned and queued by key; what a client is doing is recorded
with the client.

Three counters are kept beside the two lists.  `created` counts the slots in use: one for every
owned client and one for every client that is being created.  `outstanding` counts the clients
that are neither idle nor gone: lent, drained for a ping, or being created.  `waiting` counts the
callers that sleep until a client or a slot comes free.  A slot is reserved in both of the first
two counters before the client is created, so that neither the limit nor the drain of a closing
pool can be overtaken.

A pool that is closing lends nothing any more; it is closed when all its clients are gone.
-/

namespace SessionPool

/-- The key of a client. -/
abbrev ClientKey := Nat

/-- A pool. -/
structure Pool where
  connection : Connection
  limits : PoolLimits
  dialect : Dialect := Dialect.standard
  /-- The clients it owns, in the order in which they joined. -/
  members : List ClientKey := []
  /-- The clients ready to be lent, the next one first. -/
  idle : List ClientKey := []
  created : UInt64 := 0
  outstanding : UInt64 := 0
  waiting : UInt64 := 0
  /-- The number of the next client. -/
  nextNumber : UInt64 := 1
  closing : Bool := false
  closed : Bool := false
  deriving DecidableEq, Inhabited

namespace Pool

/-- Where the pool connects to. -/
def address (p : Pool) : Text := p.connection.address

/-- A slot is free. -/
def hasRoom (p : Pool) : Bool := p.created < p.limits.maxClients

/-- A sleeping caller has something to do: the pool is closing, a client is idle or a slot is
free. -/
def isReady (p : Pool) : Bool := p.closing || !p.idle.isEmpty || p.hasRoom

/-- How many clients are created at the start. -/
def initialCount (p : Pool) : UInt64 := min p.limits.initialClients p.limits.maxClients

/-- The name of the next client. -/
def nextId (p : Pool) : Text := Text.ascii "client-" ++ Text.decimal p.nextNumber.toNat

/-- A slot is reserved for a client to be created. -/
def reserve (p : Pool) : Pool :=
  { p with created := p.created + 1, outstanding := p.outstanding + 1 }

/-- A reserved slot is given back. -/
def unreserve (p : Pool) : Pool :=
  { p with created := p.created - 1, outstanding := p.outstanding - 1 }

/-- A new client takes its reserved slot and stays with its borrower. -/
def enroll (p : Pool) (c : ClientKey) : Pool := { p with members := p.members ++ [c] }

/-- A new client takes its reserved slot and is idle. -/
def enrollIdle (p : Pool) (c : ClientKey) : Pool :=
  { p with
    members := p.members ++ [c]
    idle := p.idle ++ [c]
    outstanding := p.outstanding - 1 }

/-- The idle queue loses its front, and that client is out. -/
def takeIdle (p : Pool) (rest : List ClientKey) : Pool :=
  { p with idle := rest, outstanding := p.outstanding + 1 }

/-- A client that was out is back. -/
def giveBack (p : Pool) : Pool := { p with outstanding := p.outstanding - 1 }

/-- A client becomes idle. -/
def pushIdle (p : Pool) (c : ClientKey) : Pool := { p with idle := p.idle ++ [c] }

/-- A client leaves the pool and its slot comes free. -/
def detach (p : Pool) (c : ClientKey) : Pool :=
  { p with members := p.members.erase c, created := p.created - 1 }

/-- All idle clients are taken out at once. -/
def drain (p : Pool) : Pool :=
  { p with idle := [], outstanding := p.outstanding + UInt64.ofNat p.idle.length }

/-- All clients leave a pool that is closing, and all slots with them. -/
def empty (p : Pool) : Pool := { p with idle := [], members := [], created := 0 }

end Pool
end SessionPool
