import SessionPool.Call.Exchange

/-!
# Wanting a client

A caller gets the idle client that has waited longest; else, while a slot is free, a new one; else
it sleeps.  The slot is reserved before the session is opened.  If no session comes, the slot is
given back and the caller is told why.  If the pool began to close meanwhile, the slot is given back
and the new client, which the pool never knew, is sent off.

The session is opened in the same way for the first clients of a new pool (`Opening.answered`).
-/

namespace SessionPool

/-! ## A new client -/

namespace Opening

/-- What became of the wish for a session: a client, or the fault. -/
structure Opened where
  world : World
  notices : List Notice
  result : Except Fault ClientKey

/-- The fault of a pool that got no session, for this reason. -/
def fault (w : World) (p : PoolKey) (reason : Text) : Fault :=
  .notCreated (w.pool p).address reason

/-- The wish for a session is answered.  A session makes a client at once, and uses up the next
number of the pool. -/
def answered (w : World) (p : PoolKey) : OpenAnswer → Opened
  | .session connected =>
    { world :=
        (w.addClient { id := (w.pool p).nextId, home := some p, session := { connected } }).onPool p
          fun pool => { pool with nextNumber := pool.nextNumber + 1 }
      notices := [.clientCreated (w.pool p).nextId]
      result := .ok w.clients.length }
  | .nothing =>
    { world := w
      notices := []
      result := .error (fault w p (Text.ascii "factory returned no session")) }
  | .failed reason =>
    { world := w
      notices := [.creationFailed (w.pool p).address reason.uptoNul]
      result := .error (fault w p reason.uptoNul) }

end Opening

/-! ## The steps of a caller -/

namespace Acquire

/-- The signals of a slot that has come free. -/
def slotFreed (p : PoolKey) : List Signal := [.oneAcquirer p, .allClosers p]

/-- The caller looks for a client. -/
def seek (w : World) (p : PoolKey) (t : Patience) (leased : Bool) : Turn :=
  let pool := w.pool p
  if pool.closing then .finish w (.error (.poolClosed pool.address))
  else
    match pool.idle with
    | c :: rest =>
      (Turn.lend ((w.onPool p fun pool => pool.takeIdle rest).onClient c Client.lend) p c
        leased).saying [.clientTaken (w.idOf c) rest.length, .referenceAdded (w.idOf c) 1]
    | [] =>
      if pool.hasRoom then .goto (w.onPool p Pool.reserve) (.acquire p t leased .opening)
      else
        .goto (w.onPool p fun pool => { pool with waiting := pool.waiting + 1 })
          (.acquire p t leased .asleep)

/-- The caller does not sleep any more. -/
def rise (w : World) (p : PoolKey) : World :=
  w.onPool p fun pool => { pool with waiting := pool.waiting - 1 }

/-- A woken caller looks again. -/
def wake (w : World) (p : PoolKey) (t : Patience) (leased : Bool) : Turn :=
  if (w.pool p).isReady then seek (rise w p) p t leased
  else .goto w (.acquire p t leased .asleep)

/-- A caller whose patience is over looks a last time. -/
def expire (w : World) (p : PoolKey) (t : Patience) (leased : Bool) : Turn :=
  if (w.pool p).isReady then seek (rise w p) p t leased
  else
    { world := rise w p
      point := .finished (.error (.timedOut (w.pool p).address))
      notices := [.acquireTimedOut t (w.pool p).address] }

/-- A new client has come for a caller. -/
def arrive (w : World) (p : PoolKey) (leased : Bool) (c : ClientKey) : Turn :=
  if (w.pool p).closing then
    { world := w.onPool p Pool.unreserve
      point := .farewell .disconnect false [c]
        (.destroy [c] (.error (.poolClosed (w.pool p).address)))
      signals := slotFreed p }
  else
    (Turn.lend ((w.onPool p fun pool => pool.enroll c).onClient c Client.lend) p c
      leased).saying [.referenceAdded (w.idOf c) 1]

/-- No client has come for a caller. -/
def refuse (w : World) (p : PoolKey) (f : Fault) : Turn :=
  { world := w.onPool p Pool.unreserve
    point := .finished (.error f)
    signals := slotFreed p }

/-- The next step of a caller; none in a window or asleep. -/
def step (w : World) (p : PoolKey) (t : Patience) (leased : Bool) :
    AcquirePoint → Option Turn
  | .seeking => some (seek w p t leased)
  | .opening => none
  | .arrived c => some (arrive w p leased c)
  | .refused f => some (refuse w p f)
  | .asleep => none
  | .woken => some (wake w p t leased)
  | .expired => some (expire w p t leased)

/-- The window of a caller is over. -/
def answered (w : World) (p : PoolKey) (t : Patience) (leased : Bool)
    (a : OpenAnswer) : Turn :=
  let got := Opening.answered w p a
  { world := got.world
    notices := got.notices
    point := .acquire p t leased <|
      match got.result with
      | .ok c => .arrived c
      | .error f => .refused f }

end Acquire

/-! ## The first clients of a pool -/

namespace Stock

/-- The next step of the stocking of a pool.  It ends when there are enough clients, or at the
first failure. -/
def step (w : World) (p : PoolKey) (left : Nat) : StockPoint → Option Turn
  | .reserving =>
    match left with
    | 0 => some
      { world := w
        point := .finished (.ok (.pool p))
        notices := [.createdPool (w.pool p).address (w.pool p).limits.maxClients] }
    | left + 1 => some (.goto (w.onPool p Pool.reserve) (.stock p (left + 1) .opening))
  | .opening => none
  | .arrived c => some
    (.goto ((w.onClient c fun k => { k with state := .idle }).onPool p fun pool =>
        pool.enrollIdle c)
      (.stock p (left - 1) .reserving))
  | .refused f => some
    { world := w.onPool p Pool.unreserve
      point := .stock p 0 .reserving
      notices := [.stockFailed f.message]
      signals := Acquire.slotFreed p }

/-- The window of a stocking is over. -/
def answered (w : World) (p : PoolKey) (left : Nat) (a : OpenAnswer) : Turn :=
  let got := Opening.answered w p a
  { world := got.world
    notices := got.notices
    point := .stock p left <|
      match got.result with
      | .ok c => .arrived c
      | .error f => .refused f }

end Stock
end SessionPool
