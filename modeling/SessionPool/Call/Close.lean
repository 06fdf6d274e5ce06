import SessionPool.Call.KeepAlive

/-!
# Closing a pool

The first call that closes a pool wakes everybody who wants a client, waits until nothing is
outstanding, takes all clients out and disconnects them, marks the pool as closed, tells the others
that want to close it, and destroys the clients.  The others wait until that has been said and do
nothing.
-/

namespace SessionPool
namespace Close

/-- Nothing is outstanding any more: all clients are taken out. -/
def takeAll (w : World) (p : PoolKey) : Turn :=
  let clients := (w.pool p).members
  { world := w.onPool p Pool.empty
    point := .farewell .disconnect false clients (.markClosed p clients)
    notices := [.drainedForClose] }

/-- Waits until nothing is outstanding. -/
def drain (w : World) (p : PoolKey) : Turn :=
  if (w.pool p).outstanding = 0 then takeAll w p
  else .goto w (.close p (.draining false))

/-- Waits until another call has closed the pool. -/
def attend (w : World) (p : PoolKey) : Turn :=
  if (w.pool p).closed then .finish w (.ok .done)
  else .goto w (.close p (.attending false))

/-- Begins to close the pool, unless another call does already. -/
def enter (w : World) (p : PoolKey) : Turn :=
  if (w.pool p).closing then attend w p
  else
    let t := drain (w.onPool p fun pool => { pool with closing := true }) p
    { t with signals := .allAcquirers p :: t.signals }

/-- Marks the pool as closed. -/
def markClosed (w : World) (p : PoolKey) (shut : List ClientKey) : Turn :=
  .goto (w.onPool p fun pool => { pool with closed := true }) (.close p (.announcing shut))

/-- Tells the others. -/
def announce (w : World) (p : PoolKey) (shut : List ClientKey) : Turn :=
  { world := w
    point := .farewell .destroy false shut (.finish (.ok .done))
    notices := [.poolClosed (w.pool p).address]
    signals := [.allClosers p] }

/-- The next step of a call that closes a pool; none asleep. -/
def step (w : World) (p : PoolKey) : ClosePoint → Option Turn
  | .entering => some (enter w p)
  | .draining true => some (drain w p)
  | .draining false => none
  | .attending true => some (attend w p)
  | .attending false => none
  | .sealing shut => some (markClosed w p shut)
  | .announcing shut => some (announce w p shut)

end Close
end SessionPool
