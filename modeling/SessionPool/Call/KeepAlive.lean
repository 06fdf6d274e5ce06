import SessionPool.Call.Release

/-!
# Pinging the idle clients

All idle clients are taken out of the queue at once, so that nobody can borrow one while it is
pinged.  They are pinged in order; a failure breaks its client and the others are pinged all the
same.  Then each goes back to the queue, unless it is broken or the pool is closing: those leave the
pool and are sent off.  The first failure, if there is one, is what the call comes to in the end.
-/

namespace SessionPool
namespace KeepAlive

/-- The idle clients are taken out. -/
def drain (w : World) (p : PoolKey) : Turn :=
  let pool := w.pool p
  if pool.closing then .finish w (.error (.poolClosed pool.address))
  else
    { world := w.onPool p Pool.drain
      point := .keepAlive p (.pinging false [] pool.idle none)
      notices := [.drainedForPing] }

/-- The next client is pinged. -/
def ping (w : World) (p : PoolKey) (pinged : List ClientKey) (c : ClientKey)
    (rest : List ClientKey) (failure : Option Fault) : Turn :=
  { world := w.send c pingCommand
    point := .keepAlive p (.pinging true pinged (c :: rest) failure)
    notices := [.command pingCommand] }

/-- A drained client that does not go back to the queue. -/
def isDiscarded (w : World) (p : PoolKey) (c : ClientKey) : Bool :=
  (w.client c).isBroken || (w.pool p).closing

/-- A drained client goes back, or leaves. -/
def settle (w : World) (p : PoolKey) (c : ClientKey) : World :=
  w.onPool p fun pool =>
    if isDiscarded w p c then pool.giveBack.detach c else pool.giveBack.pushIdle c

/-- All drained clients go back, or leave. -/
def restore (w : World) (p : PoolKey) (drained : List ClientKey) (failure : Option Fault) : Turn :=
  let discarded := drained.filter fun c => isDiscarded w p c
  let outcome := match failure with
    | none => Outcome.ok (.count drained.length)
    | some f => .error f
  { world := drained.foldl (fun w c => settle w p c) w
    point := .farewell .disconnect false discarded (.destroy discarded outcome)
    signals := [.allAcquirers p, .allClosers p] }

/-- The next step of a call that pings; none in a window. -/
def step (w : World) (p : PoolKey) : KeepAlivePoint → Option Turn
  | .draining => some (drain w p)
  | .pinging false pinged (c :: rest) failure => some (ping w p pinged c rest failure)
  | .pinging _ pinged [] failure => some (restore w p pinged failure)
  | .pinging true _ (_ :: _) _ => none

/-- A ping has been answered.  The failure of a client breaks it, whatever the failure is. -/
def answered (w : World) (p : PoolKey) (pinged : List ClientKey) (c : ClientKey)
    (rest : List ClientKey) (failure : Option Fault) (a : SendAnswer) : Turn :=
  let got := w.pinged c a
  match got.result with
  | .ok _ =>
    { world := got.world
      notices := got.notices
      point := .keepAlive p (.pinging false (pinged ++ [c]) rest failure) }
  | .error f =>
    { world := got.world.onClient c Client.breakDown
      notices := got.notices ++ [.pingFailed (w.idOf c) f.message]
      point := .keepAlive p (.pinging false (pinged ++ [c]) rest (failure <|> some f)) }

end KeepAlive
end SessionPool
