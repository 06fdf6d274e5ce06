import SessionPool.Call.KeepAlive

/-!
# Heartbeats

A heartbeat that runs has a worker: a call of its own that rests for an interval, pings the idle
clients of the pool, counts that as a round, and rests again.  It ends when it is asked to, or
when the pool turns out to be closed.

* A start that finds the heartbeat running, or without an interval, does nothing.  Otherwise it
  waits for the old worker, if there was one, and puts a new one in its place
  (`Heartbeat.restart`), unless another start was faster.
* A stop asks the worker to end and waits until it has.  A round that is under way is finished and
  counted first.

A start gives up the lock while it waits for the old worker.  What it finds afterwards in the
place of the worker is not what it left there, if another start was faster and the worker of that
one has ended since.  Nobody has waited for that worker, and to put another in its place ends the
whole program.
-/

namespace SessionPool
namespace Heartbeat

/-! ## Starting and stopping -/

/-- A start begins: the old worker is taken out, and waited for next. -/
def start (w : World) (h : HeartbeatKey) : Turn :=
  let b := w.heartbeat h
  if b.running || b.interval ≤ 0 then .finish w (.ok .done)
  else
    .goto (w.onHeartbeat h fun b => { b with worker := none })
      (.heartbeat h (.restarting b.worker))

/-- A start goes on after the old worker has ended.  The new worker is the call of the key
`fresh`. -/
def restart (w : World) (h : HeartbeatKey) (fresh : CallKey) : Turn :=
  let b := w.heartbeat h
  if b.running then .finish w (.ok .done)
  else
    { world :=
        { w.onHeartbeat h fun b =>
            { b with stopRequested := false, running := true, worker := some fresh } with
          crashed := w.crashed || b.worker.isSome }
      point := .finished (.ok .done)
      notices := [.heartbeatStarted b.interval]
      started := some (.heartbeat h .resting) }

/-- A stop begins. -/
def requestStop (w : World) (h : HeartbeatKey) : Turn :=
  .goto (w.onHeartbeat h fun b => { b with stopRequested := true }) (.heartbeat h .reaping)

/-- A stop goes on when there is no worker to wait for, or when it has ended. -/
def reap (w : World) (h : HeartbeatKey) (ended : CallKey → Bool) : Option Turn :=
  match (w.heartbeat h).worker with
  | none => some (.finish w (.ok .done))
  | some k =>
    if ended k then
      some (.finish (w.onHeartbeat h fun b => { b with worker := none }) (.ok .done))
    else none

/-! ## The worker -/

/-- The worker ends. -/
def quit (w : World) (h : HeartbeatKey) : Turn :=
  .finish (w.onHeartbeat h fun b => { b with running := false }) (.ok .done)

/-- The worker rests, or ends if it was asked to. -/
def rest (w : World) (h : HeartbeatKey) : Turn :=
  if (w.heartbeat h).stopRequested then quit w h else .goto w (.heartbeat h .resting)

/-- A round is complete.  It is counted, whatever came of it.  The worker ends if the pool is closed
or if it was asked to. -/
def endRound (w : World) (h : HeartbeatKey) (o : Outcome) : Turn :=
  let w := w.onHeartbeat h fun b => { b with rounds := b.rounds + 1 }
  match o with
  | .error (.poolClosed _) => (quit w h).saying [.heartbeatStopped]
  | .error f => (rest w h).saying [.beatFailed f.message]
  | .ok (.count n) => (rest w h).saying [.beat n]
  | .ok _ => rest w h

/-! ## All steps -/

/-- The next step of a call that has to do with a heartbeat, given the key of a call that begins now
and which calls are over; none while it waits. -/
def step (w : World) (h : HeartbeatKey) (fresh : CallKey) (ended : CallKey → Bool) :
    HeartbeatPoint → Option Turn
  | .starting => some (start w h)
  | .restarting old => if old.all ended then some (restart w h fresh) else none
  | .stopping => some (requestStop w h)
  | .reaping => reap w h ended
  | .resting => if (w.heartbeat h).stopRequested then some (quit w h) else none

end Heartbeat
end SessionPool
