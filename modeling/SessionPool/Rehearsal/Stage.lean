import SessionPool.Machine
import SessionPool.Rehearsal.Script

/-!
# The stage of a rehearsal

What a rehearsal keeps between steps: the machine, what is left of the script, which names stand for
what, which calls were started on threads of their own, and which steps were played in the middle of
which call.
-/

namespace SessionPool
namespace Rehearsal

/-! ## Names -/

/-- What names stand for. -/
abbrev Names := List (Text × Nat)

namespace Names

/-- What a name stands for. -/
def key? (ns : Names) (name : Text) : Option Nat := ns.findSome? fun n =>
  if n.1 = name then some n.2 else none

/-- The name stands for something. -/
def has (ns : Names) (name : Text) : Bool := (ns.key? name).isSome

/-- The name stands for nothing any more. -/
def forget (ns : Names) (name : Text) : Names := ns.filter fun n => n.1 ≠ name

/-- The name stands for this from now on. -/
def bind (ns : Names) (name : Text) (key : Nat) : Names := (ns.forget name) ++ [(name, key)]

end Names

/-- The order of texts byte by byte, where a text comes before all its continuations. -/
def precedes : Text → Text → Bool
  | [], _ => true
  | _ :: _, [] => false
  | a :: s, b :: t => a < b || (a == b && precedes s t)

/-! ## Threads -/

/-- A call on a thread of its own, and the name that its result gets.  The thread ends when the
result has its name: then it has a `report`, and what the naming led to stands in `aftermath`.  If
it has not ended when its step is answered, it is `blocked`, and is reported by a later step, once,
when it has. -/
structure Thread where
  name : Text
  pool : PoolKey
  call : CallKey
  aftermath : List (LogItem StepAnswer) := []
  report : Option (Report StepAnswer) := none
  blocked : Bool := false
  reported : Bool := false

/-! ## The stage -/

/-- The stage of a rehearsal. -/
structure Stage where
  machine : Machine := {}
  /-- What will happen when sessions are opened. -/
  openings : List (OpenItem Step) := []
  /-- What will happen at the session of each client. -/
  scripts : List (SessionScript Step) := []
  pools : Names := []
  clients : Names := []
  leases : Names := []
  heartbeats : Names := []
  threads : List Thread := []
  /-- Steps played in the middle of a call, with the number of notices it had made by then. -/
  asides : List (CallKey × Nat × List StepAnswer) := []
  /-- The clients made by hand that nobody but their name keeps alive. -/
  dependents : List ClientKey := []
  /-- A heartbeat is being run round by round. -/
  beating : Bool := false

namespace Stage

/-- The shared state of the machine. -/
def world (s : Stage) : World := s.machine.world

/-! ### What is shown -/

/-- How a client is shown. -/
def clientView (s : Stage) (c : ClientKey) : ClientView :=
  let k := s.world.client c
  { id := k.id, state := k.state, references := k.references }

/-- How a heartbeat is shown. -/
def heartbeatView (s : Stage) (h : HeartbeatKey) : HeartbeatView :=
  let b := s.world.heartbeat h
  { interval := b.interval, running := b.running, rounds := b.rounds }

/-- How a pool is shown. -/
def poolView (s : Stage) (p : PoolKey) : PoolView :=
  let pool := s.world.pool p
  { available := pool.idle.length
    total := pool.created
    busy := (pool.members.filter fun c => (s.world.client c).references > 0).length
    waiting := pool.waiting
    closed := pool.closed
    clients := pool.members.map s.clientView }

/-- How all pools are shown, in the order of their names. -/
def poolViews (s : Stage) : List (Text × PoolView) :=
  (s.pools.mergeSort fun a b => precedes a.1 b.1).map fun n => (n.1, s.poolView n.2)

/-- How the server is shown. -/
def serverView (s : Stage) : ServerView :=
  let clients := s.world.clients
  { opened := clients.length
    connected := (clients.filter fun c => c.session.connected).length
    destroyed := (clients.filter fun c => c.destroyed).length }

/-- How the sessions are shown at the end. -/
def sessionViews (s : Stage) : List SessionView :=
  s.world.clients.zipIdx.map fun (c, i) =>
    { serial := i + 1
      connected := c.session.connected
      destroyed := c.destroyed
      disconnects := c.session.disconnects
      commands := c.session.commands }

/-- The notices of a call with the steps that were played in between at their places. -/
def weave (notices : List Notice) (asides : List (Nat × List StepAnswer)) :
    List (LogItem StepAnswer) :=
  (List.range (notices.length + 1)).flatMap fun i =>
    (asides.filter fun a => a.1 = i).map (fun a => LogItem.during a.2)
      ++ (notices[i]?.map fun n => LogItem.entry n.entry).toList

/-- The log of a call. -/
def logOf (s : Stage) (k : CallKey) : List (LogItem StepAnswer) :=
  weave ((s.machine.call? k).elim [] Call.notices)
    ((s.asides.filter fun a => a.1 = k).map (·.2))

/-- The client that a lease holds. -/
def leaseClient? (s : Stage) (l : LeaseKey) : Option ClientKey := (s.world.lease l).map Prod.snd

/-- What a lease holds, as it is shown. -/
def leaseView (s : Stage) (l : LeaseKey) : Option ClientView := (s.leaseClient? l).map s.clientView

/-! ### Names -/

/-- The name under which the client of a lease can be found. -/
def leaseHandle (name : Text) : Text := Text.ascii "lease:" ++ name

/-- A name stands for this client from now on, or for none. -/
def nameClient (s : Stage) (name : Text) (c : Option ClientKey) : Stage :=
  { s with clients := c.elim (s.clients.forget name) (s.clients.bind name) }

/-- The client under a name that does not outlive the name. -/
def dependent? (s : Stage) (name : Text) : Option ClientKey :=
  (s.clients.key? name).filter s.dependents.contains

/-- The client does not depend on its name any more. -/
def setFree (s : Stage) (c : ClientKey) : Stage :=
  { s with dependents := s.dependents.filter (· ≠ c) }

/-! ### Who is in the way -/

/-- Somebody needs the pool: a thread that has not ended, a heartbeat, or someone who has one of its
clients. -/
def isInUse (s : Stage) (p : PoolKey) : Bool :=
  (s.threads.any fun t => t.pool = p && t.report.isNone)
    || (s.heartbeats.any fun n => (s.world.heartbeat n.2).pool = p)
    || (s.world.pool p).outstanding ≠ 0

/-! ### Threads -/

/-- The longest patience that a rehearsal sits out, in milliseconds. -/
def longestWait : Int := 200

/-- The call sleeps, and its patience is short enough to be sat out. -/
def isImpatient (k : Call) : Bool :=
  match k.point with
  | .acquire _ t _ .asleep => 0 < t && t ≤ longestWait
  | _ => false

/-- A sleeping call that will not sleep for long. -/
def impatient? (s : Stage) : Option CallKey :=
  (s.machine.calls.zipIdx.find? fun k => isImpatient k.1).map Prod.snd

/-- The name that waits for the result of a call on a thread, and the result, if there is one by
now. -/
def unnamedResult? (s : Stage) (k : CallKey) : Option (Text × Outcome) :=
  match s.threads.find? fun t => t.call = k && t.report.isNone with
  | some t => ((s.machine.call? k).bind Call.outcome?).map fun o => (t.name, o)
  | none => none

/-- The thread of a call has ended. -/
def endThread (s : Stage) (k : CallKey) (report : Report StepAnswer)
    (aftermath : List (LogItem StepAnswer)) : Stage :=
  { s with threads := s.threads.map fun t =>
      if t.call = k then { t with report := some report, aftermath } else t }

/-- What has been written on a thread. -/
def threadLog (s : Stage) (t : Thread) : List (LogItem StepAnswer) :=
  s.logOf t.call ++ t.aftermath

/-- A thread that was blocked, has ended, and is not reported yet. -/
def isDue (t : Thread) : Bool := t.blocked && t.report.isSome && !t.reported

/-- The threads that are due to be reported, in the order of their names. -/
def due (s : Stage) : List (Ended StepAnswer) :=
  ((s.threads.filter isDue).filterMap fun t =>
      t.report.map fun report => { name := t.name, report, log := s.threadLog t }).mergeSort
    fun a b => precedes a.name b.name

/-- All threads that are due have been reported. -/
def reportDue (s : Stage) : Stage :=
  { s with threads := s.threads.map fun t => if isDue t then { t with reported := true } else t }

/-- The thread of a call is blocked. -/
def block (s : Stage) (k : CallKey) : Stage :=
  { s with threads := s.threads.map fun t => if t.call = k then { t with blocked := true } else t }

/-- The thread of a call. -/
def thread? (s : Stage) (k : CallKey) : Option Thread := s.threads.find? fun t => t.call = k

end Stage
end Rehearsal
end SessionPool
