import SessionPool.Operation

/-!
# The machine

The shared state and all calls ever made make up a `Machine`.  An `Event` is one step of the
whole: a call begins, a call takes its next step, a window gets its answer, a sleeper loses its
patience, a heartbeat's interval is over, or something happens that needs no call.
`Machine.perform` carries out an event, if it can happen.  Which event comes next is left open, so
that the runs of the machine are all interleavings of the calls with all answers from outside.

Where one of several sleepers is to be woken, the event says which.

Faults are reported without a lock, and so in the midst of a step of another call, too.  The one
step in which that is not the same as before or after it is an event of its own
(`Machine.overlook`): a client becomes idle although it has just been broken.
-/

namespace SessionPool

/-- The shared state and all calls, those that are over included. -/
structure Machine where
  world : World := {}
  calls : List Call := []
  deriving DecidableEq, Inhabited

/-- Something that happens. -/
inductive Event where
  /-- A call begins. -/
  | begin (o : Operation)
  /-- A call takes its next step; if it wakes one of several sleepers, then the one at this place
  among them, counted around. -/
  | advance (k : CallKey) (pick : Nat)
  /-- A call takes its next step, in which it makes a client idle again, and a fault of the client
  is reported when the call has already looked for one. -/
  | overlook (k : CallKey) (pick : Nat)
  /-- The window of a call is over. -/
  | answer (k : CallKey) (a : Answer)
  /-- A caller that sleeps for a limited time loses its patience. -/
  | expire (k : CallKey)
  /-- The interval between two rounds of a heartbeat is over. -/
  | tick (k : CallKey)
  /-- A borrower reports a fault of a client. -/
  | breakDown (c : ClientKey)
  /-- A connection is lost, or found again. -/
  | connection (c : ClientKey) (connected : Bool)
  /-- A client is made by hand. -/
  | newClient (id : Text) (connected : Bool)
  /-- The state of a client is overwritten. -/
  | setState (c : ClientKey) (state : Lifecycle)
  /-- The references of a client that was made by hand are overwritten. -/
  | setReferences (c : ClientKey) (count : UInt64)
  /-- An empty lease is made. -/
  | newLease
  /-- A new lease takes over from another. -/
  | moveLease (l : LeaseKey)
  /-- A heartbeat is made, which is not running yet. -/
  | newHeartbeat (p : PoolKey) (interval : Int)
  deriving DecidableEq

namespace Machine

/-- The call of a key, if there is one. -/
def call? (m : Machine) (k : CallKey) : Option Call := m.calls[k]?

/-- A call is over. -/
def isOver (m : Machine) (k : CallKey) : Bool := (m.call? k).any Call.isOver

/-! ## Waking -/

/-- The call sleeps for a client of this pool. -/
def sleepsFor (p : PoolKey) (k : Call) : Bool :=
  match k.point with
  | .acquire q _ _ .asleep => p == q
  | _ => false

/-- Where a sleeper stands when it has been woken.  Whoever does not sleep for a client of the pool
stays where it is. -/
def wakeAcquirer (p : PoolKey) (k : Call) : Call :=
  match k.point with
  | .acquire q t leased .asleep =>
    if p = q then { k with point := .acquire q t leased .woken } else k
  | _ => k

/-- Where a call that sleeps in the closing of a pool stands when it has been woken. -/
def wakeCloser (p : PoolKey) (k : Call) : Call :=
  match k.point with
  | .close q (.draining false) => if p = q then { k with point := .close q (.draining true) } else k
  | .close q (.attending false) =>
    if p = q then { k with point := .close q (.attending true) } else k
  | _ => k

/-- Those who sleep for a client of a pool. -/
def sleepers (calls : List Call) (p : PoolKey) : List CallKey :=
  (List.range calls.length).filter fun k => calls[k]?.any (sleepsFor p)

/-- A wake-up reaches the calls. -/
def signal (pick : Nat) (calls : List Call) : Signal → List Call
  | .oneAcquirer p =>
    match (sleepers calls p)[pick % (sleepers calls p).length]? with
    | some k => calls.modify k (wakeAcquirer p)
    | none => calls
  | .allAcquirers p => calls.map (wakeAcquirer p)
  | .allClosers p => calls.map (wakeCloser p)

/-! ## Steps -/

/-- A call that has taken a step stands at its new point, and has said more. -/
def moved (t : Turn) (k : Call) : Call :=
  { k with point := t.point, notices := k.notices ++ t.notices }

/-- A step of a call takes effect: on the shared state, on the call, on those it wakes, and by the
call it starts. -/
def apply (m : Machine) (k : CallKey) (pick : Nat) (t : Turn) : Machine :=
  { world := t.world
    calls := t.signals.foldl (signal pick) (m.calls.modify k (moved t))
      ++ t.started.toList.map fun p => { point := p } }

/-- What a failed release of a lease says when nobody is told of it. -/
def releaseNotices : Outcome → List Notice
  | .error f => [.leaseReleaseFailed f.message]
  | .ok _ => []

/-- What is done with the result of a call, if anything is left to do. -/
def conclude (w : World) (o : Outcome) : Sequel → Option Turn
  | .none => none
  | .takeOver target source => some
    { world := (w.setLease target (w.lease source)).setLease source none
      point := .finished (.ok .done)
      notices := releaseNotices o }
  | .forgive => some
    { world := w, point := .finished (.ok .done), notices := releaseNotices o }
  | .beat h => some (Heartbeat.endRound w h o)

/-- The next step of a call, given the key of a call that begins now and which calls are over; none
if it is in a window, asleep or over. -/
def turn (w : World) (fresh : CallKey) (ended : CallKey → Bool) (k : Call) : Option Turn :=
  match k.point with
  | .stock p left s => Stock.step w p left s
  | .acquire p t leased s => Acquire.step w p t leased s
  | .addReference p c leased => some (Share.step w p c leased)
  | .release p c _ => some (Release.step w p c)
  | .keepAlive p s => KeepAlive.step w p s
  | .close p s => Close.step w p s
  | .exchange c command ping false => some (Exchange.step w c command ping)
  | .exchange _ _ _ true => none
  | .farewell rite false todo next => some (Farewell.step w rite todo next)
  | .farewell rite true [] next => some (Farewell.step w rite [] next)
  | .farewell _ true (_ :: _) _ => none
  | .heartbeat h s => Heartbeat.step w h fresh ended s
  | .finished o => conclude w o k.sequel

/-- What becomes of the sequel of a call in its next step: it is used up when the call had a
result. -/
def sequelAfter (k : Call) : Sequel :=
  match k.point with
  | .finished _ => .none
  | _ => k.sequel

/-- The first call that can take a step now. -/
def ready? (m : Machine) : Option CallKey :=
  let fresh := m.calls.length
  if m.world.crashed then none
  else (m.calls.zipIdx.find? fun k => (turn m.world fresh m.isOver k.1).isSome).map Prod.snd

/-- A call takes its next step, if it can. -/
def advance (m : Machine) (k : CallKey) (pick : Nat) : Option Machine := do
  let call ← m.call? k
  let t ← turn m.world m.calls.length m.isOver call
  let m := { m with calls := m.calls.modify k fun c => { c with sequel := sequelAfter call } }
  some (m.apply k pick t)

/-- A call takes its next step, if it makes a client idle again in it, and a fault of the client is
overlooked. -/
def overlook (m : Machine) (k : CallKey) (pick : Nat) : Option Machine := do
  let call ← m.call? k
  match call.point with
  | .release p c _ => (Release.overlook m.world p c).map (m.apply k pick)
  | _ => none

/-- The window of a call gets its answer, if it is in one and the answer is of the right kind. -/
def answer (m : Machine) (k : CallKey) (a : Answer) : Option Machine := do
  let call ← m.call? k
  let t ← match call.point, a with
    | .stock p left .opening, .opened a => some (Stock.answered m.world p left a)
    | .acquire p t leased .opening, .opened a => some (Acquire.answered m.world p t leased a)
    | .keepAlive p (.pinging true pinged (c :: rest) failure), .sent a =>
      some (KeepAlive.answered m.world p pinged c rest failure a)
    | .exchange c command ping true, .sent a => some (Exchange.answered m.world c command ping a)
    | .farewell rite true (c :: rest) next, .disconnected a =>
      some (Farewell.answered m.world rite c rest next a)
    | _, _ => none
  some (m.apply k 0 t)

/-- A sleeper loses its patience, if it has any to lose. -/
def expire (m : Machine) (k : CallKey) : Option Machine := do
  let call ← m.call? k
  match call.point with
  | .acquire p t leased .asleep =>
    if 0 < t then some (m.apply k 0 (.goto m.world (.acquire p t leased .expired))) else none
  | _ => none

/-- The interval of a heartbeat is over, and its worker begins a round. -/
def tick (m : Machine) (k : CallKey) : Option Machine := do
  let call ← m.call? k
  match call.point with
  | .heartbeat h .resting =>
    if (m.world.heartbeat h).stopRequested then none
    else
      some { m with calls := m.calls.modify k fun c =>
        { c with point := .keepAlive (m.world.heartbeat h).pool .draining, sequel := .beat h } }
  | _ => none

/-- A call begins. -/
def begin (m : Machine) (o : Operation) : Machine :=
  let e := o.enter m.world
  { world := e.world
    calls := m.calls ++ [{ point := e.point, sequel := e.sequel, notices := e.notices }] }

/-- Only the shared state changes, if this is possible. -/
def withWorld? (m : Machine) (possible : Bool) (w : World) : Option Machine :=
  if possible then some { m with world := w } else none

/-! ## Events -/

/-- The call stocks a new pool. -/
def stocks (p : PoolKey) (k : Call) : Bool :=
  match k.point with
  | .stock q _ _ => p = q
  | _ => false

/-- There is such a pool, and it has been stocked.  Nobody has a new pool in hand before. -/
def hasPool (m : Machine) (p : PoolKey) : Bool :=
  p < m.world.pools.length && !m.calls.any (stocks p)

/-- Everything that an operation is about exists. -/
def permits (m : Machine) : Operation → Bool
  | .construct _ _ _ _ => true
  | .acquire p _ | .lease p _ | .keepAlive p | .close p => m.hasPool p
  | .addReference p c | .release p c => m.hasPool p && m.world.hasClient c
  | .execute c _ => m.world.isInHand c
  | .ping c | .disconnect c | .destroy c => m.world.hasHandmade c
  | .shareLease l | .releaseLease l | .dropLease l => l < m.world.leases.length
  | .assignLease target source => target < m.world.leases.length && source < m.world.leases.length
  | .startHeartbeat h | .stopHeartbeat h => h < m.world.heartbeats.length

/-- Carries out an event, if it can happen.  Nothing happens after a crash. -/
def perform (m : Machine) (e : Event) : Option Machine :=
  if m.world.crashed then none
  else
    let w := m.world
    match e with
    | .begin o => if m.permits o then some (m.begin o) else none
    | .advance k pick => m.advance k pick
    | .overlook k pick => m.overlook k pick
    | .answer k a => m.answer k a
    | .expire k => m.expire k
    | .tick k => m.tick k
    | .breakDown c => m.withWorld? (w.isInHand c) (w.onClient c Client.breakDown)
    | .connection c connected => m.withWorld? (w.hasClient c) <| w.onClient c fun k =>
        { k with session := { k.session with connected } }
    | .newClient id connected => m.withWorld? true (w.addClient { id, session := { connected } })
    | .setState c state => m.withWorld? (w.isInHand c) (w.onClient c fun k => { k with state })
    | .setReferences c count =>
      m.withWorld? (w.hasHandmade c) (w.onClient c fun k => { k with references := count })
    | .newLease => m.withWorld? true (w.addLease none)
    | .moveLease l =>
      m.withWorld? (l < w.leases.length) ((w.addLease (w.lease l)).setLease l none)
    | .newHeartbeat p interval =>
      m.withWorld? (m.hasPool p) (w.addHeartbeat { pool := p, interval })

/-- Carries out events one after the other, if all of them can happen. -/
def run (m : Machine) (es : List Event) : Option Machine := es.foldlM perform m

/-- A machine that some events lead to. -/
def Reachable (m : Machine) : Prop := ∃ es, ({} : Machine).run es = some m

/-! ## Laws of steps -/

section Steps

variable {m n : Machine} {k : CallKey} {call : Call} {pick : Nat}

/-- A call that keeps its sequel is as it was. -/
theorem modify_sequel (hk : m.call? k = some call) :
    ({ m with calls := m.calls.modify k fun c => { c with sequel := call.sequel } } : Machine) =
      m := by
  have hcalls : (m.calls.modify k fun c => { c with sequel := call.sequel }) = m.calls := by
    refine List.ext_getElem? fun i => ?_
    rw [List.getElem?_modify]
    by_cases hi : k = i
    · subst hi
      have hk' : m.calls[k]? = some call := hk
      simp [hk']
    · simp [hi]
  rw [hcalls]

/-- Faults are overlooked by calls that give a reference back. -/
theorem exists_of_overlook (h : m.overlook k pick = some n) :
    ∃ call p c leased t, m.call? k = some call ∧ call.point = .release p c leased ∧
      Release.overlook m.world p c = some t ∧ n = m.apply k pick t := by
  simp only [overlook, Option.bind_eq_bind, Option.bind_eq_some_iff] at h
  obtain ⟨call, hk, h⟩ := h
  split at h
  · next p c leased hpoint =>
    obtain ⟨t, ht, rfl⟩ := Option.map_eq_some_iff.mp h
    exact ⟨call, p, c, leased, t, hk, hpoint, ht, rfl⟩
  · cases h

/-- A call that overlooks a fault takes its next step, as it does without one. -/
theorem advance_of_overlook (h : m.overlook k pick = some n) : m.advance k pick = some n := by
  obtain ⟨call, p, c, leased, t, hk, hpoint, ht, rfl⟩ := exists_of_overlook h
  have hsequel : sequelAfter call = call.sequel := by simp only [sequelAfter, hpoint]
  simp only [advance, hk, turn, hpoint, Release.step_of_overlook ht, hsequel, modify_sequel hk,
    Option.bind_eq_bind, Option.bind_some]

end Steps

/-! ## Laws of runs -/

@[simp] theorem run_nil (m : Machine) : m.run [] = some m := rfl

/-- A run begins with its first event. -/
theorem run_cons (m : Machine) (e : Event) (es : List Event) :
    m.run (e :: es) = (m.perform e).bind fun n => n.run es := rfl

/-- A run can be cut in two anywhere. -/
theorem run_append (m : Machine) (es fs : List Event) :
    m.run (es ++ fs) = (m.run es).bind fun n => n.run fs := by
  induction es generalizing m with
  | nil => rfl
  | cons e es ih =>
    rw [List.cons_append, run_cons, run_cons, Option.bind_assoc]
    exact congrArg _ (funext fun n => ih n)

/-- The last event of a run comes after a run of all others. -/
theorem run_snoc_iff {m n : Machine} {es : List Event} {e : Event} :
    m.run (es ++ [e]) = some n ↔ ∃ l, m.run es = some l ∧ l.perform e = some n := by
  simp only [run_append, run_cons, run_nil, Option.bind_eq_some_iff, Option.some.injEq,
    exists_eq_right]

/-- Nothing has to happen to reach the empty machine. -/
theorem reachable_empty : Reachable {} := ⟨[], rfl⟩

/-- What an event leads to from a reachable machine is reachable. -/
theorem Reachable.perform {m n : Machine} {e : Event} (hm : m.Reachable)
    (h : m.perform e = some n) : n.Reachable := by
  obtain ⟨es, hes⟩ := hm
  exact ⟨es ++ [e], run_snoc_iff.mpr ⟨m, hes, h⟩⟩

/-- What holds of the empty machine and is kept by every event holds of every reachable machine. -/
theorem Reachable.induct {P : Machine → Prop} (empty : P {})
    (keeps : ∀ m n e, P m → m.perform e = some n → P n) {m : Machine} (hm : m.Reachable) : P m := by
  obtain ⟨es, hes⟩ := hm
  suffices h : ∀ (es : List Event) (m n : Machine), P m → m.run es = some n → P n from
    h es {} m empty hes
  intro es
  induction es with
  | nil =>
    intro m n hP hrun
    rw [run_nil, Option.some.injEq] at hrun
    exact hrun ▸ hP
  | cons e es ih =>
    intro m n hP hrun
    rw [run_cons, Option.bind_eq_some_iff] at hrun
    obtain ⟨k, hk, hrun⟩ := hrun
    exact ih k n (keeps m k e hP hk) hrun

end Machine
end SessionPool
