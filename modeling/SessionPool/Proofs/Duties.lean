import SessionPool.Proofs.Aftermath

/-!
# Calls and heartbeats

A call that has to do with a heartbeat starts it, stops it, or is its worker.  A worker that has
begun a round stands at many points in turn, and so do calls of other kinds; what makes it a worker
is that the heartbeat waits for its result.  The `Duty` of a call is what is left when everything
else is forgotten.

All that can happen to a heartbeat is said once, in terms of its record and of the duties of the
calls (`Machine.Pulse`).  Whatever is proved about heartbeats is proved from this.

* `Turn.SparesHeartbeats`: the steps that have to do with pools, clients and leases leave all
  heartbeats alone.
* `Duty.Turns`: what a turn of a call does to the record of a heartbeat.
* `Machine.Reachable.pulse`: what an event does to a heartbeat.
-/

namespace SessionPool

/-! ## Duties -/

/-- What a call has to do with a heartbeat. -/
inductive Duty where
  /-- Nothing. -/
  | other
  /-- Nothing, and it is over. -/
  | retired
  /-- It starts the heartbeat, or stops it, or it is a worker that rests. -/
  | stage (s : HeartbeatPoint)
  /-- It is a worker in a round. -/
  | pinging
  /-- It is a worker whose round has come to this. -/
  | counting (o : Outcome)
  deriving DecidableEq

namespace Duty

/-- The call is a worker that has not left its loop. -/
def works : Duty → Bool
  | stage .resting | pinging | counting _ => true
  | _ => false

/-- The call starts the heartbeat or stops it. -/
def commands : Duty → Bool
  | stage .resting => false
  | stage _ => true
  | _ => false

/-- The call is a start that waits for the old worker. -/
def restarts : Duty → Bool
  | stage (.restarting _) => true
  | _ => false

/-- The call is a worker whose round is complete and has not been counted. -/
def counts : Duty → Bool
  | counting _ => true
  | _ => false

/-- With this a call can begin, or it has been like this before. -/
def isIdle : Duty → Bool
  | other | retired | stage .starting | stage .stopping => true
  | _ => false

end Duty

/-- The round has found the pool closed. -/
def Outcome.isPoolClosed : Outcome → Bool
  | .error (.poolClosed _) => true
  | _ => false

/-- The duty of a call that stands at a point and of which this becomes of the result. -/
def Point.duty (b : HeartbeatKey) (s : Sequel) (x : Point) : Duty :=
  match s, x with
  | .none, .heartbeat h stage => if h = b then .stage stage else .other
  | .none, .finished _ => .retired
  | .beat h, .finished o => if h = b then .counting o else .other
  | .beat h, _ => if h = b then .pinging else .other
  | _, _ => .other

/-- The heartbeat that such a call has to do with, if there is one. -/
def Point.heartbeat? (s : Sequel) (x : Point) : Option HeartbeatKey :=
  match s, x with
  | .none, .heartbeat h _ => some h
  | .beat h, _ => some h
  | _, _ => none

/-- The duty of a call.  Where there is no call there is no duty. -/
def Machine.duty (m : Machine) (b : HeartbeatKey) (k : CallKey) : Duty :=
  (m.call? k).elim .other fun call => call.point.duty b call.sequel

namespace Point

variable {b h : HeartbeatKey} {s : Sequel} {x y : Point}

/-- Sleepers have no duty. -/
theorem Wakes.duty_eq (hw : x.Wakes y) (b : HeartbeatKey) (s : Sequel) :
    y.duty b s = x.duty b s := by
  cases hw <;> cases s <;> rfl

theorem Wakes.heartbeat?_eq (hw : x.Wakes y) (s : Sequel) : y.heartbeat? s = x.heartbeat? s := by
  cases hw <;> cases s <;> rfl

/-- Whoever has a duty has it with the heartbeat that it has to do with. -/
theorem heartbeat?_eq (hx : x.duty b s ≠ .other) (hover : x.duty b s ≠ .retired) :
    x.heartbeat? s = some b := by
  cases s <;> cases x <;> simp_all [duty, heartbeat?]

/-- A call is over if it has a result with which nothing is to be done. -/
theorem duty_eq_retired_iff : x.duty b s = .retired ↔ s = .none ∧ ∃ o, x = .finished o := by
  cases s <;> cases x <;> simp [duty] <;> split <;> nofun

theorem duty_eq_stage_iff {stage : HeartbeatPoint} :
    x.duty b s = .stage stage ↔ s = .none ∧ x = .heartbeat b stage := by
  cases s <;> cases x <;> simp [duty] <;> split <;> simp_all

theorem duty_eq_pinging_iff : x.duty b s = .pinging ↔ s = .beat b ∧ ∀ o, x ≠ .finished o := by
  cases s <;> cases x <;> simp [duty] <;> split <;> simp_all

theorem duty_eq_counting_iff {o : Outcome} :
    x.duty b s = .counting o ↔ s = .beat b ∧ x = .finished o := by
  cases s <;> cases x <;> simp [duty] <;> split <;> simp_all

theorem heartbeat?_of_retired (hx : x.duty b s = .retired) : x.heartbeat? s = none := by
  obtain ⟨rfl, o, rfl⟩ := duty_eq_retired_iff.mp hx
  rfl

theorem duty_of_heartbeat? (hx : x.heartbeat? s ≠ some b) (hover : x.duty b s ≠ .retired) :
    x.duty b s = .other := by
  by_contra hother
  exact hx (heartbeat?_eq hother hover)

theorem isIdle_of_heartbeat? (hx : x.heartbeat? s ≠ some b) : (x.duty b s).isIdle = true := by
  by_cases hover : x.duty b s = .retired
  · rw [hover]
    rfl
  · rw [duty_of_heartbeat? hx hover]
    rfl

theorem duty_heartbeat (b : HeartbeatKey) (stage : HeartbeatPoint) :
    (Point.heartbeat b stage).duty b .none = .stage stage := if_pos rfl

theorem duty_finished_beat (b : HeartbeatKey) (o : Outcome) :
    (Point.finished o).duty b (.beat b) = .counting o := if_pos rfl

theorem duty_beat (b : HeartbeatKey) (hx : ∀ o, x ≠ .finished o) :
    x.duty b (.beat b) = .pinging := by
  cases x with
  | finished o => exact absurd rfl (hx o)
  | _ => exact if_pos rfl

end Point

/-! ## Steps that leave heartbeats alone -/

/-- A step that leaves all heartbeats alone, and leads to no point of theirs. -/
structure Turn.SparesHeartbeats (w : World) (turn : Turn) : Prop where
  heartbeats : turn.world.heartbeats = w.heartbeats
  crashed : turn.world.crashed = w.crashed
  started : turn.started = none
  point : turn.point.heartbeat? .none = none

section Steps

variable {w w' : World} {p : PoolKey} {c : ClientKey} {t : Patience} {leased : Bool} {turn : Turn}

theorem Turn.SparesHeartbeats.saying (h : turn.SparesHeartbeats w) (ns : List Notice) :
    (turn.saying ns).SparesHeartbeats w := ⟨h.heartbeats, h.crashed, h.started, h.point⟩

theorem Turn.SparesHeartbeats.lend (hbeats : w'.heartbeats = w.heartbeats)
    (hcrashed : w'.crashed = w.crashed) : (Turn.lend w' p c leased).SparesHeartbeats w := by
  cases leased <;> exact ⟨hbeats, hcrashed, rfl, rfl⟩

namespace Opening

theorem heartbeats_answered (a : OpenAnswer) :
    (answered w p a).world.heartbeats = w.heartbeats ∧
      (answered w p a).world.crashed = w.crashed := by
  cases a <;> exact ⟨rfl, rfl⟩

end Opening

namespace Stock

theorem sparesHeartbeats_step {left : ℕ} {s : StockPoint} (ht : step w p left s = some turn) :
    turn.SparesHeartbeats w := by
  cases s with
  | reserving => cases left <;> exact Option.some.inj ht ▸ ⟨rfl, rfl, rfl, rfl⟩
  | opening => cases ht
  | _ => exact Option.some.inj ht ▸ ⟨rfl, rfl, rfl, rfl⟩

theorem sparesHeartbeats_answered {left : ℕ} (a : OpenAnswer) :
    (answered w p left a).SparesHeartbeats w :=
  have h := Opening.heartbeats_answered a
  ⟨h.1, h.2, rfl, rfl⟩

end Stock

namespace Acquire

theorem sparesHeartbeats_seek (hbeats : w'.heartbeats = w.heartbeats)
    (hcrashed : w'.crashed = w.crashed) : (seek w' p t leased).SparesHeartbeats w := by
  simp only [seek]
  repeat' split
  · exact ⟨hbeats, hcrashed, rfl, rfl⟩
  · refine .saying (.lend ?_ ?_) _
    · exact hbeats
    · exact hcrashed
  · exact ⟨hbeats, hcrashed, rfl, rfl⟩
  · exact ⟨hbeats, hcrashed, rfl, rfl⟩

theorem sparesHeartbeats_step {s : AcquirePoint} (ht : step w p t leased s = some turn) :
    turn.SparesHeartbeats w := by
  cases s with
  | seeking => exact Option.some.inj ht ▸ sparesHeartbeats_seek rfl rfl
  | opening | asleep => cases ht
  | refused f => exact Option.some.inj ht ▸ ⟨rfl, rfl, rfl, rfl⟩
  | arrived d =>
    obtain rfl := Option.some.inj ht
    simp only [arrive]
    split
    · exact ⟨rfl, rfl, rfl, rfl⟩
    · refine .saying (.lend ?_ ?_) _ <;> rfl
  | woken =>
    obtain rfl := Option.some.inj ht
    simp only [wake]
    split
    · exact sparesHeartbeats_seek rfl rfl
    · exact ⟨rfl, rfl, rfl, rfl⟩
  | expired =>
    obtain rfl := Option.some.inj ht
    simp only [expire]
    split
    · exact sparesHeartbeats_seek rfl rfl
    · exact ⟨rfl, rfl, rfl, rfl⟩

theorem sparesHeartbeats_answered (a : OpenAnswer) :
    (answered w p t leased a).SparesHeartbeats w :=
  have h := Opening.heartbeats_answered a
  ⟨h.1, h.2, rfl, rfl⟩

end Acquire

theorem Share.sparesHeartbeats_step : (Share.step w p c leased).SparesHeartbeats w := by
  simp only [Share.step]
  repeat' split
  · exact ⟨rfl, rfl, rfl, rfl⟩
  · exact ⟨rfl, rfl, rfl, rfl⟩
  · exact ⟨rfl, rfl, rfl, rfl⟩
  · refine .saying (.lend ?_ ?_) _ <;> rfl

theorem Release.sparesHeartbeats_step : (Release.step w p c).SparesHeartbeats w := by
  simp only [Release.step, Release.last, Release.keep]
  repeat' split
  all_goals exact ⟨rfl, rfl, rfl, rfl⟩

namespace KeepAlive

theorem heartbeats_foldl_settle (ds : List ClientKey) (w : World) :
    (ds.foldl (fun w c => settle w p c) w).heartbeats = w.heartbeats ∧
      (ds.foldl (fun w c => settle w p c) w).crashed = w.crashed := by
  induction ds generalizing w with
  | nil => exact ⟨rfl, rfl⟩
  | cons d ds ih => exact ih (settle w p d)

theorem sparesHeartbeats_step {s : KeepAlivePoint} (ht : step w p s = some turn) :
    turn.SparesHeartbeats w := by
  cases s with
  | draining =>
    obtain rfl := Option.some.inj ht
    simp only [drain]
    split <;> exact ⟨rfl, rfl, rfl, rfl⟩
  | pinging waiting pinged todo failure =>
    cases todo with
    | nil =>
      have hsettled := heartbeats_foldl_settle (p := p) pinged w
      have hrestore : (restore w p pinged failure).SparesHeartbeats w :=
        ⟨hsettled.1, hsettled.2, rfl, rfl⟩
      cases waiting <;> exact Option.some.inj ht ▸ hrestore
    | cons d rest =>
      cases waiting with
      | false => exact Option.some.inj ht ▸ ⟨rfl, rfl, rfl, rfl⟩
      | true => cases ht

theorem heartbeats_received (command : Text) (a : SendAnswer) :
    (w.received c command a).world.heartbeats = w.heartbeats ∧
      (w.received c command a).world.crashed = w.crashed := by
  cases a with
  | reply r =>
    simp only [World.received]
    split <;> exact ⟨rfl, rfl⟩
  | _ => exact ⟨rfl, rfl⟩

theorem heartbeats_pinged (a : SendAnswer) :
    (w.pinged c a).world.heartbeats = w.heartbeats ∧
      (w.pinged c a).world.crashed = w.crashed := by
  simp only [World.pinged]
  repeat' split
  all_goals exact heartbeats_received pingCommand a

theorem sparesHeartbeats_answered {pinged rest : List ClientKey} {failure : Option Fault}
    (a : SendAnswer) : (answered w p pinged c rest failure a).SparesHeartbeats w := by
  have h := heartbeats_pinged (w := w) (c := c) a
  simp only [answered]
  split <;> exact ⟨h.1, h.2, rfl, rfl⟩

end KeepAlive

theorem Exchange.sparesHeartbeats_answered {command : Text} {ping : Bool} (a : SendAnswer) :
    (Exchange.answered w c command ping a).SparesHeartbeats w := by
  cases ping with
  | true =>
    have h := KeepAlive.heartbeats_pinged (w := w) (c := c) a
    exact ⟨h.1, h.2, rfl, rfl⟩
  | false =>
    have h := KeepAlive.heartbeats_received (w := w) (c := c) command a
    exact ⟨h.1, h.2, rfl, rfl⟩

namespace Close

theorem sparesHeartbeats_attend : (attend w p).SparesHeartbeats w := by
  simp only [attend]
  split <;> exact ⟨rfl, rfl, rfl, rfl⟩

theorem sparesHeartbeats_drain (hbeats : w'.heartbeats = w.heartbeats)
    (hcrashed : w'.crashed = w.crashed) : (drain w' p).SparesHeartbeats w := by
  simp only [drain]
  split <;> exact ⟨hbeats, hcrashed, rfl, rfl⟩

theorem sparesHeartbeats_step {s : ClosePoint} (ht : step w p s = some turn) :
    turn.SparesHeartbeats w := by
  cases s with
  | entering =>
    obtain rfl := Option.some.inj ht
    simp only [enter]
    split
    · exact sparesHeartbeats_attend
    · have hdrain : (drain (w.onPool p fun pool => { pool with closing := true })
          p).SparesHeartbeats w := sparesHeartbeats_drain rfl rfl
      exact ⟨hdrain.heartbeats, hdrain.crashed, hdrain.started, hdrain.point⟩
  | draining woken =>
    cases woken with
    | true => exact Option.some.inj ht ▸ sparesHeartbeats_drain rfl rfl
    | false => cases ht
  | attending woken =>
    cases woken with
    | true => exact Option.some.inj ht ▸ sparesHeartbeats_attend
    | false => cases ht
  | _ => exact Option.some.inj ht ▸ ⟨rfl, rfl, rfl, rfl⟩

end Close

namespace Farewell

theorem sparesHeartbeats_step {rite : Rite} {todo : List ClientKey} {next : Afterwards} :
    (step w rite todo next).SparesHeartbeats w := by
  cases todo with
  | nil => cases next <;> exact ⟨rfl, rfl, rfl, rfl⟩
  | cons d rest =>
    simp only [step]
    repeat' split
    all_goals exact ⟨rfl, rfl, rfl, rfl⟩

theorem sparesHeartbeats_answered {rite : Rite} {rest : List ClientKey} {next : Afterwards}
    (a : DisconnectAnswer) : (answered w rite c rest next a).SparesHeartbeats w := by
  cases a <;> exact ⟨rfl, rfl, rfl, rfl⟩

end Farewell

end Steps

namespace Machine

variable {m n : Machine} {e : Event} {k j : CallKey} {call : Call} {t : Turn} {b h : HeartbeatKey}

/-- Only calls at the points of heartbeats, and rounds that are to be counted, have to do with
heartbeats. -/
theorem Takes.sparesHeartbeats (takes : m.Takes k call e t)
    (away : ∀ h s, call.point ≠ .heartbeat h s)
    (uncounted : ∀ o h, call.point = .finished o → call.sequel ≠ .beat h) :
    t.SparesHeartbeats m.world := by
  cases takes with
  | step ht | overlooked ht =>
    obtain ⟨x, sequel, notices⟩ := call
    cases x with
    | stock p left s => exact Stock.sparesHeartbeats_step ht
    | acquire p u leased s => exact Acquire.sparesHeartbeats_step ht
    | addReference p c leased => exact Option.some.inj ht ▸ Share.sparesHeartbeats_step
    | release p c leased => exact Option.some.inj ht ▸ Release.sparesHeartbeats_step
    | keepAlive p s => exact KeepAlive.sparesHeartbeats_step ht
    | close p s => exact Close.sparesHeartbeats_step ht
    | exchange c command ping waiting =>
      cases waiting with
      | false => exact Option.some.inj ht ▸ ⟨rfl, rfl, rfl, rfl⟩
      | true => cases ht
    | farewell rite waiting todo next =>
      cases waiting with
      | false => exact Option.some.inj ht ▸ Farewell.sparesHeartbeats_step
      | true =>
        cases todo with
        | nil => exact Option.some.inj ht ▸ Farewell.sparesHeartbeats_step
        | cons d rest => cases ht
    | heartbeat h s => exact absurd rfl (away h s)
    | finished o =>
      cases sequel with
      | none => cases ht
      | takeOver target source => exact Option.some.inj ht ▸ ⟨rfl, rfl, rfl, rfl⟩
      | forgive => exact Option.some.inj ht ▸ ⟨rfl, rfl, rfl, rfl⟩
      | beat h => exact absurd rfl (uncounted o h rfl)
  | stocked a hpoint => exact Stock.sparesHeartbeats_answered a
  | opened a hpoint => exact Acquire.sparesHeartbeats_answered a
  | pinged a hpoint => exact KeepAlive.sparesHeartbeats_answered a
  | replied a hpoint => exact Exchange.sparesHeartbeats_answered a
  | parted a hpoint => exact Farewell.sparesHeartbeats_answered a
  | expired hpoint limited => exact ⟨rfl, rfl, rfl, rfl⟩
  | beat hpoint wanted => exact absurd hpoint (away _ _)

end Machine
end SessionPool
