import SessionPool.Proofs.Rounds
import SessionPool.Proofs.Pinging

/-!
# Starting and stopping a heartbeat

A heartbeat can be started and stopped again and again, and its worker may end by itself in between
because the pool was closed.  If starts and stops are made one at a time, each of them finds the
heartbeat in step and leaves it in step, whatever becomes of the pool meanwhile: a start that has
something to do always leaves exactly one worker, a round under way is always counted, and after a
stop there is no worker and no ping until the next start that has something to do.

* `Machine.Reachable.inRound`: where a worker stands in a round, and that it can always go on.
* `Machine.Serves`: what every call that has to do with the heartbeat finds and leaves.
* `Machine.KeepsTime`: everything that can be said after a run.
* `Machine.heartbeat_keeps_time`: it holds in every run in which starts and stops are made one at a
  time.
-/

namespace SessionPool

/-! ## Where a worker stands in a round -/

/-- A call that pings idle clients stands here, from the beginning to the end. -/
inductive Point.InRound : Point → Prop where
  | draining {p : PoolKey} : InRound (.keepAlive p .draining)
  | pinging {p : PoolKey} {waiting : Bool} {done todo : List ClientKey} {failure : Option Fault} :
      InRound (.keepAlive p (.pinging waiting done todo failure))
  | concluding {o : Outcome} {x : Point} (h : x.Concluding o) : InRound x

theorem Point.InRound.awake {x : Point} (h : x.InRound) : x.sleeps = false := by
  cases h with
  | concluding h => exact h.awake
  | _ => rfl

namespace Machine

variable {m n l : Machine} {e : Event} {k j : CallKey} {call : Call} {t : Turn}
  {b : HeartbeatKey} {es fs : List Event} {P : Machine → Prop} {s : HeartbeatPoint} {o : Outcome}

/-- A turn in a round. -/
theorem Takes.inRound (takes : m.Takes k call e t) (hx : call.point.InRound)
    (going : ∀ o, call.point ≠ .finished o) : t.point.InRound := by
  generalize hpoint : call.point = x at hx
  cases hx with
  | @draining p =>
    obtain ⟨-, ht⟩ := takes.turn_eq (by rw [hpoint]; rfl) (by rw [hpoint]; rfl) (by simp [hpoint])
    have hdrain : t = KeepAlive.drain m.world p := by
      simpa [turn, hpoint, KeepAlive.step] using ht.symm
    rw [hdrain]
    simp only [KeepAlive.drain]
    split
    · exact .concluding .ended
    · exact .pinging
  | pinging =>
    cases takes.goes hpoint with
    | asked => exact .pinging
    | answered a =>
      rw [(KeepAlive.answered_eq _ _ _ _ _ _ a).2]
      exact .pinging
    | restored => exact .concluding .parting
  | concluding hc =>
    rw [← hpoint] at hc
    exact .concluding (takes.concluding_of_ne hc (going _)).1

/-- A call in a round can take its next turn, if only the outside answers. -/
theorem exists_takes_inRound (hx : call.point.InRound) (going : ∀ o, call.point ≠ .finished o) :
    ∃ e t, m.Takes k call e t := by
  generalize hpoint : call.point = x at hx
  cases hx with
  | @draining p =>
    refine ⟨.advance k 0, KeepAlive.drain m.world p, .step ?_⟩
    rw [turn, hpoint]
    rfl
  | pinging => exact exists_takes_pinging hpoint
  | concluding hc =>
    rw [← hpoint] at hc
    exact exists_takes_concluding hc (going _)

/-- A call for whose result a heartbeat waits is in a round. -/
theorem Reachable.inRound (hm : m.Reachable) (hk : m.call? k = some call)
    (hs : call.sequel = .beat b) : call.point.InRound := by
  suffices h : ∀ k call b, m.call? k = some call → call.sequel = .beat b → call.point.InRound from
    h k call b hk hs
  clear hk hs
  refine hm.induct (P := fun l => ∀ k call b, l.call? k = some call → call.sequel = .beat b →
    call.point.InRound) nofun fun l n e ih hn k call b hk hs => ?_
  rcases perform_cases hn with ⟨j, call₀, t, hj, takes, turned⟩ | ⟨o, rfl, permits, rfl⟩ |
    ⟨w, befalls, rfl⟩
  · rcases turned.call?_cases hk with ⟨rfl, hw, hs'⟩ | ⟨call₁, hk₁, hw, hs'⟩ | ⟨x, hx, rfl⟩
    · have hround : t.point.InRound := by
        rw [hs'] at hs
        rcases Call.of_sequelIn_eq_beat hs with ⟨hpoint, i, rfl⟩ | ⟨hs, going⟩
        · cases takes with
          | beat hpoint' wanted => exact .draining
        · exact takes.inRound (ih _ call₀ b hj hs) going
      rw [hw.eq_of_awake hround.awake]
      exact hround
    · have hround := ih k call₁ b hk₁ (hs'.symm.trans hs)
      rw [hw.eq_of_awake hround.awake]
      exact hround
    · cases hs
  · rcases call?_begin_cases hk with hk | ⟨-, rfl⟩
    · exact ih k call b hk hs
    · rcases away_enter l.world o with ⟨h, rfl | rfl⟩ | ⟨hnone, -⟩
      · cases hs
      · cases hs
      · have hsequel : (o.enter l.world).sequel = .beat b := hs
        rw [hsequel] at hnone
        cases hnone
  · exact ih k call b hk hs

/-! ## Turns that can be taken -/

/-- The next step of the call of this key can be taken, whomever it wakes, and leads to such a
machine. -/
def Proceeds (m : Machine) (k : CallKey) (P : Machine → Prop) : Prop :=
  ∀ pick, ∃ n, m.perform (.advance k pick) = some n ∧ P n

theorem proceeds_of_turn (hm : m.world.crashed = false) (hk : m.call? k = some call)
    (ht : turn m.world m.calls.length m.isOver call = some t)
    (hP : ∀ pick n, m.perform (.advance k pick) = some n → P n) : m.Proceeds k P := fun pick =>
  have hn := perform_advance hm hk ht pick
  ⟨_, hn, hP pick _ hn⟩

theorem exists_call_of_duty (h : m.duty b k ≠ .other) :
    ∃ call, m.call? k = some call ∧ call.point.duty b call.sequel = m.duty b k := by
  cases hk : m.call? k with
  | none => exact absurd (duty_of_none hk) h
  | some call => exact ⟨call, rfl, (Machine.duty_eq hk).symm⟩

/-- A call at a point of the heartbeat takes its next step as soon as it has one. -/
theorem proceeds_of_stage (hm : m.world.crashed = false) (hk : m.duty b k = .stage s)
    (ht : Heartbeat.step m.world b m.calls.length m.isOver s = some t)
    (hP : ∀ pick n, m.perform (.advance k pick) = some n → P n) : m.Proceeds k P := by
  obtain ⟨call, hcall, hduty⟩ := exists_call_of_duty (m := m) (b := b) (k := k) (by simp [hk])
  rw [hk, Point.duty_eq_stage_iff] at hduty
  refine proceeds_of_turn hm hcall (t := t) ?_ hP
  rw [turn, hduty.2]
  exact ht

/-- Whoever waits does not take a turn. -/
theorem not_performs_of_stage (hk : m.duty b k = .stage s) (hs : s ≠ .resting)
    (ht : Heartbeat.step m.world b m.calls.length m.isOver s = none) (he : e.isTurnOf k = true) :
    m.perform e = none := by
  by_contra hne
  obtain ⟨n, hn⟩ := Option.ne_none_iff_exists'.mp hne
  obtain ⟨call, t, hcall, takes, -⟩ := turned_of_isTurnOf hn he
  have hduty := Machine.duty_eq (b := b) hcall
  rw [hk, eq_comm, Point.duty_eq_stage_iff] at hduty
  obtain ⟨-, hturn⟩ := takes.turn_eq (by rw [hduty.2]; rfl) (by rw [hduty.2]; rfl)
    fun b' hb' => hs (Point.heartbeat.inj (hduty.2.symm.trans hb')).2
  rw [turn, hduty.2] at hturn
  rw [show Heartbeat.step m.world b m.calls.length m.isOver s = some t from hturn] at ht
  cases ht

/-- A turn of a call with a duty does one of the things that it can do, or puts a worker in
place. -/
theorem Reachable.turns (hm : m.Reachable) (hn : m.perform e = some n) (he : e.isTurnOf k = true)
    (hk : m.duty b k ≠ .other) (waiting : ∀ old, m.duty b k ≠ .stage (.restarting old)) :
    ∃ y, (m.duty b k).Turns (m.world.heartbeat b) m.isOver (n.world.heartbeat b) y ∧
      n.duty b = Function.update (m.duty b) k y ∧ n.world.crashed = false := by
  have hkey := Event.isTurnOf_iff.mp he
  cases hm.pulse hn b with
  | aside unconcerned => exact absurd (unconcerned k he) hk
  | made unconcerned =>
    rw [unconcerned] at he
    cases he
  | @turn j r y turn ht record duty crashed =>
    rw [Event.isTurnOf_iff, hkey, Option.some.injEq] at turn
    subst turn record
    exact ⟨y, ht, duty, crashed⟩
  | @installed j old turn restarting =>
    rw [Event.isTurnOf_iff, hkey, Option.some.injEq] at turn
    exact absurd restarting (turn ▸ waiting old)

/-- A start that goes on and finds the heartbeat not running puts a worker in place. -/
theorem Reachable.installs (hm : m.Reachable) (hn : m.perform e = some n)
    (he : e.isTurnOf k = true) {old : Option CallKey} (hk : m.duty b k = .stage (.restarting old))
    (stopped : (m.world.heartbeat b).running = false) :
    n.world.heartbeat b = (m.world.heartbeat b).manned m.calls.length ∧
      n.duty b = Function.update (Function.update (m.duty b) k .retired) m.calls.length
        (.stage .resting) ∧ n.world.crashed = (m.world.heartbeat b).worker.isSome := by
  have hkey := Event.isTurnOf_iff.mp he
  cases hm.pulse hn b with
  | aside unconcerned =>
    rw [unconcerned k he] at hk
    cases hk
  | made unconcerned =>
    rw [unconcerned] at he
    cases he
  | @turn j r y turn ht =>
    rw [Event.isTurnOf_iff, hkey, Option.some.injEq] at turn
    rw [← turn, hk] at ht
    cases ht with
    | late rid running =>
      rw [stopped] at running
      cases running
  | @installed j old' turn restarting rid stopped record fresh duty crashed =>
    rw [Event.isTurnOf_iff, hkey, Option.some.injEq] at turn
    subst turn
    exact ⟨record, duty, crashed⟩

/-! ## What a call finds and leaves -/

/-- What every call finds that has to do with the heartbeat, and what it leaves. -/
structure Serves (b : HeartbeatKey) (m : Machine) : Prop where
  /-- A start that has nothing to do changes nothing. -/
  declines : ∀ k, m.duty b k = .stage .starting →
    (m.world.heartbeat b).running = true ∨ (m.world.heartbeat b).interval ≤ 0 →
      m.Ends k (.ok .done)
  /-- Every other start takes the old worker out and waits for it. -/
  starts : ∀ k, m.duty b k = .stage .starting → (m.world.heartbeat b).running = false →
    0 < (m.world.heartbeat b).interval → m.Proceeds k fun n =>
      n.duty b = Function.update (m.duty b) k (.stage (.restarting (m.world.heartbeat b).worker)) ∧
        n.world.heartbeat b = { m.world.heartbeat b with worker := none } ∧
          n.world.crashed = false
  /-- It can go on at once, and then there is one worker, which rests and was not asked to stop. -/
  restarts : ∀ k old, m.duty b k = .stage (.restarting old) → m.Proceeds k fun n =>
    n.duty b k = .retired ∧ n.world.heartbeat b = (m.world.heartbeat b).manned m.calls.length ∧
      n.duty b m.calls.length = .stage .resting ∧
        (∀ j, (n.duty b j).works = true ↔ j = m.calls.length) ∧ n.world.crashed = false
  /-- A worker can always take its next turn, if only the outside answers. -/
  works : ∀ k, (m.duty b k).works = true → ∃ e, e.isTurnOf k = true ∧ (m.perform e).isSome
  /-- A round that is complete is counted, whatever it has come to.  The worker leaves if the pool
  was closed or if it was asked to; otherwise it goes on. -/
  counts : ∀ k o, m.duty b k = .counting o → m.Proceeds k fun n =>
    (n.world.heartbeat b).rounds = (m.world.heartbeat b).rounds + 1 ∧
      if o.isPoolClosed || (m.world.heartbeat b).stopRequested then
        n.duty b k = .retired ∧ (n.world.heartbeat b).running = false
      else n.duty b k = .stage .resting ∧ (n.world.heartbeat b).running = true
  /-- A stop asks for the end and does not interrupt anything. -/
  asks : ∀ k, m.duty b k = .stage .stopping → m.Proceeds k fun n =>
    n.duty b = Function.update (m.duty b) k (.stage .reaping) ∧
      n.world.heartbeat b = { m.world.heartbeat b with stopRequested := true }
  /-- A worker that rests and was asked to stop leaves without another round. -/
  leaves : ∀ k, m.duty b k = .stage .resting → (m.world.heartbeat b).stopRequested = true →
    m.perform (.tick k) = none ∧ m.Proceeds k fun n =>
      n.duty b k = .retired ∧ (n.world.heartbeat b).running = false ∧
        (n.world.heartbeat b).rounds = (m.world.heartbeat b).rounds
  /-- A stop waits as long as there is a worker. -/
  awaits : ∀ k, m.duty b k = .stage .reaping → (m.world.heartbeat b).running = true →
    (m.world.heartbeat b).stopRequested = true ∧ ∀ e, e.isTurnOf k = true → m.perform e = none
  /-- As soon as there is none it is over. -/
  reaps : ∀ k, m.duty b k = .stage .reaping → (m.world.heartbeat b).running = false →
    m.Proceeds k fun n => n.duty b = Function.update (m.duty b) k .retired ∧
      n.world.heartbeat b = { m.world.heartbeat b with worker := none }

section Serves

variable (hm : m.Reachable) (alive : m.world.crashed = false)
include hm alive

omit hm in
theorem ends_of_needless (hk : m.duty b k = .stage .starting)
    (needless : (m.world.heartbeat b).running = true ∨ (m.world.heartbeat b).interval ≤ 0) :
    m.Ends k (.ok .done) := by
  obtain ⟨call, hcall, hduty⟩ := exists_call_of_duty (m := m) (b := b) (k := k) (by simp [hk])
  rw [hk, Point.duty_eq_stage_iff] at hduty
  refine ends_of_turn alive hcall ?_
  have hstart : Heartbeat.start m.world b = .finish m.world (.ok .done) :=
    if_pos (by simpa using needless)
  rw [turn, hduty.2, ← hstart]
  rfl

theorem Reachable.starts (hk : m.duty b k = .stage .starting)
    (stopped : (m.world.heartbeat b).running = false)
    (wanted : 0 < (m.world.heartbeat b).interval) :
    m.Proceeds k fun n =>
      n.duty b = Function.update (m.duty b) k (.stage (.restarting (m.world.heartbeat b).worker)) ∧
        n.world.heartbeat b = { m.world.heartbeat b with worker := none } ∧
          n.world.crashed = false := by
  refine proceeds_of_stage alive hk rfl fun pick n hn => ?_
  obtain ⟨y, ht, hduty, hcrashed⟩ := hm.turns hn (decide_eq_true rfl) (b := b)
    (by simp [hk]) (by simp [hk])
  rw [hk] at ht
  generalize hr : n.world.heartbeat b = r at ht
  cases ht with
  | declined needless =>
    rcases needless with running | unwanted
    · rw [stopped] at running
      cases running
    · omega
  | cleared => exact ⟨hduty, rfl, hcrashed⟩

theorem Reachable.restarts (huncrossed : m.Uncrossed b) {old : Option CallKey}
    (hk : m.duty b k = .stage (.restarting old)) : m.Proceeds k fun n =>
    n.duty b k = .retired ∧ n.world.heartbeat b = (m.world.heartbeat b).manned m.calls.length ∧
      n.duty b m.calls.length = .stage .resting ∧
        (∀ j, (n.duty b j).works = true ↔ j = m.calls.length) ∧ n.world.crashed = false := by
  obtain ⟨hstopped, hworker⟩ := huncrossed.restarting k old hk
  have rid : old.all m.isOver = true := by
    have hwaits := (hm.inStep b).waits k old hk
    cases old with
    | none => rfl
    | some j => exact isOver_iff.mpr (hwaits j rfl)
  have hkl : k ≠ m.calls.length := fun hkl => by
    rw [hkl, duty_fresh] at hk
    cases hk
  refine proceeds_of_stage alive hk (if_pos rid) fun pick n hn => ?_
  obtain ⟨hrecord, hduty, hcrashed⟩ := hm.installs hn (decide_eq_true rfl) hk hstopped
  have hfresh : n.duty b m.calls.length = .stage .resting := by rw [hduty, Function.update_self]
  have hworks : (n.duty b m.calls.length).works = true := by rw [hfresh]; rfl
  refine ⟨?_, hrecord, hfresh, fun j => ⟨fun hj => ?_, fun hj => hj ▸ hworks⟩, ?_⟩
  · rw [hduty, Function.update_of_ne hkl, Function.update_self]
  · exact ((hm.perform hn).inStep b).unique hj hworks
  · rw [hcrashed, hworker]
    rfl

theorem Reachable.counts (hk : m.duty b k = .counting o) : m.Proceeds k fun n =>
    (n.world.heartbeat b).rounds = (m.world.heartbeat b).rounds + 1 ∧
      if o.isPoolClosed || (m.world.heartbeat b).stopRequested then
        n.duty b k = .retired ∧ (n.world.heartbeat b).running = false
      else n.duty b k = .stage .resting ∧ (n.world.heartbeat b).running = true := by
  obtain ⟨call, hcall, hduty⟩ := exists_call_of_duty (m := m) (b := b) (k := k) (by simp [hk])
  rw [hk, Point.duty_eq_counting_iff] at hduty
  have hrunning := ((hm.inStep b).worker k (by rw [hk]; rfl)).1
  refine proceeds_of_turn alive hcall (t := Heartbeat.endRound m.world b o) ?_ fun pick n hn => ?_
  · rw [turn, hduty.2, hduty.1]
    rfl
  obtain ⟨y, ht, hduty, -⟩ := hm.turns hn (decide_eq_true rfl) (b := b)
    (by simp [hk]) (by simp [hk])
  have hhere : n.duty b k = y := by rw [hduty, Function.update_self]
  rw [hk] at ht
  generalize hr : n.world.heartbeat b = r at ht
  cases ht with
  | left leaves =>
    refine ⟨rfl, ?_⟩
    rw [if_pos (by simpa using leaves)]
    exact ⟨hhere, rfl⟩
  | stayed wellPool unasked =>
    refine ⟨rfl, ?_⟩
    rw [if_neg (by simp [wellPool, unasked])]
    exact ⟨hhere, hrunning⟩

theorem Reachable.asks (hk : m.duty b k = .stage .stopping) : m.Proceeds k fun n =>
    n.duty b = Function.update (m.duty b) k (.stage .reaping) ∧
      n.world.heartbeat b = { m.world.heartbeat b with stopRequested := true } := by
  refine proceeds_of_stage alive hk rfl fun pick n hn => ?_
  obtain ⟨y, ht, hduty, -⟩ := hm.turns hn (decide_eq_true rfl) (b := b)
    (by simp [hk]) (by simp [hk])
  rw [hk] at ht
  generalize hr : n.world.heartbeat b = r at ht
  cases ht with
  | asked => exact ⟨hduty, rfl⟩

theorem Reachable.leaves (hk : m.duty b k = .stage .resting)
    (asked : (m.world.heartbeat b).stopRequested = true) :
    m.perform (.tick k) = none ∧ m.Proceeds k fun n =>
      n.duty b k = .retired ∧ (n.world.heartbeat b).running = false ∧
        (n.world.heartbeat b).rounds = (m.world.heartbeat b).rounds := by
  refine ⟨?_, proceeds_of_stage alive hk (if_pos asked) fun pick n hn => ?_⟩
  · obtain ⟨call, hcall, hduty⟩ :=
      exists_call_of_duty (m := m) (b := b) (k := k) (by simp [hk])
    rw [hk, Point.duty_eq_stage_iff] at hduty
    simp [Machine.perform, alive, tick, hcall, hduty.2, asked]
  · obtain ⟨y, ht, hduty, -⟩ := hm.turns hn (decide_eq_true rfl) (b := b)
      (by simp [hk]) (by simp [hk])
    have hhere : n.duty b k = y := by rw [hduty, Function.update_self]
    rw [hk] at ht
    generalize hr : n.world.heartbeat b = r at ht
    cases ht with
    | quit => exact ⟨hhere, rfl, rfl⟩
    | ticked unasked =>
      rw [asked] at unasked
      cases unasked

theorem Reachable.reaps (hk : m.duty b k = .stage .reaping)
    (stopped : (m.world.heartbeat b).running = false) :
    m.Proceeds k fun n => n.duty b = Function.update (m.duty b) k .retired ∧
      n.world.heartbeat b = { m.world.heartbeat b with worker := none } := by
  have hstep : ∃ t, Heartbeat.step m.world b m.calls.length m.isOver .reaping = some t := by
    have hended := (hm.inStep b).ended stopped
    simp only [Heartbeat.step, Heartbeat.reap]
    split
    · exact ⟨_, rfl⟩
    · next j hj => exact ⟨_, if_pos (isOver_iff.mpr (hended j hj))⟩
  obtain ⟨t, ht⟩ := hstep
  refine proceeds_of_stage alive hk ht fun pick n hn => ?_
  obtain ⟨y, ht, hduty, -⟩ := hm.turns hn (decide_eq_true rfl) (b := b)
    (by simp [hk]) (by simp [hk])
  rw [hk] at ht
  generalize hr : n.world.heartbeat b = r at ht
  cases ht with
  | reaped => exact ⟨hduty, rfl⟩

/-- A worker never waits for another call. -/
theorem Reachable.works (hk : (m.duty b k).works = true) :
    ∃ e, e.isTurnOf k = true ∧ (m.perform e).isSome := by
  have hproceeds : ∀ {P : Machine → Prop}, m.Proceeds k P →
      ∃ e, e.isTurnOf k = true ∧ (m.perform e).isSome := fun h =>
    have ⟨_, hn, _⟩ := h 0
    ⟨.advance k 0, decide_eq_true rfl, hn ▸ rfl⟩
  have hother : m.duty b k ≠ .other := fun hother => by
    rw [hother] at hk
    cases hk
  obtain ⟨call, hcall, hduty⟩ := exists_call_of_duty hother
  cases hd : m.duty b k with
  | other | retired =>
    rw [hd] at hk
    cases hk
  | stage s =>
    rw [hd] at hk hduty
    obtain rfl : s = .resting := by cases s <;> first | rfl | cases hk
    by_cases asked : (m.world.heartbeat b).stopRequested = true
    · exact hproceeds (hm.leaves alive hd asked).2
    · rw [Point.duty_eq_stage_iff] at hduty
      have takes : m.Takes k call (.tick k) _ := .beat hduty.2 (Bool.not_eq_true _ ▸ asked)
      obtain ⟨n, -, hn, -⟩ := takes.exists_perform hcall alive
      exact ⟨.tick k, decide_eq_true rfl, hn ▸ rfl⟩
  | pinging =>
    rw [hd, Point.duty_eq_pinging_iff] at hduty
    have hround := hm.inRound hcall hduty.1
    obtain ⟨e, t, takes⟩ := exists_takes_inRound (m := m) (k := k) hround hduty.2
    obtain ⟨n, -, hn, -⟩ := takes.exists_perform hcall alive
    exact ⟨e, takes.isTurnOf, hn ▸ rfl⟩
  | counting o => exact hproceeds (hm.counts alive hd)

omit alive in
theorem Reachable.awaits (huncrossed : m.Uncrossed b) (hk : m.duty b k = .stage .reaping)
    (running : (m.world.heartbeat b).running = true) :
    (m.world.heartbeat b).stopRequested = true ∧
      ∀ e, e.isTurnOf k = true → m.perform e = none := by
  refine ⟨huncrossed.reaping k hk, fun e he => not_performs_of_stage hk nofun ?_ he⟩
  obtain ⟨j, hj⟩ := (hm.inStep b).running running
  have hnot : m.isOver j = false := by
    by_contra hover
    rw [Bool.not_eq_false, isOver_iff (b := b)] at hover
    rw [hover] at hj
    cases hj
  simp [Heartbeat.step, Heartbeat.reap, ((hm.inStep b).worker j hj).2, hnot]

/-- All of this holds if starts and stops do not cross. -/
theorem Reachable.serves (huncrossed : m.Uncrossed b) : m.Serves b where
  declines _ hk := ends_of_needless alive hk
  starts _ hk := hm.starts alive hk
  restarts _ _ hk := hm.restarts alive huncrossed hk
  works _ hk := hm.works alive hk
  counts _ _ hk := hm.counts alive hk
  asks _ hk := hm.asks alive hk
  leaves _ hk := hm.leaves alive hk
  awaits _ hk := hm.awaits huncrossed hk
  reaps _ hk := hm.reaps alive hk

end Serves

/-! ## Everything -/

/-- In this turn a start puts a worker in place. -/
def Move.installs (b : HeartbeatKey) (v : Move) : Bool :=
  v.event.key?.any fun k =>
    (v.before.duty b k).restarts && !(v.before.world.heartbeat b).running

/-- The heartbeat does not run and has no worker, and this stays so until a start puts another
worker in place: no round is counted, and no worker takes a turn, so that none pings. -/
structure Quiet (b : HeartbeatKey) (m : Machine) : Prop where
  stopped : (m.world.heartbeat b).running = false
  idle : ∀ k, (m.duty b k).works = false
  stays : ∀ fs n, m.run fs = some n → (∀ v ∈ m.steps fs, v.installs b = false) →
    (n.world.heartbeat b).running = false ∧
      (n.world.heartbeat b).rounds = (m.world.heartbeat b).rounds ∧
        ∀ v ∈ m.steps fs, ∀ k, v.event.isTurnOf k = true → (v.before.duty b k).works = false

/-- What can be said of a heartbeat after these events. -/
structure KeepsTime (b : HeartbeatKey) (es : List Event) (m : Machine) : Prop where
  /-- It runs if and only if it has a worker that has not left its loop. -/
  running_iff : (m.world.heartbeat b).running = true ↔ ∃ k, (m.duty b k).works = true
  /-- There is never more than one. -/
  unique : ∀ i j, (m.duty b i).works = true → (m.duty b j).works = true → i = j
  /-- All rounds are counted that are complete, up to the one that the worker is about to count. -/
  counted : ∀ d, m.Phase b d →
    (m.world.heartbeat b).rounds + d.uncounted = UInt64.ofNat (completed b es)
  /-- All rounds are complete that have begun, up to the one that is under way. -/
  begun : ∀ d, m.Phase b d → Machine.begun b es = completed b es + d.underway
  /-- What every call finds and leaves. -/
  serves : m.world.crashed = false → m.Serves b
  /-- A call goes from one duty to another only in turns of its own. -/
  stays : ∀ k e n, m.duty b k ≠ .other → m.perform e = some n → e.isTurnOf k = false →
    n.duty b k = m.duty b k
  /-- A heartbeat that does not run is quiet. -/
  quiet : (m.world.heartbeat b).running = false → m.Quiet b
  /-- When a stop is over, the heartbeat is quiet. -/
  returns : ∀ k e n, m.duty b k = .stage .reaping → e.isTurnOf k = true → m.perform e = some n →
    n.duty b k = .retired ∧ n.Quiet b

/-- A call goes from one duty to another only in turns of its own. -/
theorem Reachable.duty_stays (hm : m.Reachable) (hk : m.duty b k ≠ .other)
    (hn : m.perform e = some n) (he : e.isTurnOf k = false) : n.duty b k = m.duty b k := by
  have hturn : ∀ j, e.isTurnOf j = true → k ≠ j := fun j hj hkj => by
    rw [← hkj, he] at hj
    cases hj
  cases hm.pulse hn b with
  | aside unconcerned record keeps => exact keeps k hk
  | made unconcerned unmade record duty => rw [duty]
  | turn turn ht record duty => rw [duty, Function.update_of_ne (hturn _ turn)]
  | installed turn restarting rid stopped record fresh duty =>
    have hkl : k ≠ m.calls.length := fun hkl => hk (hkl ▸ fresh)
    rw [duty, Function.update_of_ne hkl, Function.update_of_ne (hturn _ turn)]

/-- An event in which no start puts a worker in place leaves a heartbeat alone that does not run. -/
theorem Reachable.quiet_perform (hm : m.Reachable) (hn : m.perform e = some n)
    (stopped : (m.world.heartbeat b).running = false)
    (hnone : Move.installs b ⟨m, e, n⟩ = false) :
    (n.world.heartbeat b).running = false ∧
      (n.world.heartbeat b).rounds = (m.world.heartbeat b).rounds := by
  cases hm.pulse hn b with
  | aside unconcerned record =>
    rw [record]
    exact ⟨stopped, rfl⟩
  | made unconcerned unmade record =>
    rw [record, unmade]
    exact ⟨rfl, rfl⟩
  | @turn k r y turn ht record =>
    obtain ⟨-, hruns, hrounds, -⟩ := ht.of_not_works ((hm.inStep b).not_works stopped k)
    rw [record]
    exact ⟨hruns.trans stopped, hrounds⟩
  | installed turn restarting =>
    rw [Move.installs, Event.isTurnOf_iff.mp turn, Option.any_some, restarting, stopped] at hnone
    cases hnone

theorem Reachable.quiet_run (hm : m.Reachable) (stopped : (m.world.heartbeat b).running = false)
    (hn : m.run fs = some n) (hnone : ∀ v ∈ m.steps fs, v.installs b = false) :
    (n.world.heartbeat b).running = false ∧
      (n.world.heartbeat b).rounds = (m.world.heartbeat b).rounds ∧
        ∀ v ∈ m.steps fs, ∀ k, v.event.isTurnOf k = true → (v.before.duty b k).works = false := by
  induction fs generalizing m with
  | nil =>
    rw [run_nil, Option.some.injEq] at hn
    subst hn
    exact ⟨stopped, rfl, fun _ hv => absurd hv List.not_mem_nil⟩
  | cons e fs ih =>
    rw [run_cons, Option.bind_eq_some_iff] at hn
    obtain ⟨l, hl, hn⟩ := hn
    rw [steps_cons hl, List.forall_mem_cons] at hnone ⊢
    obtain ⟨hstopped, hrounds⟩ := hm.quiet_perform hl stopped hnone.1
    obtain ⟨hstopped', hrounds', hidle⟩ := ih (hm.perform hl) hstopped hn hnone.2
    exact ⟨hstopped', hrounds'.trans hrounds, fun k _ => (hm.inStep b).not_works stopped k, hidle⟩

/-- A heartbeat that does not run is quiet. -/
theorem Reachable.quiet (hm : m.Reachable) (stopped : (m.world.heartbeat b).running = false) :
    m.Quiet b where
  stopped := stopped
  idle := (hm.inStep b).not_works stopped
  stays _ _ := hm.quiet_run stopped

/-- When a stop is over, the heartbeat is quiet. -/
theorem Reachable.returns (hm : m.Reachable) (hk : m.duty b k = .stage .reaping)
    (he : e.isTurnOf k = true) (hn : m.perform e = some n) :
    n.duty b k = .retired ∧ n.Quiet b := by
  obtain ⟨y, ht, hduty, -⟩ := hm.turns hn he (b := b) (by simp [hk]) (by simp [hk])
  have hhere : n.duty b k = y := by rw [hduty, Function.update_self]
  have hstopped : y = .retired ∧ (n.world.heartbeat b).running = false := by
    rw [hk] at ht
    generalize n.world.heartbeat b = r at ht
    cases ht with
    | reaped rid => exact ⟨rfl, (hm.inStep b).stopped_of_ended rid⟩
  exact ⟨hhere.trans hstopped.1, (hm.perform hn).quiet hstopped.2⟩

/-- In every run in which the starts and stops of a heartbeat are made one at a time, whatever else
happens, it is in step with its workers, counts their rounds, and is started and stopped by whoever
asks for it. -/
theorem heartbeat_keeps_time (b : HeartbeatKey) (hes : run {} es = some m)
    (single : ∀ l ∈ passed {} es, l.OneByOne b) : m.KeepsTime b es where
  running_iff := (Reachable.inStep ⟨es, hes⟩ b).running_iff
  unique _ _ := (Reachable.inStep ⟨es, hes⟩ b).unique
  counted := (ledger_run hes b).counted
  begun := (ledger_run hes b).begun
  serves alive := Reachable.serves ⟨es, hes⟩ alive (uncrossed_run hes single)
  stays _ _ _ := Reachable.duty_stays ⟨es, hes⟩
  quiet := Reachable.quiet ⟨es, hes⟩
  returns _ _ _ := Reachable.returns ⟨es, hes⟩

/-- A heartbeat is started and pings once; the pool begins to close, so that the worker ends by
itself; it is started again, and asked to stop during the round. -/
def startedTwice : List Event :=
  [.begin (.construct {} { maxClients := 1 } true .standard), .advance 0 0, .newHeartbeat 0 10,
    .begin (.startHeartbeat 0), .advance 1 0, .advance 1 0, .tick 2, .advance 2 0, .advance 2 0,
    .advance 2 0, .advance 2 0, .advance 2 0, .begin (.close 0), .advance 3 0, .tick 2,
    .advance 2 0, .advance 2 0, .begin (.startHeartbeat 0), .advance 4 0, .advance 4 0, .tick 5,
    .begin (.stopHeartbeat 0), .advance 6 0, .advance 5 0, .advance 5 0, .advance 6 0]

/-- Three rounds are counted, and nothing runs. -/
theorem heartbeat_keeps_time_startedTwice : ∃ m : Machine, run {} startedTwice = some m ∧
    (m.world.heartbeat 0).rounds = 3 ∧ (m.world.heartbeat 0).running = false ∧
    m.world.crashed = false ∧
    m.duty 0 2 = .retired ∧ m.duty 0 5 = .retired ∧ m.duty 0 6 = .retired ∧
    (∀ l ∈ passed {} startedTwice, l.OneByOne 0) ∧ m.KeepsTime 0 startedTwice := by
  have hsingle : ∀ l ∈ passed {} startedTwice, l.OneByOne 0 := by decide +kernel
  exact ⟨_, rfl, rfl, rfl, rfl, rfl, rfl, rfl, hsingle, heartbeat_keeps_time 0 rfl hsingle⟩

end Machine
end SessionPool
