import SessionPool.Proofs.Duties

/-!
# What an event does to a heartbeat

Every event is one of four things to a heartbeat: it does not concern it, the heartbeat is made in
it, a call with a duty takes its turn, or a start puts a new worker in place.  The record of the
heartbeat and the duties of all calls after the event follow from those before it.

* `Duty.Turns`: what a turn does to the record, and which duty it leaves.
* `Machine.Takes.beats`: every turn of a call with a duty is one of these, or puts a worker in
  place.
* `Machine.Known`: whoever has a duty has it with a heartbeat that exists.
* `Machine.Reachable.pulse`: the four cases.
-/

namespace SessionPool

/-! ## The record of a heartbeat -/

namespace World

variable {w : World} {b h : HeartbeatKey} {f g : Heartbeat → Heartbeat} {r : Heartbeat}

theorem heartbeat_onHeartbeat (hb : b < w.heartbeats.length) :
    (w.onHeartbeat b f).heartbeat b = f (w.heartbeat b) := by
  unfold heartbeat onHeartbeat
  rw [List.getElem?_modify_eq, List.getElem?_eq_getElem hb]
  rfl

theorem heartbeat_onHeartbeat_of_ne (hb : h ≠ b) :
    (w.onHeartbeat h f).heartbeat b = w.heartbeat b := by
  simp [heartbeat, onHeartbeat, hb]

theorem heartbeat_congr {w' : World} (h : w'.heartbeats = w.heartbeats) :
    w'.heartbeat b = w.heartbeat b := by
  rw [heartbeat, h, heartbeat]

/-- To change a heartbeat is to give it the record that it has then. -/
theorem heartbeats_onHeartbeat (hf : f (w.heartbeat b) = r) :
    (w.onHeartbeat b f).heartbeats = (w.onHeartbeat b fun _ => r).heartbeats := by
  refine List.ext_getElem? fun i => ?_
  simp only [onHeartbeat, List.getElem?_modify]
  by_cases hi : b = i
  · subst hi hf
    cases hbeat : w.heartbeats[b]? <;> simp [heartbeat, hbeat]
  · simp [hi]

theorem heartbeats_onHeartbeat_self :
    w.heartbeats = (w.onHeartbeat b fun _ => w.heartbeat b).heartbeats := by
  have hsame := heartbeats_onHeartbeat (w := w) (b := b) (f := id) (r := w.heartbeat b) rfl
  exact (List.modify_id b w.heartbeats).symm.trans hsame

theorem onHeartbeat_onHeartbeat :
    ((w.onHeartbeat b f).onHeartbeat b g).heartbeats =
      (w.onHeartbeat b fun r => g (f r)).heartbeats := by
  simp only [onHeartbeat, List.modify_modify_eq]
  rfl

theorem length_heartbeats_onHeartbeat :
    (w.onHeartbeat b f).heartbeats.length = w.heartbeats.length := by
  simp [onHeartbeat]

end World

/-! ## Turns -/

/-- A turn of a call of this duty, and what it does: the record of the heartbeat changes from `r` to
another, and the call has another duty.  `ended` says which calls are over. -/
inductive Duty.Turns (r : Heartbeat) (ended : CallKey → Bool) :
    Duty → Heartbeat → Duty → Prop where
  /-- A start has nothing to do. -/
  | declined (needless : r.running = true ∨ r.interval ≤ 0) :
      Turns r ended (.stage .starting) r .retired
  /-- A start takes the old worker out. -/
  | cleared (stopped : r.running = false) (wanted : 0 < r.interval) :
      Turns r ended (.stage .starting) { r with worker := none } (.stage (.restarting r.worker))
  /-- Another start was faster. -/
  | late {old : Option CallKey} (rid : old.all ended = true) (running : r.running = true) :
      Turns r ended (.stage (.restarting old)) r .retired
  /-- The heartbeat is asked to stop. -/
  | asked : Turns r ended (.stage .stopping) { r with stopRequested := true } (.stage .reaping)
  /-- A stop takes the worker out that has ended, if there was one. -/
  | reaped (rid : r.worker.all ended = true) :
      Turns r ended (.stage .reaping) { r with worker := none } .retired
  /-- The worker ends because it was asked to. -/
  | quit (asked : r.stopRequested = true) :
      Turns r ended (.stage .resting) { r with running := false } .retired
  /-- The worker begins a round. -/
  | ticked (unasked : r.stopRequested = false) : Turns r ended (.stage .resting) r .pinging
  /-- The round goes on. -/
  | pinged : Turns r ended .pinging r .pinging
  /-- The round is complete. -/
  | completed (o : Outcome) : Turns r ended .pinging r (.counting o)
  /-- The round is counted, and the worker ends. -/
  | left {o : Outcome} (leaves : o.isPoolClosed = true ∨ r.stopRequested = true) :
      Turns r ended (.counting o) { r with rounds := r.rounds + 1, running := false } .retired
  /-- The round is counted, and the worker goes on. -/
  | stayed {o : Outcome} (wellPool : o.isPoolClosed = false) (unasked : r.stopRequested = false) :
      Turns r ended (.counting o) { r with rounds := r.rounds + 1 } (.stage .resting)

/-- The record of a heartbeat in which a start has put this worker. -/
def Heartbeat.manned (r : Heartbeat) (k : CallKey) : Heartbeat :=
  { r with stopRequested := false, running := true, worker := some k }

theorem Heartbeat.eq_of_unmanned {r : Heartbeat} (h : r.worker = none) :
    { r with worker := none } = r := by
  rw [← h]

namespace Machine

variable {m n l : Machine} {e : Event} {k j : CallKey} {call : Call} {t : Turn}
  {b h : HeartbeatKey} {es : List Event} {o : Outcome}

/-- What a turn of a call does to the heartbeat that the call has to do with.  `before` and `after`
are the duties of the call. -/
inductive Beats (m : Machine) (b : HeartbeatKey) (before : Duty) (t : Turn) (after : Duty) :
    Prop where
  | turns {r : Heartbeat} (h : before.Turns (m.world.heartbeat b) m.isOver r after)
      (heartbeats : t.world.heartbeats = (m.world.onHeartbeat b fun _ => r).heartbeats)
      (crashed : t.world.crashed = m.world.crashed) (started : t.started = none)
  | installs {old : Option CallKey} (restarting : before = .stage (.restarting old))
      (rid : old.all m.isOver = true) (stopped : (m.world.heartbeat b).running = false)
      (done : after = .retired)
      (heartbeats : t.world.heartbeats =
        (m.world.onHeartbeat b fun r => r.manned m.calls.length).heartbeats)
      (crashed : t.world.crashed = (m.world.crashed || (m.world.heartbeat b).worker.isSome))
      (started : t.started = some (.heartbeat b .resting))

/-- A turn that leaves the record as it was. -/
theorem Beats.still {before after : Duty}
    (h : before.Turns (m.world.heartbeat b) m.isOver (m.world.heartbeat b) after)
    (heartbeats : t.world.heartbeats = m.world.heartbeats)
    (crashed : t.world.crashed = m.world.crashed) (started : t.started = none) :
    m.Beats b before t after :=
  .turns h (heartbeats.trans World.heartbeats_onHeartbeat_self) crashed started

/-- A step of a call that stands at a point of a heartbeat. -/
theorem beats_step {s : HeartbeatPoint}
    (ht : Heartbeat.step m.world b m.calls.length m.isOver s = some t) :
    m.Beats b (.stage s) t (t.point.duty b .none) := by
  cases s with
  | starting =>
    obtain rfl := Option.some.inj ht
    simp only [Heartbeat.start]
    split
    · next needless =>
      refine .still (.declined ?_) rfl rfl rfl
      simpa using needless
    · next needed =>
      rw [Turn.goto, Point.duty_heartbeat]
      simp only [Bool.or_eq_true, decide_eq_true_eq, not_or, Bool.not_eq_true, not_le] at needed
      exact .turns (.cleared needed.1 needed.2) (World.heartbeats_onHeartbeat rfl) rfl rfl
  | restarting old =>
    obtain ⟨rid, ht⟩ := Option.ite_none_right_eq_some.mp ht
    obtain rfl := Option.some.inj ht
    simp only [Heartbeat.restart]
    split
    · next running => exact .still (.late rid running) rfl rfl rfl
    · next stopped => exact .installs rfl rid (Bool.not_eq_true _ ▸ stopped) rfl rfl rfl rfl
  | stopping =>
    obtain rfl := Option.some.inj ht
    rw [Heartbeat.requestStop, Turn.goto, Point.duty_heartbeat]
    exact .turns .asked (World.heartbeats_onHeartbeat rfl) rfl rfl
  | reaping =>
    have hreaped : (m.world.heartbeat b).worker.all m.isOver = true →
        (Duty.stage .reaping).Turns (m.world.heartbeat b) m.isOver
          { m.world.heartbeat b with worker := none } .retired := .reaped
    simp only [Heartbeat.step, Heartbeat.reap] at ht
    split at ht
    · next hworker =>
      obtain rfl := Option.some.inj ht
      refine .still ?_ rfl rfl rfl
      have hself := hreaped (by rw [hworker]; rfl)
      rwa [Heartbeat.eq_of_unmanned hworker] at hself
    · next hworker =>
      obtain ⟨rid, ht⟩ := Option.ite_none_right_eq_some.mp ht
      obtain rfl := Option.some.inj ht
      rw [hworker] at hreaped
      exact .turns (hreaped rid) (World.heartbeats_onHeartbeat rfl) rfl rfl
  | resting =>
    obtain ⟨asked, ht⟩ := Option.ite_none_right_eq_some.mp ht
    obtain rfl := Option.some.inj ht
    exact .turns (.quit asked) (World.heartbeats_onHeartbeat rfl) rfl rfl

/-- A round is counted. -/
theorem beats_endRound (hb : b < m.world.heartbeats.length) (o : Outcome) :
    m.Beats b (.counting o) (Heartbeat.endRound m.world b o)
      ((Heartbeat.endRound m.world b o).point.duty b .none) := by
  -- Once the round is counted, the worker leaves, or it looks whether it was asked to.
  have hquit : ∀ ns, o.isPoolClosed = true ∨ (m.world.heartbeat b).stopRequested = true →
      m.Beats b (.counting o) ((Heartbeat.quit (m.world.onHeartbeat b fun r =>
        { r with rounds := r.rounds + 1 }) b).saying ns) .retired := fun ns leaves =>
    .turns (.left leaves)
      (World.onHeartbeat_onHeartbeat.trans (World.heartbeats_onHeartbeat rfl)) rfl rfl
  have hrest : ∀ ns, o.isPoolClosed = false →
      m.Beats b (.counting o) ((Heartbeat.rest (m.world.onHeartbeat b fun r =>
          { r with rounds := r.rounds + 1 }) b).saying ns)
        (((Heartbeat.rest (m.world.onHeartbeat b fun r =>
          { r with rounds := r.rounds + 1 }) b).saying ns).point.duty b .none) := by
    intro ns well
    unfold Heartbeat.rest
    rw [World.heartbeat_onHeartbeat hb]
    split
    · next asked => exact hquit ns (.inr asked)
    · next unasked =>
      show m.Beats b _ _ ((Point.heartbeat b .resting).duty b .none)
      rw [Point.duty_heartbeat]
      exact .turns (.stayed well (Bool.not_eq_true _ ▸ unasked)) (World.heartbeats_onHeartbeat rfl)
        rfl rfl
  simp only [Heartbeat.endRound]
  split
  · exact hquit _ (.inl rfl)
  · next f hf =>
    refine hrest _ ?_
    cases f with
    | poolClosed address => exact absurd rfl (hf address)
    | _ => rfl
  · exact hrest _ rfl
  · exact hrest [] rfl

/-- A turn of a call that stands at a point of a heartbeat. -/
theorem Takes.beats_of_heartbeat {s : HeartbeatPoint} (takes : m.Takes k call e t)
    (hx : call.point = .heartbeat b s) (hs : call.sequel = .none) :
    m.Beats b (.stage s) t (t.point.duty b (call.sequelIn e)) := by
  obtain ⟨x, sequel, notices⟩ := call
  obtain rfl : x = .heartbeat b s := hx
  obtain rfl : sequel = .none := hs
  cases takes with
  | @step pick t ht =>
    have hsequel : (Call.mk (.heartbeat b s) .none notices).sequelIn (.advance k pick) = .none := by
      cases s <;> rfl
    rw [hsequel]
    exact beats_step ht
  | overlooked ht hpoint => cases hpoint
  | beat hpoint wanted =>
    cases hpoint
    have hpinging : (Point.keepAlive (m.world.heartbeat b).pool .draining).duty b (.beat b) =
        .pinging := Point.duty_beat b (fun _ => Point.noConfusion)
    refine .still ?_ rfl rfl rfl
    exact hpinging ▸ .ticked wanted
  | stocked a hpoint | opened a hpoint | pinged a hpoint | replied a hpoint => cases hpoint
  | parted a hpoint => cases hpoint
  | expired hpoint limited => cases hpoint

/-- A turn of a worker in a round. -/
theorem Takes.beats_of_beat (takes : m.Takes k call e t) (hs : call.sequel = .beat b)
    (hb : b < m.world.heartbeats.length) (away : ∀ h s, call.point ≠ .heartbeat h s) :
    m.Beats b (call.point.duty b (.beat b)) t (t.point.duty b (call.sequelIn e)) := by
  obtain ⟨x, sequel, notices⟩ := call
  obtain rfl : sequel = .beat b := hs
  by_cases hover : ∃ o, x = .finished o
  · obtain ⟨o, rfl⟩ := hover
    obtain ⟨hpick, ht⟩ := takes.turn_eq rfl rfl nofun
    obtain ⟨pick, rfl⟩ := hpick (by rintro _ _ _ ⟨⟩)
    obtain rfl := Option.some.inj ht
    rw [Point.duty_finished_beat]
    exact beats_endRound hb o
  · rw [not_exists] at hover
    have hspares := takes.sparesHeartbeats away fun o _ hpoint => absurd hpoint (hover o)
    have hstays : (Call.mk x (.beat b) notices).sequelIn e = .beat b := by
      cases x with
      | heartbeat h s => exact absurd rfl (away h s)
      | finished o => exact absurd rfl (hover o)
      | _ => rfl
    rw [hstays, Point.duty_beat b hover]
    refine .still ?_ hspares.heartbeats hspares.crashed hspares.started
    by_cases hdone : ∃ o, t.point = .finished o
    · obtain ⟨o, hdone⟩ := hdone
      rw [hdone, Point.duty_finished_beat]
      exact .completed o
    · rw [not_exists] at hdone
      rw [Point.duty_beat b hdone]
      exact .pinged

/-- A turn of a call that has to do with no heartbeat. -/
theorem Takes.of_unconcerned (takes : m.Takes k call e t)
    (hnone : call.point.heartbeat? call.sequel = none)
    (away : ∀ h s, call.point ≠ .heartbeat h s) :
    t.SparesHeartbeats m.world ∧ t.point.heartbeat? (call.sequelIn e) = none := by
  obtain ⟨x, sequel, notices⟩ := call
  simp only at hnone away
  have hspares : t.SparesHeartbeats m.world := by
    refine takes.sparesHeartbeats away fun o h _ hbeat => ?_
    obtain rfl : sequel = .beat h := hbeat
    cases hnone
  refine ⟨hspares, ?_⟩
  have hsequel : (Call.mk x sequel notices).sequelIn e = sequel ∨
      (Call.mk x sequel notices).sequelIn e = .none := by
    cases x with
    | heartbeat h s => exact absurd rfl (away h s)
    | finished o => exact .inr rfl
    | _ => exact .inl rfl
  rcases hsequel with h | h
  · rw [h]
    cases sequel with
    | none => exact hspares.point
    | beat h => cases hnone
    | _ => rfl
  · rw [h]
    exact hspares.point

/-! ## Heartbeats that exist -/

/-- Nothing is done with the result of a call at a point of a heartbeat, and every call that has to
do with a heartbeat has to do with one that exists. -/
structure Known (m : Machine) : Prop where
  plain : ∀ k call, m.call? k = some call → ∀ h s, call.point = .heartbeat h s →
    call.sequel = .none
  exists_heartbeat : ∀ k call, m.call? k = some call → ∀ b,
    call.point.heartbeat? call.sequel = some b → b < m.world.heartbeats.length

/-- All that a turn can be of a call of such a machine. -/
theorem Known.beats_or_spares (hm : m.Known) (hk : m.call? k = some call)
    (takes : m.Takes k call e t) :
    (∃ b, call.point.heartbeat? call.sequel = some b ∧ b < m.world.heartbeats.length ∧
        m.Beats b (call.point.duty b call.sequel) t (t.point.duty b (call.sequelIn e))) ∨
      call.point.heartbeat? call.sequel = none ∧ t.SparesHeartbeats m.world ∧
        t.point.heartbeat? (call.sequelIn e) = none := by
  cases hcall : call.point.heartbeat? call.sequel with
  | some b =>
    have hb := hm.exists_heartbeat k call hk b hcall
    refine .inl ⟨b, rfl, hb, ?_⟩
    by_cases hx : ∃ h s, call.point = .heartbeat h s
    · obtain ⟨h, s, hx⟩ := hx
      have hs := hm.plain k call hk h s hx
      obtain rfl : h = b := by
        rw [hx, hs] at hcall
        exact Option.some.inj hcall
      rw [hx, hs, Point.duty_heartbeat]
      exact takes.beats_of_heartbeat hx hs
    · have hs : call.sequel = .beat b := by
        obtain ⟨x, sequel, notices⟩ := call
        simp only at hcall hx ⊢
        cases sequel with
        | beat h => exact congrArg Sequel.beat (Option.some.inj hcall)
        | none => cases x <;> first | exact absurd ⟨_, _, rfl⟩ hx | cases hcall
        | _ => cases hcall
      rw [hs]
      exact takes.beats_of_beat hs hb fun h s hpoint => hx ⟨h, s, hpoint⟩
  | none =>
    refine .inr ⟨rfl, takes.of_unconcerned hcall fun h s hx => ?_⟩
    rw [hx, hm.plain k call hk h s hx] at hcall
    cases hcall

/-- After a turn that leads to a point of a heartbeat nothing is to be done with the result. -/
theorem Known.sequelIn_eq (hm : m.Known) (hk : m.call? k = some call)
    (takes : m.Takes k call e t) {s : HeartbeatPoint} (hx : t.point = .heartbeat h s) :
    call.sequelIn e = .none := by
  have hplain := hm.plain k call hk
  obtain ⟨x, sequel, notices⟩ := call
  simp only at hplain
  cases x with
  | heartbeat h' s' =>
    obtain rfl := hplain h' s' rfl
    cases takes with
    | step ht => cases s' <;> rfl
    | overlooked ht hpoint => cases hpoint
    | beat hpoint wanted => cases hx
    | stocked a hpoint | opened a hpoint | pinged a hpoint | replied a hpoint => cases hpoint
    | parted a hpoint => cases hpoint
    | expired hpoint limited => cases hpoint
  | finished o => rfl
  | _ =>
    have hpoint := (takes.sparesHeartbeats nofun nofun).point
    rw [hx] at hpoint
    cases hpoint

/-- A call that begins leaves all heartbeats alone. -/
theorem heartbeats_enter (w : World) (o : Operation) :
    (o.enter w).world.heartbeats = w.heartbeats ∧ (o.enter w).world.crashed = w.crashed := by
  refine ⟨?_, ?_⟩ <;> cases o <;> simp only [Operation.enter, Operation.make, Operation.giveUp]
  all_goals repeat' split
  all_goals rfl

/-- A call begins away from all heartbeats, or it is about to start or to stop one. -/
theorem away_enter (w : World) (o : Operation) :
    (∃ b, o = .startHeartbeat b ∨ o = .stopHeartbeat b) ∨
      (o.enter w).point.heartbeat? (o.enter w).sequel = none ∧
        (o.enter w).point.heartbeat? .none = none := by
  cases o <;> simp only [Operation.enter, Operation.make, Operation.giveUp]
  all_goals repeat' split
  all_goals first
    | exact .inl ⟨_, .inl rfl⟩
    | exact .inl ⟨_, .inr rfl⟩
    | exact .inr ⟨rfl, rfl⟩

/-- A call begins without a duty, or it is about to start or to stop a heartbeat. -/
theorem isIdle_enter (w : World) (o : Operation) (b : HeartbeatKey) :
    ((o.enter w).point.duty b (o.enter w).sequel).isIdle = true := by
  rcases away_enter w o with ⟨h, rfl | rfl⟩ | ⟨hnone, -⟩
  · simp only [Operation.enter, Point.duty]
    split <;> rfl
  · simp only [Operation.enter, Point.duty]
    split <;> rfl
  · exact Point.isIdle_of_heartbeat? (by simp [hnone])

theorem Befalls.length_heartbeats {w : World} (h : m.Befalls e w) :
    m.world.heartbeats.length ≤ w.heartbeats.length := by
  cases h with
  | newHeartbeat interval hp =>
    rw [World.addHeartbeat, List.length_append]
    exact Nat.le_add_right ..
  | _ => exact le_rfl

/-- A call that has to do with a heartbeat has to do with no other one after its turn. -/
theorem Beats.heartbeat?_eq {before : Duty} {s : Sequel}
    (beats : m.Beats b before t (t.point.duty b s)) (hh : t.point.heartbeat? s = some h) :
    h = b := by
  have hother : t.point.duty b s ≠ .other := fun hother => by
    rw [hother] at beats
    cases beats with
    | turns h => cases h
    | installs restarting rid stopped done => cases done
  refine Option.some.inj (hh.symm.trans (Point.heartbeat?_eq hother fun hover => ?_))
  rw [Point.heartbeat?_of_retired hover] at hh
  cases hh

theorem Beats.length_heartbeats {before after : Duty} (beats : m.Beats b before t after) :
    t.world.heartbeats.length = m.world.heartbeats.length := by
  cases beats with
  | turns h heartbeats => rw [heartbeats, World.length_heartbeats_onHeartbeat]
  | installs restarting rid stopped done heartbeats =>
    rw [heartbeats, World.length_heartbeats_onHeartbeat]

theorem Beats.started_eq {before after : Duty} (beats : m.Beats b before t after) :
    ∀ x ∈ t.started, x = .heartbeat b .resting := by
  cases beats with
  | turns h heartbeats crashed started =>
    rw [started]
    nofun
  | installs restarting rid stopped done heartbeats crashed started =>
    rw [started]
    exact fun x hx => (Option.some.inj hx).symm

theorem Beats.heartbeat_of_ne {before after : Duty} (beats : m.Beats h before t after)
    (hb : h ≠ b) : t.world.heartbeat b = m.world.heartbeat b := by
  cases beats with
  | turns h' heartbeats =>
    rw [World.heartbeat_congr heartbeats, World.heartbeat_onHeartbeat_of_ne hb]
  | installs restarting rid stopped done heartbeats =>
    rw [World.heartbeat_congr heartbeats, World.heartbeat_onHeartbeat_of_ne hb]

/-- A turn leads to such a machine again. -/
theorem Known.turned (hm : m.Known) (hk : m.call? k = some call) (takes : m.Takes k call e t)
    (turned : m.Turned k call e t n) : n.Known := by
  obtain ⟨hlength, hthere, hstarted⟩ : t.world.heartbeats.length = m.world.heartbeats.length ∧
      (∀ h, t.point.heartbeat? (call.sequelIn e) = some h → h < m.world.heartbeats.length) ∧
        ∀ x ∈ t.started, ∃ b < m.world.heartbeats.length, x = .heartbeat b .resting := by
    rcases hm.beats_or_spares hk takes with ⟨b, -, hb, beats⟩ | ⟨-, hspares, hnone⟩
    · exact ⟨beats.length_heartbeats, fun h hh => beats.heartbeat?_eq hh ▸ hb,
        fun x hx => ⟨b, hb, beats.started_eq x hx⟩⟩
    · refine ⟨congrArg List.length hspares.heartbeats, ?_, ?_⟩
      · rw [hnone]
        nofun
      · rw [hspares.started]
        nofun
  rw [← turned.world] at hlength
  refine ⟨fun j call' hj h s hx => ?_, fun j call' hj b hb => ?_⟩
  · rcases turned.call?_cases hj with ⟨-, hw, hs⟩ | ⟨call₀, hj₀, hw, hs⟩ | ⟨x, -, rfl⟩
    · rw [hs]
      rw [hx] at hw
      generalize hy : t.point = y at hw
      cases hw
      exact hm.sequelIn_eq hk takes hy
    · rw [hs]
      rw [hx] at hw
      generalize hy : call₀.point = y at hw
      cases hw
      exact hm.plain j call₀ hj₀ h s hy
    · rfl
  · rw [hlength]
    rcases turned.call?_cases hj with ⟨-, hw, hs⟩ | ⟨call₀, hj₀, hw, hs⟩ | ⟨x, hx, rfl⟩
    · rw [hs, hw.heartbeat?_eq] at hb
      exact hthere b hb
    · rw [hs, hw.heartbeat?_eq] at hb
      exact hm.exists_heartbeat j call₀ hj₀ b hb
    · obtain ⟨b', hb', rfl⟩ := hstarted x hx
      obtain rfl : b' = b := Option.some.inj hb
      exact hb'

/-- The call that begins, and those that were there before. -/
theorem call?_begin_cases {o : Operation} {call' : Call} (hj : (m.begin o).call? j = some call') :
    m.call? j = some call' ∨ j = m.calls.length ∧ call' =
      { point := (o.enter m.world).point, sequel := (o.enter m.world).sequel,
        notices := (o.enter m.world).notices } := by
  rcases Nat.lt_trichotomy j m.calls.length with hlt | rfl | hgt
  · refine .inl ?_
    rwa [call?, Machine.begin, List.getElem?_append_left hlt] at hj
  · rw [call?_begin, Option.some.injEq] at hj
    exact .inr ⟨rfl, hj.symm⟩
  · rw [call?, Machine.begin, List.getElem?_eq_none (by simp; omega)] at hj
    cases hj

/-- The beginning of a call leads to such a machine again. -/
theorem Known.begin (hm : m.Known) {o : Operation} (permits : m.permits o = true) :
    (m.begin o).Known := by
  have hlength : (m.begin o).world.heartbeats.length = m.world.heartbeats.length :=
    congrArg List.length (heartbeats_enter m.world o).1
  refine ⟨fun j call' hj h s hx => ?_, fun j call' hj b hb => ?_⟩
  · rcases call?_begin_cases hj with hj | ⟨-, rfl⟩
    · exact hm.plain j call' hj h s hx
    · rcases away_enter m.world o with ⟨b, rfl | rfl⟩ | ⟨-, haway⟩
      · rfl
      · rfl
      · rw [show (o.enter m.world).point = .heartbeat h s from hx] at haway
        cases haway
  · rw [hlength]
    rcases call?_begin_cases hj with hj | ⟨-, rfl⟩
    · exact hm.exists_heartbeat j call' hj b hb
    · rcases away_enter m.world o with ⟨h, rfl | rfl⟩ | ⟨hnone, -⟩
      · obtain rfl : h = b := Option.some.inj hb
        exact of_decide_eq_true permits
      · obtain rfl : h = b := Option.some.inj hb
        exact of_decide_eq_true permits
      · rw [hnone] at hb
        cases hb

/-- Every reachable machine is such. -/
theorem Reachable.known (hm : m.Reachable) : m.Known := by
  have hempty : Known {} := ⟨nofun, nofun⟩
  refine hm.induct hempty fun l n e ih hn => ?_
  rcases perform_cases hn with ⟨k, call, t, hk, takes, turned⟩ | ⟨o, rfl, permits, rfl⟩ |
    ⟨w, befalls, rfl⟩
  · exact ih.turned hk takes turned
  · exact ih.begin permits
  · exact ⟨ih.plain, fun k call hk b hb =>
      (ih.exists_heartbeat k call hk b hb).trans_le befalls.length_heartbeats⟩

/-! ## Four cases -/

/-- What the event that leads from `m` to `n` does to a heartbeat. -/
inductive Pulse (b : HeartbeatKey) (m : Machine) (e : Event) (n : Machine) : Prop where
  /-- It does not concern the heartbeat. -/
  | aside (unconcerned : ∀ k, e.isTurnOf k = true → m.duty b k = .other)
      (record : n.world.heartbeat b = m.world.heartbeat b)
      (keeps : ∀ k, m.duty b k ≠ .other → n.duty b k = m.duty b k)
      (idle : ∀ k, m.duty b k = .other → (n.duty b k).isIdle = true)
  /-- The heartbeat is made. -/
  | made {p : PoolKey} {interval : Int} (unconcerned : ∀ k, e.isTurnOf k = false)
      (unmade : m.world.heartbeat b = default)
      (record : n.world.heartbeat b = { pool := p, interval }) (duty : n.duty b = m.duty b)
  /-- A call with a duty takes its turn. -/
  | turn {k : CallKey} {r : Heartbeat} {y : Duty} (turn : e.isTurnOf k = true)
      (h : (m.duty b k).Turns (m.world.heartbeat b) m.isOver r y)
      (record : n.world.heartbeat b = r) (duty : n.duty b = Function.update (m.duty b) k y)
      (crashed : n.world.crashed = false)
  /-- A start puts a new worker in place. -/
  | installed {k : CallKey} {old : Option CallKey} (turn : e.isTurnOf k = true)
      (restarting : m.duty b k = .stage (.restarting old)) (rid : old.all m.isOver = true)
      (stopped : (m.world.heartbeat b).running = false)
      (record : n.world.heartbeat b = (m.world.heartbeat b).manned m.calls.length)
      (fresh : m.duty b m.calls.length = .other)
      (duty : n.duty b = Function.update (Function.update (m.duty b) k .retired) m.calls.length
        (.stage .resting))
      (crashed : n.world.crashed = (m.world.heartbeat b).worker.isSome)

/-- After an event that does not concern the heartbeat, whoever has begun to start it, to stop it or
to work has the duty that it had before. -/
theorem duty_eq_of_busy (keeps : ∀ k, m.duty b k ≠ .other → n.duty b k = m.duty b k)
    (idle : ∀ k, m.duty b k = .other → (n.duty b k).isIdle = true)
    (hk : (n.duty b k).isIdle = false) : n.duty b k = m.duty b k :=
  keeps k fun hother => by
    rw [idle k hother] at hk
    cases hk

theorem duty_eq (hk : m.call? k = some call) : m.duty b k = call.point.duty b call.sequel := by
  rw [duty, hk, Option.elim_some]

theorem duty_of_none (hk : m.call? k = none) : m.duty b k = .other := by
  rw [duty, hk, Option.elim_none]

theorem duty_fresh (m : Machine) (b : HeartbeatKey) : m.duty b m.calls.length = .other :=
  duty_of_none (List.getElem?_eq_none le_rfl)

/-- Waiting for a call is waiting for its duty to end. -/
theorem isOver_iff : m.isOver k = true ↔ m.duty b k = .retired := by
  unfold isOver duty
  cases m.call? k with
  | none => simp
  | some call =>
    obtain ⟨x, sequel, notices⟩ := call
    rw [Option.elim_some, Point.duty_eq_retired_iff]
    cases sequel <;> cases x <;> simp [Call.isOver, Call.outcome?]

/-- The duties after a turn. -/
theorem Turned.duty_eq (hk : m.call? k = some call) (turned : m.Turned k call e t n)
    (b : HeartbeatKey) : n.duty b =
      Function.update (Function.update (m.duty b) k (t.point.duty b (call.sequelIn e)))
        m.calls.length (t.started.elim .other fun x => x.duty b .none) := by
  funext j
  rcases Nat.lt_trichotomy j m.calls.length with hlt | rfl | hgt
  · rw [Function.update_of_ne hlt.ne]
    by_cases hjk : j = k
    · obtain ⟨call', hk', hw, hs, -⟩ := turned.mine
      rw [hjk, Function.update_self, Machine.duty_eq hk', hs, hw.duty_eq]
    · have hj₀ : m.call? j = some m.calls[j] := List.getElem?_eq_getElem hlt
      obtain ⟨call₁, hj₁, hw, hs, -⟩ := turned.others j m.calls[j] hjk hj₀
      rw [Function.update_of_ne hjk, Machine.duty_eq hj₁, Machine.duty_eq hj₀, hs, hw.duty_eq]
  · rw [Function.update_self]
    have hfresh := turned.fresh
    cases hstarted : t.started with
    | none =>
      rw [hstarted] at hfresh
      exact duty_of_none hfresh
    | some x =>
      rw [hstarted] at hfresh
      exact Machine.duty_eq hfresh
  · rw [Function.update_of_ne hgt.ne', Function.update_of_ne (hgt.trans' (call?_lt hk)).ne',
      duty_of_none (turned.beyond j hgt)]
    exact (duty_of_none (List.getElem?_eq_none hgt.le)).symm

/-- The duties after the beginning of a call. -/
theorem duty_begin (m : Machine) (o : Operation) (b : HeartbeatKey) :
    (m.begin o).duty b = Function.update (m.duty b) m.calls.length
      ((o.enter m.world).point.duty b (o.enter m.world).sequel) := by
  funext j
  by_cases hj : j = m.calls.length
  · rw [hj, Function.update_self, Machine.duty_eq (call?_begin m o)]
  · rw [Function.update_of_ne hj]
    cases hcall : m.call? j with
    | none =>
      rw [duty_of_none hcall]
      cases hcall' : (m.begin o).call? j with
      | none => exact duty_of_none hcall'
      | some call' =>
        rcases call?_begin_cases hcall' with h | ⟨h, -⟩
        · rw [hcall] at h
          cases h
        · exact absurd h hj
    | some call =>
      have hcall' : (m.begin o).call? j = some call := by
        rw [call?, Machine.begin, List.getElem?_append_left (call?_lt hcall)]
        exact hcall
      rw [Machine.duty_eq hcall, Machine.duty_eq hcall']

/-- A turn of a call that has to do with another heartbeat, or with none. -/
theorem Pulse.of_unconcerned (hk : m.call? k = some call) (takes : m.Takes k call e t)
    (turned : m.Turned k call e t n) (before : call.point.heartbeat? call.sequel ≠ some b)
    (after : t.point.heartbeat? (call.sequelIn e) ≠ some b)
    (record : t.world.heartbeat b = m.world.heartbeat b)
    (started : ∀ x ∈ t.started, x.duty b .none = .other) : Pulse b m e n := by
  have hover : call.point.duty b call.sequel ≠ .retired := fun hover =>
    have ⟨hs, _, hx⟩ := Point.duty_eq_retired_iff.mp hover
    takes.not_over hx hs
  have hother : m.duty b k = .other := by
    rw [Machine.duty_eq hk]
    exact Point.duty_of_heartbeat? before hover
  have hstarted : (t.started.elim .other fun x => x.duty b .none) = .other := by
    cases hx : t.started with
    | none => rfl
    | some x => exact started x hx
  have hduty := turned.duty_eq hk b
  rw [hstarted] at hduty
  refine .aside (fun j hj => takes.key_eq hj ▸ hother) ?_ (fun j hj => ?_) fun j hj => ?_
  · rw [turned.world, record]
  · have hjk : j ≠ k := fun h => hj (h ▸ hother)
    have hjl : j ≠ m.calls.length := fun h => hj (h ▸ duty_fresh m b)
    rw [hduty, Function.update_of_ne hjl, Function.update_of_ne hjk]
  · rw [hduty]
    by_cases hjl : j = m.calls.length
    · rw [hjl, Function.update_self]
      rfl
    · rw [Function.update_of_ne hjl]
      by_cases hjk : j = k
      · rw [hjk, Function.update_self]
        exact Point.isIdle_of_heartbeat? after
      · rw [Function.update_of_ne hjk, hj]
        rfl

/-- A turn of a call that has to do with the heartbeat. -/
theorem Pulse.of_beats (hk : m.call? k = some call) (takes : m.Takes k call e t)
    (turned : m.Turned k call e t n) (hb : b < m.world.heartbeats.length)
    (hm : m.world.crashed = false)
    (beats : m.Beats b (call.point.duty b call.sequel) t (t.point.duty b (call.sequelIn e))) :
    Pulse b m e n := by
  have hkl : k ≠ m.calls.length := (call?_lt hk).ne
  have hduty := turned.duty_eq hk b
  rw [← Machine.duty_eq hk] at beats
  cases beats with
  | turns h heartbeats crashed started =>
    have hrecord : n.world.heartbeat b = _ :=
      (World.heartbeat_congr (turned.world ▸ heartbeats)).trans (World.heartbeat_onHeartbeat hb)
    refine .turn takes.isTurnOf h hrecord ?_ ?_
    · rw [hduty, started, Option.elim_none, Function.update_eq_self_iff,
        Function.update_of_ne hkl.symm, duty_fresh]
    · rw [turned.world, crashed, hm]
  | installs restarting rid stopped done heartbeats crashed started =>
    have hrecord : n.world.heartbeat b = _ :=
      (World.heartbeat_congr (turned.world ▸ heartbeats)).trans (World.heartbeat_onHeartbeat hb)
    refine .installed takes.isTurnOf restarting rid stopped hrecord (duty_fresh m b) ?_ ?_
    · rw [hduty, started, Option.elim_some, Point.duty_heartbeat, done]
    · rw [turned.world, crashed, hm, Bool.false_or]

/-- What an event does to a heartbeat. -/
theorem Reachable.pulse (hm : m.Reachable) (hn : m.perform e = some n) (b : HeartbeatKey) :
    Pulse b m e n := by
  have hcrashed := not_crashed_of_perform hn
  rcases perform_cases hn with ⟨k, call, t, hk, takes, turned⟩ | ⟨o, rfl, permits, rfl⟩ |
    ⟨w, befalls, rfl⟩
  · rcases hm.known.beats_or_spares hk takes with ⟨h, hcall, hlt, beats⟩ | ⟨hcall, hspares, hnone⟩
    · by_cases hb : h = b
      · subst hb
        exact .of_beats hk takes turned hlt hcrashed beats
      · refine .of_unconcerned hk takes turned ?_ ?_ (beats.heartbeat_of_ne hb) fun x hx => ?_
        · rw [hcall]
          exact fun h => hb (Option.some.inj h)
        · exact fun hh => hb (beats.heartbeat?_eq hh).symm
        · rw [beats.started_eq x hx]
          exact if_neg hb
    · refine .of_unconcerned hk takes turned ?_ ?_ (World.heartbeat_congr hspares.heartbeats) ?_
      · rw [hcall]
        nofun
      · rw [hnone]
        nofun
      · rw [hspares.started]
        nofun
  · have hduty := duty_begin m o b
    refine .aside nofun (World.heartbeat_congr (heartbeats_enter m.world o).1) (fun j hj => ?_)
      fun j hj => ?_
    · have hjl : j ≠ m.calls.length := fun h => hj (h ▸ duty_fresh m b)
      rw [hduty, Function.update_of_ne hjl]
    · rw [hduty]
      by_cases hjl : j = m.calls.length
      · rw [hjl, Function.update_self]
        exact isIdle_enter m.world o b
      · rw [Function.update_of_ne hjl, hj]
        rfl
  · have hsame : w.heartbeat b = m.world.heartbeat b → Pulse b m e { m with world := w } :=
      fun record => .aside (by cases befalls <;> nofun) record (fun _ _ => rfl) fun j hj => by
        have hother : ({ m with world := w } : Machine).duty b j = .other := hj
        rw [hother]
        rfl
    cases befalls with
    | @newHeartbeat p interval hp =>
      rcases Nat.lt_trichotomy b m.world.heartbeats.length with hlt | rfl | hgt
      · refine hsame ?_
        rw [World.heartbeat, World.addHeartbeat, List.getElem?_append_left hlt, World.heartbeat]
      · have hrecord : (m.world.addHeartbeat { pool := p, interval }).heartbeat
            m.world.heartbeats.length = { pool := p, interval } := by
          rw [World.heartbeat, World.addHeartbeat, List.getElem?_concat_length, Option.getD_some]
        refine .made (fun _ => rfl) ?_ hrecord rfl
        rw [World.heartbeat, List.getElem?_eq_none le_rfl, Option.getD_none]
      · refine hsame ?_
        rw [World.heartbeat, World.addHeartbeat, List.getElem?_eq_none (by simp; omega),
          World.heartbeat, List.getElem?_eq_none hgt.le]
    | _ => exact hsame rfl

end Machine
end SessionPool
