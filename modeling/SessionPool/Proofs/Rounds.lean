import SessionPool.Proofs.Workers

/-!
# Rounds

A worker rests, pings the idle clients of the pool, counts that, and rests again.  How many rounds
have begun, how many are complete and how many are counted is the same up to the one that is under
way; and which of these it is follows from the duty of the worker (`Machine.Ledger`).

* `Machine.Phase`: the duty of the worker, if there is one in its loop.
* `Machine.ledger_run`: the three numbers in every run.
-/

namespace SessionPool

/-! ## Events -/

namespace Event

variable {e : Event} {k : CallKey}

/-- The call whose turn the event is, if it is a turn of one. -/
def key? : Event → Option CallKey
  | .advance k _ | .overlook k _ | .answer k _ | .expire k | .tick k => some k
  | _ => none

theorem isTurnOf_iff : e.isTurnOf k = true ↔ e.key? = some k := by
  cases e <;> simp [isTurnOf, key?]

end Event

namespace Duty

/-- How many rounds are complete and have not been counted. -/
def uncounted (d : Duty) : UInt64 := if d.counts then 1 else 0

/-- How many rounds have begun and are not complete. -/
def underway (d : Duty) : ℕ := if d = .pinging then 1 else 0

theorem eq_false_of_not_works {d y : Duty} (h : d.works = false) :
    (d = .stage .resting && y = .pinging) = false ∧ (d = .pinging && y.counts) = false := by
  constructor
  · rw [Bool.and_eq_false_iff]
    refine .inl (decide_eq_false ?_)
    rintro rfl
    cases h
  · rw [Bool.and_eq_false_iff]
    refine .inl (decide_eq_false ?_)
    rintro rfl
    cases h

end Duty

namespace Machine

variable {m n l : Machine} {e : Event} {k j : CallKey} {b : HeartbeatKey} {es fs : List Event}
  {d d' : Duty}

namespace Move

/-- In this event a call takes a turn with such duties before and after it. -/
def goes (b : HeartbeatKey) (change : Duty → Duty → Bool) (v : Move) : Bool :=
  v.event.key?.any fun k => change (v.before.duty b k) (v.after.duty b k)

/-- A worker begins a round. -/
def begins (b : HeartbeatKey) : Move → Bool :=
  goes b fun d y => d = .stage .resting && y = .pinging

/-- A round of a worker is complete: the pinging has come to something. -/
def completes (b : HeartbeatKey) : Move → Bool :=
  goes b fun d y => d = .pinging && y.counts

theorem goes_eq {change : Duty → Duty → Bool} (he : e.isTurnOf k = true) :
    goes b change ⟨m, e, n⟩ = change (m.duty b k) (n.duty b k) := by
  rw [goes, Event.isTurnOf_iff.mp he, Option.any_some]

/-- Nothing is begun or complete unless it is the turn of a worker. -/
theorem eq_false (idle : ∀ k, e.isTurnOf k = true → (m.duty b k).works = false) :
    begins b ⟨m, e, n⟩ = false ∧ completes b ⟨m, e, n⟩ = false := by
  cases he : e.key? with
  | none => exact ⟨by rw [begins, goes, he, Option.any_none],
      by rw [completes, goes, he, Option.any_none]⟩
  | some k =>
    have hturn := Event.isTurnOf_iff.mpr he
    rw [begins, completes, goes_eq hturn, goes_eq hturn]
    exact Duty.eq_false_of_not_works (idle k hturn)

end Move

/-- How many rounds have begun in a run from the beginning. -/
def begun (b : HeartbeatKey) (es : List Event) : ℕ := (steps {} es).countP (Move.begins b)

/-- How many are complete. -/
def completed (b : HeartbeatKey) (es : List Event) : ℕ := (steps {} es).countP (Move.completes b)

/-! ## The phase of the worker -/

/-- This is the duty of the worker that has not left its loop, or there is none. -/
inductive Phase (b : HeartbeatKey) (m : Machine) : Duty → Prop where
  | works {k : CallKey} (h : (m.duty b k).works = true) : Phase b m (m.duty b k)
  | none (h : ∀ k, (m.duty b k).works = false) : Phase b m .other

theorem exists_phase (b : HeartbeatKey) (m : Machine) : ∃ d, m.Phase b d := by
  by_cases h : ∃ k, (m.duty b k).works = true
  · obtain ⟨k, hk⟩ := h
    exact ⟨_, .works hk⟩
  · exact ⟨_, .none fun k => Bool.not_eq_true _ ▸ fun hk => h ⟨k, hk⟩⟩

theorem InStep.phase_unique (h : m.InStep b) (hd : m.Phase b d) (hd' : m.Phase b d') : d = d' := by
  cases hd with
  | works hk =>
    cases hd' with
    | works hj => rw [h.unique hk hj]
    | none hnone =>
      rw [hnone] at hk
      cases hk
  | none hnone =>
    cases hd' with
    | works hj =>
      rw [hnone] at hj
      cases hj
    | none => rfl

theorem InStep.phase_of_stopped (h : m.InStep b)
    (hstopped : (m.world.heartbeat b).running = false) : m.Phase b .other :=
  .none (h.not_works hstopped)

/-- From one phase of the worker to another in an event, and what is counted in it. -/
structure Shift (b : HeartbeatKey) (v : Move) (d d' : Duty) : Prop where
  rounds : (v.after.world.heartbeat b).rounds + d'.uncounted =
    (v.before.world.heartbeat b).rounds + d.uncounted + if v.completes b then 1 else 0
  begun : (if v.begins b then 1 else 0) + d.underway =
    d'.underway + if v.completes b then 1 else 0

/-- Nothing of this changes in an event that is not a turn of the worker. -/
theorem Shift.still (idle : ∀ k, e.isTurnOf k = true → (m.duty b k).works = false)
    (rounds : (n.world.heartbeat b).rounds = (m.world.heartbeat b).rounds)
    (hcounts : d'.uncounted = d.uncounted) (hpings : d'.underway = d.underway) :
    Shift b ⟨m, e, n⟩ d d' := by
  obtain ⟨hbegins, hcompletes⟩ := Move.eq_false (n := n) idle
  refine ⟨?_, ?_⟩
  · rw [hcompletes, rounds, hcounts]
    simp
  · rw [hcompletes, hbegins, hpings]
    simp

/-- What a turn of the worker counts. -/
theorem Shift.of_turns {r : Heartbeat} (ht : d.Turns (m.world.heartbeat b) m.isOver r d')
    (turn : e.isTurnOf k = true) (before : m.duty b k = d) (after : n.duty b k = d')
    (record : n.world.heartbeat b = r) (works : d.works = true) : Shift b ⟨m, e, n⟩ d d' := by
  have hbegins : Move.begins b ⟨m, e, n⟩ = (d = .stage .resting && d' = .pinging) := by
    rw [Move.begins, Move.goes_eq turn, before, after]
  have hcompletes : Move.completes b ⟨m, e, n⟩ = (d = .pinging && d'.counts) := by
    rw [Move.completes, Move.goes_eq turn, before, after]
  refine ⟨?_, ?_⟩
  · rw [hcompletes, record]
    cases ht <;> first | rfl | cases works
    all_goals simp [Duty.uncounted, Duty.counts]
  · rw [hcompletes, hbegins]
    cases ht <;> rfl

/-- What an event does to the phase of the worker. -/
theorem InStep.exists_shift (h : m.InStep b) (hpulse : Pulse b m e n) :
    ∃ d d', m.Phase b d ∧ n.Phase b d' ∧ Shift b ⟨m, e, n⟩ d d' := by
  cases hpulse with
  | aside unconcerned record keeps idle =>
    obtain ⟨d, hd⟩ := exists_phase b m
    refine ⟨d, d, hd, ?_, .still (fun k hk => ?_) (congrArg _ record) rfl rfl⟩
    · cases hd with
      | @works k hk =>
        have hsame := keeps k fun hother => by
          rw [hother] at hk
          cases hk
        rw [← hsame] at hk ⊢
        exact .works hk
      | none hnone =>
        refine .none fun k => ?_
        by_cases hk : m.duty b k = .other
        · exact Duty.works_of_isIdle (idle k hk)
        · rw [keeps k hk]
          exact hnone k
    · rw [unconcerned k hk]
      rfl
  | made unconcerned unmade record duty =>
    have hstopped : (m.world.heartbeat b).running = false := by rw [unmade]; rfl
    refine ⟨.other, .other, h.phase_of_stopped hstopped, .none fun k => ?_,
      .still (fun k hk => ?_) ?_ rfl rfl⟩
    · rw [duty]
      exact h.not_works hstopped k
    · rw [unconcerned] at hk
      cases hk
    · rw [record, unmade]
      rfl
  | @turn k r y turn ht record duty crashed =>
    have hhere : n.duty b k = y := by rw [duty, Function.update_self]
    have hthere : ∀ j, j ≠ k → n.duty b j = m.duty b j := fun j hj => by
      rw [duty, Function.update_of_ne hj]
    cases hworks : (m.duty b k).works with
    | true =>
      have hshift := Shift.of_turns ht turn rfl hhere record hworks
      rcases (ht.of_works hworks).2.2 with ⟨hy, -⟩ | ⟨rfl, -⟩
      · rw [← hhere] at hy hshift
        exact ⟨_, _, .works hworks, .works hy, hshift⟩
      · refine ⟨_, .other, .works hworks, .none fun j => ?_, hshift.rounds, hshift.begun⟩
        by_cases hjk : j = k
        · rw [hjk, hhere]
          rfl
        · rw [hthere j hjk]
          by_contra hj
          exact hjk (h.unique (Bool.not_eq_false _ ▸ hj) hworks)
    | false =>
      obtain ⟨hy, -, hrounds, -⟩ := ht.of_not_works hworks
      obtain ⟨d, hd⟩ := exists_phase b m
      refine ⟨d, d, hd, ?_, .still (fun j hj => ?_) (by rw [record, hrounds]) rfl rfl⟩
      · cases hd with
        | @works j hj =>
          have hjk : j ≠ k := fun hjk => by
            rw [hjk, hworks] at hj
            cases hj
          rw [← hthere j hjk] at hj ⊢
          exact .works hj
        | none hnone =>
          refine .none fun j => ?_
          by_cases hjk : j = k
          · rw [hjk, hhere, hy]
          · rw [hthere j hjk]
            exact hnone j
      · rw [Event.isTurnOf_iff] at turn hj
        rw [turn, Option.some.injEq] at hj
        rw [← hj, hworks]
  | @installed k old turn restarting rid stopped record fresh duty crashed =>
    have hfresh : n.duty b m.calls.length = .stage .resting := by rw [duty, Function.update_self]
    refine ⟨.other, .stage .resting, h.phase_of_stopped stopped, ?_,
      .still (fun j hj => h.not_works stopped j) ?_ rfl rfl⟩
    · rw [← hfresh]
      exact .works (by rw [hfresh]; rfl)
    · rw [record]
      rfl

/-! ## The ledger -/

/-- After these events all rounds are counted that are complete, up to the one that the worker is
about to count; and all are complete that have begun, up to the one that is under way. -/
structure Ledger (b : HeartbeatKey) (es : List Event) (m : Machine) : Prop where
  counted : ∀ d, m.Phase b d →
    (m.world.heartbeat b).rounds + d.uncounted = UInt64.ofNat (completed b es)
  begun : ∀ d, m.Phase b d → begun b es = completed b es + d.underway

theorem Ledger.snoc (h : m.Ledger b es) (hes : run {} es = some m)
    (hn : m.perform e = some n) (hn' : n.InStep b) (hd : m.Phase b d)
    (hd' : n.Phase b d') (hshift : Shift b ⟨m, e, n⟩ d d') : n.Ledger b (es ++ [e]) := by
  have hcompleted : completed b (es ++ [e]) =
      completed b es + if Move.completes b ⟨m, e, n⟩ then 1 else 0 := by
    rw [completed, steps_snoc hes hn, List.countP_append, List.countP_singleton]
    rfl
  have hbegun : Machine.begun b (es ++ [e]) =
      Machine.begun b es + if Move.begins b ⟨m, e, n⟩ then 1 else 0 := by
    rw [Machine.begun, steps_snoc hes hn, List.countP_append, List.countP_singleton]
    rfl
  refine ⟨fun d₁ hd₁ => ?_, fun d₁ hd₁ => ?_⟩
  · rw [hn'.phase_unique hd₁ hd', hshift.rounds, h.counted d hd, hcompleted]
    split <;> simp
  · have hbefore := h.begun d hd
    have hduring := hshift.begun
    rw [hn'.phase_unique hd₁ hd', hcompleted, hbegun]
    omega

/-- This holds in every run. -/
theorem ledger_run (hes : run {} es = some m) (b : HeartbeatKey) : m.Ledger b es := by
  have hempty : Ledger b [] {} := by
    refine ⟨fun d hd => ?_, fun d hd => ?_⟩
    · cases hd with
      | works h => cases h
      | none => rfl
    · cases hd with
      | works h => cases h
      | none => rfl
  refine history_induct (P := fun us l => l.Ledger b us) hempty (fun us l e n hus ih hn => ?_) hes
  have hl : l.Reachable := ⟨us, hus⟩
  obtain ⟨d, d', hd, hd', hshift⟩ := (hl.inStep b).exists_shift (hl.pulse hn b)
  exact ih.snoc hus hn ((hl.perform hn).inStep b) hd hd' hshift

end Machine
end SessionPool
