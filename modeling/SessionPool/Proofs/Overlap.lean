import SessionPool.Proofs.Timekeeping

/-!
# Starts that overlap

A start gives up the lock between its two sections, while it waits for the old worker.  What it
finds in the second section is not always what it left in the first: another start may have put a
worker in place, and that one may have ended by itself since.  The second section looks whether the
heartbeat is running and not whether a worker is in place, so it forgets a worker that nobody has
waited for, and that ends the whole program.

* `Duty.Turns.occupied`: in a turn a worker stays in place, or it is taken out.
* `Machine.occupied_iff_since`: what a waiting start finds in the place of the worker.
* `Machine.crashed_iff_overtaken`: the program ends if and only if a start goes on that was
  overtaken.
-/

namespace SessionPool

/-- In such a turn the worker in place is taken out: a start begins to wait for it, or a stop has
waited for it. -/
def Duty.clears (d y : Duty) : Bool :=
  d = .stage .starting && y.restarts || d = .stage .reaping && y = .retired

/-- Whoever waits has begun to start the heartbeat. -/
theorem Duty.isIdle_of_restarts {d : Duty} (h : d.restarts = true) : d.isIdle = false := by
  cases d with
  | stage s => cases s <;> first | rfl | cases h
  | _ => cases h

namespace Duty.Turns

variable {d y : Duty} {r r' : Heartbeat} {ended : CallKey → Bool}

/-- Nobody puts a worker in place in such a turn, and only a turn that takes it out takes it out. -/
theorem occupied (h : d.Turns r ended r' y) :
    r'.worker.isSome = (r.worker.isSome && !d.clears y) := by
  cases h with
  | cleared | reaped => exact (Bool.and_false _).symm
  | _ => exact (Bool.and_true _).symm

/-- Whoever waits after its turn has taken the worker out. -/
theorem clears_of_restarts (h : d.Turns r ended r' y) (hy : y.restarts = true) :
    d.clears y = true := by
  cases h with
  | cleared => rfl
  | _ => cases hy

/-- Whoever waits and takes such a turn has found the heartbeat running. -/
theorem running_of_restarts (h : d.Turns r ended r' y) (hd : d.restarts = true) :
    r.running = true := by
  cases h with
  | late rid running => exact running
  | _ => cases hd

end Duty.Turns

namespace Machine

variable {m n : Machine} {e : Event} {k : CallKey} {b : HeartbeatKey} {es : List Event}
  {p q : Move → Bool} {v : Move} {vs : List Move}

namespace Move

/-- In this event the worker of the heartbeat is taken out of its place. -/
def clears (b : HeartbeatKey) : Move → Bool := goes b Duty.clears

/-- While the call of this key waits in a start, another start puts a worker in place. -/
def overtakes (b : HeartbeatKey) (k : CallKey) (v : Move) : Bool :=
  v.installs b && (v.before.duty b k).restarts && (v.after.duty b k).restarts

theorem installs_eq (he : e.isTurnOf k = true) : installs b ⟨m, e, n⟩ =
    ((m.duty b k).restarts && !(m.world.heartbeat b).running) := by
  rw [installs, Event.isTurnOf_iff.mp he, Option.any_some]

/-- An event that is no turn of a call with a duty leaves the place of the worker alone. -/
theorem installs_clears_eq_false (unconcerned : ∀ k, e.isTurnOf k = true → m.duty b k = .other) :
    installs b ⟨m, e, n⟩ = false ∧ clears b ⟨m, e, n⟩ = false := by
  cases he : e.key? with
  | none => exact ⟨by rw [installs, he, Option.any_none],
      by rw [clears, goes, he, Option.any_none]⟩
  | some k =>
    have hturn := Event.isTurnOf_iff.mpr he
    rw [installs_eq hturn, clears, goes_eq hturn, unconcerned k hturn]
    exact ⟨rfl, rfl⟩

end Move

/-! ## What a waiting start finds -/

/-- Among these events there is one of the first kind, after which there is none of the second. -/
def Since (p q : Move → Bool) (vs : List Move) : Prop :=
  ∃ us v ws, vs = us ++ v :: ws ∧ p v = true ∧ ∀ x ∈ ws, q x = false

theorem since_snoc_iff : Since p q (vs ++ [v]) ↔ p v = true ∨ Since p q vs ∧ q v = false := by
  constructor
  · rintro ⟨us, x, ws, h, hx, hws⟩
    rcases snoc_eq_append_cons h with ⟨ws, rfl, rfl⟩ | ⟨-, rfl, -⟩
    · rw [List.forall_mem_append, List.forall_mem_singleton] at hws
      exact .inr ⟨⟨us, x, ws, rfl, hx, hws.1⟩, hws.2⟩
    · exact .inl hx
  · rintro (hv | ⟨⟨us, x, ws, rfl, hx, hws⟩, hv⟩)
    · exact ⟨vs, v, [], rfl, hv, List.forall_mem_nil _⟩
    · refine ⟨us, x, ws ++ [v], ?_, hx, ?_⟩
      · rw [List.append_assoc, List.cons_append]
      · rw [List.forall_mem_append, List.forall_mem_singleton]
        exact ⟨hws, hv⟩

/-- A start that begins to wait has emptied the place of the worker. -/
theorem Pulse.emptied (h : Pulse b m e n) (before : (m.duty b k).restarts = false)
    (after : (n.duty b k).restarts = true) :
    (n.world.heartbeat b).worker.isSome = false ∧ Move.clears b ⟨m, e, n⟩ = true := by
  have hchanged : n.duty b k ≠ m.duty b k := fun hsame => by
    rw [hsame, before] at after
    cases after
  cases h with
  | aside unconcerned record keeps idle =>
    exact absurd (duty_eq_of_busy keeps idle (Duty.isIdle_of_restarts after)) hchanged
  | made unconcerned unmade record duty => exact absurd (congrFun duty k) hchanged
  | @turn j r y turn ht record duty =>
    obtain rfl : k = j := by
      by_contra hkj
      exact hchanged (by rw [duty, Function.update_of_ne hkj])
    have hhere : n.duty b k = y := by rw [duty, Function.update_self]
    rw [hhere] at after
    have hclears := ht.clears_of_restarts after
    rw [record, ht.occupied, Move.clears, Move.goes_eq turn, hhere, hclears]
    exact ⟨Bool.and_false _, rfl⟩
  | @installed j old turn restarting rid stopped record fresh duty =>
    rw [duty] at hchanged after
    by_cases hkl : k = m.calls.length
    · rw [hkl, Function.update_self] at after
      cases after
    · rw [Function.update_of_ne hkl] at hchanged after
      by_cases hkj : k = j
      · rw [hkj, Function.update_self] at after
        cases after
      · exact absurd (Function.update_of_ne hkj ..) hchanged

/-- While a start waits, there is a worker in place after an event if another start has put it there
in the event, or if it was there and was not taken out. -/
theorem Pulse.occupied_iff (h : Pulse b m e n) (before : (m.duty b k).restarts = true)
    (after : (n.duty b k).restarts = true) : (n.world.heartbeat b).worker.isSome = true ↔
      Move.overtakes b k ⟨m, e, n⟩ = true ∨ (m.world.heartbeat b).worker.isSome = true ∧
        Move.clears b ⟨m, e, n⟩ = false := by
  rw [Move.overtakes, before, after, Bool.and_true, Bool.and_true]
  cases h with
  | aside unconcerned record =>
    obtain ⟨hinstalls, hclears⟩ := Move.installs_clears_eq_false (n := n) unconcerned
    simp [hinstalls, hclears, record]
  | made unconcerned unmade record =>
    have hnobody : ∀ k, e.isTurnOf k = true → m.duty b k = .other := fun k hk => by
      rw [unconcerned] at hk
      cases hk
    rw [(Move.installs_clears_eq_false (n := n) hnobody).1, record, unmade]
    simp [show (default : Heartbeat).worker = none from rfl]
  | @turn j r y turn ht record duty =>
    have hinstalls : Move.installs b ⟨m, e, n⟩ = false := by
      rw [Move.installs_eq turn]
      cases hd : (m.duty b j).restarts with
      | false => rfl
      | true =>
        rw [ht.running_of_restarts hd]
        rfl
    rw [hinstalls, record, ht.occupied, Move.clears, Move.goes_eq turn, duty, Function.update_self]
    simp
  | installed turn restarting rid stopped record =>
    rw [Move.installs_eq turn, restarting, stopped, record]
    exact ⟨fun _ => .inl rfl, fun _ => rfl⟩

/-- A waiting start finds a worker in place if and only if another start has put one there while it
waited, and nobody has taken that out. -/
theorem occupied_iff_since (hes : run {} es = some m) (hk : (m.duty b k).restarts = true) :
    (m.world.heartbeat b).worker.isSome = true ↔
      Since (Move.overtakes b k) (Move.clears b) (steps {} es) := by
  suffices h : ∀ k, (m.duty b k).restarts = true → ((m.world.heartbeat b).worker.isSome = true ↔
      Since (Move.overtakes b k) (Move.clears b) (steps {} es)) from h k hk
  clear hk
  refine history_induct (P := fun us l => ∀ k, (l.duty b k).restarts = true →
    ((l.world.heartbeat b).worker.isSome = true ↔
      Since (Move.overtakes b k) (Move.clears b) (steps {} us))) nofun
    (fun us l e n hus ih hn k hk => ?_) hes
  have hpulse := Reachable.pulse ⟨us, hus⟩ hn b
  rw [steps_snoc hus hn, since_snoc_iff]
  cases hbefore : (l.duty b k).restarts with
  | true => rw [hpulse.occupied_iff hbefore hk, ih k hbefore]
  | false =>
    obtain ⟨hempty, hclears⟩ := hpulse.emptied hbefore hk
    rw [hempty, hclears, Move.overtakes, hbefore]
    simp

/-! ## The end of the program -/

/-- The program ends only in an event in which a start puts a worker in the place of another. -/
theorem Reachable.crashed_iff (hm : m.Reachable) (hn : m.perform e = some n) :
    n.world.crashed = true ↔ ∃ b k, e.isTurnOf k = true ∧ (m.duty b k).restarts = true ∧
      (m.world.heartbeat b).running = false ∧ (m.world.heartbeat b).worker.isSome = true := by
  have halive := not_crashed_of_perform hn
  constructor
  · intro hcrashed
    rcases perform_cases hn with ⟨k, call, t, hk, takes, turned⟩ | ⟨o, rfl, permits, rfl⟩ |
      ⟨w, befalls, rfl⟩
    · rw [turned.world] at hcrashed
      rcases hm.known.beats_or_spares hk takes with ⟨b, -, -, beats⟩ | ⟨-, hspares, -⟩
      · rw [← Machine.duty_eq hk] at beats
        cases beats with
        | turns h heartbeats crashed =>
          rw [crashed, halive] at hcrashed
          cases hcrashed
        | installs restarting rid stopped done heartbeats crashed =>
          rw [crashed, halive, Bool.false_or] at hcrashed
          exact ⟨b, k, takes.isTurnOf, by rw [restarting]; rfl, stopped, hcrashed⟩
      · rw [hspares.crashed, halive] at hcrashed
        cases hcrashed
    · have hbegun : (m.begin o).world.crashed = false := (heartbeats_enter m.world o).2.trans halive
      rw [hbegun] at hcrashed
      cases hcrashed
    · have hsame : w.crashed = m.world.crashed := by cases befalls <;> rfl
      rw [show w.crashed = true from hcrashed, halive] at hsame
      cases hsame
  · rintro ⟨b, k, he, hk, stopped, occupied⟩
    obtain ⟨old, hk⟩ : ∃ old, m.duty b k = .stage (.restarting old) := by
      cases hd : m.duty b k with
      | stage s =>
        rw [hd] at hk
        cases s with
        | restarting old => exact ⟨old, rfl⟩
        | _ => cases hk
      | _ =>
        rw [hd] at hk
        cases hk
    rw [(hm.installs hn he hk stopped).2.2, occupied]

/-- After these events the call of this key waits in a start; while it waited, another start has put
a worker in place, nobody has taken that out, and it has ended. -/
structure Overtaken (b : HeartbeatKey) (k : CallKey) (es : List Event) (m : Machine) : Prop where
  waits : (m.duty b k).restarts = true
  overtaken : Since (Move.overtakes b k) (Move.clears b) (steps {} es)
  ended : (m.world.heartbeat b).running = false

/-- In every run, however many starts and stops there are at once, at most one worker of a heartbeat
is in its loop; and the program ends in an event if and only if a start goes on in it that was
overtaken. -/
theorem crashed_iff_overtaken (hes : run {} es = some m) (hn : m.perform e = some n) :
    (∀ b i j, (n.duty b i).works = true → (n.duty b j).works = true → i = j) ∧
      (n.world.crashed = true ↔ ∃ b k, e.isTurnOf k = true ∧ Overtaken b k es m) := by
  have hm : m.Reachable := ⟨es, hes⟩
  refine ⟨fun b i j => ((hm.perform hn).inStep b).unique, ?_⟩
  rw [hm.crashed_iff hn]
  refine exists₂_congr fun b k => and_congr_right fun _ => ⟨fun ⟨hk, stopped, occupied⟩ =>
    ⟨hk, (occupied_iff_since hes hk).mp occupied, stopped⟩, fun ⟨hk, overtaken, ended⟩ =>
    ⟨hk, ended, (occupied_iff_since hes hk).mpr overtaken⟩⟩

/-- Two starts of a heartbeat begin to wait; the first of them puts a worker in place, and that one
ends because the pool begins to close. -/
def startsCrossed : List Event :=
  [.begin (.construct {} { maxClients := 1 } true .standard), .advance 0 0, .newHeartbeat 0 10,
    .begin (.startHeartbeat 0), .begin (.startHeartbeat 0), .advance 1 0, .advance 2 0,
    .advance 1 0, .begin (.close 0), .advance 4 0, .tick 3, .advance 3 0, .advance 3 0]

/-- When the second start goes on, the program ends. -/
theorem crashed_iff_overtaken_startsCrossed : ∃ m n : Machine, run {} startsCrossed = some m ∧
    m.perform (.advance 2 0) = some n ∧ n.world.crashed = true ∧
    ∃ b k, (Event.advance 2 0).isTurnOf k = true ∧ Overtaken b k startsCrossed m := by
  have hrun : ∃ m n : Machine, run {} startsCrossed = some m ∧
      m.perform (.advance 2 0) = some n ∧ n.world.crashed = true := ⟨_, _, rfl, rfl, rfl⟩
  obtain ⟨m, n, hm, hn, hcrashed⟩ := hrun
  exact ⟨m, n, hm, hn, hcrashed, (crashed_iff_overtaken hm hn).2.mp hcrashed⟩

/-- It is not so that in every run without stops a start that puts a worker in place finds the place
empty. -/
theorem not_worker_eq_none_of_installs : ¬ ∀ es m e n b, run {} es = some m →
    m.perform e = some n → (∀ e' ∈ es, ∀ b', e' ≠ .begin (.stopHeartbeat b')) →
    Move.installs b ⟨m, e, n⟩ = true → (m.world.heartbeat b).worker = none := by
  intro h
  have hrun : ∃ m n : Machine, run {} startsCrossed = some m ∧
      m.perform (.advance 2 0) = some n ∧ m.duty 0 2 = .stage (.restarting none) ∧
        (m.world.heartbeat 0).running = false ∧ (m.world.heartbeat 0).worker = some 3 :=
    ⟨_, _, rfl, rfl, rfl, rfl, rfl⟩
  obtain ⟨m, n, hm, hn, hwaits, hended, hworker⟩ := hrun
  have hinstalls : Move.installs 0 ⟨m, .advance 2 0, n⟩ = true := by
    rw [Move.installs_eq (k := 2) rfl, hwaits, hended]
    rfl
  have hnone := h startsCrossed m (.advance 2 0) n 0 hm hn (by simp [startsCrossed]) hinstalls
  rw [hworker] at hnone
  cases hnone

end Machine
end SessionPool
