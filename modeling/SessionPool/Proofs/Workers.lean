import SessionPool.Proofs.Pulse
import SessionPool.Proofs.Reuse

/-!
# Workers

A heartbeat is running if and only if it has a worker that has not left its loop, and there is never
more than one (`Machine.InStep`).  This holds in every interleaving, however many starts and stops
there are at once: a start looks whether the heartbeat is running in the same section in which it
puts a new worker in place, and the worker says that it is not running any more in the section in
which it leaves.

What several starts at once can do is to forget a worker that has ended.  If starts and stops do not
meet, there is none to forget while a start waits (`Machine.Uncrossed`).

* `Machine.Reachable.inStep`: the flag, the worker in place and the duties fit together.
* `Machine.uncrossed_run`: what holds besides if starts and stops are made one at a time.
-/

namespace SessionPool

namespace Duty

variable {d y : Duty} {r r' : Heartbeat} {ended : CallKey → Bool}

theorem works_of_isIdle (h : d.isIdle = true) : d.works = false := by
  cases d with
  | stage s => cases s <;> first | rfl | cases h
  | pinging | counting o => cases h
  | _ => rfl

namespace Turns

/-- Who takes a turn is not over before. -/
theorem ne_retired (h : d.Turns r ended r' y) : d ≠ .retired := by
  cases h <;> nofun

theorem ne_other (h : d.Turns r ended r' y) : d ≠ .other := by
  cases h <;> nofun

/-- A worker stays in place until it is taken out, and the heartbeat runs until it leaves. -/
theorem of_works (h : d.Turns r ended r' y) (hd : d.works = true) :
    r'.worker = r.worker ∧ r'.stopRequested = r.stopRequested ∧
      (y.works = true ∧ r'.running = r.running ∨ y = .retired ∧ r'.running = false) := by
  cases h with
  | declined | cleared | late | asked | reaped => cases hd
  | quit | left => exact ⟨rfl, rfl, .inr ⟨rfl, rfl⟩⟩
  | ticked | pinged | completed | stayed => exact ⟨rfl, rfl, .inl ⟨rfl, rfl⟩⟩

/-- Whoever is no worker does not become one in a turn, and takes out only a worker that has ended
or that cannot be running. -/
theorem of_not_works (h : d.Turns r ended r' y) (hd : d.works = false) :
    y.works = false ∧ r'.running = r.running ∧ r'.rounds = r.rounds ∧
      (r'.worker = r.worker ∨
        r'.worker = none ∧ (r.running = false ∨ r.worker.all ended = true)) := by
  cases h with
  | declined | late | asked => exact ⟨rfl, rfl, rfl, .inl rfl⟩
  | cleared stopped => exact ⟨rfl, rfl, rfl, .inr ⟨rfl, .inl stopped⟩⟩
  | reaped rid => exact ⟨rfl, rfl, rfl, .inr ⟨rfl, .inr rid⟩⟩
  | quit | ticked | pinged | completed | left | stayed => cases hd

/-- A start waits for the worker that it has taken out, while the heartbeat is not running. -/
theorem of_restarting {old : Option CallKey} (h : d.Turns r ended r' (.stage (.restarting old))) :
    r.running = false ∧ old = r.worker ∧ r' = { r with worker := none } := by
  cases h with
  | cleared stopped => exact ⟨stopped, rfl, rfl⟩

/-- Only a stop asks for the end. -/
theorem stopRequested (h : d.Turns r ended r' y) (hr : r'.stopRequested = true) :
    r.stopRequested = true ∨ y = .stage .reaping := by
  cases h with
  | asked => exact .inr rfl
  | _ => exact .inl hr

theorem of_reaping (h : d.Turns r ended r' (.stage .reaping)) : r'.stopRequested = true := by
  cases h with
  | asked => rfl

end Turns
end Duty

namespace Machine

variable {m n l : Machine} {e : Event} {k j : CallKey} {b : HeartbeatKey} {es : List Event}

/-- A heartbeat and its workers are in step: whoever works is the worker in place and the heartbeat
runs; if it does not run, the worker in place has ended; so has every worker that a start waits for;
and whoever was asked to stop while it runs is waited for. -/
structure InStep (b : HeartbeatKey) (m : Machine) : Prop where
  worker : ∀ k, (m.duty b k).works = true →
    (m.world.heartbeat b).running = true ∧ (m.world.heartbeat b).worker = some k
  running : (m.world.heartbeat b).running = true → ∃ k, (m.duty b k).works = true
  ended : (m.world.heartbeat b).running = false →
    ∀ k ∈ (m.world.heartbeat b).worker, m.duty b k = .retired
  waits : ∀ k old, m.duty b k = .stage (.restarting old) → ∀ j ∈ old, m.duty b j = .retired
  awaited : (m.world.heartbeat b).running = true → (m.world.heartbeat b).stopRequested = true →
    ∃ k, m.duty b k = .stage .reaping

namespace InStep

/-- There is never more than one worker in its loop. -/
theorem unique (h : m.InStep b) {i j : CallKey} (hi : (m.duty b i).works = true)
    (hj : (m.duty b j).works = true) : i = j :=
  Option.some.inj ((h.worker i hi).2.symm.trans (h.worker j hj).2)

theorem running_iff (h : m.InStep b) :
    (m.world.heartbeat b).running = true ↔ ∃ k, (m.duty b k).works = true :=
  ⟨h.running, fun ⟨k, hk⟩ => (h.worker k hk).1⟩

theorem not_works (h : m.InStep b) (hstopped : (m.world.heartbeat b).running = false)
    (k : CallKey) : (m.duty b k).works = false := by
  by_contra hk
  rw [(h.worker k (Bool.not_eq_false _ ▸ hk)).1] at hstopped
  cases hstopped

/-- Whoever is in place and has ended is not running. -/
theorem stopped_of_ended (h : m.InStep b)
    (rid : (m.world.heartbeat b).worker.all m.isOver = true) :
    (m.world.heartbeat b).running = false := by
  by_contra hrunning
  obtain ⟨k, hk⟩ := h.running (Bool.not_eq_false _ ▸ hrunning)
  rw [(h.worker k hk).2, Option.all_some, isOver_iff (b := b)] at rid
  rw [rid] at hk
  cases hk

/-- An event that does not concern the heartbeat. -/
theorem aside (h : m.InStep b) (record : n.world.heartbeat b = m.world.heartbeat b)
    (keeps : ∀ k, m.duty b k ≠ .other → n.duty b k = m.duty b k)
    (idle : ∀ k, m.duty b k = .other → (n.duty b k).isIdle = true) : n.InStep b := by
  have hback : ∀ k, (n.duty b k).isIdle = false → n.duty b k = m.duty b k := fun _ =>
    duty_eq_of_busy keeps idle
  have hover : ∀ k, m.duty b k = .retired → n.duty b k = .retired := fun k hk =>
    (keeps k (by simp [hk])).trans hk
  refine ⟨fun k hk => ?_, fun hrunning => ?_, fun hstopped k hk => ?_, fun k old hk j hj => ?_,
    fun hrunning hasked => ?_⟩
  · have hbusy : (n.duty b k).isIdle = false := by
      by_contra hidle
      rw [Duty.works_of_isIdle (Bool.not_eq_false _ ▸ hidle)] at hk
      cases hk
    rw [record]
    exact h.worker k (hback k hbusy ▸ hk)
  · obtain ⟨k, hk⟩ := h.running (record ▸ hrunning)
    refine ⟨k, ?_⟩
    rwa [keeps k fun hother => by rw [hother] at hk; cases hk]
  · exact hover k (h.ended (record ▸ hstopped) k (record ▸ hk))
  · exact hover j (h.waits k old ((hback k (by rw [hk]; rfl)).symm.trans hk) j hj)
  · obtain ⟨k, hk⟩ := h.awaited (record ▸ hrunning) (record ▸ hasked)
    exact ⟨k, (keeps k (by simp [hk])).trans hk⟩

section Turn

variable {r : Heartbeat} {y : Duty}
  (ht : (m.duty b k).Turns (m.world.heartbeat b) m.isOver r y) (record : n.world.heartbeat b = r)
  (duty : n.duty b = Function.update (m.duty b) k y)
include ht record duty

omit record in
/-- Whoever is over has not taken the turn. -/
theorem retired_of_turn (hj : m.duty b j = .retired) : n.duty b j = .retired := by
  have hjk : j ≠ k := fun hjk => ht.ne_retired (hjk ▸ hj)
  rw [duty, Function.update_of_ne hjk, hj]

/-- A turn of the worker. -/
theorem turn_of_works (h : m.InStep b) (hworks : (m.duty b k).works = true) : n.InStep b := by
  have hhere : n.duty b k = y := by rw [duty, Function.update_self]
  have hthere : ∀ j, j ≠ k → n.duty b j = m.duty b j := fun j hj => by
    rw [duty, Function.update_of_ne hj]
  obtain ⟨hrunning, hworker⟩ := h.worker k hworks
  obtain ⟨hplace, hasked, hleaves⟩ := ht.of_works hworks
  refine ⟨fun j hj => ?_, fun hruns => ?_, fun hstopped j hj => ?_, fun i old hi j hj => ?_,
    fun hruns hask => ?_⟩
  · rw [record, hplace]
    by_cases hjk : j = k
    · rw [hjk, hhere] at hj
      rcases hleaves with ⟨-, hruns⟩ | ⟨rfl, -⟩
      · exact ⟨hruns.trans hrunning, hjk ▸ hworker⟩
      · cases hj
    · exact absurd (h.unique (hthere j hjk ▸ hj) hworks) hjk
  · rcases hleaves with ⟨hy, -⟩ | ⟨-, hstops⟩
    · exact ⟨k, hhere ▸ hy⟩
    · rw [record, hstops] at hruns
      cases hruns
  · rw [record, hplace, hworker] at hj
    obtain rfl := Option.some.inj hj
    rcases hleaves with ⟨-, hruns⟩ | ⟨hy, -⟩
    · rw [record, hruns, hrunning] at hstopped
      cases hstopped
    · exact hhere.trans hy
  · by_cases hik : i = k
    · rw [hik, hhere] at hi
      rw [hi] at ht
      rw [ht.of_restarting.1] at hrunning
      cases hrunning
    · exact retired_of_turn ht duty (h.waits i old (hthere i hik ▸ hi) j hj)
  · obtain ⟨i, hi⟩ := h.awaited hrunning (hasked ▸ record ▸ hask)
    refine ⟨i, (hthere i fun hik => ?_).trans hi⟩
    rw [← hik, hi] at hworks
    cases hworks

/-- A turn of a start or of a stop leaves the worker alone. -/
theorem turn_of_not_works (h : m.InStep b) (hidle : (m.duty b k).works = false) :
    n.InStep b := by
  have hhere : n.duty b k = y := by rw [duty, Function.update_self]
  have hthere : ∀ j, j ≠ k → n.duty b j = m.duty b j := fun j hj => by
    rw [duty, Function.update_of_ne hj]
  obtain ⟨hy, hruns, -, hplace⟩ := ht.of_not_works hidle
  refine ⟨fun j hj => ?_, fun hrunning => ?_, fun hstopped j hj => ?_, fun i old hi j hj => ?_,
    fun hrunning hask => ?_⟩
  · have hjk : j ≠ k := fun hjk => by
      rw [hjk, hhere, hy] at hj
      cases hj
    obtain ⟨hrunning, hworker⟩ := h.worker j (hthere j hjk ▸ hj)
    rw [record]
    refine ⟨hruns.trans hrunning, ?_⟩
    rcases hplace with hplace | ⟨-, hstopped | rid⟩
    · exact hplace.trans hworker
    · rw [hrunning] at hstopped
      cases hstopped
    · rw [h.stopped_of_ended rid] at hrunning
      cases hrunning
  · obtain ⟨j, hj⟩ := h.running (by rwa [record, hruns] at hrunning)
    refine ⟨j, ?_⟩
    rwa [hthere j fun hjk => by rw [hjk, hidle] at hj; cases hj]
  · rw [record, hruns] at hstopped
    rw [record] at hj
    rcases hplace with hplace | ⟨hplace, -⟩
    · exact retired_of_turn ht duty (h.ended hstopped j (hplace ▸ hj))
    · rw [hplace] at hj
      cases hj
  · by_cases hik : i = k
    · rw [hik, hhere] at hi
      rw [hi] at ht
      obtain ⟨hstopped, rfl, -⟩ := ht.of_restarting
      exact retired_of_turn (hi.symm ▸ ht) duty (h.ended hstopped j hj)
    · exact retired_of_turn ht duty (h.waits i old (hthere i hik ▸ hi) j hj)
  · rw [record, hruns] at hrunning
    rcases ht.stopRequested (record ▸ hask) with hasked | hreaps
    · obtain ⟨i, hi⟩ := h.awaited hrunning hasked
      refine ⟨i, (hthere i fun hik => ?_).trans hi⟩
      rw [← hik, hi] at ht
      cases ht with
      | reaped rid =>
        rw [h.stopped_of_ended rid] at hrunning
        cases hrunning
    · exact ⟨k, hhere.trans hreaps⟩

/-- A turn of a call with a duty. -/
theorem turn (h : m.InStep b) : n.InStep b := by
  cases hworks : (m.duty b k).works with
  | true => exact turn_of_works ht record duty h hworks
  | false => exact turn_of_not_works ht record duty h hworks

end Turn

/-- A new worker is put in place. -/
theorem installed (h : m.InStep b) {old : Option CallKey}
    (restarting : m.duty b k = .stage (.restarting old))
    (stopped : (m.world.heartbeat b).running = false)
    (record : n.world.heartbeat b = (m.world.heartbeat b).manned m.calls.length)
    (duty : n.duty b = Function.update (Function.update (m.duty b) k .retired) m.calls.length
      (.stage .resting)) : n.InStep b := by
  have hthere : ∀ j, j ≠ m.calls.length → j ≠ k → n.duty b j = m.duty b j := fun j hjl hjk => by
    rw [duty, Function.update_of_ne hjl, Function.update_of_ne hjk]
  have hfresh : n.duty b m.calls.length = .stage .resting := by rw [duty, Function.update_self]
  have hdone : k ≠ m.calls.length → n.duty b k = .retired := fun hkl => by
    rw [duty, Function.update_of_ne hkl, Function.update_self]
  have hover : ∀ j, m.duty b j = .retired → n.duty b j = .retired := fun j hj => by
    refine (hthere j (fun hjl => ?_) fun hjk => ?_).trans hj
    · rw [hjl, duty_fresh] at hj
      cases hj
    · rw [hjk, restarting] at hj
      cases hj
  have hkl : k ≠ m.calls.length := fun hkl => by
    rw [hkl, duty_fresh] at restarting
    cases restarting
  refine ⟨fun j hj => ?_, fun _ => ⟨m.calls.length, by rw [hfresh]; rfl⟩,
    fun hstopped => ?_, fun i old' hi j hj => ?_,
    fun _ hasked => ?_⟩
  · by_cases hjl : j = m.calls.length
    · rw [record, hjl]
      exact ⟨rfl, rfl⟩
    · by_cases hjk : j = k
      · rw [hjk, hdone hkl] at hj
        cases hj
      · rw [hthere j hjl hjk, h.not_works stopped] at hj
        cases hj
  · rw [record] at hstopped
    cases hstopped
  · have hil : i ≠ m.calls.length := fun hil => by
      rw [hil, hfresh] at hi
      cases hi
    have hik : i ≠ k := fun hik => by
      rw [hik, hdone hkl] at hi
      cases hi
    exact hover j (h.waits i old' (hthere i hil hik ▸ hi) j hj)
  · rw [record] at hasked
    cases hasked

/-- An event keeps a heartbeat and its workers in step. -/
theorem pulse (h : m.InStep b) (hpulse : Pulse b m e n) : n.InStep b := by
  cases hpulse with
  | aside unconcerned record keeps idle => exact h.aside record keeps idle
  | made unconcerned unmade record duty =>
    have hstopped : (m.world.heartbeat b).running = false := by rw [unmade]; rfl
    refine ⟨fun k hk => ?_, fun hrunning => ?_, fun _ k hk => ?_, fun k old hk j hj => ?_,
      fun hrunning => ?_⟩
    · rw [duty, h.not_works hstopped] at hk
      cases hk
    · rw [record] at hrunning
      cases hrunning
    · rw [record] at hk
      cases hk
    · rw [duty] at hk ⊢
      exact h.waits k old hk j hj
    · rw [record] at hrunning
      cases hrunning
  | turn turn ht record duty crashed => exact InStep.turn ht record duty h
  | installed turn restarting rid stopped record fresh duty crashed =>
    exact h.installed restarting stopped record duty

end InStep

/-- In every reachable machine every heartbeat is in step with its workers. -/
theorem Reachable.inStep (hm : m.Reachable) (b : HeartbeatKey) : m.InStep b := by
  have hempty : InStep b {} := ⟨nofun, nofun, nofun, nofun, nofun⟩
  obtain ⟨es, hes⟩ := hm
  refine history_induct (P := fun _ l => l.InStep b) hempty (fun us l e' n' hus ih hn => ?_) hes
  exact ih.pulse (Reachable.pulse ⟨us, hus⟩ hn b)

/-! ## One start or stop at a time -/

/-- At most one call is starting or stopping the heartbeat. -/
def OneByOne (b : HeartbeatKey) (m : Machine) : Prop :=
  ∀ i j, (m.duty b i).commands = true → (m.duty b j).commands = true → i = j

instance (b : HeartbeatKey) (m : Machine) : Decidable (m.OneByOne b) :=
  decidable_of_iff (∀ i < m.calls.length, ∀ j < m.calls.length,
      (m.duty b i).commands = true → (m.duty b j).commands = true → i = j) <| by
    have hlt : ∀ k, (m.duty b k).commands = true → k < m.calls.length := fun k hk => by
      by_contra hlt
      rw [duty_of_none (List.getElem?_eq_none (Nat.le_of_not_lt hlt))] at hk
      cases hk
    exact ⟨fun h i j hi hj => h i (hlt i hi) j (hlt j hj) hi hj, fun h i _ j _ => h i j⟩

/-- While a start waits, the heartbeat does not run and no worker is in place; and while a stop
waits, the heartbeat has been asked to stop. -/
structure Uncrossed (b : HeartbeatKey) (m : Machine) : Prop where
  restarting : ∀ k old, m.duty b k = .stage (.restarting old) →
    (m.world.heartbeat b).running = false ∧ (m.world.heartbeat b).worker = none
  reaping : ∀ k, m.duty b k = .stage .reaping → (m.world.heartbeat b).stopRequested = true

namespace Uncrossed

/-- A turn of a call with a duty. -/
theorem turn (h : m.Uncrossed b) (hm : m.InStep b) (single : m.OneByOne b) {r : Heartbeat}
    {y : Duty} (ht : (m.duty b k).Turns (m.world.heartbeat b) m.isOver r y)
    (record : n.world.heartbeat b = r) (duty : n.duty b = Function.update (m.duty b) k y) :
    n.Uncrossed b := by
  have hhere : n.duty b k = y := by rw [duty, Function.update_self]
  have hthere : ∀ j, j ≠ k → n.duty b j = m.duty b j := fun j hj => by
    rw [duty, Function.update_of_ne hj]
  -- If another call is starting or stopping the heartbeat, the turn is that of the worker.
  have hworks : ∀ i, i ≠ k → (m.duty b i).commands = true → (m.duty b k).works = true := by
    intro i hik hi
    have hk : (m.duty b k).commands = false := by
      by_contra hk
      exact hik (single i k hi (Bool.not_eq_false _ ▸ hk))
    cases hd : m.duty b k with
    | other => exact absurd hd ht.ne_other
    | retired => exact absurd hd ht.ne_retired
    | stage s =>
      rw [hd] at hk
      cases s <;> first | rfl | cases hk
    | pinging | counting o => rfl
  refine ⟨fun i old hi => ?_, fun i hi => ?_⟩
  · by_cases hik : i = k
    · rw [hik, hhere] at hi
      rw [hi] at ht
      obtain ⟨hstopped, -, rfl⟩ := ht.of_restarting
      rw [record]
      exact ⟨hstopped, rfl⟩
    · rw [hthere i hik] at hi
      have hstopped := (h.restarting i old hi).1
      rw [(hm.worker k (hworks i hik (by rw [hi]; rfl))).1] at hstopped
      cases hstopped
  · by_cases hik : i = k
    · rw [hik, hhere] at hi
      rw [hi] at ht
      rw [record]
      exact ht.of_reaping
    · rw [hthere i hik] at hi
      rw [record, (ht.of_works (hworks i hik (by rw [hi]; rfl))).2.1]
      exact h.reaping i hi

/-- Every event keeps this up before which at most one call is starting or stopping. -/
theorem pulse (h : m.Uncrossed b) (hm : m.InStep b) (single : m.OneByOne b)
    (hpulse : Pulse b m e n) : n.Uncrossed b := by
  cases hpulse with
  | aside unconcerned record keeps idle =>
    have hback : ∀ k, (n.duty b k).isIdle = false → n.duty b k = m.duty b k := fun _ =>
      duty_eq_of_busy keeps idle
    refine ⟨fun k old hk => ?_, fun k hk => ?_⟩
    · rw [record]
      exact h.restarting k old ((hback k (by rw [hk]; rfl)).symm.trans hk)
    · rw [record]
      exact h.reaping k ((hback k (by rw [hk]; rfl)).symm.trans hk)
  | made unconcerned unmade record duty =>
    refine ⟨fun k old hk => ?_, fun k hk => ?_⟩
    · rw [record]
      exact ⟨rfl, rfl⟩
    · have hasked := h.reaping k (duty ▸ hk)
      rw [unmade] at hasked
      cases hasked
  | turn turn ht record duty crashed => exact h.turn hm single ht record duty
  | @installed k old turn restarting rid stopped record fresh duty crashed =>
    have hback : ∀ i, (n.duty b i).commands = true → n.duty b i = m.duty b i ∧ i ≠ k := by
      intro i hi
      have hil : i ≠ m.calls.length := fun hil => by
        rw [duty, hil, Function.update_self] at hi
        cases hi
      rw [duty, Function.update_of_ne hil] at hi ⊢
      have hik : i ≠ k := fun hik => by
        rw [hik, Function.update_self] at hi
        cases hi
      exact ⟨Function.update_of_ne hik .., hik⟩
    have hnone : ∀ i, (n.duty b i).commands = false := fun i => by
      by_contra hi
      obtain ⟨hsame, hik⟩ := hback i (Bool.not_eq_false _ ▸ hi)
      rw [hsame] at hi
      exact hik (single i k (Bool.not_eq_false _ ▸ hi) (by rw [restarting]; rfl))
    refine ⟨fun i old' hi => ?_, fun i hi => ?_⟩
    · have hcommands := hnone i
      rw [hi] at hcommands
      cases hcommands
    · have hcommands := hnone i
      rw [hi] at hcommands
      cases hcommands

end Uncrossed

/-- What every event keeps before which starts and stops of a heartbeat are made one at a time holds
after every run in which they are. -/
theorem oneByOne_induct {P : List Event → Machine → Prop} (empty : P [] {})
    (keeps : ∀ us l e n, run {} us = some l → l.OneByOne b → P us l → l.perform e = some n →
      P (us ++ [e]) n)
    (hes : run {} es = some m) (single : ∀ l ∈ passed {} es, l.OneByOne b) : P es m := by
  induction es using List.reverseRecOn generalizing m with
  | nil =>
    rw [run_nil, Option.some.injEq] at hes
    exact hes ▸ empty
  | append_singleton us e ih =>
    obtain ⟨l, hl, hm⟩ := run_snoc_iff.mp hes
    have hpassed : ∀ l' ∈ passed {} us, l'.OneByOne b := fun l' hl' =>
      single l' ((mem_passed_append hl).mpr (.inl hl'))
    exact keeps us l e m hl (hpassed l (mem_passed_last hl)) (ih hl hpassed) hm

/-- In a run in which starts and stops are made one at a time they do not cross. -/
theorem uncrossed_run (hes : run {} es = some m) (single : ∀ l ∈ passed {} es, l.OneByOne b) :
    m.Uncrossed b := by
  have hempty : Uncrossed b {} := ⟨nofun, nofun⟩
  refine oneByOne_induct (P := fun _ l => l.Uncrossed b) hempty
    (fun us l e n hus hl ih hn => ?_) hes single
  have hreach : l.Reachable := ⟨us, hus⟩
  exact ih.pulse (hreach.inStep b) hl (hreach.pulse hn b)

end Machine
end SessionPool
