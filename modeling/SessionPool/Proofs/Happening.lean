import SessionPool.Proofs.Ownership

/-!
# What can happen

An event is a turn of one call, or the beginning of a call, or a change of the shared state in which
no call has a part (`Machine.happens`).  A turn is a step of the call, or the answer to its window,
or the end of its sleep or rest (`Machine.Takes`).

* `Machine.Happens.exists_call`: a call takes its turn in an event, or is woken, or stays where it
  is.
* `Machine.Happens.exists_call_before`: a call was there before an event, unless it has just begun.
* `Machine.Happens.clients`, `Machine.Happens.pools`: nothing is ever forgotten.
-/

namespace SessionPool

namespace Point

/-- A call that stands here sleeps, for a client or in the closing of a pool. -/
def sleeps : Point → Bool
  | .acquire _ _ _ .asleep => true
  | .close _ (.draining false) => true
  | .close _ (.attending false) => true
  | _ => false

/-- Only sleepers can be woken. -/
theorem Wakes.eq_of_awake {x y : Point} (h : Wakes x y) (hx : x.sleeps = false) : y = x := by
  cases h with
  | refl => rfl
  | acquirer p t leased => cases hx
  | drainer p => cases hx
  | attendant p => cases hx

/-- Whoever sleeps after a wake-up has slept before and has not been woken. -/
theorem Wakes.eq_of_sleeps {x y : Point} (h : Wakes x y) (hy : y.sleeps = true) : y = x := by
  cases h with
  | refl => rfl
  | acquirer p t leased => cases hy
  | drainer p => cases hy
  | attendant p => cases hy

end Point

namespace Machine

/-! ## Events -/

/-- In this event the call of this key, which stands at `call`, takes this turn. -/
inductive Takes (m : Machine) (k : CallKey) (call : Call) : Event → Turn → Prop where
  /-- It takes its next step. -/
  | step {pick : ℕ} {t : Turn} (h : turn m.world m.calls.length m.isOver call = some t) :
      Takes m k call (.advance k pick) t
  /-- It takes its next step, and overlooks a fault. -/
  | overlooked {pick : ℕ} {t : Turn} {p : PoolKey} {c : ClientKey} {leased : Bool}
      (h : turn m.world m.calls.length m.isOver call = some t)
      (hpoint : call.point = .release p c leased)
      (overlooks : Release.overlook m.world p c = some t) : Takes m k call (.overlook k pick) t
  /-- The first client of a pool comes, or does not. -/
  | stocked {p : PoolKey} {left : ℕ} (a : OpenAnswer)
      (hpoint : call.point = .stock p left .opening) :
      Takes m k call (.answer k (.opened a)) (Stock.answered m.world p left a)
  /-- A client comes for a caller, or does not. -/
  | opened {p : PoolKey} {t : Patience} {leased : Bool} (a : OpenAnswer)
      (hpoint : call.point = .acquire p t leased .opening) :
      Takes m k call (.answer k (.opened a)) (Acquire.answered m.world p t leased a)
  /-- A ping is answered. -/
  | pinged {p : PoolKey} {pinged : List ClientKey} {c : ClientKey} {rest : List ClientKey}
      {failure : Option Fault} (a : SendAnswer)
      (hpoint : call.point = .keepAlive p (.pinging true pinged (c :: rest) failure)) :
      Takes m k call (.answer k (.sent a)) (KeepAlive.answered m.world p pinged c rest failure a)
  /-- A command is answered. -/
  | replied {c : ClientKey} {command : Text} {ping : Bool} (a : SendAnswer)
      (hpoint : call.point = .exchange c command ping true) :
      Takes m k call (.answer k (.sent a)) (Exchange.answered m.world c command ping a)
  /-- A client has been disconnected, or not. -/
  | parted {rite : Rite} {c : ClientKey} {rest : List ClientKey} {next : Afterwards}
      (a : DisconnectAnswer) (hpoint : call.point = .farewell rite true (c :: rest) next) :
      Takes m k call (.answer k (.disconnected a)) (Farewell.answered m.world rite c rest next a)
  /-- It loses its patience. -/
  | expired {p : PoolKey} {t : Patience} {leased : Bool}
      (hpoint : call.point = .acquire p t leased .asleep) (limited : 0 < t) :
      Takes m k call (.expire k) (.goto m.world (.acquire p t leased .expired))
  /-- It begins the next round of a heartbeat. -/
  | beat {h : HeartbeatKey} (hpoint : call.point = .heartbeat h .resting)
      (wanted : (m.world.heartbeat h).stopRequested = false) :
      Takes m k call (.tick k) (.goto m.world (.keepAlive (m.world.heartbeat h).pool .draining))

/-- In this event the shared state changes to `w`, and no call has a part in it. -/
inductive Befalls (m : Machine) : Event → World → Prop where
  | breakDown {c : ClientKey} (h : m.world.isInHand c = true) :
      Befalls m (.breakDown c) (m.world.onClient c Client.breakDown)
  | connection {c : ClientKey} (connected : Bool) (h : m.world.hasClient c = true) :
      Befalls m (.connection c connected) (m.world.onClient c fun k =>
        { k with session := { k.session with connected } })
  | newClient (id : Text) (connected : Bool) :
      Befalls m (.newClient id connected) (m.world.addClient { id, session := { connected } })
  | setState {c : ClientKey} (state : Lifecycle) (h : m.world.isInHand c = true) :
      Befalls m (.setState c state) (m.world.onClient c fun k => { k with state })
  | setReferences {c : ClientKey} (count : UInt64) (h : m.world.hasHandmade c = true) :
      Befalls m (.setReferences c count)
        (m.world.onClient c fun k => { k with references := count })
  | newLease : Befalls m .newLease (m.world.addLease none)
  | moveLease {l : LeaseKey} (h : l < m.world.leases.length) :
      Befalls m (.moveLease l) ((m.world.addLease (m.world.lease l)).setLease l none)
  | newHeartbeat {p : PoolKey} (interval : Int) (h : m.hasPool p = true) :
      Befalls m (.newHeartbeat p interval) (m.world.addHeartbeat { pool := p, interval })

/-- What an event leads to. -/
inductive Happens (m : Machine) : Event → Machine → Prop where
  /-- A call takes a turn. -/
  | turn {e : Event} {k : CallKey} {call : Call} {t : Turn} (pick : ℕ) (s : Sequel)
      (hk : m.call? k = some call) (takes : m.Takes k call e t)
      (sequel : s = call.sequel ∨ s = .none ∨
        ∃ h, call.point = .heartbeat h .resting ∧ s = .beat h) :
      Happens m e
        (apply { m with calls := m.calls.modify k fun c => { c with sequel := s } } k pick t)
  /-- A call begins. -/
  | enter {o : Operation} (permits : m.permits o = true) : Happens m (.begin o) (m.begin o)
  /-- Only the shared state changes. -/
  | aside {e : Event} {w : World} (befalls : m.Befalls e w) : Happens m e { m with world := w }

variable {m n : Machine} {e : Event} {k j : CallKey} {call call' : Call} {t : Turn}

/-- A call that stands where neither an answer nor time can move it takes its next step.  It may
overlook a fault in it, if it gives a reference back. -/
theorem Takes.turn_eq (h : m.Takes k call e t) (unasked : call.point.request? = none)
    (awake : call.point.sleeps = false) (busy : ∀ b, call.point ≠ .heartbeat b .resting) :
    ((∀ p c leased, call.point ≠ .release p c leased) → ∃ pick, e = .advance k pick) ∧
      turn m.world m.calls.length m.isOver call = some t := by
  cases h with
  | step ht => exact ⟨fun _ => ⟨_, rfl⟩, ht⟩
  | overlooked ht hpoint => exact ⟨fun hnot => absurd hpoint (hnot _ _ _), ht⟩
  | stocked a hpoint | opened a hpoint | pinged a hpoint | replied a hpoint | parted a hpoint =>
    rw [hpoint] at unasked
    cases unasked
  | expired hpoint limited =>
    rw [hpoint] at awake
    cases awake
  | beat hpoint wanted => exact absurd hpoint (busy _)

/-- Nothing happens after a crash. -/
theorem not_crashed_of_perform (hn : m.perform e = some n) : m.world.crashed = false := by
  unfold Machine.perform at hn
  split at hn
  · cases hn
  · next h => exact Bool.not_eq_true _ ▸ h

theorem befalls_of_withWorld? {possible : Bool} {w : World}
    (hn : m.withWorld? possible w = some n) (h : possible = true → m.Befalls e w) :
    m.Happens e n := by
  unfold Machine.withWorld? at hn
  split at hn
  · next hp => exact Option.some.inj hn ▸ .aside (h hp)
  · cases hn

/-- A turn in which the call keeps its sequel. -/
theorem Happens.of_takes (hk : m.call? k = some call) (takes : m.Takes k call e t) :
    m.Happens e (m.apply k 0 t) := by
  have h : m.Happens e _ := .turn 0 call.sequel hk takes (.inl rfl)
  rwa [modify_sequel hk] at h

/-- Every event is a turn of a call, or the beginning of one, or no affair of any call. -/
theorem happens (hn : m.perform e = some n) : m.Happens e n := by
  have hcrashed := not_crashed_of_perform hn
  simp only [Machine.perform, hcrashed, Bool.false_eq_true, if_false] at hn
  cases e with
  | begin o =>
    simp only at hn
    split at hn
    · next hpermits => exact Option.some.inj hn ▸ .enter hpermits
    · cases hn
  | advance k pick =>
    simp only [advance, Option.bind_eq_bind, Option.bind_eq_some_iff, Option.some.injEq] at hn
    obtain ⟨call, hk, t, ht, rfl⟩ := hn
    refine .turn pick (sequelAfter call) hk (.step ht) ?_
    unfold sequelAfter
    split
    · exact .inr (.inl rfl)
    · exact .inl rfl
  | overlook k pick =>
    obtain ⟨call, p, c, leased, t, hk, hpoint, ht, rfl⟩ := exists_of_overlook hn
    have hturn : turn m.world m.calls.length m.isOver call = some t := by
      simp only [turn, hpoint, Release.step_of_overlook ht]
    have hover : m.Happens (.overlook k pick) _ :=
      .turn pick call.sequel hk (.overlooked hturn hpoint ht) (.inl rfl)
    rwa [modify_sequel hk] at hover
  | answer k a =>
    simp only [answer, Option.bind_eq_bind, Option.bind_eq_some_iff] at hn
    obtain ⟨call, hk, hn⟩ := hn
    split at hn
    · next hpoint => exact Option.some.inj hn ▸ .of_takes hk (.stocked _ hpoint)
    · next hpoint => exact Option.some.inj hn ▸ .of_takes hk (.opened _ hpoint)
    · next hpoint => exact Option.some.inj hn ▸ .of_takes hk (.pinged _ hpoint)
    · next hpoint => exact Option.some.inj hn ▸ .of_takes hk (.replied _ hpoint)
    · next hpoint => exact Option.some.inj hn ▸ .of_takes hk (.parted _ hpoint)
    · cases hn
  | expire k =>
    simp only [expire, Option.bind_eq_bind, Option.bind_eq_some_iff] at hn
    obtain ⟨call, hk, hn⟩ := hn
    split at hn
    · next hpoint =>
      split at hn
      · next hlimited => exact Option.some.inj hn ▸ .of_takes hk (.expired hpoint hlimited)
      · cases hn
    · cases hn
  | tick k =>
    simp only [tick, Option.bind_eq_bind, Option.bind_eq_some_iff] at hn
    obtain ⟨call, hk, hn⟩ := hn
    split at hn
    · next h hpoint =>
      split at hn
      · cases hn
      · next hwanted =>
        have hbeat : m.Happens (.tick k) _ :=
          .turn 0 (.beat h) hk (.beat hpoint (Bool.not_eq_true _ ▸ hwanted))
            (.inr (.inr ⟨h, hpoint, rfl⟩))
        rw [← Option.some.inj hn]
        simpa [Machine.apply, Turn.goto, moved, List.modify_modify_eq, Function.comp_def]
          using hbeat
    · cases hn
  | breakDown c => exact befalls_of_withWorld? hn .breakDown
  | connection c connected => exact befalls_of_withWorld? hn (.connection connected)
  | newClient id connected => exact befalls_of_withWorld? hn fun _ => .newClient id connected
  | setState c state => exact befalls_of_withWorld? hn (.setState state)
  | setReferences c count => exact befalls_of_withWorld? hn (.setReferences count)
  | newLease => exact befalls_of_withWorld? hn fun _ => .newLease
  | moveLease l => exact befalls_of_withWorld? hn fun h => .moveLease (of_decide_eq_true h)
  | newHeartbeat p interval => exact befalls_of_withWorld? hn (.newHeartbeat interval)

/-- A call begins where its operation begins. -/
theorem call?_begin (m : Machine) (o : Operation) : (m.begin o).call? m.calls.length =
    some { point := (o.enter m.world).point, sequel := (o.enter m.world).sequel,
           notices := (o.enter m.world).notices } :=
  List.getElem?_concat_length

/-- Nothing else happens when a call begins. -/
theorem eq_begin {o : Operation} (hn : m.perform (.begin o) = some n) : n = m.begin o := by
  cases happens hn with
  | turn pick s hk takes sequel => cases takes
  | enter permits => rfl
  | aside befalls => cases befalls

/-- A call that has a step to take can take it. -/
theorem perform_advance (hm : m.world.crashed = false) (hk : m.call? k = some call)
    (ht : turn m.world m.calls.length m.isOver call = some t) (pick : ℕ) :
    m.perform (.advance k pick) = some (apply
      { m with calls := m.calls.modify k fun c => { c with sequel := sequelAfter call } } k pick
      t) := by
  simp only [Machine.perform, hm, Bool.false_eq_true, if_false, advance, hk, Option.bind_eq_bind,
    Option.bind_some, ht]

/-! ## What becomes of the calls -/

section Signals

variable {α : Type*} {f : Call → α} (hf : ∀ call x, f { call with point := x } = f call)
include hf

theorem apply_wakeAcquirer (p : PoolKey) (call : Call) : f (wakeAcquirer p call) = f call := by
  unfold wakeAcquirer
  repeat' split
  all_goals exact hf call _

theorem apply_wakeCloser (p : PoolKey) (call : Call) : f (wakeCloser p call) = f call := by
  unfold wakeCloser
  repeat' split
  all_goals exact hf call _

/-- A wake-up changes nothing of a call but where it stands. -/
theorem map_signal (pick : ℕ) (calls : List Call) (s : Signal) :
    (signal pick calls s).map f = calls.map f := by
  cases s with
  | oneAcquirer p =>
    simp only [signal]
    split
    · refine List.ext_getElem? fun i => ?_
      simp only [List.getElem?_map, List.getElem?_modify]
      split
      · cases calls[i]? <;> simp [apply_wakeAcquirer hf]
      · simp
    · rfl
  | allAcquirers p => simp [signal, Function.comp_def, apply_wakeAcquirer hf]
  | allClosers p => simp [signal, Function.comp_def, apply_wakeCloser hf]

theorem map_foldl_signal (pick : ℕ) (signals : List Signal) (calls : List Call) :
    (signals.foldl (signal pick) calls).map f = calls.map f := by
  induction signals generalizing calls with
  | nil => rfl
  | cons s signals ih => exact (ih _).trans (map_signal hf pick calls s)

end Signals

/-- A call that some wake-ups reach is woken, or stays where it is. -/
theorem exists_call_foldl_signal (pick : ℕ) (signals : List Signal) {calls : List Call}
    (h : calls[k]? = some call) :
    ∃ call', (signals.foldl (signal pick) calls)[k]? = some call' ∧
      call.point.Wakes call'.point ∧ call'.sequel = call.sequel := by
  have hlt : k < (signals.foldl (signal pick) calls).length := by
    rw [length_foldl_signal]
    exact (List.getElem?_eq_some_iff.mp h).1
  refine ⟨_, List.getElem?_eq_getElem hlt, ?_, ?_⟩
  · obtain ⟨call₀, h₀, hw⟩ := exists_wakes signals (List.getElem?_eq_getElem hlt)
    rw [h, Option.some.injEq] at h₀
    exact h₀ ▸ hw
  · have hs := congrArg (fun l : List Sequel => l[k]?)
      (map_foldl_signal (f := Call.sequel) (fun _ _ => rfl) pick signals calls)
    simpa [List.getElem?_map, h, List.getElem?_eq_getElem hlt] using hs

/-- The calls after a turn, the one that has taken it and the others. -/
theorem exists_call_apply (k : CallKey) (t : Turn) (s : Sequel) (pick : ℕ)
    (hj : m.call? j = some call) :
    ∃ call', (apply { m with calls := m.calls.modify k fun c => { c with sequel := s } } k pick
        t).call? j = some call' ∧
      (if k = j then t.point else call.point).Wakes call'.point ∧
      call'.sequel = if k = j then s else call.sequel := by
  have hlt : j < m.calls.length := (List.getElem?_eq_some_iff.mp hj).1
  have hmoved : ((m.calls.modify k fun c => { c with sequel := s }).modify k (moved t))[j]? =
      some (if k = j then moved t { call with sequel := s } else call) := by
    have hj' : m.calls[j]? = some call := hj
    simp only [List.modify_modify_eq, List.getElem?_modify, hj', Option.map_eq_map,
      Option.map_some, Function.comp_apply]
  obtain ⟨call', hcall', hw, hs⟩ := exists_call_foldl_signal pick t.signals hmoved
  refine ⟨call', ?_, ?_, ?_⟩
  · simp only [call?, apply]
    rw [List.getElem?_append_left (by simpa [length_foldl_signal] using hlt)]
    exact hcall'
  · rw [apply_ite Call.point] at hw
    exact hw
  · rw [hs, apply_ite Call.sequel]
    rfl

/-- In an event a call takes a turn, or is woken, or stays where it is. -/
theorem Happens.exists_call (h : m.Happens e n) (hj : m.call? j = some call) :
    ∃ call', n.call? j = some call' ∧
      (call.point.Wakes call'.point ∧ call'.sequel = call.sequel ∨
        ∃ t, m.Takes j call e t ∧ n.world = t.world ∧ t.point.Wakes call'.point ∧
          (call'.sequel = call.sequel ∨ call'.sequel = .none ∨
            ∃ h, call.point = .heartbeat h .resting ∧ call'.sequel = .beat h)) := by
  cases h with
  | @turn _ k call₀ t pick s hk takes sequel =>
    obtain ⟨call', hcall', hw, hs⟩ := exists_call_apply k t s pick hj
    refine ⟨call', hcall', ?_⟩
    by_cases hkj : k = j
    · subst hkj
      obtain rfl := Option.some.inj (hk.symm.trans hj)
      rw [if_pos rfl] at hw hs
      exact .inr ⟨t, takes, rfl, hw, hs ▸ sequel⟩
    · rw [if_neg hkj] at hw hs
      exact .inl ⟨hw, hs⟩
  | enter permits =>
    refine ⟨call, ?_, .inl ⟨.refl _, rfl⟩⟩
    have hlt : j < m.calls.length := (List.getElem?_eq_some_iff.mp hj).1
    simp only [call?, Machine.begin]
    rw [List.getElem?_append_left hlt]
    exact hj
  | aside befalls => exact ⟨call, hj, .inl ⟨.refl _, rfl⟩⟩

/-- If nothing is to be done with the result of a call, this does not change in its turn, unless a
heartbeat begins a round. -/
theorem eq_none_of_sequel {s : Sequel}
    (h : s = call.sequel ∨ s = .none ∨ ∃ b, call.point = .heartbeat b .resting ∧ s = .beat b)
    (hs : call.sequel = .none) (hx : ∀ b, call.point ≠ .heartbeat b .resting) : s = .none := by
  rcases h with h | h | ⟨b, hb, -⟩
  · exact h.trans hs
  · exact h
  · exact absurd hb (hx b)

/-- A turn that a call can take is what happens in the event. -/
theorem Takes.perform_eq (h : m.Takes k call e t) (hk : m.call? k = some call)
    (hm : m.world.crashed = false) : ∃ pick s, m.perform e = some (apply
      { m with calls := m.calls.modify k fun c => { c with sequel := s } } k pick t) := by
  cases h with
  | @step pick t ht => exact ⟨pick, _, perform_advance hm hk ht pick⟩
  | @overlooked pick t p c leased ht hpoint overlooks =>
    refine ⟨pick, call.sequel, ?_⟩
    simp only [Machine.perform, hm, overlook, hk, hpoint, overlooks, modify_sequel hk,
      Option.bind_eq_bind, Option.bind_some, Option.map_some, Bool.false_eq_true, if_false]
  | @beat b hpoint wanted =>
    refine ⟨0, .beat b, ?_⟩
    simp [Machine.perform, hm, tick, hk, hpoint, wanted, Machine.apply, Turn.goto, moved,
      List.modify_modify_eq, Function.comp_def]
  | expired hpoint limited =>
    refine ⟨0, call.sequel, ?_⟩
    simp only [Machine.perform, hm, expire, hk, hpoint, modify_sequel hk, Option.bind_eq_bind,
      Option.bind_some, Bool.false_eq_true, if_false, if_pos limited]
  | _ a hpoint =>
    refine ⟨0, call.sequel, ?_⟩
    simp only [Machine.perform, hm, answer, hk, hpoint, modify_sequel hk, Option.bind_eq_bind,
      Option.bind_some, Bool.false_eq_true, if_false]

/-- A turn that a call can take is taken in the event. -/
theorem Takes.exists_perform (h : m.Takes k call e t) (hk : m.call? k = some call)
    (hm : m.world.crashed = false) :
    ∃ n call', m.perform e = some n ∧ n.world = t.world ∧ n.call? k = some call' ∧
      t.point.Wakes call'.point := by
  obtain ⟨pick, s, hn⟩ := h.perform_eq hk hm
  obtain ⟨call', hk', hw, -⟩ := exists_call_apply k t s pick hk
  rw [if_pos rfl] at hw
  exact ⟨_, call', hn, rfl, hk', hw⟩

/-- The next step of the call of this key can be taken, and it changes the shared state to `w` and
leads to the point `x`. -/
def Leads (m : Machine) (k : CallKey) (w : World) (x : Point) : Prop :=
  ∀ pick, ∃ n call', m.perform (.advance k pick) = some n ∧ n.world = w ∧
    n.call? k = some call' ∧ call'.point = x

/-- In the next step the call of this key ends with this outcome, and the shared state does not
change. -/
def Ends (m : Machine) (k : CallKey) (o : Outcome) : Prop := m.Leads k m.world (.finished o)

/-- A step that does not lead to sleep. -/
theorem leads_of_turn (hm : m.world.crashed = false) (hk : m.call? k = some call)
    (ht : turn m.world m.calls.length m.isOver call = some t) (hawake : t.point.sleeps = false) :
    m.Leads k t.world t.point := by
  intro pick
  have takes : m.Takes k call (.advance k pick) t := .step ht
  obtain ⟨n, call', hn, hworld, hk', hw⟩ := takes.exists_perform hk hm
  exact ⟨n, call', hn, hworld, hk', hw.eq_of_awake hawake⟩

/-- A step that only ends the call. -/
theorem ends_of_turn {o : Outcome} (hm : m.world.crashed = false) (hk : m.call? k = some call)
    (ht : turn m.world m.calls.length m.isOver call = some (.finish m.world o)) :
    m.Ends k o :=
  leads_of_turn hm hk ht rfl

/-- Only a heartbeat that is started again starts another call. -/
theorem Takes.started (h : m.Takes k call e t) :
    ∀ y ∈ t.started, ∃ b, y = .heartbeat b .resting := by
  cases h with
  | step h | overlooked h => exact started_turn h
  | stocked a hpoint => exact Turn.forall_started rfl
  | opened a hpoint => exact Turn.forall_started rfl
  | pinged a hpoint =>
    simp only [KeepAlive.answered]
    split <;> exact Turn.forall_started rfl
  | replied a hpoint => exact Turn.forall_started rfl
  | parted a hpoint => cases a <;> exact Turn.forall_started rfl
  | expired hpoint limited => exact Turn.forall_started rfl
  | beat hpoint wanted => exact Turn.forall_started rfl

theorem Takes.started_eq (h : m.Takes k call e t) :
    t.started = none ∨ ∃ b, t.started = some (.heartbeat b .resting) := by
  cases hy : t.started with
  | none => exact .inl rfl
  | some y =>
    obtain ⟨b, rfl⟩ := h.started y hy
    exact .inr ⟨b, rfl⟩

/-- A call was there before an event, unless it is one that has just begun. -/
theorem Happens.exists_call_before (h : m.Happens e n) (hj : n.call? j = some call') :
    (∃ call, m.call? j = some call) ∨
      (∃ o, e = .begin o ∧ m.permits o = true ∧ call'.point = (o.enter m.world).point ∧
        call'.sequel = (o.enter m.world).sequel) ∨
      ∃ b, call'.point = .heartbeat b .resting ∧ call'.sequel = .none := by
  by_cases hlt : j < m.calls.length
  · exact .inl ⟨_, List.getElem?_eq_getElem hlt⟩
  refine .inr ?_
  cases h with
  | @turn _ k call₀ t pick s hk takes sequel =>
    simp only [call?, apply] at hj
    rw [List.getElem?_append_right (by simpa [length_foldl_signal] using hlt),
      List.getElem?_map] at hj
    obtain ⟨y, hy, rfl⟩ := Option.map_eq_some_iff.mp hj
    obtain ⟨b, hb⟩ := takes.started y (Option.mem_toList.mp (List.mem_of_getElem? hy))
    exact .inr ⟨b, hb, rfl⟩
  | @enter o permits =>
    simp only [call?, Machine.begin] at hj
    rw [List.getElem?_append_right (Nat.le_of_not_lt hlt)] at hj
    obtain rfl := List.mem_singleton.mp (List.mem_of_getElem? hj)
    exact .inl ⟨o, rfl, permits, rfl, rfl⟩
  | aside befalls =>
    simp only [call?] at hj
    rw [List.getElem?_eq_none (Nat.le_of_not_lt hlt)] at hj
    cases hj

/-! ## What becomes of the shared state -/

/-- Every turn is made of entries. -/
theorem Takes.passes {rest : PoolKey → Stake} (h : m.Takes k call e t)
    (hf : Footing m.world rest call.point) :
    t.Passes (fun _ => True) rest m.world call.point := by
  cases h with
  | step h | overlooked h => exact passes_turn hf h fun _ _ _ _ _ _ => trivial
  | stocked a hpoint =>
    rw [hpoint] at hf ⊢
    exact Stock.passes_answered hf a
  | opened a hpoint =>
    rw [hpoint] at hf ⊢
    exact Acquire.passes_answered hf a
  | pinged a hpoint =>
    rw [hpoint] at hf ⊢
    exact KeepAlive.passes_answered a hf
  | replied a hpoint =>
    rw [hpoint] at hf ⊢
    exact Exchange.passes_answered hf a
  | parted a hpoint =>
    rw [hpoint] at hf ⊢
    exact Farewell.passes_answered hf fun _ _ => trivial
  | expired hpoint limited =>
    rw [hpoint] at hf ⊢
    exact .stay hf (fun _ => rfl) (.inr rfl)
  | beat hpoint wanted =>
    rw [hpoint] at hf ⊢
    refine .stay hf (fun q => ?_) (.inl rfl)
    simp only [Turn.goto, Point.stake]
    split <;> rfl

/-- A call of a sound machine has a footing. -/
theorem Sound.exists_footing (hm : m.Sound) (hk : m.call? k = some call) :
    ∃ rest, (∀ p, m.stake p = call.point.stake p + rest p) ∧
      Footing m.world rest call.point := by
  obtain ⟨rest, hrest, -⟩ := exists_rest hk
  exact ⟨rest, hrest, hm.footing hk hrest⟩

/-- A turn of a call of a sound machine is made of entries. -/
theorem Sound.passes (hm : m.Sound) (hk : m.call? k = some call) (h : m.Takes k call e t) :
    ∃ rest, t.Passes (fun _ => True) rest m.world call.point := by
  obtain ⟨rest, -, hf⟩ := hm.exists_footing hk
  exact ⟨rest, h.passes hf⟩

theorem Befalls.length_clients {w : World} (h : m.Befalls e w) :
    m.world.clients.length ≤ w.clients.length := by
  cases h with
  | newClient => simp [World.addClient]
  | newLease | moveLease | newHeartbeat => exact le_rfl
  | _ => simp

theorem Befalls.pools {w : World} (h : m.Befalls e w) : w.pools = m.world.pools := by
  cases h <;> rfl

/-- Clients are never forgotten. -/
theorem Sound.length_clients (hm : m.Sound) (h : m.Happens e n) :
    m.world.clients.length ≤ n.world.clients.length := by
  cases h with
  | turn pick s hk takes sequel =>
    obtain ⟨rest, hpass⟩ := hm.passes hk takes
    exact hpass.clients
  | enter permits => exact (congrArg _ (clients_enter m.world _)).ge
  | aside befalls => exact befalls.length_clients

end Machine
end SessionPool
