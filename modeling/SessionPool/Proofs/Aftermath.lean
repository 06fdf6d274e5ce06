import SessionPool.Proofs.Moves

/-!
# What an event leaves behind

`Machine.Happens` says what an event can lead to, and leaves open what becomes of the result of the
call that has taken its turn.  Here it is said to the letter: of the call that has taken its turn,
of all others, and of the call that was started.

* `Machine.Takes.perform_exact`: what becomes of a result follows from the call and the event.
* `Machine.Turned`: all calls after a turn.
* `Machine.perform_cases`: every event is a turn, or a call begins, or no call has a part in it.
-/

namespace SessionPool

/-- What is to be done with the result of a call after its turn in this event.  A heartbeat that
begins a round waits for the result of the round; whatever has had a result has used it up. -/
def Call.sequelIn (call : Call) (e : Event) : Sequel :=
  match call.point, e with
  | .heartbeat h .resting, .tick _ => .beat h
  | _, _ => Machine.sequelAfter call

/-- A heartbeat waits for a result because a round begins, or because it did so before. -/
theorem Call.of_sequelIn_eq_beat {call : Call} {e : Event} {b : HeartbeatKey}
    (h : call.sequelIn e = .beat b) :
    (call.point = .heartbeat b .resting ∧ ∃ k, e = .tick k) ∨
      call.sequel = .beat b ∧ ∀ o, call.point ≠ .finished o := by
  obtain ⟨x, sequel, notices⟩ := call
  cases x with
  | finished o => cases h
  | heartbeat b' s =>
    cases s with
    | resting =>
      cases e with
      | tick k =>
        obtain rfl := Sequel.beat.inj h
        exact .inl ⟨rfl, k, rfl⟩
      | _ => exact .inr ⟨h, nofun⟩
    | _ => exact .inr ⟨h, nofun⟩
  | _ => exact .inr ⟨h, nofun⟩

/-- Whom the event wakes of several sleepers. -/
def Event.pick : Event → ℕ
  | .advance _ pick | .overlook _ pick => pick
  | _ => 0

namespace Machine

variable {m n : Machine} {e : Event} {k j : CallKey} {call call' : Call} {t : Turn} {s : Sequel}
  {pick : ℕ}

/-! ## Turns -/

/-- A turn that a call can take is what happens in the event, and its result is used up if it had
one. -/
theorem Takes.perform_exact (h : m.Takes k call e t) (hk : m.call? k = some call)
    (hm : m.world.crashed = false) : m.perform e = some (apply
      { m with calls := m.calls.modify k fun c => { c with sequel := call.sequelIn e } } k e.pick
      t) := by
  cases h with
  | @step pick t ht =>
    have hsequel : call.sequelIn (.advance k pick) = sequelAfter call := by
      unfold Call.sequelIn
      split <;> simp_all
    rw [hsequel]
    exact perform_advance hm hk ht pick
  | @overlooked pick t p c leased ht hpoint overlooks =>
    have hsequel : call.sequelIn (.overlook k pick) = call.sequel := by
      simp [Call.sequelIn, sequelAfter, hpoint]
    simp only [Machine.perform, hm, overlook, hk, hpoint, overlooks, hsequel, modify_sequel hk,
      Event.pick, Option.bind_eq_bind, Option.bind_some, Option.map_some, Bool.false_eq_true,
      if_false]
  | @beat b hpoint wanted =>
    simp [Machine.perform, hm, tick, hk, hpoint, wanted, Machine.apply, Turn.goto, moved,
      List.modify_modify_eq, Function.comp_def, Call.sequelIn]
  | expired hpoint limited =>
    have hsequel : call.sequelIn (.expire k) = call.sequel := by
      simp [Call.sequelIn, sequelAfter, hpoint]
    simp only [Machine.perform, hm, expire, hk, hpoint, hsequel, modify_sequel hk, Event.pick,
      Option.bind_eq_bind, Option.bind_some, Bool.false_eq_true, if_false, if_pos limited]
  | _ a hpoint =>
    have hsequel : ∀ a, call.sequelIn (.answer k a) = call.sequel := fun a => by
      simp [Call.sequelIn, sequelAfter, hpoint]
    simp only [Machine.perform, hm, answer, hk, hpoint, hsequel, modify_sequel hk, Event.pick,
      Option.bind_eq_bind, Option.bind_some, Bool.false_eq_true, if_false]

/-- In the event that leads from `m` to `n` the call of this key, which stood at `call`, has taken
this turn. -/
structure Turned (m : Machine) (k : CallKey) (call : Call) (e : Event) (t : Turn) (n : Machine) :
    Prop where
  world : n.world = t.world
  mine : ∃ call', n.call? k = some call' ∧ t.point.Wakes call'.point ∧
    call'.sequel = call.sequelIn e ∧ call'.notices = call.notices ++ t.notices
  others : ∀ j call₀, j ≠ k → m.call? j = some call₀ → ∃ call', n.call? j = some call' ∧
    call₀.point.Wakes call'.point ∧ call'.sequel = call₀.sequel ∧ call'.notices = call₀.notices
  fresh : n.call? m.calls.length = t.started.map fun x => { point := x }
  beyond : ∀ j, m.calls.length < j → n.call? j = none

theorem call?_lt (hk : m.call? k = some call) : k < m.calls.length :=
  (List.getElem?_eq_some_iff.mp hk).1

/-- After a turn there is the call that has taken it, there are the others, and there may be one
that was started. -/
theorem Turned.call?_cases (turned : m.Turned k call e t n) (hj : n.call? j = some call') :
    j = k ∧ t.point.Wakes call'.point ∧ call'.sequel = call.sequelIn e ∨
      (∃ call₀, m.call? j = some call₀ ∧ call₀.point.Wakes call'.point ∧
        call'.sequel = call₀.sequel) ∨
      ∃ x ∈ t.started, call' = { point := x } := by
  rcases Nat.lt_trichotomy j m.calls.length with hlt | rfl | hgt
  · by_cases hjk : j = k
    · obtain ⟨call₁, hk₁, hw, hs, -⟩ := turned.mine
      rw [hjk, hk₁, Option.some.injEq] at hj
      exact .inl ⟨hjk, hj ▸ hw, hj ▸ hs⟩
    · have hj₀ : m.call? j = some m.calls[j] := List.getElem?_eq_getElem hlt
      obtain ⟨call₁, hj₁, hw, hs, -⟩ := turned.others j m.calls[j] hjk hj₀
      rw [hj₁, Option.some.injEq] at hj
      exact .inr (.inl ⟨_, hj₀, hj ▸ hw, hj ▸ hs⟩)
  · rw [turned.fresh, Option.map_eq_some_iff] at hj
    obtain ⟨x, hx, rfl⟩ := hj
    exact .inr (.inr ⟨x, hx, rfl⟩)
  · rw [turned.beyond j hgt] at hj
    cases hj

/-- A call that some wake-ups reach is woken, or stays where it is, and says nothing. -/
theorem exists_call_signals (pick : ℕ) (signals : List Signal) {calls : List Call}
    (h : calls[k]? = some call) :
    ∃ call', (signals.foldl (signal pick) calls)[k]? = some call' ∧
      call.point.Wakes call'.point ∧ call'.sequel = call.sequel ∧
        call'.notices = call.notices := by
  obtain ⟨call', hk', hw, hs⟩ := exists_call_foldl_signal pick signals h
  refine ⟨call', hk', hw, hs, ?_⟩
  have hnotices := congrArg (fun l : List (List Notice) => l[k]?)
    (map_foldl_signal (f := Call.notices) (fun _ _ => rfl) pick signals calls)
  simpa [List.getElem?_map, h, hk'] using hnotices

/-- What a turn makes of all calls. -/
theorem turned_apply (hk : m.call? k = some call) (hs : s = call.sequelIn e) :
    m.Turned k call e t (apply
      { m with calls := m.calls.modify k fun c => { c with sequel := s } } k pick t) := by
  subst hs
  have hlength : (t.signals.foldl (signal pick) ((m.calls.modify k fun c =>
      { c with sequel := call.sequelIn e }).modify k (moved t))).length = m.calls.length := by
    rw [length_foldl_signal, List.length_modify, List.length_modify]
  -- Whoever was there is found in front of the call that was started.
  have hthere : ∀ j call₁, ((m.calls.modify k fun c =>
      { c with sequel := call.sequelIn e }).modify k (moved t))[j]? = some call₁ →
        ∃ call', (apply { m with calls := m.calls.modify k fun c =>
            { c with sequel := call.sequelIn e } } k pick t).call? j = some call' ∧
          call₁.point.Wakes call'.point ∧ call'.sequel = call₁.sequel ∧
            call'.notices = call₁.notices := by
    intro j call₁ hj
    obtain ⟨call', hj', h⟩ := exists_call_signals pick t.signals hj
    refine ⟨call', ?_, h⟩
    simp only [call?, apply]
    rw [List.getElem?_append_left (List.getElem?_eq_some_iff.mp hj').1]
    exact hj'
  refine ⟨rfl, ?_, fun j call₀ hj hcall => ?_, ?_, fun j hj => ?_⟩
  · have hk' : m.calls[k]? = some call := hk
    exact hthere k (moved t { call with sequel := call.sequelIn e })
      (by simp [List.modify_modify_eq, hk'])
  · have hj' : m.calls[j]? = some call₀ := hcall
    exact hthere j call₀ (by simp [List.modify_modify_eq, hj', Ne.symm hj])
  · simp only [call?, apply]
    rw [List.getElem?_append_right hlength.le, hlength, Nat.sub_self, List.getElem?_map]
    cases t.started <;> rfl
  · simp only [call?, apply]
    refine List.getElem?_eq_none ?_
    rw [List.length_append, hlength, List.length_map]
    cases t.started <;> simp <;> omega

/-! ## Events -/

/-- Every event is a turn of a call, or the beginning of one, or no affair of any call. -/
theorem perform_cases (hn : m.perform e = some n) :
    (∃ k call t, m.call? k = some call ∧ m.Takes k call e t ∧ m.Turned k call e t n) ∨
      (∃ o, e = .begin o ∧ m.permits o = true ∧ n = m.begin o) ∨
      ∃ w, m.Befalls e w ∧ n = { m with world := w } := by
  have hcrashed := not_crashed_of_perform hn
  cases happens hn with
  | turn pick s hk takes sequel =>
    refine .inl ⟨_, _, _, hk, takes, ?_⟩
    rw [takes.perform_exact hk hcrashed, Option.some.injEq] at hn
    exact hn ▸ turned_apply hk rfl
  | enter permits => exact .inr (.inl ⟨_, rfl, permits, rfl⟩)
  | aside befalls => exact .inr (.inr ⟨_, befalls, rfl⟩)

/-- An event that is a turn of a call is a turn that this call has taken. -/
theorem turned_of_isTurnOf (hn : m.perform e = some n) (he : e.isTurnOf k = true) :
    ∃ call t, m.call? k = some call ∧ m.Takes k call e t ∧ m.Turned k call e t n := by
  rcases perform_cases hn with ⟨j, call, t, hj, takes, turned⟩ | ⟨o, rfl, -⟩ | ⟨w, befalls, -⟩
  · obtain rfl := takes.key_eq he
    exact ⟨call, t, hj, takes, turned⟩
  · cases he
  · cases befalls <;> cases he

/-- A turn of another call. -/
theorem Takes.ne (takes : m.Takes j call e t) (he : e.isTurnOf k = false) : j ≠ k := by
  rintro rfl
  rw [takes.isTurnOf] at he
  cases he

/-- In an event that is no turn of a call it is woken, or stays where it is, and says nothing. -/
theorem exists_call_of_not_isTurnOf (hn : m.perform e = some n) (he : e.isTurnOf k = false)
    (hk : m.call? k = some call) : ∃ call', n.call? k = some call' ∧
      call.point.Wakes call'.point ∧ call'.sequel = call.sequel ∧ call'.notices = call.notices := by
  rcases perform_cases hn with ⟨j, call₀, t, hj, takes, turned⟩ | ⟨o, rfl, -, rfl⟩ | ⟨w, -, rfl⟩
  · exact turned.others k call (takes.ne he).symm hk
  · have hlast : (m.begin o).call? k = m.call? k := List.getElem?_append_left (call?_lt hk)
    exact ⟨call, hlast.trans hk, .refl _, rfl, rfl⟩
  · exact ⟨call, hk, .refl _, rfl, rfl⟩

end Machine
end SessionPool
