import SessionPool.Proofs.Departure
import SessionPool.Proofs.Sendoff

/-!
# The course of one call

What one call does in a run is found by going from one of its turns to the next, whatever other
calls do in between.

* `Machine.Course`: in a run a call stays where it stands, or there is a first turn of it.
* `Farewell.SendsOff`: all that a turn of a call can do that sends clients off.
* `Machine.Reachable.doomed_run`: whoever a call is going to destroy is destroyed before it ends.
* `Machine.Reachable.kept_run`: what is never taken back.
-/

namespace SessionPool

/-! ## Sending clients off -/

/-- A client whose session has been asked to disconnect. -/
def Client.asked (k : Client) : Client :=
  { k with session := { k.session with disconnects := k.session.disconnects + 1 } }

/-- The clients that a call destroys before it ends. -/
def Point.doomed : Point → List ClientKey
  | .farewell .destroy _ todo next => todo ++ next.outgoing
  | .farewell .disconnect _ _ next => next.outgoing
  | .close _ (.sealing shut) => shut
  | .close _ (.announcing shut) => shut
  | _ => []

theorem Point.Wakes.doomed_eq {x y : Point} (h : Point.Wakes x y) : y.doomed = x.doomed := by
  cases h <;> rfl

namespace Farewell

/-- What a turn of a call makes of the shared state that sends clients off, and where the call
stands then. -/
inductive SendsOff (w : World) (rite : Rite) (next : Afterwards) :
    Bool → List ClientKey → World → Point → Prop where
  /-- Nobody is left. -/
  | done {waiting : Bool} : SendsOff w rite next waiting [] w (after next)
  /-- The next client has been disconnected before, as well as it went. -/
  | skipped {c : ClientKey} {rest : List ClientKey} (destroys : rite = .destroy)
      (gone : (w.client c).state = .disconnected) :
      SendsOff w rite next false (c :: rest) (w.onClient c (depart rite))
        (.farewell rite false rest next)
  /-- The next client is asked to disconnect. -/
  | asked {c : ClientKey} {rest : List ClientKey}
      (present : rite = .destroy → (w.client c).state ≠ .disconnected)
      (connected : (w.client c).session.connected = true) :
      SendsOff w rite next false (c :: rest) (w.onClient c Client.asked)
        (.farewell rite true (c :: rest) next)
  /-- The next client is not connected and goes without being asked. -/
  | unasked {c : ClientKey} {rest : List ClientKey}
      (unconnected : (w.client c).session.connected = false) :
      SendsOff w rite next false (c :: rest) (w.onClient c (depart rite))
        (.farewell rite false rest next)
  /-- The client that was asked is gone. -/
  | answered {c : ClientKey} {rest : List ClientKey} (connected : Bool) :
      SendsOff w rite next true (c :: rest)
        (w.onClient c fun k => depart rite { k with session := { k.session with connected } })
        (.farewell rite false rest next)

variable {w : World} {rite : Rite} {next : Afterwards} {c : ClientKey} {rest : List ClientKey}

theorem sendsOff_step {waiting : Bool} {todo : List ClientKey}
    (h : waiting = false ∨ todo = []) :
    SendsOff w rite next waiting todo (step w rite todo next).world
      (step w rite todo next).point := by
  cases todo with
  | nil => exact .done
  | cons c rest =>
    obtain rfl : waiting = false := h.resolve_right (List.cons_ne_nil c rest)
    simp only [step]
    split
    · next hgone => exact .skipped hgone.1 hgone.2
    · next hstays =>
      rw [not_and] at hstays
      split
      · next hconnected => exact .asked hstays hconnected
      · next hconnected => exact .unasked (Bool.not_eq_true _ ▸ hconnected)

theorem sendsOff_answered (a : DisconnectAnswer) :
    SendsOff w rite next true (c :: rest) (answered w rite c rest next a).world
      (answered w rite c rest next a).point := by
  cases a with
  | done => exact .answered false
  | failed reason =>
    have hsame : w.onClient c (depart rite) = w.onClient c fun k => depart rite
        { k with session := { k.session with connected := (w.client c).session.connected } } :=
      World.onClient_congr rfl
    simp only [answered]
    rw [hsame]
    exact .answered _

theorem doomed_after (next : Afterwards) : (after next).doomed = next.outgoing := by
  cases next <;> simp [after, Point.doomed, Afterwards.outgoing]

/-- Whoever is doomed stays so when the next client has been sent off, or is that client. -/
theorem doomed_tail {d : ClientKey} {waiting : Bool}
    (h : d ∈ (Point.farewell rite waiting (c :: rest) next).doomed) :
    d ∈ (Point.farewell rite false rest next).doomed ∨ d = c ∧ rite = .destroy := by
  cases rite with
  | disconnect => exact .inl h
  | destroy =>
    rw [Point.doomed, List.cons_append, List.mem_cons] at h
    exact h.symm.imp_right fun hd => ⟨hd, rfl⟩

/-- Whoever is doomed is destroyed in a turn, or has it before them still. -/
theorem SendsOff.doomed {waiting : Bool} {todo : List ClientKey} {w' : World} {y : Point}
    (h : SendsOff w rite next waiting todo w' y) {d : ClientKey} (hlt : d < w.clients.length)
    (hd : d ∈ (Point.farewell rite waiting todo next).doomed) :
    d ∈ y.doomed ∨ (w'.client d).destroyed = true := by
  cases h with
  | done =>
    rw [doomed_after]
    cases rite <;> exact .inl hd
  | asked => cases rite <;> exact .inl hd
  | skipped | unasked =>
    refine (doomed_tail hd).imp_right ?_
    rintro ⟨rfl, rfl⟩
    rw [World.client_onClient w hlt]
    rfl
  | answered connected =>
    refine (doomed_tail hd).imp_right ?_
    rintro ⟨rfl, rfl⟩
    rw [World.client_onClient w hlt]
    rfl

end Farewell

/-! ## What is never taken back -/

namespace Treatment

variable {w : World} {c : ClientKey} {x : Point} {k : Client}

/-- Whether a session has been asked to disconnect is never forgotten, and it is asked only by a
call that sends the client off. -/
theorem disconnects (h : Treatment w c x k) :
    k.session.disconnects = (w.client c).session.disconnects ∨
      c ∈ x.outgoing ∧ k.session.disconnects = (w.client c).session.disconnects + 1 := by
  cases h with
  | asked outgoing => exact .inr ⟨outgoing, rfl⟩
  | commanded command =>
    unfold Client.receive Session.receive
    split <;> exact .inl rfl
  | broken => exact .inl (by rw [Client.breakDown_session])
  | departed rite => cases rite <;> exact .inl rfl
  | _ => exact .inl rfl

/-- A destroyed client stays so, and a client is destroyed only by a call that sends it off. -/
theorem destroyed (h : Treatment w c x k) :
    k.destroyed = (w.client c).destroyed ∨
      c ∈ x.outgoing ∧ k.destroyed = true ∧ k.state = .disconnected := by
  cases h with
  | broken =>
    unfold Client.breakDown
    split <;> exact .inl rfl
  | departed rite connected outgoing was =>
    cases rite with
    | disconnect => exact .inl rfl
    | destroy => exact .inr ⟨outgoing, rfl, rfl⟩
  | _ => exact .inl rfl

end Treatment

namespace Machine

variable {m n : Machine} {e : Event} {k : CallKey} {call : Call} {c : ClientKey} {t : Turn}

theorem Befalls.session {w : World} (h : m.Befalls e w) (hc : c < m.world.clients.length) :
    (w.client c).session.disconnects = (m.world.client c).session.disconnects ∧
      (w.client c).destroyed = (m.world.client c).destroyed := by
  rcases h.client hc with hw | ⟨-, hw⟩ | ⟨connected, -, hw⟩ | ⟨s, -, hw⟩ | ⟨-, count, hw⟩
  · rw [hw]
    exact ⟨rfl, rfl⟩
  · rw [hw]
    refine ⟨by rw [Client.breakDown_session], ?_⟩
    unfold Client.breakDown
    split <;> rfl
  all_goals
    rw [hw]
    exact ⟨rfl, rfl⟩

/-- A session is asked to disconnect only by a call that sends its client off. -/
theorem disconnects_perform (hc : c < m.world.clients.length) (hn : m.perform e = some n) :
    (n.world.client c).session.disconnects = (m.world.client c).session.disconnects ∨
      (∃ call ∈ m.calls, c ∈ call.point.outgoing) ∧ (n.world.client c).session.disconnects =
        (m.world.client c).session.disconnects + 1 := by
  cases happens hn with
  | turn pick s hk takes sequel =>
    exact (takes.treatment hc).disconnects.imp_right fun h =>
      ⟨⟨_, List.mem_of_getElem? hk, h.1⟩, h.2⟩
  | enter permits => exact .inl (by rw [client_begin])
  | aside befalls => exact .inl (befalls.session hc).1

/-- A client is destroyed only by a call that sends it off. -/
theorem destroyed_perform (hc : c < m.world.clients.length) (hn : m.perform e = some n) :
    (n.world.client c).destroyed = (m.world.client c).destroyed ∨
      (∃ call ∈ m.calls, c ∈ call.point.outgoing) ∧ (n.world.client c).destroyed = true ∧
        (n.world.client c).state = .disconnected := by
  cases happens hn with
  | turn pick s hk takes sequel =>
    exact (takes.treatment hc).destroyed.imp_right fun h =>
      ⟨⟨_, List.mem_of_getElem? hk, h.1⟩, h.2⟩
  | enter permits => exact .inl (by rw [client_begin])
  | aside befalls => exact .inl (befalls.session hc).2

/-- In a run a session is not asked less often to disconnect, and a destroyed client stays so. -/
theorem Reachable.kept_run (hm : m.Reachable) (hc : c < m.world.clients.length)
    {es : List Event} (hn : m.run es = some n) :
    c < n.world.clients.length ∧
      (m.world.client c).session.disconnects ≤ (n.world.client c).session.disconnects ∧
        ((m.world.client c).destroyed = true → (n.world.client c).destroyed = true) := by
  induction es generalizing m with
  | nil =>
    rw [run_nil, Option.some.injEq] at hn
    exact hn ▸ ⟨hc, le_rfl, id⟩
  | cons e es ih =>
    rw [run_cons, Option.bind_eq_some_iff] at hn
    obtain ⟨l, hl, hn⟩ := hn
    obtain ⟨hlt, hle, hgone⟩ :=
      ih (hm.perform hl) (hc.trans_le (hm.sound.length_clients (happens hl))) hn
    refine ⟨hlt, ?_, fun h => hgone ?_⟩
    · rcases disconnects_perform hc hl with h | ⟨-, h⟩ <;> omega
    · rcases destroyed_perform hc hl with h' | ⟨-, h', -⟩
      · exact h'.trans h
      · exact h'

/-! ## Runs from the beginning -/

/-- What holds at the beginning and is kept by every event holds of every run and of the machine it
leads to. -/
theorem history_induct {P : List Event → Machine → Prop} (empty : P [] {})
    (keeps : ∀ es m e n, run {} es = some m → P es m → m.perform e = some n → P (es ++ [e]) n)
    {es : List Event} (h : run {} es = some m) : P es m := by
  induction es using List.reverseRecOn generalizing m with
  | nil =>
    rw [run_nil, Option.some.injEq] at h
    exact h ▸ empty
  | append_singleton es e ih =>
    obtain ⟨l, hl, hm⟩ := run_snoc_iff.mp h
    exact keeps es l e m hl (ih hl) hm

/-- What is said of something in a list, of an event of a run for example, is said of something
before the last, or of the last. -/
theorem snoc_eq_append_cons {α : Type} {as us vs : List α} {a b : α}
    (h : as ++ [a] = us ++ b :: vs) :
    (∃ ws, as = us ++ b :: ws ∧ vs = ws ++ [a]) ∨ as = us ∧ a = b ∧ vs = [] := by
  rcases List.eq_nil_or_concat vs with rfl | ⟨ws, x, rfl⟩
  · obtain ⟨has, ha⟩ := List.append_inj' h rfl
    exact .inr ⟨has, (List.cons.inj ha).1, rfl⟩
  · rw [List.concat_eq_append, ← List.cons_append, ← List.append_assoc] at h
    obtain ⟨has, ha⟩ := List.append_inj' h rfl
    exact .inl ⟨ws, has, by rw [List.concat_eq_append, (List.cons.inj ha).1]⟩

/-- Only a call that is there takes turns. -/
theorem exists_call_of_isTurnOf (hn : m.perform e = some n) (he : e.isTurnOf k = true) :
    ∃ call, m.call? k = some call := by
  cases happens hn with
  | turn pick s hk takes sequel => exact ⟨_, takes.key_eq he ▸ hk⟩
  | enter permits => cases he
  | aside befalls => cases befalls <;> cases he

/-- In an event a call takes its turn, or it is none of its turns and the call is woken or stays
where it is. -/
theorem Happens.turn_or_wakes (h : m.Happens e n) (hk : m.call? k = some call) :
    ∃ call', n.call? k = some call' ∧
      (e.isTurnOf k = false ∧ call.point.Wakes call'.point ∧ call'.sequel = call.sequel ∨
        e.isTurnOf k = true ∧ ∃ t, m.Takes k call e t ∧ n.world = t.world ∧
          t.point.Wakes call'.point ∧ (call'.sequel = call.sequel ∨ call'.sequel = .none ∨
            ∃ h, call.point = .heartbeat h .resting ∧ call'.sequel = .beat h)) := by
  by_cases he : e.isTurnOf k = true
  · obtain ⟨call', t, hk', takes, hworld, hw, hs⟩ := h.exists_takes hk he
    exact ⟨call', hk', .inr ⟨he, t, takes, hworld, hw, hs⟩⟩
  · obtain ⟨call', hk', ⟨hw, hs⟩ | ⟨t, takes, -⟩⟩ := h.exists_call hk
    · exact ⟨call', hk', .inl ⟨Bool.not_eq_true _ ▸ he, hw, hs⟩⟩
    · exact absurd takes.isTurnOf he

/-! ## Turns -/

/-- A turn of a call that is sending clients off. -/
theorem Takes.sendsOff {rite : Rite} {waiting : Bool} {todo : List ClientKey} {next : Afterwards}
    (h : m.Takes k call e t) (hx : call.point = .farewell rite waiting todo next) :
    Farewell.SendsOff m.world rite next waiting todo t.world t.point := by
  obtain ⟨x, sequel, notices⟩ := call
  simp only at hx
  subst hx
  cases h with
  | step ht =>
    match waiting, todo, ht with
    | false, todo, ht => exact Option.some.inj ht ▸ Farewell.sendsOff_step (.inl rfl)
    | true, [], ht => exact Option.some.inj ht ▸ Farewell.sendsOff_step (.inr rfl)
  | overlooked ht hpoint => cases hpoint
  | parted a hpoint =>
    cases hpoint
    exact Farewell.sendsOff_answered a
  | stocked a hpoint | opened a hpoint | pinged a hpoint | replied a hpoint => cases hpoint
  | expired hpoint limited => cases hpoint
  | beat hpoint wanted => cases hpoint

/-- What becomes of a call in a run from `m` to `n` that stands at `call` in `m` and does not
sleep. -/
inductive Course (m : Machine) (k : CallKey) (call : Call) (es : List Event) (n : Machine) :
    Prop where
  /-- It stays where it stands. -/
  | rests {call' : Call} (hk' : n.call? k = some call') (point : call'.point = call.point)
      (sequel : call'.sequel = call.sequel) : Course m k call es n
  /-- It takes a turn, the first one in the event that leads from `l` to `l'`. -/
  | turns {us vs : List Event} {e : Event} {l l' : Machine} {call₁ call₂ : Call} {t : Turn}
      (split : es = us ++ e :: vs) (before : m.run us = some l)
      (hk₁ : l.call? k = some call₁) (point : call₁.point = call.point)
      (sequel : call₁.sequel = call.sequel) (takes : l.Takes k call₁ e t)
      (hl : l.perform e = some l') (hworld : l'.world = t.world) (after : l'.run vs = some n)
      (hk₂ : l'.call? k = some call₂) (hw : t.point.Wakes call₂.point)
      (sequel' : call₂.sequel = call.sequel ∨ call₂.sequel = .none ∨
        ∃ h, call.point = .heartbeat h .resting ∧ call₂.sequel = .beat h) : Course m k call es n

/-- In every run a call stays where it stands, or there is a first turn of it. -/
theorem course (hk : m.call? k = some call) (awake : call.point.sleeps = false)
    {es : List Event} (hn : m.run es = some n) : Course m k call es n := by
  induction es generalizing m call with
  | nil =>
    rw [run_nil, Option.some.injEq] at hn
    exact .rests (hn ▸ hk) rfl rfl
  | cons e es ih =>
    rw [run_cons, Option.bind_eq_some_iff] at hn
    obtain ⟨l, hl, hn⟩ := hn
    obtain ⟨call', hk', h⟩ := (happens hl).exists_call hk
    rcases h with ⟨hw, hs⟩ | ⟨t, takes, hworld, hw, hs⟩
    · have hpoint : call'.point = call.point := hw.eq_of_awake awake
      cases ih hk' (hpoint ▸ awake) hn with
      | rests hk'' point sequel => exact .rests hk'' (point.trans hpoint) (sequel.trans hs)
      | @turns us vs e' l₁ l₂ call₁ call₂ t split before hk₁ point sequel takes hl' hworld after
          hk₂ hw sequel' =>
        rw [hs, hpoint] at sequel'
        have hsplit : e :: es = (e :: us) ++ e' :: vs := by rw [split, List.cons_append]
        refine .turns hsplit ?_ hk₁ (point.trans hpoint) (sequel.trans hs) takes hl' hworld after
          hk₂ hw sequel'
        rw [run_cons, hl, Option.bind_some, before]
    · exact .turns (List.nil_append _).symm (run_nil m) hk rfl rfl takes hl hworld hn hk' hw hs

/-- Whoever is over stays so. -/
theorem Course.of_finished {o : Outcome} {es : List Event} (h : Course m k call es n)
    (hx : call.point = .finished o) (hs : call.sequel = .none) :
    ∃ call', n.call? k = some call' ∧ call'.point = .finished o ∧ call'.sequel = .none := by
  cases h with
  | rests hk' point sequel => exact ⟨_, hk', point.trans hx, sequel.trans hs⟩
  | turns split before hk₁ point sequel takes =>
    exact absurd (sequel.trans hs) (takes.not_over (point.trans hx))

/-! ## The end of a client -/

/-- Whoever is doomed is destroyed in a turn, or has it before them still. -/
theorem Takes.doomed (h : m.Takes k call e t) (hlt : c < m.world.clients.length)
    (hc : c ∈ call.point.doomed) : c ∈ t.point.doomed ∨ (t.world.client c).destroyed = true := by
  generalize hx : call.point = x at hc
  match x, hx, hc with
  | .farewell rite waiting todo next, hx, hc => exact (h.sendsOff hx).doomed hlt hc
  | .close p (.sealing shut), hx, hc | .close p (.announcing shut), hx, hc =>
    obtain ⟨-, ht⟩ := h.turn_eq (by rw [hx]; rfl) (by rw [hx]; rfl) (by simp [hx])
    simp only [Machine.turn, hx, Close.step, Option.some.injEq] at ht
    rw [← ht]
    exact .inl (by simpa [Close.markClosed, Close.announce, Turn.goto, Point.doomed,
      Afterwards.outgoing] using hc)

/-- In every run a client that is doomed is destroyed, or has it before it still. -/
theorem Reachable.doomed_run (hm : m.Reachable) (hlt : c < m.world.clients.length)
    (hk : m.call? k = some call) (hc : c ∈ call.point.doomed) {es : List Event}
    (hn : m.run es = some n) :
    (∃ call', n.call? k = some call' ∧ c ∈ call'.point.doomed) ∨
      (n.world.client c).destroyed = true := by
  induction es generalizing m call with
  | nil =>
    rw [run_nil, Option.some.injEq] at hn
    exact .inl ⟨call, hn ▸ hk, hc⟩
  | cons e es ih =>
    rw [run_cons, Option.bind_eq_some_iff] at hn
    obtain ⟨l, hl, hn⟩ := hn
    have hlt' : c < l.world.clients.length :=
      hlt.trans_le (hm.sound.length_clients (happens hl))
    obtain ⟨call', hk', ⟨hw, -⟩ | ⟨t, takes, hworld, hw, -⟩⟩ := (happens hl).exists_call hk
    · exact ih (hm.perform hl) hlt' hk' (hw.doomed_eq ▸ hc) hn
    · rcases takes.doomed hlt hc with hc' | hgone
      · exact ih (hm.perform hl) hlt' hk' (hw.doomed_eq ▸ hc') hn
      · exact .inr (((hm.perform hl).kept_run hlt' hn).2.2 (hworld ▸ hgone))

end Machine
end SessionPool
