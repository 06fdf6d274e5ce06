import SessionPool.Proofs.Lending

/-!
# Clients that are made

A client is made in one event: a session comes for a caller or for the stocking of a pool, or
somebody makes one by hand.  Nothing else makes clients, and no event makes more than one.

* `Machine.Takes.length_clients`: no other turn makes a client.
* `Machine.makes`: every event makes one client at most.
* `Machine.made_perform`: what a client is that has just been made.
-/

namespace SessionPool

variable {w : World} {p : PoolKey} {c : ClientKey} {leased : Bool}

/-! ## Steps that make no client -/

namespace Acquire

variable {t : Patience}

theorem length_clients_lend (w : World) :
    (Turn.lend w p c leased).world.clients.length = w.clients.length :=
  congrArg List.length clients_lend

theorem length_clients_seek :
    (seek w p t leased).world.clients.length = w.clients.length := by
  simp only [seek]
  repeat' split
  · rfl
  · simp [Turn.saying, length_clients_lend]
  · simp [Turn.goto]
  · simp [Turn.goto]

theorem length_clients_step {s : AcquirePoint} {turn : Turn}
    (h : step w p t leased s = some turn) :
    turn.world.clients.length = w.clients.length := by
  have hrise : (seek (rise w p) p t leased).world.clients.length = w.clients.length :=
    length_clients_seek.trans (World.length_clients_onPool w p _)
  cases s with
  | seeking => exact Option.some.inj h ▸ length_clients_seek
  | opening | asleep => cases h
  | arrived d =>
    obtain rfl := Option.some.inj h
    simp only [arrive]
    split
    · simp
    · simp [Turn.saying, length_clients_lend]
  | refused f =>
    obtain rfl := Option.some.inj h
    simp [refuse]
  | woken =>
    obtain rfl := Option.some.inj h
    simp only [wake]
    split
    · exact hrise
    · rfl
  | expired =>
    obtain rfl := Option.some.inj h
    simp only [expire]
    split
    · exact hrise
    · simp [rise]

end Acquire

theorem Stock.length_clients_step {left : ℕ} {s : StockPoint} {turn : Turn}
    (h : Stock.step w p left s = some turn) :
    turn.world.clients.length = w.clients.length := by
  cases s with
  | reserving =>
    cases left with
    | zero => exact Option.some.inj h ▸ rfl
    | succ left =>
      obtain rfl := Option.some.inj h
      simp [Turn.goto]
  | opening => cases h
  | arrived d =>
    obtain rfl := Option.some.inj h
    simp [Turn.goto]
  | refused f =>
    obtain rfl := Option.some.inj h
    simp

theorem Share.length_clients_step :
    (Share.step w p c leased).world.clients.length = w.clients.length := by
  simp only [Share.step]
  repeat' split
  all_goals simp [Turn.finish, Turn.saying, Acquire.length_clients_lend]

theorem Release.length_clients_step :
    (Release.step w p c).world.clients.length = w.clients.length := by
  simp only [Release.step, Release.last, Release.keep, Turn.saying]
  repeat' split
  all_goals simp [Turn.finish]

theorem KeepAlive.length_clients_step {s : KeepAlivePoint} {turn : Turn}
    (h : KeepAlive.step w p s = some turn) :
    turn.world.clients.length = w.clients.length := by
  have hrestore : ∀ pinged failure,
      (restore w p pinged failure).world.clients.length = w.clients.length :=
    fun pinged _ => congrArg List.length (KeepAlive.foldl_settle pinged w).2.1
  cases s with
  | draining =>
    obtain rfl := Option.some.inj h
    simp only [drain]
    split <;> simp [Turn.finish]
  | pinging waiting pinged todo failure =>
    cases todo with
    | nil =>
      cases waiting <;> exact Option.some.inj h ▸ hrestore pinged failure
    | cons d rest =>
      cases waiting with
      | false =>
        obtain rfl := Option.some.inj h
        simp [ping, World.send]
      | true => cases h

theorem Close.length_clients_step {s : ClosePoint} {turn : Turn}
    (h : Close.step w p s = some turn) : turn.world.clients.length = w.clients.length := by
  have hdrain : ∀ w' : World, w'.clients.length = w.clients.length →
      (drain w' p).world.clients.length = w.clients.length := by
    intro w' hw
    simp only [drain]
    split <;> exact hw
  have hattend : (attend w p).world.clients.length = w.clients.length := by
    simp only [attend]
    split <;> rfl
  cases s with
  | entering =>
    obtain rfl := Option.some.inj h
    simp only [enter]
    split
    · exact hattend
    · exact hdrain _ rfl
  | draining woken =>
    cases woken with
    | true => exact Option.some.inj h ▸ hdrain w rfl
    | false => cases h
  | attending woken =>
    cases woken with
    | true => exact Option.some.inj h ▸ hattend
    | false => cases h
  | sealing shut | announcing shut => exact Option.some.inj h ▸ rfl

theorem Farewell.length_clients_step {rite : Rite} {todo : List ClientKey} {next : Afterwards} :
    (Farewell.step w rite todo next).world.clients.length = w.clients.length := by
  simp only [Farewell.step]
  repeat' split
  all_goals simp [Turn.goto]

theorem KeepAlive.length_clients_answered {pinged rest : List ClientKey} {failure : Option Fault}
    (a : SendAnswer) :
    (KeepAlive.answered w p pinged c rest failure a).world.clients.length = w.clients.length := by
  simp only [KeepAlive.answered]
  split <;> simp [World.length_clients_pinged]

theorem Exchange.length_clients_answered {command : Text} {ping : Bool} (a : SendAnswer) :
    (Exchange.answered w c command ping a).world.clients.length = w.clients.length := by
  simp only [Exchange.answered]
  split
  · exact World.length_clients_pinged a
  · exact World.length_clients_received command a

namespace Machine

variable {m n : Machine} {e : Event} {k : CallKey} {call : Call} {t : Turn}

/-- The next step of a call makes no client. -/
theorem length_clients_turn {fresh : CallKey} {ended : CallKey → Bool}
    (h : turn w fresh ended call = some t) : t.world.clients.length = w.clients.length := by
  obtain ⟨x, sequel, notices⟩ := call
  cases x with
  | stock p left s => exact Stock.length_clients_step h
  | acquire p t leased s => exact Acquire.length_clients_step h
  | addReference p c leased => exact Option.some.inj h ▸ Share.length_clients_step
  | release p c leased => exact Option.some.inj h ▸ Release.length_clients_step
  | keepAlive p s => exact KeepAlive.length_clients_step h
  | close p s => exact Close.length_clients_step h
  | exchange c command ping waiting =>
    cases waiting with
    | false =>
      obtain rfl := Option.some.inj h
      simp [Exchange.step, World.send]
    | true => cases h
  | farewell rite waiting todo next =>
    cases waiting with
    | false => exact Option.some.inj h ▸ Farewell.length_clients_step
    | true =>
      cases todo with
      | nil => exact Option.some.inj h ▸ Farewell.length_clients_step
      | cons c rest => cases h
  | heartbeat b s => exact congrArg List.length (Heartbeat.aside_step h).clients
  | finished o => exact congrArg List.length (aside_conclude h).clients

/-! ## The events in which clients are made -/

/-- In this event a session comes for a pool, and a client is made of it. -/
def Arrives (m : Machine) (e : Event) (p : PoolKey) (connected : Bool) : Prop :=
  ∃ k call, e = .answer k (.opened (.session connected)) ∧ m.call? k = some call ∧
    call.point.request? = some (.openSession p)

/-- The client that is made of a session that comes for a pool now. -/
def newcomer (m : Machine) (p : PoolKey) (connected : Bool) : Client :=
  { id := (m.world.pool p).nextId, home := some p, session := { connected } }

/-- Which client an event has made, if it has made any. -/
inductive Makes (m : Machine) (e : Event) (n : Machine) : Prop where
  | arrived {p : PoolKey} {connected : Bool} (arrives : m.Arrives e p connected)
      (clients : n.world.clients = m.world.clients ++ [m.newcomer p connected])
  | byHand {id : Text} {connected : Bool} (he : e = .newClient id connected)
      (clients : n.world.clients = m.world.clients ++ [{ id, session := { connected } }])
  | none (unarrived : ∀ p connected, ¬ m.Arrives e p connected)
      (length : n.world.clients.length = m.world.clients.length)

theorem not_arrives (h : ∀ j connected, e ≠ .answer j (.opened (.session connected)))
    (p : PoolKey) (connected : Bool) : ¬ m.Arrives e p connected := by
  rintro ⟨j, call, he, -⟩
  exact h j connected he

/-- The window in which a session is opened is over. -/
theorem Makes.of_opened {a : OpenAnswer} (hk : m.call? k = some call)
    (hx : call.point.request? = some (.openSession p))
    (hworld : n.world = (Opening.answered m.world p a).world) :
    m.Makes (.answer k (.opened a)) n := by
  cases a with
  | session connected =>
    have harrives : m.Arrives (.answer k (.opened (.session connected))) p connected :=
      ⟨k, call, rfl, hk, hx⟩
    exact .arrived harrives (by rw [hworld]; rfl)
  | nothing | failed reason =>
    refine .none (not_arrives fun j connected h => ?_) (by rw [hworld]; rfl)
    cases h

/-- Every turn makes one client at most. -/
theorem Takes.makes (h : m.Takes k call e t) (hk : m.call? k = some call)
    (hworld : n.world = t.world) : m.Makes e n := by
  cases h with
  | step ht | overlooked ht =>
    refine .none (not_arrives fun j connected h => ?_) (by rw [hworld, length_clients_turn ht])
    cases h
  | stocked a hpoint => exact .of_opened hk (by rw [hpoint]; rfl) hworld
  | opened a hpoint => exact .of_opened hk (by rw [hpoint]; rfl) hworld
  | pinged a hpoint =>
    refine .none (not_arrives fun j connected h => ?_)
      (by rw [hworld, KeepAlive.length_clients_answered])
    cases h
  | replied a hpoint =>
    refine .none (not_arrives fun j connected h => ?_)
      (by rw [hworld, Exchange.length_clients_answered])
    cases h
  | parted a hpoint =>
    refine .none (not_arrives fun j connected h => ?_) ?_
    · cases h
    · rw [hworld]
      cases a <;> simp [Farewell.answered]
  | expired | beat =>
    refine .none (not_arrives fun j connected h => ?_) (by rw [hworld]; rfl)
    cases h

/-- Every event makes one client at most. -/
theorem makes (hn : m.perform e = some n) : m.Makes e n := by
  cases happens hn with
  | turn pick s hk takes sequel => exact takes.makes hk rfl
  | @enter o permits =>
    refine .none (not_arrives fun j connected h => ?_) ?_
    · cases h
    · exact congrArg List.length (clients_enter m.world o)
  | aside befalls =>
    cases befalls with
    | newClient id connected => exact .byHand rfl rfl
    | newLease | moveLease | newHeartbeat =>
      refine .none (not_arrives fun j connected h => ?_) rfl
      cases h
    | breakDown | connection | setState | setReferences =>
      refine .none (not_arrives fun j connected h => ?_) (World.length_clients_onClient _ _ _)
      cases h

/-- A client that has been made just now is as it was made. -/
theorem made_perform (hn : m.perform e = some n) (hc : m.world.clients.length ≤ c)
    (hc' : c < n.world.clients.length) :
    ∃ id home connected, n.world.client c = { id, home, session := { connected } } := by
  have hlast : ∀ {k : Client}, n.world.clients = m.world.clients ++ [k] →
      n.world.client c = k := by
    intro k hclients
    rw [hclients, List.length_append, List.length_singleton] at hc'
    obtain rfl : c = m.world.clients.length := Nat.le_antisymm (Nat.le_of_lt_succ hc') hc
    simp [World.client, hclients]
  cases makes hn with
  | arrived arrives clients => exact ⟨_, _, _, hlast clients⟩
  | byHand he clients => exact ⟨_, none, _, hlast clients⟩
  | none unarrived length => exact absurd (length ▸ hc') (Nat.not_lt_of_le hc)

end Machine
end SessionPool
