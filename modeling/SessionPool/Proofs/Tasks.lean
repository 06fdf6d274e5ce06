import SessionPool.Proofs.Decline
import SessionPool.Proofs.Pulse

/-!
# What is pinged and what is commanded

A call that pings the clients of a pool, or runs a command on a client, has begun with this pool or
this client, or it is the worker of a heartbeat of the pool.  Nobody has a pool in hand before it is
stocked; so it is not pinged before, and no heartbeat pings it.

* `Point.task?`: what a call is about that pings or commands.
* `Machine.Takes.task`: no other turn leads to such a point.
* `Machine.Known.task_before`: what a call is about was somebody's task before.
* `Machine.Reachable.tasked`: what is pinged and commanded is there.
-/

namespace SessionPool

/-- What a call is about that pings or commands. -/
inductive Task where
  /-- It pings the clients of this pool. -/
  | ping (p : PoolKey)
  /-- It runs a command on this client. -/
  | command (c : ClientKey)
  deriving DecidableEq

/-- What a call is about that stands here, if it pings or commands. -/
def Point.task? : Point → Option Task
  | .keepAlive p _ => some (.ping p)
  | .exchange c _ _ _ => some (.command c)
  | _ => none

namespace Point

variable {x y : Point} {c : ClientKey} {command : Text}

theorem Wakes.task?_eq (h : Wakes x y) : y.task? = x.task? := by
  cases h <;> rfl

/-- Whoever hands a client a command pings it, or is about this client. -/
theorem of_hands (h : x.hands c = true) :
    (∃ p, c ∈ x.drained p) ∨ x.task? = some (.command c) := by
  unfold hands at h
  split at h
  · exact .inr (congrArg (some ∘ Task.command) (of_decide_eq_true h))
  · next q pinged d rest failure =>
    refine .inl ⟨q, ?_⟩
    simp [drained, KeepAlivePoint.drained, of_decide_eq_true h]
  · cases h

/-- Whoever waits for the answer of a client pings it, or is about this client. -/
theorem of_send (h : x.request? = some (.send c command)) :
    (∃ p, c ∈ x.drained p) ∨ x.task? = some (.command c) := by
  unfold request? at h
  split at h <;> cases h
  · next q pinged rest failure => exact .inl ⟨q, by simp [drained, KeepAlivePoint.drained]⟩
  · exact .inr rfl

end Point

section Steps

variable {w : World} {p : PoolKey} {c : ClientKey} {t : Patience} {leased : Bool} {turn : Turn}

theorem Stock.task_step {left : ℕ} {s : StockPoint} (ht : step w p left s = some turn) :
    turn.point.task? = none := by
  cases s with
  | reserving => cases left <;> exact Option.some.inj ht ▸ rfl
  | opening => cases ht
  | _ => exact Option.some.inj ht ▸ rfl

namespace Acquire

theorem task_lend : (Turn.lend w p c leased).point.task? = none := by
  cases leased <;> rfl

theorem task_seek : (seek w p t leased).point.task? = none := by
  simp only [seek]
  repeat' split
  · rfl
  · exact task_lend
  · rfl
  · rfl

theorem task_step {s : AcquirePoint} (ht : step w p t leased s = some turn) :
    turn.point.task? = none := by
  cases s with
  | seeking => exact Option.some.inj ht ▸ task_seek
  | opening | asleep => cases ht
  | refused f => exact Option.some.inj ht ▸ rfl
  | arrived d =>
    obtain rfl := Option.some.inj ht
    simp only [arrive]
    split
    · rfl
    · exact task_lend
  | woken =>
    obtain rfl := Option.some.inj ht
    simp only [wake]
    split
    · exact task_seek
    · rfl
  | expired =>
    obtain rfl := Option.some.inj ht
    simp only [expire]
    split
    · exact task_seek
    · rfl

end Acquire

theorem Share.task_step : (step w p c leased).point.task? = none := by
  simp only [step]
  repeat' split
  · rfl
  · rfl
  · rfl
  · exact Acquire.task_lend

theorem Release.task_step : (step w p c).point.task? = none := by
  simp only [step, last]
  repeat' split
  all_goals rfl

theorem KeepAlive.task_step {s : KeepAlivePoint} (ht : step w p s = some turn) :
    turn.point.task? = none ∨ turn.point.task? = some (.ping p) := by
  match s, ht with
  | .draining, ht =>
    obtain rfl := Option.some.inj ht
    simp only [drain]
    split
    · exact .inl rfl
    · exact .inr rfl
  | .pinging false pinged (d :: rest) failure, ht => exact Option.some.inj ht ▸ .inr rfl
  | .pinging false pinged [] failure, ht | .pinging true pinged [] failure, ht =>
    exact Option.some.inj ht ▸ .inl rfl

theorem Close.task_step {s : ClosePoint} (ht : step w p s = some turn) :
    turn.point.task? = none := by
  have hdrain : ∀ w', (drain w' p).point.task? = none := fun w' => by
    simp only [drain]
    split <;> rfl
  have hattend : (attend w p).point.task? = none := by
    simp only [attend]
    split <;> rfl
  cases s with
  | entering =>
    obtain rfl := Option.some.inj ht
    simp only [enter]
    split
    · exact hattend
    · exact hdrain _
  | draining woken =>
    cases woken with
    | true => exact Option.some.inj ht ▸ hdrain w
    | false => cases ht
  | attending woken =>
    cases woken with
    | true => exact Option.some.inj ht ▸ hattend
    | false => cases ht
  | sealing shut | announcing shut => exact Option.some.inj ht ▸ rfl

namespace Farewell

theorem task_step {rite : Rite} {todo : List ClientKey} {next : Afterwards} :
    (step w rite todo next).point.task? = none := by
  cases todo with
  | nil => cases next <;> rfl
  | cons d rest =>
    simp only [step]
    repeat' split
    all_goals rfl

theorem task_answered {rite : Rite} {rest : List ClientKey} {next : Afterwards}
    (a : DisconnectAnswer) : (answered w rite c rest next a).point.task? = none := by
  cases a <;> rfl

end Farewell

namespace Heartbeat

variable {b : HeartbeatKey}

theorem task_rest : (Heartbeat.rest w b).point.task? = none := by
  unfold Heartbeat.rest
  split <;> rfl

theorem task_endRound (o : Outcome) : (endRound w b o).point.task? = none := by
  unfold endRound
  split
  · rfl
  all_goals exact task_rest

theorem task_step {k : CallKey} {ended : CallKey → Bool} {s : HeartbeatPoint}
    (ht : step w b k ended s = some turn) : turn.point.task? = none := by
  have hstart : (start w b).point.task? = none := by
    simp only [start]
    split <;> rfl
  have hrestart : (restart w b k).point.task? = none := by
    simp only [restart]
    split <;> rfl
  cases s with
  | starting => exact Option.some.inj ht ▸ hstart
  | restarting old =>
    obtain ⟨-, ht⟩ := Option.ite_none_right_eq_some.mp ht
    exact Option.some.inj ht ▸ hrestart
  | stopping => exact Option.some.inj ht ▸ rfl
  | reaping =>
    simp only [step, reap] at ht
    split at ht
    · exact Option.some.inj ht ▸ rfl
    · obtain ⟨-, ht⟩ := Option.ite_none_right_eq_some.mp ht
      exact Option.some.inj ht ▸ rfl
  | resting =>
    obtain ⟨-, ht⟩ := Option.ite_none_right_eq_some.mp ht
    exact Option.some.inj ht ▸ rfl

end Heartbeat
end Steps

/-- A heartbeat is always one of the same pool. -/
theorem Duty.Turns.pool {d y : Duty} {r r' : Heartbeat} {ended : CallKey → Bool}
    (h : d.Turns r ended r' y) : r'.pool = r.pool := by
  cases h <;> rfl

namespace Machine

variable {m n : Machine} {e : Event} {k j : CallKey} {call call' : Call} {t : Turn} {p : PoolKey}
  {b : HeartbeatKey}

theorem task_conclude {w : World} {o : Outcome} {s : Sequel} (h : conclude w o s = some t) :
    t.point.task? = none := by
  cases s with
  | none => cases h
  | beat b => exact Option.some.inj h ▸ Heartbeat.task_endRound o
  | _ => exact Option.some.inj h ▸ rfl

/-- After a turn a call is about what it was about before, or about nothing; or its heartbeat begins
a round. -/
theorem Takes.task (takes : m.Takes k call e t) : t.point.task? = none ∨
    t.point.task? = call.point.task? ∨ ∃ b, call.point = .heartbeat b .resting ∧
      t.point.task? = some (.ping (m.world.heartbeat b).pool) := by
  cases takes with
  | step ht | overlooked ht =>
    obtain ⟨x, sequel, notices⟩ := call
    cases x with
    | stock q left s => exact .inl (Stock.task_step ht)
    | acquire q u leased s => exact .inl (Acquire.task_step ht)
    | addReference q c leased => exact .inl (Option.some.inj ht ▸ Share.task_step)
    | release q c leased => exact .inl (Option.some.inj ht ▸ Release.task_step)
    | keepAlive q s =>
      rcases KeepAlive.task_step ht with h | h
      · exact .inl h
      · exact .inr (.inl h)
    | close q s => exact .inl (Close.task_step ht)
    | exchange c command ping waiting =>
      cases waiting with
      | false => exact .inr (.inl (Option.some.inj ht ▸ rfl))
      | true => cases ht
    | farewell rite waiting todo next =>
      match waiting, todo, ht with
      | false, todo, ht => exact .inl (Option.some.inj ht ▸ Farewell.task_step)
      | true, [], ht => exact .inl (Option.some.inj ht ▸ Farewell.task_step)
    | heartbeat b s => exact .inl (Heartbeat.task_step ht)
    | finished o => exact .inl (task_conclude ht)
  | stocked a hpoint | opened a hpoint => exact .inl rfl
  | pinged a hpoint =>
    rw [hpoint]
    simp only [KeepAlive.answered]
    split <;> exact .inr (.inl rfl)
  | replied a hpoint => exact .inl rfl
  | parted a hpoint => exact .inl (Farewell.task_answered a)
  | expired hpoint limited => exact .inl rfl
  | beat hpoint wanted => exact .inr (.inr ⟨_, hpoint, rfl⟩)

/-! ## Pools and clients that are there -/

/-- What calls ping and command is there, and so are the pools that heartbeats ping. -/
structure Tasked (m : Machine) : Prop where
  pinged : ∀ j call p, m.call? j = some call → call.point.task? = some (.ping p) →
    m.hasPool p = true
  commanded : ∀ j call c, m.call? j = some call → call.point.task? = some (.command c) →
    c < m.world.clients.length
  beaten : ∀ b < m.world.heartbeats.length, m.hasPool (m.world.heartbeat b).pool = true

/-- Only three operations begin a ping or a command, each with what it is about. -/
theorem task_enter (w : World) (o : Operation) : (o.enter w).point.task? = none ∨
    (∃ p, o = .keepAlive p ∧ (o.enter w).point.task? = some (.ping p)) ∨
      ∃ c, (o = .ping c ∨ ∃ command, o = .execute c command) ∧
        (o.enter w).point.task? = some (.command c) := by
  cases o <;> simp only [Operation.enter, Operation.make, Operation.giveUp]
  all_goals repeat' split
  all_goals first
    | exact .inl rfl
    | exact .inr (.inl ⟨_, rfl, rfl⟩)
    | exact .inr (.inr ⟨_, .inl rfl, rfl⟩)
    | exact .inr (.inr ⟨_, .inr ⟨_, rfl⟩, rfl⟩)

/-- A call begins to ping a pool that is there. -/
theorem hasPool_of_task_enter {o : Operation} (permits : m.permits o = true)
    (h : (o.enter m.world).point.task? = some (.ping p)) : m.hasPool p = true := by
  rcases task_enter m.world o with hnone | ⟨q, rfl, -⟩ | ⟨c, -, hc⟩
  · rw [hnone] at h
    cases h
  · cases h
    exact permits
  · rw [hc] at h
    cases h

/-- A call begins a command on a client that somebody can have in hand.  It was told which, or it
pings one that somebody has made. -/
theorem command_of_task_enter {o : Operation} {c : ClientKey} (permits : m.permits o = true)
    (h : (o.enter m.world).point.task? = some (.command c)) : m.world.isInHand c = true ∧
      ((∃ command, o = .execute c command) ∨ m.world.hasHandmade c = true) := by
  rcases task_enter m.world o with hnone | ⟨q, -, hq⟩ | ⟨d, ho, hd⟩
  · rw [hnone] at h
    cases h
  · rw [hq] at h
    cases h
  · obtain rfl := Task.command.inj (Option.some.inj (hd.symm.trans h))
    rcases ho with rfl | ⟨command, rfl⟩
    · obtain ⟨hclient, handmade⟩ := Bool.and_eq_true_iff.mp permits
      exact ⟨by simp [World.isInHand, Client.wasHeld, hclient, handmade], .inr permits⟩
    · exact ⟨permits, .inl ⟨command, rfl⟩⟩

theorem lt_length_of_isInHand {w : World} {c : ClientKey} (h : w.isInHand c = true) :
    c < w.clients.length := by
  simp only [World.isInHand, World.hasClient, Bool.and_eq_true, decide_eq_true_eq] at h
  exact h.1.1

/-- No turn makes a heartbeat, or lets one ping another pool. -/
theorem Known.pool_heartbeat (hm : m.Known) (hk : m.call? k = some call)
    (takes : m.Takes k call e t) : t.world.heartbeats.length = m.world.heartbeats.length ∧
      ∀ b < m.world.heartbeats.length,
        (t.world.heartbeat b).pool = (m.world.heartbeat b).pool := by
  rcases hm.beats_or_spares hk takes with ⟨h, -, -, beats⟩ | ⟨-, hspares, -⟩
  · refine ⟨beats.length_heartbeats, fun b hb => ?_⟩
    by_cases hbh : h = b
    · subst hbh
      cases beats with
      | turns ht heartbeats =>
        rw [World.heartbeat_congr heartbeats, World.heartbeat_onHeartbeat hb, ht.pool]
      | installs restarting rid stopped done heartbeats =>
        rw [World.heartbeat_congr heartbeats, World.heartbeat_onHeartbeat hb]
        rfl
    · rw [beats.heartbeat_of_ne hbh]
  · exact ⟨congrArg List.length hspares.heartbeats,
      fun b _ => congrArg _ (World.heartbeat_congr hspares.heartbeats)⟩

/-- What a call is about after an event, some call was about before it, or a heartbeat pings it, or
the call has begun with it. -/
theorem Known.task_before {task : Task} (hm : m.Known) (hn : m.perform e = some n)
    (hj : n.call? j = some call') (htask : call'.point.task? = some task) :
    (∃ i call, m.call? i = some call ∧ call.point.task? = some task) ∨
      (∃ b < m.world.heartbeats.length, task = .ping (m.world.heartbeat b).pool) ∨
      ∃ o, e = .begin o ∧ m.permits o = true ∧ (o.enter m.world).point.task? = some task := by
  rcases perform_cases hn with ⟨k, call, t, hk, takes, turned⟩ | ⟨o, rfl, permits, rfl⟩ |
    ⟨w, befalls, rfl⟩
  · rcases turned.call?_cases hj with ⟨-, hw, -⟩ | ⟨call₀, hj₀, hw, -⟩ | ⟨x, hx, rfl⟩
    · rw [hw.task?_eq] at htask
      rcases takes.task with hnone | hsame | ⟨b, hpoint, hping⟩
      · rw [hnone] at htask
        cases htask
      · exact .inl ⟨k, call, hk, hsame ▸ htask⟩
      · rw [hping, Option.some.injEq] at htask
        refine .inr (.inl ⟨b, hm.exists_heartbeat k call hk b ?_, htask.symm⟩)
        rw [hpoint, hm.plain k call hk b .resting hpoint]
        rfl
    · exact .inl ⟨j, call₀, hj₀, hw.task?_eq ▸ htask⟩
    · obtain ⟨b, rfl⟩ := takes.started x hx
      cases htask
  · rcases call?_begin_cases hj with hj | ⟨-, rfl⟩
    · exact .inl ⟨j, call', hj, htask⟩
    · exact .inr (.inr ⟨o, rfl, permits, htask⟩)
  · exact .inl ⟨j, call', hj, htask⟩

/-- No event forgets a heartbeat, or lets one ping another pool; and a new one pings a pool that is
there. -/
theorem Reachable.pool_heartbeat (hm : m.Reachable) (hn : m.perform e = some n) :
    ∀ b < n.world.heartbeats.length,
      (b < m.world.heartbeats.length ∧
        (n.world.heartbeat b).pool = (m.world.heartbeat b).pool) ∨
      m.hasPool (n.world.heartbeat b).pool = true := by
  intro b hb
  rcases perform_cases hn with ⟨k, call, t, hk, takes, turned⟩ | ⟨o, rfl, permits, rfl⟩ |
    ⟨w, befalls, rfl⟩
  · obtain ⟨hlength, hsame⟩ := hm.known.pool_heartbeat hk takes
    rw [turned.world] at hb ⊢
    rw [hlength] at hb
    exact .inl ⟨hb, hsame b hb⟩
  · have hbeats : (m.begin o).world.heartbeats = m.world.heartbeats :=
      (heartbeats_enter m.world o).1
    rw [hbeats] at hb
    exact .inl ⟨hb, congrArg _ (World.heartbeat_congr hbeats)⟩
  · cases befalls with
    | @newHeartbeat p interval hp =>
      show b < _ ∧ ((m.world.addHeartbeat _).heartbeat b).pool = _ ∨
        m.hasPool ((m.world.addHeartbeat _).heartbeat b).pool = true
      by_cases hlt : b < m.world.heartbeats.length
      · rw [World.heartbeat, World.addHeartbeat, List.getElem?_append_left hlt]
        exact .inl ⟨hlt, rfl⟩
      · have hlast : b = m.world.heartbeats.length := by
          have hlt' : b < (m.world.heartbeats ++
              [({ pool := p, interval } : Heartbeat)]).length := hb
          rw [List.length_append, List.length_singleton] at hlt'
          omega
        rw [hlast, World.heartbeat, World.addHeartbeat, List.getElem?_concat_length]
        exact .inr hp
    | _ => exact .inl ⟨hb, rfl⟩

/-- What calls ping and command is there after every event. -/
theorem Tasked.perform (h : m.Tasked) (hm : m.Reachable) (hn : m.perform e = some n) :
    n.Tasked := by
  have hpool : ∀ p, m.hasPool p = true → n.hasPool p = true := fun p =>
    hm.sound.hasPool_perform hn
  have hlength := hm.sound.length_clients (happens hn)
  refine ⟨fun j call p hj hp => ?_, fun j call c hj hc => ?_, fun b hb => ?_⟩
  · rcases hm.known.task_before hn hj hp with ⟨i, call, hi, hp⟩ | ⟨b, hb, hp⟩ |
      ⟨o, rfl, permits, hp⟩
    · exact hpool p (h.pinged i call p hi hp)
    · cases hp
      exact hpool _ (h.beaten b hb)
    · exact hpool p (hasPool_of_task_enter permits hp)
  · rcases hm.known.task_before hn hj hc with ⟨i, call, hi, hc⟩ | ⟨b, hb, hc⟩ |
      ⟨o, rfl, permits, hc⟩
    · exact (h.commanded i call c hi hc).trans_le hlength
    · cases hc
    · have hhand := (command_of_task_enter permits hc).1
      exact (lt_length_of_isInHand hhand).trans_le hlength
  · rcases hm.pool_heartbeat hn b hb with ⟨hb, hsame⟩ | hnew
    · exact hpool _ (hsame ▸ h.beaten b hb)
    · exact hpool _ hnew

/-- What is pinged and commanded is there, in every machine that can be reached. -/
theorem Reachable.tasked (hm : m.Reachable) : m.Tasked := by
  suffices h : m.Reachable ∧ m.Tasked from h.2
  have hempty : Tasked {} := ⟨nofun, nofun, nofun⟩
  refine hm.induct (P := fun m => m.Reachable ∧ m.Tasked) ⟨reachable_empty, hempty⟩ ?_
  exact fun m n e ⟨hm, ih⟩ hn => ⟨hm.perform hn, ih.perform hm hn⟩

end Machine
end SessionPool
