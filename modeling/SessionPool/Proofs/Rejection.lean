import SessionPool.Proofs.Decline
import SessionPool.Proofs.Sendoff

/-!
# Callers of a pool that is closing

Every caller who wants a client of a pool that is closing is turned away: one that looks for a
client finds the pool closing, one whose session is being opened gets the client only to send it
off, and none sleeps.  Nobody has to wait for anything but the answers to its own windows.

* `Point.TurnedAway`: where a caller stands who gets no client any more.
* `Machine.Reachable.rejected`: how every run goes on for such a caller.
-/

namespace SessionPool

/-! ## Where callers are turned away -/

/-- A caller that stands here gets no client of the pool.  `failed` says that the opening of its
session has failed. -/
inductive Point.TurnedAway (p : PoolKey) (failed : Prop) : Point → Prop where
  /-- It is about to find the pool closing. -/
  | looking {t : Patience} {leased : Bool} {s : AcquirePoint} (looks : s.looks = true) :
      TurnedAway p failed (.acquire p t leased s)
  /-- Its session is being opened. -/
  | opening {t : Patience} {leased : Bool} : TurnedAway p failed (.acquire p t leased .opening)
  /-- It has a client that comes too late. -/
  | arrived {t : Patience} {leased : Bool} {c : ClientKey} :
      TurnedAway p failed (.acquire p t leased (.arrived c))
  /-- It has got no session. -/
  | refused {t : Patience} {leased : Bool} {f : Fault} (kind : f.kind = .clientCreation)
      (why : failed) : TurnedAway p failed (.acquire p t leased (.refused f))
  /-- It is told so, as soon as it has sent off a client that came too late. -/
  | told {x : Point} {f : Fault} (concluding : x.Concluding (.error f))
      (kind : f.kind = .poolClosed ∨ f.kind = .clientCreation ∧ failed) : TurnedAway p failed x

namespace Point.TurnedAway

variable {p : PoolKey} {failed failed' : Prop} {x : Point}

theorem mono (h : x.TurnedAway p failed) (himp : failed → failed') : x.TurnedAway p failed' := by
  cases h with
  | looking looks => exact .looking looks
  | opening => exact .opening
  | arrived => exact .arrived
  | refused kind why => exact .refused kind (himp why)
  | told concluding kind => exact .told concluding (kind.imp_right fun h => ⟨h.1, himp h.2⟩)

/-- Whoever is turned away is awake. -/
theorem awake (h : x.TurnedAway p failed) : x.sleeps = false := by
  cases h with
  | @looking t leased s looks => cases s <;> first | rfl | cases looks
  | told concluding => exact concluding.awake
  | _ => rfl

end Point.TurnedAway

/-- A call that wants a client after a wake-up has wanted it before. -/
theorem Point.Wakes.of_acquire {x : Point} {p : PoolKey} {t : Patience} {leased : Bool}
    {s : AcquirePoint} (h : x.Wakes (.acquire p t leased s)) :
    ∃ s', x = .acquire p t leased s' ∧ (s' = s ∨ s = .woken) := by
  cases h with
  | refl => exact ⟨s, rfl, .inl rfl⟩
  | acquirer => exact ⟨.asleep, rfl, .inr rfl⟩

/-- A call that wants a client after a turn has wanted it before. -/
theorem Dealing.of_acquire {w : World} {p : PoolKey} {x : Point} {pool : Pool} {ss : List Signal}
    {t : Patience} {leased : Bool} {s : AcquirePoint}
    (h : Dealing w p x (.acquire p t leased s) pool ss) :
    (∃ s', x = .acquire p t leased s') ∧ ∀ f, s = .refused f → f.kind = .clientCreation := by
  cases h with
  | elsewhere hx hy => simp [Point.minds] at hy
  | stocked goesOn => rcases goesOn with ⟨_, _, h⟩ | ⟨_, h⟩ <;> cases h
  | missed kind => exact ⟨⟨_, rfl⟩, fun f hf => AcquirePoint.refused.inj hf ▸ kind⟩
  | _ => exact ⟨⟨_, rfl⟩, fun f hf => by cases hf⟩

section Callers

variable {w : World} {p : PoolKey} {t : Patience} {leased : Bool} {y : Point} {pool : Pool}
  {ss : List Signal}

/-- Whoever looks for a client of a pool that is closing is told so. -/
theorem Dealing.of_looking {s : AcquirePoint} (h : Dealing w p (.acquire p t leased s) y pool ss)
    (looks : s.looks = true) (hclosing : (w.pool p).closing = true) :
    y = .finished (.error (.poolClosed (w.pool p).address)) := by
  have hready : (w.pool p).isReady = true := by simp [Pool.isReady, hclosing]
  cases h with
  | elsewhere hx hy => simp [Point.minds] at hx
  | barred => rfl
  | taken o looks isOpen | reserved looks isOpen => simp [hclosing] at isOpen
  | slept nothing | dozed nothing | timedOut nothing => simp [hready] at nothing
  | enrolled o isOpen => simp [hclosing] at isOpen
  | expired | arrived | missed | dismissed | refused => cases looks

/-- A client that comes for a caller while the pool is closing is sent off. -/
theorem Dealing.of_arrived {c : ClientKey}
    (h : Dealing w p (.acquire p t leased (.arrived c)) y pool ss)
    (hclosing : (w.pool p).closing = true) :
    y = .farewell .disconnect false [c]
      (.destroy [c] (.error (.poolClosed (w.pool p).address))) := by
  cases h with
  | elsewhere hx hy => simp [Point.minds] at hx
  | enrolled o isOpen => simp [hclosing] at isOpen
  | dismissed => rfl
  | barred looks | taken o looks | reserved looks => cases looks

/-- A caller that has got no session is told so. -/
theorem Dealing.of_refused {f : Fault}
    (h : Dealing w p (.acquire p t leased (.refused f)) y pool ss) : y = .finished (.error f) := by
  cases h with
  | elsewhere hx hy => simp [Point.minds] at hx
  | refused => rfl
  | barred looks | taken o looks | reserved looks => cases looks

end Callers

/-- The event tells the call of this key that no session could be opened. -/
def Event.Refuses (k : CallKey) (e : Event) : Prop :=
  ∃ a : OpenAnswer, (∀ connected, a ≠ .session connected) ∧ e = .answer k (.opened a)

namespace Machine

variable {m n : Machine} {e : Event} {k : CallKey} {call call' : Call} {t : Turn} {p : PoolKey}
  {failed : Prop}

/-! ## Callers of every machine that can be reached -/

/-- A call that wants a client passes its result on to its caller, and has got no session only
because none could be opened. -/
def Plain (call : Call) : Prop :=
  ∀ p t leased s, call.point = .acquire p t leased s →
    call.sequel = .none ∧ ∀ f, s = .refused f → f.kind = .clientCreation

/-- Whoever begins by wanting a client is about to look for one. -/
theorem seeking_enter {w : World} {o : Operation} {u : Patience} {leased : Bool}
    {s : AcquirePoint} (h : (o.enter w).point = .acquire p u leased s) :
    (o.enter w).sequel = .none ∧ s = .seeking := by
  cases o with
  | acquire q u | lease q u =>
    cases h
    exact ⟨rfl, rfl⟩
  | construct connection limits factory dialect =>
    simp only [Operation.enter, Operation.make] at h
    repeat' split at h
    all_goals cases h
  | shareLease l | releaseLease l | assignLease target source | dropLease l =>
    simp only [Operation.enter, Operation.giveUp] at h
    repeat' split at h
    all_goals cases h
  | _ => cases h

theorem Plain.of_wakes (h : Plain call) (hw : call.point.Wakes call'.point)
    (hs : call'.sequel = call.sequel) : Plain call' := by
  intro p u leased s hpoint
  obtain ⟨s', hx, hstage⟩ := Point.Wakes.of_acquire (hpoint ▸ hw)
  obtain ⟨hnone, hkind⟩ := h p u leased s' hx
  refine ⟨hs.trans hnone, ?_⟩
  rcases hstage with rfl | rfl
  · exact hkind
  · exact fun f hf => by cases hf

/-- In every machine that can be reached callers are plain. -/
theorem Reachable.plain (hm : m.Reachable) : ∀ call ∈ m.calls, Plain call := by
  suffices h : m.Reachable ∧ ∀ call ∈ m.calls, Plain call from h.2
  refine hm.induct (P := fun m => m.Reachable ∧ ∀ call ∈ m.calls, Plain call)
    ⟨reachable_empty, fun _ hk => absurd hk List.not_mem_nil⟩ ?_
  rintro m n e ⟨hm, ih⟩ hn
  have hm' : n.Reachable := hm.perform hn
  refine ⟨hm', fun call' hk' => ?_⟩
  obtain ⟨j, hj'⟩ := List.mem_iff_getElem?.mp hk'
  rcases (happens hn).exists_call_before hj' with ⟨call, hj⟩ | ⟨o, -, -, hpoint, hsequel⟩ |
    ⟨b, hb, -⟩
  · obtain ⟨call'', hj'', h⟩ := (happens hn).exists_call hj
    obtain rfl := Option.some.inj (hj'.symm.trans hj'')
    have hplain : Plain call := ih call (List.mem_of_getElem? hj)
    rcases h with ⟨hw, hs⟩ | ⟨t, takes, hworld, hw, hs⟩
    · exact hplain.of_wakes hw hs
    · intro p u leased s hpoint
      -- The pool is there, because the call has business with it after the turn.
      have hp : p < m.world.pools.length := by
        have hhere : n.hasPool p = true := hm'.sound.used call' hk' p (by rw [hpoint]; rfl)
        obtain ⟨rest, hpass⟩ := hm.sound.passes hj takes
        rw [← hpass.pools, ← hworld]
        exact (hasPool_iff.mp hhere).1
      have hdealing := takes.dealing hm.sound hj hp
      obtain ⟨s', hx, hstage⟩ := Point.Wakes.of_acquire (hpoint ▸ hw)
      rw [hx] at hdealing
      obtain ⟨⟨s₀, hx₀⟩, hkind⟩ := hdealing.of_acquire
      have hnone : call.sequel = .none := (hplain p u leased s₀ hx₀).1
      refine ⟨?_, ?_⟩
      · exact eq_none_of_sequel hs hnone (by simp [hx₀])
      · rcases hstage with rfl | rfl
        · exact hkind
        · exact fun f hf => by cases hf
  · intro p u leased s hx
    rw [hpoint] at hx
    obtain ⟨hs, rfl⟩ := seeking_enter hx
    exact ⟨hsequel.trans hs, fun f hf => by cases hf⟩
  · intro p u leased s hx
    rw [hb] at hx
    cases hx

/-- A caller who wants a client of a pool that is closing is turned away. -/
theorem Reachable.turnedAway (hm : m.Reachable) (hclosing : (m.world.pool p).closing = true)
    (hk : call ∈ m.calls) {u : Patience} {leased : Bool} {s : AcquirePoint}
    (hx : call.point = .acquire p u leased s) :
    call.point.TurnedAway p (∃ f, s = .refused f) ∧ call.sequel = .none := by
  obtain ⟨hnone, hkind⟩ := hm.plain call hk p u leased s hx
  refine ⟨?_, hnone⟩
  rw [hx]
  cases s with
  | opening => exact .opening
  | arrived c => exact .arrived
  | refused f => exact .refused (hkind f rfl) ⟨f, rfl⟩
  | asleep =>
    -- Nobody sleeps for a client of a pool that is closing.
    have hpos : 0 < m.asleep p :=
      List.countP_pos_iff.mpr ⟨call, hk, by simp [hx, Point.asleepFor]⟩
    exact absurd ((hm.wakeful p).pending hpos).1 (by simp [hclosing])
  | _ => exact .looking rfl

/-! ## How it goes on -/

/-- The answer to the wish of a caller for a session. -/
theorem Takes.of_opening {u : Patience} {leased : Bool} (h : m.Takes k call e t)
    (hx : call.point = .acquire p u leased .opening) :
    ∃ a, e = .answer k (.opened a) ∧ t = Acquire.answered m.world p u leased a := by
  obtain ⟨x, sequel, notices⟩ := call
  simp only at hx
  subst hx
  cases h with
  | step ht => cases ht
  | overlooked ht hpoint => cases hpoint
  | opened a hpoint =>
    cases hpoint
    exact ⟨a, rfl, rfl⟩
  | stocked a hpoint | pinged a hpoint | replied a hpoint | parted a hpoint => cases hpoint
  | expired hpoint limited => cases hpoint
  | beat hpoint wanted => cases hpoint

/-- A caller that is turned away goes on being turned away, and has fewer turns to go. -/
theorem Takes.turnedAway (takes : m.Takes k call e t) (hm : m.Sound) (hk : m.call? k = some call)
    (hclosing : (m.world.pool p).closing = true) (hx : call.point.TurnedAway p failed)
    (hs : call.sequel = .none) :
    t.point.TurnedAway p (failed ∨ e.Refuses k) ∧ t.point.toGo < call.point.toGo := by
  have hdealing := takes.dealing hm hk (lt_length_of_closing hclosing)
  generalize hpoint : call.point = x at hx hdealing
  cases hx with
  | @looking u leased s looks =>
    rw [hdealing.of_looking looks hclosing]
    refine ⟨.told .ended (.inl rfl), ?_⟩
    cases s <;> first | exact Nat.zero_lt_one | cases looks
  | opening =>
    obtain ⟨a, rfl, rfl⟩ := takes.of_opening hpoint
    cases a with
    | session connected => exact ⟨.arrived, Nat.lt_succ_self 7⟩
    | nothing =>
      exact ⟨.refused rfl (.inr ⟨.nothing, by simp, rfl⟩), Nat.one_lt_succ_succ 6⟩
    | failed reason =>
      exact ⟨.refused rfl (.inr ⟨.failed reason, by simp, rfl⟩), Nat.one_lt_succ_succ 6⟩
  | arrived =>
    rw [hdealing.of_arrived hclosing]
    exact ⟨.told .parting (.inl rfl), Nat.lt_succ_self 6⟩
  | refused kind why =>
    rw [hdealing.of_refused]
    exact ⟨.told .ended (.inr ⟨kind, .inl why⟩), Nat.zero_lt_one⟩
  | told concluding kind =>
    obtain ⟨hconcluding, hless⟩ := takes.concluding (hpoint.symm ▸ concluding) hs
    exact ⟨.told hconcluding (kind.imp_right fun h => ⟨h.1, .inl h.2⟩), hpoint ▸ hless⟩

/-- A caller that is turned away and is not over can take its next turn, if only the outside
answers. -/
theorem exists_takes_turnedAway (hx : call.point.TurnedAway p failed)
    (hover : ∀ f, call.point ≠ .finished (.error f)) : ∃ e t, m.Takes k call e t := by
  obtain ⟨x, sequel, notices⟩ := call
  simp only at hx hover
  cases hx with
  | @looking u leased s looks =>
    cases s <;> first | exact ⟨.advance k 0, _, .step rfl⟩ | cases looks
  | opening => exact ⟨_, _, .opened .nothing rfl⟩
  | arrived | refused => exact ⟨.advance k 0, _, .step rfl⟩
  | told concluding => exact exists_takes_concluding concluding (hover _)

/-- A caller gets no client any more, `turns` turns after it has begun to be turned away.  `failed`
says that the opening of its session has failed. -/
structure Rejected (m : Machine) (k : CallKey) (failed : Prop) (turns : ℕ) : Prop where
  /-- It has not taken many turns. -/
  few : turns ≤ 8
  /-- If it is over, it has been told that the pool is closed, or that its session could not be
  opened. -/
  outcome : ∀ call o, m.call? k = some call → call.outcome? = some o →
    ∃ f, o = .error f ∧ (f.kind = .poolClosed ∨ f.kind = .clientCreation ∧ failed)
  /-- If it is not over, it can take another turn. -/
  goesOn : m.isOver k = false → m.world.crashed = false →
    ∃ e n, e.isTurnOf k = true ∧ m.perform e = some n

theorem rejected_of_turnedAway {turns : ℕ} (hk : m.call? k = some call)
    (hx : call.point.TurnedAway p failed) (hs : call.sequel = .none)
    (hturns : turns + call.point.toGo ≤ 8) : m.Rejected k failed turns where
  few := (Nat.le_add_right _ _).trans hturns
  outcome := by
    intro call' o hk' ho
    obtain rfl := Option.some.inj (hk.symm.trans hk')
    obtain ⟨x, sequel, notices⟩ := call
    simp only at hx hs
    subst hs
    cases hx with
    | told concluding kind =>
      cases concluding with
      | ended => exact ⟨_, (Option.some.inj ho).symm, kind⟩
      | _ => cases ho
    | _ => cases ho
  goesOn := by
    intro hover hcrashed
    obtain ⟨e, t, takes⟩ := exists_takes_turnedAway (m := m) (k := k) hx fun f hf => by
      obtain ⟨x, sequel, notices⟩ := call
      simp only at hf hs
      subst hf hs
      simp [isOver, hk, Call.isOver, Call.outcome?] at hover
    obtain ⟨n, call', hn, -⟩ := takes.exists_perform hk hcrashed
    exact ⟨e, n, takes.isTurnOf, hn⟩

/-- A caller who wants a client of a pool that is closing is rejected, however the run goes on. -/
theorem Reachable.rejected (hm : m.Reachable) (hclosing : (m.world.pool p).closing = true)
    (hk : m.call? k = some call) {u : Patience} {leased : Bool} {s : AcquirePoint}
    (hx : call.point = .acquire p u leased s) {es : List Event} (hn : m.run es = some n) :
    n.Rejected k ((∃ f, s = .refused f) ∨ ∃ e ∈ es, e.Refuses k)
      (es.countP (Event.isTurnOf k)) := by
  obtain ⟨haway, hs⟩ := hm.turnedAway hclosing (List.mem_of_getElem? hk) hx
  have hgo : call.point.toGo ≤ 8 := by
    rw [hx]
    cases s <;> simp [Point.toGo]
  let refused (fs : List Event) : Prop := (∃ f, s = .refused f) ∨ ∃ e ∈ fs, e.Refuses k
  have hmore : ∀ fs e, (refused fs ∨ Event.Refuses k e) → refused (fs ++ [e]) := by
    rintro fs e ((h | ⟨e', he', h⟩) | h)
    · exact .inl h
    · exact .inr ⟨e', List.mem_append_left _ he', h⟩
    · exact .inr ⟨e, by simp, h⟩
  have hcall : ∃ call', n.call? k = some call' ∧ call'.point.TurnedAway p (refused es) ∧
      call'.sequel = .none ∧
        es.countP (Event.isTurnOf k) + call'.point.toGo ≤ call.point.toGo := by
    refine exists_call_run (P := fun m => m.Reachable ∧ (m.world.pool p).closing = true)
      (Q := fun fs x => x.TurnedAway p (refused fs))
      (fun l n e hl hn => ⟨hl.1.perform hn, (hl.1.shrinks hn hl.2).1⟩) (fun _ _ h => h.awake)
      (fun fs e x h => h.mono fun hr => hmore fs e (.inl hr)) ?_ ⟨hm, hclosing⟩ hk
      (haway.mono .inl) hs hn
    intro l call fs e t hl hk hx hs takes
    obtain ⟨haway, hless⟩ := takes.turnedAway hl.1.sound hk hl.2 hx hs
    exact ⟨haway.mono (hmore fs e), hless⟩
  obtain ⟨call', hk', haway', hs', hturns⟩ := hcall
  exact rejected_of_turnedAway hk' haway' hs' (hturns.trans hgo)

end Machine
end SessionPool
