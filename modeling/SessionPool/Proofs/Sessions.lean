import SessionPool.Proofs.Delivery
import SessionPool.Proofs.Discharge
import SessionPool.Proofs.Sharing

/-!
# Sessions are owned once and disconnected once

A session that comes for a pool belongs to one client, which is numbered, and it is asked to
disconnect at most once in its life: when the client has left its pool for good.  Until then the
client is untouched (`Machine.Untouched`); from the turn on in which a call comes to disconnect it,
it is on its way out and nobody else asks it again, even if that has failed (`Machine.Ended`).  So
the number of times it has been asked is settled by that one turn: once if it was connected then,
and never if it was not (`Machine.ShutDown`).

States must not be overwritten, because a client that is to be destroyed is not disconnected again
exactly if its state says that this has been done.

* `Machine.untouched_or_ended`: every client of a pool is untouched, or its end has begun.
* `Machine.sessions_owned_once`: what this means for sessions.
-/

namespace SessionPool

/-! ## Calls that ask a client to disconnect -/

section Asking

variable {w : World} {p : PoolKey} {c d : ClientKey} {leased : Bool}

theorem Share.request_step : (Share.step w p d leased).point.request? ≠ some (.disconnect c) := by
  simp only [Share.step]
  repeat' split
  all_goals
    cases leased <;> simp [Turn.finish, Turn.lend, Turn.saying, World.handOver, Point.request?]

theorem Release.request_step : (Release.step w p d).point.request? ≠ some (.disconnect c) := by
  simp only [Release.step, Release.last, Release.keep]
  repeat' split
  all_goals simp [Turn.finish, Turn.saying, Point.request?]

theorem KeepAlive.request_step {s : KeepAlivePoint} {turn : Turn}
    (h : KeepAlive.step w p s = some turn) : turn.point.request? ≠ some (.disconnect c) := by
  cases s with
  | draining =>
    obtain rfl := Option.some.inj h
    simp only [drain]
    split <;> simp [Turn.finish, Point.request?]
  | pinging waiting pinged todo failure =>
    cases waiting <;> cases todo <;> simp only [step, Option.some.injEq, reduceCtorEq] at h
    all_goals
      obtain rfl := h
      simp [ping, restore, Point.request?]

/-- A dealing that is no affair of who sends clients off asks nobody to disconnect. -/
theorem Dealing.request {x y : Point} {pool : Pool} {ss : List Signal}
    (h : Dealing w p x y pool ss) (hx : x.minds p = true) :
    y.request? ≠ some (.disconnect c) := by
  cases h with
  | elsewhere hx' => exact absurd (hx.symm.trans hx') Bool.noConfusion
  | stocked goesOn =>
    rcases goesOn with ⟨left, s, rfl⟩ | ⟨o, rfl⟩
    · cases s <;> simp [Point.request?]
    · simp [Point.request?]
  | _ => simp [Point.request?]

end Asking

/-- Whoever asks a client to disconnect is sending it off. -/
theorem Point.mem_outgoing_of_request {x : Point} {c : ClientKey}
    (h : x.request? = some (.disconnect c)) :
    ∃ rite rest next, x = .farewell rite true (c :: rest) next := by
  unfold Point.request? at h
  split at h <;> cases h
  exact ⟨_, _, _, rfl⟩

theorem Point.Wakes.request_eq {x y : Point} (h : Wakes x y) : y.request? = x.request? := by
  cases h <;> rfl

/-- A call that comes to disconnect a client asks its session if this is connected, and else the
client is disconnected at once. -/
theorem Farewell.SendsOff.settles {w w' : World} {y : Point} {rest : List ClientKey}
    {next : Afterwards} (h : SendsOff w .disconnect next false (c :: rest) w' y)
    (hc : c < w.clients.length) (unasked : (w.client c).session.disconnects = 0) :
    (w'.client c).session.disconnects = (if (w.client c).session.connected then 1 else 0) ∧
      (y.request? = some (.disconnect c) ∨ (w'.client c).state = .disconnected) := by
  cases h with
  | skipped destroys => cases destroys
  | asked present connected =>
    refine ⟨?_, .inl rfl⟩
    rw [World.client_onClient _ hc, Client.asked, unasked, connected]
    rfl
  | unasked unconnected =>
    rw [World.client_onClient _ hc, unconnected]
    exact ⟨unasked, .inr rfl⟩

/-- No call begins in a window. -/
theorem Operation.request_enter (w : World) (o : Operation) :
    (o.enter w).point.request? = none := by
  cases o with
  | construct connection limits factory dialect =>
    simp only [enter, make]
    repeat' split
    all_goals rfl
  | shareLease l =>
    simp only [enter]
    split <;> rfl
  | releaseLease l | dropLease l =>
    simp only [enter, giveUp]
    split <;> rfl
  | assignLease target source =>
    simp only [enter, giveUp]
    repeat' split
    all_goals rfl
  | _ => rfl

namespace Machine

variable {m n : Machine} {e : Event} {k j : CallKey} {call : Call} {t : Turn} {p : PoolKey}
  {c : ClientKey} {es : List Event}

/-- A call that sends nobody off does not come to ask a client to disconnect. -/
theorem Takes.unasking (h : m.Takes k call e t) (hm : m.Sound) (hk : m.call? k = some call)
    (stays : ∀ rite waiting todo next, call.point ≠ .farewell rite waiting todo next) :
    t.point.request? ≠ some (.disconnect c) := by
  have hmem := List.mem_of_getElem? hk
  -- Whoever uses a pool or stocks it deals with its record, and the other calls are looked at.
  have hdeals : ∀ q, q < m.world.pools.length → call.point.minds q = true →
      t.point.request? ≠ some (.disconnect c) :=
    fun q hq hminds => (h.dealing hm hk hq).request hminds
  cases hx : call.point with
  | stock q left s =>
    exact hdeals q (hm.stocked call hmem q (by rw [hx]; rfl)) (by simp [hx, Point.minds])
  | acquire q u leased s =>
    exact hdeals q (hasPool_iff.1 (hm.used call hmem q (by rw [hx]; rfl))).1
      (by simp [hx, Point.minds])
  | close q s =>
    exact hdeals q (hasPool_iff.1 (hm.used call hmem q (by rw [hx]; rfl))).1
      (by simp [hx, Point.minds])
  | addReference q d leased =>
    obtain ⟨-, rfl⟩ := h.of_addReference hx
    exact Share.request_step
  | release q d leased =>
    obtain rfl := h.of_release hx
    exact Release.request_step
  | farewell rite waiting todo next => exact absurd hx (stays rite waiting todo next)
  | keepAlive q s =>
    cases h with
    | step h =>
      simp only [turn, hx] at h
      exact KeepAlive.request_step h
    | pinged a hpoint =>
      simp only [KeepAlive.answered]
      split <;> simp only [Point.request?, ne_eq, reduceCtorEq, not_false_eq_true]
    | _ => simp_all
  | exchange d command ping waiting =>
    cases h with
    | step h =>
      cases waiting <;> simp only [turn, hx, Option.some.injEq, reduceCtorEq] at h
      obtain rfl := h
      simp [Exchange.step, Point.request?]
    | replied a hpoint => simp [Exchange.answered, Point.request?]
    | _ => simp_all
  | heartbeat b s =>
    cases h with
    | step h =>
      simp only [turn, hx] at h
      intro hasks
      obtain ⟨rite, rest, next, hy⟩ := Point.mem_outgoing_of_request hasks
      have hnone := Heartbeat.outgoing_step h
      rw [hy] at hnone
      cases hnone
    | beat hpoint wanted => simp [Turn.goto, Point.request?]
    | _ => simp_all
  | finished o =>
    cases h with
    | step h =>
      simp only [turn, hx] at h
      intro hasks
      obtain ⟨rite, rest, next, hy⟩ := Point.mem_outgoing_of_request hasks
      have hnone := outgoing_conclude h
      rw [hy] at hnone
      cases hnone
    | _ => simp_all

/-- A call comes to ask a client to disconnect when the client is the next one that it sends off. -/
theorem Takes.asks (h : m.Takes k call e t) (hm : m.Sound) (hk : m.call? k = some call)
    (hx : t.point.request? = some (.disconnect c)) :
    (∃ rite rest next, call.point = .farewell rite false (c :: rest) next) ∧
      t.world = m.world.onClient c Client.asked := by
  by_cases hpoint : ∃ rite waiting todo next, call.point = .farewell rite waiting todo next
  · obtain ⟨rite, waiting, todo, next, hpoint⟩ := hpoint
    have hsends := h.sendsOff hpoint
    rw [hpoint]
    generalize t.world = w, t.point = y at hsends hx
    cases hsends with
    | done => cases next <;> cases hx
    | skipped | unasked | answered => cases hx
    | asked present connected =>
      cases hx
      exact ⟨⟨_, _, _, rfl⟩, rfl⟩
  · exact absurd hx (h.unasking hm hk fun rite waiting todo next hpoint' =>
      hpoint ⟨rite, waiting, todo, next, hpoint'⟩)

/-! ## Clients before their end and after it has begun -/

/-- A call has asked the client to disconnect and waits for the answer. -/
def Asks (m : Machine) (c : ClientKey) : Prop :=
  ∃ k call, m.call? k = some call ∧ call.point.request? = some (.disconnect c)

theorem Asks.mem_outgoing (h : m.Asks c) : ∃ call ∈ m.calls, c ∈ call.point.outgoing := by
  obtain ⟨k, call, hk, hx⟩ := h
  obtain ⟨rite, rest, next, hx⟩ := Point.mem_outgoing_of_request hx
  refine ⟨call, List.mem_of_getElem? hk, ?_⟩
  rw [hx]
  exact List.mem_cons_self

/-- A call that waits for the answer of a client has waited before, or has just asked it. -/
theorem Reachable.asks_before (hm : m.Reachable) (hn : m.perform e = some n) (h : n.Asks c) :
    c < m.world.clients.length ∧ (m.Asks c ∨
      (n.world.client c).session.disconnects = (m.world.client c).session.disconnects + 1) := by
  obtain ⟨j, call', hj', hx'⟩ := h
  have hlt : ∀ {call : Call}, call ∈ m.calls → c ∈ call.point.outgoing →
      c < m.world.clients.length := fun hk hc => (hm.unseated_of_outgoing _ hk c hc).1
  rcases (happens hn).exists_call_before hj' with ⟨call, hj⟩ | ⟨o, rfl, permits, hpoint, -⟩ |
    ⟨b, hpoint, -⟩
  · obtain ⟨call'', hj'', hcase⟩ := (happens hn).exists_call hj
    obtain rfl := Option.some.inj (hj'.symm.trans hj'')
    rcases hcase with ⟨hw, -⟩ | ⟨t, takes, hworld, hw, -⟩
    · have hx : call.point.request? = some (.disconnect c) := by rwa [hw.request_eq] at hx'
      have hasks : m.Asks c := ⟨j, call, hj, hx⟩
      obtain ⟨_, hk, hc⟩ := hasks.mem_outgoing
      exact ⟨hlt hk hc, .inl hasks⟩
    · rw [hw.request_eq] at hx'
      obtain ⟨⟨rite, rest, next, hx⟩, hasked⟩ := takes.asks hm.sound hj hx'
      have hc := hlt (List.mem_of_getElem? hj) (by rw [hx]; exact List.mem_cons_self)
      refine ⟨hc, .inr ?_⟩
      rw [hworld, hasked, World.client_onClient _ hc]
      rfl
  · rw [hpoint, Operation.request_enter] at hx'
    cases hx'
  · rw [hpoint] at hx'
    cases hx'

/-- Nobody has come to disconnect a client yet. -/
structure Untouched (m : Machine) (c : ClientKey) : Prop where
  unasked : (m.world.client c).session.disconnects = 0
  unasking : ¬ m.Asks c
  alive : (m.world.client c).state ≠ .disconnected
  present : (m.world.client c).destroyed = false

/-- In one turn of this run, a call came to disconnect the client.  Its session is asked if it is
connected then, and that is the only time. -/
def ShutDown (es : List Event) (m : Machine) (c : ClientKey) : Prop :=
  ∃ us e vs l k call rest next, es = us ++ e :: vs ∧ run {} us = some l ∧
    l.call? k = some call ∧ e.isTurnOf k = true ∧
    call.point = .farewell .disconnect false (c :: rest) next ∧
    (m.world.client c).session.disconnects = if (l.world.client c).session.connected then 1 else 0

/-- A call has come to disconnect the client, and is at it or has done so. -/
structure Ended (es : List Event) (m : Machine) (c : ClientKey) : Prop where
  shutDown : ShutDown es m c
  underWay : m.Asks c ∨ (m.world.client c).state = .disconnected

/-- What has happened in a run has happened in a longer one. -/
theorem ShutDown.snoc (h : ShutDown es m c)
    (hsame : (n.world.client c).session.disconnects = (m.world.client c).session.disconnects) :
    ShutDown (es ++ [e]) n c := by
  obtain ⟨us, e', vs, l, k, call, rest, next, rfl, hus, hk, he, hx, hcount⟩ := h
  exact ⟨us, e', vs ++ [e], l, k, call, rest, next, by simp, hus, hk, he, hx, hsame.trans hcount⟩

/-- A client whose end has begun has no slot. -/
theorem ReachableWithout.unseated_of_underWay (hm : m.ReachableWithout Mishap.isTampering)
    (h : m.Asks c ∨ (m.world.client c).state = .disconnected) : m.Unseated c := by
  rcases h with hasks | hgone
  · obtain ⟨call, hk, hc⟩ := hasks.mem_outgoing
    exact (hm.reachable.unseated_of_outgoing call hk c hc).2
  · intro q hseated
    refine hm.alive_of_attended (p := q) ?_ hgone
    exact Multiset.mem_add.mpr (.inl (Multiset.mem_add.mpr (.inl hseated)))

/-- A run in which no state is overwritten. -/
theorem reachableWithout_of_run (hes : run {} es = some m)
    (untampered : ∀ c s, .setState c s ∉ es) : m.ReachableWithout Mishap.isTampering :=
  reachableWithout_empty.untampered_run untampered hes

/-- A client that is untouched stays so, or its end begins. -/
theorem Untouched.perform (h : m.Untouched c) (hm : m.ReachableWithout Mishap.isTampering)
    (hes : run {} es = some m) (hn : m.perform e = some n) (hown : c ∈ m.world.own p)
    (he : ∀ s, e ≠ .setState c s) : n.Untouched c ∨ Ended (es ++ [e]) n c := by
  have hlt : c < m.world.clients.length := (World.mem_own.mp hown).1
  rcases of_head_perform hlt hn he with ⟨hsame, halive⟩ |
    ⟨k, call, t, rite, waiting, rest, next, hk, takes, hx, pick, s, happly⟩
  · have hkept : (n.world.client c).destroyed = (m.world.client c).destroyed :=
      (destroyed_perform hlt hn).resolve_right fun hgone => h.alive (halive hgone.2.2)
    refine .inl ⟨hsame.trans h.unasked, fun hasks => ?_, fun hgone => h.alive (halive hgone),
      hkept.trans h.present⟩
    rcases (hm.reachable.asks_before hn hasks).2 with hbefore | hasked
    · exact h.unasking hbefore
    · omega
  · refine .inr ?_
    have hparting : c ∈ call.point.parting := by
      refine (hm.handles call (List.mem_of_getElem? hk) c ?_ p hown).resolve_right
        fun hhandles => h.alive hhandles.2
      rw [hx]
      exact List.mem_cons_self
    have hwaiting : waiting = false := by
      by_contra hw
      rw [Bool.not_eq_false] at hw
      exact h.unasking ⟨k, call, hk, by rw [hx, hw]; rfl⟩
    subst hwaiting
    cases rite with
    | destroy =>
      rw [hx] at hparting
      cases hparting
    | disconnect =>
      obtain ⟨hcount, hends⟩ := (takes.sendsOff hx).settles hlt h.unasked
      have hworld : n.world = t.world := by rw [happly]; rfl
      obtain ⟨call', hk', hw, -⟩ := exists_call_apply k t s pick hk
      rw [← happly] at hk'
      rw [if_pos rfl] at hw
      rw [← hworld] at hcount hends
      exact
        { shutDown :=
            ⟨es, e, [], m, k, call, rest, next, rfl, hes, hk, takes.isTurnOf, hx, hcount⟩
          underWay := hends.imp_left fun hasks => ⟨k, call', hk', hw.request_eq.trans hasks⟩ }

/-- The end of a client goes on. -/
theorem ReachableWithout.underWay_perform (hm : m.ReachableWithout Mishap.isTampering)
    (h : m.Asks c ∨ (m.world.client c).state = .disconnected) (hn : m.perform e = some n)
    (hlt : c < m.world.clients.length) (he : ∀ s, e ≠ .setState c s) :
    n.Asks c ∨ (n.world.client c).state = .disconnected := by
  have hunseated : m.Unseated c := hm.unseated_of_underWay h
  rcases h with ⟨k, call, hk, hasks⟩ | hgone
  · obtain ⟨call', hk', hcase⟩ := (happens hn).exists_call hk
    rcases hcase with ⟨hw, -⟩ | ⟨t, takes, hworld, -⟩
    · exact .inl ⟨k, call', hk', by rw [hw.request_eq, hasks]⟩
    · refine .inr ?_
      obtain ⟨rite, rest, next, hx⟩ := Point.mem_outgoing_of_request hasks
      have hsends := takes.sendsOff hx
      rw [hworld]
      generalize t.world = w, t.point = y at hsends
      cases hsends with
      | answered connected =>
        rw [World.client_onClient _ hlt]
        cases rite <;> rfl
  · exact .inr (hunseated.disconnected_perform hm.reachable.sound hlt hgone hn he)

/-- When a call comes to ask a client to disconnect, the end of the client has not begun: another
call would be at it as well, or the client would be disconnected already. -/
theorem ReachableWithout.not_underWay (hm : m.ReachableWithout Mishap.isTampering)
    (hown : c ∈ m.world.own p) (hk : m.call? k = some call) {rite : Rite} {rest : List ClientKey}
    {next : Afterwards} (hx : call.point = .farewell rite false (c :: rest) next)
    (present : rite = .destroy → (m.world.client c).state ≠ .disconnected) :
    ¬ (m.Asks c ∨ (m.world.client c).state = .disconnected) := by
  intro h
  have hhandles : ∀ {j : CallKey} {call : Call}, m.call? j = some call →
      c ∈ call.point.outgoing → call.point.Handles m.world c :=
    fun hj hc => hm.handles _ (List.mem_of_getElem? hj) c hc p hown
  have hparting : c ∈ call.point.parting := by
    rcases hhandles hk (by rw [hx]; exact List.mem_cons_self) with hparting | ⟨hdoomed, hgone⟩
    · exact hparting
    · rw [hx] at hdoomed ⊢
      cases rite with
      | destroy => exact absurd hgone (present rfl)
      | disconnect =>
        cases next with
        | finish o => cases hdoomed
        | destroy cs o | markClosed q cs => exact List.mem_cons_self
  have halive : (m.world.client c).state ≠ .disconnected :=
    hm.alive_of_attended (hm.reachable.mem_attended_of_parting hk hparting hown)
  obtain ⟨j, call', hj, hasks⟩ := h.resolve_right halive
  obtain ⟨rite', rest', next', hx'⟩ := Point.mem_outgoing_of_request hasks
  have hne : k ≠ j := by
    rintro rfl
    obtain rfl := Option.some.inj (hk.symm.trans hj)
    rw [hx] at hx'
    cases hx'
  refine hm.reachable.parting_unique hk hj hne hparting hown ?_
  exact (hhandles hj (by rw [hx']; exact List.mem_cons_self)).resolve_right
    fun hgone => halive hgone.2

/-- A client whose end has begun is not asked again. -/
theorem ReachableWithout.unasked_of_underWay (hm : m.ReachableWithout Mishap.isTampering)
    (h : m.Asks c ∨ (m.world.client c).state = .disconnected) (hn : m.perform e = some n)
    (hown : c ∈ m.world.own p) (he : ∀ s, e ≠ .setState c s) :
    (n.world.client c).session.disconnects = (m.world.client c).session.disconnects := by
  have hlt : c < m.world.clients.length := (World.mem_own.mp hown).1
  rcases of_head_perform hlt hn he with ⟨hsame, -⟩ |
    ⟨k, call, t, rite, waiting, rest, next, hk, takes, hx, pick, s, happly⟩
  · exact hsame
  · have hsends := takes.sendsOff hx
    have hworld : n.world = t.world := by rw [happly]; rfl
    rw [hworld]
    generalize t.world = w, t.point = y at hsends
    cases hsends with
    | skipped | unasked | answered =>
      rw [World.client_onClient _ hlt]
      cases rite <;> rfl
    | asked present connected => exact absurd h (hm.not_underWay hown hk hx present)

/-- Every client of a pool is untouched, or its end has begun. -/
theorem untouched_or_ended (hes : run {} es = some m) (untampered : ∀ c s, .setState c s ∉ es) :
    ∀ p, ∀ c ∈ m.world.own p, m.Untouched c ∨ Ended es m c := by
  refine history_induct (P := fun es m => (∀ c s, .setState c s ∉ es) →
    ∀ p, ∀ c ∈ m.world.own p, m.Untouched c ∨ Ended es m c) ?_ ?_ hes untampered
  · intro _ p c hc
    exact absurd hc (Finset.notMem_empty c)
  · intro es m e n hes ih hn huntampered p c hc
    have hbefore : ∀ c s, .setState c s ∉ es :=
      fun c s hset => huntampered c s (List.mem_append_left _ hset)
    have he : ∀ s, e ≠ .setState c s := by
      rintro s rfl
      exact huntampered c s (List.mem_append_right _ List.mem_cons_self)
    have hm : m.ReachableWithout Mishap.isTampering := reachableWithout_of_run hes hbefore
    by_cases hlt : c < m.world.clients.length
    · have hown : c ∈ m.world.own p := mem_own_before hn hlt hc
      rcases ih hbefore p c hown with huntouched | hended
      · exact huntouched.perform hm hes hn hown he
      · exact .inr
          { shutDown := hended.shutDown.snoc (hm.unasked_of_underWay hended.underWay hn hown he)
            underWay := hm.underWay_perform hended.underWay hn hlt he }
    · obtain ⟨id, home, connected, hclient⟩ :=
        made_perform hn (not_lt.mp hlt) (World.mem_own.mp hc).1
      have hunasking : ¬ n.Asks c := fun hasks => hlt (hm.reachable.asks_before hn hasks).1
      refine .inl ⟨?_, hunasking, ?_, ?_⟩
      all_goals simp [hclient]

/-! ## Sessions -/

/-- A client is lent to nobody, not idle, and not drained in order to be pinged. -/
structure Withdrawn (m : Machine) (c : ClientKey) : Prop where
  unreferenced : (m.world.client c).references = 0
  notMember : ∀ p, c ∉ (m.world.pool p).members
  notIdle : ∀ p, c ∉ (m.world.pool p).idle
  notDrained : ∀ p k, c ∉ m.drainedBy p k

theorem Unseated.withdrawn (h : m.Unseated c) (hm : m.Reachable) (hown : c ∈ m.world.own p) :
    m.Withdrawn c where
  unreferenced := by
    by_contra hrefs
    exact h.notMem_members p (hm.releasable hown hrefs).1
  notMember := h.notMem_members
  notIdle q hidle := h.notMem_members q (hm.sound.of_mem_idle hidle).1
  notDrained q _ hdrained := h.notMem_members q (hm.sound.of_mem_drainedBy hdrained).1

/-- What becomes in a run of the sessions that come for a pool. -/
structure SessionsOwnedOnce (es : List Event) (m : Machine) (p : PoolKey) : Prop where
  /-- A session that comes is wrapped in a new client. -/
  wrapped : ∀ us e vs l l' connected, es = us ++ e :: vs → run {} us = some l →
    l.Arrives e p connected → l.perform e = some l' →
      l'.world.clients = l.world.clients ++ [l.newcomer p connected]
  /-- The clients of the pool are those that were made of sessions that came, in this order. -/
  roster : m.world.roster p = deliveries p {} es
  /-- They are numbered in this order. -/
  numbered : ∀ i c, (m.world.roster p)[i]? = some c → (m.world.client c).id = clientName i
  /-- Their names are different, as long as numbers do not run out. -/
  distinct : (m.world.roster p).length < 2 ^ 64 →
    ((m.world.roster p).map fun c => (m.world.client c).id).Nodup
  /-- Their sessions are asked to disconnect at most once. -/
  once : ∀ c ∈ m.world.roster p, (m.world.client c).session.disconnects ≤ 1
  /-- Nobody has anything to do with a client any more whose session has been asked. -/
  withdrawn : ∀ c ∈ m.world.roster p, (m.world.client c).session.disconnects ≠ 0 →
    m.Withdrawn c
  /-- Whoever is destroyed has been shut down before. -/
  destroyed : ∀ c ∈ m.world.roster p, (m.world.client c).destroyed = true → ShutDown es m c
  /-- A session that has been asked is not pinged. -/
  unpinged : ∀ k call q s c command, m.call? k = some call → call.point = .keepAlive q s →
    call.point.request? = some (.send c command) → c ∈ m.world.roster p →
      (m.world.client c).session.disconnects = 0

theorem ShutDown.disconnects_le (h : ShutDown es m c) :
    (m.world.client c).session.disconnects ≤ 1 := by
  obtain ⟨_, _, _, l, _, _, _, _, _, _, _, _, _, hcount⟩ := h
  rw [hcount]
  split <;> decide

/-- The names of the clients of a pool are different, as long as numbers do not run out. -/
theorem Reachable.nodup_names (hm : m.Reachable) (hlength : (m.world.roster p).length < 2 ^ 64) :
    ((m.world.roster p).map fun c => (m.world.client c).id).Nodup := by
  rw [List.nodup_iff_injective_getElem]
  rintro ⟨i, hi⟩ ⟨j, hj⟩ h
  rw [List.length_map] at hi hj
  simp only [List.getElem_map] at h
  rw [hm.id_of_roster p i _ (List.getElem?_eq_getElem hi),
    hm.id_of_roster p j _ (List.getElem?_eq_getElem hj)] at h
  exact Fin.ext (clientName_inj (i := i) (j := j) (by omega) (by omega) h)

/-- As long as no state is overwritten, every session that comes for a pool is owned once and
disconnected at most once. -/
theorem sessions_owned_once (hes : run {} es = some m) (untampered : ∀ c s, .setState c s ∉ es)
    (p : PoolKey) : SessionsOwnedOnce es m p := by
  have hm : m.ReachableWithout Mishap.isTampering := reachableWithout_of_run hes untampered
  have hreach : m.Reachable := ⟨es, hes⟩
  have hends : ∀ c ∈ m.world.roster p, m.Untouched c ∨ Ended es m c :=
    fun c hc => untouched_or_ended hes untampered p c (World.mem_roster.mp hc)
  have hwithdrawn : ∀ c ∈ m.world.roster p, (m.world.client c).session.disconnects ≠ 0 →
      m.Withdrawn c := by
    intro c hc hasked
    have hended : Ended es m c := (hends c hc).resolve_left fun h => hasked h.unasked
    exact (hm.unseated_of_underWay hended.underWay).withdrawn hreach (World.mem_roster.mp hc)
  refine
    { wrapped := fun _ _ _ _ _ _ _ _ arrives hl => arrives.clients hl
      roster := (roster_run hes p).trans (List.nil_append _)
      numbered := hreach.id_of_roster p
      distinct := hreach.nodup_names
      once := fun c hc => ?_
      withdrawn := hwithdrawn
      destroyed := fun c hc hgone => ?_
      unpinged := fun k call q s c command hk hx hsend hc => ?_ }
  · rcases hends c hc with huntouched | hended
    · exact huntouched.unasked.trans_le (Nat.zero_le 1)
    · exact hended.shutDown.disconnects_le
  · refine ((hends c hc).resolve_left fun huntouched => ?_).shutDown
    exact Bool.false_ne_true (huntouched.present.symm.trans hgone)
  · by_contra hasked
    refine (hwithdrawn c hc hasked).notDrained q k ?_
    rw [drainedBy_eq hk]
    rw [hx] at hsend ⊢
    exact KeepAlive.mem_drained_of_request hsend

/-- A run in which no session comes for the first caller.  The second one gets a client that breaks
and is destroyed after its disconnection has failed, and the third one gets another. -/
def brokenAndReplaced : List Event :=
  [.begin (.construct {} { maxClients := 2 } true .standard), .advance 0 0,
    .begin (.acquire 0 0), .advance 1 0, .answer 1 (.opened .nothing), .advance 1 0,
    .begin (.acquire 0 0), .advance 2 0, .answer 2 (.opened (.session true)), .advance 2 0,
    .breakDown 0, .begin (.release 0 0), .advance 3 0, .advance 3 0,
    .answer 3 (.disconnected (.failed [])), .advance 3 0, .advance 3 0,
    .begin (.acquire 0 0), .advance 4 0, .answer 4 (.opened (.session false)), .advance 4 0]

/-- The session of the one was asked once, and that of the other was not. -/
theorem sessions_owned_once_brokenAndReplaced : ∃ m : Machine,
    run {} brokenAndReplaced = some m ∧ (∀ c s, .setState c s ∉ brokenAndReplaced) ∧
      SessionsOwnedOnce brokenAndReplaced m 0 ∧ m.world.roster 0 = [0, 1] ∧
        (m.world.client 1).id = clientName 1 ∧ ShutDown brokenAndReplaced m 0 ∧
          (m.world.client 0).session.disconnects = 1 ∧
            (m.world.client 1).session.disconnects = 0 := by
  obtain ⟨m, hm, hroster, hgone, h0, h1⟩ : ∃ m, run {} brokenAndReplaced = some m ∧
      m.world.roster 0 = [0, 1] ∧ (m.world.client 0).destroyed = true ∧
        (m.world.client 0).session.disconnects = 1 ∧
          (m.world.client 1).session.disconnects = 0 :=
    ⟨_, rfl, rfl, rfl, rfl, rfl⟩
  have huntampered : ∀ c s, .setState c s ∉ brokenAndReplaced := by simp [brokenAndReplaced]
  have howned : SessionsOwnedOnce brokenAndReplaced m 0 := sessions_owned_once hm huntampered 0
  exact ⟨m, hm, huntampered, howned, hroster, howned.numbered 1 1 (by rw [hroster]; rfl),
    howned.destroyed 0 (by simp [hroster]) hgone, h0, h1⟩

end Machine
end SessionPool
