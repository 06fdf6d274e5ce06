import SessionPool.Proofs.Discharge
import SessionPool.Proofs.Loans

/-!
# States and places

The state of a client says where it is in its pool, as long as nobody overwrites it and faults are
reported only by those who have the client.  Idle clients are idle, borrowed ones are busy or
broken, and clients that are pinged are idle or broken.

Most of this is a matter of the books: every entry that gives a client a place gives it a state that
goes with it, and whatever else happens to a client can only break it or end its life
(`Books.Staged`).  Two things are not.  A client whose life has ended has no place, because it was
taken out before it was sent off (`Machine.ReachableWithout.alive_of_attended`).  And a client in
the queue is whole, because a fault is reported of one that somebody has, or in answer to a ping,
for which it was taken out of the queue (`Machine.Mindful.whole`).

* `Machine.Mindful`: what can be reached if faults are reported only by those who have a client.
* `Machine.Mindful.placed`: the states of all members of a pool.
-/

namespace SessionPool

/-! ## Faults -/

/-- The answer to a command is a fault.  A ping takes for one every reply that is no success. -/
def SendAnswer.isFault (ping : Bool) : SendAnswer → Bool
  | .reply r => r.announcesClosing || ping && !r.isPositiveCompletion
  | .lost _ => true
  | .failed _ => false

section Faults

variable {w : World} {c : ClientKey}

theorem World.breakDown_twice (w : World) (c : ClientKey) :
    (w.onClient c Client.breakDown).onClient c Client.breakDown =
      w.onClient c Client.breakDown := by
  rw [World.onClient_onClient]
  exact World.onClient_congr (Client.breakDown_breakDown _)

/-- A fault breaks the client, and nothing else does. -/
theorem World.received_world (command : Text) (a : SendAnswer) :
    (w.received c command a).world =
      if a.isFault false then w.onClient c Client.breakDown else w := by
  cases a with
  | reply r =>
    cases hr : r.announcesClosing <;> simp [World.received, SendAnswer.isFault, hr]
  | lost reason | failed reason => rfl

theorem World.pinged_world (a : SendAnswer) :
    (w.pinged c a).world = if a.isFault true then w.onClient c Client.breakDown else w := by
  cases a with
  | reply r =>
    cases hr : r.announcesClosing <;> cases hs : r.isPositiveCompletion <;>
      simp [World.pinged, World.received, SendAnswer.isFault, hr, hs, World.breakDown_twice]
  | lost reason | failed reason => rfl

theorem Exchange.world_answered {command : Text} {ping : Bool} (a : SendAnswer) :
    (Exchange.answered w c command ping a).world =
      if a.isFault ping then w.onClient c Client.breakDown else w := by
  cases ping with
  | true => exact World.pinged_world a
  | false => exact World.received_world command a

end Faults

namespace Machine

variable {m n : Machine} {e : Event} {k : CallKey} {call : Call} {t : Turn} {p : PoolKey}
  {c : ClientKey}

/-- The client of which a fault is reported in this event, by somebody who noticed or in answer to a
command that was run on it, if the fault is not overlooked.  The pings of a pool are no affair of
anybody else. -/
def reports? (m : Machine) : Event → Option ClientKey
  | .breakDown c => some c
  | .answer k (.sent a) =>
    match (m.call? k).map Call.point with
    | some (.exchange c _ ping true) => if a.isFault ping then some c else none
    | _ => none
  | _ => none

/-- No state is overwritten in this event, and if a fault of a client of a pool is reported,
somebody has a reference to it.  When a fault is overlooked the last reference is back already. -/
def isMindful (m : Machine) : Event → Bool
  | .setState _ _ | .overlook _ _ => false
  | e => (m.reports? e).all fun c =>
    (m.world.client c).home.isNone || (m.world.client c).references != 0

/-- Carries out an event, if it can happen and is mindful. -/
def performMindfully (m : Machine) (e : Event) : Option Machine :=
  if m.isMindful e then m.perform e else none

/-- A machine that some mindful events lead to. -/
def Mindful (m : Machine) : Prop :=
  ∃ es : List Event, es.foldlM performMindfully {} = some m

theorem performMindfully_eq_some_iff :
    m.performMindfully e = some n ↔ m.isMindful e = true ∧ m.perform e = some n := by
  unfold performMindfully
  split <;> simp_all

/-- What holds of the empty machine and is kept by every mindful event holds of every machine that
such events lead to. -/
theorem Mindful.induct {P : Machine → Prop} (empty : P {})
    (keeps : ∀ m n e, m.Mindful → P m → m.isMindful e = true → m.perform e = some n → P n)
    (hm : m.Mindful) : P m := by
  obtain ⟨es, hes⟩ := hm
  induction es using List.reverseRecOn generalizing m with
  | nil =>
    rw [List.foldlM_nil, Option.pure_def, Option.some.injEq] at hes
    exact hes ▸ empty
  | append_singleton es e ih =>
    rw [List.foldlM_append, Option.bind_eq_bind, Option.bind_eq_some_iff] at hes
    obtain ⟨l, hl, hn⟩ := hes
    rw [List.foldlM_cons, Option.bind_eq_bind, Option.bind_eq_some_iff] at hn
    obtain ⟨n, hn, hm⟩ := hn
    rw [List.foldlM_nil, Option.pure_def, Option.some.injEq] at hm
    obtain ⟨hmindful, hn⟩ := performMindfully_eq_some_iff.mp hn
    exact hm ▸ keeps l n e ⟨es, hl⟩ (ih hl) hmindful hn

theorem Mindful.perform (hm : m.Mindful) (hn : m.performMindfully e = some n) : n.Mindful := by
  obtain ⟨es, hes⟩ := hm
  refine ⟨es ++ [e], ?_⟩
  rw [List.foldlM_append, hes]
  simpa using hn

theorem not_tampering (h : m.isMindful e = true) (s : Lifecycle) : e ≠ .setState c s := by
  rintro rfl
  cases h

theorem Mindful.withoutTampering (hm : m.Mindful) : m.ReachableWithout Mishap.isTampering := by
  refine hm.induct (P := fun m => m.ReachableWithout Mishap.isTampering) reachableWithout_empty ?_
  rintro m n e - ih hmindful hn
  exact ih.untampered (fun c => not_tampering hmindful) hn

theorem Mindful.reachable (hm : m.Mindful) : m.Reachable := hm.withoutTampering.reachable

/-- A fault that is reported breaks its client. -/
theorem client_of_reports (hc : c < m.world.clients.length) (hn : m.perform e = some n)
    (h : m.reports? e = some c) : n.world.client c = (m.world.client c).breakDown := by
  cases happens hn with
  | turn pick s hk takes sequel =>
    show _ = _
    cases takes with
    | @replied d command ping a hpoint =>
      simp only [reports?, hk, Option.map_some, hpoint] at h
      split at h
      · next hfault =>
        obtain rfl := Option.some.inj h
        show (Exchange.answered m.world d command ping a).world.client d = _
        rw [Exchange.world_answered, if_pos hfault]
        exact World.client_onClient m.world hc _
      · cases h
    | pinged a hpoint => simp [reports?, hk, hpoint] at h
    | _ => cases h
  | enter permits => cases h
  | aside befalls =>
    cases befalls with
    | breakDown =>
      obtain rfl := Option.some.inj h
      exact World.client_onClient m.world hc _
    | _ => cases h

/-- A call that has asked a client for an answer has no step to take. -/
theorem turn_of_send {w : World} {fresh : CallKey} {ended : CallKey → Bool} {command : Text}
    (hx : call.point.request? = some (.send c command)) : turn w fresh ended call = none := by
  obtain ⟨x, sequel, notices⟩ := call
  cases x with
  | keepAlive p s =>
    cases s with
    | draining => cases hx
    | pinging waiting pinged todo failure =>
      cases waiting <;> cases todo <;> cases hx
      rfl
  | exchange d command' ping waiting =>
    cases waiting <;> cases hx
    rfl
  | stock p left s | acquire p t leased s => cases s <;> cases hx
  | farewell rite waiting todo next => cases waiting <;> cases todo <;> cases hx
  | _ => cases hx

/-- In a turn a client turns out to be broken because a fault of it is reported, or because it is
pinged. -/
theorem Takes.of_broken (takes : m.Takes k call e t) (hk : m.call? k = some call)
    (hc : c < m.world.clients.length) (hs : (m.world.client c).state ≠ .broken)
    (hbroken : (t.world.client c).state = .broken) : m.reports? e = some c ∨
      ∃ p, c ∈ call.point.drained p ∧ c ∈ t.point.drained p := by
  obtain ⟨command, hasked⟩ : ∃ command, call.point.request? = some (.send c command) := by
    have htreatment := takes.treatment hc
    generalize t.world.client c = client at htreatment hbroken
    cases htreatment with
    | broken asked => exact asked
    | lent | enrolled | stocked | returned => cases hbroken
    | departed rite => cases rite <;> cases hbroken
    | _ => exact absurd hbroken hs
  cases takes with
  | step ht | overlooked ht =>
    rw [turn_of_send hasked] at ht
    cases ht
  | @pinged p pinged d rest failure a hpoint =>
    rw [hpoint] at hasked ⊢
    cases hasked
    refine .inr ⟨p, ?_, ?_⟩
    · simp [Point.drained, KeepAlivePoint.drained]
    · simp only [KeepAlive.answered]
      split <;> simp [Point.drained, KeepAlivePoint.drained]
  | @replied d command' ping a hpoint =>
    rw [hpoint] at hasked
    cases hasked
    refine .inl ?_
    rw [Exchange.world_answered] at hbroken
    split at hbroken
    · next hfault => simp [reports?, hk, hpoint, hfault]
    · exact absurd hbroken hs
  | stocked a hpoint | opened a hpoint | parted a hpoint =>
    rw [hpoint] at hasked
    cases hasked
  | expired hpoint limited | beat hpoint wanted =>
    rw [hpoint] at hasked
    cases hasked

/-- A client breaks in an event because a fault of it is reported, or because it is pinged, or
because its state is overwritten. -/
theorem of_broken_perform (hc : c < m.world.clients.length) (hn : m.perform e = some n)
    (hs : (m.world.client c).state ≠ .broken) (hbroken : (n.world.client c).state = .broken) :
    m.reports? e = some c ∨ (∃ s, e = .setState c s) ∨
      ∃ j p, c ∈ m.drainedBy p j ∧ c ∈ n.drainedBy p j := by
  cases happens hn with
  | @turn _ k call t pick s hk takes sequel =>
    rcases takes.of_broken hk hc hs hbroken with h | ⟨p, hdrained, hdrained'⟩
    · exact .inl h
    · obtain ⟨call', hk', hw, -⟩ := exists_call_apply k t s pick hk
      rw [if_pos rfl] at hw
      refine .inr (.inr ⟨k, p, ?_, ?_⟩)
      · rwa [drainedBy_eq hk]
      · rw [drainedBy_eq hk', hw.eq_of_awake]
        · exact hdrained'
        · generalize t.point = y at hdrained'
          cases y with
          | keepAlive q s => rfl
          | _ => cases hdrained'
  | @enter o permits =>
    rw [client_begin] at hbroken
    exact absurd hbroken hs
  | @aside _ w befalls =>
    have hbroken' : (w.client c).state = .broken := hbroken
    rcases befalls.client hc with hw | ⟨he, -⟩ | ⟨connected, -, hw⟩ | ⟨s, he, -⟩ | ⟨-, count, hw⟩
    · exact absurd (hw ▸ hbroken') hs
    · exact .inl (he ▸ rfl)
    · rw [hw] at hbroken'
      exact absurd hbroken' hs
    · exact .inr (.inl ⟨s, he⟩)
    · rw [hw] at hbroken'
      exact absurd hbroken' hs

end Machine

/-! ## Places -/

namespace Books

variable {b b' : Books} {bad : Mishap → Prop} {c d : ClientKey}

/-- The state of a client goes with its place, unless it has been broken or its life has ended. -/
structure Staged (c : ClientKey) (b : Books) : Prop where
  free : c ∈ b.free → (b.client c).state = .idle ∨ (b.client c).state = .broken ∨
    (b.client c).state = .disconnected
  lent : c ∈ b.pool.members → c ∉ b.free → (b.client c).state = .busy ∨
    (b.client c).state = .broken ∨ (b.client c).state = .disconnected

/-- Entries that neither change the state of a client nor give it another place. -/
theorem Staged.of_imp (h : b.Staged c) (hclient : (b'.client c).state = (b.client c).state)
    (hfree : c ∈ b'.free → c ∈ b.free)
    (hlent : c ∈ b'.pool.members → c ∉ b'.free → c ∈ b.pool.members ∧ c ∉ b.free) :
    b'.Staged c where
  free hc := by
    rw [hclient]
    exact h.free (hfree hc)
  lent hc hf := by
    rw [hclient]
    exact h.lent (hlent hc hf).1 (hlent hc hf).2

/-- Entries that leave all places as they are. -/
theorem Staged.of_eq (h : b.Staged c) (hclient : (b'.client c).state = (b.client c).state)
    (hmembers : b'.pool.members = b.pool.members) (hfree : b'.free = b.free) : b'.Staged c :=
  h.of_imp hclient (fun hc => hfree ▸ hc) fun hc hf => ⟨hmembers ▸ hc, hfree ▸ hf⟩

/-- A change of a client that only can break it or end its life. -/
theorem Staged.onClient (h : b.Staged c) {f : Client → Client}
    (hf : (f (b.client d)).state = (b.client d).state ∨ (f (b.client d)).state = .broken ∨
      (f (b.client d)).state = .disconnected) : (b.onClient d f).Staged c := by
  by_cases hd : c = d
  · subst hd
    have hclient : (b.onClient c f).client c = f (b.client c) := by simp
    rcases hf with hsame | hbroken | hgone
    · exact h.of_imp (by rw [hclient, hsame]) id fun hc hf => ⟨hc, hf⟩
    · exact ⟨fun _ => .inr (.inl (hclient ▸ hbroken)), fun _ _ => .inr (.inl (hclient ▸ hbroken))⟩
    · exact ⟨fun _ => .inr (.inr (hclient ▸ hgone)), fun _ _ => .inr (.inr (hclient ▸ hgone))⟩
  · exact h.of_imp (by simp [Function.update_of_ne hd]) id fun hc hf => ⟨hc, hf⟩

/-- Every entry keeps the states of clients with their places, unless a state is overwritten. -/
theorem Staged.entry (hs : b.Seated) (h : b.Staged c) (hbad : ∀ d, ¬ bad (.tampering d))
    (e : Entry bad b b') : b'.Staged c := by
  cases e with
  | found connection limits dialect vacant unstocked =>
    exact h.of_eq rfl (by rw [vacant]; rfl) (by simp [Books.free, vacant]; rfl)
  | @arrive b d k fresh unreferenced created =>
    have hd : c ∈ b.pool.members → c ≠ d := fun hc hd =>
      fresh (hd ▸ hs.mem_own_of_mem hc)
    have hfree : c ∈ (b.hold { openings := 1 }).free → c ∈ b.pool.members :=
      fun hc => hs.mem_of_mem_free hc
    constructor
    · intro hc
      have hc' : c ∈ (b.hold { openings := 1 }).free := by simpa [mem_free] using hc
      simpa [Function.update_of_ne (hd (hfree hc'))] using h.free hc'
    · intro hc hf
      have hf' : c ∉ (b.hold { openings := 1 }).free := by simpa [mem_free] using hf
      simpa [Function.update_of_ne (hd hc)] using h.lent hc hf'
  | @enroll b d isOpen =>
    have hnodup := hs.nodup
    simp only [seated, hold_pool, hold_stake, Stake.arrived_add, Multiset.nodup_add] at hnodup
    have hnew : d ∉ b.free := fun hd => Multiset.disjoint_left.mp hnodup.2.2
      (Multiset.mem_coe.mpr (hs.mem_of_mem_free (by simpa [mem_free] using hd))) (by simp)
    by_cases hd : c = d
    · subst hd
      exact ⟨fun hc => absurd (by simpa [mem_free, Pool.enroll] using hc) hnew,
        fun _ _ => .inl (by simp [Client.lend])⟩
    · refine h.of_imp (by simp [Function.update_of_ne hd]) ?_ ?_
      all_goals simp +contextual [mem_free, Pool.enroll, hd]
  | @enrollIdle b d =>
    by_cases hd : c = d
    · subst hd
      exact ⟨fun _ => .inl (by simp), fun _ hf => absurd (by simp [mem_free, Pool.enrollIdle]) hf⟩
    · refine h.of_imp (by simp [Function.update_of_ne hd]) ?_ ?_
      all_goals simp +contextual [mem_free, Pool.enrollIdle, hd]
  | @lend _ d rest isOpen front =>
    by_cases hd : c = d
    · subst hd
      have hfree : b.free = c ::ₘ ((b.onPool fun p => p.takeIdle rest).free) := by
        simp only [Books.free, front, Pool.takeIdle, onPool_pool, onPool_stake,
          ← Multiset.cons_coe, Multiset.cons_add]
      have hnodup := hs.nodup_free
      rw [hfree, Multiset.nodup_cons] at hnodup
      exact ⟨fun hc => absurd hc hnodup.1, fun _ _ => .inl (by simp [Client.lend])⟩
    · refine h.of_imp (by simp [Function.update_of_ne hd]) ?_ ?_
      all_goals simp +contextual [mem_free, Pool.takeIdle, front, hd]
  | share | overflow | drop | revive => exact h.onClient (.inl rfl)
  | @giveBack _ d mem last isOpen whole =>
    by_cases hd : c = d
    · subst hd
      exact ⟨fun _ => .inl (by simp),
        fun _ hf => absurd (by simp [mem_free, Pool.giveBack, Pool.pushIdle]) hf⟩
    · refine h.of_imp (by simp [Function.update_of_ne hd]) ?_ ?_
      all_goals simp +contextual [mem_free, Pool.giveBack, Pool.pushIdle, hd]
  | @discard _ d mem last cause =>
    have hfree : ((b.onPool fun p => p.giveBack.detach d).onClient d
        fun k => { k with references := 0 }).free = b.free := rfl
    refine h.of_imp ?_ ?_ fun hc hf => ⟨List.mem_of_mem_erase hc, ?_⟩
    · by_cases hd : c = d
      · subst hd
        simp
      · simp [Function.update_of_ne hd]
    · simp [hfree]
    · simpa [hfree] using hf
  | drain isOpen => exact h.of_eq rfl rfl (by simp [Books.free, Pool.drain])
  | @restore _ d isOpen whole =>
    refine h.of_eq rfl rfl ?_
    simp only [Books.free, Pool.giveBack, Pool.pushIdle, onPool_pool, onPool_stake, hold_pool,
      hold_stake, Stake.drained_add]
    rw [← Multiset.coe_add, Multiset.coe_singleton, add_assoc]
  | @remove _ d cause =>
    refine h.of_imp rfl ?_ fun hc hf => ⟨List.mem_of_mem_erase hc, ?_⟩
    · simp +contextual [mem_free, Pool.giveBack, Pool.detach]
    · have hd : c ≠ d := by
        rintro rfl
        exact hs.nodup_members.not_mem_erase hc
      simpa [mem_free, Pool.giveBack, Pool.detach, hd] using hf
  | takeAll settled =>
    refine h.of_imp rfl ?_ fun hc => by cases hc
    simp +contextual [mem_free, Pool.empty]
  | wear mem worn ended => exact h.onClient worn.state
  | tamper s mishap => exact absurd mishap (hbad _)
  | _ => exact h.of_eq rfl rfl (by simp [Books.free, Pool.reserve, Pool.unreserve])

end Books

namespace Machine

variable {m n : Machine} {e : Event} {p : PoolKey} {c : ClientKey}

/-- As long as no state is overwritten, the states of clients go with their places. -/
theorem ReachableWithout.staged (hm : m.ReachableWithout Mishap.isTampering) (p : PoolKey)
    (c : ClientKey) : (m.books p).Staged c := by
  refine hm.books_induct (I := Books.Staged c) ⟨?_, ?_⟩
    (fun b b' hs _ h e => h.entry hs (fun d hd => Bool.noConfusion hd) e) p
  · exact fun hc => absurd hc (Multiset.notMem_zero c)
  · exact fun hc => absurd hc List.not_mem_nil

/-- A client of a pool that is reported to be faulty in a mindful event has references. -/
theorem references_of_reports (hmindful : m.isMindful e = true) (h : m.reports? e = some c)
    (hc : c ∈ m.world.own p) : (m.world.client c).references ≠ 0 := by
  have hhome : (m.world.client c).home = some p := (World.mem_own.mp hc).2
  cases e with
  | setState | overlook => cases hmindful
  | _ => simpa [isMindful, h, hhome] using hmindful

/-- A client that breaks in a mindful event is not idle afterwards. -/
theorem Reachable.notMem_idle_of_broken (hm : m.Reachable) (hmindful : m.isMindful e = true)
    (hn : m.perform e = some n) (hlt : c < m.world.clients.length)
    (hs : (m.world.client c).state ≠ .broken) (hbroken : (n.world.client c).state = .broken) :
    c ∉ (n.world.pool p).idle := by
  intro hc
  have hm' : n.Sound := (hm.perform hn).sound
  obtain ⟨hmem, hrefs, -⟩ := hm'.of_mem_idle hc
  rcases of_broken_perform hlt hn hs hbroken with hreports | ⟨s, he⟩ | ⟨j, q, -, hdrained⟩
  · have hown : c ∈ m.world.own p := mem_own_before hn hlt ((hm'.seated p).mem_own_of_mem hmem)
    rw [client_of_reports hlt hn hreports, Client.breakDown_references] at hrefs
    exact references_of_reports hmindful hreports hown hrefs
  · exact not_tampering hmindful s he
  · obtain ⟨hmem', -, hidle⟩ := hm'.of_mem_drainedBy hdrained
    obtain rfl := hm'.eq_of_mem hmem hmem'
    exact hidle hc

/-- The clients in a queue are whole. -/
theorem Mindful.whole (hm : m.Mindful) (hc : c ∈ (m.world.pool p).idle) :
    (m.world.client c).state ≠ .broken := by
  refine hm.induct (P := fun m => ∀ p, ∀ c ∈ (m.world.pool p).idle,
    (m.world.client c).state ≠ .broken) (fun _ _ hc => absurd hc List.not_mem_nil) ?_ p c hc
  intro m n e hm ih hmindful hn p c hc hbroken
  have hm' : n.Sound := (hm.reachable.perform hn).sound
  have hlt' : c < n.world.clients.length := hm'.lt_length_of_mem (hm'.of_mem_idle hc).1
  by_cases hlt : c < m.world.clients.length
  · by_cases hs : (m.world.client c).state = .broken
    · exact ih p c (hm.reachable.mem_idle_of_broken hn hs hc) hs
    · exact hm.reachable.notMem_idle_of_broken hmindful hn hlt hs hbroken hc
  · obtain ⟨id, home, connected, hclient⟩ := made_perform hn (not_lt.mp hlt) hlt'
    rw [hclient] at hbroken
    cases hbroken

/-- A member of a pool is alive, and its state goes with its place. -/
theorem Mindful.state_of_mem (hm : m.Mindful) (hc : c ∈ (m.world.pool p).members) :
    (c ∈ (m.books p).free → (m.world.client c).state = .idle ∨
        (m.world.client c).state = .broken) ∧
      (c ∉ (m.books p).free → (m.world.client c).state = .busy ∨
        (m.world.client c).state = .broken) := by
  have hsound : m.Sound := hm.reachable.sound
  have hown : c ∈ m.world.own p := (hsound.seated p).mem_own_of_mem hc
  have halive : (m.world.client c).state ≠ .disconnected :=
    hm.withoutTampering.alive_of_attended (Books.mem_attended.mpr (.inl (.inl hc)))
  have hstaged := hm.withoutTampering.staged p c
  have hclient : (m.books p).client c = m.world.client c := World.books_client _ hown
  refine ⟨fun hf => ?_, fun hf => ?_⟩
  · have h := hstaged.free hf
    rw [hclient] at h
    simpa [halive] using h
  · have h := hstaged.lent hc hf
    rw [hclient] at h
    simpa [halive] using h

/-- The states of the clients of a pool say where they are: those in the queue are idle, borrowed
ones are busy or broken, and those that are pinged are idle or broken. -/
structure Placed (m : Machine) (p : PoolKey) : Prop where
  situation : ∀ c ∈ (m.world.pool p).members, ∃! s, m.Stands p c s
  idle : ∀ c ∈ (m.world.pool p).idle,
    (m.world.client c).state = .idle ∧ (m.world.client c).references = 0
  borrowed : ∀ c ∈ (m.world.pool p).members, m.Stands p c .borrowed →
    ((m.world.client c).state = .busy ∨ (m.world.client c).state = .broken) ∧
      (m.ReachableWithout Mishap.isOverflow → (m.world.client c).references ≠ 0)
  pinged : ∀ k, ∀ c ∈ m.drainedBy p k,
    ((m.world.client c).state = .idle ∨ (m.world.client c).state = .broken) ∧
      (m.world.client c).references = 0
  alive : ∀ c ∈ (m.world.pool p).members,
    (m.world.client c).state ≠ .created ∧ (m.world.client c).state ≠ .disconnected

/-- As long as faults are reported only by those who have a client, states say where clients are. -/
theorem Mindful.placed (hm : m.Mindful) (p : PoolKey) : m.Placed p := by
  have hreach : m.Reachable := hm.reachable
  have hfree : ∀ c, c ∈ (m.books p).free ↔
      c ∈ (m.world.pool p).idle ∨ ∃ k, c ∈ m.drainedBy p k :=
    fun c => Books.mem_free.trans (or_congr_right mem_drained_iff)
  constructor
  case situation => exact fun c hc => hreach.existsUnique_stands hc
  case idle =>
    intro c hc
    obtain ⟨hmem, hrefs, -⟩ := hreach.sound.of_mem_idle hc
    have hstate := (hm.state_of_mem hmem).1 ((hfree c).mpr (.inl hc))
    exact ⟨hstate.resolve_right (hm.whole hc), hrefs⟩
  case borrowed =>
    rintro c hc ⟨hborrowed, hidle, hdrained⟩
    refine ⟨(hm.state_of_mem hc).2 fun hf => ?_, fun hcountable => hcountable.borrowed_iff.mp
      hborrowed⟩
    exact ((hfree c).mp hf).elim hidle fun ⟨k, hk⟩ => hdrained k hk
  case pinged =>
    intro k c hc
    obtain ⟨hmem, hrefs, -⟩ := hreach.sound.of_mem_drainedBy hc
    exact ⟨(hm.state_of_mem hmem).1 ((hfree c).mpr (.inr ⟨k, hc⟩)), hrefs⟩
  case alive =>
    intro c hc
    have hstates : (m.world.client c).state = .idle ∨ (m.world.client c).state = .busy ∨
        (m.world.client c).state = .broken := by
      by_cases hf : c ∈ (m.books p).free
      · exact ((hm.state_of_mem hc).1 hf).imp_right .inr
      · exact .inr ((hm.state_of_mem hc).2 hf)
    rcases hstates with hs | hs | hs
    all_goals simp [hs]

end Machine
end SessionPool
