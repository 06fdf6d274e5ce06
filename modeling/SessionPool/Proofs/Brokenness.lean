import SessionPool.Proofs.Newcomers

/-!
# Clients that are broken

A broken client is not put back into the queue of its pool, by a release or by a ping.  But a client
that is idle already when it breaks stays there, and the next caller gets it as if nothing had
happened: whoever takes a client from the queue does not look at its state.  And a fault that is
reported while the last reference is given back can be overlooked: the call has found the client
whole and makes it idle, whatever has become of it since.

Nothing else brings a broken client back.  In particular the first caller of a client, who gets it
without a look at its state either, gets one that is whole (`Machine.Reachable.sheltered`).

* `Machine.Retired`: a client is broken or disconnected and nobody can get it.
* `Machine.retires_iff`: a client that breaks is retired for good exactly if its pool is closing, or
  it is not idle then and the fault is not overlooked.
* `Machine.not_retires`: a broken client can be busy again.
-/

namespace SessionPool

/-- Only a client that is whole goes back after it was pinged. -/
theorem Pool.mem_idle_foldl_settle {w : World} {p : PoolKey} {c : ClientKey}
    (hbroken : (w.client c).isBroken = true) (cs : List ClientKey) {pool : Pool}
    (hc : c ∈ (cs.foldl (Pool.settle w p) pool).idle) : c ∈ pool.idle := by
  induction cs generalizing pool with
  | nil => exact hc
  | cons d cs ih =>
    have hd := ih hc
    unfold Pool.settle at hd
    split at hd
    · exact hd
    · next hwhole =>
      have hne : c ≠ d := by
        rintro rfl
        simp [KeepAlive.isDiscarded, hbroken] at hwhole
      simpa [Pool.pushIdle, Pool.giveBack, hne] using hd

/-- A client of which a fault is overlooked is a member of an open pool, and idle afterwards. -/
theorem Release.idle_of_overlook {w : World} {p : PoolKey} {c : ClientKey} {turn : Turn}
    (h : overlook w p c = some turn) : c ∈ (w.pool p).members ∧
      (c < w.clients.length → (turn.world.client c).state = .idle) ∧
        (turn.world.pool p).closing = false := by
  simp only [overlook] at h
  split at h
  · cases h
  next hmem =>
  split at h
  · cases h
  next held count hdrop =>
  split at h
  swap
  · cases h
  obtain ⟨turn', hlast, rfl⟩ := Option.map_eq_some_iff.mp h
  simp only [lastAmidFault] at hlast
  split at hlast
  · cases hlast
  next hkept =>
  obtain rfl := Option.some.inj hlast
  rw [Bool.or_eq_true, not_or, Bool.not_eq_true, Bool.not_eq_true] at hkept
  refine ⟨not_not.mp hmem, fun hc => ?_, ?_⟩
  · show (World.client (World.onPool _ _ _) c).state = .idle
    rw [World.client_onPool, World.client_onClient _ (by simpa using hc)]
  · exact (World.onPool_congr Pool.closing (f := fun pool => pool.pushIdle c) fun _ => rfl).trans
      hkept.2

/-- A broken client is not put into the queue, unless the stocking of the pool puts it there. -/
theorem Dealing.mem_idle {w : World} {p : PoolKey} {x y : Point} {pool : Pool} {ss : List Signal}
    {c : ClientKey} (h : Dealing w p x y pool ss) (hbroken : (w.client c).isBroken = true)
    (hc : c ∈ pool.idle) : c ∈ (w.pool p).idle ∨ ∃ left, x = .stock p left (.arrived c) := by
  cases h with
  | stocked goesOn closing closed idle =>
    rcases idle c hc with hi | rfl
    · exact .inl hi
    · exact .inr ⟨_, rfl⟩
  | @taken t leased s d rest o looks isOpen front =>
    rw [front]
    exact .inl (List.mem_cons_of_mem d hc)
  | @returned d leased mem last isOpen whole =>
    have hne : c ≠ d := by
      rintro rfl
      rw [hbroken] at whole
      cases whole
    exact .inl (by simpa [Pool.pushIdle, Pool.giveBack, hne] using hc)
  | restored => exact .inl (Pool.mem_idle_foldl_settle hbroken _ hc)
  | drained | emptied | begunAtOnce => cases hc
  | barred | reserved => exact .inl (by simpa [Pool.reserve] using hc)
  | _ => exact .inl hc

namespace Machine

variable {m n : Machine} {e : Event} {k : CallKey} {call : Call} {p q : PoolKey} {c : ClientKey}

/-- In an event a broken client does not become idle. -/
theorem Reachable.mem_idle_of_broken (hm : m.Reachable) (hn : m.perform e = some n)
    (hbroken : (m.world.client c).state = .broken) (hc : c ∈ (n.world.pool p).idle) :
    c ∈ (m.world.pool p).idle := by
  cases happens hn with
  | @turn _ k call t pick s hk takes sequel =>
    have hp : p < m.world.pools.length := by
      obtain ⟨rest, hpass⟩ := hm.sound.passes hk takes
      rw [← hpass.pools]
      exact World.lt_length_of_mem ((hm.perform hn).sound.of_mem_idle hc).1
    have hbroken' : (m.world.client c).isBroken = true := by simp [Client.isBroken, hbroken]
    refine ((takes.dealing hm.sound hk hp).mem_idle hbroken' hc).resolve_right ?_
    rintro ⟨left, hx⟩
    refine (hm.sheltered.arrived p c (mem_arrived_stake hk ?_)).1 hbroken
    rw [hx, Stock.stake_arrived, if_pos rfl]
    exact Multiset.mem_singleton_self c
  | @enter o permits =>
    have hc' : c ∈ ((o.enter m.world).world.pool p).idle := hc
    rcases pool_enter_or m.world o p with hpool | ⟨connection, limits, dialect, hpool⟩
    · exact hpool ▸ hc'
    · rw [hpool] at hc'
      cases hc'
  | @aside _ w befalls =>
    have hpool : w.pool p = m.world.pool p := by simp [World.pool, befalls.pools]
    exact hpool ▸ hc

/-! ## Clients that nobody gets any more -/

/-- A client that is broken, or disconnected and without a slot, and is not idle. -/
structure Spent (m : Machine) (p : PoolKey) (c : ClientKey) : Prop where
  own : c ∈ m.world.own p
  barred : (m.world.pool p).closing = true ∨ c ∉ (m.world.pool p).idle
  state : (m.world.client c).state = .broken ∨
    (m.world.client c).state = .disconnected ∧ m.Unseated c

/-- It has not just come for a pool. -/
theorem Spent.notMem_arrived (h : m.Spent p c) (hm : m.Reachable) (q : PoolKey) :
    c ∉ (m.stake q).arrived := by
  intro ha
  rcases h.state with hbroken | ⟨-, hunseated⟩
  · exact (hm.sheltered.arrived q c ha).1 hbroken
  · exact hunseated q (Multiset.mem_add.mpr (.inr ha))

/-- No open pool has it in its queue. -/
theorem Spent.notMem_idle (h : m.Spent p c) (hm : m.Sound)
    (isOpen : (m.world.pool q).closing = false) : c ∉ (m.world.pool q).idle := by
  intro hi
  have hq : q = p := by
    by_contra hne
    exact World.notMem_own_of_ne h.own hne ((hm.seated q).mem_own_of_mem (hm.of_mem_idle hi).1)
  subst hq
  rcases h.barred with hclosing | hidle
  · rw [hclosing] at isOpen
    cases isOpen
  · exact hidle hi

/-- Nobody gets it. -/
theorem Spent.not_lends (h : m.Spent p c) (hm : m.Reachable) : ¬ m.Lends e n q c := by
  intro hlends
  obtain ⟨hopen, -, hhand, -⟩ := hm.lends hlends
  exact hhand.elim (h.notMem_idle hm.sound hopen) (h.notMem_arrived hm q)

/-- No turn makes it whole. -/
theorem Spent.treatment (h : m.Spent p c) (hm : m.Reachable) (hk : m.call? k = some call)
    (hbroken : (m.world.client c).state = .broken) {client : Client}
    (ht : Treatment m.world c call.point client) :
    client.state = .broken ∨ client.state = .disconnected ∧ m.Unseated c := by
  cases ht with
  | lent hx isOpen front =>
    refine absurd ?_ (h.notMem_idle hm.sound isOpen)
    rw [front]
    exact List.mem_cons_self
  | @enrolled q u leased hx isOpen =>
    refine absurd (mem_arrived_stake hk ?_) (h.notMem_arrived hm q)
    rw [hx, Acquire.stake_arrived, if_pos rfl]
    exact Multiset.mem_singleton_self c
  | @stocked q left hx =>
    refine absurd (mem_arrived_stake hk ?_) (h.notMem_arrived hm q)
    rw [hx, Stock.stake_arrived, if_pos rfl]
    exact Multiset.mem_singleton_self c
  | shared hx mem busy lent =>
    rw [hbroken] at busy
    cases busy
  | returned hx mem last isOpen whole => simp [Client.isBroken, hbroken] at whole
  | broken =>
    unfold Client.breakDown
    split
    · exact .inl hbroken
    · exact .inl rfl
  | departed rite connected outgoing was =>
    refine .inr ⟨?_, (hm.unseated_of_outgoing call (List.mem_of_getElem? hk) c outgoing).2⟩
    cases rite <;> rfl
  | _ => exact .inl hbroken

/-- No event makes it whole, if its state is not overwritten. -/
theorem Spent.state_perform (h : m.Spent p c) (hm : m.Reachable) (hn : m.perform e = some n)
    (he : ∀ s, e ≠ .setState c s) : (n.world.client c).state = .broken ∨
      (n.world.client c).state = .disconnected ∧ n.Unseated c := by
  have hlt : c < m.world.clients.length := (World.mem_own.mp h.own).1
  rcases h.state with hbroken | ⟨hgone, hunseated⟩
  · cases happens hn with
    | turn pick s hk takes sequel =>
      exact (h.treatment hm hk hbroken (takes.treatment hlt)).imp_right fun hd =>
        ⟨hd.1, hd.2.perform hm.sound hlt hn⟩
    | enter permits =>
      rw [client_begin]
      exact .inl hbroken
    | @aside _ w befalls =>
      refine .inl ?_
      show (w.client c).state = .broken
      rcases befalls.client hlt with
        hw | ⟨-, hw⟩ | ⟨connected, -, hw⟩ | ⟨s, hset, -⟩ | ⟨-, count, hw⟩
      · exact hw ▸ hbroken
      · rw [hw, Client.breakDown, if_neg (by simp [hbroken])]
      · exact hw ▸ hbroken
      · exact absurd hset (he s)
      · exact hw ▸ hbroken
  · exact .inr ⟨hunseated.disconnected_perform hm.sound hlt hgone hn he,
      hunseated.perform hm.sound hlt hn⟩

/-- It does not become idle. -/
theorem Spent.notMem_idle_perform (h : m.Spent p c) (hm : m.Reachable) (hn : m.perform e = some n)
    (hidle : c ∉ (m.world.pool p).idle) : c ∉ (n.world.pool p).idle := by
  intro hc
  have hlt : c < m.world.clients.length := (World.mem_own.mp h.own).1
  rcases h.state with hbroken | ⟨-, hunseated⟩
  · exact hidle (hm.mem_idle_of_broken hn hbroken hc)
  · exact (hunseated.perform hm.sound hlt hn).notMem_members p
      ((hm.perform hn).sound.of_mem_idle hc).1

/-- No event gives it back, if its state is not overwritten. -/
theorem Spent.perform (h : m.Spent p c) (hm : m.Reachable) (hn : m.perform e = some n)
    (he : ∀ s, e ≠ .setState c s) : n.Spent p c where
  own := hm.sound.mem_own_perform hn h.own
  barred := h.barred.imp (fun hclosing => (hm.shrinks hn hclosing).1)
    (h.notMem_idle_perform hm hn)
  state := h.state_perform hm hn he

/-- No run gives it back, if its state is not overwritten. -/
theorem Spent.run (h : m.Spent p c) (hm : m.Reachable) {es : List Event}
    (hn : m.run es = some n) (hes : ∀ s, .setState c s ∉ es) : n.Spent p c := by
  induction es generalizing m with
  | nil =>
    rw [run_nil, Option.some.injEq] at hn
    exact hn ▸ h
  | cons e es ih =>
    rw [run_cons, Option.bind_eq_some_iff] at hn
    obtain ⟨l, hl, hn⟩ := hn
    refine ih (h.perform hm hl fun s hs => hes s ?_) (hm.perform hl) hn fun s hs => hes s ?_
    · exact hs ▸ List.mem_cons_self
    · exact List.mem_cons_of_mem e hs

/-! ## Retired -/

/-- A client is broken or disconnected, and in no event a caller gets it. -/
structure Retired (m : Machine) (c : ClientKey) : Prop where
  state : (m.world.client c).state = .broken ∨ (m.world.client c).state = .disconnected
  unlent : ∀ e n p, ¬ m.Lends e n p c

/-- The client of which a fault is overlooked in this event. -/
def overlooked? (m : Machine) : Event → Option ClientKey
  | .overlook k _ =>
    match (m.call? k).map Call.point with
    | some (.release _ c _) => some c
    | _ => none
  | _ => none

/-- A client is idle after a fault of it has been overlooked, and its pool is open. -/
theorem Reachable.idle_of_overlooked (hm : m.Reachable) (hn : m.perform e = some n)
    (hc : c ∈ n.world.own p) (h : m.overlooked? e = some c) :
    (n.world.client c).state = .idle ∧ (n.world.pool p).closing = false := by
  cases e with
  | overlook k pick =>
    have hover : m.overlook k pick = some n := by
      simpa [Machine.perform, not_crashed_of_perform hn] using hn
    obtain ⟨call, q, d, leased, t, hk, hx, ht, rfl⟩ := exists_of_overlook hover
    obtain rfl : d = c := by simpa [overlooked?, hk, hx] using h
    obtain ⟨hmem, hidle, hopen⟩ := Release.idle_of_overlook ht
    have hown : d ∈ m.world.own q := (hm.sound.seated q).mem_own_of_mem hmem
    obtain rfl : q = p := by
      by_contra hne
      exact World.notMem_own_of_ne hc hne (hm.sound.mem_own_perform hn hown)
    exact ⟨hidle (World.mem_own.mp hown).1, hopen⟩
  | _ => cases h

/-- A client of a pool that breaks in an event is retired for good exactly if the pool is closing,
or the client is not idle then and the fault is not overlooked.  It breaks if it is broken
afterwards, and also if that is overlooked. -/
theorem retires_iff (hm : m.Reachable) (hn : m.perform e = some n) (hp : n.hasPool p = true)
    (hcrashed : n.world.crashed = false) (hc : c ∈ n.world.own p)
    (breaks : (n.world.client c).state = .broken ∨ m.overlooked? e = some c) :
    (∀ es l, n.run es = some l → (∀ s, .setState c s ∉ es) → l.Retired c) ↔
      (n.world.pool p).closing = true ∨
        c ∉ (n.world.pool p).idle ∧ m.overlooked? e ≠ some c := by
  have hm' : n.Reachable := hm.perform hn
  by_cases hover : m.overlooked? e = some c
  · -- The client is idle, in an open pool, and that is not retired.
    obtain ⟨hidle, hopen⟩ := hm.idle_of_overlooked hn hc hover
    refine iff_of_false (fun h => ?_) (by simp [hopen, hover])
    have hretired : n.Retired c := h [] n rfl fun _ => List.not_mem_nil
    rcases hretired.state with hs | hs
    · cases hidle.symm.trans hs
    · cases hidle.symm.trans hs
  have hbroken := breaks.resolve_right hover
  constructor
  · intro h
    by_contra hnot
    obtain ⟨hopen, hidle⟩ := not_or.mp hnot
    rw [Bool.not_eq_true] at hopen
    obtain ⟨es, l, e', l', hl, hes, hlends⟩ :=
      hm'.exists_lends_of_idle hp hcrashed hopen (by simpa [hover] using hidle)
    exact (h es l hl hes).unlent e' l' p hlends
  · intro hbarred es l hl hes
    have hspent : l.Spent p c :=
      Spent.run ⟨hc, hbarred.imp_right And.left, .inl hbroken⟩ hm' hl hes
    exact ⟨hspent.state.imp_right And.left, fun e l q => hspent.not_lends (hm'.run hl)⟩

/-- A run in which a client is borrowed and another is idle. -/
def oneBorrowed : List Event :=
  [.begin (.construct {} { maxClients := 2, initialClients := 2 } true .standard),
    .advance 0 0, .answer 0 (.opened (.session true)), .advance 0 0,
    .advance 0 0, .answer 0 (.opened (.session true)), .advance 0 0, .advance 0 0,
    .begin (.acquire 0 0), .advance 1 0]

/-- If it breaks then it is retired, whatever comes.  If it breaks while its only reference is given
back, and that is overlooked, it is not. -/
theorem retires_iff_borrowed :
    (∃ m n : Machine, run {} oneBorrowed = some m ∧ m.perform (.breakDown 0) = some n ∧
      (n.world.client 0).state = .broken ∧ (n.world.pool 0).idle = [1] ∧
      ∀ es l, n.run es = some l → (∀ s, .setState 0 s ∉ es) → l.Retired 0) ∧
    ∃ m n : Machine, run {} (oneBorrowed ++ [.begin (.release 0 0)]) = some m ∧
      m.perform (.overlook 2 0) = some n ∧ m.overlooked? (.overlook 2 0) = some 0 ∧
      (n.world.pool 0).idle = [1, 0] ∧
      ¬ ∀ es l, n.run es = some l → (∀ s, .setState 0 s ∉ es) → l.Retired 0 := by
  constructor
  · exact ⟨_, _, rfl, rfl, rfl, rfl, (retires_iff (e := .breakDown 0) ⟨oneBorrowed, rfl⟩ rfl rfl
      rfl (World.mem_own_of_home rfl) (.inl rfl)).mpr (.inr ⟨by decide, by decide⟩)⟩
  · refine ⟨_, _, rfl, rfl, rfl, rfl, fun h => ?_⟩
    rcases (retires_iff (e := .overlook 2 0) ⟨oneBorrowed ++ [.begin (.release 0 0)], rfl⟩ rfl rfl
      rfl (World.mem_own_of_home rfl) (.inr rfl)).mp h with hclosing | ⟨-, heeded⟩
    · cases hclosing
    · exact heeded rfl

/-- A run in which a client breaks while it is idle. -/
def brokenInQueue : List Event :=
  [.begin (.construct {} { maxClients := 2 } true .standard), .advance 0 0,
    .begin (.acquire 0 0), .advance 1 0, .answer 1 (.opened (.session true)), .advance 1 0,
    .begin (.release 0 0), .advance 2 0, .breakDown 0]

/-- A broken member of a pool can be busy again, and nobody has overwritten its state. -/
theorem not_retires : ¬ ∀ (m n : Machine) (p : PoolKey) (c : ClientKey) (es : List Event),
    m.Reachable → c ∈ (m.world.pool p).members → (m.world.client c).state = .broken →
      m.run es = some n → (∀ s, .setState c s ∉ es) →
        (n.world.client c).state = .broken ∨ (n.world.client c).state = .disconnected := by
  intro h
  have hstate := h _ _ 0 0 [.begin (.acquire 0 0), .advance 3 0] ⟨brokenInQueue, rfl⟩ (by decide)
    rfl rfl (by simp)
  rcases hstate with hs | hs
  · exact Lifecycle.noConfusion (hs : Lifecycle.busy = .broken)
  · exact Lifecycle.noConfusion (hs : Lifecycle.busy = .disconnected)

end Machine
end SessionPool
