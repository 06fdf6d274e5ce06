import SessionPool.Proofs.Sharing

/-!
# Filling a pool

A pool that is open and in which nothing is in progress can lend as many clients as it may have at
once, if all sessions can be opened.  This does not depend on how it came to be as it is: an open
pool lends its idle clients first, and as long as clients are missing it has room for new ones,
because its slots are in use by members only.

* `Machine.Settled`: nothing is in progress in an open pool, and so many of its clients are lent.
* `Machine.Settled.fill`: callers that come one after the other get all clients there may be.
-/

namespace SessionPool

/-- Somebody wants a client of the pool, or one of the calls from this key on goes on, or a session
is opened for it. -/
def Event.borrows (p : PoolKey) (first : CallKey) : Event → Bool
  | .begin (.acquire q _) => q = p
  | .advance k _ => first ≤ k
  | .answer k (.opened (.session connected)) => decide (first ≤ k) && connected
  | _ => false

namespace Machine

variable {m n : Machine} {e : Event} {k : CallKey} {call : Call} {t : Turn} {p : PoolKey}
  {c : ClientKey} {j : ℕ}

/-! ## What is in progress -/

theorem creations_stake (m : Machine) (p : PoolKey) : (m.stake p).creations = m.creations p :=
  creations_stakeOf m.calls p

/-- What is in progress after a turn that starts no other call. -/
theorem Takes.exists_perform_counts (h : m.Takes k call e t) (hk : m.call? k = some call)
    (hm : m.world.crashed = false) (hstarted : t.started = none) (p : PoolKey) :
    ∃ n call', m.perform e = some n ∧ n.world = t.world ∧ n.call? k = some call' ∧
      t.point.Wakes call'.point ∧
      n.creations p + (if call.point.creates p then 1 else 0) =
        m.creations p + (if t.point.creates p then 1 else 0) ∧
      (m.pinged p = [] → t.point.drained p = [] → n.pinged p = []) := by
  obtain ⟨pick, s, hn⟩ := h.perform_eq hk hm
  obtain ⟨call', hk', hw, -⟩ := exists_call_apply k t s pick hk
  rw [if_pos rfl] at hw
  obtain ⟨rest, hrest, hafter⟩ := exists_rest hk
  have hstake := hafter { m with calls := m.calls.modify k fun c => { c with sequel := s } }
    (fun c => { c with sequel := s }) pick t rfl p
  rw [hstarted, Option.toList_none, List.map_nil, stakeOf_nil, add_zero] at hstake
  refine ⟨_, call', hn, rfl, hk', hw, ?_, fun hnone hpoint => ?_⟩
  · rw [← creations_stake, ← creations_stake, hrest p, hstake, Stake.creations_add,
      Stake.creations_add, Point.creations_stake, Point.creations_stake]
    omega
  · have hdrained := drained_stake m p
    rw [hrest p, Stake.drained_add, hnone, Multiset.coe_nil] at hdrained
    have hothers : (rest p).drained = 0 :=
      Multiset.le_zero.mp (hdrained ▸ Multiset.le_add_left _ _)
    refine (Multiset.coe_eq_zero _).mp ?_
    rw [← drained_stake, hstake, Stake.drained_add, hothers, Point.drained_stake, hpoint]
    rfl

/-- What is in progress is no more after somebody has begun to want a client. -/
theorem counts_begin (m : Machine) (u : Patience) (p : PoolKey) :
    (m.begin (.acquire p u)).creations p = m.creations p ∧
      (m.begin (.acquire p u)).pinged p = m.pinged p := by
  simp [creations, pinged, Machine.begin, Operation.enter, Point.creates, AcquirePoint.creates,
    Point.drained]

/-! ## One client more -/

/-- Nothing is in progress in an open pool, and so many of its clients are lent. -/
structure Settled (m : Machine) (p : PoolKey) (j : ℕ) : Prop where
  reachable : m.Reachable
  there : m.hasPool p = true
  running : m.world.crashed = false
  isOpen : (m.world.pool p).closing = false
  unpinged : m.pinged p = []
  uncreated : m.creations p = 0
  lent : (m.lent p).length = j
  busy : (m.world.busy p).length = j

/-- All members of the pool are idle or lent, and they are all that is in its slots. -/
theorem Settled.slots (h : m.Settled p j) :
    (m.world.pool p).members.length = (m.world.pool p).idle.length + j ∧
      (m.world.pool p).created.toNat = (m.world.pool p).members.length := by
  have hmembers := h.reachable.sound.length_members p
  have hcreated := h.reachable.sound.toNat_created p
  rw [h.unpinged, h.lent, List.length_nil] at hmembers
  rw [creations_stake, h.uncreated] at hcreated
  exact ⟨by omega, by omega⟩

/-- One client that was not busy is lent now, and nothing else has changed. -/
theorem Settled.succ (h : m.Settled p j) (hm : n.Reachable) (there : n.hasPool p = true)
    (running : n.world.crashed = false) (isOpen : (n.world.pool p).closing = false)
    (unpinged : n.pinged p = []) (uncreated : n.creations p = 0)
    (slots : (n.world.pool p).members.length + (m.world.pool p).idle.length =
      (m.world.pool p).members.length + (n.world.pool p).idle.length + 1)
    (hmem : c ∈ (n.world.pool p).members) (hlent : (n.world.client c).references ≠ 0)
    (hfree : c ∉ m.world.busy p) (hstays : m.world.busy p ⊆ n.world.busy p) :
    n.Settled p (j + 1) := by
  have hcount : (n.lent p).length = j + 1 := by
    have hmembers := hm.sound.length_members p
    have hslots := h.slots.1
    rw [unpinged, List.length_nil] at hmembers
    omega
  refine ⟨hm, there, running, isOpen, unpinged, uncreated, hcount, ?_⟩
  have hbusy : c ∈ n.world.busy p :=
    List.mem_filter.mpr ⟨hmem, decide_eq_true (UInt64.pos_iff_ne_zero.mpr hlent)⟩
  have hnodup : (c :: m.world.busy p).Nodup :=
    List.nodup_cons.mpr ⟨hfree, (h.reachable.sound.seated p).nodup_members.filter _⟩
  have hle : (c :: m.world.busy p).length ≤ (n.world.busy p).length :=
    (hnodup.subperm (List.cons_subset.mpr ⟨hbusy, hstays⟩)).length_le
  have hge := hm.sound.length_busy_le (p := p)
  rw [List.length_cons, h.busy] at hle
  omega

/-- A new caller of a settled pool is about to look for a client. -/
theorem Settled.exists_begin (h : m.Settled p j) :
    ∃ l, m.perform (.begin (.acquire p 0)) = some l ∧ l.world = m.world ∧
      l.call? m.calls.length = some { point := .acquire p 0 false .seeking } ∧ l.Settled p j := by
  have hn : m.perform (.begin (.acquire p 0)) = some (m.begin (.acquire p 0)) := by
    simp [Machine.perform, h.running, permits, h.there]
  obtain ⟨hcreations, hpinged⟩ := counts_begin m 0 p
  refine ⟨_, hn, rfl, call?_begin m (.acquire p 0), ?_⟩
  exact
    { reachable := h.reachable.perform hn
      there := h.reachable.sound.hasPool_perform hn h.there
      running := h.running
      isOpen := h.isOpen
      unpinged := hpinged.trans h.unpinged
      uncreated := hcreations.trans h.uncreated
      lent := by
        rw [Machine.lent, hpinged]
        exact h.lent
      busy := h.busy }

theorem references_lend_ne_zero (client : Client) : client.lend.references ≠ 0 := by
  show (1 : UInt64) ≠ 0
  decide

/-- A pool lends its next idle client. -/
theorem Settled.lend_idle (h : m.Settled p j) (hk : m.call? k = some call)
    (hx : call.point = .acquire p 0 false .seeking) {rest : List ClientKey}
    (front : (m.world.pool p).idle = c :: rest) :
    ∃ n, m.perform (.advance k 0) = some n ∧ n.Settled p (j + 1) ∧
      (n.world.pool p).limits = (m.world.pool p).limits := by
  have hp : p < m.world.pools.length := (hasPool_iff.mp h.there).1
  obtain ⟨hmem, hfree, -⟩ := h.reachable.sound.of_mem_idle (front ▸ List.mem_cons_self)
  have hlt : c < m.world.clients.length := h.reachable.sound.lt_length_of_mem hmem
  have takes : m.Takes k call (.advance k 0) (Acquire.seek m.world p 0 false) := by
    refine .step ?_
    unfold Machine.turn
    rw [hx]
    rfl
  have hseek : Acquire.seek m.world p 0 false = _ := Acquire.seek_of_front h.isOpen front
  obtain ⟨n, call', hn, hworld, -, -, hcreations, hpinged⟩ :=
    takes.exists_perform_counts hk h.running (by rw [hseek]; rfl) p
  have hworld' : n.world =
      (m.world.onPool p fun pool => pool.takeIdle rest).onClient c Client.lend := by
    rw [hworld, hseek]
    rfl
  have hpool : n.world.pool p = (m.world.pool p).takeIdle rest := by
    rw [hworld', World.pool_onClient, World.pool_onPool _ hp]
  have hclient : n.world.client c = (m.world.client c).lend := by
    rw [hworld']
    exact World.client_onClient (m.world.onPool p _) hlt _
  have hothers : ∀ d, d ≠ c → n.world.client d = m.world.client d := by
    intro d hd
    rw [hworld']
    exact World.client_onClient_of_ne (m.world.onPool p _) hd _
  have hfree' : c ∉ m.world.busy p := by simp [World.busy, hfree]
  refine ⟨n, hn, h.succ (h.reachable.perform hn) (h.reachable.sound.hasPool_perform hn h.there)
    ?_ ?_ ?_ ?_ ?_ ?_ ?_ hfree' ?_, by rw [hpool]; rfl⟩
  · rw [hworld']
    exact h.running
  · rw [hpool]
    exact h.isOpen
  · exact hpinged h.unpinged (by rw [hseek]; rfl)
  · rw [hseek, hx, h.uncreated] at hcreations
    exact Nat.eq_zero_of_add_eq_zero_right hcreations
  · rw [hpool, front]
    simp only [Pool.takeIdle, List.length_cons]
    omega
  · rw [hpool]
    exact hmem
  · rw [hclient]
    exact references_lend_ne_zero _
  · intro d hd
    have hne : d ≠ c := fun hdc => hfree' (hdc ▸ hd)
    simpa [World.busy, hpool, Pool.takeIdle, hothers d hne] using hd

theorem closing_answered {w : World} {u : Patience} {leased : Bool} (a : OpenAnswer) :
    ((Acquire.answered w p u leased a).world.pool p).closing = (w.pool p).closing := by
  cases a with
  | session connected =>
    refine World.onPool_congr Pool.closing ?_
    exact fun _ => rfl
  | _ => rfl

/-- The shared state after a slot was reserved, a session opened for it, and its client lent. -/
def served (w : World) (p : PoolKey) (client : Client) : World :=
  ((((w.onPool p Pool.reserve).addClient client).onPool p
    fun pool => { pool with nextNumber := pool.nextNumber + 1 }).onPool p
      fun pool => pool.enroll w.clients.length).onClient w.clients.length Client.lend

/-- A new client has joined the pool and has a reference, and all others are as they were. -/
theorem reads_served {w : World} (hp : p < w.pools.length) (client : Client) :
    (served w p client).pool p =
        ({ (w.pool p).reserve with nextNumber := (w.pool p).nextNumber + 1 } : Pool).enroll
          w.clients.length ∧
      (served w p client).client w.clients.length = client.lend ∧
        ∀ d < w.clients.length, (served w p client).client d = w.client d := by
  have hp₁ : p < ((w.onPool p Pool.reserve).addClient client).pools.length := by
    simpa [World.addClient] using hp
  refine ⟨?_, ?_, fun d hd => ?_⟩
  · rw [served, World.pool_onClient, World.pool_onPool _ (by simpa using hp₁),
      World.pool_onPool _ hp₁]
    have hpool : ((w.onPool p Pool.reserve).addClient client).pool p = (w.pool p).reserve :=
      World.pool_onPool w hp _
    rw [hpool]
    rfl
  · rw [served, World.client_onClient _ (by simp [World.addClient])]
    have hclient : ((w.onPool p Pool.reserve).addClient client).client w.clients.length =
        client := (World.client_addClient client _).trans (if_pos rfl)
    exact congrArg Client.lend hclient
  · rw [served, World.client_onClient_of_ne _ (Nat.ne_of_lt hd)]
    exact (World.client_addClient client d).trans (if_neg (Nat.ne_of_lt hd))

/-- A caller of a pool that has nothing idle and has room gets a new client in three turns, if its
session can be opened. -/
theorem Settled.exists_served (h : m.Settled p j) (hk : m.call? k = some call)
    (hx : call.point = .acquire p 0 false .seeking) (empty : (m.world.pool p).idle = [])
    (room : (m.world.pool p).hasRoom = true) :
    ∃ client n, m.run [.advance k 0, .answer k (.opened (.session true)), .advance k 0] = some n ∧
      n.world = served m.world p client ∧ n.creations p = 0 ∧ n.pinged p = [] := by
  -- It reserves a slot.
  have hseek : Acquire.seek m.world p 0 false =
      .goto (m.world.onPool p Pool.reserve) (.acquire p 0 false .opening) := by
    simp [Acquire.seek, h.isOpen, empty, room]
  have takes : m.Takes k call (.advance k 0)
      (.goto (m.world.onPool p Pool.reserve) (.acquire p 0 false .opening)) := by
    refine .step ?_
    unfold Machine.turn
    rw [hx, ← hseek]
    rfl
  obtain ⟨m₁, call₁, hm₁, hworld₁, hk₁, hw₁, hcreations₁, hpinged₁⟩ :=
    takes.exists_perform_counts hk h.running rfl p
  -- Its session is opened.
  have takes₁ : m₁.Takes k call₁ (.answer k (.opened (.session true)))
      (Acquire.answered m₁.world p 0 false (.session true)) := .opened _ (hw₁.eq_of_awake rfl)
  obtain ⟨m₂, call₂, hm₂, hworld₂, hk₂, hw₂, hcreations₂, hpinged₂⟩ :=
    takes₁.exists_perform_counts hk₁ (by rw [hworld₁]; exact h.running) rfl p
  -- It gets the client.
  have hopen : (m₂.world.pool p).closing = false := by
    rw [hworld₂, closing_answered, hworld₁, ← h.isOpen]
    refine World.onPool_congr Pool.closing ?_
    exact fun _ => rfl
  have takes₂ : m₂.Takes k call₂ (.advance k 0)
      (Acquire.arrive m₂.world p false m₁.world.clients.length) := by
    refine .step ?_
    unfold Machine.turn
    rw [hw₂.eq_of_awake rfl]
    rfl
  simp only [Acquire.arrive, hopen, Bool.false_eq_true, if_false] at takes₂
  obtain ⟨n, call₃, hn, hworld₃, -, -, hcreations₃, hpinged₃⟩ :=
    takes₂.exists_perform_counts hk₂ (by rw [hworld₂, hworld₁]; exact h.running) rfl p
  refine ⟨{ id := (m₁.world.pool p).nextId, home := some p, session := { connected := true } }, n,
    ?_, ?_, ?_, hpinged₃ (hpinged₂ (hpinged₁ h.unpinged rfl) rfl) rfl⟩
  · rw [run_cons, hm₁, Option.bind_some, run_cons, hm₂, Option.bind_some, run_cons, hn,
      Option.bind_some, run_nil]
  · have hlength : m₁.world.clients.length = m.world.clients.length := by rw [hworld₁]; rfl
    rw [hworld₃, hworld₂, hlength, hworld₁]
    rfl
  · have hfirst : m₁.creations p = 1 := by
      simpa [hx, h.uncreated, Turn.goto, Point.creates, AcquirePoint.creates] using hcreations₁
    have hsecond : m₂.creations p = 1 := by
      simpa [hw₁.eq_of_awake rfl, hfirst, Turn.goto, Acquire.answered, Opening.answered,
        Point.creates, AcquirePoint.creates] using hcreations₂
    simpa [hw₂.eq_of_awake rfl, hsecond, Turn.saying, Turn.lend, Turn.finish, World.handOver,
      Acquire.answered, Opening.answered, Point.creates, AcquirePoint.creates] using hcreations₃

/-- A pool that is ready for use is so after every run. -/
theorem Reachable.hasPool_run (hm : m.Reachable) (hp : m.hasPool p = true) {es : List Event}
    (hn : m.run es = some n) : n.hasPool p = true :=
  run_induct hm hp (fun _ _ _ hl hp hn => hl.sound.hasPool_perform hn hp) hn

/-- A pool that has nothing idle and has room lends a new client. -/
theorem Settled.lend_new (h : m.Settled p j) (hk : m.call? k = some call)
    (hx : call.point = .acquire p 0 false .seeking) (empty : (m.world.pool p).idle = [])
    (room : (m.world.pool p).hasRoom = true) :
    ∃ n, m.run [.advance k 0, .answer k (.opened (.session true)), .advance k 0] = some n ∧
      n.Settled p (j + 1) ∧ (n.world.pool p).limits = (m.world.pool p).limits := by
  obtain ⟨client, n, hn, hworld, hcreations, hpinged⟩ := h.exists_served hk hx empty room
  obtain ⟨hpool, hnew, hothers⟩ := reads_served (hasPool_iff.mp h.there).1 client
  rw [← hworld] at hpool hnew hothers
  have hfree : m.world.clients.length ∉ m.world.busy p := fun hmem =>
    Nat.lt_irrefl _ (h.reachable.sound.lt_length_of_mem (List.mem_filter.mp hmem).1)
  refine ⟨n, hn, h.succ (h.reachable.run hn) (h.reachable.hasPool_run h.there hn) ?_ ?_ hpinged
    hcreations ?_ ?_ ?_ hfree ?_, by rw [hpool]; rfl⟩
  · rw [hworld]
    exact h.running
  · rw [hpool]
    exact h.isOpen
  · rw [hpool]
    simp only [Pool.enroll, Pool.reserve, List.length_append, List.length_singleton]
    omega
  · rw [hpool]
    exact List.mem_append_right _ (List.mem_singleton_self _)
  · rw [hnew]
    exact references_lend_ne_zero _
  · intro d hd
    have hmem := (List.mem_filter.mp hd).1
    have hlent := (List.mem_filter.mp hd).2
    have hd' := hothers d (h.reachable.sound.lt_length_of_mem hmem)
    refine List.mem_filter.mpr ⟨?_, by rw [hd']; exact hlent⟩
    rw [hpool]
    exact List.mem_append_left _ hmem

/-! ## All clients there may be -/

/-- One more caller gets a client, if not all that there may be are lent. -/
theorem Settled.exists_succ (h : m.Settled p j)
    (hless : j < (m.world.pool p).limits.maxClients.toNat) :
    ∃ gs n, m.run gs = some n ∧ (∀ e ∈ gs, e.borrows p m.calls.length = true) ∧
      n.Settled p (j + 1) ∧ (n.world.pool p).limits = (m.world.pool p).limits := by
  obtain ⟨l, hl, hworld, hk, hsettled⟩ := h.exists_begin
  rw [← hworld] at hless
  cases hidle : (l.world.pool p).idle with
  | cons c rest =>
    obtain ⟨n, hn, hsettled', hlimits⟩ := hsettled.lend_idle hk rfl hidle
    refine ⟨[.begin (.acquire p 0), .advance m.calls.length 0], n, ?_, by simp [Event.borrows],
      hsettled', by rw [hlimits, hworld]⟩
    rw [run_cons, hl, Option.bind_some, run_cons, hn]
    rfl
  | nil =>
    have hroom : (l.world.pool p).hasRoom = true := by
      obtain ⟨hmembers, hcreated⟩ := hsettled.slots
      rw [hidle, List.length_nil] at hmembers
      refine decide_eq_true (UInt64.lt_iff_toNat_lt.mpr ?_)
      omega
    obtain ⟨n, hn, hsettled', hlimits⟩ := hsettled.lend_new hk rfl hidle hroom
    refine ⟨.begin (.acquire p 0) :: [.advance m.calls.length 0,
      .answer m.calls.length (.opened (.session true)), .advance m.calls.length 0], n, ?_,
      by simp [Event.borrows], hsettled', by rw [hlimits, hworld]⟩
    rw [run_cons, hl, Option.bind_some, hn]

theorem length_calls_run {es : List Event} (hn : m.run es = some n) :
    m.calls.length ≤ n.calls.length := by
  induction es generalizing m with
  | nil =>
    rw [run_nil, Option.some.injEq] at hn
    rw [hn]
  | cons e es ih =>
    rw [run_cons, Option.bind_eq_some_iff] at hn
    obtain ⟨l, hl, hn⟩ := hn
    exact (length_calls_le hl).trans (ih hn)

/-- What later callers do is done by callers that come after the first. -/
theorem borrows_of_le {first second : CallKey} (hle : first ≤ second)
    (h : e.borrows p second = true) : e.borrows p first = true := by
  unfold Event.borrows at h ⊢
  split at h
  · exact h
  · exact decide_eq_true (hle.trans (of_decide_eq_true h))
  · rw [Bool.and_eq_true, decide_eq_true_eq] at h ⊢
    exact ⟨hle.trans h.1, h.2⟩
  · cases h

/-- New callers that come one after the other get all clients that the pool may have. -/
theorem Settled.fill (h : m.Settled p j) :
    ∃ gs n, m.run gs = some n ∧ (∀ e ∈ gs, e.borrows p m.calls.length = true) ∧
      (n.world.busy p).length = (m.world.pool p).limits.maxClients.toNat := by
  -- The induction is on the number of clients that may still be lent.
  generalize hleft : (m.world.pool p).limits.maxClients.toNat - j = left
  induction left generalizing m j with
  | zero =>
    have hbound := (h.reachable.sound.counted p).bound
    obtain ⟨hmembers, hcreated⟩ := h.slots
    have hcreated_le : (m.world.pool p).created.toNat ≤
        (m.world.pool p).limits.maxClients.toNat := (Nat.le_add_right _ _).trans hbound
    refine ⟨[], m, run_nil m, by simp, ?_⟩
    rw [h.busy]
    omega
  | succ left ih =>
    obtain ⟨gs, l, hl, hgs, hsettled, hlimits⟩ := h.exists_succ (by omega)
    obtain ⟨gs', n, hn, hgs', hbusy⟩ := ih hsettled (by rw [hlimits]; omega)
    refine ⟨gs ++ gs', n, ?_, ?_, by rw [hbusy, hlimits]⟩
    · rw [run_append, hl, Option.bind_some, hn]
    · exact List.forall_mem_append.mpr
        ⟨hgs, fun e he => borrows_of_le (length_calls_run hl) (hgs' e he)⟩

end Machine
end SessionPool
