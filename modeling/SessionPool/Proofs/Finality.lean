import SessionPool.Proofs.Rejection

/-!
# Closing is final

From the moment on in which a pool is closing it gives nobody a client.  It is marked as closed when
nothing is left of it that anybody could hold, and nothing ever comes back: no client, no reference
and no session.

* `Machine.Barred`: what holds from the moment on in which a pool is closing.
* `Machine.Deserted`: nothing is left in a pool.
* `Machine.Defunct`: what becomes of those who still call on a closed pool.
* `Machine.closing_is_final`: all this, for every run.
-/

namespace SessionPool

/-- No client is made for a pool that is closed. -/
theorem Books.own_entry {b b' : Books} {bad : Mishap → Prop} (hn : b.Counted) (ho : b.Orderly)
    (hclosed : b.pool.closed = true) (e : Books.Entry bad b b') : b'.own = b.own := by
  have hcreated : b.pool.created.toNat = 0 := ho.emptied (.inr hclosed)
  have hslots := hn.created
  cases e with
  | arrive k fresh unreferenced created =>
    rw [hcreated] at hslots
    simp [Stake.creations] at hslots
    omega
  | _ => rfl

/-- A call that opens a session for a pool creates a client of it. -/
theorem Point.creates_of_request {x : Point} {p : PoolKey}
    (h : x.request? = some (.openSession p)) : x.creates p = true := by
  unfold Point.request? at h
  split at h
  · simpa [Point.creates, StockPoint.creates] using h
  · simpa [Point.creates, AcquirePoint.creates] using h
  all_goals cases h

namespace Machine

variable {m n : Machine} {e : Event} {k : CallKey} {call call' : Call} {t : Turn} {p : PoolKey}

/-! ## Nothing is left -/

/-- Nothing is left in a pool: no clients and no slots, and nobody has a reference, pings a client
or creates one. -/
structure Deserted (m : Machine) (p : PoolKey) : Prop where
  members : (m.world.pool p).members = []
  idle : (m.world.pool p).idle = []
  created : (m.world.pool p).created = 0
  outstanding : (m.world.pool p).outstanding = 0
  unreferenced : ∀ c ∈ m.world.own p, (m.world.client c).references = 0
  undrained : ∀ k, m.drainedBy p k = []
  creations : m.creations p = 0

/-- Nothing is left in a pool without slots in use. -/
theorem Reachable.deserted_of_created (hm : m.Reachable)
    (hcreated : (m.world.pool p).created.toNat = 0) : m.Deserted p := by
  have hn := hm.sound.counted p
  have hslots : (m.world.pool p).created.toNat =
      (m.world.pool p).members.length + (m.stake p).creations := hn.created
  have hidle : (m.world.pool p).created.toNat =
      (m.world.pool p).idle.length + (m.world.pool p).outstanding.toNat := hn.outstanding
  have hmembers : (m.world.pool p).members = [] := List.eq_nil_of_length_eq_zero (by omega)
  have hcreations : (m.stake p).creations = m.creations p := creations_stakeOf m.calls p
  have hunreferenced : ∀ c ∈ m.world.own p, (m.world.client c).references = 0 := by
    intro c hc
    by_contra hne
    have hmem : c ∈ (m.world.pool p).members :=
      hm.lent p c hc (by rwa [Machine.books, World.books_client _ hc])
    exact absurd (hmembers ▸ hmem) List.not_mem_nil
  have hundrained : ∀ k, m.drainedBy p k = [] := by
    intro k
    refine List.eq_nil_iff_forall_not_mem.mpr fun c hc => ?_
    exact absurd (hmembers ▸ (hm.sound.of_mem_drainedBy hc).1) List.not_mem_nil
  exact
    { members := hmembers
      idle := List.eq_nil_of_length_eq_zero (by omega)
      created := UInt64.toNat_inj.mp hcreated
      outstanding := UInt64.toNat_inj.mp (by rw [UInt64.toNat_zero]; omega)
      unreferenced := hunreferenced
      undrained := hundrained
      creations := by omega }

/-- Nothing is left in a closed pool. -/
theorem Reachable.deserted_of_closed (hm : m.Reachable)
    (hclosed : (m.world.pool p).closed = true) : m.Deserted p :=
  hm.deserted_of_created ((hm.orderly p).emptied (.inr hclosed))

/-- Nothing is left in a pool that is marked as closed next. -/
theorem Reachable.deserted_of_sealed (hm : m.Reachable) (hn : m.perform e = some n)
    (hopen : (m.world.pool p).closed = false) (hclosed : (n.world.pool p).closed = true) :
    m.Deserted p := by
  have hclosing : (n.world.pool p).closing = true :=
    ((hm.perform hn).orderly p).closing (.inr hclosed)
  cases happens hn with
  | @turn _ k call t pick s hk takes sequel =>
    obtain ⟨rest, hpass⟩ := hm.sound.passes hk takes
    have hp : p < m.world.pools.length := (lt_length_of_closing hclosing).trans_eq hpass.pools
    rcases (takes.dealing hm.sound hk hp).sealed hclosed with h | ⟨shut, hx⟩
    · exact absurd h (by simp [hopen])
    · refine hm.deserted_of_created ((hm.orderly p).emptied (.inl ?_))
      obtain ⟨rest, hrest, -⟩ := exists_rest hk
      show 0 < (m.stake p).shutters
      rw [hrest p, hx, Stake.shutters_add]
      simp only [Point.stake, ClosePoint.stake, if_true]
      exact Nat.add_pos_left Nat.one_pos _
  | @enter o permits =>
    have hp : p < m.world.pools.length := closing_enter hclosing
    rw [show (m.begin o).world = (o.enter m.world).world from rfl, pool_enter _ _ hp] at hclosed
    exact absurd hclosed (by simp [hopen])
  | @aside _ w befalls =>
    have hpool : w.pool p = m.world.pool p := by simp [World.pool, befalls.pools]
    exact absurd (hpool ▸ hclosed) (by simp [hopen])

/-! ## Calling on a closed pool -/

/-- What becomes of those who call on a closed pool. -/
structure Defunct (m : Machine) (p : PoolKey) : Prop where
  /-- It lends nothing. -/
  closing : (m.world.pool p).closing = true
  /-- Nothing is left in it. -/
  deserted : m.Deserted p
  /-- It takes no client back and shares none. -/
  foreign : ∀ k call c leased, m.call? k = some call →
    call.point = .addReference p c leased ∨ call.point = .release p c leased →
      m.world.crashed = false → ∃ f : Fault, f.kind = .misuse ∧ m.Ends k (.error f)
  /-- It has been closed already. -/
  closed : ∀ k call, m.call? k = some call →
    call.point = .close p .entering ∨ call.point = .close p (.attending true) →
      m.world.crashed = false → m.Ends k (.ok .done)
  /-- Nobody opens a session for it. -/
  unopened : ∀ k call, m.call? k = some call → call.point.request? ≠ some (.openSession p)

theorem Reachable.defunct (hm : m.Reachable) (hclosed : (m.world.pool p).closed = true) :
    m.Defunct p where
  closing := (hm.orderly p).closing (.inr hclosed)
  deserted := hm.deserted_of_closed hclosed
  foreign := by
    intro k call c leased hk hx hcrashed
    have hmem : c ∉ (m.world.pool p).members := by
      rw [(hm.deserted_of_closed hclosed).members]
      exact List.not_mem_nil
    refine ⟨.foreign (m.world.client c).id, rfl, ends_of_turn hcrashed hk ?_⟩
    obtain ⟨x, sequel, notices⟩ := call
    rcases hx with hx | hx
    · obtain rfl : x = _ := hx
      simp [Machine.turn, Share.step, hmem]
    · obtain rfl : x = _ := hx
      simp [Machine.turn, Release.step, hmem]
  closed := by
    intro k call hk hx hcrashed
    have hclosing : (m.world.pool p).closing = true := (hm.orderly p).closing (.inr hclosed)
    refine ends_of_turn hcrashed hk ?_
    obtain ⟨x, sequel, notices⟩ := call
    rcases hx with hx | hx
    · obtain rfl : x = _ := hx
      simp [Machine.turn, Close.step, Close.enter, Close.attend, hclosing, hclosed]
    · obtain rfl : x = _ := hx
      simp [Machine.turn, Close.step, Close.attend, hclosed]
  unopened := by
    intro k call hk hrequest
    have hnone := (hm.deserted_of_closed hclosed).creations
    have hpos : 0 < m.creations p :=
      List.countP_pos_iff.mpr ⟨call, List.mem_of_getElem? hk, Point.creates_of_request hrequest⟩
    omega

/-- In a closed pool every event leaves the clients that were made for it as many as they were. -/
theorem Reachable.own_perform (hm : m.Reachable) (hn : m.perform e = some n)
    (hclosed : (m.world.pool p).closed = true) : n.world.own p = m.world.own p := by
  have hkeeps : (n.books p).Orderly ∧ (n.books p).pool.closed = true ∧
      (n.books p).own = m.world.own p := by
    refine hm.sound.books_perform (I := fun b => b.Orderly ∧ b.pool.closed = true ∧
      b.own = m.world.own p) hn (fun _ _ => trivial) ?_
      ⟨hm.orderly p, hclosed, rfl⟩
    rintro b b' hs hn ⟨ho, hc, hown⟩ e
    exact ⟨ho.entry hs hn e, Books.closed_entry e hc, (Books.own_entry hn ho hc e).trans hown⟩
  exact hkeeps.2.2

/-! ## For good -/

/-- What holds in `n`, after the pool has been closing since `m` at least. -/
structure Barred (m n : Machine) (p : PoolKey) : Prop where
  /-- The pool is closing still. -/
  closing : (n.world.pool p).closing = true
  /-- It has gained no members. -/
  members : (n.world.pool p).members.Sublist (m.world.pool p).members
  /-- It has gained no idle clients. -/
  idle : (n.world.pool p).idle.Sublist (m.world.pool p).idle
  /-- Whoever wants a client is rejected, whether it has just begun, has been asleep, or is waiting
  for a session. -/
  rejected : ∀ k call u leased s, n.call? k = some call → call.point = .acquire p u leased s →
    ∀ es l, n.run es = some l →
      l.Rejected k ((∃ f, s = .refused f) ∨ ∃ e ∈ es, e.Refuses k)
        (es.countP (Event.isTurnOf k))
  /-- Whoever is about to ping the idle clients is told that the pool is closed. -/
  unpinged : ∀ k call, n.call? k = some call → call.point = .keepAlive p .draining →
    n.world.crashed = false → n.Ends k (.error (.poolClosed (n.world.pool p).address))

/-- A pool that is closing closes for good. -/
structure ClosesForGood (m : Machine) (p : PoolKey) : Prop where
  /-- It is closing from now on and lends nothing any more. -/
  barred : (m.world.pool p).closing = true → ∀ es n, m.run es = some n → m.Barred n p
  /-- It is marked as closed only when nothing is left in it. -/
  deserted : ∀ e n, m.perform e = some n → (m.world.pool p).closed = false →
    (n.world.pool p).closed = true → m.Deserted p
  /-- When it is closed it stays so, and no client is ever made for it again. -/
  defunct : (m.world.pool p).closed = true → ∀ es n, m.run es = some n →
    (n.world.pool p).closed = true ∧ n.world.own p = m.world.own p ∧ n.Defunct p

/-- A ping of a pool that is closing ends at once. -/
theorem ends_of_draining (hclosing : (m.world.pool p).closing = true)
    (hk : m.call? k = some call) (hx : call.point = .keepAlive p .draining)
    (hcrashed : m.world.crashed = false) :
    m.Ends k (.error (.poolClosed (m.world.pool p).address)) := by
  refine ends_of_turn hcrashed hk ?_
  obtain ⟨x, sequel, notices⟩ := call
  obtain rfl : x = _ := hx
  simp [Machine.turn, KeepAlive.step, KeepAlive.drain, hclosing]

/-- Every run leaves a pool closing. -/
theorem Reachable.barred (hm : m.Reachable) (hclosing : (m.world.pool p).closing = true)
    {es : List Event} (hn : m.run es = some n) : m.Barred n p := by
  have hshrinks : (n.world.pool p).closing = true ∧
      (n.world.pool p).members.Sublist (m.world.pool p).members ∧
        (n.world.pool p).idle.Sublist (m.world.pool p).idle := by
    refine run_induct (P := fun n => (n.world.pool p).closing = true ∧
      (n.world.pool p).members.Sublist (m.world.pool p).members ∧
        (n.world.pool p).idle.Sublist (m.world.pool p).idle)
      hm ⟨hclosing, List.Sublist.refl _, List.Sublist.refl _⟩ ?_ hn
    rintro l n e hl ⟨hc, hmembers, hidle⟩ hn
    obtain ⟨hc', hmembers', hidle'⟩ := hl.shrinks hn hc
    exact ⟨hc', hmembers'.trans hmembers, hidle'.trans hidle⟩
  obtain ⟨hclosing', hmembers, hidle⟩ := hshrinks
  exact ⟨hclosing', hmembers, hidle, fun k call u leased s hk hx es l hl =>
    (hm.run hn).rejected hclosing' hk hx hl, fun k call hk hx => ends_of_draining hclosing' hk hx⟩

/-- Every run leaves a pool closed. -/
theorem Reachable.closed_run (hm : m.Reachable) (hclosed : (m.world.pool p).closed = true)
    {es : List Event} (hn : m.run es = some n) :
    (n.world.pool p).closed = true ∧ n.world.own p = m.world.own p := by
  refine run_induct (P := fun n => (n.world.pool p).closed = true ∧
    n.world.own p = m.world.own p) hm ⟨hclosed, rfl⟩ ?_ hn
  rintro l n e hl ⟨hc, hown⟩ hn
  exact ⟨hl.closed_perform hn hc, (hl.own_perform hn hc).trans hown⟩

/-- In every run a pool that is closing is so for good. -/
theorem closing_is_final (hm : m.Reachable) (p : PoolKey) : m.ClosesForGood p where
  barred hclosing _ _ hn := hm.barred hclosing hn
  deserted _ _ hn hopen hclosed := hm.deserted_of_sealed hn hopen hclosed
  defunct hclosed _ _ hn := by
    obtain ⟨hclosed', hown⟩ := hm.closed_run hclosed hn
    exact ⟨hclosed', hown, (hm.run hn).defunct hclosed'⟩

/-- A run in which a pool begins to close while a session is being opened for a caller. -/
def closingMeanwhile : List Event :=
  [.begin (.construct {} { maxClients := 1 } true .standard), .advance 0 0,
    .begin (.acquire 0 0), .advance 1 0, .begin (.close 0), .advance 2 0]

/-- How it goes on: the session comes too late, the pool is closed, and the client is sent off. -/
def closedAfterwards : List Event :=
  [.answer 1 (.opened (.session true)), .advance 1 0, .advance 2 0, .advance 2 0, .advance 2 0,
    .advance 1 0, .answer 1 (.disconnected .done), .advance 1 0, .advance 1 0, .advance 1 0]

/-- The caller has been told that the pool is closed. -/
theorem closing_is_final_afterwards : ∃ m n : Machine, run {} closingMeanwhile = some m ∧
    (m.world.pool 0).closing = true ∧ (m.world.pool 0).closed = false ∧ m.ClosesForGood 0 ∧
    m.run closedAfterwards = some n ∧ (n.world.pool 0).closed = true ∧
    (n.call? 1).bind Call.outcome? = some (.error (.poolClosed (m.world.pool 0).address)) ∧
    n.ClosesForGood 0 :=
  ⟨_, _, rfl, rfl, rfl, closing_is_final ⟨closingMeanwhile, rfl⟩ 0, rfl, rfl, rfl,
    closing_is_final ⟨closingMeanwhile ++ closedAfterwards, rfl⟩ 0⟩

end Machine
end SessionPool
