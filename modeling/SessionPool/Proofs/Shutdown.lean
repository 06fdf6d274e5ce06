import SessionPool.Proofs.Custody

/-!
# What a closed pool leaves behind

A call that closes a pool waits until nothing is outstanding and disconnects all members.  A client
that is discarded is not outstanding any more, from the moment on in which it leaves the pool; it is
disconnected later, without the lock.  The closing does not wait for that.

* `Machine.disconnected_iff_of_closed`: in a closed pool nothing is connected but what calls have
  discarded and not disconnected yet.
* `Machine.not_disconnected_of_closed`: a pool can be closed while a client of it is connected.
-/

namespace SessionPool

/-- Only a call that is about to mark a pool as closed has clients of it to disconnect. -/
theorem Point.shutting_stake {x : Point} {p : PoolKey} (h : (x.stake p).shutters = 0) :
    (x.stake p).shutting = 0 := by
  cases x with
  | stock q left s => cases s <;> simp [stake, StockPoint.stake, apply_ite Stake.shutting]
  | acquire q t leased s => cases s <;> simp [stake, AcquirePoint.stake, apply_ite Stake.shutting]
  | keepAlive q s => simp [stake, apply_ite Stake.shutting]
  | close q s => cases s <;> simp [stake, ClosePoint.stake, apply_ite Stake.shutting]
  | farewell rite waiting todo next =>
    cases rite <;> cases next <;> simp_all [stake, apply_ite Stake.shutters]
  | _ => rfl

namespace Machine

variable {m n : Machine} {p : PoolKey} {c : ClientKey}

theorem shutting_stakeOf {calls : List Call} (h : (stakeOf calls p).shutters = 0) :
    (stakeOf calls p).shutting = 0 := by
  induction calls with
  | nil => rfl
  | cons k calls ih =>
    rw [stakeOf_cons, Stake.shutters_add, Nat.add_eq_zero_iff] at h
    rw [stakeOf_cons, Stake.shutting_add, Point.shutting_stake h.1, ih h.2, add_zero]

/-- A closed pool has no members, and nobody creates or disconnects any. -/
theorem Reachable.of_closed (hm : m.Reachable) (hclosed : (m.world.pool p).closed = true) :
    (m.world.pool p).members = [] ∧ (m.stake p).arrived = 0 ∧ (m.stake p).shutting = 0 := by
  have ho := hm.orderly p
  have hcreated : (m.world.pool p).created.toNat = 0 := ho.emptied (.inr hclosed)
  have hslots := hm.sound.toNat_created p
  have hshutters : (m.stake p).shutters = 0 := (ho.ended hclosed).2
  refine ⟨?_, ?_, shutting_stakeOf hshutters⟩
  · refine List.eq_nil_of_length_eq_zero ?_
    exact Nat.eq_zero_of_add_eq_zero_right (hslots.symm.trans hcreated)
  · exact Stake.arrived_eq_zero (Nat.eq_zero_of_add_eq_zero_left (hslots.symm.trans hcreated))

/-- A docile client of a closed pool that is connected has been discarded by a call that is still in
progress. -/
theorem Docile.mem_discards_of_closed (h : m.Docile c)
    (hclosed : (m.world.pool p).closed = true) (hc : c ∈ m.world.own p)
    (hs : (m.world.client c).session.connected = true) : c ∈ m.discards := by
  obtain ⟨hmembers, harrived, hshutting⟩ := h.reachable.of_closed hclosed
  have hattended : c ∈ (m.books p).attended :=
    h.attended p hc (by rwa [Machine.books, World.books_client _ hc])
  rw [Books.mem_attended] at hattended
  rcases hattended with (hc' | hc') | (hc' | hc')
  · exact absurd (hmembers ▸ hc') List.not_mem_nil
  · exact absurd (harrived ▸ hc') (Multiset.notMem_zero c)
  · exact (mem_discards_books hc).mp hc'
  · exact absurd (hshutting ▸ hc') (Multiset.notMem_zero c)

/-- A pool that is closed stays closed. -/
theorem Reachable.closed_perform (hm : m.Reachable) {e : Event} (hn : m.perform e = some n)
    (hclosed : (m.world.pool p).closed = true) : (n.world.pool p).closed = true :=
  hm.sound.books_perform (I := fun b => b.pool.closed = true) hn
    (fun _ _ => trivial) (fun _ _ _ _ h e => Books.closed_entry e h) hclosed

/-- In a closed pool nothing is connected exactly if no call in progress still has to disconnect a
client that it has discarded.  Clients whose disconnection fails are left out of account. -/
theorem disconnected_iff_of_closed (hclosed : (m.world.pool p).closed = true) :
    (∀ c ∈ m.world.own p, m.Docile c → (m.world.client c).session.connected = false) ↔
      ∀ c ∈ m.discards, c ∈ m.world.own p → m.Docile c →
        (m.world.client c).session.connected = false := by
  constructor
  · exact fun h c _ hown hdocile => h c hown hdocile
  · intro h c hown hdocile
    by_contra hs
    rw [Bool.not_eq_false] at hs
    have hdiscards : c ∈ m.discards := hdocile.mem_discards_of_closed hclosed hown hs
    exact absurd ((h c hdiscards hown hdocile).symm.trans hs) Bool.false_ne_true

/-- A run in which a pool is closed while a broken client of it is being disconnected. -/
def closedEarly : List Event :=
  [.begin (.construct {} { maxClients := 1 } true .standard), .advance 0 0,
    .begin (.acquire 0 0), .advance 1 0, .answer 1 (.opened (.session true)), .advance 1 0,
    .breakDown 0, .begin (.release 0 0), .advance 2 0, .advance 2 0,
    .begin (.close 0), .advance 3 0, .advance 3 0, .advance 3 0, .advance 3 0, .advance 3 0]

/-- As soon as it has been disconnected nothing is connected. -/
theorem disconnected_iff_of_closed_afterwards : ∃ m n : Machine,
    run {} closedEarly = some m ∧ (m.world.pool 0).closed = true ∧ m.discards = [0] ∧
    m.perform (.answer 2 (.disconnected .done)) = some n ∧ (n.world.pool 0).closed = true ∧
    ∀ c ∈ n.world.own 0, n.Docile c → (n.world.client c).session.connected = false :=
  ⟨_, _, rfl, rfl, rfl, rfl, rfl,
    (disconnected_iff_of_closed rfl).mpr fun _ hc => absurd hc List.not_mem_nil⟩

/-- A pool can be closed, and the call that has closed it be over, while a client of it is connected
whose disconnection has not failed. -/
theorem not_disconnected_of_closed : ¬ ∀ (m : Machine) (p : PoolKey) (c : ClientKey),
    m.Reachable → (m.world.pool p).closed = true → c ∈ m.world.own p → m.Docile c →
      (m.world.client c).session.connected = false := by
  intro h
  have hfalse := h _ 0 0 ⟨closedEarly, rfl⟩ rfl (World.mem_own_of_home rfl) ⟨closedEarly, rfl⟩
  exact Bool.noConfusion (hfalse : true = false)

end Machine
end SessionPool
