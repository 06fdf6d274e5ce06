import SessionPool.Proofs.Books

/-!
# The books balance

Two things hold of the books of a pool whatever happens to it, mishaps included.

* `Books.Seated`: every client has at most one place.  The members and the clients that have just
  arrived are different clients of the pool; those that are idle or taken out to be pinged are
  different members, and nobody has a reference to them.
* `Books.Counted`: the counters agree with the lists.  There is a slot for each member and for each
  client that is being created, all slots that are not idle are outstanding, and there are at most
  as many slots as the pool may have.

Every entry keeps both, and neither can be kept without the other: a closing pool may take out all
its members only because nothing is outstanding, and a counter may be lowered only because there is
a client that stands for it.
-/

namespace SessionPool

/-! ## Counting in words -/

theorem toNat_add_one {x y : UInt64} (h : x.toNat < y.toNat) :
    (x + 1).toNat = x.toNat + 1 := by
  have := y.toNat_lt
  rw [UInt64.toNat_add, UInt64.toNat_one, Nat.mod_eq_of_lt (by omega)]

theorem toNat_sub_one {x : UInt64} (h : 0 < x.toNat) : (x - 1).toNat = x.toNat - 1 := by
  have hle : 1 ≤ x := UInt64.le_iff_toNat_le.mpr (by rwa [UInt64.toNat_one])
  rw [UInt64.toNat_sub_of_le _ _ hle, UInt64.toNat_one]

namespace Books

/-- Every client has at most one place. -/
structure Seated (b : Books) : Prop where
  owned : ∀ c ∈ b.seated, c ∈ b.own
  nodup : b.seated.Nodup
  free_le : b.free ≤ (b.pool.members : Multiset ClientKey)
  free_unreferenced : ∀ c ∈ b.free, (b.client c).references = 0
  arrived_unreferenced : ∀ c ∈ b.stake.arrived, (b.client c).references = 0

/-- The counters agree with the lists. -/
structure Counted (b : Books) : Prop where
  created : b.pool.created.toNat = b.pool.members.length + b.stake.creations
  outstanding : b.pool.created.toNat = b.pool.idle.length + b.pool.outstanding.toNat
  bound : b.pool.created.toNat + b.stake.budget ≤ b.pool.limits.maxClients.toNat
  waiting : b.pool.waiting = UInt64.ofNat b.stake.waiters

variable {b b' : Books} {bad : Mishap → Prop} {c : ClientKey}

@[simp] theorem hold_free (s : Stake) : (b.hold s).free = s.drained + b.free := by
  simp only [free, hold_pool, hold_stake, Stake.drained_add]
  exact add_left_comm _ _ _

@[simp] theorem hold_seated (s : Stake) : (b.hold s).seated = s.arrived + b.seated := by
  simp only [seated, hold_pool, hold_stake, Stake.arrived_add]
  exact add_left_comm _ _ _

@[simp] theorem onClient_free (f : Client → Client) : (b.onClient c f).free = b.free := rfl

theorem Seated.mem_own_of_mem (h : b.Seated) (hc : c ∈ b.pool.members) : c ∈ b.own :=
  h.owned c (Multiset.mem_add.mpr (.inl hc))

theorem Seated.mem_of_mem_free (h : b.Seated) (hc : c ∈ b.free) : c ∈ b.pool.members :=
  Multiset.subset_of_le h.free_le hc

theorem Seated.nodup_members (h : b.Seated) : b.pool.members.Nodup :=
  Multiset.coe_nodup.mp (Multiset.nodup_of_le (Multiset.le_add_right _ _) h.nodup)

theorem Seated.nodup_free (h : b.Seated) : b.free.Nodup :=
  Multiset.nodup_of_le h.free_le (Multiset.coe_nodup.mpr h.nodup_members)

/-- A client that someone has a reference to is not free. -/
theorem Seated.notMem_free (h : b.Seated) (hc : (b.client c).references ≠ 0) : c ∉ b.free :=
  fun hf => hc (h.free_unreferenced c hf)

/-- The free clients are members still when a member has left that is not free. -/
theorem Seated.free_le_erase (h : b.Seated) (hc : c ∉ b.free) :
    b.free ≤ (b.pool.members.erase c : Multiset ClientKey) := by
  rw [← Multiset.coe_erase, ← Multiset.erase_of_notMem hc]
  exact Multiset.erase_le_erase c h.free_le

/-- There are fewer free clients than members when a member is not free. -/
theorem Seated.length_idle_lt (h : b.Seated) (hc : c ∈ b.pool.members) (hf : c ∉ b.free) :
    b.pool.idle.length < b.pool.members.length := by
  have hle := Multiset.card_le_card (h.free_le_erase hf)
  simp only [free, Multiset.card_add, Multiset.coe_card, List.length_erase_of_mem hc] at hle
  have hpos := List.length_pos_of_mem hc
  omega

theorem Seated.length_idle_le (h : b.Seated) : b.pool.idle.length ≤ b.pool.members.length := by
  have hle := Multiset.card_le_card h.free_le
  simp only [free, Multiset.card_add, Multiset.coe_card] at hle
  omega

/-- When nothing is outstanding, all members are idle and nothing is held. -/
theorem Seated.settled (h : b.Seated) (hn : b.Counted) (hout : b.pool.outstanding = 0) :
    (b.pool.idle : Multiset ClientKey) = b.pool.members ∧ b.stake.drained = 0 ∧
      b.stake.creations = 0 := by
  have hcard := Multiset.card_le_card h.free_le
  have h1 := hn.created
  have h2 := hn.outstanding
  simp only [free, Multiset.card_add, Multiset.coe_card] at hcard
  rw [hout, UInt64.toNat_zero] at h2
  have hd : b.stake.drained = 0 := Multiset.card_eq_zero.mp (by omega)
  refine ⟨Multiset.eq_of_le_of_card_le ?_ ?_, hd, by omega⟩
  · simpa [free, hd] using h.free_le
  · rw [Multiset.coe_card, Multiset.coe_card]
    omega

/-! ## Places -/

/-- Entries that change neither places nor the references of free clients keep every client in its
place. -/
theorem Seated.of_eq (h : b.Seated) (hown : b.own ⊆ b'.own) (hseated : b'.seated = b.seated)
    (hfree : b'.free = b.free) (hmembers : b'.pool.members = b.pool.members)
    (harrived : b'.stake.arrived = b.stake.arrived)
    (hrefs : ∀ c ∈ b.free + b.stake.arrived, (b.client c).references = 0 →
      (b'.client c).references = 0) : b'.Seated where
  owned c hc := hown (h.owned c (hseated ▸ hc))
  nodup := hseated ▸ h.nodup
  free_le := by rw [hfree, hmembers]; exact h.free_le
  free_unreferenced c hc := by
    rw [hfree] at hc
    exact hrefs c (Multiset.mem_add.mpr (.inl hc)) (h.free_unreferenced c hc)
  arrived_unreferenced c hc := by
    rw [harrived] at hc
    exact hrefs c (Multiset.mem_add.mpr (.inr hc)) (h.arrived_unreferenced c hc)

/-- A change of the references of a client that is lent leaves all others in their places. -/
theorem Seated.onClient_lent (h : b.Seated) (hc : (b.client c).references ≠ 0)
    (f : Client → Client) : (b.onClient c f).Seated := by
  refine h.of_eq (Finset.Subset.refl _) rfl rfl rfl rfl fun d _ hd => ?_
  have hne : d ≠ c := fun he => hc (he ▸ hd)
  simpa [Function.update_of_ne hne] using hd

/-- A new client takes a place of its own. -/
theorem Seated.arrive (h : b.Seated) {k : Client} (fresh : c ∉ b.own) (hk : k.references = 0)
    (f : Pool → Pool) (hf : (f b.pool).members = b.pool.members ∧ (f b.pool).idle = b.pool.idle) :
    (((b.welcome c k).onPool f).hold { arrived := {c} }).Seated := by
  have hseated : ((b.welcome c k).onPool f).seated = b.seated := by simp [seated, hf.1]
  have hfree : ((b.welcome c k).onPool f).free = b.free := by simp [free, hf.2]
  have hnew : c ∉ b.seated := fun hc => fresh (h.owned c hc)
  have hrefs : ∀ d, (b.client d).references = 0 →
      (Function.update b.client c k d).references = 0 := by
    intro d hd
    by_cases hc : d = c
    · rw [hc, Function.update_self, hk]
    · rwa [Function.update_of_ne hc]
  constructor
  · intro d hd
    rw [hold_seated, hseated, Multiset.mem_add, Multiset.mem_singleton] at hd
    rw [hold_own, onPool_own, welcome_own, Finset.mem_insert]
    exact hd.imp_right (h.owned d)
  · rw [hold_seated, hseated, Multiset.singleton_add]
    exact Multiset.nodup_cons.mpr ⟨hnew, h.nodup⟩
  · rw [hold_free, hfree, zero_add]
    simpa [hf.1] using h.free_le
  · intro d hd
    rw [hold_free, hfree, zero_add] at hd
    exact hrefs d (h.free_unreferenced d hd)
  · intro d hd
    rw [hold_stake, Stake.arrived_add, Multiset.mem_add, Multiset.mem_singleton] at hd
    rcases hd with rfl | hd
    · simpa using hk
    · exact hrefs d (h.arrived_unreferenced d hd)

/-- A new client becomes a member. -/
theorem Seated.enroll (h : (b.hold { arrived := {c} }).Seated) :
    ((b.onPool fun p => p.enroll c).onClient c Client.lend).Seated := by
  have hnodup := h.nodup
  rw [hold_seated, Multiset.singleton_add, Multiset.nodup_cons] at hnodup
  have hne : ∀ d ∈ b.seated, d ≠ c := fun d hd hdc => hnodup.1 (hdc ▸ hd)
  have hseated : ((b.onPool fun p => p.enroll c).onClient c Client.lend).seated =
      {c} + b.seated := by
    simp only [seated, Pool.enroll, onClient_pool, onPool_pool, onClient_stake, onPool_stake]
    rw [← Multiset.coe_add, Multiset.coe_singleton, add_comm (b.pool.members : Multiset ClientKey),
      add_assoc]
  have hfree := h.free_le
  rw [hold_free, zero_add] at hfree
  constructor
  · rw [hseated]
    simpa using h.owned
  · rw [hseated]
    simpa using h.nodup
  · refine hfree.trans ?_
    simp [Pool.enroll, ← Multiset.coe_add]
  · intro d hd
    have hd' : d ∈ b.free := hd
    have hmem : d ∈ b.seated := Multiset.mem_add.mpr (.inl (Multiset.subset_of_le hfree hd'))
    rw [onClient_client, Function.update_of_ne (hne d hmem)]
    exact h.free_unreferenced d (by simpa using hd')
  · intro d hd
    have hmem : d ∈ b.seated := Multiset.mem_add.mpr (.inr hd)
    rw [onClient_client, Function.update_of_ne (hne d hmem)]
    exact h.arrived_unreferenced d (Multiset.mem_add.mpr (.inr hd))

/-- A new client becomes a member and is idle. -/
theorem Seated.enrollIdle (h : (b.hold { arrived := {c} }).Seated) :
    ((b.onPool fun p => p.enrollIdle c).onClient c fun k => { k with state := .idle }).Seated := by
  have hseated : ((b.onPool fun p => p.enrollIdle c).onClient c
      fun k => { k with state := .idle }).seated = {c} + b.seated := by
    simp only [seated, Pool.enrollIdle, onClient_pool, onPool_pool, onClient_stake, onPool_stake]
    rw [← Multiset.coe_add, Multiset.coe_singleton, add_comm (b.pool.members : Multiset ClientKey),
      add_assoc]
  have hfree : ((b.onPool fun p => p.enrollIdle c).onClient c
      fun k => { k with state := .idle }).free = {c} + b.free := by
    simp only [free, Pool.enrollIdle, onClient_pool, onPool_pool, onClient_stake, onPool_stake]
    rw [← Multiset.coe_add, Multiset.coe_singleton, add_comm (b.pool.idle : Multiset ClientKey),
      add_assoc]
  have hrefs : ∀ d, (Function.update b.client c { b.client c with state := .idle } d).references =
      (b.client d).references := by
    intro d
    by_cases hd : d = c
    · rw [hd, Function.update_self]
    · rw [Function.update_of_ne hd]
  constructor
  · rw [hseated]
    simpa using h.owned
  · rw [hseated]
    simpa using h.nodup
  · have hle := h.free_le
    rw [hold_free, zero_add] at hle
    rw [hfree, onClient_pool, onPool_pool, Pool.enrollIdle, ← Multiset.coe_add,
      Multiset.coe_singleton, add_comm]
    exact add_le_add_left hle _
  · intro d hd
    rw [hfree, Multiset.mem_add, Multiset.mem_singleton] at hd
    rw [onClient_client, onPool_client, hrefs]
    rcases hd with rfl | hd
    · exact h.arrived_unreferenced d (by simp)
    · exact h.free_unreferenced d (by simpa using hd)
  · intro d hd
    rw [onClient_client, onPool_client, hrefs]
    exact h.arrived_unreferenced d (Multiset.mem_add.mpr (.inr hd))

/-- The first idle client is lent. -/
theorem Seated.lend (h : b.Seated) {rest : List ClientKey} (front : b.pool.idle = c :: rest) :
    ((b.onPool fun p => p.takeIdle rest).onClient c Client.lend).Seated := by
  have hfree : b.free = c ::ₘ ((b.onPool fun p => p.takeIdle rest).free) := by
    simp only [free, front, Pool.takeIdle, onPool_pool, onPool_stake, ← Multiset.cons_coe,
      Multiset.cons_add]
  have hnodup := h.nodup_free
  rw [hfree, Multiset.nodup_cons] at hnodup
  have hmem : c ∈ b.pool.members := h.mem_of_mem_free (by simp [hfree])
  have hle : (b.onPool fun p => p.takeIdle rest).free ≤ b.free := by
    rw [hfree]
    exact Multiset.le_cons_self _ _
  constructor
  · exact h.owned
  · exact h.nodup
  · exact hle.trans h.free_le
  · intro d hd
    have hne : d ≠ c := fun hdc => hnodup.1 (hdc ▸ hd)
    rw [onClient_client, Function.update_of_ne hne]
    exact h.free_unreferenced d (Multiset.subset_of_le hle hd)
  · intro d hd
    have hne : d ≠ c := by
      rintro rfl
      exact Multiset.disjoint_left.mp (Multiset.nodup_add.mp h.nodup).2.2 hmem hd
    rw [onClient_client, Function.update_of_ne hne]
    exact h.arrived_unreferenced d hd

/-- A client that was lent is idle again. -/
theorem Seated.giveBack (h : b.Seated) (mem : c ∈ b.pool.members)
    (last : (b.client c).references = 1) :
    ((b.onPool fun p => p.giveBack.pushIdle c).onClient c
      fun k => { k with references := 0, state := .idle }).Seated := by
  have hc : c ∉ b.free := h.notMem_free (by rw [last]; decide)
  have hfree : (b.onPool fun p => p.giveBack.pushIdle c).free = c ::ₘ b.free := by
    simp only [free, Pool.giveBack, Pool.pushIdle, onPool_pool, onPool_stake]
    rw [← Multiset.coe_add, Multiset.coe_singleton, add_comm (b.pool.idle : Multiset ClientKey),
      add_assoc, Multiset.singleton_add]
  have hrefs : ∀ d, (b.client d).references = 0 → (Function.update b.client c
      { b.client c with references := 0, state := .idle } d).references = 0 := by
    intro d hd
    by_cases hdc : d = c
    · rw [hdc, Function.update_self]
    · rwa [Function.update_of_ne hdc]
  constructor
  · exact h.owned
  · exact h.nodup
  · rw [onClient_free, hfree]
    exact (Multiset.cons_le_of_notMem hc).mpr ⟨mem, h.free_le⟩
  · intro d hd
    rw [onClient_free, hfree, Multiset.mem_cons] at hd
    rcases hd with rfl | hd
    · simp
    · exact hrefs d (h.free_unreferenced d hd)
  · intro d hd
    exact hrefs d (h.arrived_unreferenced d hd)

/-- A member that is not free leaves. -/
theorem Seated.detach (h : b.Seated) (hc : c ∉ b.free) :
    (b.onPool fun p => p.giveBack.detach c).Seated where
  owned d hd := by
    refine h.owned d (Multiset.subset_of_le (add_le_add_left ?_ _) hd)
    exact Multiset.coe_le.mpr (List.erase_subperm _ _)
  nodup := by
    refine Multiset.nodup_of_le (add_le_add_left ?_ _) h.nodup
    exact Multiset.coe_le.mpr (List.erase_subperm _ _)
  free_le := h.free_le_erase hc
  free_unreferenced := h.free_unreferenced
  arrived_unreferenced := h.arrived_unreferenced

/-- A client that was pinged leaves. -/
theorem Seated.remove (h : (b.hold { drained := {c} }).Seated) :
    (b.onPool fun p => p.giveBack.detach c).Seated := by
  have hnodup := h.nodup_free
  have hle := h.free_le
  rw [hold_free, Multiset.singleton_add] at hnodup hle
  refine Seated.detach (b := b) ⟨?_, ?_, ?_, ?_, ?_⟩ (Multiset.nodup_cons.mp hnodup).1
  · simpa using h.owned
  · simpa using h.nodup
  · exact (Multiset.le_cons_self _ _).trans hle
  · intro d hd
    exact h.free_unreferenced d (by simp [hd])
  · intro d hd
    exact h.arrived_unreferenced d (by simp [hd])

/-- All members leave when no client is out. -/
theorem seated_takeAll (harrived : b.stake.arrived = 0) (hdrained : b.stake.drained = 0) :
    (b.onPool Pool.empty).Seated := by
  have hseated : (b.onPool Pool.empty).seated = 0 := by simp [seated, Pool.empty, harrived]
  have hfree : (b.onPool Pool.empty).free = 0 := by simp [free, Pool.empty, hdrained]
  constructor
  · simp [hseated]
  · simp [hseated]
  · rw [hfree]
    exact Multiset.zero_le _
  · simp [hfree]
  · simp [harrived]

/-- Holding something that is no client changes no places. -/
theorem Seated.hold_iff {s : Stake} (harrived : s.arrived = 0) (hdrained : s.drained = 0) :
    (b.hold s).Seated ↔ b.Seated := by
  constructor
  all_goals
    intro h
    refine h.of_eq (Finset.Subset.refl _) ?_ ?_ rfl ?_ fun _ _ h => h
    all_goals simp [harrived, hdrained]

/-- A change of the record that is none of the lists changes no places. -/
theorem Seated.onPool (h : b.Seated) {f : Pool → Pool}
    (hmembers : (f b.pool).members = b.pool.members) (hidle : (f b.pool).idle = b.pool.idle) :
    (b.onPool f).Seated := by
  refine h.of_eq (Finset.Subset.refl _) ?_ ?_ hmembers rfl fun _ _ h => h
  · simp [seated, hmembers]
  · simp [free, hidle]

/-- A change of a client that is none of its references changes no places. -/
theorem Seated.onClient (h : b.Seated) {f : Client → Client}
    (hf : (f (b.client c)).references = (b.client c).references) : (b.onClient c f).Seated := by
  refine h.of_eq (Finset.Subset.refl _) rfl rfl rfl rfl fun d _ hd => ?_
  by_cases hdc : d = c
  · subst hdc
    simpa [hf] using hd
  · simpa [Function.update_of_ne hdc] using hd

/-- Every entry keeps every client in at most one place. -/
theorem Seated.entry (h : b.Seated) (hn : b.Counted) (e : Entry bad b b') : b'.Seated := by
  cases e with
  | found connection limits dialect vacant unstocked =>
    refine (Seated.hold_iff rfl rfl).mpr (h.onPool ?_ ?_)
    · rw [vacant]; rfl
    · rw [vacant]; rfl
  | reserveFirst n =>
    exact (Seated.hold_iff rfl rfl).mpr (((Seated.hold_iff rfl rfl).mp h).onPool rfl rfl)
  | forgo n => exact (Seated.hold_iff rfl rfl).mp h
  | reserve unstocked isOpen room => exact (Seated.hold_iff rfl rfl).mpr (h.onPool rfl rfl)
  | arrive k fresh unreferenced created =>
    exact ((Seated.hold_iff rfl rfl).mp h).arrive fresh unreferenced _ ⟨rfl, rfl⟩
  | refuse => exact (Seated.hold_iff rfl rfl).mpr ((Seated.hold_iff rfl rfl).mp h)
  | unreserve => exact ((Seated.hold_iff rfl rfl).mp h).onPool rfl rfl
  | dismiss closing =>
    refine (Seated.hold_iff rfl rfl).mpr (Seated.onPool ⟨?_, ?_, ?_, ?_, ?_⟩ rfl rfl)
    · intro d hd
      exact h.owned d (by simp [hd])
    · have hnodup := h.nodup
      rw [hold_seated, Multiset.singleton_add, Multiset.nodup_cons] at hnodup
      exact hnodup.2
    · simpa using h.free_le
    · simpa using h.free_unreferenced
    · intro d hd
      exact h.arrived_unreferenced d (by simp [hd])
  | enroll isOpen => exact h.enroll
  | enrollIdle => exact h.enrollIdle
  | lend isOpen front => exact h.lend front
  | share mem lent countable => exact h.onClient_lent lent _
  | overflow mishap mem full => exact h.onClient_lent (by rw [full]; decide) _
  | drop mem lent more => exact h.onClient_lent lent _
  | giveBack mem last isOpen whole => exact h.giveBack mem last
  | discard mem last cause =>
    refine (Seated.hold_iff rfl rfl).mpr (Seated.onClient_lent ?_ (by simp [last]) _)
    exact h.detach (h.notMem_free (by rw [last]; decide))
  | wait => exact (Seated.hold_iff rfl rfl).mpr (h.onPool rfl rfl)
  | rise => exact ((Seated.hold_iff rfl rfl).mp h).onPool rfl rfl
  | drain isOpen =>
    refine h.of_eq (Finset.Subset.refl _) ?_ ?_ rfl ?_ fun _ _ h => h
    all_goals simp [seated, free, Pool.drain]
  | restore isOpen whole =>
    refine h.of_eq (Finset.Subset.refl _) ?_ ?_ rfl ?_ fun _ _ h => h
    · simp [seated, Pool.giveBack, Pool.pushIdle]
    · simp only [free, Pool.giveBack, Pool.pushIdle, onPool_pool, onPool_stake, hold_pool,
        hold_stake, Stake.drained_add]
      rw [← Multiset.coe_add, Multiset.coe_singleton, add_assoc]
    · simp
  | remove cause => exact (Seated.hold_iff rfl rfl).mpr h.remove
  | takeAll settled =>
    obtain ⟨-, hdrained, hcreations⟩ := h.settled hn settled
    refine (Seated.hold_iff rfl rfl).mpr (seated_takeAll ?_ ?_)
    · simpa using Stake.arrived_eq_zero hcreations
    · simpa using hdrained
  | beginClosing unstocked isOpen => exact (Seated.hold_iff rfl rfl).mpr (h.onPool rfl rfl)
  | markClosed => exact ((Seated.hold_iff rfl rfl).mp h).onPool rfl rfl
  | wear mem worn ended => exact h.onClient worn.references
  | part gone => exact (Seated.hold_iff rfl rfl).mp h
  | shut gone => exact (Seated.hold_iff rfl rfl).mp h
  | tamper s mishap => exact h.onClient rfl
  | revive mem mishap => exact h.onClient rfl

/-! ## Counters -/

/-- Changes of clients do not change what is counted. -/
theorem Counted.of_eq (h : b.Counted) (hpool : b'.pool = b.pool)
    (hcreations : b'.stake.creations = b.stake.creations)
    (hbudget : b'.stake.budget ≤ b.stake.budget)
    (hwaiters : b'.stake.waiters = b.stake.waiters) : b'.Counted where
  created := by rw [hpool, hcreations, h.created]
  outstanding := by rw [hpool, h.outstanding]
  bound := by
    rw [hpool]
    exact (Nat.add_le_add_left hbudget _).trans h.bound
  waiting := by rw [hpool, hwaiters, h.waiting]

/-- What is held in addition and is not counted can be left out. -/
theorem Counted.hold_iff {s : Stake} (hcreations : s.creations = 0) (hbudget : s.budget = 0)
    (hwaiters : s.waiters = 0) : (b.hold s).Counted ↔ b.Counted := by
  constructor
  all_goals
    intro h
    refine h.of_eq rfl ?_ ?_ ?_
    all_goals simp [hcreations, hbudget, hwaiters]

/-- A slot is reserved. -/
theorem Counted.reserve (h : b.Counted)
    (room : b.pool.created.toNat + b.stake.budget < b.pool.limits.maxClients.toNat) :
    ((b.onPool Pool.reserve).hold { openings := 1 }).Counted := by
  have h1 := h.created
  have h2 := h.outstanding
  have hc : (b.pool.created + 1).toNat = b.pool.created.toNat + 1 :=
    toNat_add_one (y := b.pool.limits.maxClients) (by omega)
  have ho : (b.pool.outstanding + 1).toNat = b.pool.outstanding.toNat + 1 :=
    toNat_add_one (y := b.pool.limits.maxClients) (by omega)
  constructor
  · simp [Pool.reserve, Stake.creations, hc] at h1 ⊢
    omega
  · simp only [hold_pool, onPool_pool, Pool.reserve, hc, ho]
    omega
  · simp [Pool.reserve, hc]
    omega
  · simpa [Pool.reserve] using h.waiting

/-- A reserved slot is given back by the call that holds it. -/
theorem Counted.unreserve {s : Stake} (h : (b.hold s).Counted) (hcreations : s.creations = 1)
    (hwaiters : s.waiters = 0) (hidle : b.pool.idle.length ≤ b.pool.members.length) :
    (b.onPool Pool.unreserve).Counted := by
  have h1 := h.created
  have h2 := h.outstanding
  have h3 := h.bound
  simp only [hold_pool, hold_stake, Stake.creations_add, hcreations, Stake.budget_add] at h1 h2 h3
  have hc : (b.pool.created - 1).toNat = b.pool.created.toNat - 1 := toNat_sub_one (by omega)
  have ho : (b.pool.outstanding - 1).toNat = b.pool.outstanding.toNat - 1 :=
    toNat_sub_one (by omega)
  constructor
  · simp only [onPool_pool, onPool_stake, Pool.unreserve, hc]
    omega
  · simp only [onPool_pool, Pool.unreserve, hc, ho]
    omega
  · simp only [onPool_pool, onPool_stake, Pool.unreserve, hc]
    omega
  · simpa [Pool.unreserve, hwaiters] using h.waiting

/-- A member that was out is idle again. -/
theorem Counted.pushIdle (h : b.Counted) (hlt : b.pool.idle.length < b.pool.members.length) :
    (b.onPool fun p => p.giveBack.pushIdle c).Counted := by
  have h1 := h.created
  have h2 := h.outstanding
  have ho : (b.pool.outstanding - 1).toNat = b.pool.outstanding.toNat - 1 :=
    toNat_sub_one (by omega)
  refine ⟨h1, ?_, h.bound, h.waiting⟩
  simp only [onPool_pool, Pool.giveBack, Pool.pushIdle, ho, List.length_append,
    List.length_singleton]
  omega

/-- A member that was out leaves. -/
theorem Counted.detach (h : b.Counted) (mem : c ∈ b.pool.members)
    (hlt : b.pool.idle.length < b.pool.members.length) :
    (b.onPool fun p => p.giveBack.detach c).Counted := by
  have h1 := h.created
  have h2 := h.outstanding
  have h3 := h.bound
  have hc : (b.pool.created - 1).toNat = b.pool.created.toNat - 1 := toNat_sub_one (by omega)
  have ho : (b.pool.outstanding - 1).toNat = b.pool.outstanding.toNat - 1 :=
    toNat_sub_one (by omega)
  constructor
  · simp only [onPool_pool, onPool_stake, Pool.giveBack, Pool.detach, hc,
      List.length_erase_of_mem mem]
    omega
  · simp only [onPool_pool, Pool.giveBack, Pool.detach, hc, ho]
    omega
  · simp only [onPool_pool, onPool_stake, Pool.giveBack, Pool.detach, hc]
    omega
  · exact h.waiting

/-- A new client becomes a member and is idle. -/
theorem Counted.enrollIdle (h : (b.hold { arrived := {c} }).Counted)
    (hidle : b.pool.idle.length ≤ b.pool.members.length) :
    (b.onPool fun p => p.enrollIdle c).Counted := by
  have h1 := h.created
  have h2 := h.outstanding
  simp only [hold_pool, hold_stake, Stake.creations_add] at h1 h2
  have hone : ({ arrived := {c} } : Stake).creations = 1 := rfl
  have ho : (b.pool.outstanding - 1).toNat = b.pool.outstanding.toNat - 1 :=
    toNat_sub_one (by omega)
  constructor
  · simp only [onPool_pool, onPool_stake, Pool.enrollIdle, List.length_append,
      List.length_singleton]
    omega
  · simp only [onPool_pool, Pool.enrollIdle, List.length_append, List.length_singleton, ho]
    omega
  · simpa [Pool.enrollIdle] using h.bound
  · simpa [Pool.enrollIdle] using h.waiting

/-- Idle clients are taken out. -/
theorem Counted.takeOut (h : b.Counted) {f : Pool → Pool} {n : ℕ}
    (hf : f b.pool = { b.pool with
      idle := (f b.pool).idle, outstanding := b.pool.outstanding + UInt64.ofNat n })
    (hn : (f b.pool).idle.length + n = b.pool.idle.length) : (b.onPool f).Counted := by
  have h1 := h.outstanding
  have hlt := b.pool.created.toNat_lt
  have ho : (b.pool.outstanding + UInt64.ofNat n).toNat = b.pool.outstanding.toNat + n := by
    have hsize : n < UInt64.size := show n < 2 ^ 64 by omega
    rw [UInt64.toNat_add, UInt64.toNat_ofNat_of_lt' hsize, Nat.mod_eq_of_lt (by omega)]
  refine ⟨?_, ?_, ?_, ?_⟩
  · rw [onPool_pool, hf]
    exact h.created
  · rw [onPool_pool, hf]
    simp only [ho]
    omega
  · rw [onPool_pool, hf]
    exact h.bound
  · rw [onPool_pool, hf]
    exact h.waiting

/-- All members leave. -/
theorem counted_takeAll (h : b.Counted) (hout : b.pool.outstanding = 0)
    (hcreations : b.stake.creations = 0) : (b.onPool Pool.empty).Counted := by
  have h3 := h.bound
  refine ⟨?_, ?_, ?_, h.waiting⟩
  · simp [Pool.empty, hcreations]
  · simp [Pool.empty, hout]
  · simp only [onPool_pool, onPool_stake, Pool.empty, UInt64.toNat_zero]
    omega

/-- A client that is held and drained is a member that is not idle. -/
theorem Seated.drained (h : (b.hold { drained := {c} }).Seated) :
    c ∈ b.pool.members ∧ b.pool.idle.length < b.pool.members.length := by
  have hle := h.free_le
  rw [hold_free, Multiset.singleton_add] at hle
  have hcard := Multiset.card_le_card hle
  simp only [free, Multiset.card_cons, Multiset.card_add, Multiset.coe_card, hold_pool] at hcard
  exact ⟨Multiset.mem_coe.mp (Multiset.subset_of_le hle (Multiset.mem_cons_self _ _)), by omega⟩

/-- Every entry keeps the counters in agreement with the lists. -/
theorem Counted.entry (h : b.Seated) (hn : b.Counted) (e : Entry bad b b') : b'.Counted := by
  have hidle : b.pool.idle.length ≤ b.pool.members.length := h.length_idle_le
  cases e with
  | found connection limits dialect vacant unstocked =>
    have hmin : (min limits.initialClients limits.maxClients).toNat ≤ limits.maxClients.toNat := by
      rw [← UInt64.le_iff_toNat_le]
      show (if _ then _ else _ : UInt64) ≤ _
      split
      · assumption
      · exact UInt64.le_refl _
    have h1 := hn.created
    have h4 := hn.waiting
    rw [vacant] at h1 h4
    refine ⟨?_, rfl, ?_, ?_⟩
    · rw [hold_stake, Stake.creations_add]
      exact h1.trans (congrArg _ (Nat.zero_add _).symm)
    · simpa [unstocked] using hmin
    · rw [hold_stake, Stake.waiters_add, zero_add]
      exact h4
  | @reserveFirst b n =>
    have hbound := hn.bound
    have hrest : (b.hold { budget := n }).Counted :=
      hn.of_eq rfl (by simp [Stake.creations]) (by simp) (by simp)
    refine (hrest.reserve ?_).of_eq rfl ?_ ?_ ?_
    · simp at hbound ⊢
      omega
    all_goals simp [Stake.creations]
  | forgo n => exact hn.of_eq rfl (by simp [Stake.creations]) (by simp) (by simp)
  | reserve unstocked isOpen room =>
    refine hn.reserve ?_
    rw [unstocked]
    simpa [Pool.hasRoom, UInt64.lt_iff_toNat_lt] using room
  | arrive k fresh unreferenced created =>
    have h1 := hn.created
    refine ⟨?_, hn.outstanding, hn.bound, hn.waiting⟩
    simp [Stake.creations] at h1 ⊢
    omega
  | refuse =>
    refine hn.of_eq rfl ?_ le_rfl rfl
    simp only [hold_stake, Stake.creations_add]
    rfl
  | unreserve => exact hn.unreserve rfl rfl hidle
  | dismiss closing =>
    exact (Counted.hold_iff rfl rfl rfl).mpr (hn.unreserve rfl rfl hidle)
  | enroll isOpen =>
    have h1 := hn.created
    refine ⟨?_, hn.outstanding, ?_, ?_⟩
    · simp [Stake.creations, Pool.enroll] at h1 ⊢
      omega
    · simpa [Pool.enroll] using hn.bound
    · simpa [Pool.enroll] using hn.waiting
  | enrollIdle => exact (hn.enrollIdle hidle).of_eq rfl rfl le_rfl rfl
  | @lend _ _ rest isOpen front =>
    refine (hn.takeOut (f := fun p => p.takeIdle rest) (n := 1) rfl ?_).of_eq rfl rfl le_rfl rfl
    rw [front]
    rfl
  | share mem lent countable => exact hn.of_eq rfl rfl le_rfl rfl
  | overflow mishap mem full => exact hn.of_eq rfl rfl le_rfl rfl
  | drop mem lent more => exact hn.of_eq rfl rfl le_rfl rfl
  | giveBack mem last isOpen whole =>
    exact (hn.pushIdle (h.length_idle_lt mem (h.notMem_free (by rw [last]; decide)))).of_eq
      rfl rfl le_rfl rfl
  | discard mem last cause =>
    refine (Counted.hold_iff rfl rfl rfl).mpr ((hn.detach mem ?_).of_eq rfl rfl le_rfl rfl)
    exact h.length_idle_lt mem (h.notMem_free (by rw [last]; decide))
  | wait =>
    have h4 := hn.waiting
    refine ⟨?_, hn.outstanding, ?_, ?_⟩
    · simpa [Stake.creations] using hn.created
    · simpa using hn.bound
    · simp [UInt64.ofNat_add, h4, UInt64.add_comm]
  | rise =>
    have h4 := hn.waiting
    refine ⟨?_, hn.outstanding, ?_, ?_⟩
    · simpa [Stake.creations] using hn.created
    · simpa using hn.bound
    · simp [UInt64.ofNat_add] at h4
      simp [h4, UInt64.add_comm 1]
  | drain isOpen =>
    refine (hn.takeOut (f := Pool.drain) (n := b.pool.idle.length) rfl ?_).of_eq rfl ?_ ?_ ?_
    · simp [Pool.drain]
    all_goals simp [Stake.creations]
  | restore isOpen whole =>
    exact ((Counted.hold_iff rfl rfl rfl).mp hn).pushIdle h.drained.2
  | remove cause =>
    refine (Counted.hold_iff rfl rfl rfl).mpr ?_
    exact ((Counted.hold_iff rfl rfl rfl).mp hn).detach h.drained.1 h.drained.2
  | takeAll settled =>
    obtain ⟨-, -, hcreations⟩ := h.settled hn settled
    refine (Counted.hold_iff rfl rfl rfl).mpr ?_
    refine counted_takeAll ((Counted.hold_iff rfl rfl rfl).mp hn) settled ?_
    simpa [Stake.creations] using hcreations
  | beginClosing unstocked isOpen =>
    exact (Counted.hold_iff rfl rfl rfl).mpr ⟨hn.created, hn.outstanding, hn.bound, hn.waiting⟩
  | markClosed =>
    have hn' := (Counted.hold_iff rfl rfl rfl).mp hn
    exact ⟨hn'.created, hn'.outstanding, hn'.bound, hn'.waiting⟩
  | wear mem worn ended => exact hn.of_eq rfl rfl le_rfl rfl
  | part gone => exact (Counted.hold_iff rfl rfl rfl).mp hn
  | shut gone => exact (Counted.hold_iff rfl rfl rfl).mp hn
  | tamper s mishap => exact hn.of_eq rfl rfl le_rfl rfl
  | revive mem mishap => exact hn.of_eq rfl rfl le_rfl rfl

/-- Entries one after the other keep the books in balance. -/
theorem Seated.entries (h : b.Seated) (hn : b.Counted) (es : Entries bad b b') :
    b'.Seated ∧ b'.Counted := by
  induction es with
  | refl => exact ⟨h, hn⟩
  | tail _ e ih => exact ⟨ih.1.entry ih.2 e, ih.2.entry ih.1 e⟩

end Books
end SessionPool
