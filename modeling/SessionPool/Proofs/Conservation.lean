import Mathlib.Data.Finset.Card
import Mathlib.Data.List.Flatten
import SessionPool.Proofs.Closing
import SessionPool.Proofs.Ownership

/-!
# What the counters count

The three counters of a pool are changed in one step and changed back in another, and other calls
step in between.  Each of them is nevertheless a sum over what there is at any time: members,
clients in the hands of borrowers, clients that are pinged, sessions that are being opened, callers
that wait.

* `Machine.Conserved`: the sums, the bound on slots, and that no counter is ever lowered below zero.
* `Machine.counters_conserved`: this holds in every machine that can be reached.
-/

namespace SessionPool

/-! ## Usable clients -/

namespace Books

variable {b b' : Books} {bad : Mishap → Prop} {c d : ClientKey}

/-- The clients of a pool that are idle or busy. -/
def usable (b : Books) : Finset ClientKey :=
  b.own.filter fun c => (b.client c).state = .idle ∨ (b.client c).state = .busy

theorem mem_usable : c ∈ b.usable ↔
    c ∈ b.own ∧ ((b.client c).state = .idle ∨ (b.client c).state = .busy) := by
  simp [usable]

@[simp] theorem onPool_usable (f : Pool → Pool) : (b.onPool f).usable = b.usable := rfl

/-- Usable clients are members until the pool closes, and they fit into the pool together with those
that are still to come. -/
structure Housed (b : Books) : Prop where
  members : b.pool.closing = false → ∀ c ∈ b.usable, c ∈ b.pool.members
  bound : b.usable.card + b.stake.creations + b.stake.budget ≤ b.pool.limits.maxClients.toNat

/-- While a pool is open its usable clients fit into it because all of them are members. -/
theorem Counted.bound_usable (h : b.Counted)
    (hmembers : ∀ c ∈ b.usable, c ∈ b.pool.members) :
    b.usable.card + b.stake.creations + b.stake.budget ≤ b.pool.limits.maxClients.toNat := by
  have hsubset : b.usable ⊆ b.pool.members.toFinset :=
    fun c hc => List.mem_toFinset.mpr (hmembers c hc)
  have hcard := (Finset.card_le_card hsubset).trans (List.toFinset_card_le _)
  have h1 := h.created
  have h3 := h.bound
  omega

/-- Entries that make no client usable and reserve nothing keep the usable clients housed, if usable
members stay while the pool is open. -/
theorem Housed.of_subset (h : b.Housed)
    (hclosing : b'.pool.closing = false → b.pool.closing = false)
    (hlimits : b'.pool.limits = b.pool.limits) (husable : b'.usable ⊆ b.usable)
    (hmembers : b.pool.closing = false → ∀ c ∈ b'.usable, c ∈ b.pool.members →
      c ∈ b'.pool.members)
    (hstake : b'.stake.creations + b'.stake.budget ≤ b.stake.creations + b.stake.budget) :
    b'.Housed where
  members hc c hu := hmembers (hclosing hc) c hu (h.members (hclosing hc) c (husable hu))
  bound := by
    have hcard := Finset.card_le_card husable
    have hbound := h.bound
    rw [hlimits]
    omega

/-- Entries in the books of an open pool keep the usable clients housed, if all of them are members
afterwards. -/
theorem Housed.of_open (hn : b'.Counted) (hmembers : ∀ c ∈ b'.usable, c ∈ b'.pool.members) :
    b'.Housed :=
  ⟨fun _ => hmembers, hn.bound_usable hmembers⟩

/-- A change of a client makes others neither usable nor unusable. -/
theorem mem_usable_onClient {f : Client → Client} (hd : d ≠ c) :
    d ∈ (b.onClient c f).usable ↔ d ∈ b.usable := by
  rw [mem_usable, mem_usable, onClient_client, Function.update_of_ne hd, onClient_own]

/-- A client that is not usable after a change of it leaves no more usable clients. -/
theorem usable_onClient_subset {f : Client → Client}
    (hf : (f (b.client c)).state = .idle ∨ (f (b.client c)).state = .busy →
      (b.client c).state = .idle ∨ (b.client c).state = .busy) :
    (b.onClient c f).usable ⊆ b.usable := by
  intro d hd
  by_cases hdc : d = c
  · subst hdc
    rw [mem_usable, onClient_client, Function.update_self] at hd
    exact mem_usable.mpr ⟨hd.1, hf hd.2⟩
  · exact (mem_usable_onClient hdc).mp hd

theorem Housed.onClient (h : b.Housed) {f : Client → Client}
    (hf : (f (b.client c)).state = .idle ∨ (f (b.client c)).state = .busy →
      (b.client c).state = .idle ∨ (b.client c).state = .busy) : (b.onClient c f).Housed :=
  h.of_subset id rfl (usable_onClient_subset hf) (fun _ _ _ => id) le_rfl

/-- A broken client is not usable. -/
theorem ne_of_mem_usable (hd : d ∈ b.usable) (hc : (b.client c).isBroken = true) : d ≠ c := by
  rintro rfl
  rw [Client.isBroken, beq_iff_eq] at hc
  have hstate := (mem_usable.mp hd).2
  rw [hc] at hstate
  rcases hstate with h | h
  · cases h
  · cases h

/-- A new client that becomes a member is housed in its slot. -/
theorem Housed.enrollIdle (h : (b.hold { arrived := {c} }).Housed) {f : Client → Client} :
    ((b.onPool fun p => p.enrollIdle c).onClient c f).Housed := by
  have hsubset : ((b.onPool fun p => p.enrollIdle c).onClient c f).usable ⊆
      insert c b.usable := by
    intro d hd
    by_cases hdc : d = c
    · exact Finset.mem_insert.mpr (.inl hdc)
    · exact Finset.mem_insert.mpr (.inr ((mem_usable_onClient hdc).mp hd))
  constructor
  · intro hopen d hd
    rcases Finset.mem_insert.mp (hsubset hd) with rfl | hu
    · exact List.mem_append_right _ List.mem_cons_self
    · exact List.mem_append_left _ (h.members hopen d hu)
  · have hcard := (Finset.card_le_card hsubset).trans (Finset.card_insert_le _ _)
    have hbound := h.bound
    have hone : ({ arrived := {c} } : Stake).creations = 1 := rfl
    have hsame : (b.hold { arrived := {c} }).usable = b.usable := rfl
    simp only [hold_pool, hold_stake, Stake.creations_add, Stake.budget_add, hone, hsame] at hbound
    simp only [onClient_pool, onPool_pool, onClient_stake, onPool_stake, Pool.enrollIdle] at hcard ⊢
    omega

/-- A client that leaves an open pool is not usable. -/
theorem Housed.detach (h : b.Housed)
    (cause : (b.client c).isBroken = true ∨ b.pool.closing = true) {s : Stake}
    (hs : s.creations + s.budget = 0) :
    ((b.onPool fun p => p.giveBack.detach c).hold s).Housed := by
  refine h.of_subset id rfl (Finset.Subset.refl _) (fun isOpen d hd hmem => ?_) ?_
  · rw [isOpen, or_iff_left Bool.false_ne_true] at cause
    exact (List.mem_erase_of_ne (ne_of_mem_usable (b := b) hd cause)).mpr hmem
  · simp only [hold_stake, onPool_stake, Stake.creations_add, Stake.budget_add]
    omega

/-- Every entry keeps the usable clients housed, unless states are overwritten by hand. -/
theorem Housed.entry (hs : b.Seated) (hn : b.Counted) (ho : b.Orderly) (h : b.Housed)
    (hbad : ∀ c, ¬ bad (.tampering c)) (e : Entry bad b b') : b'.Housed := by
  have hn' : b'.Counted := hn.entry hs e
  cases e with
  | found connection limits dialect vacant unstocked =>
    refine .of_open hn' fun c hc => ?_
    have hmem := h.members (by rw [vacant]; rfl) c hc
    rw [vacant] at hmem
    exact absurd hmem List.not_mem_nil
  | reserveFirst n =>
    refine h.of_subset id rfl (Finset.Subset.refl _) (fun _ _ _ => id) ?_
    simp [Stake.creations]
    omega
  | forgo n =>
    refine h.of_subset id rfl (Finset.Subset.refl _) (fun _ _ _ => id) ?_
    simp [Stake.creations]
  | reserve unstocked isOpen room => exact .of_open hn' (h.members isOpen)
  | @arrive b c k fresh unreferenced created =>
    refine h.of_subset id rfl (fun d hd => ?_) (fun _ _ _ => id) ?_
    · obtain ⟨hown, hstate⟩ := mem_usable.mp hd
      have hdc : d ≠ c := by
        rintro rfl
        simp [created] at hstate
      simp only [hold_own, onPool_own, welcome_own, Finset.mem_insert, hdc, false_or] at hown
      simp only [hold_client, onPool_client, welcome_client, Function.update_of_ne hdc] at hstate
      exact mem_usable.mpr ⟨hown, hstate⟩
    · simp [Stake.creations]
      omega
  | refuse =>
    refine h.of_subset id rfl (Finset.Subset.refl _) (fun _ _ _ => id) ?_
    simp [Stake.creations]
    omega
  | unreserve =>
    refine h.of_subset id rfl (Finset.Subset.refl _) (fun _ _ _ => id) ?_
    simp [Stake.creations]
  | dismiss closing =>
    refine h.of_subset id rfl (Finset.Subset.refl _) (fun _ _ _ => id) ?_
    simp [Stake.creations]
  | @enroll b c isOpen =>
    refine .of_open hn' fun d hd => ?_
    by_cases hdc : d = c
    · exact List.mem_append_right _ (List.mem_singleton.mpr hdc)
    · rw [mem_usable_onClient hdc, onPool_usable] at hd
      exact List.mem_append_left _ (h.members isOpen d hd)
  | enrollIdle => exact h.enrollIdle
  | @lend _ c rest isOpen front =>
    refine .of_open hn' fun d hd => ?_
    by_cases hdc : d = c
    · rw [hdc]
      exact hs.mem_of_mem_free (mem_free.mpr (.inl (by simp [front])))
    · rw [mem_usable_onClient hdc, onPool_usable] at hd
      exact h.members isOpen d hd
  | share mem lent countable => exact h.onClient id
  | overflow mishap mem full => exact h.onClient id
  | drop mem lent more => exact h.onClient id
  | @giveBack _ c mem last isOpen whole =>
    refine .of_open hn' fun d hd => ?_
    by_cases hdc : d = c
    · exact hdc ▸ mem
    · rw [mem_usable_onClient hdc, onPool_usable] at hd
      exact h.members isOpen d hd
  | @discard _ c mem last cause =>
    let b₀ := b.onClient c fun k => { k with references := 0 }
    show ((b₀.onPool fun p => p.giveBack.detach c).hold { discards := {c} }).Housed
    have h₀ : b₀.Housed := h.onClient id
    refine h₀.detach ?_ rfl
    simpa [b₀, Client.isBroken] using cause
  | wait =>
    refine h.of_subset id rfl (Finset.Subset.refl _) (fun _ _ _ => id) ?_
    simp [Stake.creations]
  | rise =>
    refine h.of_subset id rfl (Finset.Subset.refl _) (fun _ _ _ => id) ?_
    simp [Stake.creations]
  | drain isOpen => exact .of_open hn' (h.members isOpen)
  | restore isOpen whole => exact .of_open hn' (h.members isOpen)
  | @remove b c cause =>
    have hrest : b.Housed :=
      h.of_subset id rfl (Finset.Subset.refl _) (fun _ _ _ => id) (by simp [Stake.creations])
    exact hrest.detach cause rfl
  | takeAll settled =>
    refine h.of_subset id rfl (Finset.Subset.refl _) (fun isOpen => ?_) ?_
    · have hdrainers := (ho.untouched isOpen).1
      simp at hdrainers
    · simp [Stake.creations]
  | beginClosing unstocked isOpen =>
    refine h.of_subset (fun _ => isOpen) rfl (Finset.Subset.refl _) (fun _ _ _ => id) ?_
    simp [Stake.creations]
  | markClosed =>
    refine h.of_subset id rfl (Finset.Subset.refl _) (fun _ _ _ => id) ?_
    simp [Stake.creations]
  | wear mem worn ended =>
    refine h.onClient fun hf => ?_
    rcases worn.state with hstate | hstate | hstate
    · rwa [hstate] at hf
    · simp [hstate] at hf
    · simp [hstate] at hf
  | part gone =>
    refine h.of_subset id rfl (Finset.Subset.refl _) (fun _ _ _ => id) ?_
    simp [Stake.creations]
  | shut gone =>
    refine h.of_subset id rfl (Finset.Subset.refl _) (fun _ _ _ => id) ?_
    simp [Stake.creations]
  | tamper s mishap => exact absurd mishap (hbad _)
  | revive mem mishap => exact h.onClient id

end Books

/-! ## What is counted -/

/-- The stocking of a pool has a slot for a new client. -/
def StockPoint.creates : StockPoint → Bool
  | .reserving => false
  | .opening | .arrived _ | .refused _ => true

/-- A caller has a slot for a new client. -/
def AcquirePoint.creates : AcquirePoint → Bool
  | .opening | .arrived _ | .refused _ => true
  | _ => false

/-- A caller waits for a client, asleep or not. -/
def AcquirePoint.waits : AcquirePoint → Bool
  | .asleep | .woken | .expired => true
  | _ => false

namespace Point

variable {p : PoolKey}

/-- A call creates a client for a pool. -/
def creates (p : PoolKey) : Point → Bool
  | .stock q _ s => decide (q = p) && s.creates
  | .acquire q _ _ s => decide (q = p) && s.creates
  | _ => false

/-- A call waits for a client of a pool. -/
def waits (p : PoolKey) : Point → Bool
  | .acquire q _ _ s => decide (q = p) && s.waits
  | _ => false

theorem creations_stake (x : Point) (p : PoolKey) :
    (x.stake p).creations = if x.creates p then 1 else 0 := by
  cases x with
  | stock q left s =>
    by_cases hq : q = p
    · cases s <;> simp [stake, creates, StockPoint.stake, StockPoint.creates, hq, Stake.creations]
    · simp [stake, creates, hq, Stake.creations]
  | acquire q t leased s =>
    by_cases hq : q = p
    · cases s <;>
        simp [stake, creates, AcquirePoint.stake, AcquirePoint.creates, hq, Stake.creations]
    · simp [stake, creates, hq, Stake.creations]
  | keepAlive q s => by_cases hq : q = p <;> simp [stake, creates, hq, Stake.creations]
  | close q s =>
    by_cases hq : q = p
    · cases s <;> simp [stake, creates, ClosePoint.stake, hq, Stake.creations]
    · simp [stake, creates, hq, Stake.creations]
  | farewell rite waiting todo next =>
    cases rite <;> cases next <;>
      simp [stake, creates, Stake.creations, apply_ite Stake.openings, apply_ite Stake.arrived,
        apply_ite Stake.refusals]
  | _ => rfl

theorem waiters_stake (x : Point) (p : PoolKey) :
    (x.stake p).waiters = if x.waits p then 1 else 0 := by
  cases x with
  | stock q left s =>
    cases s <;> simp [stake, waits, StockPoint.stake, apply_ite Stake.waiters]
  | acquire q t leased s =>
    by_cases hq : q = p
    · cases s <;> simp [stake, waits, AcquirePoint.stake, AcquirePoint.waits, hq]
    · simp [stake, waits, hq]
  | keepAlive q s => simp [stake, waits, apply_ite Stake.waiters]
  | close q s => cases s <;> simp [stake, waits, ClosePoint.stake, apply_ite Stake.waiters]
  | farewell rite waiting todo next =>
    cases rite <;> cases next <;> simp [stake, waits, apply_ite Stake.waiters]
  | _ => rfl

end Point

/-- The members of a pool that someone has a reference to. -/
def World.busy (w : World) (p : PoolKey) : List ClientKey :=
  (w.pool p).members.filter fun c => 0 < (w.client c).references

namespace Machine

variable {m : Machine} {p : PoolKey} {c : ClientKey} {k : CallKey} {call : Call}

/-- How many calls create a client for a pool. -/
def creations (m : Machine) (p : PoolKey) : ℕ := m.calls.countP fun k => k.point.creates p

/-- How many calls wait for a client of a pool. -/
def waiters (m : Machine) (p : PoolKey) : ℕ := m.calls.countP fun k => k.point.waits p

/-- The clients of a pool that calls have taken out to ping them. -/
def pinged (m : Machine) (p : PoolKey) : List ClientKey :=
  m.calls.flatMap fun k => k.point.drained p

/-- The members of a pool that are neither idle nor pinged. -/
def lent (m : Machine) (p : PoolKey) : List ClientKey :=
  (m.world.pool p).members.filter fun c => c ∉ (m.world.pool p).idle ∧ c ∉ m.pinged p

theorem creations_stakeOf (calls : List Call) (p : PoolKey) :
    (stakeOf calls p).creations = calls.countP fun k => k.point.creates p := by
  induction calls with
  | nil => rfl
  | cons k calls ih =>
    rw [stakeOf_cons, Stake.creations_add, ih, Point.creations_stake, List.countP_cons, add_comm]

theorem waiters_stakeOf (calls : List Call) (p : PoolKey) :
    (stakeOf calls p).waiters = calls.countP fun k => k.point.waits p := by
  induction calls with
  | nil => rfl
  | cons k calls ih =>
    rw [stakeOf_cons, Stake.waiters_add, ih, Point.waiters_stake, List.countP_cons, add_comm]

theorem drained_stake (m : Machine) (p : PoolKey) : (m.stake p).drained = m.pinged p :=
  drained_stakeOf m.calls p

theorem mem_pinged_iff : c ∈ m.pinged p ↔ ∃ k, c ∈ m.drainedBy p k := by
  rw [← mem_drained_iff, drained_stake, Multiset.mem_coe]

/-! ## Conservation -/

/-- The members of a pool are idle, pinged or lent. -/
theorem Sound.length_members (hm : m.Sound) (p : PoolKey) :
    (m.world.pool p).members.length =
      (m.world.pool p).idle.length + (m.pinged p).length + (m.lent p).length := by
  have hs := hm.seated p
  have hfree : (m.books p).free = (m.world.pool p).idle + m.pinged p :=
    congrArg _ (drained_stake m p)
  have hle : ∀ c, c ∈ (m.world.pool p).idle ∨ c ∈ m.pinged p → c ∈ (m.world.pool p).members := by
    intro c hc
    refine hs.mem_of_mem_free ?_
    rwa [hfree, Multiset.coe_add, Multiset.mem_coe, List.mem_append]
  have hnodup : ((m.world.pool p).idle ++ m.pinged p ++ m.lent p).Nodup := by
    refine List.Nodup.append ?_ (hs.nodup_members.filter _) ?_
    · have h := hs.nodup_free
      rwa [hfree, Multiset.coe_add, Multiset.coe_nodup] at h
    · intro c hc hlent
      have hnot := of_decide_eq_true (List.mem_filter.mp hlent).2
      exact (List.mem_append.mp hc).elim hnot.1 hnot.2
  have hperm : (m.world.pool p).members.Perm
      ((m.world.pool p).idle ++ m.pinged p ++ m.lent p) := by
    refine (List.perm_ext_iff_of_nodup hs.nodup_members hnodup).mpr fun c => ?_
    simp only [List.mem_append, lent, List.mem_filter, decide_eq_true_eq]
    have hc := hle c
    tauto
  rw [hperm.length_eq, List.length_append, List.length_append]

/-- What one call has taken out is among what all calls have taken out. -/
theorem length_drainedBy_le (m : Machine) (p : PoolKey) (k : CallKey) :
    (m.drainedBy p k).length ≤ (m.pinged p).length := by
  cases hk : m.call? k with
  | none => simp [drainedBy, hk]
  | some call =>
    rw [drainedBy_eq hk]
    have hsub := (List.singleton_sublist.mpr (List.mem_of_getElem? hk)).flatMap
      fun call => call.point.drained p
    simpa only [pinged, List.flatMap_singleton] using hsub.length_le

/-- What the counters of a pool count. -/
structure Conserved (m : Machine) (p : PoolKey) : Prop where
  /-- Outstanding are the lent clients, the pinged ones, and those that are being created. -/
  outstanding : (m.world.pool p).outstanding.toNat =
    (m.lent p).length + (m.pinged p).length + m.creations p
  /-- Lent are the members that are borrowed. -/
  lent : ∀ c, c ∈ m.lent p ↔ c ∈ (m.world.pool p).members ∧ m.Stands p c .borrowed
  /-- These are the members with references, as long as no count of references wraps around. -/
  busy : m.ReachableWithout Mishap.isOverflow → m.lent p = m.world.busy p
  /-- There is a slot for every member and for every client that is being created. -/
  created : (m.world.pool p).created.toNat = (m.world.pool p).members.length + m.creations p
  /-- What is not outstanding is idle. -/
  idle : (m.world.pool p).created.toNat =
    (m.world.pool p).idle.length + (m.world.pool p).outstanding.toNat
  /-- There are no more slots than the pool may have. -/
  bound : (m.world.pool p).created ≤ (m.world.pool p).limits.maxClients
  /-- Waiting are the callers that wait. -/
  waiting : (m.world.pool p).waiting = UInt64.ofNat (m.waiters p)
  /-- A call that creates a client has a slot to give back. -/
  reserved : ∀ k call, m.call? k = some call → call.point.creates p = true →
    0 < (m.world.pool p).created ∧ 0 < (m.world.pool p).outstanding
  /-- So has whoever has a reference. -/
  referenced : ∀ c ∈ (m.world.pool p).members, (m.world.client c).references ≠ 0 →
    0 < (m.world.pool p).created ∧ 0 < (m.world.pool p).outstanding
  /-- A call that pings has as many slots to give back as clients. -/
  drained : ∀ k, (m.drainedBy p k).length ≤ (m.world.pool p).created.toNat ∧
    (m.drainedBy p k).length ≤ (m.world.pool p).outstanding.toNat
  /-- Clients that are idle and clients that are busy fit into the slots. -/
  observed : (m.world.pool p).idle.length + (m.world.busy p).length ≤
    (m.world.pool p).created.toNat
  /-- Whatever becomes of the clients that leave, there are never more idle or busy clients than the
  pool may have, unless states are overwritten by hand. -/
  usable : m.ReachableWithout Mishap.isTampering →
    ((m.world.own p).filter fun c => (m.world.client c).state = .idle ∨
      (m.world.client c).state = .busy).card ≤ (m.world.pool p).limits.maxClients.toNat

/-- A member is lent if it is with its borrowers. -/
theorem Reachable.mem_lent_iff (hm : m.Reachable) :
    c ∈ m.lent p ↔ c ∈ (m.world.pool p).members ∧ m.Stands p c .borrowed := by
  simp only [Machine.lent, List.mem_filter, decide_eq_true_eq, mem_pinged_iff, not_exists]
  refine and_congr_right fun hmem => ⟨fun h => ?_, fun h => h.2⟩
  exact ⟨hm.borrowed hmem h.1 h.2, h.1, h.2⟩

/-- A member with references is lent. -/
theorem Sound.mem_lent_of_references (hm : m.Sound) (hc : c ∈ (m.world.pool p).members)
    (hrefs : (m.world.client c).references ≠ 0) : c ∈ m.lent p := by
  simp only [Machine.lent, List.mem_filter, decide_eq_true_eq, mem_pinged_iff]
  refine ⟨hc, fun hi => hrefs (hm.of_mem_idle hi).2.1, ?_⟩
  rintro ⟨k, hk⟩
  exact hrefs (hm.of_mem_drainedBy hk).2.1

theorem ReachableWithout.lent_eq_busy (hm : m.ReachableWithout Mishap.isOverflow) :
    m.lent p = m.world.busy p := by
  have hreach := hm.reachable
  refine List.filter_congr fun c hc => decide_eq_decide.mpr ?_
  rw [UInt64.pos_iff_ne_zero]
  constructor
  · intro hlent
    have hmem : c ∈ m.lent p := List.mem_filter.mpr ⟨hc, decide_eq_true hlent⟩
    exact hm.borrowed_iff.mp (hreach.mem_lent_iff.mp hmem).2.1
  · intro hrefs
    exact of_decide_eq_true (List.mem_filter.mp (hreach.sound.mem_lent_of_references hc hrefs)).2

/-- Outstanding are the lent clients, the pinged ones, and those that are being created. -/
theorem Sound.toNat_outstanding (hm : m.Sound) (p : PoolKey) :
    (m.world.pool p).outstanding.toNat =
      (m.lent p).length + (m.pinged p).length + m.creations p := by
  have hcreations : (m.stake p).creations = m.creations p := creations_stakeOf m.calls p
  have hcreated := hm.toNat_created p
  have hidle := hm.toNat_created_idle p
  have hmembers := hm.length_members p
  omega

theorem Sound.length_busy_le (hm : m.Sound) : (m.world.busy p).length ≤ (m.lent p).length := by
  simp only [World.busy, Machine.lent, ← List.countP_eq_length_filter]
  refine List.countP_mono_left fun c hc hrefs => ?_
  rw [decide_eq_true_eq, UInt64.pos_iff_ne_zero] at hrefs
  exact (List.mem_filter.mp (hm.mem_lent_of_references hc hrefs)).2

/-- Without states that are overwritten by hand the usable clients are always housed. -/
theorem ReachableWithout.housed (hm : m.ReachableWithout Mishap.isTampering) (p : PoolKey) :
    (m.books p).Housed := by
  refine (hm.orderly_induct ⟨?_, ?_⟩ (fun b b' hs hn ho h e => h.entry hs hn ho nofun e) p).2
  · exact fun _ c hc => absurd hc (Finset.notMem_empty c)
  · exact Nat.zero_le _

theorem ReachableWithout.card_usable_le (hm : m.ReachableWithout Mishap.isTampering)
    (p : PoolKey) :
    ((m.world.own p).filter fun c => (m.world.client c).state = .idle ∨
      (m.world.client c).state = .busy).card ≤ (m.world.pool p).limits.maxClients.toNat := by
  have hbound := (hm.housed p).bound
  have husable : (m.books p).usable = (m.world.own p).filter fun c =>
      (m.world.client c).state = .idle ∨ (m.world.client c).state = .busy := by
    refine Finset.filter_congr fun c hc => ?_
    rw [Machine.books, World.books_client _ hc]
  rw [husable] at hbound
  exact (Nat.le_add_right _ _).trans ((Nat.le_add_right _ _).trans hbound)

/-- In every machine that can be reached the counters of a pool count what they are meant to. -/
theorem counters_conserved (hm : m.Reachable) (p : PoolKey) : m.Conserved p := by
  have hs := hm.sound
  have hn := hs.counted p
  have hcreations : (m.books p).stake.creations = m.creations p := creations_stakeOf m.calls p
  have hcreated : (m.world.pool p).created.toNat =
      (m.world.pool p).members.length + m.creations p := hcreations ▸ hn.created
  have hidle : (m.world.pool p).created.toNat =
      (m.world.pool p).idle.length + (m.world.pool p).outstanding.toNat := hn.outstanding
  have hmembers := hs.length_members p
  have hout := hs.toNat_outstanding p
  have hpositive : 0 < (m.lent p).length + m.creations p →
      0 < (m.world.pool p).created ∧ 0 < (m.world.pool p).outstanding := by
    intro h
    rw [UInt64.lt_iff_toNat_lt, UInt64.lt_iff_toNat_lt, UInt64.toNat_zero]
    omega
  constructor
  · exact hout
  · exact fun c => hm.mem_lent_iff
  · exact fun h => h.lent_eq_busy
  · exact hcreated
  · exact hidle
  · exact UInt64.le_iff_toNat_le.mpr ((Nat.le_add_right _ _).trans hn.bound)
  · exact hn.waiting.trans (congrArg _ (waiters_stakeOf m.calls p))
  · intro k call hk hcreates
    refine hpositive (Nat.add_pos_right _ ?_)
    exact List.countP_pos_iff.mpr ⟨call, List.mem_of_getElem? hk, hcreates⟩
  · intro c hc hrefs
    have hlent := hs.mem_lent_of_references hc hrefs
    exact hpositive (Nat.add_pos_left (List.length_pos_of_mem hlent) _)
  · intro k
    have hle : (m.drainedBy p k).length ≤ (m.pinged p).length := length_drainedBy_le m p k
    omega
  · have hbusy := hs.length_busy_le (p := p)
    omega
  · exact fun h => h.card_usable_le p

/-- A run after which one client is pinged, one is borrowed, one is being created, and a caller
waits. -/
def fullyUsed : List Event :=
  let limits : PoolLimits := { maxClients := 3, initialClients := 1 }
  [.begin (.construct {} limits true .standard),
    .advance 0 0, .answer 0 (.opened (.session true)), .advance 0 0, .advance 0 0,
    .begin (.keepAlive 0), .advance 1 0,
    .begin (.acquire 0 0), .advance 2 0, .answer 2 (.opened (.session true)), .advance 2 0,
    .begin (.acquire 0 0), .advance 3 0,
    .begin (.acquire 0 0), .advance 4 0]

/-- Each of the three outstanding clients is outstanding for another reason. -/
theorem counters_conserved_fullyUsed : ∃ m : Machine, run {} fullyUsed = some m ∧
    (m.world.pool 0).created = 3 ∧ (m.world.pool 0).outstanding = 3 ∧
    (m.world.pool 0).waiting = 1 ∧ m.lent 0 = [1] ∧ m.pinged 0 = [0] ∧ m.creations 0 = 1 ∧
    m.Conserved 0 :=
  ⟨_, rfl, rfl, rfl, rfl, rfl, rfl, rfl, counters_conserved ⟨fullyUsed, rfl⟩ 0⟩

end Machine
end SessionPool
