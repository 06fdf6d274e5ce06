import SessionPool.Proofs.References

/-!
# Who has a client

A client of a pool is in one place: in the queue of idle clients, with its borrowers, or with one
call that pings it.

The counts of references are words.  When a reference is asked for to a client that has as many as
a word can count, the count wraps around to zero and the pool refuses; nobody can give any of the
references back from then on, so that such a client stays with its borrowers for ever.
`Machine.Wrapped` says of a client that this has happened to it, and `Machine.Borrowed` counts it as
borrowed.  It takes more calls than a word can count.

* `Machine.Situation`, `Machine.Stands`: the places.
* `Machine.exclusive_ownership`: every member of a pool is in exactly one of them, and none is
  twice in any list.
* `Machine.lends_untouched`: whoever gets a client is the only one who has it.
-/

namespace SessionPool

/-! ## Clients that nobody has a reference to -/

namespace Books

variable {b b' : Books} {bad : Mishap → Prop} {c : ClientKey}

theorem mem_free : c ∈ b.free ↔ c ∈ b.pool.idle ∨ c ∈ b.stake.drained := by
  simp [free]

/-- A member that nobody has a reference to is idle or is pinged. -/
def Tracked (c : ClientKey) (b : Books) : Prop :=
  c ∈ b.pool.members → (b.client c).references = 0 → c ∈ b.pool.idle ∨ c ∈ b.stake.drained

/-- Entries that concern other clients, or neither the places of clients nor references, keep track
of a client. -/
theorem Tracked.of_imp (h : b.Tracked c) (hmembers : c ∈ b'.pool.members → c ∈ b.pool.members)
    (hclient : (b'.client c).references = 0 → (b.client c).references = 0)
    (hidle : c ∈ b.pool.idle → c ∈ b'.pool.idle ∨ c ∈ b'.stake.drained)
    (hdrained : c ∈ b.stake.drained → c ∈ b'.pool.idle ∨ c ∈ b'.stake.drained) : b'.Tracked c :=
  fun hc hrefs => (h (hmembers hc) (hclient hrefs)).elim hidle hdrained

/-- A change of one client that leaves it with references keeps track of all. -/
theorem Tracked.onClient (h : b.Tracked c) {d : ClientKey} {f : Client → Client}
    (hf : (f (b.client d)).references = 0 → (b.client d).references = 0) :
    (b.onClient d f).Tracked c := by
  refine h.of_imp id (fun hrefs => ?_) .inl .inr
  by_cases hd : c = d
  · subst hd
    exact hf (by simpa using hrefs)
  · simpa [Function.update_of_ne hd] using hrefs

/-- Every entry keeps track of a client, unless its count of references wraps around. -/
theorem Tracked.entry (hs : b.Seated) (h : b.Tracked c) (hbad : ¬ bad (.overflow c))
    (e : Entry bad b b') : b'.Tracked c := by
  cases e with
  | found connection limits dialect vacant unstocked =>
    intro hc
    cases hc
  | @arrive b d k fresh unreferenced created =>
    intro hc hrefs
    have hd : c ≠ d := fun hd => fresh (hd ▸ hs.mem_own_of_mem hc)
    simpa using h hc (by simpa [Function.update_of_ne hd] using hrefs)
  | @enroll b d isOpen =>
    intro hc hrefs
    have hd : c ≠ d := by
      rintro rfl
      simp [Client.lend] at hrefs
    have hmem : c ∈ b.pool.members := by simpa [Pool.enroll, hd] using hc
    simpa [Pool.enroll] using h hmem (by simpa [Function.update_of_ne hd] using hrefs)
  | @enrollIdle b d =>
    by_cases hd : c = d
    · exact fun _ _ => .inl (by simp [Pool.enrollIdle, hd])
    · refine h.of_imp ?_ ?_ ?_ ?_
      all_goals simp +contextual [Pool.enrollIdle, hd]
  | @lend _ d rest isOpen front =>
    intro hc hrefs
    have hd : c ≠ d := by
      rintro rfl
      simp [Client.lend] at hrefs
    simpa [front, Pool.takeIdle, hd] using h hc (by simpa [Function.update_of_ne hd] using hrefs)
  | share mem lent countable =>
    refine h.onClient fun hrefs => absurd ?_ countable
    replace hrefs : (b.client _).references + 1 = 0 := hrefs
    rw [← UInt64.add_sub_cancel (b.client _).references 1, hrefs]
    rfl
  | @overflow _ d mishap mem full =>
    have hd : c ≠ d := fun hd => hbad (hd ▸ mishap)
    exact h.of_imp id (by simp [Function.update_of_ne hd]) .inl .inr
  | drop mem lent more =>
    refine h.onClient fun hrefs => absurd ?_ more
    replace hrefs : (b.client _).references - 1 = 0 := hrefs
    rw [← UInt64.sub_add_cancel (b.client _).references 1, hrefs]
    rfl
  | @giveBack _ d mem last isOpen whole =>
    by_cases hd : c = d
    · exact fun _ _ => .inl (by simp [Pool.giveBack, Pool.pushIdle, hd])
    · refine h.of_imp ?_ ?_ ?_ ?_
      all_goals simp +contextual [Pool.giveBack, Pool.pushIdle, hd]
  | @discard _ d mem last cause =>
    intro hc hrefs
    have hd : c ≠ d := by
      rintro rfl
      exact hs.nodup_members.not_mem_erase hc
    simpa [Pool.giveBack, Pool.detach] using
      h (List.mem_of_mem_erase hc) (by simpa [Function.update_of_ne hd] using hrefs)
  | drain isOpen => exact h.of_imp id id (by simp +contextual) (by simp +contextual)
  | @restore _ d isOpen whole =>
    refine h.of_imp id id ?_ ?_
    all_goals simp +contextual [Pool.giveBack, Pool.pushIdle]
    all_goals tauto
  | @remove _ d cause =>
    intro hc hrefs
    have hd : c ≠ d := by
      rintro rfl
      exact hs.nodup_members.not_mem_erase hc
    simpa [Pool.giveBack, Pool.detach, hd] using h (List.mem_of_mem_erase hc) hrefs
  | takeAll settled =>
    intro hc
    cases hc
  | wear mem worn ended => exact h.onClient fun hrefs => worn.references ▸ hrefs
  | tamper s mishap => exact h.onClient id
  | revive mem mishap => exact h.onClient id
  | _ => exact h.of_imp id id .inl (fun hc => .inr (by simpa using hc))

end Books

/-! ## The clients that calls ping -/

namespace Point

theorem drained_stake (x : Point) (p : PoolKey) : (x.stake p).drained = x.drained p := by
  cases x with
  | stock q left s =>
    cases s <;> simp [stake, drained, StockPoint.stake, apply_ite Stake.drained]
  | acquire q t leased s =>
    cases s <;> simp [stake, drained, AcquirePoint.stake, apply_ite Stake.drained]
  | keepAlive q s => by_cases hq : q = p <;> simp [stake, drained, hq]
  | close q s => cases s <;> simp [stake, drained, ClosePoint.stake, apply_ite Stake.drained]
  | farewell rite waiting todo next =>
    cases rite <;> cases next <;> simp [stake, drained, apply_ite Stake.drained]
  | _ => rfl

/-- Who is woken twice is awake after the first time. -/
theorem Wakes.trans {x y z : Point} (h : Wakes x y) (h' : Wakes y z) : Wakes x z := by
  cases h with
  | refl => exact h'
  | acquirer p t leased =>
    cases h'
    exact .acquirer p t leased
  | drainer p =>
    cases h'
    exact .drainer p
  | attendant p =>
    cases h'
    exact .attendant p

end Point

namespace Machine

variable {m n : Machine} {p : PoolKey} {c : ClientKey} {k k' : CallKey} {call : Call}

/-- The clients of a pool that a call has taken out to ping them. -/
def drainedBy (m : Machine) (p : PoolKey) (k : CallKey) : List ClientKey :=
  ((m.call? k).map fun call => call.point.drained p).getD []

theorem drained_stakeOf (calls : List Call) (p : PoolKey) :
    (stakeOf calls p).drained = calls.flatMap fun k => k.point.drained p := by
  induction calls with
  | nil => rfl
  | cons k calls ih =>
    rw [stakeOf_cons, Stake.drained_add, Point.drained_stake, ih, List.flatMap_cons,
      Multiset.coe_add]

theorem drainedBy_eq (h : m.call? k = some call) : m.drainedBy p k = call.point.drained p := by
  simp [drainedBy, h]

theorem exists_of_mem_drainedBy (h : c ∈ m.drainedBy p k) :
    ∃ call, m.call? k = some call ∧ c ∈ call.point.drained p := by
  unfold drainedBy at h
  cases hk : m.call? k with
  | none => simp [hk] at h
  | some call => exact ⟨call, rfl, by simpa [hk] using h⟩

/-- A client has been taken out if some call has it. -/
theorem mem_drained_iff : c ∈ (m.stake p).drained ↔ ∃ k, c ∈ m.drainedBy p k := by
  rw [stake, drained_stakeOf, Multiset.mem_coe, List.mem_flatMap]
  constructor
  · rintro ⟨call, hcall, hc⟩
    obtain ⟨k, hk⟩ := List.mem_iff_getElem?.mp hcall
    exact ⟨k, by rwa [drainedBy_eq hk]⟩
  · rintro ⟨k, hc⟩
    obtain ⟨call, hk, hc⟩ := exists_of_mem_drainedBy hc
    exact ⟨call, List.mem_of_getElem? hk, hc⟩

/-- In a sound machine the calls that ping have all clients only once. -/
theorem Sound.nodup_flatMap_drained (hm : m.Sound) (p : PoolKey) :
    (m.calls.flatMap fun k => k.point.drained p).Nodup := by
  have h : (m.stake p).drained.Nodup := (Multiset.nodup_add.mp (hm.seated p).nodup_free).2.1
  rw [stake, drained_stakeOf] at h
  exact Multiset.coe_nodup.mp h

/-- In a sound machine no call has a client twice. -/
theorem Sound.nodup_drainedBy (hm : m.Sound) (p : PoolKey) (k : CallKey) :
    (m.drainedBy p k).Nodup := by
  cases hk : m.call? k with
  | none => simp [drainedBy, hk]
  | some call =>
    rw [drainedBy_eq hk]
    exact (List.nodup_flatMap.mp (hm.nodup_flatMap_drained p)).1 call (List.mem_of_getElem? hk)

/-- In a sound machine no two calls have the same client. -/
theorem Sound.notMem_drainedBy (hm : m.Sound) (hk : k ≠ k') (hc : c ∈ m.drainedBy p k) :
    c ∉ m.drainedBy p k' := by
  intro hc'
  obtain ⟨call, hcall, hc⟩ := exists_of_mem_drainedBy hc
  obtain ⟨call', hcall', hc'⟩ := exists_of_mem_drainedBy hc'
  obtain ⟨hlt, rfl⟩ := List.getElem?_eq_some_iff.mp hcall
  obtain ⟨hlt', rfl⟩ := List.getElem?_eq_some_iff.mp hcall'
  have hpairs := List.pairwise_iff_getElem.mp
    (List.nodup_flatMap.mp (hm.nodup_flatMap_drained p)).2
  rcases Nat.lt_or_gt_of_ne hk with h | h
  · exact hpairs k k' hlt hlt' h hc hc'
  · exact hpairs k' k hlt' hlt h hc' hc

/-- In a sound machine a client that is pinged is a member, nobody has a reference to it, and it is
not idle. -/
theorem Sound.of_mem_drainedBy (hm : m.Sound) (hc : c ∈ m.drainedBy p k) :
    c ∈ (m.world.pool p).members ∧ (m.world.client c).references = 0 ∧
      c ∉ (m.world.pool p).idle := by
  have hs := hm.seated p
  have hd : c ∈ (m.books p).stake.drained := mem_drained_iff.mpr ⟨k, hc⟩
  have hfree : c ∈ (m.books p).free := Multiset.mem_add.mpr (.inr hd)
  have hmem := hs.mem_of_mem_free hfree
  have hrefs := hs.free_unreferenced c hfree
  rw [Machine.books, World.books_client _ (hs.mem_own_of_mem hmem)] at hrefs
  refine ⟨hmem, hrefs, fun hi => ?_⟩
  exact Multiset.disjoint_left.mp (Multiset.nodup_add.mp hs.nodup_free).2.2 hi hd

/-- In a sound machine an idle client is a member, nobody has a reference to it, and no call has it
in order to ping it. -/
theorem Sound.of_mem_idle (hm : m.Sound) (hc : c ∈ (m.world.pool p).idle) :
    c ∈ (m.world.pool p).members ∧ (m.world.client c).references = 0 ∧
      ∀ k, c ∉ m.drainedBy p k := by
  have hs := hm.seated p
  have hfree : c ∈ (m.books p).free := Multiset.mem_add.mpr (.inl hc)
  have hmem := hs.mem_of_mem_free hfree
  have hrefs := hs.free_unreferenced c hfree
  rw [Machine.books, World.books_client _ (hs.mem_own_of_mem hmem)] at hrefs
  exact ⟨hmem, hrefs, fun k hd => (hm.of_mem_drainedBy hd).2.2 hc⟩

/-! ## Places -/

/-- In every run that leads here the count of references of a client has wrapped around. -/
def Wrapped (m : Machine) (c : ClientKey) : Prop :=
  ¬ m.ReachableWithout fun x => x = .overflow c

/-- Someone has a reference to a client. -/
def Borrowed (m : Machine) (c : ClientKey) : Prop :=
  (m.world.client c).references ≠ 0 ∨ m.Wrapped c

/-- In a run in which no count of references wraps around, that of no client does. -/
theorem ReachableWithout.not_wrapped (hm : m.ReachableWithout Mishap.isOverflow) :
    ¬ m.Wrapped c := by
  rw [Wrapped, not_not]
  refine hm.mono fun x hx => ?_
  rw [of_decide_eq_true hx]
  rfl

theorem ReachableWithout.borrowed_iff (hm : m.ReachableWithout Mishap.isOverflow) :
    m.Borrowed c ↔ (m.world.client c).references ≠ 0 :=
  or_iff_left hm.not_wrapped

/-- Where a client of a pool can be. -/
inductive Situation where
  /-- In the queue of idle clients. -/
  | idle
  /-- With those who have references to it. -/
  | borrowed
  /-- With a call that pings it. -/
  | pinged (k : CallKey)
  deriving DecidableEq

/-- What it means for a client of a pool to be somewhere. -/
def Stands (m : Machine) (p : PoolKey) (c : ClientKey) : Situation → Prop
  | .idle => c ∈ (m.world.pool p).idle ∧ (m.world.client c).references = 0
  | .borrowed => m.Borrowed c ∧ c ∉ (m.world.pool p).idle ∧ ∀ k, c ∉ m.drainedBy p k
  | .pinged k =>
    (m.drainedBy p k).count c = 1 ∧ (m.world.client c).references = 0 ∧
      c ∉ (m.world.pool p).idle

/-- A member that is neither idle nor pinged is borrowed. -/
theorem Reachable.borrowed (hm : m.Reachable) (hc : c ∈ (m.world.pool p).members)
    (hi : c ∉ (m.world.pool p).idle) (hd : ∀ k, c ∉ m.drainedBy p k) : m.Borrowed c := by
  by_contra hb
  simp only [Borrowed, Wrapped, not_or, not_not] at hb
  have htracked : (m.books p).Tracked c :=
    hb.2.books_induct (I := Books.Tracked c) nofun
      (fun b b' hs _ h e => h.entry hs (by simp) e) p
  have hrefs : ((m.books p).client c).references = 0 := by
    rw [Machine.books, World.books_client _ ((hm.sound.seated p).mem_own_of_mem hc)]
    exact hb.1
  rcases htracked hc hrefs with h | h
  · exact hi h
  · obtain ⟨k, hk⟩ := mem_drained_iff.mp h
    exact hd k hk

/-- A client that a call pings is with that call. -/
theorem Sound.stands_pinged (hm : m.Sound) (hc : c ∈ m.drainedBy p k) :
    m.Stands p c (.pinged k) := by
  obtain ⟨-, hrefs, hi⟩ := hm.of_mem_drainedBy hc
  exact ⟨List.count_eq_one_of_mem (hm.nodup_drainedBy p k) hc, hrefs, hi⟩

/-- Every member is in exactly one place. -/
theorem Reachable.existsUnique_stands (hm : m.Reachable) (hc : c ∈ (m.world.pool p).members) :
    ∃! s, m.Stands p c s := by
  have hs := hm.sound
  by_cases hi : c ∈ (m.world.pool p).idle
  · obtain ⟨-, hrefs, hd⟩ := hs.of_mem_idle hi
    refine ⟨.idle, ⟨hi, hrefs⟩, fun s h => ?_⟩
    cases s with
    | idle => rfl
    | borrowed => exact absurd hi h.2.1
    | pinged k => exact absurd hi h.2.2
  by_cases hd : ∃ k, c ∈ m.drainedBy p k
  · obtain ⟨k, hk⟩ := hd
    refine ⟨.pinged k, hs.stands_pinged hk, fun s h => ?_⟩
    cases s with
    | idle => exact absurd h.1 hi
    | borrowed => exact absurd hk (h.2.2 k)
    | pinged k' =>
      by_contra hne
      have hk' : k ≠ k' := fun he => hne (by rw [he])
      have hmem : c ∈ m.drainedBy p k' := List.count_pos_iff.mp (by rw [h.1]; exact Nat.one_pos)
      exact hs.notMem_drainedBy hk' hk hmem
  · rw [not_exists] at hd
    refine ⟨.borrowed, ⟨hm.borrowed hc hi hd, hi, hd⟩, fun s h => ?_⟩
    cases s with
    | idle => exact absurd h.1 hi
    | borrowed => rfl
    | pinged k =>
      exact absurd (List.count_pos_iff.mp (by rw [h.1]; exact Nat.one_pos)) (hd k)

end Machine

/-- A call that pings asks for nothing but to ping a client that it has. -/
theorem KeepAlive.mem_drained_of_request {p : PoolKey} {s : KeepAlivePoint} {c : ClientKey}
    {command : Text} (h : (Point.keepAlive p s).request? = some (.send c command)) :
    c ∈ (Point.keepAlive p s).drained p := by
  match s, h with
  | .pinging true pinged (d :: others) failure, h =>
    simp only [Point.request?, Option.some.injEq, Request.send.injEq] at h
    simp [Point.drained, KeepAlivePoint.drained, h.1]

/-! ## Whoever gets a client -/

/-- A call that stands at `x` ends with a reference to a client of a pool, its own or for a
lease. -/
def Point.Yields (w : World) (p : PoolKey) (c : ClientKey) (x : Point) : Prop :=
  x = .finished (.ok (.client c)) ∨
    ∃ l, x = .finished (.ok (.lease l)) ∧ w.lease l = some (p, c)

/-- Whoever gets a client is told of a success. -/
theorem Point.Yields.exists_ok {w : World} {p : PoolKey} {c : ClientKey} {x : Point}
    (h : x.Yields w p c) : ∃ y, x = .finished (.ok y) := by
  rcases h with h | ⟨l, h, -⟩
  · exact ⟨_, h⟩
  · exact ⟨_, h⟩

namespace Acquire

variable {w : World} {p : PoolKey} {c d : ClientKey} {t : Patience} {leased : Bool} {turn : Turn}

/-- A client that is handed over is the one that the call yields. -/
theorem eq_of_yields_lend
    (h : (Turn.lend w p d leased).point.Yields (Turn.lend w p d leased).world p c) : c = d := by
  cases leased with
  | false =>
    rcases h with h | ⟨l, h, -⟩
    · simpa [Turn.lend, World.handOver, Turn.finish] using h.symm
    · simp [Turn.lend, World.handOver, Turn.finish] at h
  | true =>
    rcases h with h | ⟨l, h, hl⟩
    · simp [Turn.lend, World.handOver, Turn.finish] at h
    · simp only [Turn.lend, World.handOver, Turn.finish, if_true, Point.finished.injEq,
        Outcome.ok.injEq, Yield.lease.injEq] at h hl
      subst h
      simp [World.lease, World.addLease] at hl
      exact hl.symm

/-- A caller who looks for a client gets the first idle one, if it gets any. -/
theorem idle_of_yields_seek
    (h : (seek w p t leased).point.Yields (seek w p t leased).world p c) :
    c ∈ (w.pool p).idle := by
  simp only [seek] at h
  split at h
  · obtain ⟨y, hy⟩ := h.exists_ok
    cases hy
  · split at h
    · next d others hi =>
      rw [eq_of_yields_lend (d := d) h, hi]
      exact List.mem_cons_self
    · split at h
      all_goals
        obtain ⟨y, hy⟩ := h.exists_ok
        cases hy

theorem idle_rise : ((rise w p).pool p).idle = (w.pool p).idle := by
  by_cases hp : p < w.pools.length
  · rw [rise, World.pool_onPool w hp]
  · simp [rise, World.pool, World.onPool, List.modify_eq_self (Nat.le_of_not_lt hp)]

/-- A caller gets a client that is idle, or a new one. -/
theorem idle_or_arrived_of_yields {s : AcquirePoint} (ht : step w p t leased s = some turn)
    (h : turn.point.Yields turn.world p c) : c ∈ (w.pool p).idle ∨ s = .arrived c := by
  cases s with
  | seeking => exact .inl (idle_of_yields_seek (Option.some.inj ht ▸ h))
  | opening => cases ht
  | arrived d =>
    obtain rfl := Option.some.inj ht
    simp only [arrive] at h
    split at h
    · obtain ⟨y, hy⟩ := h.exists_ok
      cases hy
    · rw [eq_of_yields_lend (d := d) h]
      exact .inr rfl
  | refused f =>
    obtain rfl := Option.some.inj ht
    obtain ⟨y, hy⟩ := h.exists_ok
    cases hy
  | asleep => cases ht
  | woken =>
    obtain rfl := Option.some.inj ht
    simp only [wake] at h
    split at h
    · exact .inl (idle_rise ▸ idle_of_yields_seek h)
    · obtain ⟨y, hy⟩ := h.exists_ok
      cases hy
  | expired =>
    obtain rfl := Option.some.inj ht
    simp only [expire] at h
    split at h
    · exact .inl (idle_rise ▸ idle_of_yields_seek h)
    · obtain ⟨y, hy⟩ := h.exists_ok
      cases hy

end Acquire

namespace Machine

variable {m n : Machine} {p : PoolKey} {c : ClientKey} {k : CallKey} {call : Call}

/-- A call that stands somewhere after wake-ups stood there before, or slept. -/
theorem exists_wakes {pick : ℕ} (signals : List Signal) {calls : List Call}
    (h : (signals.foldl (signal pick) calls)[k]? = some call) :
    ∃ call₀, calls[k]? = some call₀ ∧ Point.Wakes call₀.point call.point := by
  induction signals generalizing calls with
  | nil => exact ⟨call, h, .refl _⟩
  | cons s signals ih =>
    obtain ⟨call₁, h₁, hw⟩ := ih h
    obtain ⟨hlength, hget⟩ := List.forall₂_iff_get.mp (forall₂_signal pick calls s)
    obtain ⟨hlt, rfl⟩ := List.getElem?_eq_some_iff.mp h₁
    exact ⟨calls.get ⟨k, hlength ▸ hlt⟩, List.getElem?_eq_getElem _,
      (hget k (hlength ▸ hlt) hlt).trans hw⟩

/-- A call that has ended in its step ended where the step led. -/
theorem exists_turn_of_finished {pick : ℕ} {o : Outcome} (hk : m.call? k = some call)
    (hn : m.perform (.advance k pick) = some n) {call' : Call} (hk' : n.call? k = some call')
    (ho : call'.point = .finished o) :
    ∃ t, turn m.world m.calls.length m.isOver call = some t ∧ n.world = t.world ∧
      t.point = .finished o := by
  unfold perform at hn
  split at hn
  · cases hn
  simp only [advance, Option.bind_eq_bind, hk, Option.bind_some, Option.bind_eq_some_iff,
    Option.some.injEq] at hn
  obtain ⟨t, ht, rfl⟩ := hn
  refine ⟨t, ht, rfl, ?_⟩
  have hlt : k < m.calls.length := (List.getElem?_eq_some_iff.mp hk).1
  simp only [call?, Machine.apply, List.modify_modify_eq] at hk'
  rw [List.getElem?_append_left (by simpa [length_foldl_signal] using hlt)] at hk'
  obtain ⟨call₀, h₀, hw⟩ := exists_wakes t.signals hk'
  rw [List.getElem?_modify_eq] at h₀
  obtain ⟨call₁, -, rfl⟩ := Option.map_eq_some_iff.mp h₀
  replace hw : t.point.Wakes (.finished o) := ho ▸ hw
  generalize t.point = x at hw ⊢
  cases hw
  rfl

/-! ## Exclusive ownership -/

/-- Every client of a pool has one owner. -/
structure ExclusivelyOwned (m : Machine) (p : PoolKey) : Prop where
  /-- No client is a member twice. -/
  nodup_members : (m.world.pool p).members.Nodup
  /-- No client is idle twice. -/
  nodup_idle : (m.world.pool p).idle.Nodup
  /-- Only members are idle. -/
  idle_subset : (m.world.pool p).idle ⊆ (m.world.pool p).members
  /-- Every member is idle, or borrowed, or with one call that pings it. -/
  situation : ∀ c ∈ (m.world.pool p).members, ∃! s, m.Stands p c s
  /-- To be borrowed is to have references, unless more calls have begun than a word can count. -/
  borrowed : m.calls.length < 2 ^ 64 → ∀ c, m.Borrowed c ↔ (m.world.client c).references ≠ 0
  /-- A call that pings has members only, and they are with it and nowhere else. -/
  pinged : ∀ k, ∀ c ∈ m.drainedBy p k, c ∈ (m.world.pool p).members ∧ m.Stands p c (.pinged k)
  /-- A call that pings sends its command to a client that is with it. -/
  request : ∀ k call s c command, m.call? k = some call → call.point = .keepAlive p s →
    call.point.request? = some (.send c command) → m.Stands p c (.pinged k)
  /-- Two calls that ping never have the same client. -/
  apart : ∀ k k', k ≠ k' → (m.drainedBy p k).Disjoint (m.drainedBy p k')
  /-- A client that a call gets from the pool was idle before, if it was a member, and in any case
  nobody had a reference to it or pinged it. -/
  untouched : ∀ k call t leased s pick n call' c, m.call? k = some call →
    call.point = .acquire p t leased s → m.perform (.advance k pick) = some n →
    n.call? k = some call' → call'.point.Yields n.world p c →
    (c ∈ (m.world.pool p).members → m.Stands p c .idle) ∧
      (m.world.client c).references = 0 ∧ ∀ k', c ∉ m.drainedBy p k'

/-- A new client that the pool does not know is no member, nobody has a reference to it, and no
call pings it. -/
theorem Sound.of_arrived (hm : m.Sound) {t : Patience} {leased : Bool} (hk : m.call? k = some call)
    (hpoint : call.point = .acquire p t leased (.arrived c)) :
    c ∉ (m.world.pool p).members ∧ (m.world.client c).references = 0 ∧
      ∀ k', c ∉ m.drainedBy p k' := by
  obtain ⟨rest, hrest, -⟩ := exists_rest hk
  have hs := hm.seated p
  have harrived : c ∈ (m.books p).stake.arrived := by
    show c ∈ (m.stake p).arrived
    rw [hrest p, hpoint]
    simp [Acquire.stake_arrived]
  have hown : c ∈ m.world.own p := hs.owned c (Multiset.mem_add.mpr (.inr harrived))
  have hmem : c ∉ (m.world.pool p).members := fun hc =>
    Multiset.disjoint_left.mp (Multiset.nodup_add.mp hs.nodup).2.2 hc harrived
  have hrefs := hs.arrived_unreferenced c harrived
  rw [Machine.books, World.books_client _ hown] at hrefs
  exact ⟨hmem, hrefs, fun k' hd => hmem (hm.of_mem_drainedBy hd).1⟩

/-- Whoever gets a client from a pool is the only one to have it. -/
theorem Sound.untouched (hm : m.Sound) {t : Patience} {leased : Bool} {s : AcquirePoint}
    {pick : ℕ} {call' : Call} (hk : m.call? k = some call)
    (hpoint : call.point = .acquire p t leased s) (hn : m.perform (.advance k pick) = some n)
    (hk' : n.call? k = some call') (hc : call'.point.Yields n.world p c) :
    (c ∈ (m.world.pool p).members → m.Stands p c .idle) ∧
      (m.world.client c).references = 0 ∧ ∀ k', c ∉ m.drainedBy p k' := by
  obtain ⟨y, ho⟩ := hc.exists_ok
  obtain ⟨turn, ht, hworld, hturn⟩ := exists_turn_of_finished hk hn hk' ho
  have hstep : Acquire.step m.world p t leased s = some turn := by
    unfold Machine.turn at ht
    rwa [hpoint] at ht
  have hyields : turn.point.Yields turn.world p c := by
    rw [hturn, ← ho, ← hworld]
    exact hc
  rcases Acquire.idle_or_arrived_of_yields hstep hyields with hi | harrived
  · obtain ⟨-, hrefs, hd⟩ := hm.of_mem_idle hi
    exact ⟨fun _ => ⟨hi, hrefs⟩, hrefs, hd⟩
  · obtain ⟨hmem, hrefs, hd⟩ := hm.of_arrived hk (harrived ▸ hpoint)
    exact ⟨fun h => absurd h hmem, hrefs, hd⟩

/-- In every machine that can be reached every client of a pool has one owner. -/
theorem exclusive_ownership (hm : m.Reachable) (p : PoolKey) : m.ExclusivelyOwned p := by
  have hs := hm.sound
  constructor
  · exact (hs.seated p).nodup_members
  · exact Multiset.coe_nodup.mp (Multiset.nodup_add.mp (hs.seated p).nodup_free).1
  · exact fun c hc => (hs.of_mem_idle hc).1
  · exact fun c hc => hm.existsUnique_stands hc
  · exact fun h c => (hm.withoutOverflow h).borrowed_iff
  · exact fun k c hc => ⟨(hs.of_mem_drainedBy hc).1, hs.stands_pinged hc⟩
  · intro k call s c command hk hpoint hrequest
    refine hs.stands_pinged ?_
    rw [drainedBy_eq hk, hpoint]
    rw [hpoint] at hrequest
    exact KeepAlive.mem_drained_of_request hrequest
  · exact fun k k' hk c hc hc' => hs.notMem_drainedBy hk hc hc'
  · intro k call t leased s pick n call' c hk hpoint hn hk' hc
    exact hs.untouched hk hpoint hn hk' hc

/-- A run after which one client is idle, one is borrowed and one is pinged, and a caller is about
to look for a client. -/
def sharedOut : List Event :=
  let limits : PoolLimits := { maxClients := 3, initialClients := 1 }
  [.begin (.construct {} limits true .standard),
    .advance 0 0, .answer 0 (.opened (.session true)), .advance 0 0, .advance 0 0,
    .begin (.keepAlive 0), .advance 1 0,
    .begin (.acquire 0 0), .advance 2 0, .answer 2 (.opened (.session true)), .advance 2 0,
    .begin (.acquire 0 0), .advance 3 0, .answer 3 (.opened (.session true)), .advance 3 0,
    .begin (.release 0 2), .advance 4 0, .begin (.acquire 0 0)]

/-- All three places occur, and the caller gets the client that is idle. -/
theorem exclusive_ownership_sharedOut : ∃ m n : Machine, run {} sharedOut = some m ∧
    (m.world.pool 0).members = [0, 1, 2] ∧ (m.world.pool 0).idle = [2] ∧
    (m.world.client 1).references = 1 ∧ m.drainedBy 0 1 = [0] ∧
    m.perform (.advance 5 0) = some n ∧
    (n.call? 5).map Call.point = some (.finished (.ok (.client 2))) ∧
    m.ExclusivelyOwned 0 :=
  ⟨_, _, rfl, rfl, rfl, rfl, rfl, rfl, rfl, exclusive_ownership ⟨sharedOut, rfl⟩ 0⟩

end Machine
end SessionPool
