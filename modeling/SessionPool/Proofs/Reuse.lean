import SessionPool.Proofs.Conservation
import SessionPool.Proofs.Finality
import SessionPool.Proofs.Sessions
import SessionPool.Proofs.Vacancy

/-!
# Clients are made only when all others are out

A caller reserves a slot for a new client only when no client is idle.  All slots of the pool are
outstanding then, and with the new one there are as many as there have never been before.  So, while
nothing goes wrong with a pool, it has as many clients as it had at first, or as many as have been
out at one time, whichever is more.

The number of clients out at one time goes up and down, and the statement is about the highest that
it has been: it is one about a history, and not about the machine that the history leads to.  What
carries it along is that the slots of a pool are idle or outstanding at any time.

* `Machine.Calm`: nothing goes wrong with a pool.
* `Dealing.keeps`: what a turn does to the slots of such a pool.
* `Machine.Calm.created_perform`: an event makes a slot only by a new highest number outstanding.
* `Machine.no_needless_sessions`: this for whole runs.
-/

namespace SessionPool

/-- A caller who stands here has been refused a session for a client of the pool. -/
def Point.isRefused (p : PoolKey) : Point → Bool
  | .acquire q _ _ (.refused _) => q = p
  | _ => false

namespace Machine

/-! ## Histories -/

/-- The machines that a run passes through, the first and the last one included. -/
def passed (m : Machine) : List Event → List Machine
  | [] => [m]
  | e :: es => m :: ((m.perform e).map fun n => passed n es).getD []

/-- How many sessions are being opened for a pool. -/
def openings (m : Machine) (p : PoolKey) : ℕ :=
  m.calls.countP fun k => k.point.request? = some (.openSession p)

/-- The most slots of a pool that are outstanding in one of these machines. -/
def peak (p : PoolKey) (ms : List Machine) : ℕ :=
  (ms.map fun m => (m.world.pool p).outstanding.toNat).foldr max 0

/-- Nothing goes wrong with a pool: it is not closing, none of its clients is broken, and no caller
has been refused a session. -/
structure Calm (m : Machine) (p : PoolKey) : Prop where
  isOpen : (m.world.pool p).closing = false
  whole : ∀ c ∈ m.world.own p, (m.world.client c).isBroken = false
  granted : ∀ k ∈ m.calls, k.point.isRefused p = false

instance (m : Machine) (p : PoolKey) : Decidable (m.Calm p) :=
  decidable_of_iff
    ((m.world.pool p).closing = false ∧ (∀ c ∈ m.world.own p, (m.world.client c).isBroken = false) ∧
      ∀ k ∈ m.calls, k.point.isRefused p = false)
    ⟨fun h => ⟨h.1, h.2.1, h.2.2⟩, fun h => ⟨h.isOpen, h.whole, h.granted⟩⟩

/-- The last event of this run leads to `m`, and with it the construction of the pool is complete:
nobody has had the pool in hand before. -/
def Constructs (es : List Event) (p : PoolKey) (m : Machine) : Prop :=
  ∃ fs e l, es = fs ++ [e] ∧ run {} fs = some l ∧ l.hasPool p = false ∧ l.perform e = some m ∧
    m.hasPool p = true

variable {m n l : Machine} {e : Event} {es fs : List Event} {p : PoolKey}

theorem passed_cons (h : m.perform e = some l) : passed m (e :: es) = m :: passed l es := by
  simp [passed, h]

theorem mem_passed_self (m : Machine) (es : List Event) : m ∈ passed m es := by
  cases es with
  | nil => exact List.mem_singleton_self m
  | cons e es => exact List.mem_cons_self

theorem mem_passed_last (h : m.run es = some n) : n ∈ passed m es := by
  induction es generalizing m with
  | nil =>
    rw [run_nil, Option.some.injEq] at h
    exact h ▸ mem_passed_self m []
  | cons e es ih =>
    rw [run_cons, Option.bind_eq_some_iff] at h
    obtain ⟨l, hl, h⟩ := h
    rw [passed_cons hl]
    exact List.mem_cons_of_mem m (ih h)

/-- A run passes through what its two parts pass through. -/
theorem mem_passed_append (h : m.run es = some l) :
    n ∈ passed m (es ++ fs) ↔ n ∈ passed m es ∨ n ∈ passed l fs := by
  induction es generalizing m with
  | nil =>
    rw [run_nil, Option.some.injEq] at h
    subst h
    refine ⟨.inr, fun hn => hn.elim (fun hn => ?_) id⟩
    exact List.mem_singleton.mp hn ▸ mem_passed_self m fs
  | cons e es ih =>
    rw [run_cons, Option.bind_eq_some_iff] at h
    obtain ⟨m', hm', h⟩ := h
    rw [List.cons_append, passed_cons hm', passed_cons hm', List.mem_cons, List.mem_cons, ih h,
      or_assoc]

theorem outstanding_le_peak {ms : List Machine} (h : m ∈ ms) :
    (m.world.pool p).outstanding.toNat ≤ peak p ms := by
  induction ms with
  | nil => cases h
  | cons l ms ih =>
    rcases List.mem_cons.mp h with rfl | h
    · exact le_max_left _ _
    · exact (ih h).trans (le_max_right _ _)

theorem peak_le {ms : List Machine} {i : ℕ}
    (h : ∀ m ∈ ms, (m.world.pool p).outstanding.toNat ≤ i) : peak p ms ≤ i := by
  induction ms with
  | nil => exact Nat.zero_le i
  | cons l ms ih =>
    rw [List.forall_mem_cons] at h
    exact max_le h.1 (ih h.2)

end Machine

/-! ## What a turn does -/

/-- The clients that a pool knows, and those that have come for it, as far as a call that stands at
`x` has them. -/
def Pool.Houses (pool : Pool) (p : PoolKey) (x : Point) (c : ClientKey) : Prop :=
  c ∈ pool.members ∨ c ∈ (x.stake p).arrived

/-- No client has come for a pool to a call that creates none. -/
theorem Point.arrived_of_not_creates {x : Point} {p : PoolKey} (h : x.creates p = false) :
    (x.stake p).arrived = 0 :=
  Stake.arrived_eq_zero (by rw [creations_stake, h]; rfl)

/-- Whoever has nothing to do with a pool creates no client for it. -/
theorem Point.creates_of_minds {x : Point} {p : PoolKey} (h : x.minds p = false) :
    x.creates p = false := by
  cases x with
  | stock q left s | acquire q t leased s =>
    have hq : q ≠ p := of_decide_eq_false h
    simp [creates, hq]
  | _ => rfl

/-- Whoever looks for a client has no slot for a new one. -/
theorem Point.creates_of_looks {p : PoolKey} {t : Patience} {leased : Bool} {s : AcquirePoint}
    (h : s.looks = true) : (Point.acquire p t leased s).creates p = false := by
  cases s <;> simp_all [creates, AcquirePoint.creates, AcquirePoint.looks]

/-- A session is being opened for each call that has asked for one. -/
theorem Point.openings_stake (x : Point) (p : PoolKey) :
    (x.stake p).openings = if x.request? = some (.openSession p) then 1 else 0 := by
  cases x with
  | stock q left s =>
    cases s <;> simp [stake, StockPoint.stake, request?, apply_ite Stake.openings]
  | acquire q t leased s =>
    cases s <;> simp [stake, AcquirePoint.stake, request?, apply_ite Stake.openings]
  | keepAlive q s =>
    rcases s with _ | ⟨waiting, pinged, todo, failure⟩
    · simp [stake, request?, apply_ite Stake.openings]
    · cases waiting <;> cases todo <;> simp [stake, request?, apply_ite Stake.openings]
  | close q s => cases s <;> simp [stake, ClosePoint.stake, request?, apply_ite Stake.openings]
  | exchange c command ping waiting => cases waiting <;> simp [stake, request?]
  | farewell rite waiting todo next =>
    cases rite <;> cases next <;> cases waiting <;> cases todo <;>
      simp [stake, request?, apply_ite Stake.openings]
  | _ => rfl

/-- A session is opened for a pool by a call that stocks it, or by one that wants a client. -/
theorem Point.errand_of_request {x : Point} {p : PoolKey}
    (h : x.request? = some (.openSession p)) :
    x.errand? = some (.stock p) ∨ x.errand? = some (.use p) := by
  unfold Point.request? at h
  split at h <;> cases h
  · exact .inl rfl
  · exact .inr rfl

/-- Only a caller who has been refused a session has a slot for one that has not come, or a call
that stocks the pool. -/
theorem Point.refusals_stake {x : Point} {p : PoolKey} (granted : x.isRefused p = false)
    (unstocked : x.errand? ≠ some (.stock p)) : (x.stake p).refusals = 0 := by
  cases x with
  | stock q left s =>
    have hq : q ≠ p := fun hq => unstocked (by rw [hq]; rfl)
    simp [stake, hq]
  | acquire q t leased s =>
    cases s with
    | refused f =>
      have hq : q ≠ p := of_decide_eq_false granted
      simp [stake, hq]
    | _ => simp [stake, AcquirePoint.stake, apply_ite Stake.refusals]
  | keepAlive q s => simp [stake, apply_ite Stake.refusals]
  | close q s => cases s <;> simp [stake, ClosePoint.stake, apply_ite Stake.refusals]
  | farewell rite waiting todo next =>
    cases rite <;> cases next <;> simp [stake, apply_ite Stake.refusals]
  | _ => rfl

/-- Clients that have been pinged go back, all of them, if none is broken and the pool is open. -/
theorem Pool.foldl_settle_of_whole {w : World} {p : PoolKey} {cs : List ClientKey}
    (h : ∀ c ∈ cs, KeepAlive.isDiscarded w p c = false) (pool : Pool) :
    (cs.foldl (Pool.settle w p) pool).created = pool.created ∧
      (cs.foldl (Pool.settle w p) pool).members = pool.members := by
  induction cs generalizing pool with
  | nil => exact ⟨rfl, rfl⟩
  | cons c cs ih =>
    rw [List.forall_mem_cons] at h
    have hc : Pool.settle w p pool c = pool.giveBack.pushIdle c := by simp [Pool.settle, h.1]
    rw [List.foldl_cons, hc]
    exact ih h.2 _

section Turns

variable {w : World} {p : PoolKey} {x y : Point} {pool : Pool} {ss : List Signal}

/-- A caller who has looked for a client reserves a slot. -/
structure Reserves (before : Pool) (p : PoolKey) (x y : Point) (after : Pool) : Prop where
  room : before.hasRoom = true
  created : after.created = before.created + 1
  outstanding : after.outstanding = before.outstanding + 1
  looking : ∃ t leased s, x = .acquire p t leased s ∧ s.looks = true ∧
    y = .acquire p t leased .opening

/-- While nothing goes wrong with a pool, a turn leaves the number of its slots alone, unless a
caller reserves one, and no client leaves the pool. -/
theorem Dealing.keeps (h : Dealing w p x y pool ss) (unstocked : ∀ left s, x ≠ .stock p left s)
    (isOpen : (w.pool p).closing = false) (staysOpen : pool.closing = false)
    (whole : ∀ c, c ∈ (w.pool p).members ∨ c ∈ x.drained p → (w.client c).isBroken = false)
    (granted : x.isRefused p = false) (undrained : x ≠ .close p (.draining true)) :
    (pool.created = (w.pool p).created ∨ Reserves (w.pool p) p x y pool) ∧
      ∀ c, (w.pool p).Houses p x c → pool.Houses p y c := by
  have hsame : ∀ {pool' : Pool}, x.creates p = false → pool'.members = (w.pool p).members →
      ∀ c, (w.pool p).Houses p x c → pool'.Houses p y c := by
    intro pool' hx hmembers c hc
    rcases hc with hc | hc
    · exact .inl (hmembers ▸ hc)
    · rw [Point.arrived_of_not_creates hx] at hc
      exact absurd hc (Multiset.notMem_zero c)
  cases h with
  | elsewhere hx hy => exact ⟨.inl rfl, hsame (Point.creates_of_minds hx) rfl⟩
  | stocked => exact absurd rfl (unstocked _ _)
  | barred looks closing | dismissed closing =>
    exact absurd (isOpen.symm.trans closing) Bool.false_ne_true
  | taken o looks =>
    exact ⟨.inl (AcquirePoint.rise_created _ _),
      hsame (Point.creates_of_looks looks) (AcquirePoint.rise_members _ _)⟩
  | @reserved t leased s looks wasOpen room =>
    refine ⟨.inr ⟨room, ?_, ?_, t, leased, s, rfl, looks, rfl⟩,
      hsame (Point.creates_of_looks looks) (AcquirePoint.rise_members _ _)⟩
    · simp [Pool.reserve]
    · simp [Pool.reserve]
  | arrived c | missed kind =>
    refine ⟨.inl rfl, fun d hd => .inl ?_⟩
    simpa [Pool.Houses, Point.stake, AcquirePoint.stake] using hd
  | enrolled o =>
    refine ⟨.inl rfl, fun d hd => .inl ?_⟩
    simpa [Pool.Houses, Pool.enroll, Point.stake, AcquirePoint.stake] using hd
  | refused => simp [Point.isRefused] at granted
  | discarded mem last cause =>
    rw [whole _ (.inl mem), isOpen, or_self] at cause
    exact absurd cause Bool.false_ne_true
  | @restored waiting pinged cs failure o =>
    have hpinged : ∀ c ∈ pinged, KeepAlive.isDiscarded w p c = false := by
      intro c hc
      rw [KeepAlive.isDiscarded, isOpen, Bool.or_false]
      exact whole c (.inr (by simpa [Point.drained, KeepAlivePoint.drained] using hc))
    obtain ⟨hcreated, hmembers⟩ := Pool.foldl_settle_of_whole hpinged (w.pool p)
    exact ⟨.inl hcreated, hsame rfl hmembers⟩
  | begun | begunAtOnce => exact absurd staysOpen (Bool.false_ne_true ∘ Eq.symm)
  | emptied => exact absurd rfl undrained
  | slept | dozed | expired | timedOut =>
    exact ⟨.inl rfl, hsame (by simp [Point.creates, AcquirePoint.creates]) rfl⟩
  | _ => exact ⟨.inl rfl, hsame rfl rfl⟩

/-- No client leaves a pool that is being stocked. -/
theorem Stock.houses_step {left : ℕ} {s : StockPoint} {turn : Turn} (hp : p < w.pools.length)
    (h : Stock.step w p left s = some turn) {c : ClientKey}
    (hc : (w.pool p).Houses p (.stock p left s) c) :
    (turn.world.pool p).Houses p turn.point c := by
  unfold Pool.Houses at hc ⊢
  cases s with
  | reserving =>
    rw [Point.arrived_of_not_creates (by simp [Point.creates, StockPoint.creates])] at hc
    have hmem : c ∈ (w.pool p).members := hc.resolve_right (Multiset.notMem_zero c)
    cases left with
    | zero => exact Option.some.inj h ▸ .inl hmem
    | succ left =>
      refine Option.some.inj h ▸ .inl ?_
      rw [Turn.goto, World.pool_onPool w hp]
      exact hmem
  | opening => cases h
  | arrived d =>
    refine Option.some.inj h ▸ .inl ?_
    rw [Turn.goto, World.pool_onPool _ (by simpa using hp)]
    simpa [Point.stake, StockPoint.stake, Pool.enrollIdle] using hc
  | refused f =>
    refine Option.some.inj h ▸ .inl ?_
    rw [World.pool_onPool w hp]
    simpa [Point.stake, StockPoint.stake, Pool.unreserve] using hc

/-- Whether a session comes or not, no client leaves the pool. -/
theorem Stock.houses_answered {left : ℕ} (hp : p < w.pools.length) (a : OpenAnswer)
    {c : ClientKey} (hc : (w.pool p).Houses p (.stock p left .opening) c) :
    ((Stock.answered w p left a).world.pool p).Houses p (Stock.answered w p left a).point c := by
  have hmem : c ∈ (w.pool p).members := by
    simpa [Pool.Houses, Point.stake, StockPoint.stake] using hc
  refine .inl ?_
  cases a with
  | session connected =>
    simp only [Stock.answered, Opening.answered]
    rw [World.pool_onPool (w.addClient _) (show p < (w.addClient _).pools.length from hp)]
    exact hmem
  | nothing => exact hmem
  | failed reason => exact hmem

/-- Who is about to reserve a slot has found no client idle. -/
theorem Acquire.idle_of_seek {q : PoolKey} {t u : Patience} {leased b : Bool}
    (h : (Acquire.seek w p t leased).point = .acquire q u b .opening) : (w.pool p).idle = [] := by
  simp only [Acquire.seek] at h
  split at h
  · cases h
  · split at h
    · simp only [Turn.saying, Turn.lend, Turn.finish] at h
      cases h
    · assumption

/-- Who is about to reserve a slot has found no client idle. -/
theorem Acquire.idle_of_step {q : PoolKey} {t u : Patience} {leased b : Bool} {s : AcquirePoint}
    {turn : Turn} (ht : Acquire.step w p t leased s = some turn)
    (h : turn.point = .acquire q u b .opening) : (w.pool p).idle = [] := by
  cases s with
  | seeking => exact idle_of_seek (Option.some.inj ht ▸ h)
  | opening => cases ht
  | asleep => cases ht
  | arrived c =>
    obtain rfl := Option.some.inj ht
    simp only [Acquire.arrive] at h
    split at h
    · cases h
    · simp only [Turn.saying, Turn.lend, Turn.finish] at h
      cases h
  | refused f =>
    obtain rfl := Option.some.inj ht
    cases h
  | woken =>
    obtain rfl := Option.some.inj ht
    simp only [Acquire.wake] at h
    split at h
    · exact Acquire.idle_rise ▸ idle_of_seek h
    · cases h
  | expired =>
    obtain rfl := Option.some.inj ht
    simp only [Acquire.expire] at h
    split at h
    · exact Acquire.idle_rise ▸ idle_of_seek h
    · cases h

end Turns

namespace Machine

variable {m n : Machine} {e : Event} {k : CallKey} {call : Call} {t : Turn} {p : PoolKey}

/-- What a turn of a call that does not stock the pool makes of its slots while nothing goes wrong
with it. -/
theorem Takes.keeps (takes : m.Takes k call e t) (hm : m.Reachable) (hk : m.call? k = some call)
    (hp : p < m.world.pools.length) (unstocked : ∀ left s, call.point ≠ .stock p left s)
    (calm : m.Calm p) (staysOpen : (t.world.pool p).closing = false) :
    ((t.world.pool p).created = (m.world.pool p).created ∨
        Reserves (m.world.pool p) p call.point t.point (t.world.pool p)) ∧
      ∀ c, (m.world.pool p).Houses p call.point c → (t.world.pool p).Houses p t.point c := by
  refine (takes.dealing hm.sound hk hp).keeps unstocked calm.isOpen staysOpen (fun c hc => ?_)
    (calm.granted call (List.mem_of_getElem? hk)) fun hx => ?_
  · refine calm.whole c ((hm.sound.seated p).mem_own_of_mem (hc.elim id fun hd => ?_))
    exact (hm.sound.of_mem_drainedBy (drainedBy_eq hk ▸ hd)).1
  · have hclosing := hm.closing_of_draining (List.mem_of_getElem? hk) hx
    exact absurd (calm.isOpen.symm.trans hclosing) Bool.false_ne_true

/-- While nothing goes wrong with a pool, no client leaves it in a turn. -/
theorem Takes.houses (takes : m.Takes k call e t) (hm : m.Reachable) (hk : m.call? k = some call)
    (hp : p < m.world.pools.length) (calm : m.Calm p)
    (staysOpen : (t.world.pool p).closing = false) {c : ClientKey}
    (hc : (m.world.pool p).Houses p call.point c) : (t.world.pool p).Houses p t.point c := by
  by_cases hstock : ∃ left s, call.point = .stock p left s
  · obtain ⟨left, s, hx⟩ := hstock
    cases takes with
    | step ht =>
      rw [turn, hx] at ht
      exact Stock.houses_step hp ht (hx ▸ hc)
    | stocked a hpoint =>
      rw [hx] at hpoint
      cases hpoint
      exact Stock.houses_answered hp a (hx ▸ hc)
    | overlooked ht hpoint | opened a hpoint | pinged a hpoint | replied a hpoint | parted a hpoint
    | expired hpoint | beat hpoint =>
      rw [hx] at hpoint
      cases hpoint
  · exact (takes.keeps hm hk hp (fun left s hx => hstock ⟨left, s, hx⟩) calm staysOpen).2 c hc

/-! ## Nobody leaves -/

/-- No client has ever left the pool. -/
def Intact (m : Machine) (p : PoolKey) : Prop := ∀ c ∈ m.world.own p, c ∈ (m.books p).seated

/-- A pool that has a slot is there. -/
theorem lt_length_of_created (h : 0 < (m.world.pool p).created.toNat) :
    p < m.world.pools.length := by
  by_contra hp
  have hd : m.world.pool p = default := by
    simp [World.pool, List.getElem?_eq_none (Nat.le_of_not_lt hp)]
  rw [hd] at h
  exact Nat.lt_irrefl 0 h

/-- A pool that a client has a slot of is there. -/
theorem Sound.lt_length_of_mem_seated (hm : m.Sound) {c : ClientKey}
    (h : c ∈ (m.books p).seated) : p < m.world.pools.length := by
  refine lt_length_of_created ?_
  have hcreated := hm.toNat_created p
  have hpos : 0 < (m.books p).seated.card := Multiset.card_pos_iff_exists_mem.mpr ⟨c, h⟩
  have hcard : (m.books p).seated.card =
      (m.world.pool p).members.length + (m.stake p).arrived.card := Multiset.card_add _ _
  unfold Stake.creations at hcreated
  omega

/-- A client that is made now has come to the call that takes its turn. -/
theorem Takes.arrived_of_delivers (takes : m.Takes k call e t) (hk : m.call? k = some call)
    (h : m.delivers p e = true) :
    call.point.creates p = true ∧ m.world.clients.length ∈ (t.point.stake p).arrived := by
  obtain ⟨connected, j, call', rfl, hj, hx⟩ := delivers_iff.mp h
  cases takes with
  | stocked a hpoint =>
    obtain rfl := Option.some.inj (hk.symm.trans hj)
    refine ⟨Point.creates_of_request hx, ?_⟩
    rw [hpoint, Point.request?, Option.some.injEq, Request.openSession.injEq] at hx
    subst hx
    simp [Stock.answered, Opening.answered, Point.stake, StockPoint.stake]
  | opened a hpoint =>
    obtain rfl := Option.some.inj (hk.symm.trans hj)
    refine ⟨Point.creates_of_request hx, ?_⟩
    rw [hpoint, Point.request?, Option.some.injEq, Request.openSession.injEq] at hx
    subst hx
    simp [Acquire.answered, Opening.answered, Point.stake, AcquirePoint.stake]

/-- A turn of a call leaves the clients alone that have come to others. -/
theorem exists_arrived_rest (hk : m.call? k = some call) (p : PoolKey) (s : Sequel) (pick : ℕ)
    (t : Turn) : ∃ rest, (m.stake p).arrived = (call.point.stake p).arrived + rest ∧
      (t.point.stake p).arrived + rest ≤ ((apply
        { m with calls := m.calls.modify k fun c => { c with sequel := s } } k pick t).stake
          p).arrived := by
  obtain ⟨rest, hrest, hafter⟩ := exists_rest hk
  refine ⟨(rest p).arrived, by rw [hrest, Stake.arrived_add], ?_⟩
  rw [hafter { m with calls := m.calls.modify k fun c => { c with sequel := s } }
    (fun c => { c with sequel := s }) pick t rfl p, Stake.arrived_add, Stake.arrived_add]
  exact Multiset.le_add_right _ _

/-- While nothing goes wrong with a pool, no client leaves it. -/
theorem Intact.perform (h : m.Intact p) (hm : m.Reachable) (hn : m.perform e = some n)
    (before : m.Calm p) (after : n.Calm p) : n.Intact p := by
  intro c hc
  have hroster : c ∈ m.world.own p ∨ m.delivers p e = true ∧ c = m.world.clients.length := by
    rw [← World.mem_roster, roster_perform hn, List.mem_append, World.mem_roster] at hc
    refine hc.imp_right fun hnew => ?_
    split at hnew
    · next hdelivers => exact ⟨hdelivers, List.mem_singleton.mp hnew⟩
    · cases hnew
  have hthere : ∀ c ∈ m.world.own p, p < m.world.pools.length :=
    fun c hc => hm.sound.lt_length_of_mem_seated (h c hc)
  have hstay : n.world.pool p = m.world.pool p → (m.stake p).arrived ≤ (n.stake p).arrived →
      c ∈ m.world.own p → c ∈ (n.books p).seated := by
    intro hpool hstake hold
    refine Multiset.mem_add.mpr ((Multiset.mem_add.mp (h c hold)).imp (fun hmem => ?_) fun hc => ?_)
    · exact (congrArg (fun pool : Pool => c ∈ (pool.members : Multiset ClientKey)) hpool).mpr hmem
    · exact Multiset.subset_of_le hstake hc
  cases happens hn with
  | @turn _ k call t pick s hk takes sequel =>
    obtain ⟨rest, hrest, hafter⟩ := exists_arrived_rest hk p s pick t
    have hseated : (t.world.pool p).Houses p t.point c ∨ c ∈ rest →
        c ∈ (t.world.pool p).members ∨ c ∈ (t.point.stake p).arrived + rest := by
      rw [Pool.Houses, or_assoc, Multiset.mem_add]
      exact id
    refine Multiset.mem_add.mpr ((hseated ?_).imp id fun hc => Multiset.subset_of_le hafter hc)
    rcases hroster with hold | ⟨hdelivers, rfl⟩
    · have hplace : c ∈ (m.world.pool p).members ∨ c ∈ (m.stake p).arrived :=
        Multiset.mem_add.mp (h c hold)
      rw [hrest, Multiset.mem_add, ← or_assoc] at hplace
      exact hplace.imp_left (takes.houses hm hk (hthere c hold) before after.isOpen)
    · exact .inl (.inr (takes.arrived_of_delivers hk hdelivers).2)
  | @enter o permits =>
    have hold : c ∈ m.world.own p := hroster.resolve_right fun h => by cases h.1
    refine hstay (pool_enter _ o (hthere c hold)) ?_ hold
    simp only [stake, Machine.begin, stakeOf_append, Stake.arrived_add]
    exact Multiset.le_add_right _ _
  | @aside _ w befalls =>
    have hold : c ∈ m.world.own p := by
      refine hroster.resolve_right fun h => ?_
      cases befalls <;> cases h.1
    refine hstay ?_ le_rfl hold
    simp [World.pool, befalls.pools]

/-! ## Slots -/

/-- Whoever reserves a slot has found no client idle. -/
theorem Takes.idle_of_reserves (takes : m.Takes k call e t)
    (h : Reserves (m.world.pool p) p call.point t.point (t.world.pool p)) :
    (m.world.pool p).idle = [] := by
  obtain ⟨u, leased, s, hx, looks, hy⟩ := h.looking
  have hstands : call.point.request? = none ∧ call.point.sleeps = false := by
    rw [hx]
    cases s <;> first | exact ⟨rfl, rfl⟩ | cases looks
  obtain ⟨-, ht⟩ := takes.turn_eq hstands.1 hstands.2 (by simp [hx])
  rw [turn, hx] at ht
  exact Acquire.idle_of_step ht hy

/-- While nothing goes wrong with a pool, it gets a slot only when more slots are outstanding than
it has had so far. -/
theorem Calm.created_perform (before : m.Calm p) (hm : m.Reachable) (hn : m.perform e = some n)
    (hp : m.hasPool p = true) (after : n.Calm p) : (n.world.pool p).created.toNat =
      max (m.world.pool p).created.toNat (n.world.pool p).outstanding.toNat := by
  have hslots := hm.sound.toNat_created_idle p
  have hslots' := (hm.perform hn).sound.toNat_created_idle p
  obtain ⟨hlength, hstocks⟩ := hasPool_iff.mp hp
  have hsame : (n.world.pool p).created = (m.world.pool p).created →
      (n.world.pool p).created.toNat =
        max (m.world.pool p).created.toNat (n.world.pool p).outstanding.toNat := by
    intro h
    rw [h] at hslots' ⊢
    omega
  cases happens hn with
  | @turn _ k call t pick s hk takes sequel =>
    have unstocked : ∀ left s, call.point ≠ .stock p left s :=
      fun left s hx => hstocks call (List.mem_of_getElem? hk) (by rw [hx]; rfl)
    rcases (takes.keeps hm hk hlength unstocked before after.isOpen).1 with h | h
    · exact hsame h
    · have hidle := takes.idle_of_reserves h
      have hcreated : (m.world.pool p).created = (m.world.pool p).outstanding :=
        UInt64.toNat_inj.mp (by simpa [hidle] using hslots)
      have hroom : (m.world.pool p).created.toNat < (m.world.pool p).limits.maxClients.toNat :=
        UInt64.lt_iff_toNat_lt.mp (of_decide_eq_true h.room)
      show (t.world.pool p).created.toNat = max _ (t.world.pool p).outstanding.toNat
      rw [h.outstanding, h.created, ← hcreated, toNat_add_one hroom]
      omega
  | @enter o permits => exact hsame (congrArg Pool.created (pool_enter _ o hlength))
  | @aside _ w befalls => exact hsame (by simp [World.pool, befalls.pools])

/-! ## Sessions -/

theorem openings_stakeOf (calls : List Call) (p : PoolKey) : (stakeOf calls p).openings =
    calls.countP fun k => k.point.request? = some (.openSession p) := by
  induction calls with
  | nil => rfl
  | cons k calls ih =>
    rw [stakeOf_cons, Stake.openings_add, ih, Point.openings_stake, List.countP_cons, add_comm]
    simp

/-- A calm pool that nobody stocks has no slot for a session that has not come. -/
theorem refusals_stakeOf {calls : List Call} (granted : ∀ k ∈ calls, k.point.isRefused p = false)
    (unstocked : ∀ k ∈ calls, k.point.errand? ≠ some (.stock p)) :
    (stakeOf calls p).refusals = 0 := by
  induction calls with
  | nil => rfl
  | cons k calls ih =>
    rw [List.forall_mem_cons] at granted unstocked
    rw [stakeOf_cons, Stake.refusals_add, ih granted.2 unstocked.2,
      Point.refusals_stake granted.1 unstocked.1]

/-- A pool that no client has left has one slot for each client that has been made and for each
session that is being opened. -/
theorem Calm.created_eq (h : m.Calm p) (hm : m.Sound) (hp : m.hasPool p = true)
    (intact : m.Intact p) :
    (m.world.pool p).created.toNat = (m.world.roster p).length + m.openings p := by
  have hcreated := hm.toNat_created p
  have hopenings : (m.stake p).openings = m.openings p := openings_stakeOf m.calls p
  have hrefusals : (m.stake p).refusals = 0 := refusals_stakeOf h.granted (hasPool_iff.mp hp).2
  have hown : m.world.own p = (m.books p).seated.toFinset := by
    ext c
    rw [Multiset.mem_toFinset]
    exact ⟨intact c, (hm.seated p).owned c⟩
  have hcard : (m.world.roster p).length =
      (m.world.pool p).members.length + (m.stake p).arrived.card := by
    rw [← World.card_own, hown, Multiset.toFinset_card_of_nodup (hm.seated p).nodup]
    exact Multiset.card_add _ _
  unfold Stake.creations at hcreated
  omega

/-! ## Runs -/

variable {l : Machine} {es fs : List Event}

/-- What every event keeps by which nothing goes wrong is kept by a run in which nothing does. -/
theorem calm_induct {P : Machine → Prop} (hm : m.Reachable) (hP : P m)
    (keeps : ∀ l n e, l.Reachable → l.Calm p → n.Calm p → P l → l.perform e = some n → P n)
    (hn : m.run es = some n) (calm : ∀ l ∈ passed m es, l.Calm p) : P n := by
  induction es generalizing m with
  | nil =>
    rw [run_nil, Option.some.injEq] at hn
    exact hn ▸ hP
  | cons e es ih =>
    rw [run_cons, Option.bind_eq_some_iff] at hn
    obtain ⟨l, hl, hn⟩ := hn
    rw [passed_cons hl, List.forall_mem_cons] at calm
    exact ih (hm.perform hl) (keeps m l e hm calm.1 (calm.2 l (mem_passed_self l es)) hP hl) hn
      calm.2

/-- While nothing goes wrong with a pool, it has as many slots as it had at first, or as have been
outstanding at one time. -/
theorem created_run (hm : m.Reachable) (hp : m.hasPool p = true) (hn : m.run es = some n)
    (calm : ∀ l ∈ passed m es, l.Calm p) : (n.world.pool p).created.toNat =
      max (m.world.pool p).created.toNat (peak p (passed m es)) := by
  have hslots : ∀ {l : Machine}, l.Reachable →
      (l.world.pool p).outstanding.toNat ≤ (l.world.pool p).created.toNat :=
    fun hl => hl.sound.toNat_created_idle p ▸ Nat.le_add_left _ _
  induction es generalizing m with
  | nil =>
    rw [run_nil, Option.some.injEq] at hn
    subst hn
    have hout := hslots hm
    simp only [passed, peak, List.map_cons, List.map_nil, List.foldr_cons, List.foldr_nil]
    omega
  | cons e es ih =>
    rw [run_cons, Option.bind_eq_some_iff] at hn
    obtain ⟨l, hl, hn⟩ := hn
    rw [passed_cons hl, List.forall_mem_cons] at calm
    have hstep := calm.1.created_perform hm hl hp (calm.2 l (mem_passed_self l es))
    have hout := hslots hm
    have hpeak : (l.world.pool p).outstanding.toNat ≤ peak p (passed l es) :=
      outstanding_le_peak (mem_passed_self l es)
    have hcons : peak p (m :: passed l es) =
        max (m.world.pool p).outstanding.toNat (peak p (passed l es)) := rfl
    rw [ih (hm.perform hl) (hm.sound.hasPool_perform hl hp) hn calm.2, passed_cons hl, hstep, hcons]
    omega

/-- Nobody creates a client of a pool whose construction has just been completed. -/
theorem Constructs.openings_eq_zero (h : Constructs es p m) : m.openings p = 0 := by
  obtain ⟨fs, e, l, -, hl, unready, he, ready⟩ := h
  have hl : l.Reachable := ⟨fs, hl⟩
  have hunused : ∀ k ∈ l.calls, k.point.errand? ≠ some (.use p) := fun k hk hx => by
    rw [hl.sound.used k hk p hx] at unready
    cases unready
  refine List.countP_eq_zero.mpr fun k hk hx => ?_
  have hx := of_decide_eq_true hx
  have herrand : k.point.errand? = some (.use p) :=
    (Point.errand_of_request hx).resolve_left ((hasPool_iff.mp ready).2 k hk)
  obtain ⟨j, hj⟩ := List.mem_iff_getElem?.mp hk
  rcases hl.sound.errand_before (happens he) hj herrand with ⟨call, hcall, hx⟩ | ⟨o, -, hpoint⟩
  · exact hunused call (List.mem_of_getElem? hcall) hx
  · rw [hpoint, Operation.request_enter] at hx
    cases hx

/-- The number of clients that have ever been made for a pool, with the sessions that are being
opened for it, is the number of those that it was stocked with or the most slots that have been
outstanding at one time since, whichever is more: in every run in which the pool is not closed, none
of its clients breaks and no caller is refused a session.  So, if it was stocked with one client at
most and at no time more than one has been out, it has no other client than this one. -/
theorem no_needless_sessions (built : Constructs es p m) (hn : m.run fs = some n)
    (calm : ∀ l ∈ passed {} (es ++ fs), l.Calm p) :
    (n.world.roster p).length + n.openings p =
        max (m.world.roster p).length (peak p (passed m fs)) ∧
      ((m.world.roster p).length ≤ 1 →
        (∀ l ∈ passed m fs, (l.world.pool p).outstanding ≤ 1) →
          (n.world.roster p).length + n.openings p ≤ 1 ∧
            ∀ c ∈ n.world.own p, ∀ d ∈ n.world.own p, c = d) := by
  have hopenings := built.openings_eq_zero
  obtain ⟨us, e, l, rfl, hl, -, he, ready⟩ := built
  have hes : run {} (us ++ [e]) = some m := run_snoc_iff.mpr ⟨l, hl, he⟩
  have hm : m.Reachable := ⟨_, hes⟩
  have hcalm : ∀ l ∈ passed m fs, l.Calm p :=
    fun l hl => calm l ((mem_passed_append hes).mpr (.inr hl))
  have hcalm' : ∀ l ∈ passed {} (us ++ [e]), l.Calm p :=
    fun l hl => calm l ((mem_passed_append hes).mpr (.inl hl))
  have hkeeps : ∀ (l n : Machine) (e : Event), l.Reachable → l.Calm p → n.Calm p → l.Intact p →
      l.perform e = some n → n.Intact p :=
    fun l n e hl before after h hn => h.perform hl hn before after
  have hintact : m.Intact p :=
    calm_induct reachable_empty (fun c hc => by cases hc) hkeeps hes hcalm'
  have hintact' : n.Intact p := calm_induct hm hintact hkeeps hn hcalm
  have hready' : n.hasPool p = true := hm.hasPool_run ready hn
  have hcount := (hcalm m (mem_passed_self m fs)).created_eq hm.sound ready hintact
  have hcount' := (hcalm n (mem_passed_last hn)).created_eq (hm.run hn).sound hready' hintact'
  have hall : (n.world.roster p).length + n.openings p =
      max (m.world.roster p).length (peak p (passed m fs)) := by
    rw [← hcount', created_run hm ready hn hcalm, hcount, hopenings, Nat.add_zero]
  refine ⟨hall, fun hfew hout => ?_⟩
  have hpeak : peak p (passed m fs) ≤ 1 :=
    peak_le fun l hl => UInt64.le_iff_toNat_le.mp (hout l hl)
  have hone : (n.world.roster p).length + n.openings p ≤ 1 := hall ▸ max_le hfew hpeak
  refine ⟨hone, Finset.card_le_one.mp ?_⟩
  rw [World.card_own]
  omega

/-- The stocking of a pool with one client, of three that it may have. -/
def stocking : List Event :=
  [.begin (.construct {} { maxClients := 3, initialClients := 1 } true .standard), .advance 0 0,
    .answer 0 (.opened (.session true)), .advance 0 0, .advance 0 0]

/-- Two callers borrow a client at the same time and give it back, then the idle clients are pinged
while a third one borrows. -/
def twoAtOnce : List Event :=
  [.begin (.acquire 0 0), .advance 1 0, .begin (.acquire 0 0), .advance 2 0,
    .answer 2 (.opened (.session true)), .advance 2 0, .begin (.release 0 1), .advance 3 0,
    .begin (.release 0 0), .advance 4 0, .begin (.lease 0 0), .advance 5 0, .begin (.keepAlive 0),
    .advance 6 0, .advance 6 0, .answer 6 (.sent (.reply { code := 200, text := [] })),
    .advance 6 0]

/-- The pool has two clients in the end, because two have been lent at the same time, and one that
it was stocked with. -/
theorem no_needless_sessions_twoAtOnce : ∃ m n : Machine, Constructs stocking 0 m ∧
    m.run twoAtOnce = some n ∧ (∀ l ∈ passed {} (stocking ++ twoAtOnce), l.Calm 0) ∧
    (m.world.roster 0).length = 1 ∧ (n.world.roster 0).length = 2 ∧
    (n.world.roster 0).length + n.openings 0 =
      max (m.world.roster 0).length (peak 0 (passed m twoAtOnce)) := by
  have built : Constructs stocking 0 _ :=
    ⟨stocking.take 4, .advance 0 0, _, rfl, rfl, rfl, rfl, rfl⟩
  have calm : ∀ l ∈ passed {} (stocking ++ twoAtOnce), l.Calm 0 := by decide +kernel
  exact ⟨_, _, built, rfl, calm, rfl, rfl, (no_needless_sessions built rfl calm).1⟩

end Machine
end SessionPool
