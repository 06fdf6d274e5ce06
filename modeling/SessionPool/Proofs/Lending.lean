import SessionPool.Proofs.Decline

/-!
# Lending a client

The event in which a caller gets a client (`Machine.Lends`).  The pool is open then, and the client
was idle or has come just now for this very caller; afterwards it is busy and has one reference.

* `Machine.Reachable.lends`: what such an event is.
* `Machine.Reachable.exists_lends_of_idle`: every idle client of an open pool can be lent, if
  enough callers come.
-/

namespace SessionPool

/-- What a change of a record leaves alone is the same afterwards. -/
theorem World.onPool_congr {α : Type} {w : World} {p q : PoolKey} {f : Pool → Pool} (g : Pool → α)
    (hf : ∀ pool, g (f pool) = g pool) : g ((w.onPool q f).pool p) = g (w.pool p) := by
  by_cases hp : p < w.pools.length
  · by_cases hq : p = q
    · subst hq
      rw [World.pool_onPool w hp, hf]
    · rw [World.pool_onPool_of_ne w hq]
  · simp only [World.pool, World.onPool]
    rw [List.getElem?_eq_none (by simpa using hp), List.getElem?_eq_none (Nat.le_of_not_lt hp)]

namespace Acquire

variable {w : World} {p : PoolKey} {c d : ClientKey} {t : Patience} {leased : Bool} {turn : Turn}

/-- A step in which a reference to a client goes to a new lease, or straight to the caller. -/
structure HandsOver (w : World) (p : PoolKey) (c : ClientKey) (leased : Bool) (turn : Turn) :
    Prop where
  leases : turn.world.leases = (w.handOver p c leased).1.leases
  point : turn.point = .finished (.ok (w.handOver p c leased).2)

/-- A client that is lent is handed over, whatever has been changed before but leases. -/
theorem HandsOver.lend {w' : World} (h : w'.leases = w.leases) :
    HandsOver w p c leased (Turn.lend w' p c leased) := by
  constructor <;> cases leased <;> simp [Turn.lend, Turn.finish, World.handOver, World.addLease, h]

/-- A client that is handed over is yielded. -/
theorem HandsOver.yields (h : HandsOver w p c leased turn) :
    turn.point.Yields turn.world p c := by
  cases leased with
  | false => exact .inl h.point
  | true =>
    refine .inr ⟨w.leases.length, h.point, ?_⟩
    simp [World.lease, h.leases, World.handOver, World.addLease]

theorem yields_lend (w : World) (p : PoolKey) (c : ClientKey) (leased : Bool) :
    (Turn.lend w p c leased).point.Yields (Turn.lend w p c leased).world p c :=
  (HandsOver.lend rfl).yields

/-- A fault yields no client. -/
theorem not_yields_error {f : Fault} : ¬ (Point.finished (.error f)).Yields w p c := by
  rintro (h | ⟨l, h, -⟩) <;> cases h

theorem clients_lend : (Turn.lend w p c leased).world.clients = w.clients := by
  cases leased <;> rfl

/-- Whoever looks for a client and gets one finds the pool open, and the client is lent. -/
theorem lent_of_yields_seek
    (h : (seek w p t leased).point.Yields (seek w p t leased).world p c) :
    (w.pool p).closing = false ∧
      (seek w p t leased).world.clients = (w.onClient c Client.lend).clients := by
  simp only [seek] at h ⊢
  split at h
  · exact absurd h not_yields_error
  · next hopen =>
    rw [if_neg hopen]
    refine ⟨Bool.not_eq_true _ ▸ hopen, ?_⟩
    split at h
    · next d others hi =>
      rw [eq_of_yields_lend (d := d) h]
      exact clients_lend
    · split at h
      all_goals
        obtain ⟨y, hy⟩ := h.exists_ok
        cases hy

/-- Whoever gets a client finds the pool open, and the client is lent. -/
theorem lent_of_yields {s : AcquirePoint} (ht : step w p t leased s = some turn)
    (h : turn.point.Yields turn.world p c) :
    (w.pool p).closing = false ∧ turn.world.clients = (w.onClient c Client.lend).clients := by
  have hrise : (seek (rise w p) p t leased).point.Yields (seek (rise w p) p t leased).world p c →
      (w.pool p).closing = false ∧
        (seek (rise w p) p t leased).world.clients = (w.onClient c Client.lend).clients := by
    intro h
    obtain ⟨hopen, hclients⟩ := lent_of_yields_seek h
    exact ⟨closing_rise ▸ hopen, hclients⟩
  cases s with
  | seeking => exact Option.some.inj ht ▸ lent_of_yields_seek (Option.some.inj ht ▸ h)
  | opening => cases ht
  | arrived d =>
    obtain rfl := Option.some.inj ht
    simp only [arrive] at h ⊢
    split at h
    · obtain ⟨y, hy⟩ := h.exists_ok
      cases hy
    · next hopen =>
      rw [if_neg hopen, eq_of_yields_lend (d := d) h]
      exact ⟨Bool.not_eq_true _ ▸ hopen, clients_lend⟩
  | refused f =>
    obtain rfl := Option.some.inj ht
    exact absurd h not_yields_error
  | asleep => cases ht
  | woken =>
    obtain rfl := Option.some.inj ht
    simp only [wake] at h ⊢
    split at h
    · next hready =>
      rw [if_pos hready]
      exact hrise h
    · obtain ⟨y, hy⟩ := h.exists_ok
      cases hy
  | expired =>
    obtain rfl := Option.some.inj ht
    simp only [expire] at h ⊢
    split at h
    · next hready =>
      rw [if_pos hready]
      exact hrise h
    · exact absurd h not_yields_error

/-- A step of a caller that gets no client leaves all clients and leases alone, and the lists of the
pool, and is no success. -/
structure Leaves (w : World) (p : PoolKey) (turn : Turn) : Prop where
  clients : turn.world.clients = w.clients
  leases : turn.world.leases = w.leases
  members : (turn.world.pool p).members = (w.pool p).members
  idle : (turn.world.pool p).idle = (w.pool p).idle
  unserved : ∀ y, turn.point ≠ .finished (.ok y)

/-- A step that changes only the counters of the pool leaves everything else alone. -/
theorem Leaves.onPool {f : Pool → Pool} (hworld : turn.world = w.onPool p f)
    (members : ∀ pool, (f pool).members = pool.members) (idle : ∀ pool, (f pool).idle = pool.idle)
    (unserved : ∀ y, turn.point ≠ .finished (.ok y)) : Leaves w p turn where
  clients := by rw [hworld]; rfl
  leases := by rw [hworld]; rfl
  members := by rw [hworld]; exact World.onPool_congr Pool.members members
  idle := by rw [hworld]; exact World.onPool_congr Pool.idle idle
  unserved := unserved

theorem Leaves.of_eq (hworld : turn.world = w) (unserved : ∀ y, turn.point ≠ .finished (.ok y)) :
    Leaves w p turn where
  clients := by rw [hworld]
  leases := by rw [hworld]
  members := by rw [hworld]
  idle := by rw [hworld]
  unserved := unserved

/-- A step that leaves everything alone after the caller has ceased to wait. -/
theorem Leaves.of_rise (h : Leaves (rise w p) p turn) : Leaves w p turn where
  clients := h.clients
  leases := h.leases
  members := h.members.trans (World.onPool_congr Pool.members fun _ => rfl)
  idle := h.idle.trans idle_rise
  unserved := h.unserved

/-- The leases are the same after the caller has ceased to wait. -/
theorem HandsOver.of_rise (h : HandsOver (rise w p) p c leased turn) :
    HandsOver w p c leased turn := by
  cases leased <;> exact ⟨h.leases, h.point⟩

theorem handsOver_or_leaves_seek : (∃ d, HandsOver w p d leased (seek w p t leased)) ∨
    Leaves w p (seek w p t leased) := by
  simp only [seek]
  split
  · exact .inr (.of_eq rfl (by rintro _ ⟨⟩))
  · split
    · next d rest _ =>
      have hlend : HandsOver w p d leased (Turn.lend
          ((w.onPool p fun pool => pool.takeIdle rest).onClient d Client.lend) p d leased) :=
        .lend rfl
      exact .inl ⟨d, hlend.leases, hlend.point⟩
    · split
      · exact .inr (.onPool rfl (fun _ => rfl) (fun _ => rfl) (by rintro _ ⟨⟩))
      · exact .inr (.onPool rfl (fun _ => rfl) (fun _ => rfl) (by rintro _ ⟨⟩))

/-- A caller is handed a client in its step, or changes nothing but the counters of its pool. -/
theorem handsOver_or_leaves {s : AcquirePoint} (ht : step w p t leased s = some turn) :
    (∃ d, HandsOver w p d leased turn) ∨ Leaves w p turn := by
  cases s with
  | seeking => exact Option.some.inj ht ▸ handsOver_or_leaves_seek
  | opening => cases ht
  | asleep => cases ht
  | arrived d =>
    obtain rfl := Option.some.inj ht
    simp only [arrive]
    split
    · exact .inr (.onPool rfl (fun _ => rfl) (fun _ => rfl) (by rintro _ ⟨⟩))
    · have hlend : HandsOver w p d leased (Turn.lend
          ((w.onPool p fun pool => pool.enroll d).onClient d Client.lend) p d leased) := .lend rfl
      exact .inl ⟨d, hlend.leases, hlend.point⟩
  | refused f =>
    exact Option.some.inj ht ▸ .inr (.onPool rfl (fun _ => rfl) (fun _ => rfl) (by rintro _ ⟨⟩))
  | woken =>
    obtain rfl := Option.some.inj ht
    simp only [wake]
    split
    · exact handsOver_or_leaves_seek.imp (Exists.imp fun _ => HandsOver.of_rise) Leaves.of_rise
    · exact .inr (.of_eq rfl (by rintro _ ⟨⟩))
  | expired =>
    obtain rfl := Option.some.inj ht
    simp only [expire]
    split
    · exact handsOver_or_leaves_seek.imp (Exists.imp fun _ => HandsOver.of_rise) Leaves.of_rise
    · exact .inr (.onPool rfl (fun _ => rfl) (fun _ => rfl) (by rintro _ ⟨⟩))

/-- A caller gets a client in its step, or changes nothing but the counters of its pool. -/
theorem yields_or_leaves {s : AcquirePoint} (ht : step w p t leased s = some turn) :
    (∃ d, turn.point.Yields turn.world p d) ∨ Leaves w p turn :=
  (handsOver_or_leaves ht).imp_left (Exists.imp fun _ => HandsOver.yields)

/-- Whoever looks for a client of an open pool in which one is idle gets the next one. -/
theorem seek_of_front {rest : List ClientKey} (isOpen : (w.pool p).closing = false)
    (front : (w.pool p).idle = c :: rest) :
    seek w p t leased =
      (Turn.lend ((w.onPool p fun pool => pool.takeIdle rest).onClient c Client.lend) p c
        leased).saying [.clientTaken (w.idOf c) rest.length, .referenceAdded (w.idOf c) 1] := by
  simp only [seek, isOpen, front]
  rfl

end Acquire

namespace Machine

variable {m n : Machine} {e : Event} {k : CallKey} {call call' : Call} {t : Turn} {p : PoolKey}
  {c : ClientKey}

/-- In this event, which leads to `n`, a caller gets a client from a pool. -/
def Lends (m : Machine) (e : Event) (n : Machine) (p : PoolKey) (c : ClientKey) : Prop :=
  m.perform e = some n ∧ ∃ k call t leased s call', m.call? k = some call ∧
    call.point = .acquire p t leased s ∧ n.call? k = some call' ∧
      call'.point.Yields n.world p c

/-- A call that wants a client and gets one takes its next step. -/
theorem Takes.step_of_yields {u : Patience} {leased : Bool} {s : AcquirePoint}
    (h : m.Takes k call e t) (hx : call.point = .acquire p u leased s)
    (hyields : t.point.Yields t.world p c) :
    Acquire.step m.world p u leased s = some t := by
  obtain ⟨x, sequel, notices⟩ := call
  simp only at hx
  subst hx
  cases h with
  | step ht => exact ht
  | overlooked ht hpoint => cases hpoint
  | opened a hpoint =>
    cases hpoint
    obtain ⟨y, hy⟩ := hyields.exists_ok
    cases hy
  | expired hpoint limited =>
    obtain ⟨y, hy⟩ := hyields.exists_ok
    cases hy
  | stocked a hpoint | pinged a hpoint | replied a hpoint | parted a hpoint => cases hpoint
  | beat hpoint wanted => cases hpoint

/-- Whoever gets a client gets one that is idle, or one that has come just now. -/
theorem hand_of_yields {u : Patience} {leased : Bool} {s : AcquirePoint}
    (hk : m.call? k = some call) (hx : call.point = .acquire p u leased s)
    (ht : Acquire.step m.world p u leased s = some t) (hyields : t.point.Yields t.world p c) :
    c ∈ (m.world.pool p).idle ∨ c ∈ (m.stake p).arrived := by
  refine (Acquire.idle_or_arrived_of_yields ht hyields).imp_right fun hs => ?_
  obtain ⟨rest, hrest, -⟩ := exists_rest hk
  rw [hrest p, hx, hs, Acquire.stake_arrived]
  simp

/-- Both are clients of the pool. -/
theorem Sound.mem_own_of_hand (hm : m.Sound)
    (h : c ∈ (m.world.pool p).idle ∨ c ∈ (m.stake p).arrived) : c ∈ m.world.own p := by
  rcases h with hi | ha
  · exact (hm.seated p).mem_own_of_mem (hm.of_mem_idle hi).1
  · exact (hm.seated p).owned c (Multiset.mem_add.mpr (.inr ha))

/-- What it is to lend a client. -/
theorem Reachable.lends (hm : m.Reachable) (h : m.Lends e n p c) :
    (m.world.pool p).closing = false ∧ c ∈ m.world.own p ∧
      (c ∈ (m.world.pool p).idle ∨ c ∈ (m.stake p).arrived) ∧
        n.world.client c = (m.world.client c).lend := by
  obtain ⟨hn, k, call, u, leased, s, call', hk, hx, hk', hyields⟩ := h
  obtain ⟨call'', hk'', hcases⟩ := (happens hn).exists_call hk
  obtain rfl := Option.some.inj (hk'.symm.trans hk'')
  obtain ⟨y, ho⟩ := hyields.exists_ok
  rcases hcases with ⟨hw, -⟩ | ⟨t, takes, hworld, hw, -⟩
  · rw [ho, hx] at hw
    cases hw
  · have hpoint : t.point = call'.point := by
      rw [ho] at hw ⊢
      generalize t.point = y at hw ⊢
      cases hw
      rfl
    rw [← hpoint, hworld] at hyields
    have hstep := takes.step_of_yields hx hyields
    obtain ⟨hopen, hclients⟩ := Acquire.lent_of_yields hstep hyields
    have hhand := hand_of_yields hk hx hstep hyields
    have hown : c ∈ m.world.own p := hm.sound.mem_own_of_hand hhand
    refine ⟨hopen, hown, hhand, ?_⟩
    rw [hworld]
    calc t.world.client c = (m.world.onClient c Client.lend).client c := by
          simp only [World.client, hclients]
      _ = (m.world.client c).lend := World.client_onClient _ (World.mem_own.mp hown).1 _

/-! ## Callers that come -/

/-- A caller that gets a client in its next step can take that step. -/
theorem exists_lends (hcrashed : m.world.crashed = false) (hk : m.call? k = some call)
    {u : Patience} {leased : Bool} {s : AcquirePoint} (hx : call.point = .acquire p u leased s)
    (ht : Acquire.step m.world p u leased s = some t) (hyields : t.point.Yields t.world p c) :
    ∃ n, m.Lends (.advance k 0) n p c ∧ n.world = t.world := by
  have takes : m.Takes k call (.advance k 0) t := by
    refine .step ?_
    unfold Machine.turn
    rwa [hx]
  obtain ⟨n, call', hn, hworld, hk', hw⟩ := takes.exists_perform hk hcrashed
  obtain ⟨y, hy⟩ := hyields.exists_ok
  have hawake : t.point.sleeps = false := by rw [hy]; rfl
  refine ⟨n, ⟨hn, k, call, u, leased, s, call', hk, hx, hk', ?_⟩, hworld⟩
  rwa [hw.eq_of_awake hawake, hworld]

/-- A new caller gets the next idle client of an open pool. -/
theorem exists_lends_of_front (hp : m.hasPool p = true) (hcrashed : m.world.crashed = false)
    (hopen : (m.world.pool p).closing = false) {rest : List ClientKey}
    (front : (m.world.pool p).idle = c :: rest) :
    ∃ l k n, m.perform (.begin (.acquire p 0)) = some l ∧ l.Lends (.advance k 0) n p c ∧
      n.world.pool p = (m.world.pool p).takeIdle rest ∧ n.world.crashed = false := by
  set l := m.begin (.acquire p 0) with hl
  have hbegin : m.perform (.begin (.acquire p 0)) = some l := by
    simp [Machine.perform, hcrashed, permits, hp, hl]
  have hworld : l.world = m.world := rfl
  have hk : l.call? m.calls.length = some { point := .acquire p 0 false .seeking } :=
    call?_begin m (.acquire p 0)
  have hseek : Acquire.seek m.world p 0 false = _ := Acquire.seek_of_front hopen front
  have hyields : (Acquire.seek l.world p 0 false).point.Yields
      (Acquire.seek l.world p 0 false).world p c := by
    rw [hworld, hseek]
    exact Acquire.yields_lend
      ((m.world.onPool p fun pool => pool.takeIdle rest).onClient c Client.lend) p c false
  obtain ⟨n, hn, hn'⟩ := exists_lends (m := l) hcrashed hk rfl rfl hyields
  refine ⟨l, _, n, hbegin, hn, ?_, ?_⟩
  · rw [hn', hworld, hseek]
    exact World.pool_onPool m.world (hasPool_iff.mp hp).1 _
  · rw [hn', hworld, hseek]
    exact hcrashed

/-- Every idle client of an open pool can be lent: as many callers have to come as there are idle
clients before it, and it need not be touched meanwhile. -/
theorem Reachable.exists_lends_of_idle (hm : m.Reachable) (hp : m.hasPool p = true)
    (hcrashed : m.world.crashed = false) (hopen : (m.world.pool p).closing = false)
    (hc : c ∈ (m.world.pool p).idle) :
    ∃ es l e n, m.run es = some l ∧ (∀ s, .setState c s ∉ es) ∧ l.Lends e n p c := by
  generalize hidle : (m.world.pool p).idle = idle at hc
  induction idle generalizing m with
  | nil => cases hc
  | cons d rest ih =>
    obtain ⟨l, k, n, hl, hn, hpool, hcrashed'⟩ := exists_lends_of_front hp hcrashed hopen hidle
    by_cases hd : c = d
    · refine ⟨[.begin (.acquire p 0)], l, .advance k 0, n, ?_, by simp, hd ▸ hn⟩
      rw [run_cons, hl]
      rfl
    · have hl' : l.hasPool p = true := hm.sound.hasPool_perform hl hp
      have hp' : n.hasPool p = true := (hm.perform hl).sound.hasPool_perform hn.1 hl'
      obtain ⟨es, l', e', n', hes, hset, hn'⟩ := ih ((hm.perform hl).perform hn.1) hp' hcrashed'
        (by rw [hpool]; exact hopen) (by rw [hpool]; rfl) ((List.mem_cons.mp hc).resolve_left hd)
      refine ⟨.begin (.acquire p 0) :: .advance k 0 :: es, l', e', n', ?_, by simpa using hset,
        hn'⟩
      rw [run_cons, hl, Option.bind_some, run_cons, hn.1, Option.bind_some, hes]

end Machine
end SessionPool
