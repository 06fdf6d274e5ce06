import SessionPool.Proofs.Course
import SessionPool.Proofs.Lending
import SessionPool.Proofs.Rejection

/-!
# The account of one call

A caller who wants a client reserves a slot in one step and gives it back in another, and in between
other calls change the same counters.  What the caller itself has made of them is the sum over its
own turns (`Machine.account`).  As long as it is not served, this is one for what it holds at the
point where it stands, and nothing else; and there is nothing to hold where a call ends with an
error.

* `Point.Unserved`: where a caller stands that has not got a client.
* `Machine.Takes.unserved`: what one turn of such a caller does to the counters.
* `Machine.Attempt`: what a whole run has made of such a caller.
-/

namespace SessionPool

/-! ## Counters -/

/-- The counters of a pool. -/
inductive Counter where
  | created
  | outstanding
  | waiting
  deriving DecidableEq

/-- What a counter shows. -/
def Pool.counter (pool : Pool) : Counter → UInt64
  | .created => pool.created
  | .outstanding => pool.outstanding
  | .waiting => pool.waiting

/-- What a call that stands here has added to a counter of a pool and not taken back. -/
def Point.share (p : PoolKey) (x : Point) : Counter → UInt64
  | .created | .outstanding => if x.creates p then 1 else 0
  | .waiting => if x.waits p then 1 else 0

/-- A call that stands here wants a client of the pool and has not got one, or ends with an error
because it did not get one. -/
inductive Point.Unserved (p : PoolKey) : Point → Prop where
  | wants {t : Patience} {leased : Bool} {s : AcquirePoint} : Unserved p (.acquire p t leased s)
  | told {x : Point} {f : Fault} (concluding : x.Concluding (.error f))
      (kind : f.kind = .poolTimeout ∨ f.kind = .poolClosed ∨ f.kind = .clientCreation) :
      Unserved p x

section Shares

variable {p q : PoolKey} {x y : Point} {o : Outcome} {i : Counter}

/-- Whoever ends with an outcome holds nothing. -/
theorem Point.Concluding.share (h : x.Concluding o) : x.share q i = 0 := by
  cases h <;> cases i <;> rfl

/-- A caller who wants a client of one pool holds nothing of another. -/
theorem Point.share_of_ne {t : Patience} {leased : Bool} {s : AcquirePoint} (hq : q ≠ p) :
    (Point.acquire p t leased s).share q i = 0 := by
  have hp : p ≠ q := Ne.symm hq
  cases i <;> simp [share, creates, waits, hp]

theorem Point.Unserved.share_of_ne (h : x.Unserved p) (hq : q ≠ p) : x.share q i = 0 := by
  cases h with
  | wants => exact Point.share_of_ne hq
  | told concluding => exact concluding.share

theorem Point.share_acquire (p : PoolKey) (t : Patience) (leased : Bool) (s : AcquirePoint) :
    (Point.acquire p t leased s).share p i =
      match i with
      | .created | .outstanding => if s.creates then 1 else 0
      | .waiting => if s.waits then 1 else 0 := by
  cases i <;> simp [share, creates, waits]

theorem Point.Wakes.share_eq (h : x.Wakes y) : y.share q i = x.share q i := by
  cases h <;> rfl

theorem Point.Unserved.of_wakes (h : x.Unserved p) (hw : x.Wakes y) : y.Unserved p := by
  cases hw with
  | refl => exact h
  | acquirer =>
    cases h with
    | wants => exact .wants
    | told concluding => cases concluding
  | drainer | attendant =>
    cases h with
    | told concluding => cases concluding

/-- A call ends with one outcome only. -/
theorem Point.Concluding.unique {o' : Outcome} (h : x.Concluding o) (h' : x.Concluding o') :
    o = o' := by
  cases h <;> cases h' <;> rfl

/-- Nobody is woken to end with an outcome. -/
theorem Point.Concluding.of_wakes (h : y.Concluding o) (hw : x.Wakes y) : x.Concluding o := by
  cases hw with
  | refl => exact h
  | _ => cases h

/-- A caller who looks for a client does not wait any more, and has reserved nothing. -/
theorem AcquirePoint.counter_rise {t : Patience} {leased : Bool} {s : AcquirePoint}
    (looks : s.looks = true) (pool : Pool) :
    (s.rise pool).counter i + (Point.acquire p t leased s).share p i = pool.counter i := by
  cases s with
  | seeking | woken | expired =>
    cases i <;> simp [rise, Pool.counter, Point.share_acquire, creates, waits]
  | _ => cases looks

/-- A reserved slot is what a caller holds whose session is being opened. -/
theorem Pool.counter_reserve (pool : Pool) (t : Patience) (leased : Bool) :
    pool.reserve.counter i =
      pool.counter i + (Point.acquire p t leased .opening).share p i := by
  cases i <;> simp [reserve, counter, Point.share_acquire, AcquirePoint.creates,
    AcquirePoint.waits]

/-- Whoever gives a reserved slot back holds nothing. -/
theorem Pool.counter_unreserve {t : Patience} {leased : Bool} {s : AcquirePoint}
    (creates : s.creates = true) (pool : Pool) :
    pool.unreserve.counter i + (Point.acquire p t leased s).share p i = pool.counter i := by
  cases s with
  | opening | arrived | refused =>
    cases i <;>
      simp [unreserve, counter, Point.share_acquire, AcquirePoint.creates, AcquirePoint.waits]
  | _ => cases creates

end Shares

/-! ## One turn -/

section Turns

variable {w : World} {p q : PoolKey} {t : Patience} {leased : Bool} {s : AcquirePoint} {y : Point}
  {pool : Pool} {ss : List Signal} {i : Counter}

/-- A caller that gets no client is not served, and what it has done to a counter is what it holds
more or less than before. -/
theorem Dealing.counter (h : Dealing w p (.acquire p t leased s) y pool ss)
    (hidle : pool.idle = (w.pool p).idle) (hmembers : pool.members = (w.pool p).members)
    (hkind : ∀ f, s = .refused f → f.kind = .clientCreation) :
    y.Unserved p ∧ pool.counter i + (Point.acquire p t leased s).share p i =
      (w.pool p).counter i + y.share p i := by
  cases h with
  | elsewhere hx hy => simp [Point.minds] at hx
  | barred looks closing =>
    refine ⟨.told .ended (.inr (.inl rfl)), ?_⟩
    rw [Point.Concluding.ended.share, UInt64.add_zero]
    exact AcquirePoint.counter_rise looks _
  | taken o looks isOpen front =>
    rw [front] at hidle
    exact absurd hidle (List.cons_ne_self _ _).symm
  | reserved looks isOpen room =>
    refine ⟨.wants, ?_⟩
    rw [Pool.counter_reserve (p := p) _ t leased, UInt64.add_assoc,
      UInt64.add_comm (Point.share p _ i), ← UInt64.add_assoc, AcquirePoint.counter_rise looks]
  | slept nothing =>
    refine ⟨.wants, ?_⟩
    cases i <;>
      simp [Pool.counter, Point.share_acquire, AcquirePoint.creates, AcquirePoint.waits]
  | dozed nothing | expired | arrived => exact ⟨.wants, rfl⟩
  | missed kind => exact ⟨.wants, rfl⟩
  | timedOut nothing =>
    refine ⟨.told .ended (.inl rfl), ?_⟩
    rw [Point.Concluding.ended.share, UInt64.add_zero]
    exact AcquirePoint.counter_rise (s := .expired) rfl _
  | enrolled o isOpen => simp [Pool.enroll] at hmembers
  | dismissed closing =>
    refine ⟨.told .parting (.inr (.inl rfl)), ?_⟩
    rw [Point.Concluding.parting.share, UInt64.add_zero]
    exact Pool.counter_unreserve rfl _
  | refused =>
    refine ⟨.told .ended (.inr (.inr (hkind _ rfl))), ?_⟩
    rw [Point.Concluding.ended.share, UInt64.add_zero]
    exact Pool.counter_unreserve rfl _

/-- A caller that gets no client is told that its time is over only in its last look, and finds
nothing then. -/
theorem Dealing.of_timedOut (h : Dealing w p (.acquire p t leased s) y pool ss)
    (hidle : pool.idle = (w.pool p).idle) (hmembers : pool.members = (w.pool p).members)
    (hkind : ∀ f, s = .refused f → f.kind = .clientCreation) {f : Fault}
    (hy : y.Concluding (.error f)) (hf : f.kind = .poolTimeout) :
    s = .expired ∧ (w.pool p).isReady = false ∧ y = .finished (.error f) := by
  cases h with
  | elsewhere hx => simp [Point.minds] at hx
  | taken o looks isOpen front =>
    rw [front] at hidle
    exact absurd hidle (List.cons_ne_self _ _).symm
  | enrolled o isOpen => simp [Pool.enroll] at hmembers
  | timedOut nothing =>
    cases hy
    exact ⟨rfl, nothing, rfl⟩
  | refused =>
    cases hy
    simp [hkind _ rfl] at hf
  | barred | dismissed =>
    cases hy
    cases hf
  | _ => cases hy

/-- A caller does nothing to a pool of which it wants no client. -/
theorem Dealing.of_other (h : Dealing w q (.acquire p t leased s) y pool ss) (hq : q ≠ p) :
    pool = w.pool q := by
  cases h with
  | elsewhere => rfl
  | _ => exact absurd rfl hq

/-- A call that sends clients off, to end then, does nothing to any pool. -/
theorem Dealing.of_concluding {x : Point} {o : Outcome} (h : Dealing w q x y pool ss)
    (hx : x.Concluding o) : pool = w.pool q := by
  cases hx <;> cases h <;> rfl

end Turns

namespace Machine

variable {m n : Machine} {e : Event} {k : CallKey} {call call' : Call} {t : Turn}
  {p q : PoolKey} {i : Counter} {o : Outcome}

/-- A pool that no dealing with it changes is as it was. -/
theorem Takes.pool_eq (takes : m.Takes k call e t) (hm : m.Sound) (hk : m.call? k = some call)
    (h : ∀ pool ss, Dealing m.world q call.point t.point pool ss → pool = m.world.pool q) :
    t.world.pool q = m.world.pool q := by
  by_cases hq : q < m.world.pools.length
  · exact h _ _ (takes.dealing hm hk hq)
  · obtain ⟨rest, hpass⟩ := hm.passes hk takes
    have hq' : ¬ q < t.world.pools.length := by rwa [hpass.pools]
    simp [World.pool, List.getElem?_eq_none (Nat.le_of_not_lt hq),
      List.getElem?_eq_none (Nat.le_of_not_lt hq')]

/-- A turn of a caller is its next step, or it goes on wanting a client and nothing changes in the
lists of its pool. -/
theorem Takes.of_acquire {u : Patience} {leased : Bool} {s : AcquirePoint}
    (h : m.Takes k call e t) (hx : call.point = .acquire p u leased s) :
    Acquire.step m.world p u leased s = some t ∨
      (∃ s', t.point = .acquire p u leased s') ∧ t.world.leases = m.world.leases ∧
        (t.world.pool p).members = (m.world.pool p).members ∧
          (t.world.pool p).idle = (m.world.pool p).idle := by
  obtain ⟨x, sequel, notices⟩ := call
  simp only at hx
  subst hx
  cases h with
  | step ht => exact .inl ht
  | overlooked ht hpoint => cases hpoint
  | opened a hpoint =>
    cases hpoint
    refine .inr ⟨⟨_, rfl⟩, ?_⟩
    cases a with
    | session connected =>
      exact ⟨rfl, World.onPool_congr Pool.members fun _ => rfl,
        World.onPool_congr Pool.idle fun _ => rfl⟩
    | _ => exact ⟨rfl, rfl, rfl⟩
  | expired hpoint limited =>
    cases hpoint
    exact .inr ⟨⟨_, rfl⟩, rfl, rfl, rfl⟩
  | stocked a hpoint | pinged a hpoint | replied a hpoint | parted a hpoint => cases hpoint
  | beat hpoint wanted => cases hpoint

/-- A call that wants a client is served in its turn, or goes on as one that is not, and what it has
done to the counters of all pools is what it holds more or less than before. -/
theorem Takes.unserved (takes : m.Takes k call e t) (hm : m.Reachable) (hk : m.call? k = some call)
    (hx : call.point.Unserved p) (hs : call.sequel = .none) :
    (∃ y, t.point = .finished (.ok y)) ∨
      t.point.Unserved p ∧ ∀ q i, (t.world.pool q).counter i + call.point.share q i =
        (m.world.pool q).counter i + t.point.share q i := by
  generalize hpoint : call.point = x at hx
  cases hx with
  | told concluding kind =>
    obtain ⟨hconcluding, -⟩ := takes.concluding (hpoint.symm ▸ concluding) hs
    refine .inr ⟨.told hconcluding kind, fun q i => ?_⟩
    rw [concluding.share, hconcluding.share,
      takes.pool_eq hm.sound hk fun pool ss h => h.of_concluding (hpoint.symm ▸ concluding)]
  | @wants u leased s =>
    have hp : p < m.world.pools.length :=
      (hasPool_iff.mp (hm.sound.used call (List.mem_of_getElem? hk) p (by rw [hpoint]; rfl))).1
    have hkind := (hm.plain call (List.mem_of_getElem? hk) p u leased s hpoint).2
    have hunserved : (t.world.pool p).idle = (m.world.pool p).idle →
        (t.world.pool p).members = (m.world.pool p).members →
        t.point.Unserved p ∧ ∀ q i, (t.world.pool q).counter i +
          (Point.acquire p u leased s).share q i =
            (m.world.pool q).counter i + t.point.share q i := by
      intro hidle hmembers
      have hdealing := takes.dealing hm.sound hk hp
      rw [hpoint] at hdealing
      have hcounter : ∀ i, t.point.Unserved p ∧ (t.world.pool p).counter i +
          (Point.acquire p u leased s).share p i =
            (m.world.pool p).counter i + t.point.share p i :=
        fun i => hdealing.counter hidle hmembers hkind
      have hunserved := (hcounter .created).1
      refine ⟨hunserved, fun q i => ?_⟩
      by_cases hq : q = p
      · exact hq ▸ (hcounter i).2
      · rw [Point.share_of_ne hq, hunserved.share_of_ne hq,
          takes.pool_eq hm.sound hk fun pool ss h => Dealing.of_other (hpoint ▸ h) hq]
    rcases takes.of_acquire hpoint with ht | ⟨-, -, hmembers, hidle⟩
    · rcases Acquire.yields_or_leaves ht with ⟨d, hyields⟩ | hleaves
      · exact .inl hyields.exists_ok
      · exact .inr (hunserved hleaves.idle hleaves.members)
    · exact .inr (hunserved hidle hmembers)

/-- A caller that is told that its time is over has looked a last time and found nothing. -/
theorem Takes.of_timedOut (takes : m.Takes k call e t) (hm : m.Reachable)
    (hk : m.call? k = some call) {u : Patience} {leased : Bool} {s : AcquirePoint}
    (hpoint : call.point = .acquire p u leased s) {f : Fault}
    (hf : t.point.Concluding (.error f)) (hkind : f.kind = .poolTimeout) :
    s = .expired ∧ (m.world.pool p).isReady = false ∧ t.point = .finished (.error f) := by
  have hp : p < m.world.pools.length :=
    (hasPool_iff.mp (hm.sound.used call (List.mem_of_getElem? hk) p (by rw [hpoint]; rfl))).1
  have hplain := (hm.plain call (List.mem_of_getElem? hk) p u leased s hpoint).2
  have hdealing := takes.dealing hm.sound hk hp
  rw [hpoint] at hdealing
  rcases takes.of_acquire hpoint with ht | ⟨⟨s', hs'⟩, -⟩
  · rcases Acquire.yields_or_leaves ht with ⟨d, hyields⟩ | hleaves
    · obtain ⟨y, hy⟩ := hyields.exists_ok
      rw [hy] at hf
      cases hf
    · exact hdealing.of_timedOut hleaves.idle hleaves.members hplain hf hkind
  · rw [hs'] at hf
    cases hf

/-- A pool of which a caller finds nothing is open, has no idle clients, and all its slots are in
use. -/
theorem Sound.full_of_not_ready (hm : m.Sound) (h : (m.world.pool p).isReady = false) :
    (m.world.pool p).closing = false ∧ (m.world.pool p).idle = [] ∧
      (m.world.pool p).created = (m.world.pool p).limits.maxClients := by
  simp only [Pool.isReady, Pool.hasRoom, Bool.or_eq_false_iff, Bool.not_eq_false',
    List.isEmpty_iff, decide_eq_false_iff_not, UInt64.not_lt] at h
  obtain ⟨⟨hopen, hidle⟩, hroom⟩ := h
  have hbound : (m.world.pool p).created.toNat ≤ (m.world.pool p).limits.maxClients.toNat :=
    (Nat.le_add_right _ _).trans (hm.counted p).bound
  exact ⟨hopen, hidle, UInt64.le_antisymm (UInt64.le_iff_toNat_le.mpr hbound) hroom⟩

/-! ## Runs -/

/-- What the turns of one call have made of a counter of a pool in a run. -/
def account (i : Counter) (q : PoolKey) (k : CallKey) : Machine → List Event → UInt64
  | _, [] => 0
  | m, e :: es =>
    match m.perform e with
    | none => 0
    | some n =>
      (if e.isTurnOf k then (n.world.pool q).counter i - (m.world.pool q).counter i else 0) +
        account i q k n es

/-- With one more event, what the call makes of the counter in it is added. -/
theorem account_snoc {es : List Event} {l : Machine} (h : l.run es = some m)
    (hn : m.perform e = some n) : account i q k l (es ++ [e]) = account i q k l es +
      if e.isTurnOf k then (n.world.pool q).counter i - (m.world.pool q).counter i else 0 := by
  induction es generalizing l with
  | nil =>
    rw [run_nil, Option.some.injEq] at h
    subst h
    simp [account, hn]
  | cons e' es ih =>
    rw [run_cons, Option.bind_eq_some_iff] at h
    obtain ⟨l', hl, h⟩ := h
    simp only [List.cons_append, account, hl, ih h, UInt64.add_assoc]

/-- A call that has not begun has made nothing of any counter. -/
theorem account_eq_zero {es : List Event} {l : Machine} (h : l.run es = some m)
    (hk : m.calls.length ≤ k) : account i q k l es = 0 ∧ l.calls.length ≤ k := by
  induction es generalizing l with
  | nil =>
    rw [run_nil, Option.some.injEq] at h
    exact ⟨rfl, h ▸ hk⟩
  | cons e es ih =>
    rw [run_cons, Option.bind_eq_some_iff] at h
    obtain ⟨l', hl, h⟩ := h
    obtain ⟨hzero, hle⟩ := ih h
    have hless := (length_calls_le hl).trans hle
    have he : e.isTurnOf k = false := by
      by_contra he
      obtain ⟨call, hcall⟩ := exists_call_of_isTurnOf hl (Bool.not_eq_false _ ▸ he)
      exact absurd (List.getElem?_eq_some_iff.mp hcall).1 (Nat.not_lt_of_le hless)
    simp [account, hl, he, hzero, hless]

/-- In this run the call of this key has begun because somebody wanted a client of the pool, for a
lease or not. -/
def Wants (es : List Event) (k : CallKey) (p : PoolKey) : Prop :=
  ∃ us vs l t, run {} us = some l ∧ l.calls.length = k ∧
    (es = us ++ .begin (.acquire p t) :: vs ∨ es = us ++ .begin (.lease p t) :: vs)

/-- In this run the call of this key was told that its time was over, and when it was, its pool was
open, no client was idle and all slots were in use. -/
def TimedOut (es : List Event) (k : CallKey) (p : PoolKey) : Prop :=
  ∃ us vs e l n t leased f, es = us ++ e :: vs ∧ run {} us = some l ∧ l.perform e = some n ∧
    (l.call? k).map Call.point = some (.acquire p t leased .expired) ∧
    (n.call? k).map Call.point = some (.finished (.error f)) ∧ f.kind = .poolTimeout ∧
    (l.world.pool p).closing = false ∧ (l.world.pool p).idle = [] ∧
    (l.world.pool p).created = (l.world.pool p).limits.maxClients

/-- What a run has made of a call that wants a client of the pool and stands at `call` now. -/
structure Attempt (es : List Event) (p : PoolKey) (k : CallKey) (call : Call) : Prop where
  sequel : call.sequel = .none
  /-- It has got one, or it has made of every counter what it holds. -/
  stage : (∃ y, call.point = .finished (.ok y)) ∨
    call.point.Unserved p ∧ ∀ q i, account i q k {} es = call.point.share q i
  timedOut : ∀ f, call.point.Concluding (.error f) → f.kind = .poolTimeout → TimedOut es k p

theorem TimedOut.snoc {es : List Event} (h : TimedOut es k p) (e : Event) :
    TimedOut (es ++ [e]) k p := by
  obtain ⟨us, vs, e', l, n, t, leased, f, rfl, h⟩ := h
  exact ⟨us, vs ++ [e], e', l, n, t, leased, f, by simp, h⟩

/-- A call that is woken, or stays where it is, has made nothing of the counters. -/
theorem Attempt.of_wakes {es : List Event} (h : Attempt es p k call) (hes : run {} es = some m)
    (hn : m.perform e = some n) (he : e.isTurnOf k = false) (hw : call.point.Wakes call'.point)
    (hs : call'.sequel = call.sequel) : Attempt (es ++ [e]) p k call' where
  sequel := hs.trans h.sequel
  stage := by
    rcases h.stage with ⟨y, hy⟩ | ⟨hunserved, haccount⟩
    · exact .inl ⟨y, (hw.eq_of_awake (by rw [hy]; rfl)).trans hy⟩
    · refine .inr ⟨hunserved.of_wakes hw, fun q i => ?_⟩
      rw [account_snoc hes hn, he, haccount, hw.share_eq]
      exact UInt64.add_zero _
  timedOut f hf hkind := (h.timedOut f (hf.of_wakes hw) hkind).snoc e

/-- A call that takes its turn has not been served. -/
theorem Attempt.unserved {es : List Event} (h : Attempt es p k call) (takes : m.Takes k call e t) :
    call.point.Unserved p ∧ ∀ q i, account i q k {} es = call.point.share q i := by
  refine h.stage.resolve_left ?_
  rintro ⟨y, hy⟩
  exact takes.not_over hy h.sequel

/-- What a turn adds to a counter is what the call holds more than before. -/
theorem add_sub_eq_of_add_eq {a b c d : UInt64} (h : a + b = c + d) : b + (a - c) = d := by
  grind

/-- A call that takes its turn goes on with its attempt. -/
theorem Attempt.of_takes {es : List Event} (h : Attempt es p k call) (hes : run {} es = some m)
    (hk : m.call? k = some call) (hn : m.perform e = some n) (takes : m.Takes k call e t)
    (hworld : n.world = t.world) (hk' : n.call? k = some call')
    (hw : t.point.Wakes call'.point)
    (hs : call'.sequel = call.sequel ∨ call'.sequel = .none ∨
      ∃ h, call.point = .heartbeat h .resting ∧ call'.sequel = .beat h) :
    Attempt (es ++ [e]) p k call' := by
  have hm : m.Reachable := ⟨es, hes⟩
  obtain ⟨hunserved, haccount⟩ := h.unserved takes
  have hsequel : call'.sequel = .none := by
    refine eq_none_of_sequel hs h.sequel fun b hb => ?_
    rw [hb] at hunserved
    cases hunserved with
    | told concluding => cases concluding
  refine ⟨hsequel, ?_, fun f hf hkind => ?_⟩
  · rcases takes.unserved hm hk hunserved h.sequel with ⟨y, hy⟩ | ⟨hunserved', hcounter⟩
    · exact .inl ⟨y, (hw.eq_of_awake (by rw [hy]; rfl)).trans hy⟩
    · refine .inr ⟨hunserved'.of_wakes hw, fun q i => ?_⟩
      rw [account_snoc hes hn, takes.isTurnOf, haccount, hw.share_eq, hworld]
      exact add_sub_eq_of_add_eq (hcounter q i)
  · have hf' : t.point.Concluding (.error f) := hf.of_wakes hw
    generalize hpoint : call.point = x at hunserved
    cases hunserved with
    | told concluding kind =>
      obtain ⟨hconcluding, -⟩ := takes.concluding (hpoint.symm ▸ concluding) h.sequel
      obtain rfl := Outcome.error.inj (hconcluding.unique hf')
      exact (h.timedOut _ (hpoint.symm ▸ concluding) hkind).snoc e
    | @wants u leased s =>
      obtain ⟨rfl, hnothing, ht⟩ := takes.of_timedOut hm hk hpoint hf' hkind
      obtain ⟨hopen, hidle, hfull⟩ := hm.sound.full_of_not_ready hnothing
      have hpoint' : call'.point = .finished (.error f) :=
        (hw.eq_of_awake (by rw [ht]; rfl)).trans ht
      exact ⟨es, [], e, m, n, u, leased, f, rfl, hes, hn, by rw [hk, Option.map_some, hpoint],
        by rw [hk', Option.map_some, hpoint'], hkind, hopen, hidle, hfull⟩

/-- What a run with one more event says of a call that wants a client. -/
theorem wants_snoc {es : List Event} (hes : run {} es = some m) (h : Wants (es ++ [e]) k p) :
    Wants es k p ∨
      m.calls.length = k ∧ ∃ t, e = .begin (.acquire p t) ∨ e = .begin (.lease p t) := by
  obtain ⟨us, vs, l, t, hl, hk, hsplit⟩ := h
  have hlast : es = us → m = l := by
    rintro rfl
    exact Option.some.inj (hes.symm.trans hl)
  rcases hsplit with hsplit | hsplit
  · rcases snoc_eq_append_cons hsplit with ⟨ws, hws, -⟩ | ⟨hus, he, -⟩
    · exact .inl ⟨us, ws, l, t, hl, hk, .inl hws⟩
    · exact .inr ⟨hlast hus ▸ hk, t, .inl he⟩
  · rcases snoc_eq_append_cons hsplit with ⟨ws, hws, -⟩ | ⟨hus, he, -⟩
    · exact .inl ⟨us, ws, l, t, hl, hk, .inr hws⟩
    · exact .inr ⟨hlast hus ▸ hk, t, .inr he⟩

/-- A call that has just begun has made nothing of any counter. -/
theorem Attempt.of_begin {es : List Event} {o : Operation} (hes : run {} es = some m)
    (hn : m.perform (.begin o) = some n)
    (ho : ∃ u, o = .acquire p u ∨ o = .lease p u) :
    ∃ call, n.call? m.calls.length = some call ∧
      Attempt (es ++ [.begin o]) p m.calls.length call := by
  have hcall : n.call? m.calls.length = _ := eq_begin hn ▸ call?_begin m o
  obtain ⟨u, leased, hpoint, hsequel⟩ : ∃ u leased,
      (o.enter m.world).point = .acquire p u leased .seeking ∧
        (o.enter m.world).sequel = .none := by
    obtain ⟨u, rfl | rfl⟩ := ho
    · exact ⟨u, false, rfl, rfl⟩
    · exact ⟨u, true, rfl, rfl⟩
  refine ⟨_, hcall, hsequel, .inr ?_, fun f hf => ?_⟩
  · rw [hpoint]
    refine ⟨.wants, fun q i => ?_⟩
    rw [account_snoc hes hn, (account_eq_zero hes le_rfl).1]
    cases i <;> simp [Event.isTurnOf, Point.share, Point.creates, Point.waits,
      AcquirePoint.creates, AcquirePoint.waits]
  · rw [hpoint] at hf
    cases hf

/-- What every run makes of a call that wants a client. -/
theorem attempt {es : List Event} (h : run {} es = some m) (hwants : Wants es k p) :
    ∃ call, m.call? k = some call ∧ Attempt es p k call := by
  refine history_induct (P := fun es m => Wants es k p → ∃ call, m.call? k = some call ∧
    Attempt es p k call) ?_ ?_ h hwants
  · rintro ⟨us, vs, l, t, -, -, h | h⟩
    · simp at h
    · simp at h
  · intro es m e n hes ih hn hwants
    rcases wants_snoc hes hwants with hwants | ⟨rfl, t, he⟩
    · obtain ⟨call, hk, hattempt⟩ := ih hwants
      obtain ⟨call', hk', h⟩ := (happens hn).turn_or_wakes hk
      refine ⟨call', hk', ?_⟩
      rcases h with ⟨he, hw, hs⟩ | ⟨-, t, takes, hworld, hw, hs⟩
      · exact hattempt.of_wakes hes hn he hw hs
      · exact hattempt.of_takes hes hk hn takes hworld hk' hw hs
    · rcases he with rfl | rfl
      · exact Attempt.of_begin hes hn ⟨t, .inl rfl⟩
      · exact Attempt.of_begin hes hn ⟨t, .inr rfl⟩

end Machine
end SessionPool
