import SessionPool.Proofs.Treatment

/-!
# What a turn does to a pool

All that a turn of a call can do to the record of a pool, with where the call comes from, where it
goes and whom it wakes (`Dealing`).  The laws of waiting and of closing are derived from this list,
without a further look at the steps.

* `Point.minds`: the calls to which it matters how a pool stands: those that stock it, want a client
  of it, or close it.
* `Machine.Takes.dealing`: every turn deals with every pool in one of these ways.
-/

namespace SessionPool

/-- A call that stands here stocks the pool, wants a client of it, or closes it. -/
def Point.minds (p : PoolKey) : Point → Bool
  | .stock q _ _ => q = p
  | .acquire q _ _ _ => q = p
  | .close q _ => q = p
  | _ => false

/-- A caller who stands here is about to look for a client. -/
def AcquirePoint.looks : AcquirePoint → Bool
  | .seeking | .woken | .expired => true
  | _ => false

/-- A caller who looks for a client does not wait any more. -/
def AcquirePoint.rise : AcquirePoint → Pool → Pool
  | .woken, pool => { pool with waiting := pool.waiting - 1 }
  | .expired, pool => { pool with waiting := pool.waiting - 1 }
  | _, pool => pool

namespace AcquirePoint

variable (s : AcquirePoint) (pool : Pool)

@[simp] theorem rise_members : (s.rise pool).members = pool.members := by cases s <;> rfl
@[simp] theorem rise_idle : (s.rise pool).idle = pool.idle := by cases s <;> rfl
@[simp] theorem rise_created : (s.rise pool).created = pool.created := by cases s <;> rfl
@[simp] theorem rise_outstanding : (s.rise pool).outstanding = pool.outstanding := by
  cases s <;> rfl
@[simp] theorem rise_closing : (s.rise pool).closing = pool.closing := by cases s <;> rfl
@[simp] theorem rise_closed : (s.rise pool).closed = pool.closed := by cases s <;> rfl
@[simp] theorem rise_limits : (s.rise pool).limits = pool.limits := by cases s <;> rfl
@[simp] theorem rise_hasRoom : (s.rise pool).hasRoom = pool.hasRoom := by cases s <;> rfl
@[simp] theorem rise_address : (s.rise pool).address = pool.address := by cases s <;> rfl

end AcquirePoint

/-- The record of a pool when a client that was pinged has gone back, or left. -/
def Pool.settle (w : World) (p : PoolKey) (pool : Pool) (c : ClientKey) : Pool :=
  if KeepAlive.isDiscarded w p c then pool.giveBack.detach c else pool.giveBack.pushIdle c

theorem Pool.closing_foldl_settle (w : World) (p : PoolKey) (cs : List ClientKey) (pool : Pool) :
    (cs.foldl (Pool.settle w p) pool).closing = pool.closing := by
  induction cs generalizing pool with
  | nil => rfl
  | cons c cs ih =>
    rw [List.foldl_cons, ih, Pool.settle]
    split <;> rfl

theorem Pool.closed_foldl_settle (w : World) (p : PoolKey) (cs : List ClientKey) (pool : Pool) :
    (cs.foldl (Pool.settle w p) pool).closed = pool.closed := by
  induction cs generalizing pool with
  | nil => rfl
  | cons c cs ih =>
    rw [List.foldl_cons, ih, Pool.settle]
    split <;> rfl

/-- What a turn from one point to another does to the record of the pool `p`, and whom it wakes. -/
inductive Dealing (w : World) (p : PoolKey) : Point → Point → Pool → List Signal → Prop where
  /-- It has nothing to do with the pool. -/
  | elsewhere {x y : Point} {ss : List Signal} (hx : x.minds p = false) (hy : y.minds p = false) :
      Dealing w p x y (w.pool p) ss
  /-- It stocks the pool. -/
  | stocked {left : ℕ} {s : StockPoint} {y : Point} {pool : Pool} {ss : List Signal}
      (goesOn : (∃ left s, y = .stock p left s) ∨ ∃ o, y = .finished o)
      (closing : pool.closing = (w.pool p).closing) (closed : pool.closed = (w.pool p).closed)
      (idle : ∀ c ∈ pool.idle, c ∈ (w.pool p).idle ∨ s = .arrived c) :
      Dealing w p (.stock p left s) y pool ss
  /-- A caller finds the pool closing. -/
  | barred {t : Patience} {leased : Bool} {s : AcquirePoint} (looks : s.looks = true)
      (closing : (w.pool p).closing = true) :
      Dealing w p (.acquire p t leased s) (.finished (.error (.poolClosed (w.pool p).address)))
        (s.rise (w.pool p)) []
  /-- A caller gets the next idle client. -/
  | taken {t : Patience} {leased : Bool} {s : AcquirePoint} {c : ClientKey}
      {rest : List ClientKey} (o : Outcome) (looks : s.looks = true)
      (isOpen : (w.pool p).closing = false) (front : (w.pool p).idle = c :: rest) :
      Dealing w p (.acquire p t leased s) (.finished o) ((s.rise (w.pool p)).takeIdle rest) []
  /-- A caller reserves a slot. -/
  | reserved {t : Patience} {leased : Bool} {s : AcquirePoint} (looks : s.looks = true)
      (isOpen : (w.pool p).closing = false) (room : (w.pool p).hasRoom = true) :
      Dealing w p (.acquire p t leased s) (.acquire p t leased .opening)
        (s.rise (w.pool p)).reserve []
  /-- A caller goes to sleep. -/
  | slept {t : Patience} {leased : Bool} (nothing : (w.pool p).isReady = false) :
      Dealing w p (.acquire p t leased .seeking) (.acquire p t leased .asleep)
        { w.pool p with waiting := (w.pool p).waiting + 1 } []
  /-- A caller was woken for nothing and goes on sleeping. -/
  | dozed {t : Patience} {leased : Bool} (nothing : (w.pool p).isReady = false) :
      Dealing w p (.acquire p t leased .woken) (.acquire p t leased .asleep) (w.pool p) []
  /-- A caller loses its patience. -/
  | expired {t : Patience} {leased : Bool} :
      Dealing w p (.acquire p t leased .asleep) (.acquire p t leased .expired) (w.pool p) []
  /-- A caller gives up. -/
  | timedOut {t : Patience} {leased : Bool} (nothing : (w.pool p).isReady = false) :
      Dealing w p (.acquire p t leased .expired)
        (.finished (.error (.timedOut (w.pool p).address)))
        { w.pool p with waiting := (w.pool p).waiting - 1 } []
  /-- A client comes for a caller. -/
  | arrived {t : Patience} {leased : Bool} (c : ClientKey) :
      Dealing w p (.acquire p t leased .opening) (.acquire p t leased (.arrived c))
        { w.pool p with nextNumber := (w.pool p).nextNumber + 1 } []
  /-- No client comes for a caller. -/
  | missed {t : Patience} {leased : Bool} {f : Fault} (kind : f.kind = .clientCreation) :
      Dealing w p (.acquire p t leased .opening) (.acquire p t leased (.refused f)) (w.pool p) []
  /-- A new client joins the pool and stays with its caller. -/
  | enrolled {t : Patience} {leased : Bool} {c : ClientKey} (o : Outcome)
      (isOpen : (w.pool p).closing = false) :
      Dealing w p (.acquire p t leased (.arrived c)) (.finished o) ((w.pool p).enroll c) []
  /-- A new client comes too late. -/
  | dismissed {t : Patience} {leased : Bool} {c : ClientKey}
      (closing : (w.pool p).closing = true) :
      Dealing w p (.acquire p t leased (.arrived c))
        (.farewell .disconnect false [c]
          (.destroy [c] (.error (.poolClosed (w.pool p).address))))
        (w.pool p).unreserve (Acquire.slotFreed p)
  /-- A caller gives back the slot of a client that has not come. -/
  | refused {t : Patience} {leased : Bool} {f : Fault} :
      Dealing w p (.acquire p t leased (.refused f)) (.finished (.error f))
        (w.pool p).unreserve (Acquire.slotFreed p)
  /-- A client is given back, and is idle. -/
  | returned {c : ClientKey} {leased : Bool} (mem : c ∈ (w.pool p).members)
      (last : (w.client c).references = 1) (isOpen : (w.pool p).closing = false)
      (whole : (w.client c).isBroken = false) :
      Dealing w p (.release p c leased) (.finished (.ok .done)) ((w.pool p).giveBack.pushIdle c)
        (Acquire.slotFreed p)
  /-- A client is given back, and leaves. -/
  | discarded {c : ClientKey} {leased : Bool} (mem : c ∈ (w.pool p).members)
      (last : (w.client c).references = 1)
      (cause : (w.client c).isBroken = true ∨ (w.pool p).closing = true) :
      Dealing w p (.release p c leased)
        (.farewell .disconnect false [c] (.destroy [c] (.ok .done)))
        ((w.pool p).giveBack.detach c) (Acquire.slotFreed p)
  /-- All idle clients are taken out to be pinged. -/
  | drained (isOpen : (w.pool p).closing = false) :
      Dealing w p (.keepAlive p .draining)
        (.keepAlive p (.pinging false [] (w.pool p).idle none)) (w.pool p).drain []
  /-- The clients that have been pinged go back, or leave. -/
  | restored {waiting : Bool} {pinged cs : List ClientKey} {failure : Option Fault} {o : Outcome} :
      Dealing w p (.keepAlive p (.pinging waiting pinged [] failure))
        (.farewell .disconnect false cs (.destroy cs o)) (pinged.foldl (Pool.settle w p) (w.pool p))
        [.allAcquirers p, .allClosers p]
  /-- The closing begins, and something is outstanding. -/
  | begun (isOpen : (w.pool p).closing = false) (busy : (w.pool p).outstanding ≠ 0) :
      Dealing w p (.close p .entering) (.close p (.draining false))
        { w.pool p with closing := true } [.allAcquirers p]
  /-- The closing begins, and nothing is outstanding. -/
  | begunAtOnce (isOpen : (w.pool p).closing = false) (settled : (w.pool p).outstanding = 0) :
      Dealing w p (.close p .entering)
        (.farewell .disconnect false (w.pool p).members (.markClosed p (w.pool p).members))
        { w.pool p with closing := true }.empty [.allAcquirers p]
  /-- The call that closes the pool goes on sleeping. -/
  | drowsed (busy : (w.pool p).outstanding ≠ 0) :
      Dealing w p (.close p (.draining true)) (.close p (.draining false)) (w.pool p) []
  /-- The call that closes the pool takes all clients out. -/
  | emptied (settled : (w.pool p).outstanding = 0) :
      Dealing w p (.close p (.draining true))
        (.farewell .disconnect false (w.pool p).members (.markClosed p (w.pool p).members))
        (w.pool p).empty []
  /-- Another call closes the pool already, and this one sleeps until that is done. -/
  | attended {s : ClosePoint}
      (hs : s = .attending true ∨ s = .entering ∧ (w.pool p).closing = true)
      (unclosed : (w.pool p).closed = false) :
      Dealing w p (.close p s) (.close p (.attending false)) (w.pool p) []
  /-- Another call has closed the pool. -/
  | found {s : ClosePoint} (hs : s = .attending true ∨ s = .entering)
      (closed : (w.pool p).closed = true) :
      Dealing w p (.close p s) (.finished (.ok .done)) (w.pool p) []
  /-- All clients of a pool that is closed have been disconnected. -/
  | sealing {rite : Rite} {waiting : Bool} {cs : List ClientKey} :
      Dealing w p (.farewell rite waiting [] (.markClosed p cs)) (.close p (.sealing cs))
        (w.pool p) []
  /-- The pool is marked as closed. -/
  | closed {cs : List ClientKey} :
      Dealing w p (.close p (.sealing cs)) (.close p (.announcing cs))
        { w.pool p with closed := true } []
  /-- The others are told that the pool is closed. -/
  | announced {cs : List ClientKey} :
      Dealing w p (.close p (.announcing cs)) (.farewell .destroy false cs (.finish (.ok .done)))
        (w.pool p) [.allClosers p]

variable {w : World} {p q : PoolKey} {c : ClientKey} {t : Patience} {leased : Bool}

/-- A turn that has nothing to do with a pool. -/
theorem Dealing.of_eq {x y : Point} {pool : Pool} {ss : List Signal} (hpool : pool = w.pool p)
    (hx : x.minds p = false) (hy : y.minds p = false) : Dealing w p x y pool ss :=
  hpool ▸ .elsewhere hx hy

@[simp] theorem World.pool_handOver : (w.handOver q c leased).1.pool p = w.pool p := by
  cases leased <;> rfl

/-! ## Callers -/

namespace Acquire

/-- A caller looks for a client. -/
theorem dealing_seek {w' : World} {s : AcquirePoint} (looks : s.looks = true)
    (hp : p < w'.pools.length) (hw : w'.pool p = s.rise (w.pool p))
    (hready : s = .seeking ∨ (w.pool p).isReady = true) :
    Dealing w p (.acquire p t leased s) (seek w' p t leased).point
      ((seek w' p t leased).world.pool p) (seek w' p t leased).signals := by
  have hclosing : (w'.pool p).closing = (w.pool p).closing := by rw [hw, AcquirePoint.rise_closing]
  have hidle : (w'.pool p).idle = (w.pool p).idle := by rw [hw, AcquirePoint.rise_idle]
  have hroom : (w'.pool p).hasRoom = (w.pool p).hasRoom := by rw [hw, AcquirePoint.rise_hasRoom]
  have haddress : (w'.pool p).address = (w.pool p).address := by
    rw [hw, AcquirePoint.rise_address]
  simp only [seek]
  split
  · next h =>
    rw [haddress]
    exact hw ▸ .barred looks (hclosing ▸ h)
  · next h =>
    rw [Bool.not_eq_true, hclosing] at h
    split
    · next c rest hfront =>
      have hpool : ((Turn.lend ((w'.onPool p fun pool => pool.takeIdle rest).onClient c
          Client.lend) p c leased).world.pool p) = (s.rise (w.pool p)).takeIdle rest := by
        rw [Turn.lend, ← hw]
        exact World.pool_handOver.trans (World.pool_onPool w' hp _)
      show Dealing w p _ _ ((Turn.lend _ p c leased).world.pool p) []
      rw [hpool]
      exact .taken _ looks h (hidle ▸ hfront)
    · next hnone =>
      split
      · next hr =>
        show Dealing w p _ _ ((w'.onPool p Pool.reserve).pool p) []
        rw [World.pool_onPool w' hp, hw]
        exact .reserved looks h (hroom ▸ hr)
      · next hr =>
        have hnot : (w.pool p).isReady = false := by
          rw [hidle] at hnone
          rw [hroom] at hr
          simp [Pool.isReady, h, hnone, hr]
        obtain rfl : s = .seeking := hready.resolve_right (by simp [hnot])
        show Dealing w p _ _ ((w'.onPool p _).pool p) []
        rw [World.pool_onPool w' hp, hw]
        exact .slept hnot

/-- A caller that looks for a client of another pool. -/
theorem dealing_seek_of_ne (hq : p ≠ q) (x : Point) (hx : x.minds p = false) {w' : World}
    (hw : w'.pool p = w.pool p) :
    Dealing w p x (seek w' q t leased).point ((seek w' q t leased).world.pool p)
      (seek w' q t leased).signals := by
  simp only [seek]
  repeat' split
  · exact .of_eq hw hx rfl
  · refine .of_eq ?_ hx rfl
    exact World.pool_handOver.trans ((World.pool_onPool_of_ne w' hq _).trans hw)
  · refine .of_eq ((World.pool_onPool_of_ne w' hq _).trans hw) hx ?_
    simpa [Turn.goto, Point.minds] using hq.symm
  · refine .of_eq ((World.pool_onPool_of_ne w' hq _).trans hw) hx ?_
    simpa [Turn.goto, Point.minds] using hq.symm

theorem pool_rise (hp : p < w.pools.length) {s : AcquirePoint} (hs : s = .woken ∨ s = .expired) :
    (rise w p).pool p = s.rise (w.pool p) := by
  rw [rise, World.pool_onPool w hp]
  rcases hs with rfl | rfl <;> rfl

/-- Every step of a caller. -/
theorem dealing_step {s : AcquirePoint} {turn : Turn} (hp : p < w.pools.length)
    (h : step w p t leased s = some turn) :
    Dealing w p (.acquire p t leased s) turn.point (turn.world.pool p) turn.signals := by
  have hrise : p < (rise w p).pools.length := by simpa [rise] using hp
  cases s with
  | seeking => exact Option.some.inj h ▸ dealing_seek rfl hp rfl (.inl rfl)
  | opening => cases h
  | asleep => cases h
  | arrived c =>
    obtain rfl := Option.some.inj h
    simp only [arrive]
    split
    · next hc =>
      rw [World.pool_onPool w hp]
      exact .dismissed hc
    · next hc =>
      rw [Bool.not_eq_true] at hc
      have hpool : ((Turn.lend ((w.onPool p fun pool => pool.enroll c).onClient c Client.lend) p c
          leased).world.pool p) = (w.pool p).enroll c :=
        World.pool_handOver.trans (World.pool_onPool w hp _)
      show Dealing w p _ _ ((Turn.lend _ p c leased).world.pool p) []
      rw [hpool]
      exact .enrolled _ hc
  | refused f =>
    obtain rfl := Option.some.inj h
    simp only [refuse]
    rw [World.pool_onPool w hp]
    exact .refused
  | woken =>
    obtain rfl := Option.some.inj h
    simp only [wake]
    split
    · next hr => exact dealing_seek rfl hrise (pool_rise hp (.inl rfl)) (.inr hr)
    · next hr => exact .dozed (Bool.not_eq_true _ ▸ hr)
  | expired =>
    obtain rfl := Option.some.inj h
    simp only [expire]
    split
    · next hr => exact dealing_seek rfl hrise (pool_rise hp (.inr rfl)) (.inr hr)
    · next hr =>
      rw [pool_rise hp (.inr rfl)]
      exact .timedOut (Bool.not_eq_true _ ▸ hr)

/-- Every step of a caller that wants a client of another pool. -/
theorem dealing_step_of_ne {s : AcquirePoint} {turn : Turn} (hq : p ≠ q)
    (h : step w q t leased s = some turn) :
    Dealing w p (.acquire q t leased s) turn.point (turn.world.pool p) turn.signals := by
  have hx : ∀ s, (Point.acquire q t leased s).minds p = false := by
    intro s
    simpa [Point.minds] using hq.symm
  have hrise : (rise w q).pool p = w.pool p := World.pool_onPool_of_ne w hq _
  cases s with
  | seeking => exact Option.some.inj h ▸ dealing_seek_of_ne hq _ (hx _) rfl
  | opening => cases h
  | asleep => cases h
  | arrived c =>
    obtain rfl := Option.some.inj h
    simp only [arrive]
    split
    · exact .of_eq (World.pool_onPool_of_ne w hq _) (hx _) rfl
    · refine .of_eq ?_ (hx _) rfl
      exact World.pool_handOver.trans (World.pool_onPool_of_ne w hq _)
  | refused f =>
    exact Option.some.inj h ▸ .of_eq (World.pool_onPool_of_ne w hq _) (hx _) rfl
  | woken =>
    obtain rfl := Option.some.inj h
    simp only [wake]
    split
    · exact dealing_seek_of_ne hq _ (hx _) hrise
    · exact .elsewhere (hx _) (hx _)
  | expired =>
    obtain rfl := Option.some.inj h
    simp only [expire]
    split
    · exact dealing_seek_of_ne hq _ (hx _) hrise
    · exact .of_eq hrise (hx _) rfl

/-- The window of a caller is over. -/
theorem dealing_answered (hp : p < w.pools.length) (a : OpenAnswer) :
    Dealing w p (.acquire p t leased .opening) (answered w p t leased a).point
      ((answered w p t leased a).world.pool p) (answered w p t leased a).signals := by
  cases a with
  | session connected =>
    simp only [answered, Opening.answered]
    rw [World.pool_onPool (w.addClient _) (show p < (w.addClient _).pools.length from hp)]
    exact .arrived _
  | nothing => exact .missed rfl
  | failed reason => exact .missed rfl

end Acquire

/-- No session makes a difference to another pool. -/
theorem Opening.pool_answered_of_ne (hq : p ≠ q) (a : OpenAnswer) :
    (Opening.answered w q a).world.pool p = w.pool p := by
  cases a with
  | session connected => exact World.pool_onPool_of_ne (w.addClient _) hq _
  | _ => rfl

theorem Acquire.dealing_answered_of_ne (hq : p ≠ q) (a : OpenAnswer) :
    Dealing w p (.acquire q t leased .opening) (Acquire.answered w q t leased a).point
      ((Acquire.answered w q t leased a).world.pool p)
      (Acquire.answered w q t leased a).signals := by
  refine .of_eq (Opening.pool_answered_of_ne hq a) ?_ ?_
  all_goals simpa [Acquire.answered, Point.minds] using hq.symm

namespace Stock

variable {left : ℕ}

/-- Every step of a stocking. -/
theorem dealing_step {s : StockPoint} {turn : Turn} (hp : p < w.pools.length)
    (h : step w p left s = some turn) :
    Dealing w p (.stock p left s) turn.point (turn.world.pool p) turn.signals := by
  cases s with
  | reserving =>
    cases left with
    | zero => exact Option.some.inj h ▸ .stocked (.inr ⟨_, rfl⟩) rfl rfl fun _ => .inl
    | succ left =>
      obtain rfl := Option.some.inj h
      simp only [Turn.goto]
      rw [World.pool_onPool w hp]
      exact .stocked (.inl ⟨_, _, rfl⟩) rfl rfl fun _ => .inl
  | opening => cases h
  | arrived c =>
    obtain rfl := Option.some.inj h
    simp only [Turn.goto]
    rw [World.pool_onPool _ (by simpa using hp)]
    refine .stocked (.inl ⟨_, _, rfl⟩) rfl rfl fun d hd => ?_
    simpa [Pool.enrollIdle, eq_comm] using hd
  | refused f =>
    obtain rfl := Option.some.inj h
    simp only
    rw [World.pool_onPool w hp]
    exact .stocked (.inl ⟨_, _, rfl⟩) rfl rfl fun _ => .inl

/-- Every step of the stocking of another pool. -/
theorem dealing_step_of_ne {s : StockPoint} {turn : Turn} (hq : p ≠ q)
    (h : step w q left s = some turn) :
    Dealing w p (.stock q left s) turn.point (turn.world.pool p) turn.signals := by
  have hx : ∀ left s, (Point.stock q left s).minds p = false := by
    intro left s
    simpa [Point.minds] using hq.symm
  cases s with
  | reserving =>
    cases left with
    | zero => exact Option.some.inj h ▸ .elsewhere (hx _ _) rfl
    | succ left =>
      exact Option.some.inj h ▸ .of_eq (World.pool_onPool_of_ne w hq _) (hx _ _) (hx _ _)
  | opening => cases h
  | arrived c =>
    exact Option.some.inj h ▸ .of_eq (World.pool_onPool_of_ne _ hq _) (hx _ _) (hx _ _)
  | refused f => exact Option.some.inj h ▸ .of_eq (World.pool_onPool_of_ne w hq _) (hx _ _) (hx _ _)

/-- The window of a stocking is over. -/
theorem dealing_answered (hp : p < w.pools.length) (a : OpenAnswer) :
    Dealing w p (.stock p left .opening) (answered w p left a).point
      ((answered w p left a).world.pool p) (answered w p left a).signals := by
  cases a with
  | session connected =>
    simp only [answered, Opening.answered]
    rw [World.pool_onPool (w.addClient _) (show p < (w.addClient _).pools.length from hp)]
    exact .stocked (.inl ⟨_, _, rfl⟩) rfl rfl fun _ => .inl
  | nothing => exact .stocked (.inl ⟨_, _, rfl⟩) rfl rfl fun _ => .inl
  | failed reason => exact .stocked (.inl ⟨_, _, rfl⟩) rfl rfl fun _ => .inl

theorem dealing_answered_of_ne (hq : p ≠ q) (a : OpenAnswer) :
    Dealing w p (.stock q left .opening) (answered w q left a).point
      ((answered w q left a).world.pool p) (answered w q left a).signals := by
  refine .of_eq (Opening.pool_answered_of_ne hq a) ?_ ?_
  all_goals simpa [answered, Point.minds] using hq.symm

end Stock

/-! ## Borrowers -/

/-- Sharing a client makes no difference to its pool. -/
theorem Share.dealing_step :
    Dealing w p (.addReference q c leased) (Share.step w q c leased).point
      ((Share.step w q c leased).world.pool p) (Share.step w q c leased).signals := by
  simp only [Share.step]
  split
  · exact .elsewhere rfl rfl
  · split
    · exact .elsewhere rfl rfl
    · split
      · exact .elsewhere rfl rfl
      · exact .of_eq World.pool_handOver rfl rfl

namespace Release

/-- The last reference is given back. -/
theorem dealing_last {k : Client} (hmem : c ∈ (w.pool p).members)
    (hk : k = { w.client c with references := 0 }) (hc : c < w.clients.length)
    (hlast : (w.client c).references = 1) :
    Dealing w p (.release p c leased) (last (w.onClient c fun _ => k) p c).point
      ((last (w.onClient c fun _ => k) p c).world.pool p)
      (last (w.onClient c fun _ => k) p c).signals := by
  have hp := World.lt_length_of_mem hmem
  have hclient : (w.onClient c fun _ => k).client c = { w.client c with references := 0 } := by
    rw [World.client_onClient w hc, hk]
  have hpool : ∀ (w' : World) (f : Pool → Pool), w'.pools = w.pools →
      (w'.onPool p f).pool p = f (w.pool p) := by
    intro w' f hw
    rw [World.pool_onPool w' (hw ▸ hp)]
    simp [World.pool, hw]
  have hgiven := hpool (w.onClient c fun _ => k) Pool.giveBack rfl
  simp only [last, keep, World.client_onPool, hclient, hgiven]
  split
  · next hbroken =>
    rw [World.pool_onPool _ (by simpa using hp), hgiven]
    exact .discarded hmem hlast (.inl hbroken)
  · next hwhole =>
    split
    · next hclosing =>
      rw [World.pool_onPool _ (by simpa using hp), hgiven]
      exact .discarded hmem hlast (.inr hclosing)
    · next hopen =>
      rw [World.pool_onPool _ (by simpa using hp), World.pool_onClient, hgiven]
      exact .returned hmem hlast (Bool.not_eq_true _ ▸ hopen) (Bool.not_eq_true _ ▸ hwhole)

/-- The last reference to a client of another pool is given back. -/
theorem dealing_last_of_ne (hq : p ≠ q) {w' : World} (hw : w'.pool p = w.pool p) :
    Dealing w p (.release q c leased) (last w' q c).point ((last w' q c).world.pool p)
      (last w' q c).signals := by
  simp only [last, keep]
  repeat' split
  all_goals
    refine .of_eq ?_ rfl rfl
    simp [World.pool_onPool_of_ne _ hq, hw]

/-- A reference is given back, or it is an error. -/
theorem dealing_step (hc : c ∈ (w.pool q).members → c < w.clients.length) :
    Dealing w p (.release q c leased) (step w q c).point ((step w q c).world.pool p)
      (step w q c).signals := by
  simp only [step]
  split
  · exact .elsewhere rfl rfl
  · next hmem =>
    rw [not_not] at hmem
    unfold Client.dropReference?
    by_cases hlent : (w.client c).references = 0
    · simp only [hlent, if_true]
      exact .elsewhere rfl rfl
    · simp only [hlent, if_false]
      by_cases hlast : (w.client c).references = 1
      · have hzero : (w.client c).references - 1 = 0 := by
          rw [hlast]
          rfl
        simp only [hzero, if_true]
        by_cases hq : p = q
        · subst hq
          exact dealing_last hmem rfl (hc hmem) hlast
        · exact dealing_last_of_ne hq rfl
      · have hmore : (w.client c).references - 1 ≠ 0 := by
          intro h
          exact hlast (by rw [← UInt64.sub_add_cancel (w.client c).references 1, h]; rfl)
        simp only [hmore, if_false]
        exact .elsewhere rfl rfl

end Release

/-! ## One command, and sending clients off -/

theorem World.pool_received (command : Text) (a : SendAnswer) :
    (w.received c command a).world.pool p = w.pool p := by
  cases a with
  | reply r =>
    simp only [World.received]
    split <;> rfl
  | _ => rfl

theorem World.pool_pinged (a : SendAnswer) : (w.pinged c a).world.pool p = w.pool p := by
  simp only [World.pinged]
  repeat' split
  all_goals simp [World.pool_received]

theorem Exchange.dealing_answered {x : Point} {command : Text} {ping : Bool} (a : SendAnswer)
    (hx : x.minds p = false) :
    Dealing w p x (Exchange.answered w c command ping a).point
      ((Exchange.answered w c command ping a).world.pool p)
      (Exchange.answered w c command ping a).signals := by
  refine .of_eq ?_ hx rfl
  simp only [Exchange.answered]
  split
  · exact World.pool_pinged a
  · exact World.pool_received command a

namespace Farewell

variable {rite : Rite} {waiting : Bool} {next : Afterwards}

theorem dealing_step {todo : List ClientKey} :
    Dealing w p (.farewell rite waiting todo next) (step w rite todo next).point
      ((step w rite todo next).world.pool p) (step w rite todo next).signals := by
  cases todo with
  | nil =>
    cases next with
    | finish o => exact .elsewhere rfl rfl
    | destroy cs o => exact .elsewhere rfl rfl
    | markClosed q cs =>
      by_cases hq : p = q
      · exact hq ▸ .sealing
      · refine .elsewhere rfl ?_
        simpa [step, Turn.goto, after, Point.minds] using Ne.symm hq
  | cons d rest =>
    simp only [step]
    repeat' split
    all_goals exact .elsewhere rfl rfl

theorem dealing_answered {rest : List ClientKey} (a : DisconnectAnswer) :
    Dealing w p (.farewell rite waiting (c :: rest) next) (answered w rite c rest next a).point
      ((answered w rite c rest next a).world.pool p) (answered w rite c rest next a).signals := by
  cases a <;> exact .elsewhere rfl rfl

end Farewell

/-! ## Pinging the idle clients -/

namespace KeepAlive

/-- The record of the pool when the clients that have been pinged have gone back. -/
theorem pool_foldl_settle (hp : p < w.pools.length) (ds : List ClientKey) :
    (ds.foldl (fun w c => settle w p c) w).pool p = ds.foldl (Pool.settle w p) (w.pool p) := by
  induction ds generalizing w with
  | nil => rfl
  | cons d ds ih =>
    have hsettle : (settle w p d).pool p = Pool.settle w p (w.pool p) d := by
      rw [settle, World.pool_onPool w hp]
      rfl
    have hsame : ∀ pool c, Pool.settle (settle w p d) p pool c = Pool.settle w p pool c := by
      intro pool c
      simp only [Pool.settle, isDiscarded_settle hp]
    rw [List.foldl_cons, List.foldl_cons, ih (by simpa [settle] using hp), hsettle]
    exact congrArg (fun f => ds.foldl f _) (funext fun pool => funext fun c => hsame pool c)

theorem pool_foldl_settle_of_ne (hq : p ≠ q) (ds : List ClientKey) (w : World) :
    (ds.foldl (fun w c => settle w q c) w).pool p = w.pool p := by
  induction ds generalizing w with
  | nil => rfl
  | cons d ds ih => exact (ih _).trans (World.pool_onPool_of_ne w hq _)

theorem dealing_restore {pinged : List ClientKey} {failure : Option Fault} {waiting : Bool}
    (hp : p < w.pools.length) :
    Dealing w p (.keepAlive q (.pinging waiting pinged [] failure))
      (restore w q pinged failure).point ((restore w q pinged failure).world.pool p)
      (restore w q pinged failure).signals := by
  by_cases hq : p = q
  · subst hq
    simp only [restore, pool_foldl_settle hp]
    exact .restored
  · exact .of_eq (pool_foldl_settle_of_ne hq pinged w) rfl rfl

/-- Every step of a call that pings. -/
theorem dealing_step {s : KeepAlivePoint} {turn : Turn} (hp : p < w.pools.length)
    (h : step w q s = some turn) :
    Dealing w p (.keepAlive q s) turn.point (turn.world.pool p) turn.signals := by
  match s, h with
  | .draining, h =>
    obtain rfl := Option.some.inj h
    simp only [drain]
    split
    · exact .elsewhere rfl rfl
    · next hc =>
      by_cases hq : p = q
      · subst hq
        rw [World.pool_onPool w hp]
        exact .drained (Bool.not_eq_true _ ▸ hc)
      · exact .of_eq (World.pool_onPool_of_ne w hq _) rfl rfl
  | .pinging false pinged (d :: rest) failure, h => exact Option.some.inj h ▸ .elsewhere rfl rfl
  | .pinging false pinged [] failure, h => exact Option.some.inj h ▸ dealing_restore hp
  | .pinging true pinged [] failure, h => exact Option.some.inj h ▸ dealing_restore hp

theorem dealing_answered {x : Point} {pinged rest : List ClientKey} {failure : Option Fault}
    (a : SendAnswer) (hx : x.minds p = false) :
    Dealing w p x (answered w q pinged c rest failure a).point
      ((answered w q pinged c rest failure a).world.pool p)
      (answered w q pinged c rest failure a).signals := by
  simp only [answered]
  split
  · exact .of_eq (World.pool_pinged a) hx rfl
  · exact .of_eq (World.pool_pinged a) hx rfl

end KeepAlive

/-! ## Closing a pool -/

namespace Close

/-- Every step of a call that closes the pool. -/
theorem dealing_step {s : ClosePoint} {turn : Turn} (hp : p < w.pools.length)
    (h : step w p s = some turn) :
    Dealing w p (.close p s) turn.point (turn.world.pool p) turn.signals := by
  match s, h with
  | .entering, h =>
    obtain rfl := Option.some.inj h
    simp only [enter]
    split
    · next hc =>
      simp only [attend]
      split
      · next hclosed => exact .found (.inr rfl) hclosed
      · next hclosed => exact .attended (.inr ⟨rfl, hc⟩) (Bool.not_eq_true _ ▸ hclosed)
    · next hc =>
      rw [Bool.not_eq_true] at hc
      simp only [drain, World.pool_onPool w hp]
      split
      · next hout =>
        have hpool : ((w.onPool p fun pool => { pool with closing := true }).onPool p
            Pool.empty).pool p = { w.pool p with closing := true }.empty := by
          rw [World.pool_onPool _ (by simpa using hp), World.pool_onPool w hp]
        simp only [takeAll, World.pool_onPool w hp, hpool]
        exact .begunAtOnce hc hout
      · next hout =>
        simp only [Turn.goto]
        rw [World.pool_onPool w hp]
        exact .begun hc hout
  | .draining true, h =>
    obtain rfl := Option.some.inj h
    simp only [drain]
    split
    · next hout =>
      simp only [takeAll]
      rw [World.pool_onPool w hp]
      exact .emptied hout
    · next hout => exact .drowsed hout
  | .attending true, h =>
    obtain rfl := Option.some.inj h
    simp only [attend]
    split
    · next hclosed => exact .found (.inl rfl) hclosed
    · next hclosed => exact .attended (.inl rfl) (Bool.not_eq_true _ ▸ hclosed)
  | .sealing shut, h =>
    obtain rfl := Option.some.inj h
    simp only [markClosed, Turn.goto]
    rw [World.pool_onPool w hp]
    exact .closed
  | .announcing shut, h => exact Option.some.inj h ▸ .announced

/-- Every step of a call that closes another pool. -/
theorem dealing_step_of_ne {s : ClosePoint} {turn : Turn} (hq : p ≠ q)
    (h : step w q s = some turn) :
    Dealing w p (.close q s) turn.point (turn.world.pool p) turn.signals := by
  have hx : ∀ s, (Point.close q s).minds p = false := by
    intro s
    simpa [Point.minds] using hq.symm
  match s, h with
  | .entering, h =>
    obtain rfl := Option.some.inj h
    simp only [enter, attend, drain, takeAll, Turn.goto, Turn.finish]
    repeat' split
    · exact .elsewhere (hx _) rfl
    · exact .elsewhere (hx _) (hx _)
    · refine .of_eq ?_ (hx _) rfl
      simp [World.pool_onPool_of_ne _ hq]
    · exact .of_eq (World.pool_onPool_of_ne w hq _) (hx _) (hx _)
  | .draining true, h =>
    obtain rfl := Option.some.inj h
    simp only [drain, takeAll, Turn.goto]
    split
    · exact .of_eq (World.pool_onPool_of_ne w hq _) (hx _) rfl
    · exact .elsewhere (hx _) (hx _)
  | .attending true, h =>
    obtain rfl := Option.some.inj h
    simp only [attend, Turn.goto, Turn.finish]
    split
    · exact .elsewhere (hx _) rfl
    · exact .elsewhere (hx _) (hx _)
  | .sealing shut, h =>
    exact Option.some.inj h ▸ .of_eq (World.pool_onPool_of_ne w hq _) (hx _) (hx _)
  | .announcing shut, h => exact Option.some.inj h ▸ .elsewhere (hx _) rfl

end Close

/-! ## Heartbeats and results -/

/-- A step that has to do with leases and heartbeats makes no difference to any pool. -/
theorem Turn.Aside.dealing {turn : Turn} {x : Point} (h : turn.Aside w) (hx : x.minds p = false) :
    Dealing w p x turn.point (turn.world.pool p) turn.signals := by
  refine .of_eq (by simp [World.pool, h.pools]) hx ?_
  have herrand := h.errand
  generalize turn.point = y at herrand
  cases y <;> first | rfl | cases herrand

namespace Machine

variable {m : Machine} {e : Event} {k : CallKey} {call : Call} {turn : Turn}

/-- Every turn deals with every pool in one of these ways. -/
theorem Takes.dealing (h : m.Takes k call e turn) (hm : m.Sound) (hk : m.call? k = some call)
    (hp : p < m.world.pools.length) :
    Dealing m.world p call.point turn.point (turn.world.pool p) turn.signals := by
  cases h with
  | step h | overlooked h =>
    have hmade : ∀ q c leased, call.point = .release q c leased → c ∈ (m.world.pool q).members →
        c < m.world.clients.length :=
      fun q c leased _ hc => (World.mem_own.mp ((hm.seated q).mem_own_of_mem hc)).1
    obtain ⟨x, sequel, notices⟩ := call
    cases x with
    | stock q left s =>
      by_cases hq : p = q
      · subst hq
        exact Stock.dealing_step hp h
      · exact Stock.dealing_step_of_ne hq h
    | acquire q t leased s =>
      by_cases hq : p = q
      · subst hq
        exact Acquire.dealing_step hp h
      · exact Acquire.dealing_step_of_ne hq h
    | addReference q c leased => exact Option.some.inj h ▸ Share.dealing_step
    | release q c leased =>
      exact Option.some.inj h ▸ Release.dealing_step (hmade q c leased rfl)
    | keepAlive q s => exact KeepAlive.dealing_step hp h
    | close q s =>
      by_cases hq : p = q
      · subst hq
        exact Close.dealing_step hp h
      · exact Close.dealing_step_of_ne hq h
    | exchange c command ping waiting =>
      cases waiting with
      | false => exact Option.some.inj h ▸ .elsewhere rfl rfl
      | true => cases h
    | farewell rite waiting todo next =>
      match waiting, todo, h with
      | false, todo, h => exact Option.some.inj h ▸ Farewell.dealing_step
      | true, [], h => exact Option.some.inj h ▸ Farewell.dealing_step
    | heartbeat b s => exact (Heartbeat.aside_step h).dealing rfl
    | finished o => exact (aside_conclude h).dealing rfl
  | @stocked q left a hpoint =>
    rw [hpoint]
    by_cases hq : p = q
    · subst hq
      exact Stock.dealing_answered hp a
    · exact Stock.dealing_answered_of_ne hq a
  | @opened q t leased a hpoint =>
    rw [hpoint]
    by_cases hq : p = q
    · subst hq
      exact Acquire.dealing_answered hp a
    · exact Acquire.dealing_answered_of_ne hq a
  | pinged a hpoint =>
    rw [hpoint]
    exact KeepAlive.dealing_answered a rfl
  | replied a hpoint =>
    rw [hpoint]
    exact Exchange.dealing_answered a rfl
  | parted a hpoint =>
    rw [hpoint]
    exact Farewell.dealing_answered a
  | @expired q t leased hpoint limited =>
    rw [hpoint]
    by_cases hq : p = q
    · exact hq ▸ .expired
    · refine .elsewhere ?_ ?_
      all_goals simpa [Turn.goto, Point.minds] using Ne.symm hq
  | beat hpoint wanted =>
    rw [hpoint]
    exact .elsewhere rfl rfl

end Machine
end SessionPool
