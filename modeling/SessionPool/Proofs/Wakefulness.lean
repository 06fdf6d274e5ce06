import SessionPool.Proofs.Closing
import SessionPool.Proofs.Dealing

/-!
# No wake-up is lost

A caller sleeps when no client is idle and no slot is free, and whoever frees one of them wakes one
sleeper.  A caller that was woken may find nothing any more, because another was faster; it goes on
sleeping, and then there is nothing to be had.  What has to hold between the steps is that as many
callers have been woken and not looked yet as there are clients and slots to be had, as long as
anybody sleeps (`Machine.Wakeful`).

The same is said of the calls that close a pool: whoever waits until nothing is outstanding is awake
when nothing is, and whoever waits until another call has closed the pool is awake, or is about to
be told.

* `Pool.spare`: the clients and slots of a pool that are to be had.
* `Dealing.spare`: what a turn does to them, and to those who sleep.
* `Machine.no_lost_wakeup`: in every machine that can be reached no wake-up is lost.
-/

namespace SessionPool

/-! ## What is to be had -/

namespace Pool

variable (pool : Pool)

/-- The idle clients and the free slots. -/
def spare : ℕ := pool.idle.length + (pool.limits.maxClients.toNat - pool.created.toNat)

/-- A sleeper has nothing to do in an open pool in which nothing is to be had. -/
theorem isReady_eq_false : pool.isReady = false ↔ pool.closing = false ∧ pool.spare = 0 := by
  simp [isReady, spare, hasRoom, UInt64.lt_iff_toNat_lt, Nat.sub_eq_zero_iff_le, List.isEmpty_iff,
    and_assoc]

theorem spare_congr {pool pool' : Pool} (hidle : pool'.idle = pool.idle)
    (hcreated : pool'.created = pool.created) (hlimits : pool'.limits = pool.limits) :
    pool'.spare = pool.spare := by
  rw [spare, spare, hidle, hcreated, hlimits]

@[simp] theorem spare_rise (s : AcquirePoint) : (s.rise pool).spare = pool.spare :=
  spare_congr (by simp) (by simp) (by simp)

theorem spare_takeIdle {c : ClientKey} {rest : List ClientKey} (h : pool.idle = c :: rest) :
    (pool.takeIdle rest).spare + 1 = pool.spare := by
  simp only [spare, takeIdle, h, List.length_cons]
  omega

theorem spare_reserve (h : pool.hasRoom = true) : pool.reserve.spare + 1 = pool.spare := by
  have hlt : pool.created.toNat < pool.limits.maxClients.toNat := by
    simpa [hasRoom, UInt64.lt_iff_toNat_lt] using h
  simp only [spare, reserve, toNat_add_one hlt]
  omega

theorem toNat_le_sub_one (x : UInt64) : x.toNat ≤ (x - 1).toNat + 1 := by
  by_cases hx : 0 < x.toNat
  · rw [toNat_sub_one hx]
    omega
  · omega

theorem spare_unreserve : pool.unreserve.spare ≤ pool.spare + 1 := by
  have h := toNat_le_sub_one pool.created
  simp only [spare, unreserve]
  omega

theorem spare_pushIdle (c : ClientKey) : (pool.giveBack.pushIdle c).spare = pool.spare + 1 := by
  simp only [spare, giveBack, pushIdle, List.length_append, List.length_singleton]
  omega

theorem spare_detach (c : ClientKey) : (pool.giveBack.detach c).spare ≤ pool.spare + 1 := by
  have h := toNat_le_sub_one pool.created
  simp only [spare, giveBack, detach]
  omega

theorem spare_drain : pool.drain.spare ≤ pool.spare := by
  simp [spare, drain]

end Pool

namespace Point

/-- A caller that stands here sleeps for a client of this pool. -/
def asleepFor (p : PoolKey) : Point → Bool
  | .acquire q _ _ .asleep => p == q
  | _ => false

/-- A caller that stands here has been woken for a client of this pool and has not looked yet. -/
def wokenFor (p : PoolKey) : Point → Bool
  | .acquire q _ _ .woken => p == q
  | _ => false

variable {p : PoolKey} {x y : Point}

theorem asleepFor_of_minds (h : x.minds p = false) : x.asleepFor p = false := by
  cases x with
  | acquire q t leased s =>
    have hq : p ≠ q := by simpa [minds, eq_comm] using h
    cases s <;> simp [asleepFor, hq]
  | _ => rfl

theorem wokenFor_of_minds (h : x.minds p = false) : x.wokenFor p = false := by
  cases x with
  | acquire q t leased s =>
    have hq : p ≠ q := by simpa [minds, eq_comm] using h
    cases s <;> simp [wokenFor, hq]
  | _ => rfl

theorem sleeps_of_asleepFor (h : x.asleepFor p = true) : x.sleeps = true := by
  unfold asleepFor at h
  split at h
  · rfl
  · cases h

/-- Nobody falls asleep by a wake-up. -/
theorem Wakes.asleepFor (h : Wakes x y) (hy : y.asleepFor p = true) : x.asleepFor p = true := by
  rwa [h.eq_of_sleeps (sleeps_of_asleepFor hy)] at hy

/-- Whoever is awake is not woken again. -/
theorem Wakes.wokenFor (h : Wakes x y) (hx : x.wokenFor p = true) : y.wokenFor p = true := by
  have hawake : x.sleeps = false := by
    unfold Point.wokenFor at hx
    split at hx
    · rfl
    · cases hx
  rwa [h.eq_of_awake hawake]

end Point

/-! ## What turns do -/

variable {w : World} {p : PoolKey} {x y : Point} {pool : Pool} {ss : List Signal}

/-- A call that goes to sleep finds nothing to do.  Another wakes all who sleep for the pool, or
nobody does, or it leaves the pool open as it is and takes something if it was woken, or frees
something only if it wakes one. -/
theorem Dealing.spare (h : Dealing w p x y pool ss)
    (hdraining : ∀ woken, x = .close p (.draining woken) → (w.pool p).closing = true) :
    (y.asleepFor p = true ∧ pool.isReady = false) ∨ y.asleepFor p = false ∧
      (.allAcquirers p ∈ ss ∨ (w.pool p).closing = true ∨ x.errand? = some (.stock p) ∨
        pool.closing = (w.pool p).closing ∧
          pool.spare + (if x.wokenFor p then 1 else 0) ≤
            (w.pool p).spare + if .oneAcquirer p ∈ ss then 1 else 0) := by
  cases h with
  | elsewhere hx hy =>
    refine .inr ⟨Point.asleepFor_of_minds hy, .inr (.inr (.inr ⟨rfl, ?_⟩))⟩
    simp [Point.wokenFor_of_minds hx]
  | stocked goesOn =>
    refine .inr ⟨?_, .inr (.inr (.inl rfl))⟩
    rcases goesOn with ⟨_, _, rfl⟩ | ⟨_, rfl⟩ <;> rfl
  | barred looks closing => exact .inr ⟨rfl, .inr (.inl closing)⟩
  | @taken t leased s c rest o looks isOpen front =>
    refine .inr ⟨rfl, .inr (.inr (.inr ⟨by simp [Pool.takeIdle], ?_⟩))⟩
    have htaken := Pool.spare_takeIdle (s.rise (w.pool p)) (by simpa using front)
    rw [Pool.spare_rise] at htaken
    split <;> omega
  | @reserved t leased s looks isOpen room =>
    refine .inr ⟨rfl, .inr (.inr (.inr ⟨by simp [Pool.reserve], ?_⟩))⟩
    have hreserved := Pool.spare_reserve (s.rise (w.pool p)) (by simpa using room)
    rw [Pool.spare_rise] at hreserved
    split <;> omega
  | slept nothing => exact .inl ⟨by simp [Point.asleepFor], nothing⟩
  | dozed nothing => exact .inl ⟨by simp [Point.asleepFor], nothing⟩
  | enrolled o isOpen => exact .inr ⟨rfl, .inr (.inr (.inr ⟨rfl, le_rfl⟩))⟩
  | dismissed closing => exact .inr ⟨rfl, .inr (.inl closing)⟩
  | refused =>
    refine .inr ⟨rfl, .inr (.inr (.inr ⟨rfl, ?_⟩))⟩
    simpa [Point.wokenFor, Acquire.slotFreed] using Pool.spare_unreserve _
  | returned mem last isOpen whole =>
    refine .inr ⟨rfl, .inr (.inr (.inr ⟨rfl, ?_⟩))⟩
    simp [Point.wokenFor, Acquire.slotFreed, Pool.spare_pushIdle]
  | discarded mem last cause =>
    refine .inr ⟨rfl, .inr (.inr (.inr ⟨rfl, ?_⟩))⟩
    simpa [Point.wokenFor, Acquire.slotFreed] using Pool.spare_detach _ _
  | drained isOpen =>
    refine .inr ⟨rfl, .inr (.inr (.inr ⟨rfl, ?_⟩))⟩
    simpa [Point.wokenFor] using Pool.spare_drain _
  | restored => exact .inr ⟨rfl, .inl (by simp)⟩
  | begun isOpen busy => exact .inr ⟨rfl, .inl (by simp)⟩
  | begunAtOnce isOpen settled => exact .inr ⟨rfl, .inl (by simp)⟩
  | emptied settled => exact .inr ⟨rfl, .inr (.inl (hdraining true rfl))⟩
  | _ => exact .inr ⟨rfl, .inr (.inr (.inr ⟨rfl, le_rfl⟩))⟩

/-- What is outstanding in a pool that is closing stays outstanding, unless all who close the pool
are woken. -/
theorem Dealing.outstanding (h : Dealing w p x y pool ss) (hclosing : (w.pool p).closing = true) :
    pool.outstanding = (w.pool p).outstanding ∨ .allClosers p ∈ ss ∨
      x.errand? = some (.stock p) := by
  have hopen : (w.pool p).closing ≠ false := by simp [hclosing]
  cases h with
  | stocked => exact .inr (.inr rfl)
  | barred => exact .inl (AcquirePoint.rise_outstanding _ _)
  | taken o looks isOpen => exact absurd isOpen hopen
  | reserved looks isOpen => exact absurd isOpen hopen
  | drained isOpen => exact absurd isOpen hopen
  | dismissed | refused | returned | discarded => exact .inr (.inl (by simp [Acquire.slotFreed]))
  | restored => exact .inr (.inl (by simp))
  | _ => exact .inl rfl

/-- Whoever goes to sleep while it waits until nothing is outstanding has found something. -/
theorem Dealing.outstanding_ne_zero (h : Dealing w p x y pool ss)
    (hy : y = .close p (.draining false)) : pool.outstanding ≠ 0 := by
  subst hy
  cases h with
  | elsewhere hx hy => simp [Point.minds] at hy
  | stocked goesOn => rcases goesOn with ⟨_, _, h⟩ | ⟨_, h⟩ <;> cases h
  | begun isOpen busy => exact busy
  | drowsed busy => exact busy

/-- A pool is marked as closed by a call that is about to announce it. -/
theorem Dealing.announcing (h : Dealing w p x y pool ss) (hclosed : pool.closed = true) :
    (w.pool p).closed = true ∨ ∃ shut, y = .close p (.announcing shut) := by
  cases h with
  | stocked goesOn closing closed => exact .inl (closed ▸ hclosed)
  | closed => exact .inr ⟨_, rfl⟩
  | restored => exact .inl (Pool.closed_foldl_settle w p _ _ ▸ hclosed)
  | barred | taken | reserved => exact .inl (by simpa [Pool.takeIdle, Pool.reserve] using hclosed)
  | _ => exact .inl hclosed

/-- A call that announces that a pool is closed tells all who wait for it. -/
theorem Dealing.allClosers_of_announcing {shut : List ClientKey} (h : Dealing w p x y pool ss)
    (hx : x = .close p (.announcing shut)) : .allClosers p ∈ ss := by
  subst hx
  cases h with
  | elsewhere hx hy => simp [Point.minds] at hx
  | attended hs unclosed => rcases hs with hs | ⟨hs, -⟩ <;> cases hs
  | found hs closed => rcases hs with hs | hs <;> cases hs
  | announced => simp

/-- Whoever goes to sleep while another call closes the pool has found it unclosed. -/
theorem Dealing.unclosed (h : Dealing w p x y pool ss) (hy : y = .close p (.attending false)) :
    pool.closed = false := by
  subst hy
  cases h with
  | elsewhere hx hy => simp [Point.minds] at hy
  | stocked goesOn => rcases goesOn with ⟨_, _, h⟩ | ⟨_, h⟩ <;> cases h
  | attended closing unclosed => exact unclosed

namespace Machine

/-! ## Counting sleepers -/

/-- The callers among some calls that sleep for a client of a pool. -/
def asleepIn (calls : List Call) (p : PoolKey) : ℕ := calls.countP fun k => k.point.asleepFor p

/-- The callers among some calls that have been woken and have not looked yet. -/
def wokenIn (calls : List Call) (p : PoolKey) : ℕ := calls.countP fun k => k.point.wokenFor p

/-- The callers that sleep for a client of a pool. -/
def asleep (m : Machine) (p : PoolKey) : ℕ := asleepIn m.calls p

/-- The callers that have been woken for a client of a pool and have not looked yet. -/
def woken (m : Machine) (p : PoolKey) : ℕ := wokenIn m.calls p

variable {m n : Machine} {e : Event} {k : CallKey} {call : Call} {t : Turn} {calls : List Call}
  {pick : ℕ}

/-- A call that moves is counted where it goes and no more where it was. -/
theorem countP_modify (P : Point → Bool) (hk : calls[k]? = some call) (f : Call → Call) :
    (calls.modify k f).countP (fun k => P k.point) + (if P call.point then 1 else 0) =
      calls.countP (fun k => P k.point) + if P (f call).point then 1 else 0 := by
  obtain ⟨hlt, rfl⟩ := List.getElem?_eq_some_iff.mp hk
  have hcalls : calls.countP (fun k => P k.point) =
      (calls.take k ++ calls[k] :: calls.drop (k + 1)).countP fun k => P k.point := by
    rw [← List.drop_eq_getElem_cons hlt, List.take_append_drop]
  rw [hcalls, List.modify_eq_take_cons_drop hlt]
  simp only [List.countP_append, List.countP_cons]
  omega

/-- Wake-ups lower no count of points that they keep, and raise none of points that they only
leave. -/
theorem countP_le_of_wakes {P : Point → Bool} {woken : List Call}
    (h : List.Forall₂ (fun k k' : Call => Point.Wakes k.point k'.point) calls woken) :
    ((∀ x y, Point.Wakes x y → P x = true → P y = true) →
      calls.countP (fun k => P k.point) ≤ woken.countP fun k => P k.point) ∧
    ((∀ x y, Point.Wakes x y → P y = true → P x = true) →
      woken.countP (fun k => P k.point) ≤ calls.countP fun k => P k.point) := by
  induction h with
  | nil => exact ⟨fun _ => le_rfl, fun _ => le_rfl⟩
  | @cons a b _ _ hab _ ih =>
    simp only [List.countP_cons]
    refine ⟨fun hP => Nat.add_le_add (ih.1 hP) ?_, fun hP => Nat.add_le_add (ih.2 hP) ?_⟩
    · by_cases ha : P a.point = true
      · rw [if_pos ha, if_pos (hP _ _ hab ha)]
      · rw [if_neg ha]
        exact Nat.zero_le _
    · by_cases hb : P b.point = true
      · rw [if_pos hb, if_pos (hP _ _ hab hb)]
      · rw [if_neg hb]
        exact Nat.zero_le _

/-- Nobody falls asleep by wake-ups. -/
theorem asleepIn_foldl_le (pick : ℕ) (ss : List Signal) (calls : List Call) (p : PoolKey) :
    asleepIn (ss.foldl (signal pick) calls) p ≤ asleepIn calls p := by
  induction ss generalizing calls with
  | nil => exact le_rfl
  | cons s ss ih =>
    exact (ih _).trans ((countP_le_of_wakes (forall₂_signal pick calls s)).2
      fun _ _ hw => hw.asleepFor)

/-- Whoever has been woken stays so, whoever else is woken. -/
theorem wokenIn_le_foldl (pick : ℕ) (ss : List Signal) (calls : List Call) (p : PoolKey) :
    wokenIn calls p ≤ wokenIn (ss.foldl (signal pick) calls) p := by
  induction ss generalizing calls with
  | nil => exact le_rfl
  | cons s ss ih =>
    exact ((countP_le_of_wakes (forall₂_signal pick calls s)).1
      fun _ _ hw => hw.wokenFor).trans (ih _)

theorem sleepsFor_eq (p : PoolKey) (k : Call) : sleepsFor p k = k.point.asleepFor p := rfl

/-- The sleepers of a pool are the calls that sleep for a client of it. -/
theorem mem_sleepers {j : CallKey} :
    j ∈ sleepers calls p ↔ ∃ call, calls[j]? = some call ∧ call.point.asleepFor p = true := by
  simp only [sleepers, List.mem_filter, List.mem_range, Option.any_eq_true, sleepsFor_eq]
  constructor
  · exact fun h => h.2
  · rintro ⟨call, hj, hcall⟩
    exact ⟨(List.getElem?_eq_some_iff.mp hj).1, call, hj, hcall⟩

/-- A wake-up for one sleeper reaches one, if there is any. -/
theorem exists_signal_oneAcquirer (pick : ℕ) (h : 0 < asleepIn calls p) :
    ∃ j ∈ sleepers calls p,
      signal pick calls (.oneAcquirer p) = calls.modify j (wakeAcquirer p) := by
  obtain ⟨call, hcall, hasleep⟩ := List.countP_pos_iff.mp h
  obtain ⟨i, hi⟩ := List.mem_iff_getElem?.mp hcall
  have hmem : i ∈ sleepers calls p := mem_sleepers.mpr ⟨call, hi, hasleep⟩
  have hlt : pick % (sleepers calls p).length < (sleepers calls p).length :=
    Nat.mod_lt _ (List.length_pos_of_mem hmem)
  refine ⟨_, List.getElem_mem hlt, ?_⟩
  simp only [signal, List.getElem?_eq_getElem hlt]

/-- A wake-up for one sleeper can reach each of them. -/
theorem exists_pick {j : CallKey} (hj : j ∈ sleepers calls p) :
    ∃ pick, signal pick calls (.oneAcquirer p) = calls.modify j (wakeAcquirer p) := by
  obtain ⟨i, hi, rfl⟩ := List.getElem_of_mem hj
  refine ⟨i, ?_⟩
  simp only [signal, Nat.mod_eq_of_lt hi, List.getElem?_eq_getElem hi]

/-- A sleeper that is woken has been woken. -/
theorem wokenFor_wakeAcquirer (h : call.point.asleepFor p = true) :
    call.point.wokenFor p = false ∧ (wakeAcquirer p call).point.wokenFor p = true := by
  obtain ⟨x, sequel, notices⟩ := call
  cases x with
  | acquire q t leased s =>
    cases s with
    | asleep =>
      obtain rfl : p = q := by simpa [Point.asleepFor] using h
      simp [wakeAcquirer, Point.wokenFor]
    | _ => cases h
  | _ => cases h

/-- Nobody sleeps for a pool after being woken for it. -/
theorem asleepFor_wakeAcquirer (p : PoolKey) (call : Call) :
    (wakeAcquirer p call).point.asleepFor p = false := by
  obtain ⟨x, sequel, notices⟩ := call
  cases x with
  | acquire q t leased s =>
    cases s with
    | asleep => by_cases hq : p = q <;> simp [wakeAcquirer, Point.asleepFor, hq]
    | _ => rfl
  | _ => rfl

/-- After a wake-up for one sleeper one more has been woken, or nobody sleeps. -/
theorem foldl_oneAcquirer {ss : List Signal} (hs : .oneAcquirer p ∈ ss) :
    asleepIn (ss.foldl (signal pick) calls) p = 0 ∨
      wokenIn calls p + 1 ≤ wokenIn (ss.foldl (signal pick) calls) p := by
  induction ss generalizing calls with
  | nil => cases hs
  | cons s ss ih =>
    rcases List.mem_cons.mp hs with rfl | hs
    · rcases Nat.eq_zero_or_pos (asleepIn calls p) with hnone | hsome
      · refine .inl (Nat.eq_zero_of_le_zero ?_)
        exact (asleepIn_foldl_le pick (.oneAcquirer p :: ss) calls p).trans (le_of_eq hnone)
      · obtain ⟨j, hj, hsignal⟩ := exists_signal_oneAcquirer pick hsome
        obtain ⟨call, hcall, hasleep⟩ := mem_sleepers.mp hj
        obtain ⟨hbefore, hafter⟩ := wokenFor_wakeAcquirer hasleep
        have hcount := countP_modify (Point.wokenFor p) hcall (wakeAcquirer p)
        rw [hbefore, hafter, if_neg Bool.false_ne_true, if_pos rfl, add_zero] at hcount
        refine .inr (le_trans (le_of_eq ?_) (wokenIn_le_foldl pick ss _ p))
        rw [hsignal]
        exact hcount.symm
    · have hmore : wokenIn calls p ≤ wokenIn (signal pick calls s) p :=
        wokenIn_le_foldl pick [s] calls p
      exact (ih hs).imp_right fun h => (Nat.add_le_add_right hmore 1).trans h

/-- After a wake-up for all sleepers nobody sleeps. -/
theorem foldl_allAcquirers {ss : List Signal} (hs : .allAcquirers p ∈ ss) :
    asleepIn (ss.foldl (signal pick) calls) p = 0 := by
  induction ss generalizing calls with
  | nil => cases hs
  | cons s ss ih =>
    rcases List.mem_cons.mp hs with rfl | hs
    · refine Nat.eq_zero_of_le_zero ((asleepIn_foldl_le pick ss _ p).trans (le_of_eq ?_))
      refine List.countP_eq_zero.mpr fun k hk => ?_
      obtain ⟨call, -, rfl⟩ := List.mem_map.mp hk
      simp [asleepFor_wakeAcquirer]
    · exact ih hs

/-- After a wake-up for all who close a pool none of them sleeps. -/
theorem foldl_allClosers {ss : List Signal} (hs : .allClosers p ∈ ss) :
    ∀ k ∈ ss.foldl (signal pick) calls,
      k.point ≠ .close p (.draining false) ∧ k.point ≠ .close p (.attending false) := by
  induction ss generalizing calls with
  | nil => cases hs
  | cons s ss ih =>
    rcases List.mem_cons.mp hs with rfl | hs
    · refine forall_foldl_signal (P := fun x => x ≠ .close p (.draining false) ∧
        x ≠ .close p (.attending false)) ?_ pick ss ?_
      · rintro x y hw ⟨h₁, h₂⟩
        constructor
        · rintro rfl
          exact h₁ (hw.eq_of_sleeps rfl).symm
        · rintro rfl
          exact h₂ (hw.eq_of_sleeps rfl).symm
      · intro k hk
        obtain ⟨call, -, rfl⟩ := List.mem_map.mp hk
        unfold wakeCloser
        split
        · next q hx =>
          split
          · simp
          · next hq => simp [hx, Ne.symm hq]
        · next q hx =>
          split
          · simp
          · next hq => simp [hx, Ne.symm hq]
        · next h₁ h₂ => exact ⟨h₁ p, h₂ p⟩
    · exact ih hs

/-! ## What holds between the steps -/

/-- Nobody sleeps while there is something to do for it and nobody is about to do it. -/
structure Wakeful (m : Machine) (p : PoolKey) : Prop where
  pending : 0 < m.asleep p →
    (m.world.pool p).closing = false ∧ (m.world.pool p).spare ≤ m.woken p
  busy : ∀ call ∈ m.calls, call.point = .close p (.draining false) →
    (m.world.pool p).outstanding ≠ 0
  announced : ∀ call ∈ m.calls, call.point = .close p (.attending false) →
    (m.world.pool p).closed = true →
      ∃ call' ∈ m.calls, ∃ shut, call'.point = .close p (.announcing shut)

/-- A call that sleeps for a client of a pool, or in its closing, has business with it. -/
theorem errand_of_asleepFor {x : Point} (h : x.asleepFor p = true) :
    x.errand? = some (.use p) := by
  cases x with
  | acquire q t leased s =>
    cases s with
    | asleep =>
      obtain rfl : p = q := by simpa [Point.asleepFor] using h
      rfl
    | _ => cases h
  | _ => cases h

/-- Somebody sleeps for a client of a pool only if the pool is there and nobody stocks it. -/
theorem Sound.hasPool_of_asleep (hm : m.Sound) (h : 0 < m.asleep p) : m.hasPool p = true := by
  obtain ⟨call, hcall, hasleep⟩ := List.countP_pos_iff.mp h
  exact hm.used call hcall p (errand_of_asleepFor hasleep)

/-- Nobody sleeps in a pool that is not there. -/
theorem Sound.wakeful_of_absent (hm : m.Sound) (hp : ¬ p < m.world.pools.length) :
    m.Wakeful p where
  pending h := absurd (hasPool_iff.mp (hm.hasPool_of_asleep h)).1 hp
  busy call hk hx := absurd (hasPool_iff.mp (hm.used call hk p (by rw [hx]; rfl))).1 hp
  announced call hk hx := absurd (hasPool_iff.mp (hm.used call hk p (by rw [hx]; rfl))).1 hp

/-- A call that closes a pool and waits has begun to close it. -/
theorem Reachable.closing_of_draining (hm : m.Reachable) (hk : call ∈ m.calls) {b : Bool}
    (hx : call.point = .close p (.draining b)) : (m.world.pool p).closing = true := by
  obtain ⟨j, hj⟩ := List.mem_iff_getElem?.mp hk
  obtain ⟨rest, hrest, -⟩ := exists_rest hj
  by_contra hopen
  have hdrainers : (m.stake p).drainers = 0 :=
    ((hm.orderly p).untouched (Bool.not_eq_true _ ▸ hopen)).1
  rw [hrest p, hx] at hdrainers
  simp [Point.stake, ClosePoint.stake] at hdrainers

/-- What changes neither the pool nor what its sleepers do changes nothing here. -/
theorem Wakeful.of_eq (h : m.Wakeful p) (hpool : n.world.pool p = m.world.pool p)
    {more : List Call} (hcalls : n.calls = m.calls ++ more)
    (hmore : ∀ k ∈ more, k.point.sleeps = false) : n.Wakeful p where
  pending hpos := by
    have hasleep : n.asleep p = m.asleep p := by
      have hnone : asleepIn more p = 0 := List.countP_eq_zero.mpr fun k hk ha =>
        absurd (Point.sleeps_of_asleepFor ha) (by simp [hmore k hk])
      simp only [asleep, hcalls]
      exact List.countP_append.trans (congrArg _ hnone)
    have hwoken : m.woken p ≤ n.woken p := by
      simp only [woken, wokenIn, hcalls, List.countP_append]
      exact Nat.le_add_right _ _
    obtain ⟨hopen, hspare⟩ := h.pending (hasleep ▸ hpos)
    rw [hpool]
    exact ⟨hopen, hspare.trans hwoken⟩
  busy call hk hx := by
    rw [hcalls, List.mem_append] at hk
    rw [hpool]
    rcases hk with hk | hk
    · exact h.busy call hk hx
    · exact absurd (hmore call hk) (by simp [hx, Point.sleeps])
  announced call hk hx hclosed := by
    rw [hcalls, List.mem_append] at hk
    rw [hpool] at hclosed
    rcases hk with hk | hk
    · obtain ⟨call', hk', shut, hx'⟩ := h.announced call hk hx hclosed
      exact ⟨call', hcalls ▸ List.mem_append_left _ hk', shut, hx'⟩
    · exact absurd (hmore call hk) (by simp [hx, Point.sleeps])

/-- Nobody begins asleep. -/
theorem sleeps_enter (w : World) (o : Operation) : (o.enter w).point.sleeps = false := by
  cases o <;> simp only [Operation.enter, Operation.make, Operation.giveUp]
  all_goals repeat' split
  all_goals rfl

/-- A call that begins leaves the pools that are there as they are. -/
theorem pool_enter (w : World) (o : Operation) (hp : p < w.pools.length) :
    (o.enter w).world.pool p = w.pool p := by
  cases o with
  | construct connection limits factory dialect =>
    simp only [Operation.enter, Operation.make]
    repeat' split
    · rfl
    · rfl
    · rw [World.pool_addPool, if_neg (Nat.ne_of_lt hp)]
  | shareLease l | releaseLease l | assignLease target source | dropLease l =>
    simp only [Operation.enter, Operation.giveUp]
    repeat' split
    all_goals rfl
  | _ => rfl

/-- The calls after a turn: those that were there, and those that have been started. -/
theorem calls_apply (m : Machine) (k : CallKey) (s : Sequel) (pick : ℕ) (t : Turn) :
    (apply { m with calls := m.calls.modify k fun c => { c with sequel := s } } k pick t).calls =
      t.signals.foldl (signal pick) (m.calls.modify k fun c => moved t { c with sequel := s }) ++
        t.started.toList.map fun p => { point := p } := by
  simp only [apply, List.modify_modify_eq]
  rfl

/-- Callers sleep only in an open pool in which nothing is to be had that nobody has been woken
for. -/
theorem Wakeful.pending_turn (h : m.Wakeful p) (hm : m.Reachable) {s : Sequel}
    (hk : m.call? k = some call) (takes : m.Takes k call e t) (hp : p < m.world.pools.length)
    {more : List Call} (hmore : ∀ k ∈ more, k.point.sleeps = false)
    (hcalls : n.calls = t.signals.foldl (signal pick)
      (m.calls.modify k fun c => moved t { c with sequel := s }) ++ more)
    (hworld : n.world = t.world) (hpos : 0 < n.asleep p) :
    (n.world.pool p).closing = false ∧ (n.world.pool p).spare ≤ n.woken p := by
  set after := m.calls.modify k fun c => moved t { c with sequel := s } with hafter
  have hasleep : asleepIn after p + (if call.point.asleepFor p then 1 else 0) =
      m.asleep p + if t.point.asleepFor p then 1 else 0 := countP_modify _ hk _
  have hwoken : wokenIn after p + (if call.point.wokenFor p then 1 else 0) =
      m.woken p + if t.point.wokenFor p then 1 else 0 := countP_modify _ hk _
  have hpos' : 0 < asleepIn (t.signals.foldl (signal pick) after) p := by
    have hnone : asleepIn more p = 0 := List.countP_eq_zero.mpr fun k hk ha =>
      absurd (Point.sleeps_of_asleepFor ha) (by simp [hmore k hk])
    have hsum : n.asleep p =
        asleepIn (t.signals.foldl (signal pick) after) p + asleepIn more p := by
      simp only [asleep, hcalls]
      exact List.countP_append
    omega
  have hwoken' : wokenIn (t.signals.foldl (signal pick) after) p ≤ n.woken p := by
    simp only [woken, hcalls, wokenIn, List.countP_append]
    exact Nat.le_add_right _ _
  have hle := asleepIn_foldl_le pick t.signals after p
  have hge := wokenIn_le_foldl pick t.signals after p
  have hnobody : t.point.asleepFor p = false → m.asleep p ≠ 0 := by
    intro hy hnone
    rw [hy, if_neg Bool.false_ne_true] at hasleep
    omega
  have hdealing := takes.dealing hm.sound hk hp
  rw [hworld]
  rcases hdealing.spare fun b hx => hm.closing_of_draining (List.mem_of_getElem? hk) hx with
    ⟨-, hready⟩ | ⟨hy, hall | hclosing | hstock | ⟨hsame, hspare⟩⟩
  · obtain ⟨hopen, hnothing⟩ := (Pool.isReady_eq_false _).mp hready
    exact ⟨hopen, hnothing ▸ Nat.zero_le _⟩
  · exact absurd (foldl_allAcquirers hall) (Nat.ne_of_gt hpos')
  · have hopen := (h.pending (Nat.pos_of_ne_zero (hnobody hy))).1
    exact absurd (hopen.symm.trans hclosing) Bool.false_ne_true
  · have hhas := hm.sound.hasPool_of_asleep (Nat.pos_of_ne_zero (hnobody hy))
    exact absurd hstock ((hasPool_iff.mp hhas).2 call (List.mem_of_getElem? hk))
  · obtain ⟨hopen, hpending⟩ := h.pending (Nat.pos_of_ne_zero (hnobody hy))
    refine ⟨hsame.trans hopen, ?_⟩
    by_cases hone : .oneAcquirer p ∈ t.signals
    · rw [if_pos hone] at hspare
      rcases foldl_oneAcquirer hone with hnone | hmore
      · exact absurd hnone (Nat.ne_of_gt hpos')
      · omega
    · rw [if_neg hone] at hspare
      omega

/-- Whoever sleeps in the closing of a pool after a turn has gone to sleep in it, or has slept there
before and was not woken. -/
theorem sleeper_turn {s : Sequel} (hk : m.call? k = some call) (takes : m.Takes k call e t)
    (sequel : s = call.sequel ∨ s = .none ∨
      ∃ h, call.point = .heartbeat h .resting ∧ s = .beat h)
    {x : Point} (hx : x = .close p (.draining false) ∨ x = .close p (.attending false))
    {call' : Call} (hk' : call' ∈ (apply { m with
      calls := m.calls.modify k fun c => { c with sequel := s } } k pick t).calls)
    (hx' : call'.point = x) :
    t.point = x ∨ .allClosers p ∉ t.signals ∧ ∃ call₀ ∈ m.calls, call₀.point = x := by
  have hsleeps : x.sleeps = true := by rcases hx with rfl | rfl <;> rfl
  have hin : call' ∈ t.signals.foldl (signal pick)
      (m.calls.modify k fun c => moved t { c with sequel := s }) := by
    rw [calls_apply, List.mem_append] at hk'
    refine hk'.resolve_right fun hstarted => ?_
    obtain ⟨y, hy, rfl⟩ := List.mem_map.mp hstarted
    obtain ⟨b, rfl⟩ := takes.started y (Option.mem_toList.mp hy)
    subst hx'
    cases hsleeps
  have hquiet : .allClosers p ∉ t.signals := by
    intro hall
    have hwoken := foldl_allClosers hall call' hin
    rcases hx with rfl | rfl
    · exact hwoken.1 hx'
    · exact hwoken.2 hx'
  obtain ⟨j, hj'⟩ := List.mem_iff_getElem?.mp hk'
  have hlt : j < m.calls.length := by
    by_contra hlt
    rcases (Happens.turn pick s hk takes sequel).exists_call_before hj' with
      ⟨call₀, hj⟩ | ⟨o, -, -, hpoint, -⟩ | ⟨b, hb, -⟩
    · exact hlt (List.getElem?_eq_some_iff.mp hj).1
    · have henter := sleeps_enter m.world o
      rw [← hpoint, hx', hsleeps] at henter
      cases henter
    · rw [hb] at hx'
      subst hx'
      cases hsleeps
  obtain ⟨call₁, hj'', hw, -⟩ := exists_call_apply k t s pick (List.getElem?_eq_getElem hlt)
  obtain rfl := Option.some.inj (hj'.symm.trans hj'')
  have heq := hw.eq_of_sleeps (hx' ▸ hsleeps)
  rw [hx'] at heq
  split at heq
  · exact .inl heq.symm
  · exact .inr ⟨hquiet, _, List.getElem_mem hlt, heq.symm⟩

/-- A turn leaves nobody asleep who has something to do. -/
theorem Wakeful.turn (h : m.Wakeful p) (hm : m.Reachable) {s : Sequel} (hk : m.call? k = some call)
    (takes : m.Takes k call e t)
    (sequel : s = call.sequel ∨ s = .none ∨
      ∃ h, call.point = .heartbeat h .resting ∧ s = .beat h)
    (hp : p < m.world.pools.length) :
    (apply { m with calls := m.calls.modify k fun c => { c with sequel := s } } k pick
      t).Wakeful p where
  pending := by
    refine h.pending_turn hm hk takes hp ?_ (calls_apply m k s pick t) rfl
    intro k' hk'
    obtain ⟨y, hy, rfl⟩ := List.mem_map.mp hk'
    obtain ⟨b, rfl⟩ := takes.started y (Option.mem_toList.mp hy)
    rfl
  busy call' hk' hx' := by
    have hdealing := takes.dealing hm.sound hk hp
    rcases sleeper_turn hk takes sequel (.inl rfl) hk' hx' with hx | ⟨hquiet, call₀, hk₀, hx₀⟩
    · exact hdealing.outstanding_ne_zero hx
    · rcases hdealing.outstanding (hm.closing_of_draining hk₀ hx₀) with hsame | hall | hstock
      · have hbusy := h.busy call₀ hk₀ hx₀
        rw [← hsame] at hbusy
        exact hbusy
      · exact absurd hall hquiet
      · have hhas := hm.sound.used call₀ hk₀ p (by rw [hx₀]; rfl)
        exact absurd hstock ((hasPool_iff.mp hhas).2 call (List.mem_of_getElem? hk))
  announced call' hk' hx' hclosed := by
    have hdealing := takes.dealing hm.sound hk hp
    rcases sleeper_turn hk takes sequel (.inr rfl) hk' hx' with hx | ⟨hquiet, call₀, hk₀, hx₀⟩
    · have hunclosed : (t.world.pool p).closed = false := hdealing.unclosed hx
      exact absurd (hunclosed.symm.trans hclosed) Bool.false_ne_true
    · have hstays : ∀ j call₁ shut, m.call? j = some call₁ →
          (if k = j then t.point else call₁.point) = .close p (.announcing shut) →
          ∃ call' ∈ (apply { m with
              calls := m.calls.modify k fun c => { c with sequel := s } } k pick t).calls,
            ∃ shut, call'.point = .close p (.announcing shut) := by
        intro j call₁ shut hj hx₁
        obtain ⟨call₂, hj₂, hw, -⟩ := exists_call_apply k t s pick hj
        rw [hx₁] at hw
        exact ⟨call₂, List.mem_of_getElem? hj₂, shut, hw.eq_of_awake rfl⟩
      rcases hdealing.announcing hclosed with hbefore | ⟨shut, hy⟩
      · obtain ⟨call₁, hk₁, shut, hx₁⟩ := h.announced call₀ hk₀ hx₀ hbefore
        obtain ⟨j, hj⟩ := List.mem_iff_getElem?.mp hk₁
        refine hstays j call₁ shut hj ?_
        rw [if_neg, hx₁]
        rintro rfl
        obtain rfl := Option.some.inj (hk.symm.trans hj)
        exact hquiet (hdealing.allClosers_of_announcing hx₁)
      · exact hstays k call shut hk (by rw [if_pos rfl, hy])

/-- No event leaves anybody asleep who has something to do. -/
theorem Wakeful.perform (h : m.Wakeful p) (hm : m.Reachable) (hn : m.perform e = some n) :
    n.Wakeful p := by
  have hn' : n.Reachable := hm.perform hn
  cases happens hn with
  | @turn _ k call t pick s hk takes sequel =>
    by_cases hp : p < m.world.pools.length
    · exact h.turn hm hk takes sequel hp
    · obtain ⟨rest, hpass⟩ := hm.sound.passes hk takes
      exact hn'.sound.wakeful_of_absent fun hlt => hp (hlt.trans_eq hpass.pools)
  | @enter o permits =>
    have hmore : ∀ k ∈ [({ point := (o.enter m.world).point, sequel := (o.enter m.world).sequel
                           notices := (o.enter m.world).notices } : Call)],
        k.point.sleeps = false := by
      intro k hk
      rw [List.mem_singleton.mp hk]
      exact sleeps_enter m.world o
    by_cases hp : p < m.world.pools.length
    · exact h.of_eq (pool_enter m.world o hp) rfl hmore
    · -- Nobody sleeps for a pool that has just been made.
      have hbefore : ∀ call ∈ m.calls, call.point.errand? ≠ some (.use p) := fun call hk he =>
        hp (hasPool_iff.mp (hm.sound.used call hk p he)).1
      have hafter : ∀ call ∈ (m.begin o).calls, call.point.sleeps = true →
          call.point.errand? ≠ some (.use p) := by
        intro call hk hsleeps
        rcases List.mem_append.mp hk with hk | hk
        · exact hbefore call hk
        · rw [hmore call hk] at hsleeps
          cases hsleeps
      refine ⟨fun hpos => ?_, fun call hk hx => ?_, fun call hk hx => ?_⟩
      · obtain ⟨call, hk, hasleep⟩ := List.countP_pos_iff.mp hpos
        exact absurd (errand_of_asleepFor hasleep)
          (hafter call hk (Point.sleeps_of_asleepFor hasleep))
      · exact absurd (by rw [hx]; rfl) (hafter call hk (by rw [hx]; rfl))
      · exact absurd (by rw [hx]; rfl) (hafter call hk (by rw [hx]; rfl))
  | aside befalls =>
    refine h.of_eq ?_ (List.append_nil _).symm fun _ hk => absurd hk List.not_mem_nil
    simp [World.pool, befalls.pools]

/-- In every machine that can be reached nobody is asleep who has something to do. -/
theorem Reachable.wakeful (hm : m.Reachable) (p : PoolKey) : m.Wakeful p := by
  suffices h : m.Reachable ∧ m.Wakeful p from h.2
  refine hm.induct (P := fun m => m.Reachable ∧ m.Wakeful p) ⟨reachable_empty, ?_⟩
    fun m n e ih hn => ⟨ih.1.perform hn, ih.2.perform ih.1 hn⟩
  exact sound_empty.wakeful_of_absent (Nat.not_lt_zero p)

/-! ## No lost wake-up -/

/-- No wake-up is lost that a caller or a call that closes a pool waits for. -/
structure Alert (m : Machine) (p : PoolKey) : Prop where
  /-- While somebody sleeps for a client the pool is open, and at least as many have been woken and
  not looked yet as there are idle clients and free slots. -/
  pending : 0 < m.asleep p → (m.world.pool p).closing = false ∧
    (m.world.pool p).idle.length +
      ((m.world.pool p).limits.maxClients.toNat - (m.world.pool p).created.toNat) ≤ m.woken p
  /-- Whoever has been woken can look. -/
  resumes : ∀ k call, m.call? k = some call → call.point.wokenFor p = true →
    m.world.crashed = false → ∀ pick, ∃ n, m.perform (.advance k pick) = some n
  /-- When all have looked, somebody sleeps only for want of anything to be had. -/
  blocked : m.woken p = 0 → 0 < m.asleep p → (m.world.pool p).closing = false ∧
    (m.world.pool p).idle = [] ∧
      (m.world.pool p).created = (m.world.pool p).limits.maxClients
  /-- The call that closes the pool does not sleep when nothing is outstanding. -/
  draining : ∀ call ∈ m.calls, call.point = .close p (.draining false) →
    (m.world.pool p).outstanding ≠ 0
  /-- Another call that closes the pool sleeps after it has been closed only while the one that has
  closed it is still about to tell. -/
  attending : ∀ call ∈ m.calls, call.point = .close p (.attending false) →
    (m.world.pool p).closed = true →
      ∃ call' ∈ m.calls, ∃ shut, call'.point = .close p (.announcing shut)

/-- In every machine that can be reached no wake-up is lost. -/
theorem no_lost_wakeup (hm : m.Reachable) (p : PoolKey) : m.Alert p := by
  have h := hm.wakeful p
  refine ⟨h.pending, ?_, ?_, h.busy, h.announced⟩
  · intro k call hk hwoken hcrashed pick
    obtain ⟨x, sequel, notices⟩ := call
    have hstep : ∃ t, turn m.world m.calls.length m.isOver ⟨x, sequel, notices⟩ = some t := by
      unfold Point.wokenFor at hwoken
      split at hwoken
      · next hx =>
        simp only at hx
        subst hx
        exact ⟨_, rfl⟩
      · cases hwoken
    obtain ⟨t, ht⟩ := hstep
    exact ⟨_, perform_advance hcrashed hk ht pick⟩
  · intro hnobody hasleep
    obtain ⟨hopen, hspare⟩ := h.pending hasleep
    have hbound := (hm.sound.counted p).bound
    rw [hnobody, Nat.le_zero, Pool.spare, Nat.add_eq_zero_iff] at hspare
    refine ⟨hopen, List.eq_nil_of_length_eq_zero hspare.1, UInt64.toNat_inj.mp ?_⟩
    have hle : (m.world.pool p).created.toNat ≤ (m.world.pool p).limits.maxClients.toNat :=
      (Nat.le_add_right _ _).trans hbound
    omega

/-- A run after which a client is idle that one of two sleepers has been woken for. -/
def wakeUpPending : List Event :=
  [.begin (.construct {} { maxClients := 1, initialClients := 1 } true .standard),
    .advance 0 0, .answer 0 (.opened (.session true)), .advance 0 0, .advance 0 0,
    .begin (.acquire 0 0), .advance 1 0, .begin (.acquire 0 0), .advance 2 0,
    .begin (.acquire 0 0), .advance 3 0, .begin (.release 0 0), .advance 4 1]

/-- The wake-up is on its way. -/
theorem no_lost_wakeup_pending : ∃ m : Machine, run {} wakeUpPending = some m ∧ m.asleep 0 = 1 ∧
    m.woken 0 = 1 ∧ (m.world.pool 0).idle = [0] ∧ m.Alert 0 :=
  ⟨_, rfl, rfl, rfl, rfl, no_lost_wakeup ⟨wakeUpPending, rfl⟩ 0⟩

end Machine
end SessionPool
