import SessionPool.Proofs.Conservation
import SessionPool.Proofs.Departure
import SessionPool.Proofs.Shutdown
import SessionPool.Proofs.Wakefulness

/-!
# A pool that is closing

A pool that is closing does not open again.  It loses clients and gains none, also by the pings that
were under way when its closing began.  Nobody stocks it, because nobody has a pool in hand before
it is stocked.

* `Machine.Reachable.shrinks`: what every event leaves of a pool that is closing.
* `Machine.run_induct`: what every event keeps holds after a run.
-/

namespace SessionPool

/-! ## The record of a pool that is closing -/

/-- A pool that is closing stays so and gains nothing from clients that come back from a ping. -/
theorem Pool.foldl_settle_of_closing {w : World} {p : PoolKey} (hc : (w.pool p).closing = true)
    (cs : List ClientKey) (pool : Pool) :
    (cs.foldl (Pool.settle w p) pool).members.Sublist pool.members ∧
      (cs.foldl (Pool.settle w p) pool).idle = pool.idle := by
  induction cs generalizing pool with
  | nil => exact ⟨List.Sublist.refl _, rfl⟩
  | cons c cs ih =>
    have hleaves : Pool.settle w p pool c = pool.giveBack.detach c := by
      simp [Pool.settle, KeepAlive.isDiscarded, hc]
    obtain ⟨hmembers, hidle⟩ := ih (pool.giveBack.detach c)
    rw [List.foldl_cons, hleaves]
    exact ⟨hmembers.trans List.erase_sublist, hidle⟩

variable {w : World} {p : PoolKey} {x y : Point} {pool : Pool} {ss : List Signal}

/-- A turn of a call that does not stock the pool leaves it closing, without new clients. -/
theorem Dealing.shrinks (h : Dealing w p x y pool ss) (hclosing : (w.pool p).closing = true)
    (hx : x.errand? ≠ some (.stock p)) :
    pool.closing = true ∧ pool.members.Sublist (w.pool p).members ∧
      pool.idle.Sublist (w.pool p).idle := by
  have hopen : (w.pool p).closing ≠ false := by simp [hclosing]
  cases h with
  | stocked => exact absurd rfl hx
  | barred => simp [hclosing]
  | taken o looks isOpen => exact absurd isOpen hopen
  | reserved looks isOpen => exact absurd isOpen hopen
  | enrolled o isOpen => exact absurd isOpen hopen
  | returned mem last isOpen => exact absurd isOpen hopen
  | drained isOpen => exact absurd isOpen hopen
  | begun isOpen => exact absurd isOpen hopen
  | begunAtOnce isOpen => exact absurd isOpen hopen
  | discarded => exact ⟨hclosing, List.erase_sublist, List.Sublist.refl _⟩
  | restored =>
    obtain ⟨hmembers, hidle⟩ := Pool.foldl_settle_of_closing hclosing _ (w.pool p)
    exact ⟨(Pool.closing_foldl_settle w p _ _).trans hclosing, hmembers,
      hidle ▸ List.Sublist.refl _⟩
  | emptied => exact ⟨hclosing, List.nil_sublist _, List.nil_sublist _⟩
  | _ => exact ⟨hclosing, List.Sublist.refl _, List.Sublist.refl _⟩

/-- Only a call that has business with a pool begins to close it. -/
theorem Dealing.closes (h : Dealing w p x y pool ss) (hclosing : pool.closing = true) :
    (w.pool p).closing = true ∨ x.errand? = some (.use p) := by
  cases h with
  | stocked goesOn closing => exact .inl (closing ▸ hclosing)
  | restored => exact .inl (Pool.closing_foldl_settle w p _ _ ▸ hclosing)
  | begun | begunAtOnce => exact .inr rfl
  | barred looks closing => exact .inl closing
  | taken | reserved => exact .inr rfl
  | _ => exact .inl hclosing

/-- A pool is marked as closed by a call that has disconnected all its clients. -/
theorem Dealing.sealed (h : Dealing w p x y pool ss) (hclosed : pool.closed = true) :
    (w.pool p).closed = true ∨ ∃ shut, x = .close p (.sealing shut) := by
  cases h with
  | stocked goesOn closing closed => exact .inl (closed ▸ hclosed)
  | closed => exact .inr ⟨_, rfl⟩
  | restored => exact .inl (Pool.closed_foldl_settle w p _ _ ▸ hclosed)
  | barred | taken | reserved => exact .inl (by simpa [Pool.takeIdle, Pool.reserve] using hclosed)
  | _ => exact .inl hclosed

namespace Machine

variable {m n : Machine} {e : Event} {k : CallKey} {call call' : Call} {t : Turn} {c : ClientKey}

/-! ## Pools that are there -/

/-- A call that begins stocks no pool that is there. -/
theorem stock_of_enter {o : Operation}
    (h : (o.enter m.world).point.errand? = some (.stock p)) : p = m.world.pools.length := by
  cases o with
  | construct connection limits factory dialect =>
    simp only [Operation.enter, Operation.make] at h
    repeat' split at h
    · cases h
    · cases h
    · exact (Errand.stock.inj (Option.some.inj h)).symm
  | shareLease l | releaseLease l | assignLease target source | dropLease l =>
    simp only [Operation.enter, Operation.giveUp] at h
    repeat' split at h
    all_goals cases h
  | _ => cases h

theorem length_pools_enter (w : World) (o : Operation) :
    w.pools.length ≤ (o.enter w).world.pools.length := by
  cases o with
  | construct connection limits factory dialect =>
    simp only [Operation.enter, Operation.make]
    repeat' split
    all_goals simp [World.addPool]
  | shareLease l | releaseLease l | assignLease target source | dropLease l =>
    simp only [Operation.enter, Operation.giveUp]
    repeat' split
    all_goals exact le_rfl
  | _ => exact le_rfl

/-- Pools are never forgotten. -/
theorem Sound.length_pools (hm : m.Sound) (h : m.Happens e n) :
    m.world.pools.length ≤ n.world.pools.length := by
  cases h with
  | turn pick s hk takes sequel =>
    obtain ⟨rest, hpass⟩ := hm.passes hk takes
    exact hpass.pools.ge
  | enter permits => exact length_pools_enter m.world _
  | aside befalls => exact (congrArg List.length befalls.pools).ge

/-- A call that is on an errand was on it before, unless it has just begun. -/
theorem Sound.errand_before {j : CallKey} {r : Errand} (hm : m.Sound) (h : m.Happens e n)
    (hj : n.call? j = some call') (hr : call'.point.errand? = some r) :
    (∃ call, m.call? j = some call ∧ call.point.errand? = some r) ∨
      ∃ o, e = .begin o ∧ call'.point = (o.enter m.world).point := by
  rcases h.exists_call_before hj with ⟨call, hcall⟩ | ⟨o, rfl, -, hpoint, -⟩ | ⟨b, hb, -⟩
  · refine .inl ⟨call, hcall, ?_⟩
    obtain ⟨call'', hj'', hmoved⟩ := h.exists_call hcall
    obtain rfl := Option.some.inj (hj.symm.trans hj'')
    rcases hmoved with ⟨hw, -⟩ | ⟨t, takes, -, hw, -⟩
    · exact hw.errand_eq ▸ hr
    · obtain ⟨rest, hpass⟩ := hm.passes hcall takes
      rw [hw.errand_eq] at hr
      rcases hpass.errand with hnone | hsame
      · rw [hnone] at hr
        cases hr
      · exact hsame ▸ hr
  · exact .inr ⟨o, rfl, hpoint⟩
  · rw [hb] at hr
    cases hr

/-- A pool that is ready for use stays so. -/
theorem Sound.hasPool_perform (hm : m.Sound) (hn : m.perform e = some n)
    (hp : m.hasPool p = true) : n.hasPool p = true := by
  obtain ⟨hlength, hstocks⟩ := hasPool_iff.mp hp
  refine hasPool_iff.mpr ⟨hlength.trans_le (hm.length_pools (happens hn)), fun k' hk' hs => ?_⟩
  obtain ⟨j, hj⟩ := List.mem_iff_getElem?.mp hk'
  rcases hm.errand_before (happens hn) hj hs with ⟨call, hj, hs⟩ | ⟨o, -, hpoint⟩
  · exact hstocks call (List.mem_of_getElem? hj) hs
  · exact Nat.ne_of_lt hlength (stock_of_enter (hpoint ▸ hs))

theorem lt_length_of_closing (h : (m.world.pool p).closing = true) : p < m.world.pools.length := by
  by_contra hp
  have hd : m.world.pool p = default := by
    simp [World.pool, List.getElem?_eq_none (Nat.le_of_not_lt hp)]
  rw [hd] at h
  cases h

/-- After the beginning of a call a pool is as it was, or has just been made. -/
theorem pool_enter_or (w : World) (o : Operation) (p : PoolKey) :
    (o.enter w).world.pool p = w.pool p ∨
      ∃ connection limits dialect, (o.enter w).world.pool p = { connection, limits, dialect } := by
  cases o with
  | construct connection limits factory dialect =>
    simp only [Operation.enter, Operation.make]
    split
    · exact .inl rfl
    · split
      · exact .inl rfl
      · rw [World.pool_addPool]
        split
        · exact .inr ⟨_, _, _, rfl⟩
        · exact .inl rfl
  | shareLease l | releaseLease l | assignLease target source | dropLease l =>
    simp only [Operation.enter, Operation.giveUp]
    repeat' split
    all_goals exact .inl rfl
  | _ => exact .inl rfl

/-- A pool that was made just now is open. -/
theorem closing_enter {w : World} {o : Operation}
    (h : ((o.enter w).world.pool p).closing = true) : p < w.pools.length := by
  by_contra hp
  rcases pool_enter_or w o p with hpool | ⟨connection, limits, dialect, hpool⟩
  · have hd : w.pool p = default := by
      simp [World.pool, List.getElem?_eq_none (Nat.le_of_not_lt hp)]
    rw [hpool, hd] at h
    cases h
  · rw [hpool] at h
    cases h

/-- A pool that is closing is ready for use, so that nobody stocks it. -/
theorem Reachable.hasPool_of_closing (hm : m.Reachable) :
    (m.world.pool p).closing = true → m.hasPool p = true := by
  suffices h : m.Reachable ∧ ((m.world.pool p).closing = true → m.hasPool p = true) from h.2
  refine hm.induct (P := fun m => m.Reachable ∧ ((m.world.pool p).closing = true →
    m.hasPool p = true)) ⟨reachable_empty, fun h => by simp [World.pool] at h; cases h⟩ ?_
  rintro m n e ⟨hm, ih⟩ hn
  refine ⟨hm.perform hn, fun hclosing => ?_⟩
  refine hm.sound.hasPool_perform hn ?_
  cases happens hn with
  | @turn _ k call t pick s hk takes sequel =>
    obtain ⟨rest, hpass⟩ := hm.sound.passes hk takes
    have hp : p < m.world.pools.length := (lt_length_of_closing hclosing).trans_eq hpass.pools
    rcases (takes.dealing hm.sound hk hp).closes hclosing with h | h
    · exact ih h
    · exact hm.sound.used call (List.mem_of_getElem? hk) p h
  | @enter o permits =>
    have hp := closing_enter hclosing
    rw [show (m.begin o).world = (o.enter m.world).world from rfl, pool_enter _ _ hp] at hclosing
    exact ih hclosing
  | aside befalls =>
    rw [World.pool, befalls.pools, ← World.pool] at hclosing
    exact ih hclosing

/-! ## Closing pools -/

/-- A pool that is closing stays so in every event, and gains no clients. -/
theorem Reachable.shrinks (hm : m.Reachable) (hn : m.perform e = some n)
    (hclosing : (m.world.pool p).closing = true) : (n.world.pool p).closing = true ∧
      (n.world.pool p).members.Sublist (m.world.pool p).members ∧
        (n.world.pool p).idle.Sublist (m.world.pool p).idle := by
  have hp := lt_length_of_closing hclosing
  cases happens hn with
  | @turn _ k call t pick s hk takes sequel =>
    refine (takes.dealing hm.sound hk hp).shrinks hclosing ?_
    exact (hasPool_iff.mp (hm.hasPool_of_closing hclosing)).2 call (List.mem_of_getElem? hk)
  | @enter o permits =>
    rw [show (m.begin o).world = (o.enter m.world).world from rfl, pool_enter _ _ hp]
    exact ⟨hclosing, List.Sublist.refl _, List.Sublist.refl _⟩
  | @aside _ w befalls =>
    have hpool : w.pool p = m.world.pool p := by simp [World.pool, befalls.pools]
    rw [show ({ m with world := w } : Machine).world = w from rfl, hpool]
    exact ⟨hclosing, List.Sublist.refl _, List.Sublist.refl _⟩

/-- What a run leads to from a reachable machine is reachable. -/
theorem Reachable.run (hm : m.Reachable) {es : List Event} (h : m.run es = some n) :
    n.Reachable := by
  obtain ⟨fs, hfs⟩ := hm
  exact ⟨fs ++ es, by rw [run_append, hfs, Option.bind_some, h]⟩

/-- What holds at the beginning of a run and is kept by every event holds at its end. -/
theorem run_induct {P : Machine → Prop} (hm : m.Reachable) (hP : P m)
    (keeps : ∀ l n e, l.Reachable → P l → l.perform e = some n → P n) :
    ∀ {es : List Event} {n : Machine}, m.run es = some n → P n := by
  intro es
  induction es generalizing m with
  | nil =>
    intro n h
    rw [run_nil, Option.some.injEq] at h
    exact h ▸ hP
  | cons e es ih =>
    intro n h
    rw [run_cons, Option.bind_eq_some_iff] at h
    obtain ⟨l, hl, h⟩ := h
    exact ih (hm.perform hl) (keeps m l e hm hP hl) h

end Machine
end SessionPool
