import SessionPool.Proofs.Account
import SessionPool.Proofs.Delivery
import SessionPool.Proofs.Reuse
import SessionPool.Proofs.Stocking
import SessionPool.Proofs.Tasks

/-!
# A pool that is being stocked is left alone

While a call stocks a pool, nobody else has the pool in hand, so that no other call changes its
record or its clients (`Machine.Secluded`).  Only what the outside does to a client by its key, and
a command that somebody runs on it, could still reach it; a caller that has not got the pool yet has
none of its clients either (`Machine.Move.touches`).

* `Machine.Takes.client_eq`: a client that is idle or new is as it was, after a turn of a call that
  has nothing to do with it.
* `Machine.Secluded.pool_eq`, `Machine.Secluded.roster_eq`, `Machine.Secluded.client_eq`: the same
  for the pool as a whole.
* `Machine.Secluded.perform`: it goes on like this as long as the pool is being stocked.
-/

namespace SessionPool

namespace Point

variable {x : Point} {p : PoolKey}

/-- A call that stands here has nothing to do with the pool. -/
structure Avoids (x : Point) (p : PoolKey) : Prop where
  unstocked : x.errand? ≠ some (.stock p)
  unused : x.errand? ≠ some (.use p)
  unpinged : x.task? ≠ some (.ping p)

end Point

/-- A turn of a call that has nothing to do with a pool leaves its record as it is, if nobody has a
reference to a member. -/
theorem Dealing.eq_of_avoids {w : World} {p : PoolKey} {x y : Point} {pool : Pool}
    {ss : List Signal} (h : Dealing w p x y pool ss) (hx : x.Avoids p)
    (unreferenced : ∀ c ∈ (w.pool p).members, (w.client c).references = 0) :
    pool = w.pool p := by
  cases h with
  | elsewhere => rfl
  | stocked => exact absurd rfl hx.unstocked
  | returned mem last | discarded mem last =>
    rw [unreferenced _ mem] at last
    cases last
  | drained | restored => exact absurd rfl hx.unpinged
  | _ => exact absurd rfl hx.unused

namespace Machine

variable {m n : Machine} {e : Event} {k j : CallKey} {call : Call} {t : Turn} {p : PoolKey}
  {c : ClientKey}

/-- An idle client of a pool, or a new one that the pool does not know yet, is as it was, after a
turn of a call that has nothing to do with the pool or with this client. -/
theorem Takes.client_eq (takes : m.Takes k call e t) (hm : m.Reachable) (hk : m.call? k = some call)
    (hx : call.point.Avoids p) (place : c ∈ (m.world.pool p).idle ∨ c ∈ (m.stake p).arrived)
    (unreferenced : (m.world.client c).references = 0)
    (uncommanded : call.point.task? ≠ some (.command c)) :
    t.world.client c = m.world.client c := by
  have hseated : c ∈ (m.books p).seated := place.elim
    (fun hi => Multiset.mem_add.mpr (.inl (hm.sound.of_mem_idle hi).1))
    (fun ha => Multiset.mem_add.mpr (.inr ha))
  have hown : c ∈ m.world.own p := (hm.sound.seated p).owned c hseated
  have hpool : ∀ {q}, c ∈ (m.books q).seated → q = p := fun {q} hq => by
    by_contra hne
    exact World.notMem_own_of_ne hown hne ((hm.sound.seated q).owned c hq)
  have harrived : ∀ {q}, c ∈ (call.point.stake q).arrived → q = p := fun ha =>
    hpool (Multiset.mem_add.mpr (.inr (mem_arrived_stake hk ha)))
  -- Nobody pings the client, because it is idle, or not a member yet.
  have hdrained : ¬ ∃ q, c ∈ call.point.drained q := by
    rintro ⟨q, hd⟩
    rw [← drainedBy_eq hk] at hd
    obtain ⟨hmem, -, hidle⟩ := hm.sound.of_mem_drainedBy hd
    obtain rfl := hpool (Multiset.mem_add.mpr (.inl hmem))
    rcases place with hi | ha
    · exact hidle hi
    · exact Multiset.disjoint_left.mp
        (Multiset.disjoint_of_nodup_add (hm.sound.seated q).nodup) hmem ha
  have hunsent : c ∉ call.point.outgoing := fun ho =>
    (hm.unseated_of_outgoing call (List.mem_of_getElem? hk) c ho).2 p hseated
  have htreatment := takes.treatment (World.mem_own.mp hown).1
  generalize t.world.client c = client at htreatment
  cases htreatment with
  | left => rfl
  | @lent q u leased s rest hpoint isOpen front =>
    have hi : c ∈ (m.world.pool q).idle := front ▸ List.mem_cons_self
    obtain rfl := hpool (Multiset.mem_add.mpr (.inl (hm.sound.of_mem_idle hi).1))
    exact absurd (by rw [hpoint]; rfl) hx.unused
  | @enrolled q u leased hpoint isOpen =>
    obtain rfl := harrived (q := q) (by rw [hpoint, Acquire.stake_arrived]; simp)
    exact absurd (by rw [hpoint]; rfl) hx.unused
  | @stocked q left hpoint =>
    obtain rfl := harrived (q := q) (by rw [hpoint, Stock.stake_arrived]; simp)
    exact absurd (by rw [hpoint]; rfl) hx.unstocked
  | shared hpoint mem busy lent | dropped hpoint mem lent => exact absurd unreferenced lent
  | returned hpoint mem last | discarded hpoint mem last =>
    rw [unreferenced] at last
    cases last
  | commanded command hands =>
    exact absurd (Point.of_hands hands) (not_or.mpr ⟨hdrained, uncommanded⟩)
  | broken asked =>
    obtain ⟨command, asked⟩ := asked
    exact absurd (Point.of_send asked) (not_or.mpr ⟨hdrained, uncommanded⟩)
  | asked outgoing | departed rite connected outgoing => exact absurd outgoing hunsent

/-- Nobody has clients of a pool before it is made. -/
theorem Reachable.lt_length_of_mem_own (hm : m.Reachable) (hc : c ∈ m.world.own p) :
    p < m.world.pools.length := by
  suffices h : m.Reachable ∧ ∀ c ∈ m.world.own p, p < m.world.pools.length from h.2 c hc
  refine hm.induct (P := fun m => m.Reachable ∧ ∀ c ∈ m.world.own p, p < m.world.pools.length)
    ⟨reachable_empty, nofun⟩ ?_
  rintro m n e ⟨hm, ih⟩ hn
  refine ⟨hm.perform hn, fun c hc => ?_⟩
  have hlength := hm.sound.length_pools (happens hn)
  rw [← World.mem_roster, roster_perform hn, List.mem_append, World.mem_roster] at hc
  rcases hc with hc | hc
  · exact (ih c hc).trans_le hlength
  · split at hc
    · next hdelivers =>
      obtain ⟨connected, j, call, rfl, hj, hx⟩ := delivers_iff.mp hdelivers
      have hcall := List.mem_of_getElem? hj
      rcases Point.errand_of_request hx with hx | hx
      · exact (hm.sound.stocked call hcall p hx).trans_le hlength
      · exact (hasPool_iff.mp (hm.sound.used call hcall p hx)).1.trans_le hlength
    · cases hc

/-! ## A pool in the hands of one call -/

/-- In this event something is done to a client of the pool by its key. -/
def Move.touches (p : PoolKey) (v : Move) : Bool :=
  match v.event with
  | .breakDown c | .connection c _ | .setState c _ | .begin (.execute c _) =>
    (v.before.world.client c).home = some p
  | _ => false

/-- The call of this key stocks the pool, no other call does, and none runs a command on a client of
the pool. -/
structure Secluded (m : Machine) (k : CallKey) (p : PoolKey) : Prop where
  stocks : ∃ call, m.call? k = some call ∧ call.point.errand? = some (.stock p)
  sole : ∀ j call, m.call? j = some call → call.point.errand? = some (.stock p) → j = k
  uncommanded : ∀ j call c, m.call? j = some call → call.point.task? = some (.command c) →
    c ∉ m.world.own p

namespace Secluded

variable (h : m.Secluded k p) (hm : m.Reachable)
include h hm

theorem lt_length : p < m.world.pools.length := by
  obtain ⟨call, hk, hx⟩ := h.stocks
  exact hm.sound.stocked call (List.mem_of_getElem? hk) p hx

omit hm in
/-- Nobody has the pool in hand. -/
theorem not_ready : m.hasPool p = false := by
  obtain ⟨call, hk, hx⟩ := h.stocks
  by_contra hp
  exact (hasPool_iff.mp (Bool.not_eq_false _ ▸ hp)).2 call (List.mem_of_getElem? hk) hx

/-- All other calls have nothing to do with the pool. -/
theorem avoids (hj : m.call? j = some call) (hjk : j ≠ k) : call.point.Avoids p where
  unstocked hx := hjk (h.sole j call hj hx)
  unused hx := by
    have hp := hm.sound.used call (List.mem_of_getElem? hj) p hx
    rw [h.not_ready] at hp
    cases hp
  unpinged hx := by
    have hp := hm.tasked.pinged j call p hj hx
    rw [h.not_ready] at hp
    cases hp

variable (hn : m.perform e = some n) (he : e.isTurnOf k = false)
include hn he

/-- The record of the pool is as it was. -/
theorem pool_eq (unreferenced : ∀ c ∈ (m.world.pool p).members, (m.world.client c).references = 0) :
    n.world.pool p = m.world.pool p := by
  rcases perform_cases hn with ⟨j, call, t, hj, takes, turned⟩ | ⟨o, rfl, permits, rfl⟩ |
    ⟨w, befalls, rfl⟩
  · have hjk := takes.ne he
    rw [turned.world, takes.pool_eq hm.sound hj fun pool ss hdealing =>
      hdealing.eq_of_avoids (h.avoids hm hj hjk) unreferenced]
  · exact pool_enter m.world o (h.lt_length hm)
  · rw [World.pool, befalls.pools, World.pool]

/-- The pool has the clients that it had. -/
theorem roster_eq : n.world.roster p = m.world.roster p := by
  rw [roster_perform hn]
  have hnone : m.delivers p e = false := by
    by_contra hdelivers
    obtain ⟨connected, j, call, rfl, hj, hx⟩ := delivers_iff.mp (Bool.not_eq_false _ ▸ hdelivers)
    have hjk : j ≠ k := of_decide_eq_false he
    have havoids := h.avoids hm hj hjk
    exact (Point.errand_of_request hx).elim havoids.unstocked havoids.unused
  rw [hnone]
  simp

/-- A client of the pool that is idle or new is as it was. -/
theorem client_eq (untouched : Move.touches p ⟨m, e, n⟩ = false)
    (place : c ∈ (m.world.pool p).idle ∨ c ∈ (m.stake p).arrived)
    (hown : c ∈ m.world.own p) (unreferenced : (m.world.client c).references = 0) :
    n.world.client c = m.world.client c := by
  obtain ⟨hlt, hhome⟩ := World.mem_own.mp hown
  have huntouched : ∀ {d}, (m.world.client d).home ≠ some p → c ≠ d := fun hd hcd =>
    hd (hcd ▸ hhome)
  rcases perform_cases hn with ⟨j, call, t, hj, takes, turned⟩ | ⟨o, rfl, permits, rfl⟩ |
    ⟨w, befalls, rfl⟩
  · have hjk := takes.ne he
    rw [turned.world]
    exact takes.client_eq hm hj (h.avoids hm hj hjk) place unreferenced fun htask =>
      h.uncommanded j call c hj htask hown
  · exact client_begin m o c
  · rcases befalls.client hlt with hw | ⟨rfl, -⟩ | ⟨connected, rfl, -⟩ | ⟨state, rfl, -⟩ | ⟨hand, -⟩
    · exact hw
    · exact absurd hhome (of_decide_eq_false untouched)
    · exact absurd hhome (of_decide_eq_false untouched)
    · exact absurd hhome (of_decide_eq_false untouched)
    · exact absurd hown (World.notMem_own_of_handmade hand)

end Secluded

/-- A call that begins to stock a pool is alone with it. -/
theorem Reachable.secluded_begin {o : Operation} (hm : m.Reachable)
    (h : (o.enter m.world).point.errand? = some (.stock m.world.pools.length)) :
    (m.begin o).Secluded m.calls.length m.world.pools.length where
  stocks := ⟨_, call?_begin m o, h⟩
  sole j call hj hx := by
    rcases call?_begin_cases hj with hj | ⟨hj, -⟩
    · exact absurd (hm.sound.stocked call (List.mem_of_getElem? hj) _ hx) (Nat.lt_irrefl _)
    · exact hj
  uncommanded j call c _ _ hc := by
    have hclients : (m.begin o).world.clients = m.world.clients := clients_enter m.world o
    have hown : c ∈ m.world.own m.world.pools.length := by
      rwa [World.mem_own, World.client, hclients, ← World.client, ← World.mem_own] at hc
    exact Nat.lt_irrefl _ (hm.lt_length_of_mem_own hown)

/-- It goes on like this as long as the call stocks the pool. -/
theorem Secluded.perform (h : m.Secluded k p) (hm : m.Reachable) (hn : m.perform e = some n)
    (untouched : Move.touches p ⟨m, e, n⟩ = false)
    (stocks : ∃ call, n.call? k = some call ∧ call.point.errand? = some (.stock p)) :
    n.Secluded k p where
  stocks := stocks
  sole j call hj hx := by
    rcases hm.sound.errand_before (happens hn) hj hx with ⟨call₀, hj, hx⟩ | ⟨o, -, hpoint⟩
    · exact h.sole j call₀ hj hx
    · exact absurd (stock_of_enter (hpoint ▸ hx)) (h.lt_length hm).ne
  uncommanded j call c hj hc hown := by
    obtain ⟨-, hhome⟩ := World.mem_own.mp hown
    -- Whoever begins a command gets a client that is there, and it has the pool that it had.
    have hbefore : c < m.world.clients.length → c ∈ m.world.own p := fun hlt =>
      World.mem_own.mpr ⟨hlt, (happens hn).home hlt ▸ hhome⟩
    rcases hm.known.task_before hn hj hc with ⟨i, call₀, hi, hc⟩ | ⟨b, -, hc⟩ |
      ⟨o, rfl, permits, hc⟩
    · exact h.uncommanded i call₀ c hi hc (hbefore (hm.tasked.commanded i call₀ c hi hc))
    · cases hc
    · obtain ⟨hhand, hc⟩ := command_of_task_enter permits hc
      have hown := hbefore (lt_length_of_isInHand hhand)
      rcases hc with ⟨command, rfl⟩ | hand
      · exact of_decide_eq_false untouched (World.mem_own.mp hown).2
      · exact World.notMem_own_of_handmade hand hown

end Machine
end SessionPool
