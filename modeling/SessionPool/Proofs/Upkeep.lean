import SessionPool.Proofs.Dismissal
import SessionPool.Proofs.Pinging

/-!
# Pinging the idle clients from beginning to end

A call that pings the idle clients of a pool holds the lock twice: when it takes them out, and when
it puts them back.  In between and afterwards it is unlocked, and anything may happen in the pool,
so that what the call finds when it puts clients back is not what it left.

What can be said for every run is therefore in three parts, one after the other: what it has asked
of the clients that it took out, what became of the pool in the one event in which they were put
back, and what became of those that were not (`Machine.Tends`).  Whatever else has changed has been
changed by others.  If there were no others, and no ping has failed, the pool is as it was before.

* `Machine.tends_run`: this for whole runs.
* `Machine.Tends.alone`: what holds if no other call has a part.
* `Machine.tends_idle`: what a call does that pings the idle clients of an open pool.
-/

namespace SessionPool
namespace Machine

variable {m m₁ n l l' : Machine} {e : Event} {es : List Event} {k : CallKey} {s : Sequel}
  {p : PoolKey} {cs : List ClientKey} {o : Outcome}

/-- What a call has done in a run of the events `es` from `m` to `n` that has just taken the clients
`cs` out of a pool in `m`.  It takes its turns until it has an outcome, and not too many.  Then it
has pinged all of the clients, has put back those that were not broken by then, unless the pool was
closing, and has sent off the others; and the outcome is how many there were, or the first
failure. -/
structure Tends (m : Machine) (k : CallKey) (p : PoolKey) (cs : List ClientKey) (es : List Event)
    (n : Machine) : Prop where
  few : es.countP (Event.isTurnOf k) ≤ 6 * cs.length + 3
  goesOn : n.result? k = none → n.world.crashed = false →
    ∃ e, e.isTurnOf k = true ∧ (n.perform e).isSome
  ends : ∀ o, n.result? k = some o → ∃ us e vs l l' gone kept, es = us ++ e :: vs ∧
    m.run us = some l ∧ e.isTurnOf k = true ∧ l.perform e = some l' ∧ l'.run vs = some n ∧
      m.requests k es = m.requests k us ++ l'.requests k vs ∧ m.Pinged k cs cs us l ∧
        l.Restored p cs gone kept l' ∧ l'.SentOff k gone vs n ∧
          o = KeepAlive.outcome cs.length (KeepAlive.firstFault m.world cs (answers k us))

/-- A call that is still pinging has not taken too many turns. -/
theorem Pinging.few {waiting : Bool} {done todo : List ClientKey}
    (h : m.Pinging k s p cs es n waiting done todo) :
    es.countP (Event.isTurnOf k) ≤ 2 * cs.length := by
  have hlength : cs.length = done.length + todo.length := by rw [h.split, List.length_append]
  have hleft : waiting.toNat ≤ 2 * todo.length := by
    cases waiting with
    | false => exact Nat.zero_le _
    | true =>
      have hpos := List.length_pos_iff.mpr (h.waits rfl)
      rw [Bool.toNat_true]
      omega
  rw [h.turns]
  omega

/-- In every run a call that has taken clients out does with them what is to be done, as long as
nothing is done with its outcome. -/
theorem tends_run (hm : m.ReachableWithout Mishap.isTampering)
    (h : m.IsAt k s (.keepAlive p (.pinging false [] cs none))) (hn : m.run es = some n)
    (untampered : ∀ c s, .setState c s ∉ es)
    (unspent : s ≠ .none → ∀ v ∈ m.moves k es, v.before.result? k = none) :
    m.Tends k p cs es n := by
  rcases pinging_run hm h hn untampered with
    ⟨waiting, done, todo, hping⟩ | ⟨us, e, vs, l, l', rfl, hus, hping, hback, hvs⟩
  · refine ⟨hping.few.trans (by omega), fun _ hcrashed => ?_, fun o ho => ?_⟩
    · exact hping.stands.goesOn hcrashed fun call hx => exists_takes_pinging hx
    · rw [hping.stands.result_eq] at ho
      cases ho
  have hl : l.ReachableWithout Mishap.isTampering :=
    hm.untampered_run (fun c s hmem => untampered c s (List.mem_append_left _ hmem)) hus
  have hl' : l'.ReachableWithout Mishap.isTampering := by
    refine hl.untampered (fun c s he => untampered c s ?_) hback.perform
    rw [he]
    exact List.mem_append_right _ List.mem_cons_self
  have hafter : ∀ c s, .setState c s ∉ vs :=
    fun c s hmem => untampered c s (List.mem_append_right _ (List.mem_cons_of_mem _ hmem))
  have hrestored := hping.restored hl.reachable.sound hback
  have hown : ∀ c ∈ KeepAlive.discarded l.world p cs, c ∈ l'.world.own p := fun c hc =>
    hl.reachable.sound.mem_own_perform hback.perform ((hl.reachable.sound.seated p).mem_own_of_mem
      (hrestored.out c (List.mem_of_mem_filter hc)).1)
  have hunspent : s ≠ .none → ∀ v ∈ l'.moves k vs, v.before.result? k = none := by
    rw [moves_append hus, moves_cons hback.perform] at unspent
    exact fun hs v hv => unspent hs v (List.mem_append_right _ (List.mem_append_right _ hv))
  obtain ⟨x, hpart⟩ := parting_run hl' hown hback.stands_farewell hvs hafter hunspent
  refine ⟨?_, fun hnone hcrashed => hpart.goesOn hcrashed hnone, fun o ho => ?_⟩
  · have hfew := hping.few
    have hparting := hpart.turns
    have hsome : (KeepAlive.discarded l.world p cs).length ≤ cs.length := List.length_filter_le ..
    rw [List.countP_append, List.countP_cons, hback.turn, if_pos rfl]
    omega
  · obtain ⟨rfl, hsent⟩ := sentOff_run hl' hown hback.stands_farewell hvs hafter hunspent ho
    have hrequests : m.requests k (us ++ e :: vs) = m.requests k us ++ l'.requests k vs := by
      have hnone : l'.request? k = none := hback.stands_farewell.request_eq
      simp [requests, moves_append hus, moves_cons hback.perform, hback.turn, hnone]
    have hall := hping.toPinged
    rw [List.take_nil, List.append_nil] at hall
    exact ⟨us, e, vs, l, l', _, _, rfl, hus, hback.turn, hback.perform, hvs, hrequests, hall,
      hrestored, hsent, rfl⟩

/-! ## If no other call has a part -/

/-- Pings that are successes change nothing but sessions. -/
theorem Pinged.alike (h : m.Pinged k cs cs es n) (hm : m.Reachable) (hn : m.run es = some n)
    (alone : ∀ e ∈ es, e.isOfOthers k = false) (good : ∀ a ∈ answers k es, a.succeeds = true) :
    m.world.Alike p n.world := by
  refine hm.alike_run hn alone fun v hv => ?_
  cases h.moves v hv with
  | asks mem asked world => exact world ▸ .send _ pingCommand
  | hears mem asked answer world =>
    rw [good _ (List.mem_filterMap.mpr ⟨v.event, event_mem_of_mem_moves hv, answer⟩),
      if_pos rfl] at world
    exact world ▸ .refl v.before.world p

/-- A call that sends nobody off changes nothing. -/
theorem SentOff.alike (h : m.SentOff k [] es n) (hm : m.Reachable) (hn : m.run es = some n)
    (alone : ∀ e ∈ es, e.isOfOthers k = false) : m.world.Alike p n.world := by
  refine hm.alike_run hn alone fun v hv => ?_
  rcases h.moves v hv with hsame | ⟨c, hc, -⟩
  · exact hsame ▸ .refl v.before.world p
  · cases hc

/-- If all clients that were taken out go back to a pool that is otherwise as it was left, it is as
it was before. -/
theorem Restored.alike {w : World} (h : l.Restored p (w.pool p).idle [] (w.pool p).idle l')
    (halike : (w.onPool p Pool.drain).Alike p l.world) : w.Alike p l'.world where
  pools := by
    have hpools : l'.world.pools = ((w.onPool p Pool.drain).onPool p fun pool =>
        pool.restored [] (w.pool p).idle).pools := by
      rw [h.world]
      simp only [World.onPool, halike.pools]
    rw [hpools, World.onPool_onPool, World.onPool_eq_self (Pool.restored_drain _)]
  clients c hc := by
    have hclients : l'.world.clients = l.world.clients := by
      rw [h.world]
      rfl
    have hsame : l'.world.client c = l.world.client c := by simp only [World.client, hclients]
    obtain ⟨hown, hkeeps⟩ := halike.clients c hc
    rw [World.mem_own] at hown ⊢
    rw [hsame, hclients]
    exact ⟨hown, hkeeps⟩

/-- A call that pings the idle clients of a pool, of which none is broken, and is told of no
failure, leaves the pool as it was. -/
theorem Tends.alone (h : m₁.Tends k p (m.world.pool p).idle es n) (ho : n.result? k = some o)
    (hm : m.Sound) (hm₁ : m₁.Reachable) (hdrained : m₁.world = m.world.onPool p Pool.drain)
    (isOpen : (m.world.pool p).closing = false)
    (whole : ∀ c ∈ (m.world.pool p).idle, (m.world.client c).isBroken = false)
    (alone : ∀ e ∈ es, e.isOfOthers k = false) (good : ∀ a ∈ answers k es, a.succeeds = true) :
    o = .ok (.count (m.world.pool p).idle.length) ∧ m.world.Alike p n.world := by
  obtain ⟨us, e, vs, l, l', gone, kept, rfl, hus, -, hl, hvs, -, hping, hback, hsent, rfl⟩ :=
    h.ends o ho
  rw [List.forall_mem_append, List.forall_mem_cons] at alone
  have hgood : ∀ a ∈ answers k us, a.succeeds = true := fun a ha => good a (by
    rw [answers, List.filterMap_append]
    exact List.mem_append_left _ ha)
  have halike : (m.world.onPool p Pool.drain).Alike p l.world :=
    hdrained ▸ hping.alike hm₁ hus alone.1 hgood
  have hwhole : ∀ c ∈ (m.world.pool p).idle, (l.world.client c).state ≠ .broken := fun c hc => by
    have hown : c ∈ m.world.own p := (hm.seated p).mem_own_of_mem (hm.of_mem_idle hc).1
    rw [(halike.clients c hown).2.1]
    exact of_decide_eq_false (whole c hc)
  have hopen : (l.world.pool p).closing = false := by
    have hpool : l.world.pool p = (m.world.onPool p Pool.drain).pool p := by
      simp only [World.pool, halike.pools]
    rw [hpool]
    exact (World.onPool_congr (f := Pool.drain) Pool.closing fun _ => rfl).trans isOpen
  obtain ⟨rfl, rfl⟩ := hback.all_stay hopen hwhole
  refine ⟨by rw [KeepAlive.firstFault_eq_none hgood]; rfl, ?_⟩
  exact (hback.alike halike).trans (hsent.alike ((hm₁.run hus).perform hl) hvs alone.2.2)

/-! ## From beginning to end -/

/-- A call that is about to take out the idle clients of an open pool takes them out in its turn. -/
theorem of_draining {call : Call} (hk : m.call? k = some call)
    (hx : call.point = .keepAlive p .draining) (isOpen : (m.world.pool p).closing = false)
    (he : e.isTurnOf k = true) (hn : m.perform e = some n) :
    n.world = m.world.onPool p Pool.drain ∧
      n.IsAt k call.sequel (.keepAlive p (.pinging false [] (m.world.pool p).idle none)) := by
  have hat : m.IsAt k call.sequel (.keepAlive p .draining) := ⟨call, hk, hx, id⟩
  rcases hat.perform rfl (by simp) hn with
    ⟨hturn, -⟩ | ⟨-, call', t, hx', -, takes, hworld, hnext⟩
  · rw [he] at hturn
    cases hturn
  · obtain ⟨-, ht⟩ := takes.turn_eq (by rw [hx']; rfl) (by rw [hx']; rfl) (by simp [hx'])
    have hdrain : t = KeepAlive.drain m.world p := by
      simpa [turn, hx', KeepAlive.step] using ht.symm
    rw [hdrain] at hworld hnext
    simp only [KeepAlive.drain, isOpen, Bool.false_eq_true, if_false] at hworld hnext
    exact ⟨hworld, hnext rfl⟩

/-- A call that pings the idle clients of an open pool takes them out first.  Then it does with them
what is to be done, in every run in which nobody overwrites states; if its result is not for its
caller but for a heartbeat or a lease, in every run in which nothing has been done with it yet.  If
no other call has a part in the run, none of the clients is broken before and no ping fails, it
comes to their number and the pool is as it was. -/
theorem tends_idle {call : Call} (hm : m.ReachableWithout Mishap.isTampering)
    (hk : m.call? k = some call) (hx : call.point = .keepAlive p .draining)
    (isOpen : (m.world.pool p).closing = false) (he : e.isTurnOf k = true)
    (hm₁ : m.perform e = some m₁) (hn : m₁.run es = some n)
    (untampered : ∀ c s, .setState c s ∉ es)
    (unspent : call.sequel ≠ .none → ∀ v ∈ m₁.moves k es, v.before.result? k = none) :
    m₁.world = m.world.onPool p Pool.drain ∧ m₁.Tends k p (m.world.pool p).idle es n ∧
      ∀ o, n.result? k = some o → (∀ e ∈ es, e.isOfOthers k = false) →
        (∀ c ∈ (m.world.pool p).idle, (m.world.client c).isBroken = false) →
          (∀ a ∈ answers k es, a.succeeds = true) →
            o = .ok (.count (m.world.pool p).idle.length) ∧ m.world.Alike p n.world := by
  obtain ⟨hdrained, hstands⟩ := of_draining hk hx isOpen he hm₁
  have hreach : m₁.ReachableWithout Mishap.isTampering := by
    refine hm.untampered (fun c s hset => ?_) hm₁
    rw [hset] at he
    cases he
  have htends := tends_run hreach hstands hn untampered unspent
  exact ⟨hdrained, htends, fun o ho halone hwhole hgood =>
    htends.alone ho hm.reachable.sound hreach.reachable hdrained isOpen hwhole halone hgood⟩

/-- A pool is stocked with three clients, and a call begins that is to ping them. -/
def threeIdle : List Event :=
  [.begin (.construct {} { maxClients := 3, initialClients := 3 } true .standard), .advance 0 0,
    .answer 0 (.opened (.session true)), .advance 0 0, .advance 0 0,
    .answer 0 (.opened (.session true)), .advance 0 0, .advance 0 0,
    .answer 0 (.opened (.session true)), .advance 0 0, .advance 0 0, .begin (.keepAlive 0)]

/-- The second client has lost its connection, and a caller who wants one comes meanwhile. -/
def secondLost : List Event :=
  [.advance 1 0, .answer 1 (.sent (.reply { code := 200, text := [] })), .advance 1 0,
    .answer 1 (.sent (.lost [])), .begin (.acquire 0 0), .advance 2 0, .advance 1 0,
    .answer 1 (.sent (.reply { code := 200, text := [] })), .advance 1 0, .advance 2 0,
    .advance 1 0, .answer 1 (.disconnected .done), .advance 1 0, .advance 1 0, .advance 1 0]

/-- The caller gets the first client, the third is idle again, and the second has left. -/
theorem tends_idle_secondLost : ∃ m m₁ n : Machine, run {} threeIdle = some m ∧
    m.perform (.advance 1 0) = some m₁ ∧ m₁.run secondLost = some n ∧
    (m.world.pool 0).idle = [0, 1, 2] ∧ n.result? 1 = some (.error (.transport [])) ∧
    (n.world.pool 0).members = [0, 2] ∧ (n.world.pool 0).idle = [2] ∧
    (n.world.pool 0).created = 2 ∧ n.result? 2 = some (.ok (.client 0)) ∧
    m₁.Tends 1 0 (m.world.pool 0).idle secondLost n := by
  have hm : run {} threeIdle = some _ := rfl
  have hreach := reachableWithout_empty.untampered_run (by simp [threeIdle]) hm
  exact ⟨_, _, _, hm, rfl, rfl, rfl, rfl, rfl, rfl, rfl, rfl,
    (tends_idle (e := .advance 1 0) hreach rfl rfl rfl rfl rfl rfl (by simp [secondLost])
      fun h => absurd rfl h).2.1⟩

end Machine
end SessionPool
