import SessionPool.Proofs.Arrivals
import SessionPool.Proofs.Loans

/-!
# Where references go

A pool issues a reference when it lends a client or shares it, and takes it back when the reference
is given back.  In between the reference is with a lease, or with the caller who asked for it, or on
its way back.  No turn makes one from nothing or lets one disappear, with one exception: a lease
that takes over from another may hold a reference at that moment, and this reference is lost.

* `World.issued`: how many references to a client a pool has issued and not taken back.
* `Conserves`: what a turn issues, takes back, hands over and loses, in one equation.
* `Machine.Reachable.conserves`: it holds of every turn.
-/

namespace SessionPool

/-! ## References -/

/-- A reference that a pool issues: the pool, and the client that it refers to. -/
abbrev Reference := PoolKey × ClientKey

/-- How many such references the pool has issued and not taken back. -/
def World.issued (w : World) (r : Reference) : ℕ :=
  if (w.client r.2).home = some r.1 then (w.client r.2).references.toNat else 0

/-- The reference that a call is about to give back. -/
def Point.returning : Point → List Reference
  | .release p c _ => [(p, c)]
  | _ => []

/-- The reference that goes straight to the caller when its call goes from `x` to `y`. -/
def Point.handed (x y : Point) : List Reference :=
  match x, y with
  | .acquire p _ false _, .finished (.ok (.client c)) => [(p, c)]
  | .addReference p _ false, .finished (.ok (.client c)) => [(p, c)]
  | _, _ => []

/-- The reference that a lease holds at the moment when it takes over from another. -/
def World.overwritten (w : World) (call : Call) : List Reference :=
  match call.point, call.sequel with
  | .finished _, .takeOver target _ => (w.lease target).toList
  | _, _ => []

/-- What a turn issues goes to a lease or to the caller, what it takes back was on its way, and what
is overwritten is gone. -/
def Conserves (w : World) (call : Call) (w' : World) (y : Point) : Prop :=
  ∀ r, w'.leases.count (some r) + y.returning.count r + (call.point.handed y).count r +
      (w.overwritten call).count r + w.issued r =
    w.leases.count (some r) + call.point.returning.count r + w'.issued r

/-- Nobody is handed a client who is not told of a success. -/
theorem Point.handed_of_unserved {x y : Point} (h : ∀ o, y ≠ .finished (.ok o)) :
    x.handed y = [] := by
  unfold handed
  split
  · exact absurd rfl (h _)
  · exact absurd rfl (h _)
  · rfl

section Steps

variable {w w' : World} {p : PoolKey} {c : ClientKey} {t : Patience} {leased : Bool} {turn : Turn}

/-! ## Steps that leave leases alone -/

/-- A step that leaves all leases alone, and after which no reference is on its way back. -/
structure Turn.SparesLeases (w : World) (turn : Turn) : Prop where
  leases : turn.world.leases = w.leases
  point : turn.point.returning = []

namespace Opening

theorem leases_answered (a : OpenAnswer) : (answered w p a).world.leases = w.leases := by
  cases a <;> rfl

end Opening

namespace Stock

theorem sparesLeases_step {left : ℕ} {s : StockPoint} (ht : step w p left s = some turn) :
    turn.SparesLeases w := by
  cases s with
  | reserving => cases left <;> exact Option.some.inj ht ▸ ⟨rfl, rfl⟩
  | opening => cases ht
  | _ => exact Option.some.inj ht ▸ ⟨rfl, rfl⟩

end Stock

namespace Acquire

theorem returning_seek : (seek w p t leased).point.returning = [] := by
  simp only [seek]
  repeat' split
  all_goals cases leased <;> rfl

theorem returning_step {s : AcquirePoint} (ht : step w p t leased s = some turn) :
    turn.point.returning = [] := by
  cases s with
  | seeking => exact Option.some.inj ht ▸ returning_seek
  | opening | asleep => cases ht
  | refused f => exact Option.some.inj ht ▸ rfl
  | arrived d =>
    obtain rfl := Option.some.inj ht
    simp only [arrive]
    split
    · rfl
    · cases leased <;> rfl
  | woken =>
    obtain rfl := Option.some.inj ht
    simp only [wake]
    split
    · exact returning_seek
    · rfl
  | expired =>
    obtain rfl := Option.some.inj ht
    simp only [expire]
    split
    · exact returning_seek
    · rfl

end Acquire

namespace Release

/-- With every reference that is given back there is one less. -/
theorem references_step (hc : c < w.clients.length) (h : w.Releasable p c) :
    ((step w p c).world.client c).references.toNat + 1 = (w.client c).references.toNat := by
  by_cases one : (w.client c).references = 1
  · have hnone : ((step w p c).world.client c).references = 0 := by
      by_cases unwanted : w.Unwanted p c
      · rw [(step_of_last_discarded hc h.1 one unwanted).1, World.discarded, World.client_onPool,
          World.client_onClient w hc]
      · rw [(step_of_last_returned hc h.1 one unwanted).1, World.returned, World.client_onPool,
          World.client_onClient w hc]
    rw [hnone, one]
    rfl
  · rw [step_of_more h one]
    show ((w.dropped c).client c).references.toNat + 1 = _
    have hpos : 0 < (w.client c).references.toNat :=
      Nat.pos_of_ne_zero fun hnone => h.2 (UInt64.toNat_inj.mp hnone)
    rw [World.dropped, World.client_onClient w hc, toNat_sub_one hpos]
    omega

theorem sparesLeases_step : (step w p c).SparesLeases w := by
  simp only [step, last]
  repeat' split
  all_goals exact ⟨rfl, rfl⟩

end Release

namespace KeepAlive

theorem leases_foldl_settle (ds : List ClientKey) (w : World) :
    (ds.foldl (fun w c => settle w p c) w).leases = w.leases := by
  induction ds generalizing w with
  | nil => rfl
  | cons d ds ih => exact ih (settle w p d)

theorem sparesLeases_step {s : KeepAlivePoint} (ht : step w p s = some turn) :
    turn.SparesLeases w := by
  cases s with
  | draining =>
    obtain rfl := Option.some.inj ht
    simp only [drain]
    split <;> exact ⟨rfl, rfl⟩
  | pinging waiting pinged todo failure =>
    cases todo with
    | nil =>
      have hrestore : (restore w p pinged failure).SparesLeases w :=
        ⟨leases_foldl_settle pinged w, rfl⟩
      cases waiting <;> exact Option.some.inj ht ▸ hrestore
    | cons d rest =>
      cases waiting with
      | false => exact Option.some.inj ht ▸ ⟨rfl, rfl⟩
      | true => cases ht

theorem leases_pinged (a : SendAnswer) : (w.pinged c a).world.leases = w.leases := by
  cases a with
  | reply r =>
    simp only [World.pinged, World.received]
    repeat' split
    all_goals rfl
  | _ => rfl

theorem sparesLeases_answered {pinged rest : List ClientKey} {failure : Option Fault}
    (a : SendAnswer) : (answered w p pinged c rest failure a).SparesLeases w := by
  simp only [answered]
  split <;> exact ⟨leases_pinged a, rfl⟩

end KeepAlive

namespace Exchange

theorem sparesLeases_answered {command : Text} {ping : Bool} (a : SendAnswer) :
    (answered w c command ping a).SparesLeases w := by
  refine ⟨?_, rfl⟩
  cases ping with
  | true => exact KeepAlive.leases_pinged a
  | false =>
    cases a with
    | reply r =>
      simp only [answered, World.received, Bool.false_eq_true, if_false]
      split <;> rfl
    | _ => rfl

end Exchange

namespace Close

theorem sparesLeases_attend : (attend w p).SparesLeases w := by
  simp only [attend]
  split <;> exact ⟨rfl, rfl⟩

theorem sparesLeases_drain (h : w'.leases = w.leases) : (drain w' p).SparesLeases w := by
  simp only [drain]
  split <;> exact ⟨h, rfl⟩

theorem sparesLeases_step {s : ClosePoint} (ht : step w p s = some turn) :
    turn.SparesLeases w := by
  cases s with
  | entering =>
    obtain rfl := Option.some.inj ht
    simp only [enter]
    split
    · exact sparesLeases_attend
    · have hdrain : (drain (w.onPool p fun pool => { pool with closing := true })
          p).SparesLeases w := sparesLeases_drain rfl
      exact ⟨hdrain.leases, hdrain.point⟩
  | draining woken =>
    cases woken with
    | true => exact Option.some.inj ht ▸ sparesLeases_drain rfl
    | false => cases ht
  | attending woken =>
    cases woken with
    | true => exact Option.some.inj ht ▸ sparesLeases_attend
    | false => cases ht
  | _ => exact Option.some.inj ht ▸ ⟨rfl, rfl⟩

end Close

namespace Farewell

theorem returning_after (next : Afterwards) : (after next).returning = [] := by
  cases next <;> rfl

theorem sparesLeases_step {rite : Rite} {todo : List ClientKey} {next : Afterwards} :
    (step w rite todo next).SparesLeases w := by
  cases todo with
  | nil => exact ⟨rfl, returning_after next⟩
  | cons d rest =>
    simp only [step]
    repeat' split
    all_goals exact ⟨rfl, rfl⟩

theorem sparesLeases_answered {rite : Rite} {rest : List ClientKey} {next : Afterwards}
    (a : DisconnectAnswer) : (answered w rite c rest next a).SparesLeases w := by
  cases a <;> exact ⟨rfl, rfl⟩

end Farewell

namespace Heartbeat

variable {h : HeartbeatKey} {k : CallKey} {ended : CallKey → Bool}

theorem sparesLeases_endRound (o : Outcome) : (endRound w h o).SparesLeases w := by
  simp only [endRound, Heartbeat.rest, Turn.saying]
  repeat' split
  all_goals exact ⟨rfl, rfl⟩

theorem sparesLeases_step {s : HeartbeatPoint} (ht : step w h k ended s = some turn) :
    turn.SparesLeases w := by
  cases s with
  | starting =>
    obtain rfl := Option.some.inj ht
    simp only [start]
    split <;> exact ⟨rfl, rfl⟩
  | restarting old =>
    simp only [step] at ht
    split at ht
    · obtain rfl := Option.some.inj ht
      simp only [restart]
      split <;> exact ⟨rfl, rfl⟩
    · cases ht
  | stopping => exact Option.some.inj ht ▸ ⟨rfl, rfl⟩
  | reaping =>
    simp only [step, reap] at ht
    split at ht
    · exact Option.some.inj ht ▸ ⟨rfl, rfl⟩
    · split at ht
      · exact Option.some.inj ht ▸ ⟨rfl, rfl⟩
      · cases ht
  | resting =>
    simp only [step] at ht
    split at ht
    · exact Option.some.inj ht ▸ ⟨rfl, rfl⟩
    · cases ht

end Heartbeat

/-- Only whoever wants a client, shares one or gives one back changes the references of any. -/
theorem Treatment.references {x : Point} {k : Client} (h : Treatment w c x k)
    (unwanting : ∀ p t leased s, x ≠ .acquire p t leased s)
    (unsharing : ∀ p d leased, x ≠ .addReference p d leased)
    (unreturning : ∀ p d leased, x ≠ .release p d leased) :
    k.references = (w.client c).references := by
  cases h with
  | lent hx => exact absurd hx (unwanting _ _ _ _)
  | enrolled hx => exact absurd hx (unwanting _ _ _ _)
  | shared hx => exact absurd hx (unsharing _ _ _)
  | dropped hx | returned hx | discarded hx => exact absurd hx (unreturning _ _ _)
  | broken => exact Client.breakDown_references _
  | departed rite => cases rite <;> rfl
  | _ => rfl

end Steps

namespace World

variable {w : World} {p : PoolKey} {c : ClientKey} {l : LeaseKey}

theorem issued_own (h : c ∈ w.own p) : w.issued (p, c) = (w.client c).references.toNat :=
  if_pos (mem_own.mp h).2

/-- What is issued is to a client of the pool. -/
theorem mem_own_of_issued {r : Reference} (h : w.issued r ≠ 0) :
    r.2 ∈ w.own r.1 ∧ (w.client r.2).references ≠ 0 := by
  unfold issued at h
  split at h
  · next hhome =>
    refine ⟨mem_own.mpr ⟨?_, hhome⟩, fun hnone => h (by rw [hnone]; rfl)⟩
    by_contra hlt
    simp [client, List.getElem?_eq_none (Nat.le_of_not_lt hlt)] at hhome
    cases hhome
  · exact absurd rfl h

/-- A reference is with a lease, or it is not. -/
theorem count_lease (v : Lease) (r : Reference) :
    v.toList.count r = if v == some r then 1 else 0 := by
  cases v <;> simp [List.count_singleton]

/-- One lease is filled or emptied. -/
theorem count_setLease (hl : l < w.leases.length) (v : Lease) (r : Reference) :
    (w.setLease l v).leases.count (some r) + (w.lease l).toList.count r =
      w.leases.count (some r) + v.toList.count r := by
  have hlease : w.lease l = w.leases[l] := by simp [lease, List.getElem?_eq_getElem hl]
  have hleases : w.leases.count (some r) =
      (w.leases.take l ++ w.leases[l] :: w.leases.drop (l + 1)).count (some r) := by
    rw [← List.drop_eq_getElem_cons hl, List.take_append_drop]
  rw [hleases, hlease, setLease, List.set_eq_take_append_cons_drop, if_pos hl, count_lease,
    count_lease]
  simp only [List.count_append, List.count_cons]
  omega

end World

namespace Machine

variable {m n : Machine} {e : Event} {k : CallKey} {call : Call} {t : Turn} {p : PoolKey}
  {c : ClientKey}

/-- Only a lease that takes over from another, and whoever is handed a client, changes any lease. -/
theorem Takes.sparesLeases (h : m.Takes k call e t)
    (unwanting : ∀ p t leased s, call.point ≠ .acquire p t leased s)
    (unsharing : ∀ p c leased, call.point ≠ .addReference p c leased)
    (untaking : ∀ o target source, call.point = .finished o →
      call.sequel ≠ .takeOver target source) : t.SparesLeases m.world := by
  cases h with
  | step h | overlooked h =>
    obtain ⟨x, sequel, notices⟩ := call
    cases x with
    | stock p left s => exact Stock.sparesLeases_step h
    | acquire p u leased s => exact absurd rfl (unwanting p u leased s)
    | addReference p c leased => exact absurd rfl (unsharing p c leased)
    | release p c leased => exact Option.some.inj h ▸ Release.sparesLeases_step
    | keepAlive p s => exact KeepAlive.sparesLeases_step h
    | close p s => exact Close.sparesLeases_step h
    | exchange c command ping waiting =>
      cases waiting with
      | false => exact Option.some.inj h ▸ ⟨rfl, rfl⟩
      | true => cases h
    | farewell rite waiting todo next =>
      cases waiting with
      | false => exact Option.some.inj h ▸ Farewell.sparesLeases_step
      | true =>
        cases todo with
        | nil => exact Option.some.inj h ▸ Farewell.sparesLeases_step
        | cons d rest => cases h
    | heartbeat b s => exact Heartbeat.sparesLeases_step h
    | finished o =>
      cases sequel with
      | none => cases h
      | takeOver target source => exact absurd rfl (untaking o target source rfl)
      | forgive => exact Option.some.inj h ▸ ⟨rfl, rfl⟩
      | beat b => exact Option.some.inj h ▸ Heartbeat.sparesLeases_endRound o
  | stocked a hpoint => exact ⟨Opening.leases_answered a, rfl⟩
  | opened a hpoint | expired hpoint limited => exact absurd hpoint (unwanting _ _ _ _)
  | pinged a hpoint => exact KeepAlive.sparesLeases_answered a
  | replied a hpoint => exact Exchange.sparesLeases_answered a
  | parted a hpoint => exact Farewell.sparesLeases_answered a
  | beat hpoint wanted => exact ⟨rfl, rfl⟩

/-- Leases are never forgotten. -/
theorem Takes.length_leases (h : m.Takes k call e t) :
    m.world.leases.length ≤ t.world.leases.length := by
  by_cases hwants : ∃ p u leased s, call.point = .acquire p u leased s
  · obtain ⟨p, u, leased, s, hx⟩ := hwants
    obtain ⟨x, sequel, notices⟩ := call
    obtain rfl : x = .acquire p u leased s := hx
    cases h with
    | step h =>
      rcases Acquire.handsOver_or_leaves h with ⟨d, hands⟩ | leaves
      · rw [hands.leases]
        cases leased <;> simp [World.handOver, World.addLease]
      · rw [leaves.leases]
    | overlooked ht hpoint => cases hpoint
    | opened a hpoint => rw [show (Acquire.answered _ _ _ _ a).world.leases = _ from
        Opening.leases_answered a]
    | expired hpoint limited => exact Nat.le_refl _
    | stocked a hpoint | pinged a hpoint | replied a hpoint | parted a hpoint => cases hpoint
    | beat hpoint wanted => cases hpoint
  by_cases hshares : ∃ p c leased, call.point = .addReference p c leased
  · obtain ⟨p, c, leased, hx⟩ := hshares
    obtain ⟨-, rfl⟩ := h.of_addReference hx
    simp only [Share.step]
    repeat' split
    all_goals
      cases leased <;> simp [Turn.finish, Turn.lend, Turn.saying, World.handOver, World.addLease,
        World.onClient]
  by_cases htakes : ∃ o target source, call.point = .finished o ∧
      call.sequel = .takeOver target source
  · obtain ⟨o, target, source, hx, hs⟩ := htakes
    obtain ⟨-, ht⟩ := h.turn_eq (by rw [hx]; rfl) (by rw [hx]; rfl) (by simp [hx])
    simp only [turn, hx, hs, conclude, Option.some.injEq] at ht
    rw [← ht]
    simp [World.setLease]
  push Not at hwants hshares htakes
  rw [(h.sparesLeases hwants hshares htakes).leases]

/-! ## References after an event -/

/-- References are issued anew only to clients that were there before. -/
theorem issued_perform_of_lt (hn : m.perform e = some n) (r : Reference)
    (h : r.2 < m.world.clients.length →
      (n.world.client r.2).references = (m.world.client r.2).references) :
    n.world.issued r = m.world.issued r := by
  by_cases hlt : r.2 < m.world.clients.length
  · unfold World.issued
    rw [(happens hn).home hlt, h hlt]
  · have hbefore : m.world.issued r = 0 := by
      by_contra hissued
      exact hlt (World.mem_own.mp (World.mem_own_of_issued hissued).1).1
    have hafter : n.world.issued r = 0 := by
      by_contra hissued
      obtain ⟨hown, hrefs⟩ := World.mem_own_of_issued hissued
      obtain ⟨id, home, connected, hclient⟩ :=
        made_perform hn (not_lt.mp hlt) (World.mem_own.mp hown).1
      exact hrefs (by rw [hclient])
    rw [hbefore, hafter]

/-- If references to one client of a pool are issued or taken back in an event, no others are. -/
theorem Sound.issued_perform (hm : m.Sound) (hn : m.perform e = some n) (hown : c ∈ m.world.own p)
    (others : ∀ d < m.world.clients.length, d ≠ c →
      (n.world.client d).references = (m.world.client d).references) {i j : ℕ}
    (h : (n.world.client c).references.toNat + i = (m.world.client c).references.toNat + j)
    (r : Reference) :
    n.world.issued r + i * [(p, c)].count r = m.world.issued r + j * [(p, c)].count r := by
  by_cases hr : r = (p, c)
  · subst hr
    rw [World.issued_own hown, World.issued_own (hm.mem_own_perform hn hown),
      List.count_singleton_self, Nat.mul_one, Nat.mul_one]
    exact h
  · have hnone : [(p, c)].count r = 0 := List.count_eq_zero.mpr (by simpa using hr)
    rw [hnone, Nat.mul_zero, Nat.mul_zero]
    by_cases hc : r.2 = c
    · obtain ⟨hlt, hhome⟩ := World.mem_own.mp hown
      have hne : (m.world.client r.2).home ≠ some r.1 := by
        rw [hc, hhome]
        rintro ⟨⟩
        exact hr (Prod.ext rfl hc)
      have hne' : (n.world.client r.2).home ≠ some r.1 := by
        rwa [(happens hn).home (hc ▸ hlt)]
      unfold World.issued
      rw [if_neg hne, if_neg hne']
    · rw [issued_perform_of_lt hn r fun hlt => others r.2 hlt hc]

/-! ## Every turn -/

/-- A turn that has to do with no reference. -/
theorem conserves_of_spares (h : t.SparesLeases m.world) (hn : m.perform e = some n)
    (hworld : n.world = t.world) (unreturning : call.point.returning = [])
    (unhanded : call.point.handed t.point = []) (kept : m.world.overwritten call = [])
    (same : ∀ d < m.world.clients.length,
      (n.world.client d).references = (m.world.client d).references) :
    Conserves m.world call n.world t.point := by
  intro r
  rw [unreturning, unhanded, kept, h.point, issued_perform_of_lt hn r (same r.2), hworld, h.leases]
  simp

/-- A turn in which a client is handed over, to which there is one reference more then. -/
theorem conserves_of_handsOver {leased : Bool} (h : Acquire.HandsOver m.world p c leased t)
    (hm : m.Sound) (hn : m.perform e = some n) (hworld : n.world = t.world)
    (hown : c ∈ m.world.own p)
    (hx : (∃ u s, call.point = .acquire p u leased s) ∨ call.point = .addReference p c leased)
    (more : (n.world.client c).references.toNat = (m.world.client c).references.toNat + 1)
    (others : ∀ d < m.world.clients.length, d ≠ c →
      (n.world.client d).references = (m.world.client d).references) :
    Conserves m.world call n.world t.point := by
  intro r
  have hissued := hm.issued_perform (i := 0) (j := 1) hn hown others more r
  have hplaced : n.world.leases.count (some r) + (call.point.handed t.point).count r =
      m.world.leases.count (some r) + [(p, c)].count r := by
    rw [hworld, h.leases, h.point]
    rcases hx with ⟨u, s, hx⟩ | hx
    all_goals
      rw [hx]
      cases leased <;> simp [World.handOver, World.addLease, Point.handed, List.count_singleton]
  have hkept : m.world.overwritten call = [] := by
    rcases hx with ⟨u, s, hx⟩ | hx
    all_goals simp [World.overwritten, hx]
  have hunreturning : call.point.returning = [] := by
    rcases hx with ⟨u, s, hx⟩ | hx
    all_goals rw [hx]; rfl
  have hkept' : t.point.returning = [] := by
    rw [h.point]
    rfl
  rw [hkept, hunreturning, hkept']
  simp only [List.count_nil]
  omega

/-- A turn of a caller who wants a client. -/
theorem Reachable.conserves_acquire (hm : m.Reachable) (hk : m.call? k = some call)
    (takes : m.Takes k call e t) (hn : m.perform e = some n) (hworld : n.world = t.world)
    {u : Patience} {leased : Bool} {s : AcquirePoint} (hx : call.point = .acquire p u leased s) :
    Conserves m.world call n.world t.point := by
  have hx' := hx
  obtain ⟨x, sequel, notices⟩ := call
  obtain rfl : x = .acquire p u leased s := hx
  cases takes with
  | step ht =>
    rcases Acquire.handsOver_or_leaves ht with ⟨d, hands⟩ | leaves
    · have hhand := hand_of_yields hk hx' ht hands.yields
      have hown : d ∈ m.world.own p := hm.sound.mem_own_of_hand hhand
      have hnone : (m.world.client d).references = 0 :=
        hhand.elim (fun hi => (hm.sound.of_mem_idle hi).2.1) hm.sound.unreferenced_of_arrived
      have hclient : ∀ d', n.world.client d' = (m.world.onClient d Client.lend).client d' := by
        intro d'
        simp only [hworld, World.client, (Acquire.lent_of_yields ht hands.yields).2]
      refine conserves_of_handsOver hands hm.sound hn hworld hown (.inl ⟨u, s, rfl⟩) ?_ ?_
      · rw [hclient, World.client_onClient _ (World.mem_own.mp hown).1, hnone]
        rfl
      · intro d' _ hd'
        rw [hclient, World.client_onClient_of_ne _ hd']
    · have hclient : ∀ d, n.world.client d = m.world.client d := by
        intro d
        simp only [hworld, World.client, leaves.clients]
      exact conserves_of_spares ⟨leaves.leases, Acquire.returning_step ht⟩ hn hworld rfl
        (Point.handed_of_unserved leaves.unserved) rfl fun d _ => by rw [hclient]
  | overlooked ht hpoint => cases hpoint
  | opened a hpoint =>
    refine conserves_of_spares ⟨Opening.leases_answered a, rfl⟩ hn hworld rfl
      (Point.handed_of_unserved (by rintro _ ⟨⟩)) rfl fun d hd => ?_
    rw [hworld]
    exact congrArg Client.references (Opening.client_answered hd a)
  | expired hpoint limited =>
    exact conserves_of_spares ⟨rfl, rfl⟩ hn hworld rfl
      (Point.handed_of_unserved (by rintro _ ⟨⟩)) rfl fun d _ => by rw [hworld]; rfl
  | stocked a hpoint | pinged a hpoint | replied a hpoint | parted a hpoint => cases hpoint
  | beat hpoint wanted => cases hpoint

/-- A turn in which a reference is to be added. -/
theorem Reachable.conserves_share (hm : m.Reachable) (hk : m.call? k = some call)
    (takes : m.Takes k call e t) (hn : m.perform e = some n) (hworld : n.world = t.world)
    {leased : Bool} (hx : call.point = .addReference p c leased)
    (countable : m.mishap? e ≠ some (.overflow c)) :
    Conserves m.world call n.world t.point := by
  have hkept : m.world.overwritten call = [] := by simp [World.overwritten, hx]
  have hunreturning : call.point.returning = [] := by rw [hx]; rfl
  obtain ⟨⟨pick, rfl⟩, rfl⟩ := takes.of_addReference hx
  by_cases h : m.world.Shareable p c
  · have hlt : c < m.world.clients.length := hm.sound.lt_length_of_mem h.1
    have hcountable : (m.world.client c).references ≠ Client.mostReferences := by
      intro hfull
      refine countable ?_
      simp [mishap?, hk, hx, h.1, hfull]
    have hstep : Share.step m.world p c leased = (Turn.lend (m.world.shared c) p c leased).saying
        [.referenceAdded (m.world.client c).id ((m.world.client c).references + 1)] :=
      Share.step_of_lent h hcountable
    have hclient : ∀ d, n.world.client d = (m.world.shared c).client d := by
      intro d
      have hclients : n.world.clients = (m.world.shared c).clients := by
        rw [hworld, hstep]
        exact Acquire.clients_lend
      simp only [World.client, hclients]
    have hlend : Acquire.HandsOver m.world p c leased
        (Turn.lend (m.world.shared c) p c leased) := .lend rfl
    have hands : Acquire.HandsOver m.world p c leased (Share.step m.world p c leased) := by
      rw [hstep]
      exact ⟨hlend.leases, hlend.point⟩
    refine conserves_of_handsOver hands hm.sound hn hworld
      ((hm.sound.seated p).mem_own_of_mem h.1) (.inr hx) ?_ ?_
    · rw [hclient, World.shared, World.client_onClient _ hlt]
      exact toNat_succ hcountable
    · intro d _ hd
      rw [hclient, World.shared, World.client_onClient_of_ne _ hd]
  · obtain ⟨f, -, hf⟩ := Share.step_of_not_lent leased h
    refine conserves_of_spares ⟨by rw [hf]; rfl, by rw [hf]; rfl⟩ hn hworld hunreturning ?_ hkept ?_
    · exact Point.handed_of_unserved (by rw [hf]; rintro _ ⟨⟩)
    · intro d _
      rw [hworld, hf]
      rfl

/-- A turn in which a reference is given back that is out. -/
theorem Reachable.conserves_release (hm : m.Reachable) (takes : m.Takes k call e t)
    (hn : m.perform e = some n) (hworld : n.world = t.world) {leased : Bool}
    (hx : call.point = .release p c leased) (out : m.world.Releasable p c) :
    Conserves m.world call n.world t.point := by
  have hkept : m.world.overwritten call = [] := by simp [World.overwritten, hx]
  have hown : c ∈ m.world.own p := (hm.sound.seated p).mem_own_of_mem out.1
  have hlt : c < m.world.clients.length := (World.mem_own.mp hown).1
  have others : ∀ d < m.world.clients.length, d ≠ c →
      (n.world.client d).references = (m.world.client d).references := by
    intro d hd hne
    rw [hworld]
    have htreatment := takes.treatment hd
    rw [hx] at htreatment
    generalize t.world.client d = client at htreatment
    cases htreatment with
    | lent hx' | enrolled hx' | shared hx' => cases hx'
    | dropped hx' | returned hx' | discarded hx' =>
      cases hx'
      exact absurd rfl hne
    | broken => exact Client.breakDown_references _
    | departed rite => cases rite <;> rfl
    | _ => rfl
  obtain rfl := takes.of_release hx
  have hspares := Release.sparesLeases_step (w := m.world) (p := p) (c := c)
  have hissued := hm.sound.issued_perform (i := 1) (j := 0) hn hown others
    (by rw [hworld]; exact Release.references_step hlt out)
  intro r
  rw [hkept, hspares.point, hworld, hspares.leases, ← hworld]
  have hr := hissued r
  have hunhanded : call.point.handed (Release.step m.world p c).point = [] := by
    rw [hx]
    rfl
  rw [hunhanded, hx]
  simp only [Point.returning, List.count_nil]
  omega

/-- A turn in which a lease takes over from another. -/
theorem conserves_takeOver (takes : m.Takes k call e t) (hn : m.perform e = some n)
    (hworld : n.world = t.world) {o : Outcome} {target source : LeaseKey}
    (hx : call.point = .finished o) (hs : call.sequel = .takeOver target source)
    (htarget : target < m.world.leases.length) (hsource : source < m.world.leases.length)
    (hne : target ≠ source) : Conserves m.world call n.world t.point := by
  obtain ⟨x, sequel, notices⟩ := call
  obtain rfl : x = .finished o := hx
  obtain rfl : sequel = .takeOver target source := hs
  cases takes with
  | step ht =>
    obtain rfl := Option.some.inj ht
    set w := m.world.setLease target (m.world.lease source) with hw
    have hkept : w.lease source = m.world.lease source := by
      simp [hw, World.lease, World.setLease, hne]
    have hlength : w.leases.length = m.world.leases.length := by simp [hw, World.setLease]
    intro r
    have hfirst := World.count_setLease htarget (m.world.lease source) r
    have hsecond := World.count_setLease (hlength ▸ hsource) none r
    have hsame : n.world.issued r = m.world.issued r :=
      issued_perform_of_lt hn r fun _ => by rw [hworld]; rfl
    have hlost : m.world.overwritten ⟨.finished o, .takeOver target source, notices⟩ =
        (m.world.lease target).toList := rfl
    rw [hsame, hlost, hworld]
    rw [← hw] at hfirst
    rw [hkept] at hsecond
    show (w.setLease source none).leases.count (some r) + _ + _ + _ + _ = _
    simp only [Point.returning, Point.handed, List.count_nil, Option.toList_none] at *
    omega
  | _ => simp_all

/-- Every turn conserves references, as long as none is given back that is not out, no count of
references wraps around, and a lease takes over from another one only. -/
theorem Reachable.conserves (hm : m.Reachable) (hk : m.call? k = some call)
    (takes : m.Takes k call e t) (hn : m.perform e = some n) (hworld : n.world = t.world)
    (countable : ∀ c, m.mishap? e ≠ some (.overflow c))
    (out : ∀ p c leased, call.point = .release p c leased → m.world.Releasable p c)
    (apart : ∀ target source, call.sequel = .takeOver target source →
      target < m.world.leases.length ∧ source < m.world.leases.length ∧ target ≠ source) :
    Conserves m.world call n.world t.point := by
  by_cases hwants : ∃ p u leased s, call.point = .acquire p u leased s
  · obtain ⟨p, u, leased, s, hx⟩ := hwants
    exact hm.conserves_acquire hk takes hn hworld hx
  by_cases hshares : ∃ p c leased, call.point = .addReference p c leased
  · obtain ⟨p, c, leased, hx⟩ := hshares
    exact hm.conserves_share hk takes hn hworld hx (countable c)
  by_cases hreturns : ∃ p c leased, call.point = .release p c leased
  · obtain ⟨p, c, leased, hx⟩ := hreturns
    exact hm.conserves_release takes hn hworld hx (out p c leased hx)
  by_cases htakes : ∃ o target source, call.point = .finished o ∧
      call.sequel = .takeOver target source
  · obtain ⟨o, target, source, hx, hs⟩ := htakes
    obtain ⟨htarget, hsource, hne⟩ := apart target source hs
    exact conserves_takeOver takes hn hworld hx hs htarget hsource hne
  push Not at hwants hshares hreturns htakes
  refine conserves_of_spares (takes.sparesLeases hwants hshares htakes) hn hworld ?_ ?_ ?_ ?_
  · unfold Point.returning
    split
    · next hx => exact absurd hx (hreturns _ _ _)
    · rfl
  · unfold Point.handed
    split
    · next hx _ => exact absurd hx (hwants _ _ _ _)
    · next hx _ => exact absurd hx (hshares _ _ _)
    · rfl
  · unfold World.overwritten
    split
    · next hx hs => exact absurd hs (htakes _ _ _ hx)
    · rfl
  · intro d hd
    rw [hworld]
    exact (takes.treatment hd).references hwants hshares hreturns

end Machine
end SessionPool
