import SessionPool.Proofs.Course
import SessionPool.Proofs.Transfers

/-!
# Who has the references

Every reference that a pool has issued and not taken back is with somebody.  For those with leases
one has only to look at the leases.  What callers have who asked for a client without a lease is
written nowhere, so a ledger is kept of it in the course of a run: of the references that callers
were handed and have not begun to give back.  The same ledger says which references were lost,
because a lease took over from another while it held one itself.

Whoever gives a reference back without a lease has to hold one.  A run in which everybody does is
booked (`Machine.booked`), and nothing else is asked of it: leases are moved, assigned, shared and
given back in any order and by any number of calls at once.

* `Machine.exists_booked`: a run is booked in which everybody has leases.
* `Machine.Balanced`: all references together are as many as have been issued.
* `Machine.balanced`: they are in every run that is booked.
-/

namespace SessionPool

/-! ## The ledger -/

/-- The references that are with nobody's lease: those that callers hold themselves, and those that
are lost. -/
structure Ledger where
  raw : List Reference := []
  lost : List Reference := []
  deriving DecidableEq

namespace Ledger

/-- Whoever gives a reference back without a lease holds it. -/
def permits (b : Ledger) : Event → Bool
  | .begin (.release p c) => (p, c) ∈ b.raw
  | _ => true

/-- What an event that leads from `m` to `n` makes of the ledger. -/
def post (b : Ledger) (m : Machine) (e : Event) (n : Machine) : Ledger :=
  match e with
  | .begin (.release p c) => { b with raw := b.raw.erase (p, c) }
  | .advance k _ =>
    match m.call? k, n.call? k with
    | some call, some call' =>
      { raw := call.point.handed call'.point ++ b.raw
        lost := m.world.overwritten call ++ b.lost }
    | _, _ => b
  | _ => b

end Ledger

namespace Machine

/-- Carries out an event and keeps the ledger. -/
def performBooked (s : Machine × Ledger) (e : Event) : Option (Machine × Ledger) :=
  if s.2.permits e then (s.1.perform e).map fun n => (n, s.2.post s.1 e n) else none

/-- Carries out events one after the other and keeps the ledger, if everybody who gives a reference
back without a lease holds it. -/
def booked (es : List Event) : Option (Machine × Ledger) := es.foldlM performBooked ({}, {})

/-- How many calls are about to give this reference back; if it is `leased`, one that a lease
held. -/
def returning (m : Machine) (leased : Bool) (r : Reference) : ℕ :=
  m.calls.countP fun k => k.point = .release r.1 r.2 leased

/-- How many leases hold this reference.  A lease counts until its reference has been dropped. -/
def bound (m : Machine) (r : Reference) : ℕ :=
  m.world.leases.count (some r) + m.returning true r

/-- How many references are with callers who have these at hand.  One that is given back counts
until it has been dropped. -/
def outstanding (m : Machine) (raw : List Reference) (r : Reference) : ℕ :=
  raw.count r + m.returning false r

variable {m n : Machine} {b b' : Ledger} {e : Event} {k j : CallKey} {call call' : Call} {t : Turn}
  {p : PoolKey} {c : ClientKey} {es : List Event} {r : Reference}

theorem performBooked_eq_some_iff {s : Machine × Ledger} :
    performBooked (m, b) e = some s ↔
      b.permits e = true ∧ ∃ n, m.perform e = some n ∧ s = (n, b.post m e n) := by
  unfold performBooked
  by_cases h : b.permits e = true
  · simp [h, eq_comm]
  · simp [h]

/-- What holds at the beginning and is kept by every event that is booked holds of every run that
is booked. -/
theorem booked_induct {P : List Event → Machine → Ledger → Prop} (empty : P [] {} {})
    (keeps : ∀ es m b e n, booked es = some (m, b) → P es m b →
      b.permits e = true → m.perform e = some n → P (es ++ [e]) n (b.post m e n))
    (h : booked es = some (m, b)) : P es m b := by
  unfold booked at keeps h
  induction es using List.reverseRecOn generalizing m b with
  | nil =>
    rw [List.foldlM_nil, Option.pure_def, Option.some.injEq] at h
    cases h
    exact empty
  | append_singleton es e ih =>
    rw [List.foldlM_append, Option.bind_eq_bind, Option.bind_eq_some_iff] at h
    obtain ⟨⟨l, b'⟩, hl, hn⟩ := h
    rw [List.foldlM_cons, Option.bind_eq_bind, Option.bind_eq_some_iff] at hn
    obtain ⟨s, hs, heq⟩ := hn
    rw [List.foldlM_nil, Option.pure_def, Option.some.injEq] at heq
    obtain ⟨hpermits, l', hl', rfl⟩ := performBooked_eq_some_iff.mp hs
    cases heq
    exact keeps es l b' e _ hl (ih hl) hpermits hl'

/-- A run that is booked is a run. -/
theorem run_of_booked (h : booked es = some (m, b)) : run {} es = some m :=
  booked_induct (P := fun es m _ => run {} es = some m) rfl
    (fun _ _ _ _ _ _ hm _ hn => run_snoc_iff.mpr ⟨_, hm, hn⟩) h

theorem booked_snoc (h : booked es = some (m, b)) (hb : b.permits e = true)
    (hn : m.perform e = some n) : booked (es ++ [e]) = some (n, b.post m e n) := by
  have hlast : performBooked (m, b) e = some (n, b.post m e n) :=
    performBooked_eq_some_iff.mpr ⟨hb, n, hn, rfl⟩
  unfold booked at h ⊢
  rw [List.foldlM_append, h, Option.bind_eq_bind, Option.bind_some, List.foldlM_cons, hlast]
  rfl

/-- A run in which nobody gives a reference back without a lease is booked. -/
theorem exists_booked (h : run {} es = some m) (leased : ∀ p c, .begin (.release p c) ∉ es) :
    ∃ b, booked es = some (m, b) := by
  refine history_induct (P := fun es m => (∀ p c, .begin (.release p c) ∉ es) →
    ∃ b, booked es = some (m, b)) (fun _ => ⟨{}, rfl⟩) ?_ h leased
  intro es m e n _ ih hn hleased
  obtain ⟨b, hb⟩ := ih fun p c hmem => hleased p c (List.mem_append_left _ hmem)
  refine ⟨_, booked_snoc hb ?_ hn⟩
  unfold Ledger.permits
  split
  · exact absurd (List.mem_append_right _ List.mem_cons_self) (hleased _ _)
  · rfl

/-- What is lost stays lost. -/
theorem exists_lost_append (b : Ledger) (m : Machine) (e : Event) (n : Machine) :
    ∃ lost, (b.post m e n).lost = lost ++ b.lost := by
  unfold Ledger.post
  split
  · exact ⟨[], rfl⟩
  · split
    · exact ⟨_, rfl⟩
    · exact ⟨[], rfl⟩
  · exact ⟨[], rfl⟩

/-! ## References on their way back -/

theorem returning_of_wakes {x y : Point} (h : x.Wakes y) : y.returning = x.returning := by
  cases h <;> rfl

/-- The references that calls are about to give back, whoever held them. -/
def onWay (calls : List Call) : List Reference := calls.flatMap fun k => k.point.returning

theorem onWay_append (calls more : List Call) : onWay (calls ++ more) = onWay calls ++ onWay more :=
  List.flatMap_append

theorem onWay_cons (k : Call) (calls : List Call) :
    onWay (k :: calls) = k.point.returning ++ onWay calls := List.flatMap_cons

theorem mem_onWay (hk : call ∈ m.calls) (hr : r ∈ call.point.returning) : r ∈ onWay m.calls :=
  List.mem_flatMap.mpr ⟨call, hk, hr⟩

/-- They were held by leases or by callers. -/
theorem count_onWay (m : Machine) (r : Reference) :
    (onWay m.calls).count r = m.returning true r + m.returning false r := by
  unfold returning
  induction m.calls with
  | nil => rfl
  | cons k calls ih =>
    have hk : k.point.returning.count r =
        (if k.point = .release r.1 r.2 true then 1 else 0) +
          if k.point = .release r.1 r.2 false then 1 else 0 := by
      obtain ⟨p, c⟩ := r
      cases k.point with
      | release q d leased =>
        cases leased <;> simp [Point.returning, List.count_singleton]
      | _ => simp [Point.returning]
    simp only [onWay_cons, List.count_append, List.countP_cons, decide_eq_true_eq]
    omega

/-- Wake-ups send nothing back. -/
theorem onWay_foldl_signal (pick : ℕ) (signals : List Signal) (calls : List Call) :
    onWay (signals.foldl (signal pick) calls) = onWay calls := by
  induction signals generalizing calls with
  | nil => rfl
  | cons s signals ih =>
    rw [List.foldl_cons, ih]
    have hwakes := forall₂_signal pick calls s
    generalize signal pick calls s = woken at hwakes
    induction hwakes with
    | nil => rfl
    | cons hw _ ih => rw [onWay_cons, onWay_cons, ih, returning_of_wakes hw]

/-- When one call changes, so does what it is about to give back. -/
theorem count_onWay_modify {calls : List Call} {f : Call → Call} (hk : calls[k]? = some call)
    (r : Reference) : (onWay (calls.modify k f)).count r + call.point.returning.count r =
      (onWay calls).count r + (f call).point.returning.count r := by
  obtain ⟨hlt, rfl⟩ := List.getElem?_eq_some_iff.mp hk
  have hcalls : onWay calls = onWay (calls.take k ++ calls[k] :: calls.drop (k + 1)) := by
    rw [← List.drop_eq_getElem_cons hlt, List.take_append_drop]
  rw [hcalls, List.modify_eq_take_cons_drop hlt]
  simp only [onWay_append, onWay_cons, List.count_append]
  omega

/-- A turn exchanges what its call is about to give back. -/
theorem count_onWay_apply (hk : m.call? k = some call) (takes : m.Takes k call e t) (pick : ℕ)
    (s : Sequel) (r : Reference) :
    (onWay (apply { m with calls := m.calls.modify k fun c => { c with sequel := s } } k pick
        t).calls).count r + call.point.returning.count r =
      (onWay m.calls).count r + t.point.returning.count r := by
  have hstarted : onWay (t.started.toList.map fun x => { point := x }) = [] := by
    rcases takes.started_eq with hnone | ⟨b, hsome⟩
    · rw [hnone]
      rfl
    · rw [hsome]
      rfl
  rw [calls_apply, onWay_append, hstarted, onWay_foldl_signal, List.append_nil]
  exact count_onWay_modify hk r

/-! ## The balance -/

/-- The ledger balances: every reference that has been issued is with a lease, with a caller, on its
way back, or lost.  And whoever takes over from a lease is another lease. -/
structure Balanced (m : Machine) (b : Ledger) : Prop where
  issued : ∀ r, m.world.leases.count (some r) + (onWay m.calls).count r + b.raw.count r +
    b.lost.count r = m.world.issued r
  apart : ∀ call ∈ m.calls, ∀ target source, call.sequel = .takeOver target source →
    target < m.world.leases.length ∧ source < m.world.leases.length ∧ target ≠ source

/-- Whatever has been issued can be given back. -/
theorem Reachable.releasable_of_issued (hm : m.Reachable) (h : m.world.issued (p, c) ≠ 0) :
    m.world.Releasable p c := by
  obtain ⟨hown, hrefs⟩ := World.mem_own_of_issued h
  exact hm.releasable hown hrefs

/-- A reference that is on its way back is out. -/
theorem Balanced.releasable (h : m.Balanced b) (hm : m.Reachable) (hk : call ∈ m.calls)
    {leased : Bool} (hx : call.point = .release p c leased) : m.world.Releasable p c := by
  have hpos : 0 < (onWay m.calls).count (p, c) :=
    List.count_pos_iff.mpr (mem_onWay hk (by rw [hx]; exact List.mem_singleton.mpr rfl))
  have hissued := h.issued (p, c)
  exact hm.releasable_of_issued (by omega)

/-- What the ledger makes of a turn. -/
theorem post_of_takes (hk : m.call? k = some call) (takes : m.Takes k call e t)
    (hk' : n.call? k = some call') (hw : t.point.Wakes call'.point) : b.post m e n =
      { raw := call.point.handed t.point ++ b.raw
        lost := m.world.overwritten call ++ b.lost } := by
  have hhanded : call.point.handed call'.point = call.point.handed t.point := by
    generalize t.point = y, call'.point = y' at hw
    cases hw with
    | refl => rfl
    | _ => rw [Point.handed_of_unserved (by rintro _ ⟨⟩), Point.handed_of_unserved (by rintro _ ⟨⟩)]
  have hnothing : call.point.handed t.point = [] → m.world.overwritten call = [] →
      b = { raw := call.point.handed t.point ++ b.raw,
            lost := m.world.overwritten call ++ b.lost } := by
    intro hunhanded hkept
    rw [hunhanded, hkept]
    rfl
  cases takes with
  | step ht => simp only [Ledger.post, hk, hk', hhanded]
  | opened a hpoint | expired hpoint limited =>
    exact hnothing (Point.handed_of_unserved (by rintro _ ⟨⟩)) (by simp [World.overwritten, hpoint])
  | overlooked ht hpoint | stocked a hpoint | pinged a hpoint | replied a hpoint | parted a hpoint
  | beat hpoint wanted =>
    exact hnothing (by simp [Point.handed, hpoint]) (by simp [World.overwritten, hpoint])

/-- A turn keeps the balance. -/
theorem Balanced.turn (h : m.Balanced b) (hm : m.Reachable) (hk : m.call? k = some call)
    (takes : m.Takes k call e t) (pick : ℕ) (s : Sequel)
    (hn : m.perform e = some n)
    (happly : n = apply { m with calls := m.calls.modify k fun c => { c with sequel := s } } k pick
      t) (countable : ∀ c, m.mishap? e ≠ some (.overflow c)) (r : Reference) :
    n.world.leases.count (some r) + (onWay n.calls).count r + (b.post m e n).raw.count r +
      (b.post m e n).lost.count r = n.world.issued r := by
  have hmem := List.mem_of_getElem? hk
  have hworld : n.world = t.world := by rw [happly]; rfl
  have hconserves := hm.conserves hk takes hn hworld countable
    (fun p c leased hx => h.releasable hm hmem hx) (h.apart call hmem) r
  have hway := count_onWay_apply hk takes pick s r
  rw [← happly] at hway
  obtain ⟨call', hk', hw, -⟩ := exists_call_apply k t s pick hk
  rw [← happly] at hk'
  rw [if_pos rfl] at hw
  rw [post_of_takes hk takes hk' hw]
  have hissued := h.issued r
  simp only [List.count_append]
  omega

/-- A lease that gives its reference back sends it on its way. -/
theorem count_giveUp {w : World} {l : LeaseKey} (hl : l < w.leases.length) (s : Sequel)
    (r : Reference) : (Operation.giveUp w l s).world.leases.count (some r) +
      (Operation.giveUp w l s).point.returning.count r = w.leases.count (some r) := by
  unfold Operation.giveUp
  split
  · rfl
  · next p c hlease =>
    have hcount := World.count_setLease hl none r
    rw [hlease] at hcount
    exact hcount

/-- A call that begins sends a reference on its way that a lease or a caller held, or none. -/
theorem count_enter {o : Operation} (permits : m.permits o = true)
    (hb : b.permits (.begin o) = true) (r : Reference) :
    (o.enter m.world).world.leases.count (some r) + (o.enter m.world).point.returning.count r +
        (b.post m (.begin o) n).raw.count r =
      m.world.leases.count (some r) + b.raw.count r := by
  cases o with
  | construct connection limits factory dialect =>
    simp only [Operation.enter, Operation.make]
    repeat' split
    all_goals rfl
  | release p c =>
    have hmem : (p, c) ∈ b.raw := of_decide_eq_true hb
    have hcount : b.raw.count r = ((p, c) :: b.raw.erase (p, c)).count r :=
      (List.perm_cons_erase hmem).count_eq r
    rw [hcount, List.count_cons]
    simp only [Operation.enter, Point.returning, Ledger.post, List.count_singleton]
    omega
  | shareLease l =>
    simp only [Operation.enter]
    split <;> rfl
  | releaseLease l | dropLease l =>
    exact congrArg (· + b.raw.count r) (count_giveUp (of_decide_eq_true permits) _ r)
  | assignLease target source =>
    simp only [Operation.enter]
    split
    · rfl
    · refine congrArg (· + b.raw.count r) (count_giveUp ?_ _ r)
      simp only [Machine.permits, Bool.and_eq_true, decide_eq_true_eq] at permits
      exact permits.1
  | _ => rfl

/-- What happens to the shared state alone leaves all references where they are. -/
theorem Befalls.count_leases {w : World} (h : m.Befalls e w) (r : Reference) :
    w.leases.count (some r) = m.world.leases.count (some r) := by
  cases h with
  | newLease => simp [World.addLease]
  | @moveLease l hl =>
    have hlength : l < (m.world.addLease (m.world.lease l)).leases.length := by
      rw [World.addLease, List.length_append]
      exact Nat.lt_add_right 1 hl
    have hsame : (m.world.addLease (m.world.lease l)).lease l = m.world.lease l := by
      simp [World.addLease, World.lease, List.getElem?_append_left hl]
    have hcount := World.count_setLease hlength none r
    have hnew : (m.world.addLease (m.world.lease l)).leases.count (some r) =
        m.world.leases.count (some r) + (m.world.lease l).toList.count r := by
      rw [World.count_lease, World.addLease, List.count_append, List.count_singleton]
    rw [hsame, hnew] at hcount
    exact Nat.add_right_cancel hcount
  | _ => rfl

/-- What no call has a part in issues no reference and takes none back. -/
theorem Befalls.issued {w : World} (h : m.Befalls e w)
    (hn : m.perform e = some { m with world := w }) (r : Reference) :
    w.issued r = m.world.issued r := by
  by_cases hlt : r.2 < m.world.clients.length
  · rcases h.client hlt with hw | ⟨-, hw⟩ | ⟨connected, -, hw⟩ | ⟨s, -, hw⟩ | ⟨hand, count, hw⟩
    · simp only [World.issued, hw]
    · simp only [World.issued, hw, Client.breakDown_home, Client.breakDown_references]
    · simp only [World.issued, hw]
    · simp only [World.issued, hw]
    · simp [World.issued, hw, World.home_of_handmade hand]
  · exact issued_perform_of_lt hn r fun hlt' => absurd hlt' hlt

theorem issued_begin (m : Machine) (o : Operation) (r : Reference) :
    (m.begin o).world.issued r = m.world.issued r := by
  simp only [World.issued, client_begin]

theorem onWay_begin (m : Machine) (o : Operation) :
    onWay (m.begin o).calls = onWay m.calls ++ (o.enter m.world).point.returning := by
  simp [Machine.begin, onWay]

/-- Every event keeps the balance. -/
theorem Balanced.issued_perform (h : m.Balanced b) (hm : m.Reachable) (hb : b.permits e = true)
    (hn : m.perform e = some n) (countable : ∀ c, m.mishap? e ≠ some (.overflow c))
    (r : Reference) : n.world.leases.count (some r) + (onWay n.calls).count r +
      (b.post m e n).raw.count r + (b.post m e n).lost.count r = n.world.issued r := by
  have hissued := h.issued r
  cases happens hn with
  | turn pick s hk takes sequel => exact h.turn hm hk takes pick s hn rfl countable r
  | @enter o permits =>
    have hlost : (b.post m (.begin o) (m.begin o)).lost = b.lost := by cases o <;> rfl
    have henter := count_enter (n := m.begin o) permits hb r
    rw [issued_begin, onWay_begin, hlost, List.count_append]
    show (o.enter m.world).world.leases.count (some r) + _ + _ + _ = _
    omega
  | @aside _ w befalls =>
    have hpost : b.post m e { m with world := w } = b := by cases befalls <;> rfl
    rw [hpost, befalls.issued hn, ← hissued]
    show w.leases.count (some r) + _ + _ + _ = _
    rw [befalls.count_leases]

/-! ## Taking over -/

theorem length_leases_giveUp (w : World) (l : LeaseKey) (s : Sequel) :
    (Operation.giveUp w l s).world.leases.length = w.leases.length := by
  unfold Operation.giveUp
  split
  · rfl
  · exact List.length_set

theorem length_leases_enter (w : World) (o : Operation) :
    (o.enter w).world.leases.length = w.leases.length := by
  cases o with
  | construct connection limits factory dialect =>
    simp only [Operation.enter, Operation.make]
    repeat' split
    all_goals rfl
  | shareLease l =>
    simp only [Operation.enter]
    split <;> rfl
  | releaseLease l | dropLease l => exact length_leases_giveUp w l _
  | assignLease target source =>
    simp only [Operation.enter]
    split
    · rfl
    · exact length_leases_giveUp w target _
  | _ => rfl

theorem Befalls.length_leases {w : World} (h : m.Befalls e w) :
    m.world.leases.length ≤ w.leases.length := by
  cases h with
  | newLease => simp [World.addLease]
  | moveLease hl => simp [World.addLease, World.setLease]
  | _ => exact Nat.le_refl _

/-- Leases are never forgotten. -/
theorem length_leases_perform (hn : m.perform e = some n) :
    m.world.leases.length ≤ n.world.leases.length := by
  cases happens hn with
  | turn pick s hk takes sequel => exact takes.length_leases
  | enter permits => exact (length_leases_enter m.world _).ge
  | aside befalls => exact befalls.length_leases

/-- Only a call for an assignment lets a lease take over from another. -/
theorem eq_of_sequel_enter {w : World} {o : Operation} {target source : LeaseKey}
    (h : (o.enter w).sequel = .takeOver target source) :
    o = .assignLease target source ∧ target ≠ source := by
  have hgiveUp : ∀ l s, (Operation.giveUp w l s).sequel = s := by
    intro l s
    unfold Operation.giveUp
    split <;> rfl
  cases o with
  | construct connection limits factory dialect =>
    simp only [Operation.enter, Operation.make] at h
    repeat' split at h
    all_goals cases h
  | shareLease l =>
    simp only [Operation.enter] at h
    split at h <;> cases h
  | releaseLease l | dropLease l =>
    rw [Operation.enter, hgiveUp] at h
    cases h
  | assignLease target' source' =>
    simp only [Operation.enter] at h
    split at h
    · cases h
    · next hne =>
      rw [hgiveUp] at h
      cases h
      exact ⟨rfl, hne⟩
  | _ => cases h

/-- Every event leaves it so that a lease takes over from another one only. -/
theorem Balanced.apart_perform (h : m.Balanced b) (hn : m.perform e = some n)
    (hk' : n.call? k = some call') {target source : LeaseKey}
    (hs : call'.sequel = .takeOver target source) :
    target < n.world.leases.length ∧ source < n.world.leases.length ∧ target ≠ source := by
  have hlength := length_leases_perform hn
  rcases (happens hn).exists_call_before hk' with
    ⟨call, hk⟩ | ⟨o, rfl, permits, -, hsequel⟩ | ⟨a, -, hsequel⟩
  · obtain ⟨call'', hk'', hafter⟩ := (happens hn).exists_call hk
    obtain rfl := Option.some.inj (hk'.symm.trans hk'')
    have hsame : call.sequel = .takeOver target source := by
      rcases hafter with ⟨-, hsequel⟩ | ⟨t, -, -, -, hsequel | hsequel | ⟨a, -, hsequel⟩⟩
      · exact hsequel.symm.trans hs
      · exact hsequel.symm.trans hs
      · cases hsequel.symm.trans hs
      · cases hsequel.symm.trans hs
    obtain ⟨htarget, hsource, hne⟩ := h.apart call (List.mem_of_getElem? hk) target source hsame
    exact ⟨htarget.trans_le hlength, hsource.trans_le hlength, hne⟩
  · obtain ⟨rfl, hne⟩ := eq_of_sequel_enter (hsequel.symm.trans hs)
    simp only [Machine.permits, Bool.and_eq_true, decide_eq_true_eq] at permits
    exact ⟨permits.1.trans_le hlength, permits.2.trans_le hlength, hne⟩
  · cases hsequel.symm.trans hs

/-! ## Every run -/

/-- If no count of references wraps around in a run, none does before its last event, and none does
in it. -/
theorem countable_of_snoc (h : runWithout Mishap.isOverflow {} (es ++ [e]) = some n)
    (hm : run {} es = some m) : runWithout Mishap.isOverflow {} es = some m ∧
      ∀ c, m.mishap? e ≠ some (.overflow c) := by
  obtain ⟨l, hl, hx, -⟩ := runWithout_snoc_iff.mp h
  obtain rfl := Option.some.inj (hm.symm.trans (run_of_runWithout hl))
  exact ⟨hl, fun c hc => by cases hx _ hc⟩

/-- The ledger of every run balances in which no count of references wraps around. -/
theorem balanced (h : booked es = some (m, b))
    (countable : runWithout Mishap.isOverflow {} es = some m) : m.Balanced b := by
  refine booked_induct (P := fun es m b => runWithout Mishap.isOverflow {} es = some m →
    m.Balanced b) ?_ ?_ h countable
  · exact fun _ => ⟨fun _ => rfl, fun _ hk => absurd hk List.not_mem_nil⟩
  · intro es m b e n hrun ih hb hn countable
    have hm : m.Reachable := ⟨es, run_of_booked hrun⟩
    obtain ⟨hless, hnext⟩ := countable_of_snoc countable (run_of_booked hrun)
    have hbalanced := ih hless
    constructor
    · exact hbalanced.issued_perform hm hb hn hnext
    · intro call' hmem target source hs
      obtain ⟨k, hk'⟩ := List.getElem?_of_mem hmem
      exact hbalanced.apart_perform hn hk' hs

end Machine
end SessionPool
