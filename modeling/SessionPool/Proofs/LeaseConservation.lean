import SessionPool.Proofs.Leasing

/-!
# Leases keep their references

A lease has one reference, or none when it is empty.  So long as everybody who gives a reference
back without a lease holds it, each client has as many references as leases hold and callers have,
and whatever a lease gives back is there to be given back.

This fails in one case.  A lease that is assigned to gives its own reference back first, and then it
takes over from the other lease.  If the client of this reference has to be disconnected, other
calls have their turns in between, and the lease can be assigned to once more.  It takes over all
the same when its first assignment goes on, and the reference that it got meanwhile is lost: no
lease has it, no caller has it, and its client never comes back.

* `Machine.LeasesConserved`: what leases keep, and what follows from it.
* `Machine.Balanced.letsGo_perform`: what a lease gives back is taken back without an error.
* `Machine.leases_conserved_iff`: leases keep their references exactly as long as none takes over
  while it holds one.
-/

namespace SessionPool

/-- In this operation a lease lets go of the reference that it holds. -/
def Operation.letsGo : Operation → Bool
  | .releaseLease _ | .assignLease _ _ | .dropLease _ => true
  | _ => false

/-- A call stands here in which a lease lets go of its reference, and has not failed. -/
inductive Point.LetsGo : Point → Prop where
  /-- The reference has yet to be given back. -/
  | yet {p : PoolKey} {c : ClientKey} : LetsGo (.release p c true)
  /-- It has been given back, and the call ends with success. -/
  | back {x : Point} (concluding : x.Concluding (.ok .done)) : LetsGo x

theorem Point.LetsGo.awake {x : Point} (h : x.LetsGo) : x.sleeps = false := by
  cases h with
  | yet => rfl
  | back concluding => exact concluding.awake

/-- A lease lets go of its reference as soon as the call begins. -/
theorem Operation.letsGo_enter {w : World} {o : Operation} (h : o.letsGo = true) :
    (o.enter w).point.LetsGo ∧ ∀ b, (o.enter w).sequel ≠ .beat b := by
  have hgiveUp : ∀ l s, (∀ b, s ≠ Sequel.beat b) →
      (giveUp w l s).point.LetsGo ∧ ∀ b, (giveUp w l s).sequel ≠ .beat b := by
    intro l s hs
    unfold giveUp
    split
    · exact ⟨.back .ended, hs⟩
    · exact ⟨.yet, hs⟩
  cases o with
  | releaseLease l | dropLease l => exact hgiveUp l _ (by rintro b ⟨⟩)
  | assignLease target source =>
    simp only [enter]
    split
    · exact ⟨.back .ended, by rintro b ⟨⟩⟩
    · exact hgiveUp target _ (by rintro b ⟨⟩)
  | _ => cases h

namespace Machine

variable {m n : Machine} {b : Ledger} {e : Event} {k : CallKey} {call : Call} {t : Turn}
  {p : PoolKey} {c : ClientKey} {es : List Event} {r : Reference}

/-! ## Letting go -/

/-- A call that ends with success goes on to do so, whatever is done with its result. -/
theorem Takes.concluding_done (h : m.Takes k call e t) (hx : call.point.Concluding (.ok .done))
    (hs : ∀ b, call.sequel ≠ .beat b) : t.point.Concluding (.ok .done) := by
  by_cases hover : call.point = .finished (.ok .done)
  · obtain ⟨-, ht⟩ := h.turn_eq (by rw [hover]; rfl) (by rw [hover]; rfl) (by simp [hover])
    simp only [turn, hover] at ht
    cases hsequel : call.sequel with
    | none => exact absurd hsequel (h.not_over hover)
    | takeOver target source =>
      rw [hsequel] at ht
      exact Option.some.inj ht ▸ .ended
    | forgive =>
      rw [hsequel] at ht
      exact Option.some.inj ht ▸ .ended
    | beat b => exact absurd hsequel (hs b)
  · exact (h.concluding_of_ne hx hover).1

/-- What a lease lets go of is taken back without an error, in every turn of the call. -/
theorem Balanced.letsGo_takes (h : m.Balanced b) (hm : m.Reachable) (hk : m.call? k = some call)
    (takes : m.Takes k call e t) (hx : call.point.LetsGo) (hs : ∀ b, call.sequel ≠ .beat b) :
    t.point.Concluding (.ok .done) := by
  generalize hpoint : call.point = x at hx
  cases hx with
  | yet =>
    have hout := h.releasable hm (List.mem_of_getElem? hk) hpoint
    rw [takes.of_release hpoint]
    exact Release.point_of_lent (hm.sound.lt_length_of_mem hout.1) hout
  | back concluding => exact takes.concluding_done (hpoint ▸ concluding) hs

/-- So it is in every event. -/
theorem Balanced.letsGo_perform (h : m.Balanced b) (hm : m.Reachable) (hn : m.perform e = some n)
    (hk : m.call? k = some call) (hx : call.point.LetsGo) (hs : ∀ b, call.sequel ≠ .beat b) :
    ∃ call', n.call? k = some call' ∧ call'.point.LetsGo ∧ ∀ b, call'.sequel ≠ .beat b := by
  obtain ⟨call', hk', hafter⟩ := (happens hn).exists_call hk
  refine ⟨call', hk', ?_⟩
  rcases hafter with ⟨hw, hsequel⟩ | ⟨t, takes, -, hw, hsequel⟩
  · exact ⟨hw.eq_of_awake hx.awake ▸ hx, hsequel ▸ hs⟩
  · have hconcluding := h.letsGo_takes hm hk takes hx hs
    refine ⟨.back (hw.eq_of_awake hconcluding.awake ▸ hconcluding), ?_⟩
    rcases hsequel with hsequel | hsequel | ⟨a, hresting, -⟩
    · exact hsequel ▸ hs
    · rw [hsequel]
      rintro b ⟨⟩
    · rw [hresting] at hx
      rcases hx with _ | ⟨⟨⟩⟩

/-- In every run that is booked, no call in which a lease lets go of its reference ever fails, as
long as no count of references wraps around. -/
theorem letsGo_run (h : booked es = some (m, b))
    (countable : runWithout Mishap.isOverflow {} es = some m) {us vs : List Event} {o : Operation}
    {l : Machine} (split : es = us ++ .begin o :: vs) (before : run {} us = some l)
    (ho : o.letsGo = true) : ∃ call, m.call? l.calls.length = some call ∧ call.point.LetsGo ∧
      ∀ b, call.sequel ≠ .beat b := by
  refine booked_induct (P := fun es m _ => runWithout Mishap.isOverflow {} es = some m → ∀ us vs,
    es = us ++ .begin o :: vs → run {} us = some l → ∃ call, m.call? l.calls.length = some call ∧
      call.point.LetsGo ∧ ∀ b, call.sequel ≠ .beat b) ?_ ?_ h countable us vs split before
  · intro _ us vs hes
    exact absurd hes (by simp)
  · intro es m b e n hrun ih hb hn countable us vs hes hl
    have hm : m.Reachable := ⟨es, run_of_booked hrun⟩
    obtain ⟨hless, -⟩ := countable_of_snoc countable (run_of_booked hrun)
    rcases snoc_eq_append_cons hes with ⟨ws, rfl, -⟩ | ⟨rfl, rfl, -⟩
    · obtain ⟨call, hk, hx, hs⟩ := ih hless us ws rfl hl
      exact (balanced hrun hless).letsGo_perform hm hn hk hx hs
    · obtain rfl := Option.some.inj ((run_of_booked hrun).symm.trans hl)
      exact ⟨_, eq_begin hn ▸ call?_begin m o, Operation.letsGo_enter ho⟩

/-! ## Moving -/

/-- In this event a lease takes over from another: a new one, or one that was assigned to. -/
def Moves (m : Machine) (e : Event) : Prop :=
  (∃ l, e = .moveLease l) ∨ ∃ k pick call o target source, e = .advance k pick ∧
    m.call? k = some call ∧ call.point = .finished o ∧ call.sequel = .takeOver target source

/-- A move that overwrites nothing leaves with all leases together what they had. -/
theorem Balanced.count_leases_of_moves (h : m.Balanced b) (hn : m.perform e = some n)
    (moves : m.Moves e) (kept : (b.post m e n).lost = []) (r : Reference) :
    n.world.leases.count (some r) = m.world.leases.count (some r) := by
  cases happens hn with
  | @turn _ j call t pick s hj takes sequel =>
    rcases moves with ⟨l, rfl⟩ | ⟨k, pick', call', o, target, source, rfl, hk, hx, hs⟩
    · cases takes
    · obtain rfl := takes.key_eq (j := k) (by simp [Event.isTurnOf])
      obtain rfl := Option.some.inj (hj.symm.trans hk)
      obtain ⟨htarget, hsource, hne⟩ := h.apart call (List.mem_of_getElem? hj) target source hs
      have hconserves := conserves_takeOver takes hn rfl hx hs htarget hsource hne r
      obtain ⟨call', hj', hw, -⟩ := exists_call_apply j t s pick hj
      rw [if_pos rfl] at hw
      rw [post_of_takes hj takes hj' hw, List.append_eq_nil_iff] at kept
      have hsame := issued_perform_of_lt hn r fun hlt =>
        (takes.treatment hlt).references (by simp [hx]) (by simp [hx]) (by simp [hx])
      have hunreturned : t.point.returning = [] := by
        obtain ⟨-, ht⟩ := takes.turn_eq (by rw [hx]; rfl) (by rw [hx]; rfl) (by simp [hx])
        simp only [Machine.turn, hx, hs] at ht
        exact Option.some.inj ht ▸ rfl
      rw [kept.1, hunreturned, hx] at hconserves
      simp only [Point.returning, Point.handed, List.count_nil] at hconserves
      omega
  | enter permits => obtain ⟨l, ⟨⟩⟩ | ⟨k, pick, call, o, target, source, ⟨⟩, -⟩ := moves
  | aside befalls => exact befalls.count_leases r

/-- So does every move of a run in which nothing has been lost. -/
theorem count_leases_of_moves (h : booked es = some (m, b))
    (countable : runWithout Mishap.isOverflow {} es = some m) (kept : b.lost = [])
    {us vs : List Event} {l l' : Machine} (split : es = us ++ e :: vs) (before : run {} us = some l)
    (hl : l.perform e = some l') (moves : l.Moves e) (r : Reference) :
    l'.world.leases.count (some r) = l.world.leases.count (some r) := by
  refine booked_induct (P := fun es m b => runWithout Mishap.isOverflow {} es = some m →
    b.lost = [] → ∀ us vs, es = us ++ e :: vs → run {} us = some l →
      l'.world.leases.count (some r) = l.world.leases.count (some r)) ?_ ?_ h countable kept us vs
        split before
  · intro _ _ us vs hes
    exact absurd hes (by simp)
  · intro es m b e' n hrun ih hb hn countable kept us vs hes hus
    obtain ⟨hless, -⟩ := countable_of_snoc countable (run_of_booked hrun)
    rcases snoc_eq_append_cons hes with ⟨ws, rfl, -⟩ | ⟨rfl, rfl, -⟩
    · refine ih hless ?_ us ws rfl hus
      obtain ⟨lost, hlost⟩ := exists_lost_append b m e' n
      rw [hlost, List.append_eq_nil_iff] at kept
      exact kept.2
    · obtain rfl := Option.some.inj ((run_of_booked hrun).symm.trans hus)
      obtain rfl := Option.some.inj (hl.symm.trans hn)
      exact (balanced hrun hless).count_leases_of_moves hn moves kept r

/-! ## Sharing -/

/-- A lease that cannot be shared leaves everything as it is. -/
structure SharesSafely (m : Machine) : Prop where
  /-- An empty lease cannot be shared. -/
  empty : ∀ l n, m.perform (.begin (.shareLease l)) = some n → m.world.lease l = none →
    n.world = m.world ∧ ∃ call, n.call? m.calls.length = some call ∧
      call.point = .finished (.error .emptyLease)
  /-- Neither can a client that is not busy, a broken one for instance. -/
  unfit : ∀ p c e n k call, m.call? k = some call → call.point = .addReference p c true →
    e.isTurnOf k = true → m.perform e = some n → (m.world.client c).state ≠ .busy →
      ∃ call' f, n.call? k = some call' ∧ call'.point = .finished (.error f)
  /-- Whoever is told that a client cannot be shared has changed nothing, unless the count of
  references wraps around. -/
  failed : ∀ p c e n k call call' f, m.call? k = some call → call.point = .addReference p c true →
    e.isTurnOf k = true → m.perform e = some n → m.mishap? e ≠ some (.overflow c) →
      n.call? k = some call' → call'.point = .finished (.error f) → n.world = m.world

theorem sharesSafely (m : Machine) : m.SharesSafely where
  empty l n hn hempty := by
    have henter : (Operation.shareLease l).enter m.world =
        { world := m.world, point := .finished (.error .emptyLease) } := by
      simp [Operation.enter, hempty]
    obtain rfl := eq_begin hn
    exact ⟨congrArg Entrance.world henter, _, call?_begin m _, congrArg Entrance.point henter⟩
  unfit p c e n k call hk hx he hn unfit := by
    obtain ⟨call', hk', -, hpoint⟩ := exists_share hn hk hx he
    obtain ⟨f, -, hf⟩ := Share.step_of_not_lent (w := m.world) (p := p) (c := c) true
      fun h => unfit h.2.1
    exact ⟨call', f, hk', by rw [hpoint, hf]; rfl⟩
  failed p c e n k call call' f hk hx he hn countable hk' herror := by
    obtain ⟨call'', hk'', hworld, hpoint⟩ := exists_share hn hk hx he
    obtain rfl := Option.some.inj (hk'.symm.trans hk'')
    have hunfit : ¬ m.world.Shareable p c := by
      intro h
      have hcountable : (m.world.client c).references ≠ Client.mostReferences := by
        intro hfull
        obtain ⟨_, _, -, takes, -⟩ := (happens hn).exists_takes hk he
        obtain ⟨⟨pick, rfl⟩, -⟩ := takes.of_addReference hx
        exact countable (by simp [mishap?, hk, hx, h.1, hfull])
      rw [herror, Share.step_of_lent h hcountable] at hpoint
      cases hpoint
    obtain ⟨f', -, hf'⟩ := Share.step_of_not_lent true hunfit
    rw [hworld, hf']
    rfl

/-! ## Conservation -/

/-- What leases keep in a run that has led here, when callers have these references without a
lease. -/
structure LeasesConserved (es : List Event) (m : Machine) (raw : List Reference) : Prop where
  /-- A client has as many references as leases hold and callers have. -/
  counts : ∀ p, ∀ c ∈ m.world.own p,
    (m.world.client c).references.toNat = m.bound (p, c) + m.outstanding raw (p, c)
  /-- The client of a lease is a member of its pool, and it is with its borrowers. -/
  borrowed : ∀ p c, m.bound (p, c) ≠ 0 →
    c ∈ (m.world.pool p).members ∧ m.Stands p c .borrowed
  /-- No lease ever fails to let go of its reference, in whatever operation. -/
  letsGo : ∀ us o vs l, es = us ++ .begin o :: vs → run {} us = some l → o.letsGo = true →
    ∃ call, m.call? l.calls.length = some call ∧ call.point.LetsGo
  /-- A lease that cannot be shared leaves everything as it is. -/
  shares : m.SharesSafely
  /-- No move drops a reference or makes two of it. -/
  moves : ∀ us e vs l l', es = us ++ e :: vs → run {} us = some l → l.perform e = some l' →
    l.Moves e → ∀ r, l'.world.leases.count (some r) = l.world.leases.count (some r)
  /-- When everything has been given back and nothing is in progress, nothing is outstanding. -/
  settled : ∀ p, (∀ c, m.bound (p, c) = 0 ∧ m.outstanding raw (p, c) = 0) →
    m.creations p = 0 → m.pinged p = [] → (m.world.pool p).outstanding = 0

/-- All references together, those that are lost included. -/
theorem Balanced.issued_eq (h : m.Balanced b) (r : Reference) :
    m.world.issued r = m.bound r + m.outstanding b.raw r + b.lost.count r := by
  have hissued := h.issued r
  rw [count_onWay] at hissued
  unfold bound outstanding
  omega

/-- A client of whom somebody has a reference is with its borrowers. -/
theorem Reachable.borrowed_of_issued (hm : m.Reachable) (h : m.world.issued (p, c) ≠ 0) :
    c ∈ (m.world.pool p).members ∧ m.Stands p c .borrowed := by
  obtain ⟨hmem, hrefs⟩ := hm.releasable_of_issued h
  exact hm.mem_lent_iff.mp (hm.sound.mem_lent_of_references hmem hrefs)

/-- When nobody has a reference to a client of a pool, and none is created or pinged, nothing is
outstanding. -/
theorem ReachableWithout.outstanding_eq_zero (hm : m.ReachableWithout Mishap.isOverflow)
    (unissued : ∀ c, m.world.issued (p, c) = 0) (uncreated : m.creations p = 0)
    (unpinged : m.pinged p = []) : (m.world.pool p).outstanding = 0 := by
  have hbusy : m.world.busy p = [] := by
    refine List.filter_eq_nil_iff.mpr fun c hc hrefs => ?_
    have hown := (hm.reachable.sound.seated p).mem_own_of_mem hc
    have hnone := unissued c
    rw [World.issued_own hown] at hnone
    rw [decide_eq_true_eq, UInt64.lt_iff_toNat_lt, hnone] at hrefs
    exact absurd hrefs (Nat.lt_irrefl 0)
  have hout := hm.reachable.sound.toNat_outstanding p
  rw [hm.lent_eq_busy, hbusy, unpinged, uncreated] at hout
  exact UInt64.toNat_inj.mp hout

/-- In every run that is booked, all references together are as many as have been issued, and leases
keep theirs exactly if none has ever taken over from another while it held one.  No count of
references may wrap around in the run; none does as long as fewer calls have begun than a word can
count (`runWithout_of_length`). -/
theorem leases_conserved_iff (h : booked es = some (m, b))
    (countable : runWithout Mishap.isOverflow {} es = some m) :
    (∀ r, m.world.issued r = m.bound r + m.outstanding b.raw r + b.lost.count r) ∧
      (LeasesConserved es m b.raw ↔ b.lost = []) := by
  have hm : m.Reachable := ⟨es, run_of_booked h⟩
  have hbalanced := balanced h countable
  refine ⟨hbalanced.issued_eq, fun conserved => ?_, fun kept => ?_⟩
  · refine List.eq_nil_iff_forall_not_mem.mpr fun r hr => ?_
    have hpos : 0 < b.lost.count r := List.count_pos_iff.mpr hr
    have hissued := hbalanced.issued_eq r
    obtain ⟨hown, -⟩ := World.mem_own_of_issued (r := r) (by omega : m.world.issued r ≠ 0)
    have hcounts := conserved.counts r.1 r.2 hown
    rw [← World.issued_own hown, Prod.mk.eta] at hcounts
    omega
  · have hissued : ∀ r, m.world.issued r = m.bound r + m.outstanding b.raw r := by
      intro r
      rw [hbalanced.issued_eq, kept, List.count_nil, Nat.add_zero]
    constructor
    · intro p c hc
      rw [← World.issued_own hc, hissued]
    · intro p c hbound
      exact hm.borrowed_of_issued (by rw [hissued]; omega)
    · intro us o vs l split before ho
      obtain ⟨call, hk, hx, -⟩ := letsGo_run h countable split before ho
      exact ⟨call, hk, hx⟩
    · exact sharesSafely m
    · exact fun us e vs l l' split before hl moves =>
        count_leases_of_moves h countable kept split before hl moves
    · intro p nobody uncreated unpinged
      have hcountable : m.ReachableWithout Mishap.isOverflow := ⟨es, countable⟩
      refine hcountable.outstanding_eq_zero (fun c => ?_) uncreated unpinged
      rw [hissued, (nobody c).1, (nobody c).2]

/-- A run in which three callers get a client with a lease, one after the other. -/
def leasedInTurn : List Event :=
  .begin (.construct {} { maxClients := 3 } true .standard) :: .advance 0 0 ::
    [1, 2, 3].flatMap fun k =>
      [.begin (.lease 0 0), .advance k 0, .answer k (.opened (.session true)), .advance k 0]

/-- How it goes on: the first lease is shared and moved, and then it is moved on to the lease that
shares it.  Somebody asks for one more reference without a lease and is about to give it back. -/
def passedOn : List Event :=
  leasedInTurn ++ [.begin (.shareLease 0), .advance 4 0, .moveLease 0,
    .begin (.assignLease 3 4), .advance 5 0, .advance 5 0,
    .begin (.addReference 0 0), .advance 6 0, .begin (.release 0 0)]

/-- One lease and one caller have a reference to the client then, and so has nobody else. -/
theorem leases_conserved_iff_passedOn : ∃ m b, booked passedOn = some (m, b) ∧
    runWithout Mishap.isOverflow {} passedOn = some m ∧ b.lost = [] ∧
      (m.world.client 0).references = 2 ∧ m.bound (0, 0) = 1 ∧ m.outstanding b.raw (0, 0) = 1 ∧
        LeasesConserved passedOn m b.raw :=
  ⟨_, _, rfl, rfl, rfl, rfl, rfl, rfl, (leases_conserved_iff rfl rfl).2.mpr rfl⟩

/-- How it goes on otherwise: the client of the first lease breaks, and the second lease is moved
on to the first.  While the broken client is being disconnected, so is the third. -/
def assignedTwice : List Event :=
  leasedInTurn ++ [.breakDown 0, .begin (.assignLease 0 1), .advance 4 0, .advance 4 0,
    .begin (.assignLease 0 2), .advance 5 0,
    .answer 4 (.disconnected .done), .advance 4 0, .advance 4 0, .advance 4 0, .advance 4 0]

/-- Nobody has the reference to the third client then, which has not been given back. -/
theorem not_leases_conserved : ∃ m b, booked assignedTwice = some (m, b) ∧
    runWithout Mishap.isOverflow {} assignedTwice = some m ∧ b.lost = [(0, 2)] ∧
      ¬ LeasesConserved assignedTwice m b.raw := by
  refine ⟨_, _, rfl, rfl, rfl, fun h => ?_⟩
  have hcounts := h.counts 0 2 (by decide)
  exact absurd hcounts (by decide)

end Machine
end SessionPool
