import SessionPool.Proofs.Brokenness
import SessionPool.Proofs.Delivery
import SessionPool.Proofs.Lifecycle
import SessionPool.Proofs.Moves

/-!
# Pinging clients that have been taken out

A call that pings the idle clients of a pool takes them out first.  Then it takes two turns for each
of them: it asks, and it deals with the answer.  In between anything may happen in the pool.  In the
end it puts all of them back, as far as they are still wanted.

The invariant is `Machine.Pinging`.  It says which clients have been pinged and which are left, and
that those whose ping has failed are broken.  That they stay so is not a matter of the call: nobody
else can get them meanwhile, because they are neither idle nor borrowed.

What is put back is said with the record of the pool as a whole (`Pool.restored`), as the pool
stands by then.

* `Machine.Pinged`: some clients have been pinged, one after the other, and have answered.
* `Machine.pinging_run`: in every run a call that has taken clients out is still pinging them, or it
  has pinged all of them and put them back.
* `Machine.Restored`: what becomes of a pool when clients are put back.
-/

namespace SessionPool

/-! ## Answers to pings -/

namespace SendAnswer

variable {id : Text} {a : SendAnswer}

/-- The ping of a client is a success. -/
def succeeds : SendAnswer → Bool
  | .reply r => r.isPositiveCompletion
  | _ => false

/-- The fault that the answer to the ping of a client of this name is, if it is no success. -/
def pingFault (id : Text) : SendAnswer → Option Fault
  | .reply r => if r.isPositiveCompletion then none else some (.pingRefused id r.text)
  | .lost reason => some (.transport reason)
  | .failed reason => some (.unforeseen reason)

theorem pingFault_eq_none_iff : a.pingFault id = none ↔ a.succeeds = true := by
  cases a with
  | reply r => simp [pingFault, succeeds]
  | lost reason | failed reason => simp [pingFault, succeeds]

end SendAnswer

/-- A reply that announces the end of the connection is no success. -/
theorem Reply.not_success_of_announcesClosing {r : Reply} (h : r.announcesClosing = true) :
    r.isPositiveCompletion = false := by
  have hcode : r.code = 421 := by simpa [announcesClosing] using h
  simp [isPositiveCompletion, inHundred, hcode]

namespace KeepAlive

variable {w : World} {cs : List ClientKey}

/-- The first of these answers of these clients that is a fault. -/
def firstFault (w : World) (cs : List ClientKey) (as : List SendAnswer) : Option Fault :=
  (cs.zip as).findSome? fun x => x.2.pingFault (w.idOf x.1)

theorem firstFault_snoc {as : List SendAnswer} (h : as.length = cs.length) (c : ClientKey)
    (a : SendAnswer) :
    firstFault w (cs ++ [c]) (as ++ [a]) = (firstFault w cs as <|> a.pingFault (w.idOf c)) := by
  have hlast : ([c].zip [a]).findSome? (fun x => x.2.pingFault (w.idOf x.1)) =
      a.pingFault (w.idOf c) := by
    simp
  rw [firstFault, List.zip_append h.symm, List.findSome?_append, hlast]
  show (firstFault w cs as).or _ = _
  cases firstFault w cs as <;> rfl

/-- If all pings are successes, there is no fault. -/
theorem firstFault_eq_none {as : List SendAnswer} (h : ∀ a ∈ as, a.succeeds = true) :
    firstFault w cs as = none := by
  rw [firstFault, List.findSome?_eq_none_iff]
  exact fun x hx => SendAnswer.pingFault_eq_none_iff.mpr (h x.2 (List.of_mem_zip hx).2)

/-- An answer that is no success breaks the client, and it is the failure of the call if there was
none before. -/
theorem answered_eq (w : World) (p : PoolKey) (done : List ClientKey) (c : ClientKey)
    (rest : List ClientKey) (failure : Option Fault) (a : SendAnswer) :
    (answered w p done c rest failure a).world =
        (if a.succeeds then w else w.onClient c Client.breakDown) ∧
      (answered w p done c rest failure a).point = .keepAlive p
        (.pinging false (done ++ [c]) rest (failure <|> a.pingFault (w.idOf c))) := by
  cases a with
  | reply r =>
    cases hgood : r.isPositiveCompletion with
    | true =>
      have hstays : r.announcesClosing = false := by
        by_contra h
        rw [Reply.not_success_of_announcesClosing (Bool.not_eq_false _ ▸ h)] at hgood
        cases hgood
      simp [answered, World.pinged, World.received, SendAnswer.succeeds, SendAnswer.pingFault,
        hgood, hstays]
    | false =>
      cases hcloses : r.announcesClosing <;>
        simp [answered, World.pinged, World.received, SendAnswer.succeeds, SendAnswer.pingFault,
          hgood, hcloses, World.breakDown_twice, World.idOf]
  | lost reason =>
    simp [answered, World.pinged, World.received, SendAnswer.succeeds, SendAnswer.pingFault,
      World.breakDown_twice]
  | failed reason =>
    simp [answered, World.pinged, World.received, SendAnswer.succeeds, SendAnswer.pingFault]

/-- What a turn of a call does that has clients taken out of a pool and has pinged `done` of
them. -/
inductive Goes (w : World) (p : PoolKey) (k : CallKey) (done : List ClientKey)
    (failure : Option Fault) : Bool → List ClientKey → Event → Turn → Prop where
  /-- The next client is pinged. -/
  | asked {c : ClientKey} {rest : List ClientKey} {pick : ℕ} :
      Goes w p k done failure false (c :: rest) (.advance k pick) (ping w p done c rest failure)
  /-- The client that was pinged has answered. -/
  | answered {c : ClientKey} {rest : List ClientKey} (a : SendAnswer) :
      Goes w p k done failure true (c :: rest) (.answer k (.sent a))
        (answered w p done c rest failure a)
  /-- All have been pinged, and are put back. -/
  | restored {waiting : Bool} {pick : ℕ} :
      Goes w p k done failure waiting [] (.advance k pick) (restore w p done failure)

end KeepAlive

namespace Machine

variable {m n l l' : Machine} {e : Event} {es us vs : List Event} {k : CallKey} {s : Sequel}
  {p : PoolKey} {c : ClientKey} {cs done todo rest : List ClientKey} {waiting : Bool}
  {failure : Option Fault} {call : Call} {t : Turn} {pick : ℕ} {a : SendAnswer}

/-- A turn of a call that pings clients. -/
theorem Takes.goes (h : m.Takes k call e t)
    (hx : call.point = .keepAlive p (.pinging waiting done todo failure)) :
    KeepAlive.Goes m.world p k done failure waiting todo e t := by
  obtain ⟨x, sequel, notices⟩ := call
  simp only at hx
  subst hx
  cases h with
  | step ht =>
    match waiting, todo, ht with
    | false, c :: rest, ht => exact Option.some.inj ht ▸ .asked
    | false, [], ht | true, [], ht => exact Option.some.inj ht ▸ .restored
  | overlooked ht hpoint => cases hpoint
  | pinged a hpoint =>
    cases hpoint
    exact .answered a
  | stocked a hpoint | opened a hpoint | replied a hpoint | parted a hpoint => cases hpoint
  | expired hpoint limited => cases hpoint
  | beat hpoint wanted => cases hpoint

/-- A call that pings clients can take its next turn, if only the outside answers. -/
theorem exists_takes_pinging
    (hx : call.point = .keepAlive p (.pinging waiting done todo failure)) :
    ∃ e t, m.Takes k call e t := by
  obtain ⟨x, sequel, notices⟩ := call
  simp only at hx
  subst hx
  match waiting, todo with
  | false, [] | true, [] | false, c :: rest => exact ⟨.advance k 0, _, .step rfl⟩
  | true, c :: rest => exact ⟨_, _, .pinged (.failed []) rfl⟩

/-! ## Clients that have been taken out -/

/-- A call has the clients that it has taken out until it puts them back. -/
theorem IsAt.drainedBy_eq (h : m.IsAt k s (.keepAlive p (.pinging waiting done todo failure))) :
    m.drainedBy p k = done ++ todo := by
  obtain ⟨call, hk, hx, -⟩ := h
  rw [Machine.drainedBy_eq hk, hx]
  simp [Point.drained, KeepAlivePoint.drained]

/-- The clients that a call has taken out are counted as outstanding. -/
theorem Sound.length_drainedBy_le (hm : m.Sound) (p : PoolKey) (k : CallKey) :
    (m.drainedBy p k).length ≤ (m.world.pool p).outstanding.toNat := by
  have hle : (m.drainedBy p k).length ≤ (m.stake p).drained.card :=
    Multiset.card_le_card (Multiset.le_iff_subset (Multiset.coe_nodup.mpr (hm.nodup_drainedBy p k))
      |>.mpr fun c hc => mem_drained_iff.mpr ⟨k, Multiset.mem_coe.mp hc⟩)
  have hfree : (m.world.pool p).idle.length + (m.stake p).drained.card ≤
      (m.world.pool p).members.length := by
    have hle := Multiset.card_le_card (hm.seated p).free_le
    rwa [Books.free, Multiset.card_add, Multiset.coe_card, Multiset.coe_card] at hle
  have hcreated := hm.toNat_created p
  have hout := hm.toNat_created_idle p
  omega

section Drained

variable (hd : c ∈ l.drainedBy p k)
include hd

/-- As long as no state is overwritten, a client that has been taken out is not disconnected. -/
theorem ReachableWithout.alive_of_drained (hl : l.ReachableWithout Mishap.isTampering) :
    (l.world.client c).state ≠ .disconnected :=
  hl.alive_of_attended (p := p)
    (Books.mem_attended.mpr (.inl (.inl (hl.reachable.sound.of_mem_drainedBy hd).1)))

/-- A client that has been taken out and is broken stays so, as long as it has not been put back. -/
theorem Reachable.broken_of_drained (hl : l.Reachable) (hn : l.perform e = some n)
    (he : ∀ s, e ≠ .setState c s) (hd' : c ∈ n.drainedBy p k)
    (hbroken : (l.world.client c).isBroken = true) : (n.world.client c).isBroken = true := by
  obtain ⟨hmem, -, hidle⟩ := hl.sound.of_mem_drainedBy hd
  have hspent : l.Spent p c :=
    ⟨(hl.sound.seated p).mem_own_of_mem hmem, .inr hidle, .inl (of_decide_eq_true hbroken)⟩
  rcases hspent.state_perform hl hn he with h | ⟨-, hunseated⟩
  · exact decide_eq_true h
  · exact absurd ((hl.perform hn).sound.of_mem_drainedBy hd').1 (hunseated.notMem_members p)

end Drained

/-! ## The pings of one call -/

/-- A turn in which a call pings one of these clients, or deals with the answer of one. -/
inductive Move.Pings (k : CallKey) (cs : List ClientKey) (v : Move) : Prop where
  | asks {c : ClientKey} (mem : c ∈ cs)
      (asked : v.after.request? k = some (.send c pingCommand))
      (world : v.after.world = v.before.world.send c pingCommand)
  | hears {c : ClientKey} {a : SendAnswer} (mem : c ∈ cs)
      (asked : v.before.request? k = some (.send c pingCommand))
      (answer : v.event.answerTo? k = some a)
      (world : v.after.world =
        if a.succeeds then v.before.world else v.before.world.onClient c Client.breakDown)

theorem Move.Pings.mono {ds : List ClientKey} {v : Move} (h : v.Pings k cs) (hcs : cs ⊆ ds) :
    v.Pings k ds := by
  cases h with
  | asks mem asked world => exact .asks (hcs mem) asked world
  | hears mem asked answer world => exact .hears (hcs mem) asked answer world

/-- In a run of the events `es` from `m` to `n` a call has pinged the clients `asked` in this order
and has done nothing else, the clients `done` have answered, and those of which the ping has failed
are broken. -/
structure Pinged (m : Machine) (k : CallKey) (asked done : List ClientKey) (es : List Event)
    (n : Machine) : Prop where
  requests : m.requests k es = asked.map fun c => .send c pingCommand
  answered : (answers k es).length = done.length
  broken : ∀ c a, (c, a) ∈ done.zip (answers k es) → a.succeeds = false →
    (n.world.client c).isBroken = true
  moves : ∀ v ∈ m.moves k es, v.Pings k asked

/-- A call has taken the clients `cs` out of a pool, and is pinging them: `done` have answered, and
`todo` are left, of which the first one has been pinged if the call is `waiting`. -/
structure Pinging (m : Machine) (k : CallKey) (s : Sequel) (p : PoolKey) (cs : List ClientKey)
    (es : List Event) (n : Machine) (waiting : Bool) (done todo : List ClientKey) : Prop
    extends m.Pinged k (done ++ todo.take waiting.toNat) done es n where
  split : cs = done ++ todo
  waits : waiting = true → todo ≠ []
  stands : n.IsAt k s (.keepAlive p
    (.pinging waiting done todo (KeepAlive.firstFault m.world done (answers k es))))
  named : ∀ c ∈ cs, n.world.idOf c = m.world.idOf c
  turns : es.countP (Event.isTurnOf k) = 2 * done.length + waiting.toNat

/-- The turn in which a call puts the clients back that it has pinged. -/
structure PutsBack (l : Machine) (k : CallKey) (s : Sequel) (p : PoolKey) (cs : List ClientKey)
    (failure : Option Fault) (e : Event) (l' : Machine) : Prop where
  perform : l.perform e = some l'
  turn : e.isTurnOf k = true
  world : l'.world = (KeepAlive.restore l.world p cs failure).world
  stands : l'.IsAt k s (KeepAlive.restore l.world p cs failure).point

namespace Pinging

/-- A call that has just taken clients out. -/
theorem start (h : m.IsAt k s (.keepAlive p (.pinging false [] cs none))) :
    m.Pinging k s p cs [] m false [] cs where
  requests := rfl
  answered := rfl
  broken := fun _ _ h => by cases h
  moves := fun _ h => by cases h
  split := rfl
  waits := fun h => by cases h
  stands := h
  named := fun _ _ => rfl
  turns := rfl

theorem drainedBy_eq (h : m.Pinging k s p cs es l waiting done todo) : l.drainedBy p k = cs :=
  h.stands.drainedBy_eq.trans h.split.symm

/-- Whoever has been taken out has been made. -/
theorem lt_length (h : m.Pinging k s p cs es l waiting done todo) (hl : l.Reachable)
    (hc : c ∈ cs) : c < l.world.clients.length :=
  hl.sound.lt_length_of_mem (hl.sound.of_mem_drainedBy (h.drainedBy_eq ▸ hc)).1

/-- What does not change of the clients that have been taken out until they are put back. -/
theorem keeps (h : m.Pinging k s p cs es l waiting done todo) (hl : l.Reachable)
    (he : ∀ c s, e ≠ .setState c s) (hn : l.perform e = some n) (hcs : n.drainedBy p k = cs) :
    (∀ c ∈ cs, n.world.idOf c = m.world.idOf c) ∧
      ∀ c ∈ cs, (l.world.client c).isBroken = true → (n.world.client c).isBroken = true :=
  ⟨fun c hc => (id_perform hn (h.lt_length hl hc)).trans (h.named c hc), fun c hc =>
    hl.broken_of_drained (h.drainedBy_eq ▸ hc) hn (he c) (hcs ▸ hc)⟩

/-- The call has no part in an event. -/
theorem wait (h : m.Pinging k s p cs es l waiting done todo) (hes : m.run es = some l)
    (hl : l.Reachable) (he : ∀ c s, e ≠ .setState c s) (hn : l.perform e = some n)
    (hturn : e.isTurnOf k = false)
    (hstands : n.IsAt k s (.keepAlive p
      (.pinging waiting done todo (KeepAlive.firstFault m.world done (answers k es))))) :
    m.Pinging k s p cs (es ++ [e]) n waiting done todo := by
  have hanswers : answers k (es ++ [e]) = answers k es := by
    rw [answers_snoc, Event.answerTo?_eq_none hturn]
    exact List.append_nil _
  obtain ⟨hnamed, hbroken⟩ := h.keeps hl he hn (hstands.drainedBy_eq.trans h.split.symm)
  exact {
    requests := by
      rw [requests_snoc hes hn, hturn, h.requests]
      exact List.append_nil _
    answered := hanswers ▸ h.answered
    broken := fun c a hmem hfails => hbroken c
      (h.split ▸ List.mem_append_left todo (List.of_mem_zip (hanswers ▸ hmem)).1)
      (h.broken c a (hanswers ▸ hmem) hfails)
    moves := by
      rw [moves_snoc hes hn, hturn, if_neg Bool.false_ne_true, List.append_nil]
      exact h.moves
    split := h.split
    waits := h.waits
    stands := hanswers.symm ▸ hstands
    named := hnamed
    turns := by
      rw [List.countP_append, h.turns]
      simp [hturn] }

/-- The call asks the next client. -/
theorem ask (h : m.Pinging k s p cs es l false done (c :: rest)) (hes : m.run es = some l)
    (hl : l.Reachable) (hn : l.perform (.advance k pick) = some n)
    (hworld : n.world = l.world.send c pingCommand)
    (hstands : n.IsAt k s (.keepAlive p (.pinging true done (c :: rest)
      (KeepAlive.firstFault m.world done (answers k es))))) :
    m.Pinging k s p cs (es ++ [.advance k pick]) n true done (c :: rest) := by
  have hturn : (Event.advance k pick).isTurnOf k = true := decide_eq_true rfl
  have hanswers : answers k (es ++ [.advance k pick]) = answers k es := by
    rw [answers_snoc]
    exact List.append_nil _
  have hasks : n.request? k = some (.send c pingCommand) := hstands.request_eq
  obtain ⟨hnamed, hbroken⟩ := h.keeps hl (by simp) hn (hstands.drainedBy_eq.trans h.split.symm)
  exact {
    requests := by
      rw [requests_snoc hes hn, h.requests, hturn, hasks]
      simp
    answered := hanswers ▸ h.answered
    broken := fun d b hmem hfails => hbroken d
      (h.split ▸ List.mem_append_left _ (List.of_mem_zip (hanswers ▸ hmem)).1)
      (h.broken d b (hanswers ▸ hmem) hfails)
    moves := by
      rw [moves_snoc hes hn, hturn, if_pos rfl, List.forall_mem_append, List.forall_mem_singleton]
      exact ⟨fun v hv => (h.moves v hv).mono (by simp), .asks (by simp) hasks hworld⟩
    split := h.split
    waits := fun _ => List.cons_ne_nil c rest
    stands := hanswers.symm ▸ hstands
    named := hnamed
    turns := by
      rw [List.countP_append, h.turns]
      simp [hturn] }

/-- The client that was asked has answered. -/
theorem hear (h : m.Pinging k s p cs es l true done (c :: rest)) (hes : m.run es = some l)
    (hl : l.ReachableWithout Mishap.isTampering)
    (hn : l.perform (.answer k (.sent a)) = some n)
    (hworld : n.world = if a.succeeds then l.world else l.world.onClient c Client.breakDown)
    (hstands : n.IsAt k s (.keepAlive p (.pinging false (done ++ [c]) rest
      (KeepAlive.firstFault m.world done (answers k es) <|> a.pingFault (l.world.idOf c))))) :
    m.Pinging k s p cs (es ++ [.answer k (.sent a)]) n false (done ++ [c]) rest := by
  have hsplit : cs = (done ++ [c]) ++ rest := h.split.trans (List.append_cons done c rest)
  have hc : c ∈ cs := by simp [hsplit]
  have hturn : (Event.answer k (.sent a)).isTurnOf k = true := decide_eq_true rfl
  have hanswer : (Event.answer k (.sent a)).answerTo? k = some a := if_pos rfl
  have hanswers : answers k (es ++ [.answer k (.sent a)]) = answers k es ++ [a] := by
    rw [answers_snoc, hanswer]
    rfl
  have hfault := KeepAlive.firstFault_snoc (w := m.world) h.answered c a
  rw [← h.named c hc] at hfault
  obtain ⟨hnamed, hbroken⟩ :=
    h.keeps hl.reachable (by simp) hn (hstands.drainedBy_eq.trans hsplit.symm)
  exact {
    requests := by
      have hnone : n.request? k = none := hstands.request_eq
      rw [requests_snoc hes hn, h.requests, hnone]
      simp
    answered := by simp [hanswers, h.answered]
    broken := by
      intro d b hmem hfails
      rw [hanswers, List.zip_append h.answered.symm, List.mem_append] at hmem
      rcases hmem with hmem | hmem
      · exact hbroken d (h.split ▸ List.mem_append_left _ (List.of_mem_zip hmem).1)
          (h.broken d b hmem hfails)
      · obtain ⟨rfl, rfl⟩ : d = c ∧ b = a := by simpa using hmem
        have halive := hl.alive_of_drained (h.drainedBy_eq.symm ▸ hc)
        rw [hworld, if_neg (by simp [hfails]),
          World.client_onClient _ (h.lt_length hl.reachable hc), Client.breakDown, if_neg halive]
        rfl
    moves := by
      have hasked : l.request? k = some (.send c pingCommand) := h.stands.request_eq
      rw [moves_snoc hes hn, hturn, if_pos rfl, List.forall_mem_append, List.forall_mem_singleton]
      exact ⟨fun v hv => (h.moves v hv).mono (by simp), .hears (by simp) hasked hanswer hworld⟩
    split := hsplit
    waits := fun hfalse => by cases hfalse
    stands := by
      rw [hanswers, hfault]
      exact hstands
    named := hnamed
    turns := by
      rw [List.countP_append, h.turns, List.length_append]
      simp [hturn]
      omega }

/-- In an event a call goes on to ping clients, or it has pinged all and puts them back. -/
theorem perform (h : m.Pinging k s p cs es l waiting done todo) (hes : m.run es = some l)
    (hl : l.ReachableWithout Mishap.isTampering) (he : ∀ c s, e ≠ .setState c s)
    (hn : l.perform e = some n) :
    (∃ waiting done todo, m.Pinging k s p cs (es ++ [e]) n waiting done todo) ∨
      m.Pinging k s p cs es l false cs [] ∧
        l.PutsBack k s p cs (KeepAlive.firstFault m.world cs (answers k es)) e n := by
  rcases h.stands.perform rfl (by simp) hn with
    ⟨hturn, hstands⟩ | ⟨hturn, call, t, hx, -, takes, hworld, hnext⟩
  · exact .inl ⟨waiting, done, todo, h.wait hes hl.reachable he hn hturn hstands⟩
  cases takes.goes hx with
  | @asked c rest pick =>
    exact .inl ⟨true, done, c :: rest, h.ask hes hl.reachable hn hworld (hnext rfl)⟩
  | @answered c rest a =>
    obtain ⟨hw, hpoint⟩ := KeepAlive.answered_eq l.world p done c rest
      (KeepAlive.firstFault m.world done (answers k es)) a
    rw [hpoint] at hnext
    exact .inl ⟨false, done ++ [c], rest, h.hear hes hl hn (hworld.trans hw) (hnext rfl)⟩
  | @restored waiting pick =>
    obtain rfl : waiting = false := by
      by_contra hwaiting
      exact h.waits (Bool.not_eq_false _ ▸ hwaiting) rfl
    obtain rfl : cs = done := h.split.trans (List.append_nil done)
    exact .inr ⟨h, hn, hturn, hworld, hnext rfl⟩

end Pinging

/-- In every run a call that has taken clients out is still pinging them, or it has pinged all and
has put them back. -/
theorem pinging_run (hm : m.ReachableWithout Mishap.isTampering)
    (h : m.IsAt k s (.keepAlive p (.pinging false [] cs none))) (hn : m.run es = some n)
    (untampered : ∀ c s, .setState c s ∉ es) :
    (∃ waiting done todo, m.Pinging k s p cs es n waiting done todo) ∨
      ∃ us e vs l l', es = us ++ e :: vs ∧ m.run us = some l ∧
        m.Pinging k s p cs us l false cs [] ∧
          l.PutsBack k s p cs (KeepAlive.firstFault m.world cs (answers k us)) e l' ∧
            l'.run vs = some n := by
  induction es using List.reverseRecOn generalizing n with
  | nil =>
    rw [run_nil, Option.some.injEq] at hn
    exact .inl ⟨false, [], cs, hn ▸ .start h⟩
  | append_singleton es e ih =>
    obtain ⟨l, hes, hlast⟩ := run_snoc_iff.mp hn
    have hbefore : ∀ c s, .setState c s ∉ es :=
      fun c s hmem => untampered c s (List.mem_append_left _ hmem)
    rcases ih hes hbefore with
      ⟨waiting, done, todo, hl⟩ | ⟨us, e', vs, l₁, l₂, rfl, hus, hl, hback, hvs⟩
    · have he : ∀ c s, e ≠ .setState c s := by
        rintro c s rfl
        exact untampered c s (by simp)
      rcases hl.perform hes (hm.untampered_run hbefore hes) he hlast with hgoes | ⟨hall, hback⟩
      · exact .inl hgoes
      · exact .inr ⟨es, e, [], l, n, rfl, hes, hall, hback, rfl⟩
    · exact .inr ⟨us, e', vs ++ [e], l₁, l₂, by simp, hus, hl, hback,
        run_snoc_iff.mpr ⟨l, hvs, hlast⟩⟩

end Machine

/-! ## Putting clients back -/

namespace Pool

/-- The record of a pool after clients that were pinged have been put back: those that are `gone`
have left the pool, each with its slot, and those that are `kept` are idle, behind all others. -/
def restored (pool : Pool) (gone kept : List ClientKey) : Pool :=
  { pool with
    members := pool.members.filter (· ∉ gone)
    idle := pool.idle ++ kept
    created := pool.created - UInt64.ofNat gone.length
    outstanding := pool.outstanding - UInt64.ofNat (gone.length + kept.length) }

variable {c : ClientKey}

theorem restored_nil (pool : Pool) : pool.restored [] [] = pool := by simp [restored]

/-- If all clients that were taken out go back, a pool is as it was before. -/
theorem restored_drain (pool : Pool) : pool.drain.restored [] pool.idle = pool := by
  simp [restored, drain]

/-- The first client leaves, and then the others are put back. -/
theorem restored_detach {pool : Pool} (h : pool.members.Nodup) (gone kept : List ClientKey) :
    (pool.giveBack.detach c).restored gone kept = pool.restored (c :: gone) kept := by
  simp only [restored, detach, giveBack, h.erase_eq_filter, List.filter_filter, List.length_cons,
    Pool.mk.injEq, true_and, and_true]
  refine ⟨List.filter_congr fun d _ => ?_, ?_, ?_⟩
  · by_cases hd : d = c <;> simp [hd]
  · rw [UInt64.ofNat_add]
    grind
  · rw [UInt64.ofNat_add, UInt64.ofNat_add, UInt64.ofNat_add]
    grind

/-- The first client goes back, and then the others are put back. -/
theorem restored_pushIdle (pool : Pool) (gone kept : List ClientKey) :
    (pool.giveBack.pushIdle c).restored gone kept = pool.restored gone (c :: kept) := by
  simp only [restored, pushIdle, giveBack, List.append_assoc, List.singleton_append,
    List.length_cons, Pool.mk.injEq, true_and, and_true]
  rw [UInt64.ofNat_add, UInt64.ofNat_add, UInt64.ofNat_add]
  grind

end Pool

section Changes

variable {w : World} {p : PoolKey} {f g : Pool → Pool}

/-- Changes that make the same of a record are the same. -/
theorem World.onPool_ext (h : f (w.pool p) = g (w.pool p)) : w.onPool p f = w.onPool p g := by
  simp only [World.onPool, World.mk.injEq, true_and, and_true]
  refine List.ext_getElem? fun q => ?_
  rw [List.getElem?_modify, List.getElem?_modify]
  by_cases hq : p = q
  · subst hq
    cases hpool : w.pools[p]? with
    | none => rfl
    | some pool =>
      have hp : w.pool p = pool := by simp [World.pool, hpool]
      simpa [hp] using h
  · simp [hq]

/-- A change that leaves a record as it is changes nothing. -/
theorem World.onPool_eq_self (h : f (w.pool p) = w.pool p) : w.onPool p f = w := by
  have hid : w.onPool p f = w.onPool p id := World.onPool_ext h
  rw [hid]
  simp [World.onPool, List.modify_id]

end Changes

/-- A number is taken off a count that is not smaller. -/
theorem toNat_sub_ofNat {count : UInt64} {i : ℕ} (h : i ≤ count.toNat) :
    (count - UInt64.ofNat i).toNat = count.toNat - i := by
  have hi : (UInt64.ofNat i).toNat = i :=
    UInt64.toNat_ofNat_of_lt' (h.trans_lt count.toNat_lt)
  rw [UInt64.toNat_sub_of_le _ _ (UInt64.le_iff_toNat_le.mpr (hi.trans_le h)), hi]

namespace KeepAlive

variable {w : World} {p : PoolKey} {c : ClientKey} {cs : List ClientKey}

/-- The clients among these that do not go back. -/
def discarded (w : World) (p : PoolKey) (cs : List ClientKey) : List ClientKey :=
  cs.filter fun c => isDiscarded w p c

/-- The clients among these that go back. -/
def kept (w : World) (p : PoolKey) (cs : List ClientKey) : List ClientKey :=
  cs.filter fun c => !isDiscarded w p c

/-- Whoever is broken does not go back, and nobody does to a pool that is closing. -/
theorem discarded_eq (w : World) (p : PoolKey) (cs : List ClientKey) :
    discarded w p cs =
      cs.filter fun c => (w.client c).state = .broken ∨ (w.pool p).closing = true :=
  List.filter_congr fun c _ => by simp [isDiscarded, Client.isBroken, beq_eq_decide]

/-- Whoever is whole goes back to an open pool. -/
theorem kept_eq (w : World) (p : PoolKey) (cs : List ClientKey) :
    kept w p cs =
      cs.filter fun c => (w.client c).state ≠ .broken ∧ (w.pool p).closing = false :=
  List.filter_congr fun c _ => by simp [isDiscarded, Client.isBroken, beq_eq_decide]

/-- What a call comes to that has pinged so many clients, and of which this was the first
failure. -/
def outcome (count : ℕ) : Option Fault → Outcome
  | none => .ok (.count count)
  | some f => .error f

theorem discarded_cons (w : World) (p : PoolKey) (c : ClientKey) (cs : List ClientKey) :
    discarded w p (c :: cs) =
      if isDiscarded w p c then c :: discarded w p cs else discarded w p cs :=
  List.filter_cons

theorem kept_cons (w : World) (p : PoolKey) (c : ClientKey) (cs : List ClientKey) :
    kept w p (c :: cs) = if isDiscarded w p c then kept w p cs else c :: kept w p cs := by
  rw [kept, List.filter_cons]
  cases isDiscarded w p c <;> rfl

/-- Every client goes back or does not. -/
theorem length_discarded_add_kept (w : World) (p : PoolKey) (cs : List ClientKey) :
    (discarded w p cs).length + (kept w p cs).length = cs.length :=
  (List.length_eq_length_filter_add _).symm

/-- The record of a pool after clients have been put back one after the other. -/
theorem foldl_settle_pool (cs : List ClientKey) {pool : Pool} (h : pool.members.Nodup) :
    cs.foldl (Pool.settle w p) pool = pool.restored (discarded w p cs) (kept w p cs) := by
  induction cs generalizing pool with
  | nil => exact pool.restored_nil.symm
  | cons c cs ih =>
    rw [List.foldl_cons, Pool.settle, discarded_cons, kept_cons]
    split
    · rw [ih (h.erase c), Pool.restored_detach h]
    · have hmembers : (pool.giveBack.pushIdle c).members.Nodup := h
      rw [ih hmembers, Pool.restored_pushIdle]

/-- Who goes back is decided by the state of the pool and its clients before the first one does. -/
theorem foldl_settle_onPool (hp : p < w.pools.length) (cs : List ClientKey) :
    cs.foldl (fun w c => settle w p c) w =
      w.onPool p fun pool => cs.foldl (Pool.settle w p) pool := by
  induction cs generalizing w with
  | nil => exact (World.onPool_eq_self rfl).symm
  | cons c cs ih =>
    have hsettle : Pool.settle (settle w p c) p = Pool.settle w p := by
      funext pool d
      simp only [Pool.settle, isDiscarded_settle hp]
    rw [List.foldl_cons, ih (by simpa [settle] using hp), hsettle, settle, World.onPool_onPool]
    rfl

/-- The clients that have been pinged are put back all at once. -/
theorem foldl_settle_eq (hp : p < w.pools.length) (h : (w.pool p).members.Nodup)
    (cs : List ClientKey) : cs.foldl (fun w c => settle w p c) w =
      w.onPool p fun pool => pool.restored (discarded w p cs) (kept w p cs) := by
  rw [foldl_settle_onPool hp]
  exact World.onPool_ext (foldl_settle_pool cs h)

end KeepAlive

namespace Machine

variable {m l l' : Machine} {e : Event} {us : List Event} {k : CallKey} {s : Sequel}
  {p : PoolKey} {cs : List ClientKey} {failure : Option Fault}

/-- From `l` to `l'` the clients `cs` of a pool, which a call had taken out, are put back.  The
clients `gone` are those that are broken by then, or all of them if the pool is closing by then.
They leave the pool, and each gives its slot back.  The others, `kept`, are idle again, in the order
in which they were before and behind all that are idle by then.  Nothing else changes. -/
structure Restored (l : Machine) (p : PoolKey) (cs gone kept : List ClientKey) (l' : Machine) :
    Prop where
  leaving : gone =
    cs.filter fun c => (l.world.client c).state = .broken ∨ (l.world.pool p).closing = true
  staying : kept =
    cs.filter fun c => (l.world.client c).state ≠ .broken ∧ (l.world.pool p).closing = false
  out : ∀ c ∈ cs, c ∈ (l.world.pool p).members ∧ c ∉ (l.world.pool p).idle ∧
    (l.world.client c).references = 0
  world : l'.world = l.world.onPool p fun pool => pool.restored gone kept
  slots : (l'.world.pool p).created.toNat + gone.length = (l.world.pool p).created.toNat
  back : (l'.world.pool p).outstanding.toNat + cs.length = (l.world.pool p).outstanding.toNat

/-- In an open pool all go back if none of them is broken. -/
theorem Restored.all_stay {gone kept : List ClientKey} (h : l.Restored p cs gone kept l')
    (isOpen : (l.world.pool p).closing = false)
    (whole : ∀ c ∈ cs, (l.world.client c).state ≠ .broken) : gone = [] ∧ kept = cs := by
  constructor
  · rw [h.leaving, List.filter_eq_nil_iff]
    simpa [isOpen] using whole
  · rw [h.staying, List.filter_eq_self]
    simpa [isOpen] using whole

/-- Different members of a pool have different slots. -/
theorem Sound.length_le_created (hm : m.Sound) (hnodup : cs.Nodup)
    (hcs : ∀ c ∈ cs, c ∈ (m.world.pool p).members) :
    cs.length ≤ (m.world.pool p).created.toNat := by
  have hcreated := hm.toNat_created p
  have hle := (List.subperm_of_subset hnodup hcs).length_le
  omega

/-- A call that has pinged all clients puts them back, and no counter wraps around. -/
theorem Pinging.restored (h : m.Pinging k s p cs us l false cs []) (hl : l.Sound)
    (hback : l.PutsBack k s p cs failure e l') :
    l.Restored p cs (KeepAlive.discarded l.world p cs) (KeepAlive.kept l.world p cs) l' := by
  have hcs : l.drainedBy p k = cs := h.drainedBy_eq
  have hout : ∀ c ∈ cs, c ∈ (l.world.pool p).members ∧ c ∉ (l.world.pool p).idle ∧
      (l.world.client c).references = 0 := fun c hc =>
    have ⟨hmem, hrefs, hidle⟩ := hl.of_mem_drainedBy (hcs.symm ▸ hc)
    ⟨hmem, hidle, hrefs⟩
  have hmany : cs.length ≤ (l.world.pool p).outstanding.toNat := hcs ▸ hl.length_drainedBy_le p k
  have hgone : (KeepAlive.discarded l.world p cs).length ≤ (l.world.pool p).created.toNat :=
    hl.length_le_created ((hcs ▸ hl.nodup_drainedBy p k).filter _)
      fun c hc => (hout c (List.mem_of_mem_filter hc)).1
  have hall := KeepAlive.length_discarded_add_kept l.world p cs
  have hleaving := KeepAlive.discarded_eq l.world p cs
  have hstaying := KeepAlive.kept_eq l.world p cs
  rcases List.eq_nil_or_concat cs with rfl | ⟨ds, d, hds⟩
  · have hworld : l'.world = l.world := hback.world
    refine ⟨hleaving, hstaying, hout, ?_, by rw [hworld]; rfl, by rw [hworld]; rfl⟩
    exact hworld.trans (World.onPool_eq_self (Pool.restored_nil _)).symm
  have hp : p < l.world.pools.length := World.lt_length_of_mem (hout d (by simp [hds])).1
  have hworld : l'.world = l.world.onPool p fun pool =>
      pool.restored (KeepAlive.discarded l.world p cs) (KeepAlive.kept l.world p cs) :=
    hback.world.trans (KeepAlive.foldl_settle_eq hp (hl.seated p).nodup_members cs)
  refine ⟨hleaving, hstaying, hout, hworld, ?_, ?_⟩
  · rw [hworld, World.pool_onPool _ hp, Pool.restored, toNat_sub_ofNat hgone]
    omega
  · rw [hworld, World.pool_onPool _ hp, Pool.restored, hall, toNat_sub_ofNat hmany]
    omega

/-- Then it sends off those that do not go back. -/
theorem PutsBack.stands_farewell (h : l.PutsBack k s p cs failure e l') :
    l'.IsAt k s (.farewell .disconnect false (KeepAlive.discarded l.world p cs)
      (.destroy (KeepAlive.discarded l.world p cs) (KeepAlive.outcome cs.length failure))) := by
  have hstands := h.stands
  cases failure <;> exact hstands

end Machine
end SessionPool
