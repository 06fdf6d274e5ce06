import SessionPool.Proofs.Lending
import SessionPool.Proofs.Sendoff

/-!
# Adding references and giving them back

What the one step does in which a reference is added or given back.  Either everything is as it
should be, and then nothing changes but the count, and with the last reference the place of the
client; or the caller is told of a misuse, and then nothing changes at all.

* `Share.step_of_lent`, `Share.step_of_not_lent`: adding a reference.
* `Release.step_of_more`, `Release.step_of_last_returned`, `Release.step_of_last_discarded`,
  `Release.step_of_not_lent`: giving one back.
* `Machine.Adds`, `Machine.GivesBack`: the events in which this succeeds.
* `Machine.countsExactly`: what every call can do that adds a reference or gives one back.
-/

namespace SessionPool

/-! ## Changes of the shared state -/

namespace World

variable (w : World) (c : ClientKey) (p : PoolKey)

theorem onClient_eq_self {f : Client → Client} (hf : f (w.client c) = w.client c) :
    w.onClient c f = w := by
  have hid : w.onClient c f = w.onClient c id := onClient_congr hf
  rw [hid]
  simp [onClient, List.modify_id]

theorem onPool_onPool (f g : Pool → Pool) :
    (w.onPool p f).onPool p g = w.onPool p (g ∘ f) := by
  simp [onPool, List.modify_modify_eq]

theorem onClient_onClient (f g : Client → Client) :
    (w.onClient c f).onClient c g = w.onClient c (g ∘ f) := by
  simp [onClient, List.modify_modify_eq]

/-- A client is lent: it is a member, busy, and somebody has a reference to it. -/
def Shareable (w : World) (p : PoolKey) (c : ClientKey) : Prop :=
  c ∈ (w.pool p).members ∧ (w.client c).state = .busy ∧ (w.client c).references ≠ 0

/-- Somebody has a reference to a member. -/
def Releasable (w : World) (p : PoolKey) (c : ClientKey) : Prop :=
  c ∈ (w.pool p).members ∧ (w.client c).references ≠ 0

/-- A client has to leave when the last reference to it is given back. -/
def Unwanted (w : World) (p : PoolKey) (c : ClientKey) : Prop :=
  (w.client c).isBroken = true ∨ (w.pool p).closing = true

/-- One reference more, and nothing else. -/
def shared (w : World) (c : ClientKey) : World :=
  w.onClient c fun k => { k with references := k.references + 1 }

/-- One reference less, and nothing else. -/
def dropped (w : World) (c : ClientKey) : World :=
  w.onClient c fun k => { k with references := k.references - 1 }

/-- The last reference is gone, and the client is the last in the queue. -/
def returned (w : World) (p : PoolKey) (c : ClientKey) : World :=
  (w.onClient c fun k => { k with references := 0, state := .idle }).onPool p
    fun pool => pool.giveBack.pushIdle c

/-- The last reference is gone, and the client has left the pool. -/
def discarded (w : World) (p : PoolKey) (c : ClientKey) : World :=
  (w.onClient c fun k => { k with references := 0 }).onPool p
    fun pool => pool.giveBack.detach c

end World

variable {w : World} {p : PoolKey} {c : ClientKey} {leased : Bool}

/-! ## One step -/

/-- One more than a count that is not the greatest. -/
theorem toNat_succ {count : UInt64} (h : count ≠ Client.mostReferences) :
    (count + 1).toNat = count.toNat + 1 := by
  have hne : count.toNat ≠ Client.mostReferences.toNat := fun heq => h (UInt64.toNat_inj.mp heq)
  have hle : count.toNat ≤ Client.mostReferences.toNat := Nat.le_of_lt_succ count.toNat_lt
  exact toNat_add_one (Nat.lt_of_le_of_ne hle hne)

namespace Share

/-- A reference is added to a lent client, and nothing else changes. -/
theorem step_of_lent (h : w.Shareable p c)
    (countable : (w.client c).references ≠ Client.mostReferences) :
    step w p c leased = (Turn.lend (w.shared c) p c leased).saying
      [.referenceAdded (w.client c).id ((w.client c).references + 1)] := by
  obtain ⟨mem, busy, lent⟩ := h
  have hcount : (w.client c).references + 1 ≠ 0 := by
    intro h
    exact Nat.succ_ne_zero _ ((toNat_succ countable).symm.trans (congrArg UInt64.toNat h))
  have hsame : (w.onClient c fun _ =>
      { w.client c with references := (w.client c).references + 1 }) = w.shared c :=
    World.onClient_congr rfl
  rw [← hsame]
  simp only [step, mem, busy, not_true_eq_false, if_false, ne_eq, Client.addReference, lent,
    hcount]

/-- The count cannot grow beyond what can be counted.  It starts anew, and the caller is told of a
misuse. -/
theorem step_of_full (h : w.Shareable p c)
    (full : (w.client c).references = Client.mostReferences) :
    (step w p c leased).point = .finished (.error (.notBorrowed (w.client c).id)) := by
  obtain ⟨mem, busy, lent⟩ := h
  have hcount : (w.client c).references + 1 = 0 := by
    rw [full]
    rfl
  simp [step, mem, busy, Client.addReference, lent, hcount, Turn.finish]

/-- Otherwise the caller is told of a misuse. -/
theorem step_of_not_lent (leased : Bool) (h : ¬ w.Shareable p c) :
    ∃ f : Fault, f.kind = .misuse ∧ step w p c leased = .finish w (.error f) := by
  simp only [step]
  split
  · exact ⟨_, rfl, rfl⟩
  · next mem =>
    split
    · exact ⟨_, rfl, rfl⟩
    · next busy =>
      have hnone : (w.client c).references = 0 := by
        by_contra hne
        exact h ⟨not_not.mp mem, not_not.mp busy, hne⟩
      refine ⟨.notBorrowed (w.client c).id, rfl, ?_⟩
      simp only [Client.addReference, hnone, if_true]
      rw [World.onClient_eq_self w c rfl]

end Share

namespace Release

/-- A reference is given back that is not the last one, and nothing else changes. -/
theorem step_of_more (h : w.Releasable p c) (more : (w.client c).references ≠ 1) :
    step w p c = (Turn.finish (w.dropped c) (.ok .done)).saying
      [.referenceDropped (w.client c).id ((w.client c).references - 1)] := by
  obtain ⟨mem, lent⟩ := h
  have hcount : (w.client c).references - 1 ≠ 0 := by
    intro h
    exact more (by rw [← UInt64.sub_add_cancel (w.client c).references 1, h]; rfl)
  have hsame : (w.onClient c fun _ =>
      { w.client c with references := (w.client c).references - 1 }) = w.dropped c :=
    World.onClient_congr rfl
  rw [← hsame]
  simp only [step, mem, not_true_eq_false, if_false, Client.dropReference?, lent, hcount]

/-- Giving back the only reference. -/
theorem step_of_one (mem : c ∈ (w.pool p).members) (one : (w.client c).references = 1) :
    step w p c = (last (w.onClient c fun k => { k with references := 0 }) p c).saying
      [.referenceDropped (w.client c).id 0] := by
  have hsame : (w.onClient c fun _ =>
      { w.client c with references := (w.client c).references - 1 }) =
      w.onClient c fun k => { k with references := 0 } := World.onClient_congr (by rw [one]; rfl)
  rw [← hsame]
  simp [step, mem, Client.dropReference?, one]

/-- What is read of the client and its pool after the last reference is gone. -/
theorem last_reads (hc : c < w.clients.length) (mem : c ∈ (w.pool p).members) :
    (((w.onClient c fun k => { k with references := 0 }).onPool p Pool.giveBack).client
        c).isBroken = (w.client c).isBroken ∧
      (((w.onClient c fun k => { k with references := 0 }).onPool p Pool.giveBack).pool
        p).closing = (w.pool p).closing := by
  constructor
  · rw [World.client_onPool, World.client_onClient w hc]
    rfl
  · rw [World.pool_onPool (w.onClient c _) (World.lt_length_of_mem mem)]
    rfl

/-- The last reference is given back to a client that is broken, or of a pool that is closing: the
client leaves the pool, and then it is sent off. -/
theorem step_of_last_discarded (hc : c < w.clients.length) (mem : c ∈ (w.pool p).members)
    (one : (w.client c).references = 1) (unwanted : w.Unwanted p c) :
    (step w p c).world = w.discarded p c ∧
      (step w p c).point = .farewell .disconnect false [c] (.destroy [c] (.ok .done)) := by
  obtain ⟨hbroken, hclosing⟩ := last_reads hc mem
  rw [step_of_one mem one]
  simp only [Turn.saying, last, hbroken, hclosing]
  by_cases hb : (w.client c).isBroken = true
  · rw [if_pos hb]
    exact ⟨World.onPool_onPool _ _ _ _, rfl⟩
  · rw [if_neg hb, if_pos (unwanted.resolve_left hb)]
    exact ⟨World.onPool_onPool _ _ _ _, rfl⟩

/-- The last reference is given back to a client that is whole, of a pool that is open: the client
is idle. -/
theorem step_of_last_returned (hc : c < w.clients.length) (mem : c ∈ (w.pool p).members)
    (one : (w.client c).references = 1) (wanted : ¬ w.Unwanted p c) :
    (step w p c).world = w.returned p c ∧ (step w p c).point = .finished (.ok .done) := by
  obtain ⟨hbroken, hclosing⟩ := last_reads hc mem
  obtain ⟨whole, isOpen⟩ := not_or.mp wanted
  rw [step_of_one mem one]
  simp only [Turn.saying, last, keep, hbroken, hclosing]
  rw [if_neg whole, if_neg isOpen]
  refine ⟨?_, rfl⟩
  show (((w.onClient c _).onClient c _).onPool p _).onPool p _ = _
  rw [World.onPool_onPool, World.onClient_onClient]
  rfl

/-- Otherwise the caller is told of a misuse. -/
theorem step_of_not_lent (h : ¬ w.Releasable p c) :
    ∃ f : Fault, f.kind = .misuse ∧ step w p c = .finish w (.error f) := by
  simp only [step]
  split
  · exact ⟨_, rfl, rfl⟩
  · next mem =>
    have hnone : (w.client c).references = 0 := by
      by_contra hne
      exact h ⟨not_not.mp mem, hne⟩
    simp only [Client.dropReference?, hnone, if_true]
    exact ⟨_, rfl, rfl⟩

/-- Whoever has a reference to a member can give it back. -/
theorem point_of_lent (hc : c < w.clients.length) (h : w.Releasable p c) :
    (step w p c).point.Concluding (.ok .done) := by
  by_cases one : (w.client c).references = 1
  · by_cases unwanted : w.Unwanted p c
    · rw [(step_of_last_discarded hc h.1 one unwanted).2]
      exact .parting
    · rw [(step_of_last_returned hc h.1 one unwanted).2]
      exact .ended
  · rw [step_of_more h one]
    exact .ended

end Release

namespace Machine

variable {m n : Machine} {e : Event} {k : CallKey} {call call' : Call} {t : Turn}

/-! ## Events -/

/-- In this event, which leads to `n`, a call that adds a reference to a client of a pool ends, and
with success. -/
def Adds (m : Machine) (e : Event) (n : Machine) (p : PoolKey) (c : ClientKey) : Prop :=
  m.perform e = some n ∧ ∃ k call leased call' y, m.call? k = some call ∧
    call.point = .addReference p c leased ∧ e.isTurnOf k = true ∧ n.call? k = some call' ∧
      call'.point = .finished (.ok y)

/-- In this event, which leads to `n`, a call that gives a reference to a client back to a pool
takes its step, and is not told of an error. -/
def GivesBack (m : Machine) (e : Event) (n : Machine) (p : PoolKey) (c : ClientKey) : Prop :=
  m.perform e = some n ∧ ∃ k call leased call', m.call? k = some call ∧
    call.point = .release p c leased ∧ e.isTurnOf k = true ∧ n.call? k = some call' ∧
      ∀ f, call'.point ≠ .finished (.error f)

theorem turn_of_addReference (fresh : CallKey) (ended : CallKey → Bool)
    (hx : call.point = .addReference p c leased) :
    turn w fresh ended call = some (Share.step w p c leased) := by
  simp [turn, hx]

theorem turn_of_release (fresh : CallKey) (ended : CallKey → Bool)
    (hx : call.point = .release p c leased) :
    turn w fresh ended call = some (Release.step w p c) := by
  simp [turn, hx]

/-- A call that adds a reference has one turn. -/
theorem Takes.of_addReference (h : m.Takes k call e t)
    (hx : call.point = .addReference p c leased) :
    (∃ pick, e = .advance k pick) ∧ t = Share.step m.world p c leased := by
  obtain ⟨he, ht⟩ := h.turn_eq (by rw [hx]; rfl) (by rw [hx]; rfl) (by simp [hx])
  rw [turn_of_addReference _ _ hx] at ht
  exact ⟨he (by simp [hx]), (Option.some.inj ht).symm⟩

/-- A call that gives a reference back has one turn. -/
theorem Takes.of_release (h : m.Takes k call e t) (hx : call.point = .release p c leased) :
    t = Release.step m.world p c := by
  obtain ⟨-, ht⟩ := h.turn_eq (by rw [hx]; rfl) (by rw [hx]; rfl) (by simp [hx])
  rw [turn_of_release _ _ hx] at ht
  exact (Option.some.inj ht).symm

theorem awake_share : (Share.step w p c leased).point.sleeps = false := by
  simp only [Share.step]
  repeat' split
  all_goals rfl

theorem awake_release : (Release.step w p c).point.sleeps = false := by
  simp only [Release.step, Release.last, Release.keep, Turn.saying]
  repeat' split
  all_goals rfl

/-- What a call finds that adds a reference, and where it stands then. -/
theorem exists_share (hn : m.perform e = some n) (hk : m.call? k = some call)
    (hx : call.point = .addReference p c leased) (he : e.isTurnOf k = true) :
    ∃ call', n.call? k = some call' ∧ n.world = (Share.step m.world p c leased).world ∧
      call'.point = (Share.step m.world p c leased).point := by
  obtain ⟨call', t, hk', takes, hworld, hw, -⟩ := (happens hn).exists_takes hk he
  obtain ⟨-, rfl⟩ := takes.of_addReference hx
  exact ⟨call', hk', hworld, hw.eq_of_awake awake_share⟩

/-- What a call finds that gives a reference back, and where it stands then. -/
theorem exists_release (hn : m.perform e = some n) (hk : m.call? k = some call)
    (hx : call.point = .release p c leased) (he : e.isTurnOf k = true) :
    ∃ call', n.call? k = some call' ∧ n.world = (Release.step m.world p c).world ∧
      call'.point = (Release.step m.world p c).point := by
  obtain ⟨call', t, hk', takes, hworld, hw, -⟩ := (happens hn).exists_takes hk he
  obtain rfl := takes.of_release hx
  exact ⟨call', hk', hworld, hw.eq_of_awake awake_release⟩

/-- A reference is added only to a client that is lent. -/
theorem Adds.shareable (h : m.Adds e n p c) : m.world.Shareable p c ∧
    (m.world.client c).references ≠ Client.mostReferences ∧
      n.world.clients = (m.world.shared c).clients := by
  obtain ⟨hn, k, call, leased, call', y, hk, hx, he, hk', hy⟩ := h
  obtain ⟨call'', hk'', hworld, hpoint⟩ := exists_share hn hk hx he
  obtain rfl := Option.some.inj (hk'.symm.trans hk'')
  rw [hy] at hpoint
  have hshareable : m.world.Shareable p c := by
    by_contra hnot
    obtain ⟨f, -, hf⟩ := Share.step_of_not_lent leased hnot
    rw [hf] at hpoint
    cases hpoint
  have hcountable : (m.world.client c).references ≠ Client.mostReferences := by
    intro hfull
    rw [Share.step_of_full hshareable hfull] at hpoint
    cases hpoint
  refine ⟨hshareable, hcountable, ?_⟩
  rw [hworld, Share.step_of_lent hshareable hcountable]
  exact Acquire.clients_lend

/-- A call that finds a client lent adds a reference, if that can be counted. -/
theorem adds_of_shareable (hn : m.perform e = some n) (hk : m.call? k = some call)
    (hx : call.point = .addReference p c leased) (he : e.isTurnOf k = true)
    (h : m.world.Shareable p c)
    (countable : (m.world.client c).references ≠ Client.mostReferences) : m.Adds e n p c := by
  obtain ⟨call', hk', -, hpoint⟩ := exists_share hn hk hx he
  rw [Share.step_of_lent h countable] at hpoint
  exact ⟨hn, k, call, leased, call', _, hk, hx, he, hk', hpoint⟩

/-- A reference is given back only to the pool of a client that has some, by a call that takes its
step. -/
theorem GivesBack.releasable (h : m.GivesBack e n p c) : m.world.Releasable p c ∧
    n.world = (Release.step m.world p c).world ∧
      ∃ k leased, (m.call? k).map Call.point = some (.release p c leased) ∧
        (n.call? k).map Call.point = some (Release.step m.world p c).point := by
  obtain ⟨hn, k, call, leased, call', hk, hx, he, hk', hnot⟩ := h
  obtain ⟨call'', hk'', hworld, hpoint⟩ := exists_release hn hk hx he
  obtain rfl := Option.some.inj (hk'.symm.trans hk'')
  refine ⟨?_, hworld, k, leased, by rw [hk, Option.map_some, hx], by
    rw [hk', Option.map_some, hpoint]⟩
  by_contra hlent
  obtain ⟨f, -, hf⟩ := Release.step_of_not_lent hlent
  rw [hf] at hpoint
  exact hnot f hpoint

/-- A call that has a reference to a member to give back does so. -/
theorem givesBack_of_releasable (hn : m.perform e = some n) (hk : m.call? k = some call)
    (hx : call.point = .release p c leased) (he : e.isTurnOf k = true)
    (hc : c < m.world.clients.length) (h : m.world.Releasable p c) : m.GivesBack e n p c := by
  obtain ⟨call', hk', -, hpoint⟩ := exists_release hn hk hx he
  refine ⟨hn, k, call, leased, call', hk, hx, he, hk', fun f hf => ?_⟩
  have hconcluding := Release.point_of_lent hc h
  rw [← hpoint, hf] at hconcluding
  cases hconcluding

/-! ## Calls -/

/-- What every call can do that adds a reference to a client of a pool or gives one back.  If the
client is as it should be, it succeeds and only what has to be changed is changed.  Otherwise the
caller is told of a misuse, and nothing is changed.  Nothing is said of a reference too many to be
counted. -/
structure CountsExactly (m : Machine) (p : PoolKey) (c : ClientKey) : Prop where
  added : ∀ k call leased, m.call? k = some call → call.point = .addReference p c leased →
    m.world.Shareable p c → (m.world.client c).references.toNat + 1 < 2 ^ 64 →
      m.Leads k ((m.world.shared c).handOver p c leased).1
        (.finished (.ok ((m.world.shared c).handOver p c leased).2))
  unadded : ∀ k call leased, m.call? k = some call → call.point = .addReference p c leased →
    ¬ m.world.Shareable p c → ∃ f : Fault, f.kind = .misuse ∧ m.Ends k (.error f)
  dropped : ∀ k call leased, m.call? k = some call → call.point = .release p c leased →
    m.world.Releasable p c → (m.world.client c).references ≠ 1 →
      m.Leads k (m.world.dropped c) (.finished (.ok .done))
  returned : ∀ k call leased, m.call? k = some call → call.point = .release p c leased →
    m.world.Releasable p c → (m.world.client c).references = 1 → ¬ m.world.Unwanted p c →
      m.Leads k (m.world.returned p c) (.finished (.ok .done))
  discarded : ∀ k call leased, m.call? k = some call → call.point = .release p c leased →
    m.world.Releasable p c → (m.world.client c).references = 1 → m.world.Unwanted p c →
      m.Leads k (m.world.discarded p c)
        (.farewell .disconnect false [c] (.destroy [c] (.ok .done)))
  undropped : ∀ k call leased, m.call? k = some call → call.point = .release p c leased →
    ¬ m.world.Releasable p c → ∃ f : Fault, f.kind = .misuse ∧ m.Ends k (.error f)

/-- A client of a sound machine that is a member has been made. -/
theorem Sound.lt_length_of_mem (hm : m.Sound) (hc : c ∈ (m.world.pool p).members) :
    c < m.world.clients.length :=
  (World.mem_own.mp ((hm.seated p).mem_own_of_mem hc)).1

/-- A client of a pool to which there are references is a member. -/
theorem Reachable.releasable (hm : m.Reachable) (hc : c ∈ m.world.own p)
    (hrefs : (m.world.client c).references ≠ 0) : m.world.Releasable p c := by
  have hclient : (m.books p).client c = m.world.client c := World.books_client _ hc
  exact ⟨hm.lent p c hc (by rwa [hclient]), hrefs⟩

/-- References are counted exactly. -/
theorem Reachable.countsExactly (hm : m.Reachable) (hcrashed : m.world.crashed = false)
    (p : PoolKey) (c : ClientKey) : m.CountsExactly p c where
  added k call leased hk hx h hless := by
    have hcountable : (m.world.client c).references ≠ Client.mostReferences := by
      intro hfull
      rw [hfull] at hless
      exact absurd hless (by decide)
    have hleads := leads_of_turn hcrashed hk (turn_of_addReference _ _ hx) awake_share
    rwa [Share.step_of_lent h hcountable] at hleads
  unadded k call leased hk hx h := by
    obtain ⟨f, hkind, hf⟩ := Share.step_of_not_lent leased h
    refine ⟨f, hkind, ends_of_turn hcrashed hk ?_⟩
    rw [turn_of_addReference _ _ hx, hf]
  dropped k call leased hk hx h more := by
    have hleads := leads_of_turn hcrashed hk (turn_of_release _ _ hx) awake_release
    rwa [Release.step_of_more h more] at hleads
  returned k call leased hk hx h one wanted := by
    have hleads := leads_of_turn hcrashed hk (turn_of_release _ _ hx) awake_release
    obtain ⟨hworld, hpoint⟩ :=
      Release.step_of_last_returned (hm.sound.lt_length_of_mem h.1) h.1 one wanted
    rwa [hworld, hpoint] at hleads
  discarded k call leased hk hx h one unwanted := by
    have hleads := leads_of_turn hcrashed hk (turn_of_release _ _ hx) awake_release
    obtain ⟨hworld, hpoint⟩ :=
      Release.step_of_last_discarded (hm.sound.lt_length_of_mem h.1) h.1 one unwanted
    rwa [hworld, hpoint] at hleads
  undropped k call leased hk hx h := by
    obtain ⟨f, hkind, hf⟩ := Release.step_of_not_lent h
    refine ⟨f, hkind, ends_of_turn hcrashed hk ?_⟩
    rw [turn_of_release _ _ hx, hf]

end Machine
end SessionPool
