import SessionPool.Proofs.Brokenness
import SessionPool.Proofs.Sharing

/-!
# Loans

A client is lent with one reference.  Its holders add references and give them back in any order,
and while they do, the client may break and its pool may close.  With every reference added, one
more has to be given back before the loan is over, and nothing else ends it.

Only what succeeds counts: a call that is told of a misuse is nothing to the loan.  And only what
takes effect counts, so that a loan goes on from event to event and not from call to call: a
reference is there as soon as the step is taken that adds it, whenever its caller is told.

That the loan is not ended by anything else has two parts.  A member to which there are references
is not idle, and nobody pings it or sends it off (`Machine.Reachable.lent`,
`Machine.Reachable.unseated_of_outgoing`); and a client that is none of these is only ever told
something or found broken (`Treatment.kept`), which changes neither its references nor its session.

* `Machine.Loan`: a loan, and how many references have been added and given back since it began.
* `Machine.Loan.onLoan`: what holds while it lasts.
* `Machine.Loan.takenBack`, `Machine.Loan.dismissed`: how it ends.
* `Machine.references_exact`: all this of every reachable machine.
-/

namespace SessionPool

/-! ## One client -/

/-- A client goes on with its session: it is not asked to disconnect, and is told no less. -/
structure Client.Continues (k k' : Client) : Prop where
  id : k'.id = k.id
  home : k'.home = k.home
  destroyed : k'.destroyed = k.destroyed
  disconnects : k'.session.disconnects = k.session.disconnects
  commands : k.session.commands <+: k'.session.commands

namespace Client.Continues

variable {k k' k'' : Client}

theorem refl (k : Client) : k.Continues k := ⟨rfl, rfl, rfl, rfl, List.prefix_rfl⟩

theorem trans (h : k.Continues k') (h' : k'.Continues k'') : k.Continues k'' where
  id := h'.id.trans h.id
  home := h'.home.trans h.home
  destroyed := h'.destroyed.trans h.destroyed
  disconnects := h'.disconnects.trans h.disconnects
  commands := h.commands.trans h'.commands

/-- References and states do not matter to the session. -/
theorem of_session (id : k'.id = k.id) (home : k'.home = k.home)
    (destroyed : k'.destroyed = k.destroyed) (session : k'.session = k.session) :
    k.Continues k' :=
  ⟨id, home, destroyed, by rw [session], by rw [session]⟩

theorem breakDown (k : Client) : k.Continues k.breakDown := by
  unfold Client.breakDown
  split
  · exact refl k
  · exact of_session rfl rfl rfl rfl

theorem receive (k : Client) (command : Text) : k.Continues (k.receive command) := by
  refine ⟨rfl, rfl, rfl, ?_, ?_⟩
  all_goals unfold Client.receive Session.receive
  · split <;> rfl
  · split
    · exact List.prefix_append _ _
    · exact List.prefix_rfl

end Client.Continues

namespace Treatment

variable {w : World} {c : ClientKey} {x : Point} {k : Client}

/-- A client that is neither at hand nor on its way out keeps its references and its session, unless
it is shared or given back. -/
theorem kept (h : Treatment w c x k) (unqueued : ∀ p, c ∉ (w.pool p).idle)
    (unstaked : ∀ p, c ∉ (x.stake p).arrived) (stays : c ∉ x.outgoing) :
    (k.references = (w.client c).references ∧ (w.client c).Continues k) ∨
      (∃ p leased, x = .addReference p c leased ∧ w.Shareable p c) ∨
      ∃ p leased, x = .release p c leased ∧ w.Releasable p c := by
  cases h with
  | left => exact .inl ⟨rfl, .refl _⟩
  | @lent p t leased s rest hx isOpen front =>
    exact absurd (front ▸ List.mem_cons_self) (unqueued p)
  | @enrolled p t leased hx isOpen =>
    exact absurd (by rw [hx, Acquire.stake_arrived]; simp) (unstaked p)
  | @stocked p left hx => exact absurd (by rw [hx, Stock.stake_arrived]; simp) (unstaked p)
  | shared hx mem busy lent => exact .inr (.inl ⟨_, _, hx, mem, busy, lent⟩)
  | dropped hx mem lent more => exact .inr (.inr ⟨_, _, hx, mem, lent⟩)
  | returned hx mem last isOpen whole =>
    exact .inr (.inr ⟨_, _, hx, mem, by rw [last]; decide⟩)
  | discarded hx mem last cause => exact .inr (.inr ⟨_, _, hx, mem, by rw [last]; decide⟩)
  | commanded command => exact .inl ⟨rfl, .receive _ command⟩
  | broken => exact .inl ⟨Client.breakDown_references _, .breakDown _⟩
  | asked outgoing => exact absurd outgoing stays
  | departed rite connected outgoing was => exact absurd outgoing stays

end Treatment

namespace Machine

variable {m n : Machine} {e : Event} {k : Client} {j : CallKey} {call call' : Call} {t : Turn}
  {p q : PoolKey} {c : ClientKey} {a r : ℕ} {es : List Event}

/-- A client is a member of one pool only. -/
theorem Sound.eq_of_mem (hm : m.Sound) (hp : c ∈ (m.world.pool p).members)
    (hq : c ∈ (m.world.pool q).members) : q = p := by
  by_contra hne
  exact World.notMem_own_of_ne ((hm.seated p).mem_own_of_mem hp) hne
    ((hm.seated q).mem_own_of_mem hq)

/-- A member to which there are references keeps them and goes on with its session, in every event
in which no reference is added or given back. -/
theorem Reachable.kept (hm : m.Reachable) (h : m.world.Releasable p c)
    (hn : m.perform e = some n) (unadded : ¬ m.Adds e n p c) (unreturned : ¬ m.GivesBack e n p c)
    (countable : m.mishap? e ≠ some (.overflow c)) :
    (n.world.client c).references = (m.world.client c).references ∧
      (m.world.client c).Continues (n.world.client c) := by
  have hlt : c < m.world.clients.length := hm.sound.lt_length_of_mem h.1
  cases happens hn with
  | @turn _ j call t pick s hk takes sequel =>
    have hkept := (takes.treatment hlt).kept
      (fun q hi => h.2 (hm.sound.of_mem_idle hi).2.1)
      (fun q ha => h.2 (hm.sound.unreferenced_of_arrived (mem_arrived_stake hk ha)))
      (fun ho => (hm.unseated_of_outgoing call (List.mem_of_getElem? hk) c ho).2.notMem_members
        p h.1)
    rcases hkept with hkept | ⟨q, leased, hx, hshareable⟩ | ⟨q, leased, hx, hreleasable⟩
    · exact hkept
    · obtain rfl := hm.sound.eq_of_mem h.1 hshareable.1
      by_cases hfull : (m.world.client c).references = Client.mostReferences
      · obtain ⟨⟨pick, rfl⟩, -⟩ := takes.of_addReference hx
        exact absurd (by simp [mishap?, hk, hx, hfull, h.1]) countable
      · exact absurd (adds_of_shareable hn hk hx takes.isTurnOf hshareable hfull) unadded
    · obtain rfl := hm.sound.eq_of_mem h.1 hreleasable.1
      exact absurd (givesBack_of_releasable hn hk hx takes.isTurnOf hlt hreleasable) unreturned
  | enter permits =>
    rw [client_begin]
    exact ⟨rfl, .refl _⟩
  | @aside _ w befalls =>
    show (w.client c).references = _ ∧ (m.world.client c).Continues (w.client c)
    rcases befalls.client hlt with hw | ⟨-, hw⟩ | ⟨connected, -, hw⟩ | ⟨s, -, hw⟩ | ⟨hand, count, -⟩
    · exact hw ▸ ⟨rfl, .refl _⟩
    · rw [hw]
      exact ⟨Client.breakDown_references _, .breakDown _⟩
    · rw [hw]
      exact ⟨rfl, rfl, rfl, rfl, rfl, List.prefix_rfl⟩
    · rw [hw]
      exact ⟨rfl, .of_session rfl rfl rfl rfl⟩
    · exact absurd h.1 ((hm.sound.unseated_of_handmade hand).2.notMem_members p)

/-! ## Loans -/

/-- A client of a pool, as it was when it was lent, is on loan, and since then references to it have
been added and given back so and so many times. -/
inductive Loan (p : PoolKey) (c : ClientKey) : Client → Machine → ℕ → ℕ → Prop where
  /-- It is lent. -/
  | lent {m n : Machine} {e : Event} (hm : m.Reachable) (lends : m.Lends e n p c) :
      Loan p c (n.world.client c) n 0 0
  /-- A reference is added. -/
  | added {k : Client} {m n : Machine} {e : Event} {a r : ℕ} (loan : Loan p c k m a r)
      (adds : m.Adds e n p c) : Loan p c k n (a + 1) r
  /-- A reference is given back, and not the last one. -/
  | returned {k : Client} {m n : Machine} {e : Event} {a r : ℕ} (loan : Loan p c k m a r)
      (more : r < a) (returns : m.GivesBack e n p c) : Loan p c k n a (r + 1)
  /-- Something else happens, but no count of references wraps around. -/
  | other {k : Client} {m n : Machine} {e : Event} {a r : ℕ} (loan : Loan p c k m a r)
      (hn : m.perform e = some n) (unadded : ¬ m.Adds e n p c)
      (unreturned : ¬ m.GivesBack e n p c) (countable : m.mishap? e ≠ some (.overflow c)) :
      Loan p c k n a r

/-- A client is borrowed: it is a member and at nobody's disposal, it has one reference for the loan
and one for each that was added and not given back, and it goes on with the session that it had when
it was lent. -/
structure OnLoan (m : Machine) (p : PoolKey) (c : ClientKey) (k : Client) (a r : ℕ) : Prop where
  count : (m.world.client c).references.toNat + r = a + 1
  within : r ≤ a
  member : c ∈ (m.world.pool p).members
  unqueued : c ∉ (m.world.pool p).idle
  undrained : ∀ j, c ∉ m.drainedBy p j
  continues : k.Continues (m.world.client c)

/-- Somebody has a reference to it. -/
theorem OnLoan.releasable (h : m.OnLoan p c k a r) : m.world.Releasable p c := by
  refine ⟨h.member, fun hnone => ?_⟩
  have hcount := h.count
  have hwithin := h.within
  rw [hnone, UInt64.toNat_zero] at hcount
  omega

/-- A client of the pool to which there are references is at nobody's disposal. -/
theorem OnLoan.of_count (hm : m.Reachable) (hc : c ∈ m.world.own p)
    (count : (m.world.client c).references.toNat + r = a + 1) (within : r ≤ a)
    (continues : k.Continues (m.world.client c)) : m.OnLoan p c k a r := by
  have hlent : (m.world.client c).references ≠ 0 := by
    intro hnone
    rw [hnone, UInt64.toNat_zero] at count
    omega
  exact
    { count, within, continues
      member := hm.lent p c hc (by rwa [Machine.books, World.books_client _ hc])
      unqueued := fun hi => hlent (hm.sound.of_mem_idle hi).2.1
      undrained := fun j hd => hlent (hm.sound.of_mem_drainedBy hd).2.1 }

theorem client_shared (hc : c < m.world.clients.length)
    (hn : n.world.clients = (m.world.shared c).clients) :
    n.world.client c =
      { m.world.client c with references := (m.world.client c).references + 1 } :=
  calc n.world.client c = (m.world.shared c).client c := by simp only [World.client, hn]
    _ = _ := World.client_onClient m.world hc _

/-- While a loan lasts, its client is borrowed. -/
theorem Loan.onLoan (h : Loan p c k m a r) : m.Reachable ∧ m.OnLoan p c k a r := by
  induction h with
  | @lent m n e hm lends =>
    obtain ⟨-, hown, -, hclient⟩ := hm.lends lends
    refine ⟨hm.perform lends.1, .of_count (hm.perform lends.1) ?_ ?_ le_rfl (.refl _)⟩
    · exact hm.sound.mem_own_perform lends.1 hown
    · rw [hclient]
      rfl
  | @added k m n e a r loan adds ih =>
    obtain ⟨hm, ih⟩ := ih
    have hown : c ∈ m.world.own p := (hm.sound.seated p).mem_own_of_mem ih.member
    obtain ⟨-, countable, hworld⟩ := adds.shareable
    have hclient := client_shared (World.mem_own.mp hown).1 hworld
    refine ⟨hm.perform adds.1, .of_count (hm.perform adds.1) ?_ ?_ (Nat.le_succ_of_le ih.within)
      (ih.continues.trans ?_)⟩
    · exact hm.sound.mem_own_perform adds.1 hown
    · have hcount := ih.count
      rw [hclient, toNat_succ countable]
      omega
    · rw [hclient]
      exact .of_session rfl rfl rfl rfl
  | @returned k m n e a r loan more returns ih =>
    obtain ⟨hm, ih⟩ := ih
    have hown : c ∈ m.world.own p := (hm.sound.seated p).mem_own_of_mem ih.member
    have hcount := ih.count
    have hmore : (m.world.client c).references ≠ 1 := by
      intro hone
      rw [hone, UInt64.toNat_one] at hcount
      omega
    obtain ⟨hlent, hworld, -⟩ := returns.releasable
    rw [Release.step_of_more hlent hmore] at hworld
    have hclient : n.world.client c =
        { m.world.client c with references := (m.world.client c).references - 1 } := by
      rw [hworld]
      exact World.client_onClient m.world (World.mem_own.mp hown).1 _
    refine ⟨hm.perform returns.1, .of_count (hm.perform returns.1) ?_ ?_ more
      (ih.continues.trans ?_)⟩
    · exact hm.sound.mem_own_perform returns.1 hown
    · rw [hclient, toNat_sub_one (by omega)]
      omega
    · rw [hclient]
      exact .of_session rfl rfl rfl rfl
  | @other k m n e a r loan hn unadded unreturned countable ih =>
    obtain ⟨hm, ih⟩ := ih
    have hown : c ∈ m.world.own p := (hm.sound.seated p).mem_own_of_mem ih.member
    obtain ⟨hrefs, hcontinues⟩ := hm.kept ih.releasable hn unadded unreturned countable
    refine ⟨hm.perform hn, .of_count (hm.perform hn) ?_ ?_ ih.within
      (ih.continues.trans hcontinues)⟩
    · exact hm.sound.mem_own_perform hn hown
    · rw [hrefs]
      exact ih.count

/-- In every event a loan goes on, unless the last reference is given back. -/
theorem Loan.perform (h : Loan p c k m a r) (hn : m.perform e = some n)
    (countable : m.mishap? e ≠ some (.overflow c)) :
    Loan p c k n (a + 1) r ∨ Loan p c k n a (r + 1) ∨ Loan p c k n a r ∨
      r = a ∧ m.GivesBack e n p c := by
  by_cases hadds : m.Adds e n p c
  · exact .inl (h.added hadds)
  · by_cases hreturns : m.GivesBack e n p c
    · rcases Nat.lt_or_eq_of_le h.onLoan.2.within with hless | heq
      · exact .inr (.inl (h.returned hless hreturns))
      · exact .inr (.inr (.inr ⟨heq, hreturns⟩))
    · exact .inr (.inr (.inl (h.other hn hadds hreturns countable)))

/-- An event in which no call takes a turn does nothing to a loan. -/
theorem Loan.aside (h : Loan p c k m a r) (hn : m.perform e = some n)
    (he : ∀ j, e.isTurnOf j = false) : Loan p c k n a r := by
  refine h.other hn ?_ ?_ ?_
  · rintro ⟨-, j, call, leased, call', y, -, -, hj, -⟩
    exact Bool.noConfusion ((he j).symm.trans hj)
  · rintro ⟨-, j, call, leased, call', -, -, hj, -⟩
    exact Bool.noConfusion ((he j).symm.trans hj)
  · intro hoverflow
    obtain ⟨j, pick, rfl⟩ : ∃ j pick, e = .advance j pick := by
      unfold mishap? at hoverflow
      split at hoverflow
      · exact ⟨_, _, rfl⟩
      all_goals
        repeat' split at hoverflow
        all_goals cases hoverflow
    simpa [Event.isTurnOf] using he j

/-! ## Clients that are sent off -/

/-- A call is disconnecting a client that it has discarded, to destroy it then. -/
def PartsFrom (m : Machine) (j : CallKey) (c : ClientKey) (waiting : Bool) : Prop :=
  ∃ call, m.call? j = some call ∧
    call.point = .farewell .disconnect waiting [c] (.destroy [c] (.ok .done))

/-- A call has disconnected a client, and these events have led here since it began to.  The client
is disconnected unless its state was overwritten, and so is its session unless that failed or the
connection was found again. -/
structure Parted (m : Machine) (j : CallKey) (c : ClientKey) (es : List Event) : Prop where
  state : (∀ s, .setState c s ∉ es) → (m.world.client c).state = .disconnected
  session : (∀ reason, .answer j (.disconnected (.failed reason)) ∉ es) →
    .connection c true ∉ es → (m.world.client c).session.connected = false

/-- A call disconnects a client in at most two turns of its own, which it can take in every run, and
then it ends with success. -/
structure SeesOff (m : Machine) (j : CallKey) (c : ClientKey) : Prop where
  parts : ∀ es n, m.run es = some n → n.Parted j c es ∨
    ∃ waiting, n.PartsFrom j c waiting ∧
      es.countP (Event.isTurnOf j) = (if waiting then 1 else 0) ∧
        (n.world.crashed = false → ∃ e l, e.isTurnOf j = true ∧ n.perform e = some l)
  ends : ∀ call, m.call? j = some call → call.sequel = .none → ∀ es n, m.run es = some n →
    ∃ call', n.call? j = some call' ∧ call'.point.Concluding (.ok .done)

theorem PartsFrom.unseated {waiting : Bool} (h : m.PartsFrom j c waiting) (hm : m.Reachable) :
    c < m.world.clients.length ∧ m.Unseated c := by
  obtain ⟨call, hk, hx⟩ := h
  refine hm.unseated_of_outgoing call (List.mem_of_getElem? hk) c ?_
  rw [hx]
  simp [Point.outgoing]

/-- A client that has been disconnected stays so. -/
theorem Parted.perform (h : m.Parted j c es) (hu : m.Unseated c) (hm : m.Sound)
    (hc : c < m.world.clients.length) (hn : m.perform e = some n) :
    n.Parted j c (es ++ [e]) where
  state hes := by
    simp only [List.mem_append, List.mem_singleton, not_or] at hes
    exact hu.disconnected_perform hm hc (h.state fun s => (hes s).1) hn
      fun s hs => (hes s).2 hs.symm
  session hfailed hfound := by
    simp only [List.mem_append, List.mem_singleton, not_or] at hfailed hfound
    exact unconnected_perform hc (h.session (fun reason => (hfailed reason).1) hfound.1) hn
      fun hs => hfound.2 hs.symm

theorem Parted.run (h : m.Parted j c es) (hu : m.Unseated c) (hm : m.Reachable)
    (hc : c < m.world.clients.length) {fs : List Event} (hn : m.run fs = some n) :
    n.Parted j c (es ++ fs) := by
  induction fs generalizing m es with
  | nil =>
    rw [run_nil, Option.some.injEq] at hn
    rwa [List.append_nil, ← hn]
  | cons f fs ih =>
    rw [run_cons, Option.bind_eq_some_iff] at hn
    obtain ⟨l, hl, hn⟩ := hn
    have hparted := ih (h.perform hu hm.sound hc hl) (hu.perform hm.sound hc hl) (hm.perform hl)
      (hc.trans_le (hm.sound.length_clients (happens hl))) hn
    rwa [List.append_assoc, List.singleton_append] at hparted

/-- A turn of a call that is disconnecting a client: it asks for that, or the client is
disconnected. -/
theorem Takes.parting {waiting : Bool} {next : Afterwards} (h : m.Takes j call e t)
    (hx : call.point = .farewell .disconnect waiting [c] next) (hc : c < m.world.clients.length) :
    (waiting = false ∧ t.point = .farewell .disconnect true [c] next) ∨
      (t.world.client c).state = .disconnected ∧
        ((∀ reason, e ≠ .answer j (.disconnected (.failed reason))) →
          (t.world.client c).session.connected = false) := by
  obtain ⟨x, sequel, notices⟩ := call
  simp only at hx
  subst hx
  cases h with
  | step ht =>
    cases waiting with
    | true => cases ht
    | false =>
      obtain rfl := Option.some.inj ht
      by_cases hs : (m.world.client c).session.connected = true
      · refine .inl ⟨rfl, ?_⟩
        simp [Farewell.step, hs, Turn.goto]
      · refine .inr ?_
        rw [Bool.not_eq_true] at hs
        simp only [Farewell.step, hs, Bool.false_eq_true, if_false, reduceCtorEq, false_and]
        rw [World.client_onClient m.world hc]
        exact ⟨rfl, fun _ => hs⟩
  | overlooked ht hpoint => cases hpoint
  | parted a hpoint =>
    cases hpoint
    refine .inr ?_
    cases a with
    | done =>
      simp only [Farewell.answered]
      rw [World.client_onClient m.world hc]
      exact ⟨rfl, fun _ => rfl⟩
    | failed reason =>
      simp only [Farewell.answered]
      rw [World.client_onClient m.world hc]
      exact ⟨rfl, fun h => absurd rfl (h reason)⟩
  | stocked a hpoint | opened a hpoint | pinged a hpoint | replied a hpoint => cases hpoint
  | expired hpoint limited => cases hpoint
  | beat hpoint wanted => cases hpoint

/-- A call that is disconnecting a client goes on with it in its turns, or has done so. -/
theorem PartsFrom.perform {waiting : Bool} (h : m.PartsFrom j c waiting)
    (hc : c < m.world.clients.length) (hn : m.perform e = some n) :
    (e.isTurnOf j = false ∧ n.PartsFrom j c waiting) ∨
      (e.isTurnOf j = true ∧ waiting = false ∧ n.PartsFrom j c true) ∨ n.Parted j c [e] := by
  obtain ⟨call, hk, hx⟩ := h
  by_cases he : e.isTurnOf j = true
  · obtain ⟨call', t, hk', takes, hworld, hw, -⟩ := (happens hn).exists_takes hk he
    refine .inr ?_
    rcases takes.parting hx hc with ⟨hwaiting, ht⟩ | ⟨hstate, hsession⟩
    · rw [ht] at hw
      exact .inl ⟨he, hwaiting, call', hk', hw.eq_of_awake rfl⟩
    · rw [← hworld] at hstate hsession
      exact .inr
        { state := fun _ => hstate
          session := fun hfailed _ =>
            hsession fun reason h => hfailed reason (List.mem_singleton.mpr h.symm) }
  · obtain ⟨call', hk', hcases⟩ := (happens hn).exists_call hk
    refine .inl ⟨Bool.not_eq_true _ ▸ he, call', hk', ?_⟩
    rcases hcases with ⟨hw, -⟩ | ⟨t, takes, -⟩
    · rw [hx] at hw
      exact hw.eq_of_awake rfl
    · exact absurd takes.isTurnOf he

/-- What a run makes of a call that is disconnecting a client. -/
theorem PartsFrom.run {waiting : Bool} (h : m.PartsFrom j c waiting) (hm : m.Reachable)
    (hn : m.run es = some n) : n.Parted j c es ∨
      ∃ waiting', n.PartsFrom j c waiting' ∧ es.countP (Event.isTurnOf j) +
        (if waiting then 1 else 0) = (if waiting' then 1 else 0) := by
  induction es generalizing m waiting with
  | nil =>
    rw [run_nil, Option.some.injEq] at hn
    exact .inr ⟨waiting, hn ▸ h, by simp⟩
  | cons e es ih =>
    rw [run_cons, Option.bind_eq_some_iff] at hn
    obtain ⟨l, hl, hn⟩ := hn
    obtain ⟨hc, hu⟩ := h.unseated hm
    have hgoes : ∀ {waiting' : Bool}, l.PartsFrom j c waiting' →
        (if e.isTurnOf j then 1 else 0) + (if waiting then 1 else 0) =
          (if waiting' then 1 else 0) → n.Parted j c (e :: es) ∨
        ∃ waiting', n.PartsFrom j c waiting' ∧ (e :: es).countP (Event.isTurnOf j) +
          (if waiting then 1 else 0) = (if waiting' then 1 else 0) := by
      intro waiting' hparts hcount
      rcases ih hparts (hm.perform hl) hn with hparted | ⟨waiting'', hparts', hcount'⟩
      · refine .inl ⟨fun hes => hparted.state fun s hs => hes s (List.mem_cons_of_mem e hs), ?_⟩
        exact fun hfailed hfound => hparted.session
          (fun reason hr => hfailed reason (List.mem_cons_of_mem e hr))
          fun hs => hfound (List.mem_cons_of_mem e hs)
      · refine .inr ⟨waiting'', hparts', ?_⟩
        rw [List.countP_cons]
        omega
    rcases h.perform hc hl with ⟨he, hparts⟩ | ⟨he, rfl, hparts⟩ | hparted
    · exact hgoes hparts (by rw [he]; simp)
    · exact hgoes hparts (by rw [he]; simp)
    · exact .inl (hparted.run (hu.perform hm.sound hc hl) (hm.perform hl)
        (hc.trans_le (hm.sound.length_clients (happens hl))) hn)

/-- A call that is disconnecting a client sees it off. -/
theorem PartsFrom.seesOff (h : m.PartsFrom j c false) (hm : m.Reachable) : m.SeesOff j c where
  parts es n hn := by
    rcases h.run hm hn with hparted | ⟨waiting, hparts, hcount⟩
    · exact .inl hparted
    · refine .inr ⟨waiting, hparts, by simpa using hcount, fun hcrashed => ?_⟩
      obtain ⟨call, hk, hx⟩ := hparts
      obtain ⟨e, t, takes⟩ := exists_takes_farewell (m := n) (k := j) hx
      obtain ⟨l, -, hl, -⟩ := takes.exists_perform hk hcrashed
      exact ⟨e, l, takes.isTurnOf, hl⟩
  ends call hk hs es n hn := by
    obtain ⟨call₀, hk₀, hx⟩ := h
    obtain rfl := Option.some.inj (hk.symm.trans hk₀)
    have hconcluding : call.point.Concluding (.ok .done) := by
      rw [hx]
      exact .parting
    obtain ⟨call', hk', hx', -⟩ := exists_concluding_run hk hconcluding hs hn
    exact ⟨call', hk', hx'⟩

/-! ## The end of a loan -/

/-- A client has been taken back: it has become idle and is in the queue once, at its end. -/
structure TakenBack (m n : Machine) (p : PoolKey) (c : ClientKey) : Prop where
  world : n.world = m.world.returned p c
  queued : (n.world.pool p).idle = (m.world.pool p).idle ++ [c]
  once : c ∉ (m.world.pool p).idle
  member : c ∈ (n.world.pool p).members
  client : n.world.client c = { m.world.client c with references := 0, state := .idle }
  ended : ∃ j leased, (m.call? j).map Call.point = some (.release p c leased) ∧
    (n.call? j).map Call.point = some (.finished (.ok .done))

/-- A client has been dismissed: it has left the pool, its slot is free, and it is being
disconnected. -/
structure Dismissed (m n : Machine) (p : PoolKey) (c : ClientKey) : Prop where
  world : n.world = m.world.discarded p c
  left : c ∉ (n.world.pool p).members
  unqueued : c ∉ (n.world.pool p).idle
  slot : (n.world.pool p).created.toNat + 1 = (m.world.pool p).created.toNat
  client : n.world.client c = { m.world.client c with references := 0 }
  sentOff : ∃ j leased, (m.call? j).map Call.point = some (.release p c leased) ∧ n.SeesOff j c

/-- With the last reference the loan of a client is over. -/
theorem OnLoan.last (h : m.OnLoan p c k a a) : (m.world.client c).references = 1 := by
  refine UInt64.toNat_inj.mp ?_
  have hcount := h.count
  rw [UInt64.toNat_one]
  omega

/-- A client to which there are references is in no queue. -/
theorem Sound.notMem_idle_of_references (hm : m.Sound) (hrefs : (m.world.client c).references ≠ 0) :
    c ∉ (m.world.pool p).idle :=
  fun hi => hrefs (hm.of_mem_idle hi).2.1

/-- When the last reference is given back to a client that is whole, of a pool that is open, it is
taken back. -/
theorem GivesBack.takenBack (hn : m.GivesBack e n p c) (hm : m.Reachable)
    (last : (m.world.client c).references = 1) (wanted : ¬ m.world.Unwanted p c) :
    TakenBack m n p c := by
  obtain ⟨⟨hmem, hrefs⟩, hworld, j, leased, hj, hx⟩ := hn.releasable
  have hp := World.lt_length_of_mem hmem
  have hc := hm.sound.lt_length_of_mem hmem
  obtain ⟨hreturned, hpoint⟩ := Release.step_of_last_returned hc hmem last wanted
  rw [hreturned] at hworld
  have hpool : n.world.pool p = (m.world.pool p).giveBack.pushIdle c := by
    rw [hworld]
    exact World.pool_onPool (m.world.onClient c _) hp _
  exact
    { world := hworld
      queued := by rw [hpool]; rfl
      once := hm.sound.notMem_idle_of_references hrefs
      member := by rw [hpool]; exact hmem
      client := by
        rw [hworld, World.returned, World.client_onPool]
        exact World.client_onClient m.world hc _
      ended := ⟨j, leased, hj, hpoint ▸ hx⟩ }

/-- When the last reference is given back to a client that is broken, or of a pool that is closing,
it is dismissed. -/
theorem GivesBack.dismissed (hn : m.GivesBack e n p c) (hm : m.Reachable)
    (last : (m.world.client c).references = 1) (unwanted : m.world.Unwanted p c) :
    Dismissed m n p c := by
  obtain ⟨⟨hmem, hrefs⟩, hworld, j, leased, hj, hx⟩ := hn.releasable
  have hp := World.lt_length_of_mem hmem
  have hc := hm.sound.lt_length_of_mem hmem
  obtain ⟨hdiscarded, hpoint⟩ := Release.step_of_last_discarded hc hmem last unwanted
  rw [hdiscarded] at hworld
  have hpool : n.world.pool p = (m.world.pool p).giveBack.detach c := by
    rw [hworld]
    exact World.pool_onPool (m.world.onClient c _) hp _
  have hparts : n.PartsFrom j c false := by
    rw [hpoint] at hx
    exact Option.map_eq_some_iff.mp hx
  have hslots : 0 < (m.world.pool p).created.toNat := by
    have hcreated := hm.sound.toNat_created p
    have hpos : 0 < (m.world.pool p).members.length := List.length_pos_of_mem hmem
    omega
  exact
    { world := hworld
      left := (hparts.unseated (hm.perform hn.1)).2.notMem_members p
      unqueued := by rw [hpool]; exact hm.sound.notMem_idle_of_references hrefs
      slot := by
        rw [hpool]
        show ((m.world.pool p).created - 1).toNat + 1 = _
        rw [toNat_sub_one hslots]
        omega
      client := by
        rw [hworld, World.discarded, World.client_onPool]
        exact World.client_onClient m.world hc _
      sentOff := ⟨j, leased, hj, hparts.seesOff (hm.perform hn.1)⟩ }

/-- So it is when a loan ends. -/
theorem Loan.takenBack (h : Loan p c k m a a) (hn : m.GivesBack e n p c)
    (wanted : ¬ m.world.Unwanted p c) : TakenBack m n p c :=
  hn.takenBack h.onLoan.1 h.onLoan.2.last wanted

theorem Loan.dismissed (h : Loan p c k m a a) (hn : m.GivesBack e n p c)
    (unwanted : m.world.Unwanted p c) : Dismissed m n p c :=
  hn.dismissed h.onLoan.1 h.onLoan.2.last unwanted

/-- References are counted exactly: every call that adds one or gives one back does just that or
changes nothing, and a loan lasts until one reference more has been given back than were added,
whoever holds them and whatever else happens. -/
structure ReferencesExact (m : Machine) (p : PoolKey) (c : ClientKey) : Prop where
  calls : m.world.crashed = false → m.CountsExactly p c
  lasts : ∀ k a r, Loan p c k m a r → m.OnLoan p c k a r
  /-- Every event goes on with a loan, or is the end of it: as many references have been given back
  as were added, and now another one is. -/
  goesOn : ∀ k a r e n, Loan p c k m a r → m.perform e = some n →
    m.mishap? e ≠ some (.overflow c) → Loan p c k n (a + 1) r ∨ Loan p c k n a (r + 1) ∨
      Loan p c k n a r ∨ r = a ∧ m.GivesBack e n p c
  takenBack : ∀ k a e n, Loan p c k m a a → m.GivesBack e n p c → ¬ m.world.Unwanted p c →
    TakenBack m n p c
  dismissed : ∀ k a e n, Loan p c k m a a → m.GivesBack e n p c → m.world.Unwanted p c →
    Dismissed m n p c

/-- In every machine that can be reached references are counted exactly. -/
theorem references_exact (hm : m.Reachable) (p : PoolKey) (c : ClientKey) :
    m.ReferencesExact p c where
  calls hcrashed := hm.countsExactly hcrashed p c
  lasts _ _ _ h := h.onLoan.2
  goesOn _ _ _ _ _ h hn countable := h.perform hn countable
  takenBack _ _ _ _ h hn wanted := h.takenBack hn wanted
  dismissed _ _ _ _ h hn unwanted := h.dismissed hn unwanted

/-- A run in which a client is made for a caller. -/
def madeForCaller : List Event :=
  [.begin (.construct {} { maxClients := 1 } true .standard), .advance 0 0,
    .begin (.acquire 0 0), .advance 1 0, .answer 1 (.opened (.session true))]

/-- How it goes on: the caller gets the client, another one shares it, it breaks, and one of the two
gives it back.  The other one is about to. -/
def givenBackByOne : List Event :=
  [.advance 1 0, .begin (.addReference 0 0), .advance 2 0, .breakDown 0, .begin (.release 0 0),
    .advance 3 0, .begin (.release 0 0)]

/-- It is still on loan then, and when both have given it back it is dismissed. -/
theorem references_exact_givenBackByOne : ∃ (k : Client) (m n : Machine),
    run {} (madeForCaller ++ givenBackByOne) = some m ∧ Loan 0 0 k m 1 1 ∧
      m.perform (.advance 4 0) = some n ∧ m.OnLoan 0 0 k 1 1 ∧ Dismissed m n 0 0 := by
  obtain ⟨k, m, hm, hloan, hunwanted, n, hn⟩ : ∃ k m,
      run {} (madeForCaller ++ givenBackByOne) = some m ∧ Loan 0 0 k m 1 1 ∧
        m.world.Unwanted 0 0 ∧ ∃ n, m.GivesBack (.advance 4 0) n 0 0 :=
    ⟨_, _, rfl,
      .aside (e := .begin (.release 0 0))
        (.returned (e := .advance 3 0)
          (.aside (e := .begin (.release 0 0))
            (.aside (e := .breakDown 0)
              (.added (e := .advance 2 0)
                (.aside (e := .begin (.addReference 0 0))
                  (.lent (e := .advance 1 0) ⟨madeForCaller, rfl⟩
                    ⟨rfl, 1, _, _, _, _, _, rfl, rfl, rfl, .inl rfl⟩)
                  rfl fun _ => rfl)
                ⟨rfl, 2, _, _, _, _, rfl, rfl, rfl, rfl, rfl⟩)
              rfl fun _ => rfl)
            rfl fun _ => rfl)
          Nat.one_pos ⟨rfl, 3, _, _, _, rfl, rfl, rfl, rfl, nofun⟩)
        rfl fun _ => rfl,
      .inl rfl, _, rfl, 4, _, _, _, rfl, rfl, rfl, rfl, nofun⟩
  have hexact : m.ReferencesExact 0 0 := references_exact ⟨_, hm⟩ 0 0
  exact ⟨k, m, n, hm, hloan, hn.1, hexact.lasts _ _ _ hloan,
    hexact.dismissed _ _ _ _ hloan hn hunwanted⟩

end Machine
end SessionPool
