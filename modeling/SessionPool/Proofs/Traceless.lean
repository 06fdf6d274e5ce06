import SessionPool.Proofs.Account
import SessionPool.Proofs.Vacancy

/-!
# Attempts that fail

A caller who gets no client leaves nothing behind.  It has given back what it took of every counter,
and if a session was opened for it that came too late, the client of that session was never among
the clients of any pool, and it has been sent off and destroyed before the caller is told.

A client that comes too late is on its way out from the very step in which its caller finds the pool
closing; until then it is in the hands of the caller, and no list has it.  So what became of it is
found by going from the turn in which it came to the next one (`Machine.Fate`).

* `Machine.Undone`: a client has come for a caller in vain.
* `Machine.LeavesNoTrace`: what a caller leaves behind that is told of an error.
* `Machine.failed_attempts_leave_no_trace`: this of every such caller in every run, and what the
  pool can lend after all of them.
-/

namespace SessionPool
namespace Machine

variable {m n l : Machine} {e : Event} {k : CallKey} {call call' : Call} {t : Turn} {p : PoolKey}
  {c : ClientKey} {es us vs : List Event} {f : Fault}

/-! ## Clients that have come for a caller -/

theorem Unseated.run (h : m.Unseated c) (hm : m.Reachable) (hc : c < m.world.clients.length)
    (hn : m.run es = some n) : n.Unseated c := by
  have hkept : c < n.world.clients.length ∧ n.Unseated c :=
    run_induct (P := fun l => c < l.world.clients.length ∧ l.Unseated c) hm ⟨hc, h⟩
      (fun l n e hl hP hn => ⟨hP.1.trans_le (hl.sound.length_clients (happens hn)),
        hP.2.perform hl.sound hP.1 hn⟩) hn
  exact hkept.2

theorem Reachable.length_clients_run (hm : m.Reachable) (hn : m.run es = some n) :
    m.world.clients.length ≤ n.world.clients.length :=
  run_induct (P := fun l => m.world.clients.length ≤ l.world.clients.length) hm le_rfl
    (fun _ _ _ hl hle hn => hle.trans (hl.sound.length_clients (happens hn))) hn

/-- A client for which a session has come is not idle or a member of any pool before. -/
theorem Reachable.notMem_of_le (hm : m.Reachable) (hc : m.world.clients.length ≤ c)
    (q : PoolKey) : c ∉ (m.world.pool q).members := fun hmem =>
  absurd (hm.sound.lt_length_of_mem hmem) (Nat.not_lt_of_le hc)

/-- Whoever has a new client takes it as its own, or sends it off. -/
theorem Takes.of_arrived {u : Patience} {leased : Bool} (h : m.Takes k call e t)
    (hx : call.point = .acquire p u leased (.arrived c)) :
    (∃ y, t.point = .finished (.ok y)) ∨
      ∃ f, t.point = .farewell .disconnect false [c] (.destroy [c] (.error f)) := by
  obtain ⟨-, ht⟩ := h.turn_eq (by rw [hx]; rfl) (by rw [hx]; rfl) (by simp [hx])
  simp only [Machine.turn, hx, Acquire.step, Option.some.injEq] at ht
  rw [← ht]
  simp only [Acquire.arrive]
  split
  · exact .inr ⟨_, rfl⟩
  · exact .inl ⟨_, rfl⟩

/-- What has become of a client that a call had in `m` and had not passed on. -/
inductive Fate (m : Machine) (k : CallKey) (call : Call) (c : ClientKey) (es : List Event)
    (n : Machine) : Prop where
  /-- The call has it still. -/
  | waits {call' : Call} (hk' : n.call? k = some call') (point : call'.point = call.point)
  /-- The caller has got it. -/
  | served {call' : Call} {y : Yield} (hk' : n.call? k = some call')
      (point : call'.point = .finished (.ok y)) (sequel : call'.sequel = .none)
  /-- It was sent off. -/
  | dismissed {us vs : List Event} {l : Machine} {call₁ : Call} {f : Fault}
      (split : es = us ++ vs) (before : m.run us = some l) (after : l.run vs = some n)
      (hk₁ : l.call? k = some call₁)
      (point : call₁.point = .farewell .disconnect false [c] (.destroy [c] (.error f)))
      (sequel : call₁.sequel = .none)

/-- Every run makes one of these of a client that has come. -/
theorem fate {u : Patience} {leased : Bool} (hk : m.call? k = some call)
    (hx : call.point = .acquire p u leased (.arrived c)) (hs : call.sequel = .none)
    (hn : m.run es = some n) : Fate m k call c es n := by
  cases course hk (by rw [hx]; rfl) hn with
  | rests hk' point sequel => exact .waits hk' point
  | @turns us vs e l l' call₁ call₂ t split before hk₁ point sequel takes hl hworld after hk₂ hw
      sequel' =>
    have hs' : call₂.sequel = .none := eq_none_of_sequel sequel' hs (by simp [hx])
    rcases takes.of_arrived (point.trans hx) with ⟨y, hy⟩ | ⟨f, hf⟩
    · have hpoint : call₂.point = .finished (.ok y) :=
        (hw.eq_of_awake (by rw [hy]; rfl)).trans hy
      obtain ⟨call', hk', hpoint', hsequel'⟩ :=
        (course hk₂ (by rw [hpoint]; rfl) after).of_finished hpoint hs'
      exact .served hk' hpoint' hsequel'
    · have hsplit : es = (us ++ [e]) ++ vs := by
        rw [split, List.append_assoc, List.singleton_append]
      exact .dismissed hsplit (run_snoc_iff.mpr ⟨_, before, hl⟩) after hk₂
        ((hw.eq_of_awake (by rw [hf]; rfl)).trans hf) hs'

/-- A client that is sent off in the end was in no list before. -/
theorem Fate.notMem_members {u : Patience} {leased : Bool} (h : Fate m k call c es l)
    (hm : m.Reachable) (hl : m.run es = some l)
    (hx : call.point = .acquire p u leased (.arrived c)) (hn : l.run vs = some n)
    (hk' : n.call? k = some call') (hf : call'.point = .finished (.error f)) (q : PoolKey) :
    c ∉ (l.world.pool q).members := by
  have hreach : l.Reachable := hm.run hl
  cases h with
  | @waits call₁ hk₁ point =>
    intro hmem
    have hpoint := point.trans hx
    have hown : c ∈ l.world.own p := by
      refine (hreach.sound.seated p).owned c (Multiset.mem_add.mpr (.inr ?_))
      exact mem_arrived_stake hk₁ (by rw [hpoint, Acquire.stake_arrived]; simp)
    have hq : p = q := by
      by_contra hne
      exact World.notMem_own_of_ne hown (Ne.symm hne)
        ((hreach.sound.seated q).mem_own_of_mem hmem)
    exact (hreach.sound.of_arrived hk₁ hpoint).1 (hq ▸ hmem)
  | @served call₁ y hk₁ point sequel =>
    obtain ⟨call₂, hk₂, hpoint, -⟩ :=
      (course hk₁ (by rw [point]; rfl) hn).of_finished point sequel
    obtain rfl := Option.some.inj (hk'.symm.trans hk₂)
    rw [hf] at hpoint
    cases hpoint
  | @dismissed us ws l₁ call₁ f' split before after hk₁ point sequel =>
    obtain ⟨hlt, hunseated⟩ := (hm.run before).unseated_of_outgoing call₁
      (List.mem_of_getElem? hk₁) c (by rw [point]; simp [Point.outgoing])
    exact (hunseated.run (hm.run before) hlt after).notMem_members q

/-- A client whose caller is told of an error in the end was sent off. -/
theorem Fate.exists_dismissal {u : Patience} {leased : Bool} (h : Fate m k call c es n)
    (hx : call.point = .acquire p u leased (.arrived c)) (hk' : n.call? k = some call')
    (hf : call'.point = .finished (.error f)) :
    ∃ us vs l call₁, es = us ++ vs ∧ m.run us = some l ∧ l.run vs = some n ∧
      l.call? k = some call₁ ∧
        call₁.point = .farewell .disconnect false [c] (.destroy [c] (.error f)) := by
  cases h with
  | waits hk'' point =>
    obtain rfl := Option.some.inj (hk'.symm.trans hk'')
    rw [hf, hx] at point
    cases point
  | served hk'' point sequel =>
    obtain rfl := Option.some.inj (hk'.symm.trans hk'')
    rw [hf] at point
    cases point
  | @dismissed us vs l call₁ f' split before after hk₁ point sequel =>
    have hconcluding : call₁.point.Concluding (.error f') := by
      rw [point]
      exact .parting
    obtain ⟨call₂, hk₂, hconcluding₂, -⟩ := exists_concluding_run hk₁ hconcluding sequel after
    obtain rfl := Option.some.inj (hk'.symm.trans hk₂)
    rw [hf] at hconcluding₂
    obtain rfl := Outcome.error.inj (hconcluding₂.unique .ended)
    exact ⟨us, vs, l, call₁, split, before, after, hk₁, point⟩

/-- A client that was sent off because it had come too late has been asked to disconnect, unless it
was not connected any more. -/
def SentAway (es : List Event) (m : Machine) (k : CallKey) (c : ClientKey) (f : Fault) : Prop :=
  ∃ us vs e l, es = us ++ e :: vs ∧ run {} us = some l ∧ e.isTurnOf k = true ∧
    (l.call? k).map Call.point =
      some (.farewell .disconnect false [c] (.destroy [c] (.error f))) ∧
    ((l.world.client c).session.connected = true → 0 < (m.world.client c).session.disconnects)

/-- A call that begins to send one client off asks it to disconnect, or finds it unconnected. -/
theorem sentAway_of_course (h : run {} us = some l) (hk : l.call? k = some call)
    (hx : call.point = .farewell .disconnect false [c] (.destroy [c] (.error f)))
    (hlt : c < l.world.clients.length) (hn : l.run vs = some m) (hk' : m.call? k = some call')
    (hf : call'.point = .finished (.error f)) : SentAway (us ++ vs) m k c f := by
  have hl : l.Reachable := ⟨us, h⟩
  cases course hk (by rw [hx]; rfl) hn with
  | rests hk'' point sequel =>
    obtain rfl := Option.some.inj (hk'.symm.trans hk'')
    rw [hf, hx] at point
    cases point
  | @turns us₁ vs₁ e l₁ l₂ call₁ call₂ t split before hk₁ point sequel takes hl₁ hworld after hk₂ hw
      sequel' =>
    have hlt₁ : c < l₁.world.clients.length := hlt.trans_le (hl.length_clients_run before)
    refine ⟨us ++ us₁, vs₁, e, l₁, by rw [split, List.append_assoc], ?_, takes.isTurnOf,
      by rw [hk₁, Option.map_some, point, hx], fun hconnected => ?_⟩
    · rw [run_append, h, Option.bind_some, before]
    · have hl₂ : l₂.Reachable := (hl.run before).perform hl₁
      have hsendsOff := takes.sendsOff (point.trans hx)
      generalize t.world = w', t.point = y at hsendsOff hworld
      cases hsendsOff with
      | skipped destroys => cases destroys
      | unasked unconnected =>
        rw [hconnected] at unconnected
        cases unconnected
      | asked present =>
        have hasked : (l₂.world.client c).session.disconnects =
            (l₁.world.client c).session.disconnects + 1 := by
          rw [hworld, World.client_onClient _ hlt₁]
          rfl
        have hle := (hl₂.kept_run
          (hlt₁.trans_le ((hl.run before).sound.length_clients (happens hl₁))) after).2.1
        omega

/-! ## One attempt -/

/-- What became of a client that has come for a caller in vain.  The caller has been told of the
fault `f`. -/
structure Undone (es : List Event) (m : Machine) (p : PoolKey) (k : CallKey) (c : ClientKey)
    (f : Fault) : Prop where
  /-- It was made for the pool. -/
  made : c ∈ m.world.own p
  /-- It never was in the list of any pool. -/
  unlisted : ∀ us vs n, es = us ++ vs → run {} us = some n → ∀ q,
    c ∉ (n.world.pool q).members ∧ c ∉ (n.world.pool q).idle
  /-- The call has sent it off, and asked it to disconnect if it was connected. -/
  sentAway : SentAway es m k c f
  /-- It is destroyed. -/
  destroyed : (m.world.client c).destroyed = true

/-- In a run in which somebody wanted a client, it has been wanted since the call is there. -/
theorem Wants.of_append (h : Wants (us ++ vs) k p) (hl : run {} us = some l)
    (hk : l.call? k = some call) : Wants us k p := by
  obtain ⟨us₀, vs₀, l₀, t, hl₀, hlen, hsplit⟩ := h
  have hlt : k < l.calls.length := (List.getElem?_eq_some_iff.mp hk).1
  -- The run has not begun the call after `us`, because it is there then.
  have hlater : ∀ ws, us₀ ≠ us ++ ws := by
    rintro ws rfl
    rw [run_append, hl, Option.bind_some] at hl₀
    exact Nat.lt_irrefl _ (hlt.trans_le (hlen ▸ length_calls_run hl₀))
  have hprefix : ∀ {b : Event}, us ++ vs = us₀ ++ b :: vs₀ → ∃ ws, us = us₀ ++ b :: ws := by
    intro b hb
    rcases List.append_eq_append_iff.mp hb with ⟨ws, hws, -⟩ | ⟨ws, hws, hrest⟩
    · exact absurd hws (hlater ws)
    · cases ws with
      | nil => exact absurd (by rw [hws]; simp) (hlater [])
      | cons x ws =>
        rw [List.cons_append, List.cons.injEq] at hrest
        exact ⟨ws, hrest.1 ▸ hws⟩
  rcases hsplit with hsplit | hsplit
  · obtain ⟨ws, hws⟩ := hprefix hsplit
    exact ⟨us₀, ws, l₀, t, hl₀, hlen, .inl hws⟩
  · obtain ⟨ws, hws⟩ := hprefix hsplit
    exact ⟨us₀, ws, l₀, t, hl₀, hlen, .inr hws⟩

/-- A session comes for an unserved caller only while it is being opened. -/
theorem Takes.of_session {connected : Bool} {j : CallKey}
    (h : m.Takes k call (.answer j (.opened (.session connected))) t)
    (hx : call.point.Unserved p) : ∃ u leased, call.point = .acquire p u leased .opening ∧
      t = Acquire.answered m.world p u leased (.session connected) := by
  cases h with
  | stocked a hpoint =>
    rw [hpoint] at hx
    cases hx with
    | told concluding => cases concluding
  | opened a hpoint =>
    rw [hpoint] at hx
    cases hx with
    | wants => exact ⟨_, _, hpoint, rfl⟩
    | told concluding => cases concluding

/-- After a session has come for a caller the call has a client, which has just been made. -/
theorem exists_arrived {connected : Bool} (h : run {} us = some m) (hwants : Wants us k p)
    (hn : m.perform (.answer k (.opened (.session connected))) = some n) :
    ∃ call u leased, n.call? k = some call ∧
      call.point = .acquire p u leased (.arrived m.world.clients.length) ∧ call.sequel = .none ∧
        m.world.clients.length ∈ n.world.own p := by
  obtain ⟨call, hk, hattempt⟩ := attempt h hwants
  obtain ⟨call', t, hk', takes, hworld, hw, hs⟩ := (happens hn).exists_takes hk (by
    simp [Event.isTurnOf])
  obtain ⟨u, leased, hx, rfl⟩ := takes.of_session (hattempt.unserved takes).1
  refine ⟨call', u, leased, hk', hw.eq_of_awake rfl, ?_, ?_⟩
  · exact eq_none_of_sequel hs hattempt.sequel (by simp [hx])
  · refine World.mem_own_of_home ?_
    have hclient := World.client_addClient
      { id := (m.world.pool p).nextId, home := some p, session := { connected } }
      m.world.clients.length (w := m.world)
    rw [if_pos rfl] at hclient
    rw [hworld]
    exact congrArg Client.home hclient

/-- A client that has come for a caller in vain was in no list at any time. -/
theorem notMem_of_session {us' vs' : List Event} {l₁ : Machine} {call₁ : Call} {u : Patience}
    {leased : Bool} (hl : run {} us = some l) (hl₁ : l.perform e = some l₁)
    (hm : l₁.run vs = some m) (hk₁ : l₁.call? k = some call₁)
    (hx₁ : call₁.point = .acquire p u leased (.arrived l.world.clients.length))
    (hs₁ : call₁.sequel = .none) (hk : m.call? k = some call)
    (hf : call.point = .finished (.error f)) (hsplit : us ++ e :: vs = us' ++ vs')
    (hn : run {} us' = some n) (q : PoolKey) :
    l.world.clients.length ∉ (n.world.pool q).members := by
  have hreach : l.Reachable := ⟨us, hl⟩
  have hn' : n.Reachable := ⟨us', hn⟩
  rcases List.append_eq_append_iff.mp hsplit with ⟨ws, rfl, hrest⟩ | ⟨ws, rfl, hrest⟩
  · cases ws with
    | nil =>
      rw [List.append_nil, hl, Option.some.injEq] at hn
      exact hn ▸ hreach.notMem_of_le le_rfl q
    | cons x ws =>
      rw [List.cons_append, List.cons.injEq] at hrest
      obtain ⟨rfl, rfl⟩ := hrest
      rw [run_append, hl, Option.bind_some, run_cons, hl₁, Option.bind_some] at hn
      rw [run_append, hn, Option.bind_some] at hm
      exact (fate hk₁ hx₁ hs₁ hn).notMem_members (hreach.perform hl₁) hn hx₁ hm hk hf q
  · rw [run_append, hn, Option.bind_some] at hl
    exact hn'.notMem_of_le (hn'.length_clients_run hl) q

/-- A client that has come for a caller in vain is undone when the caller is told. -/
theorem undone {connected : Bool}
    (h : run {} (us ++ .answer k (.opened (.session connected)) :: vs) = some m)
    (hwants : Wants (us ++ .answer k (.opened (.session connected)) :: vs) k p)
    (hk : m.call? k = some call) (hf : call.point = .finished (.error f))
    (hl : run {} us = some l) :
    Undone (us ++ .answer k (.opened (.session connected)) :: vs) m p k
      l.world.clients.length f := by
  have hreach : l.Reachable := ⟨us, hl⟩
  obtain ⟨l₁, hl₁, hm⟩ : ∃ l₁, l.perform (.answer k (.opened (.session connected))) = some l₁ ∧
      l₁.run vs = some m := by
    rw [run_append, hl, Option.bind_some, run_cons, Option.bind_eq_some_iff] at h
    exact h
  obtain ⟨call₀, hk₀⟩ := exists_call_of_isTurnOf hl₁ (k := k) (by simp [Event.isTurnOf])
  obtain ⟨call₁, u, leased, hk₁, hx₁, hs₁, hown⟩ :=
    exists_arrived hl (hwants.of_append hl hk₀) hl₁
  have hreach₁ : l₁.Reachable := hreach.perform hl₁
  have hlt₁ : l.world.clients.length < l₁.world.clients.length := (World.mem_own.mp hown).1
  obtain ⟨us₁, vs₁, l₂, call₂, hvs, before, after, hk₂, hx₂⟩ :=
    (fate hk₁ hx₁ hs₁ hm).exists_dismissal hx₁ hk hf
  have hlt₂ : l.world.clients.length < l₂.world.clients.length :=
    hlt₁.trans_le (hreach₁.length_clients_run before)
  refine ⟨?_, fun us' vs' n hsplit hn q => ?_, ?_, ?_⟩
  · exact run_induct (P := fun n => l.world.clients.length ∈ n.world.own p) hreach₁ hown
      (fun _ _ _ hl hown hn => hl.sound.mem_own_perform hn hown) hm
  · have hmem : l.world.clients.length ∉ (n.world.pool q).members :=
      notMem_of_session hl hl₁ hm hk₁ hx₁ hs₁ hk hf hsplit hn q
    have hn' : n.Reachable := ⟨us', hn⟩
    exact ⟨hmem, fun hidle => hmem (hn'.sound.of_mem_idle hidle).1⟩
  · have hus : run {} (us ++ .answer k (.opened (.session connected)) :: us₁) = some l₂ := by
      rw [run_append, hl, Option.bind_some, run_cons, hl₁, Option.bind_some, before]
    have hsent := sentAway_of_course hus hk₂ hx₂ hlt₂ after hk hf
    rwa [List.append_assoc, List.cons_append, ← hvs] at hsent
  · refine ((hreach₁.run before).doomed_run hlt₂ hk₂ ?_ after).resolve_left ?_
    · rw [hx₂]
      exact List.mem_singleton_self _
    · rintro ⟨call', hk', hdoomed⟩
      obtain rfl := Option.some.inj (hk.symm.trans hk')
      rw [hf] at hdoomed
      cases hdoomed

/-! ## All attempts -/

/-- What a caller of the pool leaves behind that is told of a fault. -/
structure LeavesNoTrace (es : List Event) (m : Machine) (p : PoolKey) (k : CallKey) (f : Fault) :
    Prop where
  /-- Its time was over, or the pool is closing, or no session could be opened. -/
  kind : f.kind = .poolTimeout ∨ f.kind = .poolClosed ∨ f.kind = .clientCreation
  /-- What it has added to the counters it has taken back. -/
  account : ∀ q i, account i q k {} es = 0
  /-- Its time was over only while the pool was open, no client was idle and all slots were in
  use. -/
  timedOut : f.kind = .poolTimeout → TimedOut es k p
  /-- If a session was opened for it, nothing is left of that. -/
  undone : ∀ us vs connected l, es = us ++ .answer k (.opened (.session connected)) :: vs →
    run {} us = some l → Undone es m p k l.world.clients.length f

/-- What a run makes of those who want clients of a pool. -/
structure FailsCleanly (es : List Event) (m : Machine) (p : PoolKey) : Prop where
  /-- Whoever is told of a fault leaves nothing behind. -/
  traceless : ∀ k f, Wants es k p → (m.call? k).bind Call.outcome? = some (.error f) →
    LeavesNoTrace es m p k f
  /-- When nothing is borrowed, pinged or created any more, new callers of an open pool can get all
  the clients that it may have, if sessions can be opened. -/
  refills : m.hasPool p = true → m.world.crashed = false → (m.world.pool p).closing = false →
    m.lent p = [] → m.pinged p = [] → m.creations p = 0 →
      ∃ gs n, m.run gs = some n ∧ (∀ e ∈ gs, e.borrows p m.calls.length = true) ∧
        (n.world.busy p).length = (m.world.pool p).limits.maxClients.toNat

theorem outcome?_eq_some_iff {o : Outcome} :
    call.outcome? = some o ↔ call.point = .finished o ∧ call.sequel = .none := by
  obtain ⟨x, s, notices⟩ := call
  cases x <;> cases s <;> simp [Call.outcome?]

/-- Whoever has been told of a fault has left nothing behind. -/
theorem leavesNoTrace (h : run {} es = some m) (hwants : Wants es k p)
    (hk : m.call? k = some call) (hf : call.point = .finished (.error f)) :
    LeavesNoTrace es m p k f := by
  obtain ⟨call', hk', hattempt⟩ := attempt h hwants
  obtain rfl := Option.some.inj (hk.symm.trans hk')
  have hconcluding : call.point.Concluding (.error f) := by
    rw [hf]
    exact .ended
  obtain ⟨hunserved, haccount⟩ := hattempt.stage.resolve_left (by
    rintro ⟨y, hy⟩
    rw [hf] at hy
    cases hy)
  refine ⟨?_, fun q i => (haccount q i).trans hconcluding.share, hattempt.timedOut f hconcluding,
    ?_⟩
  · rw [hf] at hunserved
    cases hunserved with
    | told concluding kind =>
      obtain rfl := Outcome.error.inj (concluding.unique .ended)
      exact kind
  · rintro us vs connected l rfl hl
    exact undone h hwants hk hf hl

/-- In every run those who want clients and are told of a fault have left nothing behind, and after
all of them a pool can still lend all the clients that it may have. -/
theorem failed_attempts_leave_no_trace (h : run {} es = some m) (p : PoolKey) :
    FailsCleanly es m p where
  traceless k f hwants hout := by
    obtain ⟨call, hk, hout⟩ := Option.bind_eq_some_iff.mp hout
    exact leavesNoTrace h hwants hk (outcome?_eq_some_iff.mp hout).1
  refills there running isOpen hlent unpinged uncreated := by
    have hm : m.Reachable := ⟨es, h⟩
    refine Settled.fill (j := 0)
      { reachable := hm, there, running, isOpen, unpinged, uncreated, lent := by rw [hlent]; rfl,
        busy := ?_ }
    refine Nat.eq_zero_of_le_zero ?_
    calc (m.world.busy p).length ≤ (m.lent p).length := hm.sound.length_busy_le
      _ = 0 := by rw [hlent]; rfl

/-- A run in which a session comes too late for one caller, because its pool is closing, and does
not come at all for a caller of another pool. -/
def inVain : List Event :=
  [.begin (.construct {} { maxClients := 1 } true .standard), .advance 0 0,
    .begin (.construct {} { maxClients := 1 } true .standard), .advance 1 0,
    .begin (.acquire 0 0), .advance 2 0, .begin (.close 0), .advance 3 0,
    .answer 2 (.opened (.session true)), .advance 2 0, .advance 2 0,
    .answer 2 (.disconnected .done), .advance 2 0, .advance 2 0, .advance 2 0,
    .begin (.lease 1 0), .advance 4 0, .answer 4 (.opened .nothing), .advance 4 0]

/-- Both have been told, and the second pool is as good as new. -/
theorem failed_attempts_leave_no_trace_inVain : ∃ m : Machine, run {} inVain = some m ∧
    Wants inVain 2 0 ∧
    (m.call? 2).bind Call.outcome? = some (.error (.poolClosed (m.world.pool 0).address)) ∧
    (m.world.client 0).destroyed = true ∧ (m.world.client 0).session.disconnects = 1 ∧
    Wants inVain 4 1 ∧
    ((m.call? 4).bind Call.outcome?).isSome = true ∧
    m.hasPool 1 = true ∧ (m.world.pool 1).closing = false ∧ m.lent 1 = [] ∧ m.pinged 1 = [] ∧
    m.creations 1 = 0 ∧ FailsCleanly inVain m 0 ∧ FailsCleanly inVain m 1 :=
  ⟨_, rfl, ⟨inVain.take 4, inVain.drop 5, _, 0, rfl, rfl, .inl rfl⟩, rfl, rfl, rfl,
    ⟨inVain.take 15, inVain.drop 16, _, 0, rfl, rfl, .inr rfl⟩, rfl, rfl, rfl, rfl, rfl, rfl,
    failed_attempts_leave_no_trace rfl 0, failed_attempts_leave_no_trace rfl 1⟩

end Machine
end SessionPool
