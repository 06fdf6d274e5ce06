import SessionPool.Proofs.Arrivals
import SessionPool.Proofs.Course

/-!
# Disconnecting clients of a pool

A client of a pool is disconnected by one call.  The call takes it out of its pool first, and then
holds it until it is disconnected; after that it only has to destroy it.  So the state of a client
says which of the two is still before it, as long as nobody overwrites it: a client that somebody
sees to is not disconnected.

* `Point.Handles`: a call has still to disconnect a client, or has only to destroy it.
* `Machine.ReachableWithout.handles`: whoever sends off a client of a pool does one or the other.
* `Machine.Reachable.parting_unique`: two calls never disconnect the same client.
* `Machine.ReachableWithout.alive_of_attended`: whoever has a place is not disconnected.
-/

namespace SessionPool

/-! ## Calls that send off clients of a pool -/

namespace Point

/-- The clients of a pool that a call has still to disconnect. -/
def parting : Point → List ClientKey
  | .farewell .disconnect _ todo (.destroy _ _) => todo
  | .farewell .disconnect _ todo (.markClosed _ _) => todo
  | _ => []

/-- A call has still to disconnect a client, or it has done so and has only to destroy it. -/
def Handles (w : World) (x : Point) (c : ClientKey) : Prop :=
  c ∈ x.parting ∨ c ∈ x.doomed ∧ (w.client c).state = .disconnected

variable {x y : Point} {p : PoolKey} {c : ClientKey}

theorem Wakes.parting_eq (h : Wakes x y) : y.parting = x.parting := by
  cases h <;> rfl

theorem mem_parting_of_discards (h : c ∈ x.discards) : c ∈ x.parting := by
  unfold discards at h
  split at h
  · exact h
  · cases h

theorem mem_parting_of_shutting (h : c ∈ (x.stake p).shutting) : c ∈ x.parting := by
  cases x with
  | stock q left s => cases s <;> simp [stake, StockPoint.stake, apply_ite Stake.shutting] at h
  | acquire q t leased s =>
    cases s <;> simp [stake, AcquirePoint.stake, apply_ite Stake.shutting] at h
  | keepAlive q s => simp [stake, apply_ite Stake.shutting] at h
  | close q s => cases s <;> simp [stake, ClosePoint.stake, apply_ite Stake.shutting] at h
  | farewell rite waiting todo next =>
    cases rite <;> cases next <;> simp [stake, parting, apply_ite Stake.shutting] at h ⊢
    split at h
    · exact Multiset.mem_coe.mp h
    · cases h
  | _ => simp [stake] at h

end Point

namespace Farewell.SendsOff

variable {w w' : World} {rite : Rite} {next : Afterwards} {waiting : Bool} {todo : List ClientKey}
  {y : Point} {c : ClientKey}

/-- A client that was not the next one, or has been sent off now, is disconnected if it was. -/
theorem disconnected_onClient {d : ClientKey} {f : Client → Client} (hc : c < w.clients.length)
    (hf : (f (w.client d)).state = .disconnected ∨ (f (w.client d)).state = (w.client d).state)
    (hs : (w.client c).state = .disconnected) :
    ((w.onClient d f).client c).state = .disconnected := by
  by_cases hd : c = d
  · subst hd
    rw [World.client_onClient w hc]
    exact hf.elim id fun h => h.trans hs
  · rwa [World.client_onClient_of_ne w hd]

/-- A call that handles a client goes on to do so when the next client has been sent off. -/
theorem handles_tail {d : ClientKey} {rest : List ClientKey} {f : Client → Client}
    (hc : c < w.clients.length) (hf : (f (w.client d)).state = .disconnected)
    (hx : (Point.farewell rite waiting (d :: rest) next).Handles w c)
    (hy : c ∈ (Point.farewell rite false rest next).outgoing) :
    (Point.farewell rite false rest next).Handles (w.onClient d f) c := by
  have hstays : (w.client c).state = .disconnected →
      ((w.onClient d f).client c).state = .disconnected :=
    disconnected_onClient hc (.inl hf)
  cases rite with
  | destroy =>
    rcases hx with hparting | ⟨-, hs⟩
    · cases next <;> cases hparting
    · exact .inr ⟨hy, hstays hs⟩
  | disconnect =>
    have hgone : c = d → ((w.onClient d f).client c).state = .disconnected := by
      rintro rfl
      rwa [World.client_onClient w hc]
    have hrest : c ∈ d :: rest → c ∈ rest ∨ c ∈ next.outgoing ∧
        ((w.onClient d f).client c).state = .disconnected := by
      intro h
      by_cases hmem : c ∈ rest
      · exact .inl hmem
      · exact .inr ⟨(List.mem_append.mp hy).resolve_left hmem,
          hgone ((List.mem_cons.mp h).resolve_right hmem)⟩
    cases next with
    | finish o => rcases hx with hparting | ⟨hdoomed, -⟩ <;> contradiction
    | destroy cs o | markClosed q cs =>
      rcases hx with hparting | ⟨hdoomed, hs⟩
      · exact hrest hparting
      · exact .inr ⟨hdoomed, hstays hs⟩

/-- A call that handles a client goes on to do so, if it goes on to send it off. -/
theorem handles (h : SendsOff w rite next waiting todo w' y) (hc : c < w.clients.length)
    (hx : (Point.farewell rite waiting todo next).Handles w c) (hy : c ∈ y.outgoing) :
    y.Handles w' c := by
  cases h with
  | done =>
    rcases hx with hparting | ⟨hdoomed, hs⟩
    · cases rite <;> cases next <;> cases hparting
    · refine .inr ⟨?_, hs⟩
      rw [doomed_after]
      cases rite <;> exact hdoomed
  | asked present connected =>
    refine hx.imp (fun hparting => ?_) (And.imp (fun hdoomed => ?_) ?_)
    · cases rite <;> cases next <;> exact hparting
    · cases rite <;> exact hdoomed
    · exact disconnected_onClient hc (.inr rfl)
  | skipped | unasked => exact handles_tail hc (by cases rite <;> rfl) hx hy
  | answered connected => exact handles_tail hc (by cases rite <;> rfl) hx hy

end Farewell.SendsOff

theorem Farewell.SendsOff.pools {w w' : World} {rite : Rite} {next : Afterwards} {waiting : Bool}
    {todo : List ClientKey} {y : Point} (h : SendsOff w rite next waiting todo w' y) :
    w'.pools = w.pools := by
  cases h <;> rfl

namespace Machine

variable {m n : Machine} {e : Event} {k j : CallKey} {call : Call} {t : Turn} {p : PoolKey}
  {c : ClientKey}

/-- A turn neither asks a client to disconnect nor ends its life, unless it is the next one that the
call sends off. -/
theorem Takes.of_head (h : m.Takes k call e t) (hc : c < m.world.clients.length) :
    (t.world.client c).session.disconnects = (m.world.client c).session.disconnects ∧
        ((t.world.client c).state = .disconnected → (m.world.client c).state = .disconnected) ∨
      ∃ rite waiting rest next, call.point = .farewell rite waiting (c :: rest) next := by
  by_cases hout : c ∈ call.point.outgoing
  · generalize hx : call.point = x at hout
    cases x with
    | farewell rite waiting todo next =>
      by_cases hhead : ∃ rest, todo = c :: rest
      · obtain ⟨rest, rfl⟩ := hhead
        exact .inr ⟨rite, waiting, rest, next, rfl⟩
      · refine .inl ?_
        have hother : ∀ {d rest} {f : Client → Client}, todo = d :: rest →
            (m.world.onClient d f).client c = m.world.client c := fun htodo =>
          World.client_onClient_of_ne m.world (fun hd => hhead ⟨_, hd ▸ htodo⟩) _
        have hsame : t.world.client c = m.world.client c := by
          have hsends := h.sendsOff hx
          generalize t.world = w, t.point = y at hsends
          cases hsends with
          | done => rfl
          | skipped | asked | unasked => exact hother rfl
          | answered connected => exact hother rfl
        rw [hsame]
        exact ⟨rfl, id⟩
    | close q s =>
      refine .inl ?_
      have hstep : Close.step m.world q s = some t := by
        obtain ⟨-, ht⟩ := h.turn_eq (by rw [hx]; rfl)
          (by rw [hx]; cases s <;> first | rfl | cases hout) (by simp [hx])
        rwa [turn, hx] at ht
      have hsame : t.world.client c = m.world.client c := by
        simp only [World.client, Close.clients_step hstep]
      rw [hsame]
      exact ⟨rfl, id⟩
    | _ => cases hout
  · refine .inl ?_
    have htreatment := h.treatment hc
    refine ⟨htreatment.disconnects.resolve_right fun hasked => hout hasked.1, ?_⟩
    generalize t.world.client c = client at htreatment
    intro hgone
    cases htreatment with
    | departed rite connected outgoing => exact absurd outgoing hout
    | lent | enrolled | stocked | returned => cases hgone
    | broken =>
      by_contra hs
      rw [Client.breakDown, if_neg hs] at hgone
      cases hgone
    | _ => exact hgone

/-- An event neither asks a client to disconnect nor ends its life, unless it is a turn of a call of
which the client is the next one to be sent off, or its state is overwritten. -/
theorem of_head_perform (hc : c < m.world.clients.length) (hn : m.perform e = some n)
    (he : ∀ s, e ≠ .setState c s) :
    (n.world.client c).session.disconnects = (m.world.client c).session.disconnects ∧
        ((n.world.client c).state = .disconnected → (m.world.client c).state = .disconnected) ∨
      ∃ k call t rite waiting rest next, m.call? k = some call ∧ m.Takes k call e t ∧
        call.point = .farewell rite waiting (c :: rest) next ∧ ∃ pick s, n = apply
          { m with calls := m.calls.modify k fun c => { c with sequel := s } } k pick t := by
  cases happens hn with
  | @turn _ k call t pick s hk takes sequel =>
    exact (takes.of_head hc).imp_right fun ⟨rite, waiting, rest, next, hx⟩ =>
      ⟨k, call, t, rite, waiting, rest, next, hk, takes, hx, pick, s, rfl⟩
  | enter permits =>
    rw [client_begin]
    exact .inl ⟨rfl, id⟩
  | @aside _ w befalls =>
    refine .inl ⟨(befalls.session hc).1, ?_⟩
    show (w.client c).state = .disconnected → _
    rcases befalls.client hc with hw | ⟨-, hw⟩ | ⟨connected, -, hw⟩ | ⟨s, hset, -⟩ | ⟨-, count, hw⟩
    · rw [hw]
      exact id
    · intro hgone
      by_contra hs
      rw [hw, Client.breakDown, if_neg hs] at hgone
      cases hgone
    · rw [hw]
      exact id
    · exact absurd hset (he s)
    · rw [hw]
      exact id

/-- A call that goes on to send off a client of a pool in its turn goes on to handle it. -/
theorem Takes.handles (h : m.Takes k call e t) (hm : m.Reachable) (hk : m.call? k = some call)
    (hx : c ∈ call.point.outgoing → call.point.Handles m.world c) (hy : c ∈ t.point.outgoing) :
    t.point.Handles t.world c := by
  rcases h.dismisses c hy with hout | hdiscards | ⟨q, hshutting⟩
  · have hc : c < m.world.clients.length :=
      (hm.unseated_of_outgoing call (List.mem_of_getElem? hk) c hout).1
    have hhandles := hx hout
    generalize hpoint : call.point = x at hout hhandles
    match x, hpoint, hout with
    | .farewell rite waiting todo next, hpoint, hout =>
      exact (h.sendsOff hpoint).handles hc hhandles hy
    | .close q (.sealing shut), hpoint, hout | .close q (.announcing shut), hpoint, hout =>
      obtain ⟨-, ht⟩ := h.turn_eq (by rw [hpoint]; rfl) (by rw [hpoint]; rfl) (by simp [hpoint])
      simp only [Machine.turn, hpoint, Close.step, Option.some.injEq] at ht
      rcases hhandles with hparting | ⟨hdoomed, hs⟩
      · cases hparting
      · rw [← ht]
        exact .inr ⟨by simpa [Close.markClosed, Close.announce, Turn.goto, Point.doomed,
          Afterwards.outgoing] using hdoomed, hs⟩
  · exact .inl (Point.mem_parting_of_discards hdiscards)
  · exact .inl (Point.mem_parting_of_shutting hshutting)

/-- As long as no state is overwritten, a call that sends off a client of a pool has still to
disconnect it, or has only to destroy it. -/
theorem ReachableWithout.handles (hm : m.ReachableWithout Mishap.isTampering) :
    ∀ call ∈ m.calls, ∀ c ∈ call.point.outgoing, ∀ p, c ∈ m.world.own p →
      call.point.Handles m.world c := by
  suffices h : m.Reachable ∧ ∀ call ∈ m.calls, ∀ c ∈ call.point.outgoing, ∀ p,
      c ∈ m.world.own p → call.point.Handles m.world c from h.2
  refine hm.induct (P := fun m => m.Reachable ∧ ∀ call ∈ m.calls, ∀ c ∈ call.point.outgoing, ∀ p,
    c ∈ m.world.own p → call.point.Handles m.world c)
    ⟨reachable_empty, fun _ hk => absurd hk List.not_mem_nil⟩ ?_
  rintro m n e ⟨hm, ih⟩ hbad hn
  refine ⟨hm.perform hn, fun call' hk' c hc p hown => ?_⟩
  obtain ⟨j, hj'⟩ := List.mem_iff_getElem?.mp hk'
  rcases (happens hn).exists_call_before hj' with ⟨call, hj⟩ | ⟨o, -, hpermits, hpoint, -⟩ |
    ⟨b, hb, -⟩
  · have hk : call ∈ m.calls := List.mem_of_getElem? hj
    have hbefore : c ∈ call.point.outgoing → call.point.Handles m.world c := fun hout =>
      ih call hk c hout p (mem_own_before hn (hm.unseated_of_outgoing call hk c hout).1 hown)
    obtain ⟨call'', hj'', h⟩ := (happens hn).exists_call hj
    obtain rfl := Option.some.inj (hj'.symm.trans hj'')
    rcases h with ⟨hw, -⟩ | ⟨t, takes, hworld, hw, -⟩
    · rw [hw.outgoing_eq] at hc
      obtain ⟨hlt, hunseated⟩ := hm.unseated_of_outgoing call hk c hc
      refine (hbefore hc).imp (hw.parting_eq ▸ ·) (And.imp (hw.doomed_eq ▸ ·) fun hs => ?_)
      refine hunseated.disconnected_perform hm.sound hlt hs hn ?_
      rintro s rfl
      exact Bool.noConfusion (hbad _ rfl)
    · rw [hw.outgoing_eq] at hc
      have hhandles := takes.handles hm hj hbefore hc
      rw [Point.Handles, hw.parting_eq, hw.doomed_eq, hworld]
      exact hhandles
  · rw [hpoint] at hc
    have hand := handmade_of_outgoing_enter hpermits hc
    have hlt := (hm.sound.unseated_of_handmade hand).1
    exact absurd (mem_own_before hn hlt hown) (World.notMem_own_of_handmade hand)
  · rw [hb] at hc
    cases hc

/-! ## One call for one client -/

/-- Where a client of a pool has a place, how often. -/
theorem count_attended (hc : c ∈ m.world.own p) : (m.books p).attended.count c =
    (m.world.pool p).members.count c + (m.stake p).arrived.count c +
      (m.stake p).discards.count c + (m.stake p).shutting.count c := by
  rw [Books.attended, Books.seated, Multiset.count_add, Multiset.count_add, Multiset.count_add,
    Multiset.coe_count]
  simp only [Machine.books, World.books, Multiset.count_filter_of_pos hc]

/-- A client of a pool that a call has still to disconnect is with this call. -/
theorem Reachable.count_parting (hm : m.Reachable) (hk : call ∈ m.calls)
    (hc : c ∈ call.point.parting) (hown : c ∈ m.world.own p) :
    (call.point.stake p).arrived = 0 ∧ call.point.parting.count c =
      (call.point.stake p).discards.count c + (call.point.stake p).shutting.count c := by
  generalize hx : call.point = x at hc
  match x, hx, hc with
  | .farewell .disconnect waiting todo (.destroy cs o), hx, hc => simp [Point.stake, Point.parting]
  | .farewell .disconnect waiting todo (.markClosed q cs), hx, hc =>
    have hshutting : c ∈ (m.stake q).shutting := by
      refine mem_shutting_stake hk ?_
      rw [hx]
      simpa [Point.stake] using (show c ∈ todo from hc)
    obtain rfl : q = p := by
      by_contra hne
      refine World.notMem_own_of_ne hown hne ((hm.tidy q).owned c ?_)
      exact Books.mem_attended.mpr (.inr (.inr hshutting))
    simp [Point.stake, Point.parting]

/-- A client of a pool that a call has still to disconnect has a place. -/
theorem Reachable.mem_attended_of_parting (hm : m.Reachable) (hk : m.call? k = some call)
    (hc : c ∈ call.point.parting) (hown : c ∈ m.world.own p) : c ∈ (m.books p).attended := by
  obtain ⟨rest, hrest, -⟩ := exists_rest hk
  obtain ⟨-, hwith⟩ := hm.count_parting (List.mem_of_getElem? hk) hc hown
  have hpos := List.count_pos_iff.mpr hc
  rw [← Multiset.count_pos, count_attended hown, hrest]
  simp only [Stake.discards_add, Stake.shutting_add, Multiset.count_add]
  omega

/-- Two calls never have to disconnect the same client of a pool. -/
theorem Reachable.parting_unique (hm : m.Reachable) {call' : Call} (hk : m.call? k = some call)
    (hj : m.call? j = some call') (hne : k ≠ j) (hc : c ∈ call.point.parting)
    (hown : c ∈ m.world.own p) : c ∉ call'.point.parting := by
  intro hc'
  obtain ⟨rest, hrest, hmodify⟩ := exists_rest_of_getElem? hk
  have hj' : (m.calls.modify k fun _ => { point := .finished (.ok .done) })[j]? = some call' := by
    simpa [List.getElem?_modify, hne] using (show m.calls[j]? = some call' from hj)
  obtain ⟨rest', hrest', -⟩ := exists_rest_of_getElem? hj'
  have hstake : m.stake p = call.point.stake p + (call'.point.stake p + rest' p) := by
    rw [← hrest', hmodify]
    exact (hrest p).trans (congrArg _ (zero_add (rest p)).symm)
  obtain ⟨-, hcount⟩ := hm.count_parting (List.mem_of_getElem? hk) hc hown
  obtain ⟨-, hcount'⟩ := hm.count_parting (List.mem_of_getElem? hj) hc' hown
  have hle := Multiset.nodup_iff_count_le_one.mp (hm.tidy p).nodup c
  have hpos := List.count_pos_iff.mpr hc
  have hpos' := List.count_pos_iff.mpr hc'
  rw [count_attended hown, hstake] at hle
  simp only [Stake.discards_add, Stake.shutting_add, Multiset.count_add] at hle
  omega

/-- A client that has been disconnected has no place any more. -/
theorem Reachable.notMem_attended_of_gone (hm : m.Reachable) (hk : m.call? k = some call)
    {waiting : Bool} {rest : List ClientKey} {next : Afterwards}
    (hx : call.point = .farewell .disconnect waiting (c :: rest) next)
    (takes : m.Takes k call e t) (hc : c ∈ call.point.parting) (hown : c ∈ m.world.own p)
    (ht : t.point = .farewell .disconnect false rest next) (pick : ℕ) (s : Sequel)
    (hn : n = apply { m with calls := m.calls.modify k fun c => { c with sequel := s } } k pick t)
    (hn' : m.perform e = some n) : c ∉ (n.books p).attended := by
  obtain ⟨others, hothers, happly⟩ := exists_rest hk
  have hlt : c < m.world.clients.length := (World.mem_own.mp hown).1
  have hown' : c ∈ n.world.own p := hm.sound.mem_own_perform hn' hown
  have hpool : n.world.pool p = m.world.pool p := by
    rw [hn]
    exact congrArg (fun pools : List Pool => pools[p]?.getD default) (takes.sendsOff hx).pools
  have hstarted : stakeOf (t.started.toList.map fun x => { point := x }) p = 0 := by
    rcases takes.started_eq with hnone | ⟨b, hsome⟩
    · rw [hnone]
      rfl
    · simp [hsome, Point.stake]
  have hstake : n.stake p = t.point.stake p + others p := by
    rw [hn, happly _ _ pick t rfl, hstarted, add_zero]
  have hcount : (m.books p).attended.count c = (n.books p).attended.count c + 1 := by
    rw [count_attended hown, count_attended hown', hpool, hothers, hstake, hx, ht]
    obtain ⟨-, hwith⟩ := hm.count_parting (List.mem_of_getElem? hk) hc hown
    have hpos := List.count_pos_iff.mpr hc
    rw [hx] at hwith hpos
    cases next with
    | finish o => exact absurd hpos (Nat.lt_irrefl 0)
    | destroy cs o =>
      simp [Point.stake]
      omega
    | markClosed q cs =>
      by_cases hq : q = p
      · simp [Point.stake, hq]
        omega
      · simp [Point.stake, hq] at hwith
        omega
  have hle := Multiset.nodup_iff_count_le_one.mp (hm.tidy p).nodup c
  exact Multiset.count_eq_zero.mp (by omega)

/-- Whoever has a place has had one before, unless it has come just now. -/
theorem Sound.mem_attended_before (hm : m.Sound) (hn : m.perform e = some n)
    (hown : c ∈ m.world.own p) (hc : c ∈ (n.books p).attended) : c ∈ (m.books p).attended := by
  by_contra hnone
  have hkeeps : c ∈ (n.books p).own ∧ c ∉ (n.books p).attended :=
    hm.books_perform (I := fun b => c ∈ b.own ∧ c ∉ b.attended) hn (fun _ _ => trivial)
      (fun _ _ hs _ hI e => ⟨Books.own_subset_entry e hI.1,
        Books.notMem_attended_entry hs hI.1 hI.2 e⟩) ⟨hown, hnone⟩
  exact hkeeps.2 hc

/-- As long as no state is overwritten, a client that has a place is not disconnected. -/
theorem ReachableWithout.alive_of_attended (hm : m.ReachableWithout Mishap.isTampering)
    (hc : c ∈ (m.books p).attended) : (m.world.client c).state ≠ .disconnected := by
  suffices h : m.ReachableWithout Mishap.isTampering ∧ ∀ p, ∀ c ∈ (m.books p).attended,
      (m.world.client c).state ≠ .disconnected from h.2 p c hc
  refine hm.induct (P := fun m => m.ReachableWithout Mishap.isTampering ∧
    ∀ p, ∀ c ∈ (m.books p).attended, (m.world.client c).state ≠ .disconnected)
    ⟨reachableWithout_empty, fun p c hc => absurd hc (Multiset.notMem_zero c)⟩ ?_
  rintro m n e ⟨hm, ih⟩ hbad hn
  have hm' : n.ReachableWithout Mishap.isTampering := hm.perform hbad hn
  refine ⟨hm', fun p c hc hgone => ?_⟩
  have hown' : c ∈ n.world.own p := (hm'.reachable.tidy p).owned c hc
  by_cases hlt : c < m.world.clients.length
  · have hown : c ∈ m.world.own p := mem_own_before hn hlt hown'
    have hs := ih p c (hm.reachable.sound.mem_attended_before hn hown hc)
    have he : ∀ s, e ≠ .setState c s := by
      rintro s rfl
      exact Bool.noConfusion (hbad _ rfl)
    rcases of_head_perform hlt hn he with ⟨-, h⟩ |
      ⟨k, call, t, rite, waiting, rest, next, hk, takes, hx, pick, s, happly⟩
    · exact hs (h hgone)
    · have hout : c ∈ call.point.outgoing := by
        rw [hx]
        exact List.mem_cons_self
      have hparting : c ∈ call.point.parting :=
        (hm.handles call (List.mem_of_getElem? hk) c hout p hown).resolve_right fun h => hs h.2
      cases rite with
      | destroy =>
        rw [hx] at hparting
        cases hparting
      | disconnect =>
        have hleft : t.point = .farewell .disconnect false rest next → c ∉ (n.books p).attended :=
          fun hy => hm.reachable.notMem_attended_of_gone hk hx takes hparting hown hy pick s happly
            hn
        have hsends := takes.sendsOff hx
        have hgone' : (t.world.client c).state = .disconnected := by rwa [happly] at hgone
        generalize t.world = w, hy : t.point = y at hsends hgone'
        cases hsends with
        | skipped destroys => cases destroys
        | asked =>
          rw [World.client_onClient _ hlt] at hgone'
          exact hs hgone'
        | unasked | answered => exact hleft hy hc
  · obtain ⟨id, home, connected, hclient⟩ :=
      made_perform hn (not_lt.mp hlt) (World.mem_own.mp hown').1
    rw [hclient] at hgone
    cases hgone

end Machine
end SessionPool
