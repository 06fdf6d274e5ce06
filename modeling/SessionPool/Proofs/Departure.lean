import Mathlib.Tactic.Abel
import SessionPool.Proofs.Custody
import SessionPool.Proofs.Treatment

/-!
# Clients on their way out

A client that a call is sending off has no slot in any pool, and never gets one again.  Before that
it has one: the clients with a slot, the discarded ones and those that the closing of the pool sends
off are all different clients (`Books.Tidy`), and whoever has a reference to a client has it to a
member (`Books.Lent`).

* `Machine.Unseated`: a client has no slot in any pool.
* `Machine.Reachable.unseated_of_outgoing`: clients that are being sent off have none.
-/

namespace SessionPool
namespace Books

variable {b b' : Books} {bad : Mishap → Prop} {c : ClientKey}

/-! ## Different places -/

/-- The clients that have a slot or are on their way out are different clients of the pool. -/
structure Tidy (b : Books) : Prop where
  owned : ∀ c ∈ b.attended, c ∈ b.own
  nodup : b.attended.Nodup

@[simp] theorem hold_attended (s : Stake) :
    (b.hold s).attended = s.arrived + s.discards + s.shutting + b.attended := by
  simp only [attended, hold_seated, hold_stake, Stake.discards_add, Stake.shutting_add]
  abel

theorem attended_onPool {f : Pool → Pool} (hf : (f b.pool).members = b.pool.members) :
    (b.onPool f).attended = b.attended := by
  simp [attended, seated, hf]

/-- Entries that give no client a new place keep all places different. -/
theorem Tidy.of_le (h : b.Tidy) (hown : b.own ⊆ b'.own) (hle : b'.attended ≤ b.attended) :
    b'.Tidy where
  owned c hc := hown (h.owned c (Multiset.subset_of_le hle hc))
  nodup := Multiset.nodup_of_le hle h.nodup

/-- No entry takes a client away from the pool that it was made for. -/
theorem own_subset_entry (e : Entry bad b b') : b.own ⊆ b'.own := by
  cases e with
  | arrive k fresh unreferenced created => exact Finset.subset_insert _ _
  | _ => exact Finset.Subset.refl _

/-- A member that leaves is on its way out. -/
theorem attended_detach (hc : c ∈ b.pool.members) :
    ((b.onPool fun p => p.giveBack.detach c).hold { discards := {c} }).attended = b.attended := by
  have herase : ({c} : Multiset ClientKey) + (b.pool.members.erase c : Multiset ClientKey) =
      b.pool.members := by
    rw [Multiset.singleton_add, ← Multiset.coe_erase, Multiset.cons_erase (Multiset.mem_coe.mpr hc)]
  rw [hold_attended]
  simp only [attended, seated, onPool_pool, onPool_stake, Pool.giveBack, Pool.detach]
  rw [← herase]
  abel

/-- No entry gives a client a place that has none, unless the client has come just now. -/
theorem attended_entry (hs : b.Seated) (e : Entry bad b b') :
    b'.attended ≤ b.attended ∨ ∃ d ∉ b.own, d ∈ b'.own ∧ b'.attended = d ::ₘ b.attended := by
  cases e with
  | found connection limits dialect vacant unstocked =>
    refine .inl (le_of_eq ?_)
    simp only [hold_attended, add_zero, zero_add]
    exact attended_onPool (by rw [vacant]; rfl)
  | @arrive b d k fresh unreferenced created =>
    refine .inr ⟨d, fresh, Finset.mem_insert_self d _, ?_⟩
    rw [hold_attended, hold_attended, add_zero, add_zero, Multiset.singleton_add]
    simp [attended, seated]
  | dismiss closing =>
    refine .inl (le_of_eq ?_)
    simp only [hold_attended]
    rw [attended_onPool rfl]
    abel
  | @enroll b d isOpen =>
    refine .inl (le_of_eq ?_)
    rw [hold_attended]
    simp only [attended, seated, Pool.enroll, onClient_pool, onClient_stake, onPool_pool,
      onPool_stake, ← Multiset.coe_add, Multiset.coe_singleton]
    abel
  | @enrollIdle b d =>
    refine .inl (le_of_eq ?_)
    rw [hold_attended]
    simp only [attended, seated, Pool.enrollIdle, onClient_pool, onClient_stake, onPool_pool,
      onPool_stake, ← Multiset.coe_add, Multiset.coe_singleton]
    abel
  | discard mem last cause => exact .inl (attended_detach mem).le
  | @remove b d cause =>
    refine .inl (le_of_eq ?_)
    rw [attended_detach hs.drained.1]
    simp
  | takeAll settled =>
    refine .inl (le_of_eq ?_)
    rw [hold_attended, hold_attended]
    simp only [attended, seated, Pool.empty, onPool_pool, onPool_stake, Multiset.coe_nil]
    abel
  | part gone | shut gone =>
    refine .inl ?_
    rw [hold_attended]
    exact Multiset.le_add_left _ _
  | _ =>
    refine .inl (le_of_eq ?_)
    simp [attended, seated, Pool.reserve, Pool.unreserve, Pool.takeIdle, Pool.giveBack,
      Pool.pushIdle, Pool.drain]

/-- Every entry keeps all places different. -/
theorem Tidy.entry (hs : b.Seated) (h : b.Tidy) (e : Entry bad b b') : b'.Tidy := by
  rcases attended_entry hs e with hle | ⟨d, hnew, hown, hattended⟩
  · exact h.of_le (own_subset_entry e) hle
  · constructor
    · intro x hx
      rw [hattended, Multiset.mem_cons] at hx
      rcases hx with rfl | hx
      · exact hown
      · exact own_subset_entry e (h.owned x hx)
    · rw [hattended, Multiset.nodup_cons]
      exact ⟨fun hd => hnew (h.owned d hd), h.nodup⟩

/-- A client of the pool that has no place does not get one. -/
theorem notMem_attended_entry (hs : b.Seated) (hown : c ∈ b.own) (hc : c ∉ b.attended)
    (e : Entry bad b b') : c ∉ b'.attended := by
  rcases attended_entry hs e with hle | ⟨d, hnew, -, hattended⟩
  · exact fun h => hc (Multiset.subset_of_le hle h)
  · rw [hattended, Multiset.mem_cons, not_or]
    exact ⟨fun hd => hnew (hd ▸ hown), hc⟩

/-- A client of the pool that has no slot does not get one. -/
theorem notMem_seated_entry (hown : c ∈ b.own) (hc : c ∉ b.seated)
    (e : Entry bad b b') : c ∉ b'.seated := by
  have hdetach : ∀ d, ∀ x ∈ (b.pool.members.erase d : Multiset ClientKey) + b.stake.arrived,
      x ∈ b.seated := by
    intro d x hx
    rw [Multiset.mem_add, Multiset.mem_coe] at hx
    exact Multiset.mem_add.mpr (hx.imp_left List.mem_of_mem_erase)
  cases e with
  | found connection limits dialect vacant unstocked =>
    have hmembers : b.pool.members = [] := by rw [vacant]; rfl
    simpa [seated, hmembers] using hc
  | @arrive b d k fresh unreferenced created =>
    have hne : c ≠ d := fun hd => fresh (hd ▸ hown)
    simpa [seated, hne] using hc
  | discard mem last cause =>
    exact fun hx => hc (hdetach _ c (by simpa [seated, Pool.giveBack, Pool.detach] using hx))
  | @remove b d cause =>
    refine fun hx => hc ?_
    simp only [seated, Pool.giveBack, Pool.detach, hold_pool, onPool_pool, hold_stake,
      onPool_stake, Stake.arrived_add, zero_add, Multiset.mem_add, Multiset.mem_coe] at hx ⊢
    exact hx.imp_left List.mem_of_mem_erase
  | takeAll settled => exact fun hx => hc (by simp_all [seated, Pool.empty])
  | _ =>
    simp_all [seated, Pool.reserve, Pool.unreserve, Pool.enroll, Pool.enrollIdle, Pool.takeIdle,
      Pool.giveBack, Pool.pushIdle, Pool.drain]

/-! ## References -/

/-- Whoever has a reference to a client has it to a member. -/
def Lent (c : ClientKey) (b : Books) : Prop :=
  c ∈ b.own → (b.client c).references ≠ 0 → c ∈ b.pool.members

/-- Entries that take no member away and give no other client references. -/
theorem Lent.of_imp (h : b.Lent c) (hown : c ∈ b'.own → c ∈ b.own)
    (hrefs : (b'.client c).references ≠ 0 →
      c ∈ b'.pool.members ∨ (b.client c).references ≠ 0)
    (hmembers : c ∈ b.pool.members → c ∈ b'.pool.members) : b'.Lent c := by
  intro hc hne
  rcases hrefs hne with h' | h'
  · exact h'
  · exact hmembers (h (hown hc) h')

/-- A change of a client that gives it references only if it is a member, or had some. -/
theorem Lent.onClient {d : ClientKey} (h : b.Lent c) {f : Client → Client}
    (hf : d ∈ b.pool.members ∨ (f (b.client d)).references = (b.client d).references) :
    (b.onClient d f).Lent c := by
  refine h.of_imp id (fun hne => ?_) id
  by_cases hd : c = d
  · subst hd
    refine hf.imp id fun hf => ?_
    simpa [hf] using hne
  · exact .inr (by simpa [Function.update_of_ne hd] using hne)

theorem Lent.onPool (h : b.Lent c) {f : Pool → Pool}
    (hf : c ∈ b.pool.members → c ∈ (f b.pool).members) : (b.onPool f).Lent c :=
  h.of_imp id .inr hf

/-- A member leaves that nobody has a reference to. -/
theorem Lent.detach (h : b.Lent c) {d : ClientKey} (hd : (b.client d).references = 0) :
    (b.onPool fun p => p.giveBack.detach d).Lent c := by
  intro hc hne
  have hcd : c ≠ d := fun hcd => hne (hcd ▸ hd)
  exact (List.mem_erase_of_ne hcd).mpr (h hc hne)

/-- Every entry leaves references to members only. -/
theorem Lent.entry (hs : b.Seated) (hn : b.Counted) (h : b.Lent c) (e : Entry bad b b') :
    b'.Lent c := by
  cases e with
  | found connection limits dialect vacant unstocked =>
    refine h.of_imp id .inr fun hc => ?_
    rw [vacant] at hc
    exact absurd hc List.not_mem_nil
  | @arrive b d k fresh unreferenced created =>
    by_cases hd : c = d
    · intro _ hne
      exact absurd unreferenced (by simpa [hd] using hne)
    · exact h.of_imp (by simp [hd])
        (fun hne => .inr (by simpa [Function.update_of_ne hd] using hne))
        id
  | @enroll b d isOpen =>
    have h₀ : b.Lent c := h
    refine (h₀.onPool ?_).onClient (.inl ?_)
    all_goals simp +contextual [Pool.enroll]
  | @enrollIdle b d =>
    have h₀ : b.Lent c := h
    refine (h₀.onPool ?_).onClient (.inr rfl)
    simp +contextual [Pool.enrollIdle]
  | @lend _ d rest isOpen front =>
    refine (h.onPool (f := fun p => p.takeIdle rest) id).onClient (.inl ?_)
    exact hs.mem_of_mem_free (by simp [free, front])
  | share mem lent countable => exact h.onClient (.inl mem)
  | overflow mishap mem full => exact h.onClient (.inl mem)
  | drop mem lent more => exact h.onClient (.inl mem)
  | giveBack mem last isOpen whole =>
    exact (h.onPool (f := fun p => p.giveBack.pushIdle _) id).onClient (.inl mem)
  | @discard _ d mem last cause =>
    have h₀ : (b.onClient d fun k => { k with references := 0 }).Lent c := h.onClient (.inl mem)
    exact h₀.detach (by simp)
  | @remove b d cause =>
    have h₀ : b.Lent c := h
    exact h₀.detach (hs.free_unreferenced d (by simp))
  | takeAll settled =>
    intro hc hne
    obtain ⟨hidle, -, -⟩ := hs.settled hn settled
    refine absurd (hs.free_unreferenced c (Multiset.mem_add.mpr (.inl ?_))) hne
    rw [hidle]
    exact h hc hne
  | wear mem worn ended => exact h.onClient (.inr worn.references)
  | tamper s mishap => exact h.onClient (.inr rfl)
  | revive mem mishap => exact h.onClient (.inr rfl)
  | _ => exact h.of_imp id .inr id

end Books

/-! ## Who is sent off -/

theorem Point.Wakes.outgoing_eq {x y : Point} (h : Point.Wakes x y) :
    y.outgoing = x.outgoing := by
  cases h <;> rfl

variable {w : World} {p : PoolKey} {c : ClientKey}

/-- A turn sends off only clients that the call was sending off before, or has just discarded, or
has taken out of a pool that it closes. -/
def Turn.Dismisses (x : Point) (t : Turn) : Prop :=
  ∀ c ∈ t.point.outgoing, c ∈ x.outgoing ∨ c ∈ t.point.discards ∨
    ∃ p, c ∈ (t.point.stake p).shutting

theorem Turn.Dismisses.of_nil {x : Point} {t : Turn} (h : t.point.outgoing = []) :
    t.Dismisses x := by
  intro c hc
  rw [h] at hc
  cases hc

theorem Turn.Dismisses.of_subset {x : Point} {t : Turn} (h : t.point.outgoing ⊆ x.outgoing) :
    t.Dismisses x :=
  fun _ hc => .inl (h hc)

/-- A call that has discarded clients sends off these. -/
theorem Turn.Dismisses.of_discards {x : Point} {t : Turn} {cs : List ClientKey} {o : Outcome}
    (h : t.point = .farewell .disconnect false cs (.destroy cs o)) : t.Dismisses x := by
  intro c hc
  refine .inr (.inl ?_)
  rw [h] at hc ⊢
  simpa [Point.outgoing, Afterwards.outgoing, Point.discards] using hc

namespace Acquire

variable {t : Patience} {leased : Bool} {x : Point}

theorem dismisses_seek : (seek w p t leased).Dismisses x := by
  simp only [seek]
  repeat' split
  all_goals exact .of_nil rfl

theorem dismisses_step {s : AcquirePoint} {turn : Turn} (h : step w p t leased s = some turn) :
    turn.Dismisses x := by
  cases s with
  | seeking => exact Option.some.inj h ▸ dismisses_seek
  | opening => cases h
  | asleep => cases h
  | arrived c =>
    obtain rfl := Option.some.inj h
    simp only [arrive]
    split
    · exact .of_discards rfl
    · exact .of_nil rfl
  | refused f => exact Option.some.inj h ▸ .of_nil rfl
  | woken =>
    obtain rfl := Option.some.inj h
    simp only [wake]
    split
    · exact dismisses_seek
    · exact .of_nil rfl
  | expired =>
    obtain rfl := Option.some.inj h
    simp only [expire]
    split
    · exact dismisses_seek
    · exact .of_nil rfl

end Acquire

theorem Stock.dismisses_step {left : ℕ} {s : StockPoint} {turn : Turn} {x : Point}
    (h : Stock.step w p left s = some turn) : turn.Dismisses x := by
  cases s with
  | reserving => cases left <;> exact Option.some.inj h ▸ .of_nil rfl
  | opening => cases h
  | arrived c => exact Option.some.inj h ▸ .of_nil rfl
  | refused f => exact Option.some.inj h ▸ .of_nil rfl

theorem Share.dismisses_step {leased : Bool} {x : Point} :
    (Share.step w p c leased).Dismisses x := by
  simp only [Share.step]
  repeat' split
  all_goals exact .of_nil rfl

theorem Release.dismisses_step {x : Point} : (Release.step w p c).Dismisses x := by
  simp only [Release.step]
  split
  · exact .of_nil rfl
  · split
    · exact .of_nil rfl
    · split
      · simp only [last, Turn.saying]
        split
        · exact .of_discards rfl
        · split
          · exact .of_discards rfl
          · exact .of_nil rfl
      · exact .of_nil rfl

theorem KeepAlive.dismisses_step {s : KeepAlivePoint} {turn : Turn} {x : Point}
    (h : KeepAlive.step w p s = some turn) : turn.Dismisses x := by
  match s, h with
  | .draining, h =>
    obtain rfl := Option.some.inj h
    simp only [drain]
    split <;> exact .of_nil rfl
  | .pinging false pinged (d :: rest) failure, h => exact Option.some.inj h ▸ .of_nil rfl
  | .pinging false pinged [] failure, h => exact Option.some.inj h ▸ .of_discards rfl
  | .pinging true pinged [] failure, h => exact Option.some.inj h ▸ .of_discards rfl

namespace Close

/-- A call that closes a pool sends off the clients that it has taken out. -/
theorem dismisses_drain {x : Point} : (drain w p).Dismisses x := by
  simp only [drain]
  split
  · intro c hc
    refine .inr (.inr ⟨p, ?_⟩)
    simpa [takeAll, Point.outgoing, Afterwards.outgoing, Point.stake] using hc
  · exact .of_nil rfl

theorem dismisses_attend {x : Point} : (attend w p).Dismisses x := by
  simp only [attend]
  split <;> exact .of_nil rfl

theorem dismisses_step {s : ClosePoint} {turn : Turn} (h : step w p s = some turn) :
    turn.Dismisses (.close p s) := by
  match s, h with
  | .entering, h =>
    obtain rfl := Option.some.inj h
    simp only [enter]
    split
    · exact dismisses_attend
    · exact dismisses_drain
  | .draining true, h => exact Option.some.inj h ▸ dismisses_drain
  | .attending true, h => exact Option.some.inj h ▸ dismisses_attend
  | .sealing shut, h => exact Option.some.inj h ▸ .of_subset fun _ => id
  | .announcing shut, h =>
    refine Option.some.inj h ▸ .of_subset ?_
    simp [announce, Point.outgoing, Afterwards.outgoing]

end Close

namespace Farewell

variable {rite : Rite} {waiting : Bool} {next : Afterwards}

theorem dismisses_step {todo : List ClientKey} :
    (step w rite todo next).Dismisses (.farewell rite waiting todo next) := by
  cases todo with
  | nil =>
    refine .of_subset ?_
    cases next <;> simp [step, Turn.goto, after, Point.outgoing, Afterwards.outgoing]
  | cons d rest =>
    simp only [step]
    repeat' split
    all_goals exact .of_subset (by simp [Turn.goto, Point.outgoing])

theorem dismisses_answered {rest : List ClientKey} (a : DisconnectAnswer) :
    (answered w rite c rest next a).Dismisses (.farewell rite waiting (c :: rest) next) := by
  cases a <;> exact .of_subset (by simp [answered, Point.outgoing])

end Farewell

theorem Heartbeat.outgoing_rest {h : HeartbeatKey} : (Heartbeat.rest w h).point.outgoing = [] := by
  unfold Heartbeat.rest
  split <;> rfl

theorem Heartbeat.outgoing_step {h : HeartbeatKey} {k : CallKey} {ended : CallKey → Bool}
    {s : HeartbeatPoint} {turn : Turn} (ht : Heartbeat.step w h k ended s = some turn) :
    turn.point.outgoing = [] := by
  cases s with
  | starting =>
    obtain rfl := Option.some.inj ht
    simp only [start]
    split <;> rfl
  | restarting old =>
    simp only [step] at ht
    split at ht
    · obtain rfl := Option.some.inj ht
      simp only [restart]
      split <;> rfl
    · cases ht
  | stopping => exact Option.some.inj ht ▸ rfl
  | reaping =>
    simp only [step, reap] at ht
    split at ht
    · exact Option.some.inj ht ▸ rfl
    · split at ht
      · exact Option.some.inj ht ▸ rfl
      · cases ht
  | resting =>
    simp only [step] at ht
    split at ht
    · exact Option.some.inj ht ▸ rfl
    · cases ht

theorem Heartbeat.outgoing_endRound {h : HeartbeatKey} (o : Outcome) :
    (endRound w h o).point.outgoing = [] := by
  unfold endRound
  split
  · rfl
  all_goals exact outgoing_rest

namespace Machine

variable {m n : Machine} {e : Event} {k : CallKey} {call : Call} {t : Turn}

theorem outgoing_conclude {o : Outcome} {s : Sequel} (h : conclude w o s = some t) :
    t.point.outgoing = [] := by
  cases s with
  | none => cases h
  | beat b => exact Option.some.inj h ▸ Heartbeat.outgoing_endRound o
  | _ => exact Option.some.inj h ▸ rfl

/-- What every turn sends off. -/
theorem Takes.dismisses (h : m.Takes k call e t) : t.Dismisses call.point := by
  cases h with
  | step h | overlooked h =>
    obtain ⟨x, sequel, notices⟩ := call
    cases x with
    | stock p left s => exact Stock.dismisses_step h
    | acquire p t leased s => exact Acquire.dismisses_step h
    | addReference p c leased => exact Option.some.inj h ▸ Share.dismisses_step
    | release p c leased => exact Option.some.inj h ▸ Release.dismisses_step
    | keepAlive p s => exact KeepAlive.dismisses_step h
    | close p s => exact Close.dismisses_step h
    | exchange c command ping waiting =>
      cases waiting with
      | false => exact Option.some.inj h ▸ .of_nil rfl
      | true => cases h
    | farewell rite waiting todo next =>
      match waiting, todo, h with
      | false, todo, h => exact Option.some.inj h ▸ Farewell.dismisses_step
      | true, [], h => exact Option.some.inj h ▸ Farewell.dismisses_step
    | heartbeat b s => exact .of_nil (Heartbeat.outgoing_step h)
    | finished o => exact .of_nil (outgoing_conclude h)
  | stocked a hpoint => exact .of_nil rfl
  | opened a hpoint => exact .of_nil rfl
  | pinged a hpoint =>
    simp only [KeepAlive.answered]
    split <;> exact .of_nil rfl
  | replied a hpoint => exact .of_nil rfl
  | parted a hpoint =>
    rw [hpoint]
    exact Farewell.dismisses_answered a
  | expired hpoint limited => exact .of_nil rfl
  | beat hpoint wanted => exact .of_nil rfl

/-! ## Clients without a slot -/

/-- A client has no slot in any pool. -/
def Unseated (m : Machine) (c : ClientKey) : Prop := ∀ p, c ∉ (m.books p).seated

theorem Unseated.notMem_members (h : m.Unseated c) (p : PoolKey) :
    c ∉ (m.world.pool p).members :=
  fun hc => h p (Multiset.mem_add.mpr (.inl hc))

/-- Places are different in every machine that can be reached. -/
theorem Reachable.tidy (hm : m.Reachable) (p : PoolKey) : (m.books p).Tidy := by
  refine (reachable_iff_reachableWithout.mp hm).books_induct (I := Books.Tidy) ⟨?_, ?_⟩
    (fun b b' hs _ h e => h.entry hs e) p
  · exact fun _ hc => absurd hc (Multiset.notMem_zero _)
  · exact Multiset.nodup_zero

/-- In every machine that can be reached references are to members. -/
theorem Reachable.lent (hm : m.Reachable) (p : PoolKey) (c : ClientKey) : (m.books p).Lent c :=
  (reachable_iff_reachableWithout.mp hm).books_induct (I := Books.Lent c)
    (fun hc => absurd hc (Finset.notMem_empty c)) (fun _ _ hs hn h e => h.entry hs hn e) p

/-- A client that has been made and has no slot does not get one. -/
theorem Unseated.perform (h : m.Unseated c) (hm : m.Sound) (hc : c < m.world.clients.length)
    (hn : m.perform e = some n) : n.Unseated c := by
  intro p hseated
  have hfollows : Follows (fun _ => True) m n := hm.perform hn fun _ _ => trivial
  have hown : c ∈ m.world.own p :=
    mem_own_before hn hc ((hfollows.1.seated p).owned c hseated)
  have hkeeps : c ∈ (n.books p).own ∧ c ∉ (n.books p).seated :=
    hm.books_perform (I := fun b => c ∈ b.own ∧ c ∉ b.seated) hn
      (fun _ _ => trivial)
      (fun _ _ _ _ hI e => ⟨Books.own_subset_entry e hI.1, Books.notMem_seated_entry hI.1 hI.2 e⟩)
      ⟨hown, h p⟩
  exact hkeeps.2 hseated

theorem mem_arrived_stake {p : PoolKey} (hk : m.call? k = some call)
    (hc : c ∈ (call.point.stake p).arrived) : c ∈ (m.stake p).arrived := by
  obtain ⟨rest, hrest, -⟩ := exists_rest hk
  rw [hrest, Stake.arrived_add]
  exact Multiset.mem_add.mpr (.inl hc)

/-- Only a client that has a slot is made anything else once it is disconnected. -/
theorem Unseated.disconnected_perform (h : m.Unseated c) (hm : m.Sound)
    (hc : c < m.world.clients.length) (hs : (m.world.client c).state = .disconnected)
    (hn : m.perform e = some n) (he : ∀ s, e ≠ .setState c s) :
    (n.world.client c).state = .disconnected := by
  cases happens hn with
  | turn pick s hk takes sequel =>
    exact (takes.treatment hc).disconnected hs h.notMem_members
      (fun q hi => h.notMem_members q (hm.of_mem_idle hi).1)
      fun q ha => h q (Multiset.mem_add.mpr (.inr (mem_arrived_stake hk ha)))
  | enter permits =>
    rw [client_begin]
    exact hs
  | @aside _ w befalls =>
    show (w.client c).state = .disconnected
    rcases befalls.client hc with hw | ⟨-, hw⟩ | ⟨connected, -, hw⟩ | ⟨s, hset, -⟩ | ⟨-, count, hw⟩
    · exact hw ▸ hs
    · rw [hw, Client.breakDown, if_pos hs]
      exact hs
    · exact hw ▸ hs
    · exact absurd hset (he s)
    · exact hw ▸ hs

/-- A client that has been discarded has no slot. -/
theorem Reachable.unseated_of_discards (hm : m.Reachable) (hk : call ∈ m.calls)
    (hc : c ∈ call.point.discards) : m.Unseated c := by
  intro p hseated
  have hown : c ∈ m.world.own p := (hm.sound.seated p).owned c hseated
  have hdiscards : c ∈ (m.books p).stake.discards :=
    (mem_discards_books hown).mpr (List.mem_flatMap.mpr ⟨call, hk, hc⟩)
  have hnodup := (hm.tidy p).nodup
  rw [Books.attended, add_assoc] at hnodup
  exact Multiset.disjoint_left.mp (Multiset.nodup_add.mp hnodup).2.2 hseated
    (Multiset.mem_add.mpr (.inl hdiscards))

theorem mem_shutting_stake {p : PoolKey} (hk : call ∈ m.calls)
    (hc : c ∈ (call.point.stake p).shutting) : c ∈ (m.stake p).shutting := by
  obtain ⟨k, hk⟩ := List.mem_iff_getElem?.mp hk
  obtain ⟨rest, hrest, -⟩ := exists_rest hk
  rw [hrest, Stake.shutting_add]
  exact Multiset.mem_add.mpr (.inl hc)

/-- A client that the closing of its pool has taken out is one of the pool and has no slot. -/
theorem Reachable.unseated_of_shutting (hm : m.Reachable) (hc : c ∈ (m.stake p).shutting) :
    c < m.world.clients.length ∧ m.Unseated c := by
  have hmem : c ∈ (m.books p).attended := Books.mem_attended.mpr (.inr (.inr hc))
  have hown : c ∈ m.world.own p := (hm.tidy p).owned c hmem
  refine ⟨(World.mem_own.mp hown).1, fun q hseated => ?_⟩
  by_cases hq : q = p
  · subst hq
    have hnodup := (hm.tidy q).nodup
    exact Multiset.disjoint_left.mp (Multiset.nodup_add.mp hnodup).2.2
      (Multiset.mem_add.mpr (.inl hseated)) hc
  · exact World.notMem_own_of_ne hown hq ((hm.sound.seated q).owned c hseated)

/-- A client that was made by hand has no slot. -/
theorem Sound.unseated_of_handmade (hm : m.Sound) (hc : m.world.hasHandmade c = true) :
    c < m.world.clients.length ∧ m.Unseated c := by
  refine ⟨?_, fun p hseated => World.notMem_own_of_handmade hc ((hm.seated p).owned c hseated)⟩
  simp only [World.hasHandmade, World.hasClient, Bool.and_eq_true, decide_eq_true_eq] at hc
  exact hc.1.1

/-- A call that begins sends off nobody but a client made by hand. -/
theorem handmade_of_outgoing_enter {o : Operation} (hpermits : m.permits o = true)
    (hc : c ∈ (o.enter m.world).point.outgoing) : m.world.hasHandmade c = true := by
  cases o with
  | disconnect d | destroy d =>
    obtain rfl : c = d := by simpa [Operation.enter, Point.outgoing, Afterwards.outgoing] using hc
    exact hpermits
  | construct connection limits factory dialect =>
    simp only [Operation.enter, Operation.make] at hc
    repeat' split at hc
    all_goals cases hc
  | shareLease l | releaseLease l | assignLease target source | dropLease l =>
    simp only [Operation.enter, Operation.giveUp] at hc
    repeat' split at hc
    all_goals cases hc
  | _ => cases hc

/-- Every client that a call is sending off has been made, and has no slot. -/
theorem Reachable.unseated_of_outgoing (hm : m.Reachable) :
    ∀ call ∈ m.calls, ∀ c ∈ call.point.outgoing,
      c < m.world.clients.length ∧ m.Unseated c := by
  suffices h : m.Reachable ∧ ∀ call ∈ m.calls, ∀ c ∈ call.point.outgoing,
      c < m.world.clients.length ∧ m.Unseated c from h.2
  refine hm.induct (P := fun m => m.Reachable ∧ ∀ call ∈ m.calls, ∀ c ∈ call.point.outgoing,
    c < m.world.clients.length ∧ m.Unseated c)
    ⟨reachable_empty, fun _ hk => absurd hk List.not_mem_nil⟩ ?_
  rintro m n e ⟨hm, ih⟩ hn
  have hm' : n.Reachable := hm.perform hn
  refine ⟨hm', fun call' hk' c hc => ?_⟩
  have hkeep : ∀ call ∈ m.calls, c ∈ call.point.outgoing →
      c < n.world.clients.length ∧ n.Unseated c := by
    intro call hk hc
    obtain ⟨hlt, hunseated⟩ := ih call hk c hc
    exact ⟨hlt.trans_le (hm.sound.length_clients (happens hn)), hunseated.perform hm.sound hlt hn⟩
  obtain ⟨j, hj'⟩ := List.mem_iff_getElem?.mp hk'
  rcases (happens hn).exists_call_before hj' with ⟨call, hj⟩ | ⟨o, -, hpermits, hpoint, -⟩ |
    ⟨b, hb, -⟩
  · have hk : call ∈ m.calls := List.mem_of_getElem? hj
    obtain ⟨call'', hj'', h⟩ := (happens hn).exists_call hj
    obtain rfl := Option.some.inj (hj'.symm.trans hj'')
    rcases h with ⟨hw, -⟩ | ⟨t, takes, -, hw, -⟩
    · exact hkeep call hk (hw.outgoing_eq ▸ hc)
    · rw [hw.outgoing_eq] at hc
      rcases takes.dismisses c hc with hc | hc | ⟨p, hc⟩
      · exact hkeep call hk hc
      · rw [← hw.discards_eq] at hc
        exact ⟨hm'.sound.made call' hk' c hc, hm'.unseated_of_discards hk' hc⟩
      · rw [← hw.stake_eq] at hc
        exact hm'.unseated_of_shutting (mem_shutting_stake hk' hc)
  · rw [hpoint] at hc
    obtain ⟨hlt, hunseated⟩ :=
      hm.sound.unseated_of_handmade (handmade_of_outgoing_enter hpermits hc)
    exact ⟨hlt.trans_le (hm.sound.length_clients (happens hn)), hunseated.perform hm.sound hlt hn⟩
  · rw [hb] at hc
    cases hc

end Machine
end SessionPool
