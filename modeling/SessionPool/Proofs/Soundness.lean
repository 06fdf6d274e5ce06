import SessionPool.Proofs.Bookkeeping.Borrowing
import SessionPool.Proofs.Bookkeeping.Parting

/-!
# The books of a machine

Every event of a machine is a sequence of entries in the books of each pool, and the books of each
pool balance in every machine that can be reached.

* `Machine.Sound`: the books of all pools balance, and every call deals with pools that exist and
  with clients that have been made.
* `Machine.Sound.perform`: an event keeps a machine sound, and makes only entries.
* `Machine.ReachableWithout.books_induct`: what holds of empty books and is kept by every entry that
  is no bad mishap holds of the books of every machine that can be reached without bad mishaps.
-/

namespace SessionPool

namespace Point.Wakes

variable {x y : Point}

/-- A sleeper that has been woken goes on with its errand. -/
theorem errand_eq (h : Wakes x y) : y.errand? = x.errand? := by
  cases h <;> rfl

theorem discards_eq (h : Wakes x y) : y.discards = x.discards := by
  cases h <;> rfl

end Point.Wakes

namespace Machine

/-- The books of all pools balance, and calls deal with what exists. -/
structure Sound (m : Machine) : Prop where
  seated : ∀ p, (m.books p).Seated
  counted : ∀ p, (m.books p).Counted
  made : ∀ k ∈ m.calls, ∀ c ∈ k.point.discards, c < m.world.clients.length
  stocked : ∀ k ∈ m.calls, ∀ p, k.point.errand? = some (.stock p) → p < m.world.pools.length
  used : ∀ k ∈ m.calls, ∀ p, k.point.errand? = some (.use p) → m.hasPool p

variable {m n : Machine} {bad : Mishap → Prop} {p : PoolKey} {k : CallKey} {call : Call}

/-! ## Slots -/

/-- The slots of a pool are those of its members, and those that are there for clients still to
come. -/
theorem Sound.toNat_created (hm : m.Sound) (p : PoolKey) : (m.world.pool p).created.toNat =
    (m.world.pool p).members.length + (m.stake p).creations :=
  (hm.counted p).created

/-- The slots of a pool are idle or outstanding. -/
theorem Sound.toNat_created_idle (hm : m.Sound) (p : PoolKey) : (m.world.pool p).created.toNat =
    (m.world.pool p).idle.length + (m.world.pool p).outstanding.toNat :=
  (hm.counted p).outstanding

/-! ## Calls -/

theorem stocks_iff : stocks p call = true ↔ call.point.errand? = some (.stock p) := by
  unfold stocks Point.errand?
  cases call.point with
  | stock q left s => simp [eq_comm]
  | farewell rite waiting todo next => cases next <;> simp
  | _ => simp

/-- A pool is ready for use if it is there and nobody stocks it. -/
theorem hasPool_iff : m.hasPool p = true ↔
    p < m.world.pools.length ∧ ∀ k ∈ m.calls, k.point.errand? ≠ some (.stock p) := by
  simp [hasPool, stocks_iff]

theorem discards_stakeOf (calls : List Call) (p : PoolKey) :
    (stakeOf calls p).discards = calls.flatMap fun k => k.point.discards := by
  induction calls with
  | nil => rfl
  | cons k calls ih =>
    rw [stakeOf_cons, Stake.discards_add, Point.discards_stake, ih, List.flatMap_cons,
      Multiset.coe_add]

/-- What some calls discard is what each of them discards. -/
theorem mem_discards_stakeOf {calls : List Call} {c : ClientKey}
    (h : c ∈ (stakeOf calls p).discards) : ∃ k ∈ calls, c ∈ k.point.discards := by
  rw [discards_stakeOf, Multiset.mem_coe] at h
  exact List.mem_flatMap.mp h

/-- Nobody holds a budget of a pool that nobody stocks. -/
theorem budget_stakeOf {calls : List Call}
    (h : ∀ k ∈ calls, k.point.errand? ≠ some (.stock p)) : (stakeOf calls p).budget = 0 := by
  induction calls with
  | nil => rfl
  | cons k calls ih =>
    rw [stakeOf_cons, Stake.budget_add, Point.budget_stake (h k List.mem_cons_self),
      ih fun k' hk' => h k' (List.mem_cons_of_mem k hk')]

/-- What does not mind wake-ups holds after them of all points of which it held before. -/
theorem forall_of_wakes {P : Point → Prop} (hwake : ∀ x y, Point.Wakes x y → P x → P y)
    {calls woken : List Call}
    (hw : List.Forall₂ (fun k k' : Call => Point.Wakes k.point k'.point) calls woken)
    (h : ∀ k ∈ calls, P k.point) : ∀ k' ∈ woken, P k'.point := by
  induction hw with
  | nil => exact List.forall_mem_nil _
  | cons hk _ ih =>
    rw [List.forall_mem_cons] at h ⊢
    exact ⟨hwake _ _ hk h.1, ih h.2⟩

theorem forall_foldl_signal {P : Point → Prop} (hwake : ∀ x y, Point.Wakes x y → P x → P y)
    (pick : ℕ) (signals : List Signal) {calls : List Call} (h : ∀ k ∈ calls, P k.point) :
    ∀ k' ∈ signals.foldl (signal pick) calls, P k'.point := by
  induction signals generalizing calls with
  | nil => exact h
  | cons s signals ih => exact ih (forall_of_wakes hwake (forall₂_signal pick calls s) h)

/-- What holds of all points before a step, of the new point, and of those of calls that begin, and
does not mind wake-ups, holds of all points after the step. -/
theorem forall_apply {P : Point → Prop} {m' : Machine} {f : Call → Call} {pick : ℕ} {t : Turn}
    (hwake : ∀ x y, Point.Wakes x y → P x → P y) (hcalls : m'.calls = m.calls.modify k f)
    (hold : ∀ k ∈ m.calls, P k.point) (hnew : P t.point) (hstarted : ∀ y ∈ t.started, P y) :
    ∀ k' ∈ (m'.apply k pick t).calls, P k'.point := by
  have hmoved : ∀ k' ∈ m'.calls.modify k (moved t), P k'.point := by
    intro k' hk'
    rw [hcalls, List.modify_modify_eq, List.mem_iff_getElem?] at hk'
    obtain ⟨j, hj⟩ := hk'
    rw [List.getElem?_modify] at hj
    obtain ⟨k₀, hk₀, rfl⟩ := Option.map_eq_some_iff.mp hj
    split
    · exact hnew
    · exact hold k₀ (List.mem_of_getElem? hk₀)
  intro k' hk'
  simp only [apply, List.mem_append, List.mem_map, Option.mem_toList] at hk'
  rcases hk' with hk' | ⟨y, hy, rfl⟩
  · exact forall_foldl_signal hwake pick t.signals hmoved k' hk'
  · exact hstarted y hy

/-! ## Steps -/

/-- A call of a sound machine has a footing. -/
theorem Sound.footing (hm : m.Sound) (hk : m.call? k = some call) {rest : PoolKey → Stake}
    (hrest : ∀ p, m.stake p = call.point.stake p + rest p) :
    Footing m.world rest call.point where
  seated p := hrest p ▸ hm.seated p
  counted p := hrest p ▸ hm.counted p
  made p c hc := by
    rw [← hrest p] at hc
    obtain ⟨k', hk', hc⟩ := mem_discards_stakeOf hc
    exact hm.made k' hk' c hc
  stocked := hm.stocked call (List.mem_of_getElem? hk)
  used p hp := by
    obtain ⟨hlength, hstocks⟩ := hasPool_iff.mp (hm.used call (List.mem_of_getElem? hk) p hp)
    have hbudget : (m.stake p).budget = 0 := budget_stakeOf hstocks
    rw [hrest p, Stake.budget_add] at hbudget
    exact ⟨hlength, Nat.eq_zero_of_add_eq_zero_left hbudget⟩

/-- A step of a call keeps a machine sound, and makes only entries. -/
theorem Sound.step (hm : m.Sound) (hk : m.call? k = some call) {t : Turn}
    (ht : ∀ rest, Footing m.world rest call.point → t.Passes bad rest m.world call.point)
    (hstarted : ∀ y ∈ t.started, ∃ h, y = .heartbeat h .resting) {m' : Machine} {f : Call → Call}
    (hcalls : m'.calls = m.calls.modify k f) (pick : ℕ) :
    (m'.apply k pick t).Sound ∧
      ∀ p, Books.Entries bad (m.books p) ((m'.apply k pick t).books p) := by
  obtain ⟨rest, hrest, hafter⟩ := exists_rest hk
  have hpass : Passage bad rest m.world call.point t.world t.point :=
    ht rest (hm.footing hk hrest)
  have hbegun : ∀ p, stakeOf (t.started.toList.map fun x => ({ point := x } : Call)) p = 0 := by
    intro p
    cases hs : t.started with
    | none => rfl
    | some y =>
      obtain ⟨h, rfl⟩ := hstarted y hs
      rfl
  have hentries : ∀ p, Books.Entries bad (m.books p) ((m'.apply k pick t).books p) := by
    intro p
    rw [books, books, hafter m' f pick t hcalls p, hbegun, add_zero, hrest p]
    exact hpass.entries p
  have herrand : ∀ k' ∈ (m'.apply k pick t).calls, ∀ e, k'.point.errand? = some e →
      ∃ k ∈ m.calls, k.point.errand? = some e := by
    refine forall_apply (P := fun x => ∀ e, x.errand? = some e →
      ∃ k ∈ m.calls, k.point.errand? = some e) ?_ hcalls (fun k' hk' e he => ⟨k', hk', he⟩) ?_ ?_
    · intro x y hxy hx
      rwa [hxy.errand_eq]
    · intro e he
      rcases hpass.errand with hy | hy
      · rw [hy] at he
        cases he
      · exact ⟨call, List.mem_of_getElem? hk, hy ▸ he⟩
    · intro y hy
      obtain ⟨h, rfl⟩ := hstarted y hy
      exact nofun
  refine ⟨⟨fun p => ?_, fun p => ?_, ?_, ?_, ?_⟩, hentries⟩
  · exact ((hm.seated p).entries (hm.counted p) (hentries p)).1
  · exact ((hm.seated p).entries (hm.counted p) (hentries p)).2
  · refine forall_apply (P := fun x => ∀ c ∈ x.discards, c < t.world.clients.length) ?_ hcalls
      (fun k' hk' c hc => (hm.made k' hk' c hc).trans_le hpass.clients) hpass.made ?_
    · intro x y hxy hx
      rwa [hxy.discards_eq]
    · intro y hy
      obtain ⟨h, rfl⟩ := hstarted y hy
      exact nofun
  · intro k' hk' p hp
    obtain ⟨k₀, hk₀, he⟩ := herrand k' hk' _ hp
    exact (hm.stocked k₀ hk₀ p he).trans_eq hpass.pools.symm
  · intro k' hk' p hp
    obtain ⟨k₀, hk₀, he⟩ := herrand k' hk' _ hp
    obtain ⟨hlength, hstocks⟩ := hasPool_iff.mp (hm.used k₀ hk₀ p he)
    refine hasPool_iff.mpr ⟨hlength.trans_eq hpass.pools.symm, fun k₁ hk₁ hs => ?_⟩
    obtain ⟨k₂, hk₂, hs⟩ := herrand k₁ hk₁ _ hs
    exact hstocks k₂ hk₂ hs

/-- Only a heartbeat that is started again starts another call. -/
theorem started_turn {w : World} {fresh : CallKey} {ended : CallKey → Bool} {t : Turn}
    (h : turn w fresh ended call = some t) : ∀ y ∈ t.started, ∃ h, y = .heartbeat h .resting := by
  obtain ⟨x, sequel, notices⟩ := call
  cases x with
  | stock p left s => exact Turn.forall_started (Stock.started_step h)
  | acquire p t leased s => exact Turn.forall_started (Acquire.started_step h)
  | addReference p c leased => exact Option.some.inj h ▸ Turn.forall_started Share.started_step
  | release p c leased => exact Option.some.inj h ▸ Turn.forall_started Release.started_step
  | keepAlive p s => exact Turn.forall_started (KeepAlive.started_step h)
  | close p s => exact Turn.forall_started (Close.started_step h)
  | exchange c command ping waiting =>
    cases waiting with
    | false => exact Option.some.inj h ▸ Turn.forall_started rfl
    | true => cases h
  | farewell rite waiting todo next =>
    match waiting, todo, h with
    | false, todo, h => exact Option.some.inj h ▸ Turn.forall_started Farewell.started_step
    | true, [], h => exact Option.some.inj h ▸ Turn.forall_started Farewell.started_step
  | heartbeat b s => exact Heartbeat.started_step h
  | finished o => exact Turn.forall_started (started_conclude h)

/-- Every step that a call takes is made of entries. -/
theorem passes_turn {w : World} {rest : PoolKey → Stake} {fresh : CallKey} {ended : CallKey → Bool}
    {t : Turn} (hf : Footing w rest call.point) (h : turn w fresh ended call = some t)
    (hbad : ∀ p c leased, call.point = .addReference p c leased → c ∈ (w.pool p).members →
      (w.client c).references = Client.mostReferences → bad (.overflow c)) :
    t.Passes bad rest w call.point := by
  obtain ⟨x, sequel, notices⟩ := call
  cases x with
  | stock p left s => exact Stock.passes_step hf h
  | acquire p t leased s => exact Acquire.passes_step hf h
  | addReference p c leased =>
    exact Option.some.inj h ▸ Share.passes_step hf (hbad p c leased rfl)
  | release p c leased => exact Option.some.inj h ▸ Release.passes_step hf
  | keepAlive p s => exact KeepAlive.passes_step hf h
  | close p s => exact Close.passes_step hf h
  | exchange c command ping waiting =>
    cases waiting with
    | false => exact Option.some.inj h ▸ Exchange.passes_step hf
    | true => cases h
  | farewell rite waiting todo next =>
    match waiting, todo, h with
    | false, todo, h => exact Option.some.inj h ▸ Farewell.passes_step hf
    | true, [], h => exact Option.some.inj h ▸ Farewell.passes_step hf
  | heartbeat b s => exact (Heartbeat.aside_step h).passes hf fun _ => rfl
  | finished o => exact (aside_conclude h).passes hf fun _ => rfl

/-! ## Events -/

/-- What an event of a sound machine leads to is sound, and entries lead there in all books. -/
def Follows (bad : Mishap → Prop) (m n : Machine) : Prop :=
  n.Sound ∧ ∀ p, Books.Entries bad (m.books p) (n.books p)

/-- A call takes its next step. -/
theorem Sound.advance (hm : m.Sound) {pick : ℕ} (hn : m.advance k pick = some n)
    (hbad : ∀ call p c leased, m.call? k = some call → call.point = .addReference p c leased →
      c ∈ (m.world.pool p).members → (m.world.client c).references = Client.mostReferences →
      bad (.overflow c)) :
    Follows bad m n := by
  simp only [Machine.advance, Option.bind_eq_bind, Option.bind_eq_some_iff, Option.some.injEq] at hn
  obtain ⟨call, hk, t, ht, rfl⟩ := hn
  exact hm.step hk (fun rest hf => passes_turn hf ht fun p c leased => hbad call p c leased hk)
    (started_turn ht) rfl pick

/-- A call takes a step that starts no other. -/
theorem Sound.step_alone (hm : m.Sound) (hk : m.call? k = some call) {t : Turn}
    (ht : ∀ rest, Footing m.world rest call.point → t.Passes bad rest m.world call.point)
    (hstarted : t.started = none) (pick : ℕ) : Follows bad m (m.apply k pick t) :=
  hm.step (f := id) hk ht (by simp [hstarted]) (by simp) pick

/-- A call overlooks a fault. -/
theorem Sound.overlook (hm : m.Sound) {pick : ℕ} (hn : m.overlook k pick = some n) :
    Follows bad m n := by
  obtain ⟨call, p, c, leased, t, hk, hpoint, ht, rfl⟩ := exists_of_overlook hn
  obtain rfl := Release.step_of_overlook ht
  refine hm.step_alone hk (fun rest hf => ?_) Release.started_step pick
  rw [hpoint] at hf ⊢
  exact Release.passes_step hf

/-- A window gets its answer. -/
theorem Sound.answer (hm : m.Sound) {a : Answer} (hn : m.answer k a = some n)
    (hbad : ∀ call c reason, m.call? k = some call →
      call.point.request? = some (.disconnect c) → a = .disconnected (.failed reason) →
      bad (.failure c)) :
    Follows bad m n := by
  simp only [Machine.answer, Option.bind_eq_bind, Option.bind_eq_some_iff] at hn
  obtain ⟨call, hk, hn⟩ := hn
  split at hn
  · next p left a hpoint =>
    refine Option.some.inj hn ▸ hm.step_alone hk (fun rest hf => ?_) rfl 0
    rw [hpoint] at hf ⊢
    exact Stock.passes_answered hf a
  · next p t leased a hpoint =>
    refine Option.some.inj hn ▸ hm.step_alone hk (fun rest hf => ?_) rfl 0
    rw [hpoint] at hf ⊢
    exact Acquire.passes_answered hf a
  · next p pinged c others failure a hpoint =>
    refine Option.some.inj hn ▸ hm.step_alone hk (fun rest hf => ?_) ?_ 0
    · rw [hpoint] at hf ⊢
      exact KeepAlive.passes_answered a hf
    · simp only [KeepAlive.answered]
      split <;> rfl
  · next c command ping a hpoint =>
    refine Option.some.inj hn ▸ hm.step_alone hk (fun rest hf => ?_) rfl 0
    rw [hpoint] at hf ⊢
    exact Exchange.passes_answered hf a
  · next rite c others next a hpoint =>
    refine Option.some.inj hn ▸ hm.step_alone hk (fun rest hf => ?_) ?_ 0
    · rw [hpoint] at hf ⊢
      refine Farewell.passes_answered hf fun reason ha => ?_
      exact hbad call c reason hk (by rw [hpoint]; rfl) (by rw [ha])
    · cases a <;> rfl
  · cases hn

/-- A sleeper loses its patience. -/
theorem Sound.expire (hm : m.Sound) (hn : m.expire k = some n) : Follows bad m n := by
  simp only [Machine.expire, Option.bind_eq_bind, Option.bind_eq_some_iff] at hn
  obtain ⟨call, hk, hn⟩ := hn
  split at hn
  · next p t leased hpoint =>
    split at hn
    · refine Option.some.inj hn ▸ hm.step_alone hk (fun rest hf => ?_) rfl 0
      rw [hpoint] at hf ⊢
      exact .stay hf (fun _ => rfl) (.inr rfl)
    · cases hn
  · cases hn

/-- A worker begins a round. -/
theorem Sound.tick (hm : m.Sound) (hn : m.tick k = some n) : Follows bad m n := by
  simp only [Machine.tick, Option.bind_eq_bind, Option.bind_eq_some_iff] at hn
  obtain ⟨call, hk, hn⟩ := hn
  split at hn
  · next h hpoint =>
    split at hn
    · cases hn
    · let p := (m.world.heartbeat h).pool
      let m' : Machine := { m with calls := m.calls.modify k fun c => { c with sequel := .beat h } }
      have hn' : m'.apply k 0 (.goto m.world (.keepAlive p .draining)) = n := by
        rw [← Option.some.inj hn]
        simp [Machine.apply, m', p, Turn.goto, moved, List.modify_modify_eq, Function.comp_def]
      rw [← hn']
      refine hm.step hk (fun rest hf => ?_) (by simp [Turn.goto]) rfl 0
      rw [hpoint] at hf ⊢
      refine .stay hf (fun q => ?_) (.inl rfl)
      simp only [Turn.goto, Point.stake]
      split <;> rfl
  · cases hn

/-! ### What changes only the shared state -/

/-- Who holds nothing has a footing in a sound machine. -/
theorem Sound.footing_finished (hm : m.Sound) (o : Outcome) :
    Footing m.world m.stake (.finished o) where
  seated p := by
    rw [show (Point.finished o).stake p = 0 from rfl, zero_add]
    exact hm.seated p
  counted p := by
    rw [show (Point.finished o).stake p = 0 from rfl, zero_add]
    exact hm.counted p
  made p c hc := by
    rw [show (Point.finished o).stake p = 0 from rfl, zero_add] at hc
    obtain ⟨k, hk, hc⟩ := mem_discards_stakeOf hc
    exact hm.made k hk c hc
  stocked p hp := by cases hp
  used p hp := by cases hp

/-- A change of the shared state that nobody's step is keeps a machine sound. -/
theorem Sound.withWorld (hm : m.Sound) {w : World} {o : Outcome}
    (h : Footing m.world m.stake (.finished o) →
      Passage bad m.stake m.world (.finished o) w (.finished o)) :
    Follows bad m { m with world := w } := by
  have hpass := h (hm.footing_finished o)
  have hfoot := hpass.footing (hm.footing_finished o)
  have hentries : ∀ p, Books.Entries bad (m.books p) (w.books p (m.stake p)) := by
    intro p
    have hp := hpass.entries p
    rwa [show (Point.finished o).stake p = 0 from rfl, zero_add] at hp
  refine ⟨⟨fun p => ?_, fun p => ?_, ?_, ?_, ?_⟩, hentries⟩
  · exact ((hm.seated p).entries (hm.counted p) (hentries p)).1
  · exact ((hm.seated p).entries (hm.counted p) (hentries p)).2
  · exact fun k hk c hc => (hm.made k hk c hc).trans_le hpass.clients
  · exact fun k hk p hp => (hm.stocked k hk p hp).trans_eq hpass.pools.symm
  · intro k hk p hp
    obtain ⟨hlength, hstocks⟩ := hasPool_iff.mp (hm.used k hk p hp)
    exact hasPool_iff.mpr ⟨hlength.trans_eq hpass.pools.symm, hstocks⟩

/-- Clients made by hand are in no book. -/
theorem Sound.onHandmade (hm : m.Sound) {c : ClientKey} {f : Client → Client}
    (hc : (m.world.client c).home = none)
    (hf : (f (m.world.client c)).home = (m.world.client c).home) :
    Follows bad m { m with world := m.world.onClient c f } := by
  refine hm.withWorld (o := .ok .done) fun hfoot => ?_
  refine .of_same hfoot (fun p s => ?_) (fun _ => rfl) (.inl rfl) (by simp) (by simp)
  refine World.books_onClient_of_notMem _ (fun hmem => ?_) hf
  rw [(World.mem_own.mp hmem).2] at hc
  cases hc

/-- The shared state changes in one client. -/
theorem Sound.onClient (hm : m.Sound) {c : ClientKey} {f : Client → Client}
    (home : (f (m.world.client c)).home = (m.world.client c).home)
    (h : ∀ p, c ∈ m.world.own p →
      Books.Entry bad (m.books p) ((m.books p).onClient c f)) :
    Follows bad m { m with world := m.world.onClient c f } := by
  cases hhome : (m.world.client c).home with
  | none => exact hm.onHandmade hhome home
  | some p =>
    have hc : c ∈ m.world.own p := World.mem_own_of_home hhome
    refine hm.withWorld (o := .ok .done) fun hfoot => ?_
    refine .of_client hfoot hc home ?_ (fun _ => rfl) (.inl rfl)
    rw [show (Point.finished (.ok .done)).stake p = 0 from rfl, zero_add]
    exact h p hc

/-! ### Calls that begin -/

/-- A call begins. -/
theorem Sound.enter (hm : m.Sound) {w : World} {call : Call}
    (entries : ∀ p, Books.Entries bad (m.books p) (w.books p (call.point.stake p + m.stake p)))
    (discards : call.point.discards = [])
    (stocked : ∀ p, call.point.errand? = some (.stock p) →
      p = m.world.pools.length ∧ p < w.pools.length)
    (used : ∀ p, call.point.errand? = some (.use p) → m.hasPool p)
    (pools : m.world.pools.length ≤ w.pools.length)
    (clients : m.world.clients.length ≤ w.clients.length) :
    Follows bad m { world := w, calls := m.calls ++ [call] } := by
  have hbooks : ∀ p, Machine.books { world := w, calls := m.calls ++ [call] } p =
      w.books p (call.point.stake p + m.stake p) := by
    intro p
    simp only [Machine.books, stake, stakeOf_append, stakeOf_cons, stakeOf_nil, add_zero]
    rw [add_comm]
  have hentries : ∀ p, Books.Entries bad (m.books p)
      (Machine.books { world := w, calls := m.calls ++ [call] } p) :=
    fun p => hbooks p ▸ entries p
  have hpool : ∀ p, m.hasPool p →
      Machine.hasPool { world := w, calls := m.calls ++ [call] } p := by
    intro p hp
    obtain ⟨hlength, hstocks⟩ := hasPool_iff.mp hp
    refine hasPool_iff.mpr ⟨hlength.trans_le pools, fun k hk hs => ?_⟩
    rcases List.mem_append.mp hk with hk | hk
    · exact hstocks k hk hs
    · rw [List.mem_singleton.mp hk] at hs
      exact Nat.ne_of_lt hlength (stocked p hs).1
  refine ⟨⟨fun p => ?_, fun p => ?_, ?_, ?_, ?_⟩, hentries⟩
  · exact ((hm.seated p).entries (hm.counted p) (hentries p)).1
  · exact ((hm.seated p).entries (hm.counted p) (hentries p)).2
  · intro k hk c hc
    rcases List.mem_append.mp hk with hk | hk
    · exact (hm.made k hk c hc).trans_le clients
    · rw [List.mem_singleton.mp hk, discards] at hc
      cases hc
  · intro k hk p hp
    rcases List.mem_append.mp hk with hk | hk
    · exact (hm.stocked k hk p hp).trans_le pools
    · rw [List.mem_singleton.mp hk] at hp
      exact (stocked p hp).2
  · intro k hk p hp
    rcases List.mem_append.mp hk with hk | hk
    · exact hpool p (hm.used k hk p hp)
    · rw [List.mem_singleton.mp hk] at hp
      exact hpool p (used p hp)

/-- A call begins that changes nothing in any book. -/
theorem Sound.enter_aside (hm : m.Sound) {w : World} {call : Call}
    (pools : w.pools = m.world.pools) (clients : w.clients = m.world.clients)
    (hstake : ∀ p, call.point.stake p = 0)
    (errand : ∀ e, call.point.errand? = some e → ∃ p, e = .use p ∧ m.hasPool p) :
    Follows bad m { world := w, calls := m.calls ++ [call] } := by
  refine hm.enter (fun p => ?_) ?_ (fun p hp => ?_) (fun p hp => ?_) (by rw [pools])
    (by rw [clients])
  · rw [hstake, zero_add, World.books_congr pools clients]
    exact .refl
  · have h := call.point.discards_stake 0
    rw [hstake] at h
    exact (Multiset.coe_eq_zero _).mp h.symm
  · obtain ⟨q, hq, -⟩ := errand _ hp
    cases hq
  · obtain ⟨q, hq, hpool⟩ := errand _ hp
    cases hq
    exact hpool

/-- A pool is made, and its stocking begins. -/
theorem Sound.found (hm : m.Sound) {connection : Connection} {limits : PoolLimits}
    {dialect : Dialect} {s : Sequel} {ns : List Notice} :
    Follows bad m
      { world := m.world.addPool { connection, limits, dialect }
        calls := m.calls ++ [{
          point := .stock m.world.pools.length
            (min limits.initialClients limits.maxClients).toNat .reserving
          sequel := s
          notices := ns }] } := by
  have hstake : ∀ q, (Point.stock m.world.pools.length
      (min limits.initialClients limits.maxClients).toNat .reserving).stake q =
      if m.world.pools.length = q then
        { budget := (min limits.initialClients limits.maxClients).toNat } else 0 := fun _ => rfl
  refine hm.enter (fun q => ?_) rfl (fun q hq => ?_) nofun ?_ le_rfl
  · rw [hstake]
    by_cases hq : m.world.pools.length = q
    · subst hq
      rw [if_pos rfl, World.books_hold_of_eq _ _ rfl, World.books_addPool]
      refine .single (.found connection limits dialect ?_ (budget_stakeOf fun k hk hs => ?_))
      · simp only [Machine.books, World.books_pool, World.pool, List.getElem?_length]
        rfl
      · exact Nat.lt_irrefl _ (hm.stocked k hk _ hs)
    · rw [if_neg hq, zero_add, World.books_addPool_of_ne _ (Ne.symm hq)]
      exact .refl
  · cases hq
    exact ⟨rfl, by simp [World.addPool]⟩
  · simp [World.addPool]

/-- A lease gives its reference back. -/
theorem Sound.giveUp (hm : m.Sound) (l : LeaseKey) (s : Sequel) :
    Follows bad m
      { world := (Operation.giveUp m.world l s).world
        calls := m.calls ++ [{
          point := (Operation.giveUp m.world l s).point
          sequel := (Operation.giveUp m.world l s).sequel
          notices := (Operation.giveUp m.world l s).notices }] } := by
  unfold Operation.giveUp
  split
  all_goals exact hm.enter_aside rfl rfl (fun _ => rfl) nofun

/-- A call for an operation begins. -/
theorem Sound.begin (hm : m.Sound) {o : Operation} (hpermit : m.permits o = true) :
    Follows bad m (m.begin o) := by
  cases o with
  | construct connection limits factory dialect =>
    simp only [Machine.begin, Operation.enter, Operation.make]
    split
    · exact hm.enter_aside rfl rfl (fun _ => rfl) nofun
    · split
      · exact hm.enter_aside rfl rfl (fun _ => rfl) nofun
      · exact hm.found
  | acquire p t =>
    refine hm.enter_aside rfl rfl Acquire.stake_seeking fun e he => ⟨p, ?_, hpermit⟩
    exact (Option.some.inj he).symm
  | lease p t =>
    refine hm.enter_aside rfl rfl Acquire.stake_seeking fun e he => ⟨p, ?_, hpermit⟩
    exact (Option.some.inj he).symm
  | close p =>
    refine hm.enter_aside rfl rfl Close.stake_entering fun e he => ⟨p, ?_, hpermit⟩
    exact (Option.some.inj he).symm
  | keepAlive p => exact hm.enter_aside rfl rfl KeepAlive.stake_draining nofun
  | shareLease l =>
    simp only [Machine.begin, Operation.enter]
    split
    all_goals exact hm.enter_aside rfl rfl (fun _ => rfl) nofun
  | releaseLease l => exact hm.giveUp l _
  | dropLease l => exact hm.giveUp l _
  | assignLease target source =>
    simp only [Machine.begin, Operation.enter]
    split
    · exact hm.enter_aside rfl rfl (fun _ => rfl) nofun
    · exact hm.giveUp target _
  | _ => exact hm.enter_aside rfl rfl (fun _ => rfl) nofun

/-! ## All events -/

theorem follows_withWorld? {possible : Bool} {w : World}
    (hn : m.withWorld? possible w = some n)
    (h : possible = true → Follows bad m { m with world := w }) : Follows bad m n := by
  unfold Machine.withWorld? at hn
  split at hn
  · next hp => exact Option.some.inj hn ▸ h hp
  · cases hn

/-- Every event keeps a machine sound, and makes only entries, mishaps included. -/
theorem Sound.perform {e : Event} (hm : m.Sound) (hn : m.perform e = some n)
    (hbad : ∀ x, m.mishap? e = some x → bad x) : Follows bad m n := by
  unfold Machine.perform at hn
  split at hn
  · cases hn
  cases e with
  | begin o =>
    simp only at hn
    split at hn
    · next hpermit => exact Option.some.inj hn ▸ hm.begin hpermit
    · cases hn
  | advance k pick =>
    refine hm.advance hn fun call p c leased hk hpoint hmem hfull => hbad _ ?_
    simp [mishap?, hk, hpoint, hmem, hfull]
  | overlook k pick => exact hm.overlook hn
  | answer k a =>
    refine hm.answer hn fun call c reason hk hrequest ha => hbad _ ?_
    simp [mishap?, hk, hrequest, ha]
  | expire k => exact hm.expire hn
  | tick k => exact hm.tick hn
  | breakDown c =>
    refine follows_withWorld? hn fun _ => hm.withWorld (o := .ok .done) fun hf => ?_
    exact .breakDown hf (fun _ => rfl) (.inl rfl)
  | connection c connected =>
    refine follows_withWorld? hn fun _ => hm.onClient rfl fun p hc => ?_
    have hclient : (m.books p).client c = m.world.client c := World.books_client _ hc
    cases connected with
    | true =>
      by_cases hs : (m.world.client c).session.connected = true
      · exact .wear hc ⟨rfl, rfl, fun _ => by rwa [hclient], .inl rfl⟩ fun h => .inl h
      · exact .revive hc (hbad _ (if_neg hs))
    | false => exact .wear hc ⟨rfl, rfl, nofun, .inl rfl⟩ fun h => .inl h
  | newClient id connected =>
    refine follows_withWorld? hn fun _ => hm.withWorld (o := .ok .done) fun hf => ?_
    refine ⟨fun p => ?_, .inl rfl, nofun, rfl, by simp [World.addClient]⟩
    rw [World.books_addClient_of_ne _ (by simp)]
  | setState c state =>
    refine follows_withWorld? hn fun _ => hm.onClient rfl fun p hc => ?_
    exact .tamper state (hbad _ rfl)
  | setReferences c count =>
    exact follows_withWorld? hn fun hc => hm.onHandmade (World.home_of_handmade hc) rfl
  | newLease =>
    refine follows_withWorld? hn fun _ => hm.withWorld (o := .ok .done) fun hf => ?_
    exact .of_same hf (fun _ _ => rfl) (fun _ => rfl) (.inl rfl) rfl rfl
  | moveLease l =>
    refine follows_withWorld? hn fun _ => hm.withWorld (o := .ok .done) fun hf => ?_
    exact .of_same hf (fun _ _ => rfl) (fun _ => rfl) (.inl rfl) rfl rfl
  | newHeartbeat p interval =>
    refine follows_withWorld? hn fun _ => hm.withWorld (o := .ok .done) fun hf => ?_
    exact .of_same hf (fun _ _ => rfl) (fun _ => rfl) (.inl rfl) rfl rfl

/-! ## Runs -/

/-- Books in which there is no entry yet. -/
theorem books_empty (p : PoolKey) :
    Machine.books {} p = { pool := default, own := ∅, client := fun _ => default, stake := 0 } := by
  have hown : World.own {} p = ∅ := rfl
  have hpool : World.pool {} p = default := by simp [World.pool]
  simp only [Machine.books, World.books, hown, hpool, Books.mk.injEq, true_and]
  refine ⟨funext fun c => if_neg (Finset.notMem_empty c), ?_⟩
  ext1 <;> rfl

/-- The empty machine is sound. -/
theorem sound_empty : Sound {} where
  seated p := by
    rw [books_empty]
    refine ⟨nofun, ?_, ?_, nofun, nofun⟩
    · exact Multiset.nodup_zero
    · exact Multiset.zero_le _
  counted p := by
    rw [books_empty]
    exact ⟨by decide, by decide, by decide, by decide⟩
  made _ hk := absurd hk List.not_mem_nil
  stocked _ hk := absurd hk List.not_mem_nil
  used _ hk := absurd hk List.not_mem_nil

/-- Every machine that can be reached is sound. -/
theorem Reachable.sound (hm : m.Reachable) : m.Sound := by
  refine hm.induct sound_empty fun m n e ih hn => ?_
  have hfollows : Follows (fun _ => True) m n := ih.perform hn fun _ _ => trivial
  exact hfollows.1

/-- What every entry keeps holds of the books of a sound machine after an event. -/
theorem Sound.books_perform {I : Books → Prop} {e : Event} (hm : m.Sound)
    (hn : m.perform e = some n) (hbad : ∀ x, m.mishap? e = some x → bad x)
    (keeps : ∀ b b', b.Seated → b.Counted → I b → Books.Entry bad b b' → I b')
    (h : I (m.books p)) : I (n.books p) := by
  have hfollows : Follows bad m n := hm.perform hn hbad
  refine Relation.ReflTransGen.head_induction_on
    (motive := fun b _ => b.Seated → b.Counted → I b → I (n.books p)) (hfollows.2 p) ?_ ?_
    (hm.seated p) (hm.counted p) h
  · exact fun _ _ hI => hI
  · intro b b' e _ ih hs hc hI
    exact ih (hs.entry hc e) (hc.entry hs e) (keeps b b' hs hc hI e)

/-- What holds of empty books and is kept by every entry that is no bad mishap holds of the books of
every machine that can be reached without bad mishaps. -/
theorem ReachableWithout.books_induct {worse : Mishap → Bool} {I : Books → Prop}
    (empty : I { pool := default, own := ∅, client := fun _ => default, stake := 0 })
    (keeps : ∀ b b', b.Seated → b.Counted → I b →
      Books.Entry (fun x => worse x = false) b b' → I b')
    (hm : m.ReachableWithout worse) (p : PoolKey) : I (m.books p) := by
  suffices h : m.Sound ∧ I (m.books p) from h.2
  refine hm.induct (P := fun m => m.Sound ∧ I (m.books p)) ⟨sound_empty, empty⟩ ?_
  rintro m n e ⟨hs, hI⟩ hx hn
  have hfollows : Follows (fun x => worse x = false) m n := hs.perform hn hx
  exact ⟨hfollows.1, hs.books_perform hn hx keeps hI⟩

end Machine
end SessionPool
