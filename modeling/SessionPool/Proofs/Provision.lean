import SessionPool.Proofs.Seclusion

/-!
# What a new pool begins with

The call that makes a pool opens sessions for its first clients, and stops at the first that does
not come.  So the pool begins with those clients whose sessions came before, idle and in this order,
and all slots are free that no client has.  The reservation for a session that does not come is
given back, so that nothing is outstanding.

* `successes`: how many sessions come before the first that does not.
* `World.Stocked`: what a pool looks like while it is being stocked, with one lemma for each turn.
* `Stock.Told`: what the call has said of the answers.
* `Machine.Provision`: both together, and that nobody else has the pool in hand; a step lemma for
  the turns of others and one for the call's own, and `Machine.provision_run` for a run.
* `Machine.construct_keeps_successful_prefix`: what the call does and leaves, whatever the sessions
  turn out to be.
-/

namespace SessionPool

/-! ## The sessions that come first -/

/-- How many of the first `n` outcomes are sessions, up to the first that is none. -/
def successes (outcomes : ℕ → OpenAnswer) (n : ℕ) : ℕ :=
  ((List.range n).takeWhile fun i => (outcomes i).isSession).length

/-- The answers are the outcomes, in this order. -/
def Heeds (outcomes : ℕ → OpenAnswer) (as : List OpenAnswer) : Prop :=
  ∀ i a, as[i]? = some a → outcomes i = a

section Outcomes

variable {outcomes : ℕ → OpenAnswer} {as : List OpenAnswer} {a : OpenAnswer} {n j d target : ℕ}

theorem successes_le : successes outcomes n ≤ n := by
  have h : (successes outcomes n) ≤ (List.range n).length :=
    (List.takeWhile_sublist _).length_le
  rwa [List.length_range] at h

/-- The sessions that come first are counted up to where they end. -/
theorem successes_eq (given : ∀ i < j, (outcomes i).isSession = true)
    (ends : d = 0 ∨ (outcomes j).isSession = false) : successes outcomes (j + d) = j := by
  have hgiven : ∀ i ∈ List.range j, (outcomes i).isSession = true := fun i hi =>
    given i (List.mem_range.mp hi)
  rw [successes, List.range_add, List.takeWhile_append_of_pos hgiven, List.length_append,
    List.length_range]
  suffices hrest : ((List.range d).map (j + ·)).takeWhile (fun i => (outcomes i).isSession) = [] by
    rw [hrest, List.length_nil, Nat.add_zero]
  cases d with
  | zero => rfl
  | succ d =>
    have hfails := ends.resolve_left (Nat.succ_ne_zero d)
    rw [List.range_succ_eq_map, List.map_cons, List.takeWhile_cons_of_neg]
    simp [hfails]

theorem heeds_snoc_iff :
    Heeds outcomes (as ++ [a]) ↔ Heeds outcomes as ∧ outcomes as.length = a := by
  constructor
  · refine fun h => ⟨fun i b hb => h i b ?_, h _ _ List.getElem?_concat_length⟩
    exact getElem?_snoc_eq_some_iff.mpr (.inl hb)
  · rintro ⟨h, hlast⟩ i b hb
    rcases getElem?_snoc_eq_some_iff.mp hb with hb | ⟨rfl, rfl⟩
    · exact h i b hb
    · exact hlast

theorem Heeds.given (h : Heeds outcomes as) (given : ∀ a ∈ as, a.isSession = true) :
    ∀ i < as.length, (outcomes i).isSession = true := by
  intro i hi
  rw [h i as[i] (List.getElem?_eq_getElem hi)]
  exact given _ (List.getElem_mem hi)

/-- All answers were sessions, and as many as were wanted. -/
theorem Heeds.successes_of_all (h : Heeds outcomes as) (given : ∀ a ∈ as, a.isSession = true)
    (all : as.length = target) : successes outcomes target = target :=
  all ▸ successes_eq (d := 0) (h.given given) (.inl rfl)

/-- The last answer was no session. -/
theorem Heeds.successes_of_failure (h : Heeds outcomes (as ++ [a]))
    (given : ∀ a ∈ as, a.isSession = true) (failed : a.isSession = false)
    (fits : as.length < target) : successes outcomes target = as.length := by
  obtain ⟨hgiven, hlast⟩ := heeds_snoc_iff.mp h
  have hends := successes_eq (d := target - as.length) (hgiven.given given)
    (.inr (by rw [hlast, failed]))
  rwa [Nat.add_sub_cancel' fits.le] at hends

/-- A call that wants no more clients has been answered once more than sessions came, unless all
came. -/
theorem Stock.Wants.length_eq_min (h : Wants target as 0) (heeds : Heeds outcomes as) :
    as.length = min target (successes outcomes target + 1) := by
  cases h with
  | more given all =>
    rw [heeds.successes_of_all given all]
    omega
  | short given failed fits =>
    rw [heeds.successes_of_failure given failed fits, List.length_append, List.length_singleton]
    omega

end Outcomes

/-! ## What the call says -/

namespace Stock

variable {address : Text} {as : List OpenAnswer} {a : OpenAnswer} {s : StockPoint} {made target : ℕ}
  {notices : List Notice} {outcomes : ℕ → OpenAnswer}

/-- The fault that it is when this comes instead of a session. -/
def fault (address : Text) : OpenAnswer → Fault
  | .failed reason => .notCreated address reason.uptoNul
  | _ => .notCreated address (Text.ascii "factory returned no session")

/-- What is said at once when this comes instead of a session. -/
def outcry (address : Text) : OpenAnswer → List Notice
  | .failed reason => [.creationFailed address reason.uptoNul]
  | _ => []

/-- All that is said when this comes instead of a session. -/
def complaint (address : Text) (a : OpenAnswer) : List Notice :=
  outcry address a ++ [.stockFailed (fault address a).message]

/-- What is said of so many clients that are made. -/
def naming (made : ℕ) : List Notice := (List.range made).map fun i => .clientCreated (clientName i)

/-- What a call has said that makes a pool, when so many clients have been made and after that it
has said this. -/
def journal (pool : Pool) (made : ℕ) (notices : List Notice) : List Notice :=
  .creatingPool pool.address pool.limits.maxClients pool.limits.acquireTimeout ::
    (naming made ++ notices)

theorem journal_append (pool : Pool) (made : ℕ) (notices more : List Notice) :
    journal pool made notices ++ more = journal pool made (notices ++ more) := by
  rw [journal, journal, List.cons_append, List.append_assoc]

/-- A client that is made is named after all others. -/
theorem journal_succ (pool : Pool) (made : ℕ) :
    journal pool made [.clientCreated (clientName made)] = journal pool (made + 1) [] := by
  rw [journal, journal, List.append_nil, naming, naming, List.range_succ, List.map_append]
  rfl

/-- When a call stands here after these answers, so many clients have been made, and after that it
has said this. -/
inductive Told (address : Text) : List OpenAnswer → StockPoint → ℕ → List Notice → Prop where
  | going {as : List OpenAnswer} {s : StockPoint} (given : ∀ a ∈ as, a.isSession = true)
      (unrefused : ∀ f, s ≠ .refused f) : Told address as s as.length []
  | refused {as : List OpenAnswer} {a : OpenAnswer} (given : ∀ a ∈ as, a.isSession = true)
      (failed : a.isSession = false) :
      Told address (as ++ [a]) (.refused (fault address a)) as.length (outcry address a)
  | stopped {as : List OpenAnswer} {a : OpenAnswer} (given : ∀ a ∈ as, a.isSession = true)
      (failed : a.isSession = false) :
      Told address (as ++ [a]) .reserving as.length (complaint address a)

/-- Nothing is said of answers that are sessions, except that the clients are made. -/
theorem Told.of_given (h : Told address as s made notices) (given : ∀ a ∈ as, a.isSession = true) :
    made = as.length ∧ notices = [] := by
  have hnot : ∀ {bs : List OpenAnswer} {b : OpenAnswer}, b.isSession = false →
      ¬ ∀ a ∈ bs ++ [b], a.isSession = true := fun hb h => by
    rw [h _ List.mem_concat_self] at hb
    cases hb
  cases h with
  | going => exact ⟨rfl, rfl⟩
  | refused _ failed | stopped _ failed => exact absurd given (hnot failed)

/-- As long as the call waits for a session, all answers were sessions. -/
theorem Told.of_opening (h : Told address as .opening made notices) :
    ∀ a ∈ as, a.isSession = true := by
  generalize hs : StockPoint.opening = s at h
  cases h with
  | going given => exact given
  | refused | stopped => cases hs

theorem Told.reserve (h : Told address as .reserving made notices)
    (given : ∀ a ∈ as, a.isSession = true) : Told address as .opening made notices := by
  obtain ⟨rfl, rfl⟩ := h.of_given given
  exact .going given nofun

theorem Told.arrive {connected : Bool} (h : Told address as .opening made notices)
    (c : ClientKey) :
    Told address (as ++ [.session connected]) (.arrived c) (made + 1) notices := by
  obtain ⟨rfl, rfl⟩ := h.of_given h.of_opening
  have hlength : (as ++ [OpenAnswer.session connected]).length = as.length + 1 := List.length_append
  rw [← hlength]
  exact .going (List.forall_mem_append.mpr ⟨h.of_opening, List.forall_mem_singleton.mpr rfl⟩) nofun

theorem Told.refuse (h : Told address as .opening made notices) (failed : a.isSession = false) :
    Told address (as ++ [a]) (.refused (fault address a)) made (notices ++ outcry address a) := by
  obtain ⟨rfl, rfl⟩ := h.of_given h.of_opening
  exact .refused h.of_opening failed

theorem Told.enroll {c : ClientKey} (h : Told address as (.arrived c) made notices) :
    Told address as .reserving made notices := by
  generalize hs : StockPoint.arrived c = s at h
  cases h with
  | going given => exact .going given nofun
  | refused | stopped => cases hs

theorem Told.giveUp {f : Fault} (h : Told address as (.refused f) made notices) :
    Told address as .reserving made (notices ++ [.stockFailed f.message]) := by
  generalize hs : StockPoint.refused f = s at h
  cases h with
  | going _ unrefused => exact absurd hs.symm (unrefused f)
  | refused given failed =>
    cases hs
    exact .stopped given failed
  | stopped => cases hs

/-- In the end the clients are made whose sessions came first, and the first that did not come has
been complained about. -/
theorem Told.of_wants (h : Told address as .reserving made notices) (hwants : Wants target as 0)
    (heeds : Heeds outcomes as) : made = successes outcomes target ∧
      notices = if made < target then complaint address (outcomes made) else [] := by
  generalize hs : StockPoint.reserving = s at h
  cases h with
  | going given =>
    have hall := hwants.length_eq given
    rw [heeds.successes_of_all given hall, hall, if_neg (Nat.lt_irrefl target)]
    exact ⟨rfl, rfl⟩
  | refused => cases hs
  | @stopped as a given failed =>
    have hfits : as.length < target := by
      have hle := hwants.length_le
      rw [List.length_append, List.length_singleton] at hle
      omega
    rw [heeds.successes_of_failure given failed hfits, if_pos hfits, (heeds_snoc_iff.mp heeds).2]
    exact ⟨rfl, rfl⟩

/-- What becomes of a call that gets this instead of a session. -/
theorem answered_of_failed {w : World} {p : PoolKey} {left : ℕ} (failed : a.isSession = false) :
    answered w p left a =
      { world := w
        point := .stock p left (.refused (fault (w.pool p).address a))
        notices := outcry (w.pool p).address a } := by
  cases a with
  | session => cases failed
  | nothing | failed => rfl

/-- A client that a new pool is stocked with: the session has just come, and this is its state. -/
def client (p : PoolKey) (i : ℕ) (connected : Bool) (state : Lifecycle) : Client :=
  { id := clientName i, home := some p, session := { connected }, state }

end Stock

/-! ## What the pool looks like -/

namespace StockPoint

/-- How many slots a call has reserved that stands here. -/
def pending : StockPoint → ℕ
  | .reserving => 0
  | _ => 1

/-- The client that such a call has for the pool. -/
def newcomer : StockPoint → List ClientKey
  | .arrived c => [c]
  | _ => []

end StockPoint

namespace Pool

variable {pool : Pool} {cs : List ClientKey} {c : ClientKey} {made : ℕ}

/-- A pool that has these clients, all of them idle, and so many slots reserved for others; so many
have been made. -/
def stocked (pool : Pool) (cs : List ClientKey) (pending made : ℕ) : Pool :=
  { pool with
    members := cs
    idle := cs
    created := UInt64.ofNat (cs.length + pending)
    outstanding := UInt64.ofNat pending
    nextNumber := UInt64.ofNat (made + 1) }

theorem reserve_stocked : (pool.stocked cs 0 made).reserve = pool.stocked cs 1 made := by
  have hcreated : UInt64.ofNat (cs.length + 0) + 1 = UInt64.ofNat (cs.length + 1) :=
    (UInt64.ofNat_add cs.length 1).symm
  simp only [stocked, reserve, hcreated]
  rfl

theorem unreserve_stocked : (pool.stocked cs 1 made).unreserve = pool.stocked cs 0 made := by
  have hcreated : UInt64.ofNat (cs.length + 1) - 1 = UInt64.ofNat (cs.length + 0) := by
    rw [UInt64.ofNat_add]
    exact UInt64.add_sub_cancel _ _
  simp only [stocked, unreserve, hcreated]
  rfl

theorem enrollIdle_stocked :
    (pool.stocked cs 1 made).enrollIdle c = pool.stocked (cs ++ [c]) 0 made := by
  simp only [stocked, enrollIdle, List.length_append, List.length_singleton]
  rfl

theorem number_stocked (pending : ℕ) :
    { pool.stocked cs pending made with
      nextNumber := (pool.stocked cs pending made).nextNumber + 1 } =
      pool.stocked cs pending (made + 1) := by
  simp only [stocked, UInt64.ofNat_add]
  rfl

end Pool

/-- The pool is being stocked, and has these clients: their sessions were the first answers, they
are idle and nobody has a reference to them.  A client that is new is the next one. -/
structure World.Stocked (w : World) (p : PoolKey) (pool : Pool) (cs : List ClientKey)
    (as : List OpenAnswer) (s : StockPoint) : Prop where
  record : w.pool p = pool.stocked cs s.pending (w.roster p).length
  roster : w.roster p = cs ++ s.newcomer
  joined : ∀ i c, cs[i]? = some c → ∃ connected, as[i]? = some (.session connected) ∧
    w.client c = Stock.client p i connected .idle
  fresh : ∀ c ∈ s.newcomer, ∃ connected, as[cs.length]? = some (.session connected) ∧
    w.client c = Stock.client p cs.length connected .created

namespace World.Stocked

variable {w w' : World} {p : PoolKey} {pool : Pool} {cs : List ClientKey} {as : List OpenAnswer}
  {a : OpenAnswer} {s : StockPoint} {c : ClientKey} {f : Fault}

theorem address (h : w.Stocked p pool cs as s) : (w.pool p).address = pool.address := by
  rw [h.record]
  rfl

theorem nextId (h : w.Stocked p pool cs as s) :
    (w.pool p).nextId = clientName (w.roster p).length := by
  rw [h.record]
  rfl

theorem mem_idle (h : w.Stocked p pool cs as s) (hc : c ∈ cs) : c ∈ (w.pool p).idle := by
  rw [h.record]
  exact hc

/-- Nobody has a reference to a client of the pool. -/
theorem unreferenced (h : w.Stocked p pool cs as s) (hc : c ∈ w.roster p) :
    (w.client c).references = 0 := by
  rw [h.roster, List.mem_append] at hc
  rcases hc with hc | hc
  · obtain ⟨i, hi⟩ := List.mem_iff_getElem?.mp hc
    obtain ⟨_, -, hclient⟩ := h.joined i c hi
    rw [hclient]
    rfl
  · obtain ⟨_, -, hclient⟩ := h.fresh c hc
    rw [hclient]
    rfl

/-- What is the same for the pool and its clients looks the same. -/
theorem of_same (h : w.Stocked p pool cs as s) (hpool : w'.pool p = w.pool p)
    (hroster : w'.roster p = w.roster p) (hclient : ∀ c ∈ w.roster p, w'.client c = w.client c) :
    w'.Stocked p pool cs as s where
  record := by rw [hpool, hroster, h.record]
  roster := hroster.trans h.roster
  joined i c hi := by
    rw [hclient c (h.roster ▸ List.mem_append_left _ (List.mem_of_getElem? hi))]
    exact h.joined i c hi
  fresh c hc := by
    rw [hclient c (h.roster ▸ List.mem_append_right _ hc)]
    exact h.fresh c hc

/-- One more answer is of no matter for the clients that are there. -/
theorem joined_snoc (h : w.Stocked p pool cs as s) (a : OpenAnswer) {i : ℕ} (hi : cs[i]? = some c) :
    ∃ connected, (as ++ [a])[i]? = some (.session connected) ∧
      w.client c = Stock.client p i connected .idle := by
  obtain ⟨connected, hanswer, hclient⟩ := h.joined i c hi
  exact ⟨connected, getElem?_snoc_eq_some_iff.mpr (.inl hanswer), hclient⟩

variable (hp : p < w.pools.length)
include hp

/-- The call reserves a slot. -/
theorem reserve (h : w.Stocked p pool cs as .reserving) :
    (w.onPool p Pool.reserve).Stocked p pool cs as .opening where
  record := by
    rw [World.pool_onPool w hp, h.record]
    exact Pool.reserve_stocked
  roster := h.roster
  joined := h.joined
  fresh := nofun

/-- A session comes, and a client is made of it. -/
theorem arrive (h : w.Stocked p pool cs as .opening) (given : cs.length = as.length)
    (connected : Bool) :
    (Opening.answered w p (.session connected)).world.Stocked p pool cs
      (as ++ [.session connected]) (.arrived w.clients.length) := by
  have hlength : (w.roster p).length = cs.length := by
    rw [h.roster]
    exact congrArg _ (List.append_nil cs)
  have hid : (w.pool p).nextId = clientName cs.length := hlength ▸ h.nextId
  have hclient : ∀ d, (Opening.answered w p (.session connected)).world.client d =
      if d = w.clients.length then Stock.client p cs.length connected .created
      else w.client d := fun d => by
    rw [Stock.client, ← hid]
    exact w.client_addClient _ d
  have hroster : (Opening.answered w p (.session connected)).world.roster p =
      w.roster p ++ [w.clients.length] := by
    have hlast : ((Opening.answered w p (.session connected)).world.client
        w.clients.length).home = some p := by
      rw [hclient, if_pos rfl]
      rfl
    have hsucc : (Opening.answered w p (.session connected)).world.clients.length =
        w.clients.length + 1 := List.length_append
    rw [World.roster_of_length_succ hsucc fun d hd => by rw [hclient, if_neg (Nat.ne_of_lt hd)],
      if_pos hlast]
  refine ⟨?_, ?_, fun i c hi => ?_, fun c hc => ?_⟩
  · refine (World.pool_onPool (w.addClient _) (show p < (w.addClient _).pools.length from hp)
      _).trans ?_
    show { w.pool p with nextNumber := (w.pool p).nextNumber + 1 } = _
    rw [hroster, List.length_append, List.length_singleton, h.record]
    exact Pool.number_stocked 1
  · rw [hroster, h.roster]
    exact congrArg (· ++ _) (List.append_nil cs)
  · have hlt : c < w.clients.length := by
      have hmem : c ∈ w.roster p := h.roster ▸ List.mem_append_left _ (List.mem_of_getElem? hi)
      exact (World.mem_own.mp (World.mem_roster.mp hmem)).1
    rw [hclient, if_neg (Nat.ne_of_lt hlt)]
    exact h.joined_snoc _ hi
  · obtain rfl := List.mem_singleton.mp hc
    rw [hclient, if_pos rfl, given]
    exact ⟨connected, List.getElem?_concat_length, rfl⟩

omit hp in
/-- No session comes. -/
theorem refuse (h : w.Stocked p pool cs as .opening) (a : OpenAnswer) (f : Fault) :
    w.Stocked p pool cs (as ++ [a]) (.refused f) where
  record := h.record
  roster := h.roster
  joined _ _ hi := h.joined_snoc a hi
  fresh := nofun

/-- The new client is idle from now on. -/
theorem enroll (h : w.Stocked p pool cs as (.arrived c)) :
    ((w.onClient c fun k => { k with state := .idle }).onPool p fun pool =>
      pool.enrollIdle c).Stocked p pool (cs ++ [c]) as .reserving := by
  have hmem : c ∈ w.roster p := h.roster ▸ List.mem_append_right _ List.mem_cons_self
  have hlt : c < w.clients.length := (World.mem_own.mp (World.mem_roster.mp hmem)).1
  have hroster : ((w.onClient c fun k => { k with state := .idle }).onPool p fun pool =>
      pool.enrollIdle c).roster p = w.roster p := by
    refine World.roster_of_length_eq (by simp) fun d hd => ?_
    by_cases hdc : d = c
    · subst hdc
      rw [World.client_onPool, World.client_onClient w hd]
    · rw [World.client_onPool, World.client_onClient_of_ne w hdc]
  refine ⟨?_, ?_, fun i d hi => ?_, nofun⟩
  · rw [hroster, World.pool_onPool _ (by simpa using hp), World.pool_onClient, h.record]
    exact Pool.enrollIdle_stocked
  · rw [hroster, h.roster]
    exact (List.append_nil _).symm
  · rw [World.client_onPool]
    rcases getElem?_snoc_eq_some_iff.mp hi with hold | ⟨rfl, rfl⟩
    · have hdc : d ≠ c := by
        rintro rfl
        have hnodup : (cs ++ [d]).Nodup := h.roster ▸ World.nodup_roster
        exact List.disjoint_of_nodup_append hnodup (List.mem_of_getElem? hold) List.mem_cons_self
      rw [World.client_onClient_of_ne w hdc]
      exact h.joined i d hold
    · obtain ⟨connected, hanswer, hclient⟩ := h.fresh d List.mem_cons_self
      rw [World.client_onClient w hlt, hclient]
      exact ⟨connected, hanswer, rfl⟩

/-- The call gives its slot back. -/
theorem giveUp (h : w.Stocked p pool cs as (.refused f)) :
    (w.onPool p Pool.unreserve).Stocked p pool cs as .reserving where
  record := by
    rw [World.pool_onPool w hp, h.record]
    exact Pool.unreserve_stocked
  roster := h.roster
  joined := h.joined
  fresh := nofun

end World.Stocked

namespace Machine

variable {m n l : Machine} {e : Event} {es us : List Event} {k : CallKey} {call : Call} {t : Turn}
  {p : PoolKey} {pool : Pool} {as : List OpenAnswer} {left : ℕ} {s : StockPoint} {target turns : ℕ}

/-! ## Turn by turn -/

/-- No turn does something to a client by its key. -/
theorem Takes.untouched (takes : m.Takes k call e t) : Move.touches p ⟨m, e, n⟩ = false := by
  cases takes <;> rfl

/-- After these answers a call stocks a pool with `left` more clients and stands here: nobody else
has the pool in hand, the pool looks as it should, and the call has said what was to be said. -/
structure Provision (m : Machine) (k : CallKey) (p : PoolKey) (pool : Pool) (as : List OpenAnswer)
    (left : ℕ) (s : StockPoint) : Prop where
  secluded : m.Secluded k p
  stocked : ∃ cs, m.world.Stocked p pool cs as s
  reports : ∃ call notices, m.call? k = some call ∧ call.point = .stock p left s ∧
    Stock.Told pool.address as s (m.world.roster p).length notices ∧
      call.notices = Stock.journal pool (m.world.roster p).length notices

/-- What others do meanwhile is of no matter. -/
theorem Provision.others (h : l.Provision k p pool as left s) (hl : l.Reachable)
    (hn : l.perform e = some n) (he : e.isTurnOf k = false)
    (untouched : Move.touches p ⟨l, e, n⟩ = false) : n.Provision k p pool as left s := by
  obtain ⟨cs, hstocked⟩ := h.stocked
  obtain ⟨call, notices, hk, hpoint, told, hnotices⟩ := h.reports
  obtain ⟨call', hk', hw, -, hsaid⟩ := exists_call_of_not_isTurnOf hn he hk
  have hpoint' : call'.point = .stock p left s :=
    (hw.eq_of_awake (by rw [hpoint]; rfl)).trans hpoint
  have hroster := h.secluded.roster_eq hl hn he
  have hpool : n.world.pool p = l.world.pool p := by
    refine h.secluded.pool_eq hl hn he fun c hc => hstocked.unreferenced ?_
    rw [hstocked.record] at hc
    exact hstocked.roster ▸ List.mem_append_left _ hc
  have hplace : ∀ c ∈ l.world.roster p,
      c ∈ (l.world.pool p).idle ∨ c ∈ (l.stake p).arrived := by
    intro c hc
    rw [hstocked.roster, List.mem_append] at hc
    refine hc.imp hstocked.mem_idle fun hc => mem_arrived_stake hk ?_
    rw [hpoint]
    cases s with
    | arrived d =>
      obtain rfl := List.mem_singleton.mp hc
      rw [Stock.stake_arrived, if_pos rfl]
      exact Multiset.mem_add.mpr (.inl (Multiset.mem_singleton_self c))
    | _ => cases hc
  have hclient : ∀ c ∈ l.world.roster p, n.world.client c = l.world.client c := fun c hc =>
    h.secluded.client_eq hl hn he untouched (hplace c hc) (World.mem_roster.mp hc)
      (hstocked.unreferenced hc)
  refine ⟨h.secluded.perform hl hn untouched ⟨call', hk', by rw [hpoint']; rfl⟩,
    ⟨cs, hstocked.of_same hpool hroster hclient⟩, call', notices, hk', hpoint', ?_, ?_⟩
  · rwa [hroster]
  · rw [hroster, hsaid, hnotices]

/-- A turn of the call that leads to such a point again. -/
theorem Provision.turned (h : l.Provision k p pool as left s) (hl : l.Reachable)
    (hn : l.perform e = some n) (takes : l.Takes k call e t) (turned : l.Turned k call e t n)
    {cs : List ClientKey} {as' : List OpenAnswer} {left' : ℕ} {s' : StockPoint}
    {notices : List Notice} (hpoint : t.point = .stock p left' s')
    (stocked : t.world.Stocked p pool cs as' s')
    (told : Stock.Told pool.address as' s' (t.world.roster p).length notices)
    (hnotices : call.notices ++ t.notices =
      Stock.journal pool (t.world.roster p).length notices) :
    n.Provision k p pool as' left' s' := by
  obtain ⟨call', hk', hw, -, hsaid⟩ := turned.mine
  have hpoint' : call'.point = .stock p left' s' :=
    (hw.eq_of_awake (by rw [hpoint]; rfl)).trans hpoint
  rw [← turned.world] at stocked told hnotices
  exact ⟨h.secluded.perform hl hn takes.untouched ⟨call', hk', by rw [hpoint']; rfl⟩, ⟨cs, stocked⟩,
    call', notices, hk', hpoint', told, hsaid.trans hnotices⟩

/-- What a call leaves that has just stocked a pool, after these answers. -/
structure Provided (n : Machine) (k : CallKey) (p : PoolKey) (pool : Pool) (as : List OpenAnswer) :
    Prop where
  stocked : ∃ cs, n.world.Stocked p pool cs as .reserving
  ready : n.hasPool p = true
  reports : ∃ call notices, n.call? k = some call ∧
    Stock.Told pool.address as .reserving (n.world.roster p).length notices ∧
      call.notices = Stock.journal pool (n.world.roster p).length
        (notices ++ [.createdPool pool.address pool.limits.maxClients])

/-- The last turn of the call: nobody stocks the pool any more. -/
theorem Provision.provided (h : l.Provision k p pool as 0 .reserving) (hl : l.Reachable)
    (hn : l.perform e = some n) (hk : l.call? k = some call) (takes : l.Takes k call e t)
    (turned : l.Turned k call e t n) (hturn : Stock.step l.world p 0 .reserving = some t) :
    n.Provided k p pool as := by
  obtain ⟨cs, hstocked⟩ := h.stocked
  obtain ⟨call₀, notices, hk₀, -, told, hnotices⟩ := h.reports
  obtain rfl := Option.some.inj (hk₀.symm.trans hk)
  obtain ⟨call', hk', hw, -, hsaid⟩ := turned.mine
  obtain rfl := Option.some.inj hturn
  have hworld : n.world = l.world := turned.world
  refine ⟨⟨cs, hworld ▸ hstocked⟩, hasPool_iff.mpr ⟨hworld ▸ h.secluded.lt_length hl, ?_⟩,
    call', notices, hk', hworld ▸ told, ?_⟩
  · -- Whoever stocks the pool now did so before, and that was this call alone, which has ended.
    intro call₁ hcall hx
    obtain ⟨j, hj⟩ := List.mem_iff_getElem?.mp hcall
    rcases hl.sound.errand_before (happens hn) hj hx with ⟨call₂, hj₂, hx₂⟩ | ⟨o, rfl, -⟩
    · obtain rfl := h.secluded.sole j call₂ hj₂ hx₂
      obtain rfl := Option.some.inj (hj.symm.trans hk')
      rw [hw.errand_eq] at hx
      cases hx
    · cases takes.isTurnOf
  · rw [hsaid, hnotices, Stock.journal_append, hworld, hstocked.address, hstocked.record]
    rfl

/-- A turn of the call leads to such a point again, or the pool has been stocked. -/
theorem Provision.turn (h : l.Provision k p pool as left s) (hl : l.Reachable)
    (hn : l.perform e = some n) (he : e.isTurnOf k = true)
    (stands : Stock.Stands p target as turns (.stock p left s)) :
    (∃ left' s', n.Provision k p pool (as ++ (e.openAnswerTo? k).toList) left' s') ∨
      Stock.Wants target as 0 ∧ n.Provided k p pool as := by
  obtain ⟨cs, hstocked⟩ := h.stocked
  obtain ⟨call, notices, hk, hpoint, told, hnotices⟩ := h.reports
  obtain ⟨call₀, t, hk₀, takes, turned⟩ := turned_of_isTurnOf hn he
  obtain rfl := Option.some.inj (hk₀.symm.trans hk)
  have hp := h.secluded.lt_length hl
  cases s with
  | reserving =>
    obtain ⟨hnone, hturn⟩ := takes.stock_step hpoint nofun
    have hwants := stands.wants_of_reserving
    rw [hnone, Option.toList_none, List.append_nil]
    cases left with
    | zero => exact .inr ⟨hwants, h.provided hl hn hk takes turned hturn⟩
    | succ left =>
      obtain rfl := Option.some.inj hturn
      exact .inl ⟨_, _, h.turned hl hn takes turned rfl (hstocked.reserve hp)
        (told.reserve hwants.of_succ.1) ((List.append_nil _).trans hnotices)⟩
  | opening =>
    obtain ⟨a, hanswer, rfl⟩ := takes.stock_answered hpoint
    rw [hanswer]
    refine .inl ⟨left, ?_⟩
    -- Only of a session a client is made; the slot is reserved either way.
    cases ha : a.isSession with
    | false =>
      rw [Stock.answered_of_failed ha, hstocked.address] at takes turned
      refine ⟨_, h.turned hl hn takes turned rfl (hstocked.refuse a _) (told.refuse ha) ?_⟩
      rw [hnotices, Stock.journal_append]
    | true =>
      cases a with
      | nothing | failed => cases ha
      | session connected =>
        obtain ⟨hmade, rfl⟩ := told.of_given told.of_opening
        have hcs : cs.length = as.length := by
          rw [← hmade, hstocked.roster]
          exact congrArg _ (List.append_nil cs).symm
        have harrive := hstocked.arrive hp hcs connected
        have hcount : ((Stock.answered l.world p left (.session connected)).world.roster p).length =
            (l.world.roster p).length + 1 := by
          rw [hstocked.roster]
          refine (congrArg _ harrive.roster).trans ?_
          simp [StockPoint.newcomer]
        refine ⟨_, h.turned hl hn takes turned rfl harrive (hcount ▸ told.arrive _) ?_⟩
        rw [hcount, hnotices, Stock.journal_append, ← Stock.journal_succ, ← hstocked.nextId]
        rfl
  | arrived c =>
    obtain ⟨hnone, hturn⟩ := takes.stock_step hpoint nofun
    obtain rfl := Option.some.inj hturn
    rw [hnone, Option.toList_none, List.append_nil]
    have henroll := hstocked.enroll hp
    have hcount : _ = l.world.roster p := henroll.roster.trans <|
      (List.append_nil _).trans hstocked.roster.symm
    rw [← hcount] at told hnotices
    exact .inl ⟨_, _, h.turned hl hn takes turned rfl henroll told.enroll
      ((List.append_nil _).trans hnotices)⟩
  | refused f =>
    obtain ⟨hnone, hturn⟩ := takes.stock_step hpoint nofun
    obtain rfl := Option.some.inj hturn
    rw [hnone, Option.toList_none, List.append_nil]
    refine .inl ⟨_, _, h.turned hl hn takes turned rfl (hstocked.giveUp hp) told.giveUp ?_⟩
    rw [hnotices, Stock.journal_append]
    rfl

/-! ## A whole run -/

/-- The pool looks as it should in every run, as long as the call stocks it. -/
theorem provision_run (hm : m.Reachable) (h : m.Provision k p pool [] target .reserving)
    (hat : m.IsAt k .none (.stock p target .reserving)) (hn : m.run es = some n)
    (untouched : ∀ v ∈ m.steps es, Move.touches p v = false)
    (hx : n.IsAt k .none (.stock p left s)) :
    n.Provision k p pool (openAnswers k es) left s := by
  -- By induction on the run: at its last event it is either the turn of others or that of the call.
  induction es using List.reverseRecOn generalizing n left s with
  | nil =>
    rw [run_nil, Option.some.injEq] at hn
    subst hn
    obtain ⟨call, notices, hk, hpoint, -⟩ := h.reports
    cases hpoint.symm.trans (hx.point_eq hk)
    exact h
  | append_singleton es e ih =>
    obtain ⟨l, hes, hlast⟩ := run_snoc_iff.mp hn
    obtain ⟨x, hstocking⟩ := stocking_run hat hes
    have hl := hm.run hes
    rw [steps_snoc hes hlast, List.forall_mem_append] at untouched
    have huntouched := untouched.2 _ List.mem_cons_self
    rcases hstocking.isAt.perform hstocking.stands.awake hstocking.stands.busy hlast with
      ⟨hturn, hsame⟩ | ⟨hturn, -⟩
    · obtain ⟨call, hk, hpoint, -⟩ := hsame
      obtain rfl := hpoint.symm.trans (hx.point_eq hk)
      rw [openAnswers_snoc, Event.openAnswerTo?_eq_none hturn, Option.toList_none, List.append_nil]
      exact (ih hes untouched.1 hstocking.isAt).others hl hlast hturn huntouched
    · obtain ⟨left₀, s₀, rfl⟩ := hstocking.of_isTurnOf hlast hturn
      rw [openAnswers_snoc]
      rcases (ih hes untouched.1 hstocking.isAt).turn hl hlast hturn hstocking.stands with
        ⟨left', s', hnext⟩ | ⟨-, hprovided⟩
      · obtain ⟨call, notices, hk, hpoint, -⟩ := hnext.reports
        cases hpoint.symm.trans (hx.point_eq hk)
        exact hnext
      · -- Whoever stocks the pool would not have left it to others.
        obtain ⟨call, hk, hpoint, -⟩ := hx
        exact absurd (by rw [hpoint]; rfl)
          ((hasPool_iff.mp hprovided.ready).2 call (List.mem_of_getElem? hk))

/-- The turn in which the call gets its result. -/
theorem provided_run (hm : m.Reachable) (h : m.Provision k p pool [] target .reserving)
    (hat : m.IsAt k .none (.stock p target .reserving)) (hn : m.run (us ++ [e]) = some n)
    (untouched : ∀ v ∈ m.steps (us ++ [e]), Move.touches p v = false) (he : e.isTurnOf k = true)
    {o : Outcome} (ho : n.result? k = some o) :
    Stock.Wants target (openAnswers k us) 0 ∧ n.Provided k p pool (openAnswers k us) := by
  obtain ⟨l, hus, hlast⟩ := run_snoc_iff.mp hn
  obtain ⟨x, hstocking⟩ := stocking_run hat hus
  obtain ⟨left, s, rfl⟩ := hstocking.of_isTurnOf hlast he
  rw [steps_snoc hus hlast, List.forall_mem_append] at untouched
  have hprovision := provision_run hm h hat hus untouched.1 hstocking.isAt
  refine (hprovision.turn (hm.run hus) hlast he hstocking.stands).resolve_left ?_
  rintro ⟨left', s', hnext⟩
  obtain ⟨call, notices, hk, hpoint, -⟩ := hnext.reports
  rw [result?, hk, Option.bind_some, hpoint] at ho
  cases ho

/-- A call that begins to make a pool of at least one client is about to stock it. -/
theorem Reachable.provision_construct (hm : m.Reachable) (connection : Connection)
    {limits : PoolLimits} (dialect : Dialect) (h : limits.maxClients ≠ 0) :
    (m.begin (.construct connection limits true dialect)).Provision m.calls.length
      m.world.pools.length { connection, limits, dialect } []
      (Pool.initialCount { connection, limits, dialect }).toNat .reserving := by
  have henter := enter_construct m.world connection dialect h
  have hworld : (m.begin (.construct connection limits true dialect)).world =
      m.world.addPool { connection, limits, dialect } := congrArg Entrance.world henter
  have hroster : (m.world.addPool { connection, limits, dialect }).roster m.world.pools.length =
      [] := by
    refine List.eq_nil_iff_forall_not_mem.mpr fun c hc => ?_
    exact Nat.lt_irrefl _ (hm.lt_length_of_mem_own (World.mem_roster.mp hc))
  refine ⟨hm.secluded_begin (by rw [henter]; rfl), ⟨[], ?_, ?_, nofun, nofun⟩, _, [],
    call?_begin m _, congrArg Entrance.point henter, ?_, ?_⟩
  · rw [hworld, hroster, World.pool_addPool, if_pos rfl]
    rfl
  · rw [hworld, hroster]
    rfl
  · rw [hworld, hroster]
    exact .going nofun nofun
  · rw [hworld, hroster, henter]
    rfl

end Machine

/-! ## What is left in the end -/

/-- The pool could not be stocked with all clients that were wanted. -/
def Notice.isStockFailed : Notice → Bool
  | .stockFailed _ => true
  | _ => false

namespace Stock

variable {pool : Pool} {made : ℕ} {address : Text} {a : OpenAnswer}

theorem countP_naming : (naming made).countP Notice.isStockFailed = 0 := by
  rw [naming, List.countP_map, List.countP_eq_zero]
  exact fun i _ => Bool.false_ne_true

theorem countP_complaint : (complaint address a).countP Notice.isStockFailed = 1 := by
  cases a <;> rfl

end Stock

namespace Machine

variable {m n : Machine} {es : List Event} {k : CallKey} {p : PoolKey}

/-- What a call leaves that has just made a pool with `kept` clients of `wanted`.  They are idle,
nobody has a reference to them, and they are as the sessions came.  Nothing is outstanding and
nobody waits; all other slots are free.  The call has complained if and only if it stopped early. -/
structure Furnished (n : Machine) (k : CallKey) (p : PoolKey) (connection : Connection)
    (limits : PoolLimits) (dialect : Dialect) (outcomes : ℕ → OpenAnswer) (kept wanted : ℕ) :
    Prop where
  ready : n.hasPool p = true
  length : (n.world.roster p).length = kept
  record : n.world.pool p =
    { connection, limits, dialect
      members := n.world.roster p
      idle := n.world.roster p
      created := UInt64.ofNat kept
      outstanding := 0
      waiting := 0
      nextNumber := UInt64.ofNat (kept + 1)
      closing := false
      closed := false }
  clients : ∀ i c, (n.world.roster p)[i]? = some c → ∃ connected,
    outcomes i = .session connected ∧ n.world.client c =
      { id := clientName i, home := some p, session := { connected }, state := .idle
        references := 0 }
  created : (n.world.pool p).created.toNat = kept
  free : (limits.maxClients - (n.world.pool p).created).toNat + kept = limits.maxClients.toNat
  speech : ∃ call, n.call? k = some call ∧
    call.notices =
      .creatingPool connection.address limits.maxClients limits.acquireTimeout ::
        (((List.range kept).map fun i => .clientCreated (clientName i)) ++
          (if kept < wanted then Stock.complaint connection.address (outcomes kept) else []) ++
          [.createdPool connection.address limits.maxClients]) ∧
    call.notices.countP Notice.isStockFailed = if kept < wanted then 1 else 0

/-- What a call has left in the turn in which it got its result. -/
theorem Provided.furnished {connection : Connection} {limits : PoolLimits} {dialect : Dialect}
    {as : List OpenAnswer} {outcomes : ℕ → OpenAnswer} {wanted : ℕ}
    (h : n.Provided k p { connection, limits, dialect } as) (hwants : Stock.Wants wanted as 0)
    (heeds : Heeds outcomes as) (fits : wanted ≤ limits.maxClients.toNat) :
    n.Furnished k p connection limits dialect outcomes (successes outcomes wanted) wanted := by
  obtain ⟨cs, hstocked⟩ := h.stocked
  obtain ⟨call, notices, hk, told, hnotices⟩ := h.reports
  obtain ⟨hmade, rfl⟩ := told.of_wants hwants heeds
  have hcs : n.world.roster p = cs := hstocked.roster.trans (List.append_nil cs)
  have hle : successes outcomes wanted ≤ limits.maxClients.toNat := successes_le.trans fits
  have hrecord := hstocked.record
  rw [hmade, ← hcs] at hrecord
  rw [hmade] at hnotices
  have hcreated : (n.world.pool p).created.toNat = successes outcomes wanted := by
    rw [hrecord, Pool.stocked, hmade]
    exact UInt64.toNat_ofNat_of_lt' (hle.trans_lt limits.maxClients.toNat_lt)
  refine ⟨h.ready, hmade, ?_, fun i c hi => ?_, hcreated, ?_, call, hk, ?_, ?_⟩
  · rw [hrecord, Pool.stocked, hmade]
    rfl
  · obtain ⟨connected, hanswer, hclient⟩ := hstocked.joined i c (hcs ▸ hi)
    exact ⟨connected, heeds i _ hanswer, hclient⟩
  · rw [UInt64.toNat_sub_of_le _ _ (UInt64.le_iff_toNat_le.mpr (hcreated ▸ hle)), hcreated]
    exact Nat.sub_add_cancel hle
  · rw [hnotices, Stock.journal, ← List.append_assoc]
    rfl
  · rw [hnotices, Stock.journal, List.countP_cons, List.countP_append, List.countP_append,
      Stock.countP_naming]
    split
    · rw [Stock.countP_complaint]
      rfl
    · rfl

/-- What a call has done in a run of the events `es` from `m` to `n` that has begun to make a pool
with `wanted` clients, when the sessions turn out as `outcomes`.  It takes its turns until it has a
result, and not too many.  The result is the pool, and it has asked for as many sessions as were
wanted, or for none after the first that did not come.  In the turn in which it gets its result it
leaves the clients whose sessions came before. -/
structure Provides (m : Machine) (k : CallKey) (p : PoolKey) (connection : Connection)
    (limits : PoolLimits) (dialect : Dialect) (outcomes : ℕ → OpenAnswer) (wanted : ℕ)
    (es : List Event) (n : Machine) : Prop where
  few : es.countP (Event.isTurnOf k) ≤ 3 * wanted + 1
  goesOn : n.result? k = none → n.world.crashed = false → ∃ e, e.isTurnOf k = true ∧
    (n.perform e).isSome ∧ Heeds outcomes (openAnswers k (es ++ [e]))
  ends : ∀ o, n.result? k = some o → o = .ok (.pool p) ∧ m.requests k es =
    List.replicate (min wanted (successes outcomes wanted + 1)) (.openSession p)
  leaves : ∀ us e o, es = us ++ [e] → e.isTurnOf k = true → n.result? k = some o →
    n.Furnished k p connection limits dialect outcomes (successes outcomes wanted) wanted

/-- A call that makes a pool keeps exactly the clients whose sessions come before the first that
does not come, of as many as it was to begin with: whatever the sessions turn out to be, and
whatever other calls do meanwhile.  They have not got the pool yet, and so they have none of its
clients; only the outside, which knows the keys of the clients, could still do something to one, and
does not. -/
theorem construct_keeps_successful_prefix (hm : m.Reachable) (alive : m.world.crashed = false)
    (connection : Connection) (limits : PoolLimits) (dialect : Dialect)
    (h : limits.maxClients ≠ 0) (outcomes : ℕ → OpenAnswer) :
    ∃ m₁, m.perform (.begin (.construct connection limits true dialect)) = some m₁ ∧
      ∀ es n, m₁.run es = some n →
        (∀ v ∈ m₁.steps es, v.touches m.world.pools.length = false) →
        Heeds outcomes (openAnswers m.calls.length es) →
        m₁.Provides m.calls.length m.world.pools.length connection limits dialect outcomes
          (min limits.initialClients.toNat limits.maxClients.toNat) es n := by
  have hperform := perform_construct connection limits dialect alive
  have hm₁ := hm.perform hperform
  have hprovision := hm.provision_construct connection dialect h
  have hat := isAt_construct m connection dialect h
  have hwanted : (Pool.initialCount { connection, limits, dialect }).toNat =
      min limits.initialClients.toNat limits.maxClients.toNat := UInt64.toNat_min _ _
  rw [hwanted] at hprovision hat
  refine ⟨_, hperform, fun es n hn untouched heeds => ?_⟩
  obtain ⟨x, hstocking⟩ := stocking_run hat hn
  refine ⟨hstocking.stands.turns_le, fun hnone hcrashed => ?_, fun o ho => ?_, ?_⟩
  · obtain ⟨e, he, hsome, hanswer⟩ := hstocking.goesOn hnone hcrashed
      (outcomes (openAnswers m.calls.length es).length)
    refine ⟨e, he, hsome, ?_⟩
    rw [openAnswers_snoc]
    cases ha : e.openAnswerTo? m.calls.length with
    | none => rwa [Option.toList_none, List.append_nil]
    | some a => exact heeds_snoc_iff.mpr ⟨heeds, (hanswer a ha).symm⟩
  · rw [hstocking.isAt.result_eq] at ho
    refine ⟨(hstocking.stands.of_result ho).1, ?_⟩
    obtain ⟨hwants, hrequest⟩ := hstocking.stands.wants_of_result ho
    rw [hstocking.requests, hrequest, hwants.length_eq_min heeds]
    exact List.append_nil _
  · rintro us e o rfl he ho
    obtain ⟨hwants, hprovided⟩ := provided_run hm₁ hprovision hat hn untouched he ho
    refine hprovided.furnished hwants ?_ (Nat.min_le_right _ _)
    rw [openAnswers_snoc] at heeds
    cases ha : e.openAnswerTo? m.calls.length with
    | none => rwa [ha, Option.toList_none, List.append_nil] at heeds
    | some a =>
      rw [ha] at heeds
      exact (heeds_snoc_iff.mp heeds).1

/-- The first session comes, and no other. -/
def onlyFirst : ℕ → OpenAnswer
  | 0 => .session true
  | _ => .nothing

/-- A pool gets one client of two, while somebody makes one by hand. -/
def oneOfTwo : List Event :=
  [.advance 0 0, .answer 0 (.opened (.session true)), .newClient (Text.ascii "byHand") true,
    .advance 0 0, .advance 0 0, .answer 0 (.opened .nothing), .advance 0 0, .advance 0 0]

theorem construct_keeps_successful_prefix_oneOfTwo :
    Reachable {} ∧ (2 : UInt64) ≠ 0 ∧
    ∃ m₁ n, perform {} (.begin (.construct {} { maxClients := 2, initialClients := 3 } true
        .standard)) = some m₁ ∧
      m₁.run oneOfTwo = some n ∧ (∀ v ∈ m₁.steps oneOfTwo, v.touches 0 = false) ∧
      Heeds onlyFirst (openAnswers 0 oneOfTwo) ∧
      m₁.Provides 0 0 {} { maxClients := 2, initialClients := 3 } .standard onlyFirst 2 oneOfTwo n ∧
      n.Furnished 0 0 {} { maxClients := 2, initialClients := 3 } .standard onlyFirst 1 2 ∧
      (n.world.pool 0).idle = [0] := by
  obtain ⟨m₁, hm₁, hprovides⟩ := construct_keeps_successful_prefix reachable_empty rfl {}
    { maxClients := 2, initialClients := 3 } .standard (by decide) onlyFirst
  have hrun : ∃ n, m₁.run oneOfTwo = some n ∧ (∀ v ∈ m₁.steps oneOfTwo, v.touches 0 = false) ∧
      n.result? 0 = some (.ok (.pool 0)) ∧ (n.world.pool 0).idle = [0] := by
    cases hm₁
    exact ⟨_, rfl, by decide +kernel, rfl, rfl⟩
  obtain ⟨n, hn, huntouched, hresult, hidle⟩ := hrun
  have heeds : Heeds onlyFirst (openAnswers 0 oneOfTwo) := by
    rintro (_ | _ | i) a h <;> cases h <;> rfl
  have hprovided := hprovides oneOfTwo n hn huntouched heeds
  exact ⟨reachable_empty, by decide, m₁, n, hm₁, hn, huntouched, heeds, hprovided,
    hprovided.leaves oneOfTwo.dropLast _ _ rfl rfl hresult, hidle⟩

end Machine
end SessionPool
