import SessionPool.Proofs.Moves

/-!
# Stocking a new pool

A call that makes a pool opens sessions for its first clients, one after the other.  It stops when
it has as many as were wanted, or as soon as one does not come; and then it has the pool, whatever
it was told.

Where such a call stands follows from what it has been answered so far, and so does the number of
turns that it has taken (`Stock.Stands`).  Nothing else is needed, because what others do meanwhile
never moves a call that does not sleep.

* `Machine.Takes.stock_step`, `Machine.Takes.stock_answered`: what such a call can do next.
* `Stock.Wants`: how many clients are still to come, after some answers.
* `Stock.Stands.takes`: what a turn of the call makes of this.
* `Machine.stocking_run`: where the call stands in every run, and what it has asked for.
* `Machine.stocks_construct`: what it has done, from its beginning on.
-/

namespace SessionPool

/-- A session has come. -/
def OpenAnswer.isSession : OpenAnswer → Bool
  | .session _ => true
  | .nothing | .failed _ => false

/-- The answer that the event is to the wish of this call for a session. -/
def Event.openAnswerTo? (k : CallKey) : Event → Option OpenAnswer
  | .answer j (.opened a) => if j = k then some a else none
  | _ => none

theorem Event.openAnswerTo?_eq_none {k : CallKey} {e : Event} (h : e.isTurnOf k = false) :
    e.openAnswerTo? k = none := by
  unfold openAnswerTo?
  split
  · exact if_neg (of_decide_eq_false h)
  · rfl

/-- The answers to the wishes of a call for sessions, in this order. -/
def Machine.openAnswers (k : CallKey) (es : List Event) : List OpenAnswer :=
  es.filterMap (Event.openAnswerTo? k)

theorem Machine.openAnswers_snoc {k : CallKey} {es : List Event} {e : Event} :
    openAnswers k (es ++ [e]) = openAnswers k es ++ (e.openAnswerTo? k).toList := by
  rw [openAnswers, List.filterMap_append, openAnswers]
  cases hr : e.openAnswerTo? k <;> simp [hr]

/-! ## Turns -/

namespace Machine.Takes

variable {m : Machine} {k : CallKey} {call : Call} {e : Event} {t : Turn} {p : PoolKey} {left : ℕ}
  {s : StockPoint}

/-- Outside of its window a call that stocks a pool can do nothing but take its next step. -/
theorem stock_step (takes : m.Takes k call e t) (hx : call.point = .stock p left s)
    (hs : s ≠ .opening) : e.openAnswerTo? k = none ∧ Stock.step m.world p left s = some t := by
  obtain ⟨x, sequel, notices⟩ := call
  obtain rfl : x = .stock p left s := hx
  have hnone : (Point.stock p left s).request? = none := by
    cases s <;> first | rfl | exact absurd rfl hs
  obtain ⟨hpick, hturn⟩ := takes.turn_eq hnone rfl nofun
  obtain ⟨pick, rfl⟩ := hpick (by rintro _ _ _ ⟨⟩)
  exact ⟨rfl, hturn⟩

/-- In its window it gets an answer. -/
theorem stock_answered (takes : m.Takes k call e t) (hx : call.point = .stock p left .opening) :
    ∃ a, e.openAnswerTo? k = some a ∧ t = Stock.answered m.world p left a := by
  obtain ⟨x, sequel, notices⟩ := call
  obtain rfl : x = .stock p left .opening := hx
  cases takes with
  | step hturn => cases hturn
  | overlooked ht hpoint => cases hpoint
  | stocked a hpoint =>
    cases hpoint
    exact ⟨a, if_pos rfl, rfl⟩
  | opened a hpoint | pinged a hpoint | replied a hpoint | parted a hpoint => cases hpoint
  | expired hpoint limited => cases hpoint
  | beat hpoint wanted => cases hpoint

end Machine.Takes

/-! ## Where the call stands -/

namespace Stock

variable {p : PoolKey} {target left turns : ℕ} {as : List OpenAnswer} {a : OpenAnswer}
  {x : Point} {m : Machine} {k : CallKey} {call : Call} {e : Event} {t : Turn}

/-- After these answers so many clients are still to come of `target`: those that are missing, or
none if the last answer was not a session. -/
inductive Wants (target : ℕ) : List OpenAnswer → ℕ → Prop where
  | more {as : List OpenAnswer} {left : ℕ} (given : ∀ a ∈ as, a.isSession = true)
      (all : as.length + left = target) : Wants target as left
  | short {as : List OpenAnswer} {a : OpenAnswer} (given : ∀ a ∈ as, a.isSession = true)
      (failed : a.isSession = false) (fits : as.length < target) : Wants target (as ++ [a]) 0

namespace Wants

theorem length_le (h : Wants target as left) : as.length + left ≤ target := by
  cases h with
  | more given all => exact all.le
  | short given failed fits =>
    rw [List.length_append, List.length_singleton]
    exact fits

/-- Only the last answer can have been something else than a session. -/
theorem dropLast (h : Wants target as left) : ∀ a ∈ as.dropLast, a.isSession = true := by
  cases h with
  | more given => exact fun a ha => given a (List.mem_of_mem_dropLast ha)
  | short given => rwa [List.dropLast_concat]

/-- No client is missing unless one did not come. -/
theorem length_eq (h : Wants target as 0) (all : ∀ a ∈ as, a.isSession = true) :
    as.length = target := by
  cases h with
  | more _ all => exact all
  | @short as a given failed =>
    rw [all a (by simp)] at failed
    cases failed

/-- As long as clients are to come, all answers were sessions. -/
theorem of_succ (h : Wants target as (left + 1)) :
    (∀ a ∈ as, a.isSession = true) ∧ as.length + (left + 1) = target := by
  cases h with
  | more given all => exact ⟨given, all⟩

/-- A session comes. -/
theorem session (h : Wants target as (left + 1)) (ha : a.isSession = true) :
    Wants target (as ++ [a]) left := by
  obtain ⟨given, all⟩ := h.of_succ
  refine .more (List.forall_mem_append.mpr ⟨given, List.forall_mem_singleton.mpr ha⟩) ?_
  rw [List.length_append, List.length_singleton]
  omega

/-- No session comes. -/
theorem failure (h : Wants target as (left + 1)) (ha : a.isSession = false) :
    Wants target (as ++ [a]) 0 := by
  obtain ⟨given, all⟩ := h.of_succ
  exact .short given ha (by omega)

end Wants

/-- Where a call stands that stocks a pool with `target` clients, after these answers and so many
turns. -/
inductive Stands (p : PoolKey) (target : ℕ) : List OpenAnswer → ℕ → Point → Prop where
  | reserving {as : List OpenAnswer} {left : ℕ} (h : Wants target as left) :
      Stands p target as (3 * as.length) (.stock p left .reserving)
  | opening {as : List OpenAnswer} {left : ℕ} (h : Wants target as (left + 1)) :
      Stands p target as (3 * as.length + 1) (.stock p (left + 1) .opening)
  | arrived {as : List OpenAnswer} {a : OpenAnswer} {left : ℕ} {c : ClientKey}
      (h : Wants target (as ++ [a]) left) :
      Stands p target (as ++ [a]) (3 * as.length + 2) (.stock p (left + 1) (.arrived c))
  | refused {as : List OpenAnswer} {a : OpenAnswer} {left : ℕ} {f : Fault}
      (h : Wants target (as ++ [a]) 0) :
      Stands p target (as ++ [a]) (3 * as.length + 2) (.stock p left (.refused f))
  | finished {as : List OpenAnswer} (h : Wants target as 0) :
      Stands p target as (3 * as.length + 1) (.finished (.ok (.pool p)))

/-- What comes of the answer to the wish for a session. -/
theorem answered_point (w : World) (p : PoolKey) (left : ℕ) (a : OpenAnswer) :
    a.isSession = true ∧ (∃ c, (answered w p left a).point = .stock p left (.arrived c)) ∨
      a.isSession = false ∧ ∃ f, (answered w p left a).point = .stock p left (.refused f) := by
  cases a with
  | session connected => exact .inl ⟨rfl, _, rfl⟩
  | nothing | failed => exact .inr ⟨rfl, _, rfl⟩

namespace Stands

theorem wants (h : Stands p target as turns x) : ∃ left, Wants target as left := by
  cases h with
  | reserving h | opening h | arrived h | refused h | finished h => exact ⟨_, h⟩

theorem point_cases (h : Stands p target as turns x) :
    (∃ left s, x = .stock p left s) ∨ x = .finished (.ok (.pool p)) := by
  cases h with
  | finished => exact .inr rfl
  | reserving | opening | arrived | refused => exact .inl ⟨_, _, rfl⟩

/-- Whoever is about to reserve a slot wants it for a client that is still to come. -/
theorem wants_of_reserving (h : Stands p target as turns (.stock p left .reserving)) :
    Wants target as left := by
  cases h with
  | reserving h => exact h

theorem awake (h : Stands p target as turns x) : x.sleeps = false := by
  cases h <;> rfl

theorem busy (h : Stands p target as turns x) (b : HeartbeatKey) : x ≠ .heartbeat b .resting := by
  cases h <;> nofun

theorem turns_le (h : Stands p target as turns x) : turns ≤ 3 * target + 1 := by
  obtain ⟨left, hwants⟩ := h.wants
  have hlength := hwants.length_le
  cases h with
  | reserving | opening | finished => omega
  | arrived | refused =>
    rw [List.length_append, List.length_singleton] at hlength
    omega

/-- It has asked for no more sessions than there are clients wanted. -/
theorem asked_le (h : Stands p target as turns x) :
    as.length + x.request?.toList.length ≤ target := by
  obtain ⟨left, hwants⟩ := h.wants
  cases h with
  | opening h => exact (Nat.add_le_add_left (Nat.le_add_left 1 _) _).trans h.length_le
  | reserving | arrived | refused | finished =>
    exact (Nat.le_add_right _ left).trans hwants.length_le

/-- It has asked for no other after one that did not come. -/
theorem sessions (h : Stands p target as turns x) :
    ∀ a ∈ as.take (as.length + x.request?.toList.length - 1), a.isSession = true := by
  obtain ⟨left, hwants⟩ := h.wants
  cases h with
  | opening h => exact fun a ha => h.of_succ.1 a (List.mem_of_mem_take ha)
  | reserving | arrived | refused | finished =>
    have hlast := hwants.dropLast
    rwa [List.dropLast_eq_take] at hlast

theorem requests_eq (h : Stands p target as turns x) :
    x.request?.toList = List.replicate x.request?.toList.length (.openSession p) := by
  cases h <;> rfl

/-- If the call has an outcome, it is the pool, and no client is missing unless one did not come. -/
theorem of_result (h : Stands p target as turns x) {o : Outcome} (ho : x.result? = some o) :
    o = .ok (.pool p) ∧
      ((∀ a ∈ as, a.isSession = true) → as.length + x.request?.toList.length = target) := by
  cases h with
  | finished h => exact ⟨(Option.some.inj ho).symm, h.length_eq⟩
  | reserving | opening | arrived | refused => cases ho

/-- If the call has an outcome it wants no more clients, and asks for nothing. -/
theorem wants_of_result (h : Stands p target as turns x) {o : Outcome} (ho : x.result? = some o) :
    Wants target as 0 ∧ x.request?.toList = [] := by
  cases h with
  | finished h => exact ⟨h, rfl⟩
  | reserving | opening | arrived | refused => cases ho

/-- As long as it has none it can take its next turn, whatever it is answered. -/
theorem exists_takes (h : Stands p target as turns call.point) (hnone : call.point.result? = none)
    (a : OpenAnswer) :
    ∃ e t, m.Takes k call e t ∧ ∀ b, e.openAnswerTo? k = some b → b = a := by
  obtain ⟨x, sequel, notices⟩ := call
  simp only at h hnone
  cases h with
  | @reserving _ left h =>
    cases left with
    | zero | succ left => exact ⟨.advance k 0, _, .step rfl, nofun⟩
  | opening =>
    refine ⟨_, _, .stocked a rfl, fun b hb => ?_⟩
    rw [Event.openAnswerTo?, if_pos rfl] at hb
    exact (Option.some.inj hb).symm
  | arrived | refused => exact ⟨.advance k 0, _, .step rfl, nofun⟩
  | finished => cases hnone

/-- A turn of the call, and the answer that it is given in it, if it is given one. -/
theorem takes (h : Stands p target as turns call.point) (hs : call.sequel = .none)
    (ht : m.Takes k call e t) :
    Stands p target (as ++ (e.openAnswerTo? k).toList) (turns + 1) t.point ∧
      (e.openAnswerTo? k).toList.length = call.point.request?.toList.length := by
  obtain ⟨x, sequel, notices⟩ := call
  simp only at h hs
  cases h with
  | @reserving as left h =>
    obtain ⟨hnone, hturn⟩ := ht.stock_step rfl nofun
    rw [hnone, Option.toList_none, List.append_nil]
    cases left with
    | zero => exact ⟨Option.some.inj hturn ▸ .finished h, rfl⟩
    | succ left => exact ⟨Option.some.inj hturn ▸ .opening h, rfl⟩
  | @opening as left h =>
    obtain ⟨a, hanswer, rfl⟩ := ht.stock_answered rfl
    rw [hanswer]
    refine ⟨?_, rfl⟩
    rcases answered_point m.world p (left + 1) a with ⟨ha, c, hpoint⟩ | ⟨ha, f, hpoint⟩
    · rw [hpoint]
      exact .arrived (h.session ha)
    · rw [hpoint]
      exact .refused (h.failure ha)
  | @arrived as a left c h | @refused as a left f h =>
    obtain ⟨hnone, hturn⟩ := ht.stock_step rfl nofun
    rw [hnone, Option.toList_none, List.append_nil]
    have hcount : 3 * as.length + 2 + 1 = 3 * (as ++ [a]).length := by
      rw [List.length_append, List.length_singleton]
      omega
    exact ⟨Option.some.inj hturn ▸ hcount ▸ .reserving h, rfl⟩
  | finished => exact absurd hs (ht.not_over rfl)

end Stands
end Stock

/-! ## The whole stocking -/

namespace Machine

variable {m n l : Machine} {e : Event} {es : List Event} {k : CallKey} {p : PoolKey} {target : ℕ}
  {x : Point}

/-- In a run of the events `es` from `m` to `n` a call has stocked a pool with `target` clients as
far as `x`. -/
structure Stocking (m : Machine) (k : CallKey) (p : PoolKey) (target : ℕ) (es : List Event)
    (n : Machine) (x : Point) : Prop where
  isAt : n.IsAt k .none x
  stands : Stock.Stands p target (openAnswers k es) (es.countP (Event.isTurnOf k)) x
  requests : m.requests k es =
    List.replicate (openAnswers k es).length (.openSession p) ++ x.request?.toList

/-- A call goes on in every event to stock its pool. -/
theorem Stocking.perform (h : m.Stocking k p target es l x) (hes : m.run es = some l)
    (hn : l.perform e = some n) : ∃ y, m.Stocking k p target (es ++ [e]) n y := by
  rcases h.isAt.perform h.stands.awake h.stands.busy hn with
    ⟨hturn, hat⟩ | ⟨hturn, call, t, rfl, hs, takes, -, hnext⟩
  · refine ⟨x, hat, ?_, ?_⟩
    · rw [openAnswers_snoc, Event.openAnswerTo?_eq_none hturn, List.countP_append]
      simpa [hturn] using h.stands
    · rw [requests_snoc hes hn, openAnswers_snoc, Event.openAnswerTo?_eq_none hturn, h.requests]
      simp [hturn]
  · obtain ⟨hstands, hanswered⟩ := h.stands.takes (hs rfl) takes
    have hat := hnext hstands.awake
    refine ⟨t.point, hat, ?_, ?_⟩
    · rw [openAnswers_snoc, List.countP_append]
      simpa [hturn] using hstands
    · rw [requests_snoc hes hn, hturn, if_pos rfl, hat.request_eq, h.requests, openAnswers_snoc,
        List.length_append, hanswered, ← List.replicate_append_replicate, ← h.stands.requests_eq]

/-- Whoever takes a turn in the stocking of a pool has not stocked it yet. -/
theorem Stocking.of_isTurnOf (h : m.Stocking k p target es l x)
    (hn : l.perform e = some n) (he : e.isTurnOf k = true) : ∃ left s, x = .stock p left s := by
  rcases h.isAt.perform h.stands.awake h.stands.busy hn with
    ⟨hturn, -⟩ | ⟨-, call, t, hx, hs, takes, -⟩
  · rw [he] at hturn
    cases hturn
  · refine h.stands.point_cases.resolve_right fun hover => ?_
    exact absurd (hs rfl) (takes.not_over (hx.trans hover))

theorem Stocking.length_requests (h : m.Stocking k p target es n x) :
    (m.requests k es).length = (openAnswers k es).length + x.request?.toList.length := by
  rw [h.requests, List.length_append, List.length_replicate]

/-- What a call has done in a run of the events `es` from `m` to `n` that has just begun to stock a
pool with `target` clients.  It has asked for sessions, for no more than were wanted, and for each
only when all before it had come.  It takes its turns until it has an outcome, and not too many.
The outcome is the pool; and if all sessions came that it asked for, it has asked for all. -/
structure Stocks (m : Machine) (k : CallKey) (p : PoolKey) (target : ℕ) (es : List Event)
    (n : Machine) : Prop where
  asks : ∀ r ∈ m.requests k es, r = .openSession p
  atMost : (m.requests k es).length ≤ target
  sessions : ∀ a ∈ (openAnswers k es).take ((m.requests k es).length - 1), a.isSession = true
  few : es.countP (Event.isTurnOf k) ≤ 3 * target + 1
  goesOn : n.result? k = none → n.world.crashed = false →
    ∃ e, e.isTurnOf k = true ∧ (n.perform e).isSome
  ends : ∀ o, n.result? k = some o → o = .ok (.pool p) ∧
    ((∀ a ∈ openAnswers k es, a.isSession = true) → (m.requests k es).length = target)

/-- It can go on, whatever it is answered. -/
theorem Stocking.goesOn (h : m.Stocking k p target es n x) (hnone : n.result? k = none)
    (hcrashed : n.world.crashed = false) (a : OpenAnswer) : ∃ e, e.isTurnOf k = true ∧
      (n.perform e).isSome ∧ ∀ b, e.openAnswerTo? k = some b → b = a := by
  rw [h.isAt.result_eq] at hnone
  obtain ⟨call, hk, rfl, -⟩ := h.isAt
  obtain ⟨e, t, takes, hanswer⟩ := h.stands.exists_takes hnone a
  obtain ⟨n', -, hn', -⟩ := takes.exists_perform hk hcrashed
  exact ⟨e, takes.isTurnOf, hn' ▸ rfl, hanswer⟩

theorem Stocking.stocks (h : m.Stocking k p target es n x) : m.Stocks k p target es n where
  asks r hr := by
    rw [h.requests, h.stands.requests_eq, List.replicate_append_replicate] at hr
    exact List.eq_of_mem_replicate hr
  atMost := h.length_requests ▸ h.stands.asked_le
  sessions := h.length_requests ▸ h.stands.sessions
  few := h.stands.turns_le
  goesOn hnone hcrashed :=
    have ⟨e, he, hn, _⟩ := h.goesOn hnone hcrashed .nothing
    ⟨e, he, hn⟩
  ends o ho := h.length_requests ▸ h.stands.of_result (h.isAt.result_eq ▸ ho)

/-- In every run a call that is about to stock a pool stocks it. -/
theorem stocking_run (h : m.IsAt k .none (.stock p target .reserving)) (hn : m.run es = some n) :
    ∃ x, m.Stocking k p target es n x := by
  induction es using List.reverseRecOn generalizing n with
  | nil =>
    rw [run_nil, Option.some.injEq] at hn
    subst hn
    have hwants : Stock.Wants target [] target := .more nofun (Nat.zero_add target)
    exact ⟨_, h, .reserving hwants, rfl⟩
  | append_singleton es e ih =>
    obtain ⟨l, hes, hlast⟩ := run_snoc_iff.mp hn
    obtain ⟨x, hl⟩ := ih hes
    exact hl.perform hes hlast

/-! ## From the beginning -/

/-- A call that makes a pool of at least one client adds it, and is about to stock it with as many
as it begins with. -/
theorem enter_construct (w : World) (connection : Connection) {limits : PoolLimits}
    (dialect : Dialect) (h : limits.maxClients ≠ 0) :
    (Operation.construct connection limits true dialect).enter w =
      { world := w.addPool { connection, limits, dialect }
        point := .stock w.pools.length (Pool.initialCount { connection, limits, dialect }).toNat
          .reserving
        notices :=
          [.creatingPool connection.address limits.maxClients limits.acquireTimeout] } := by
  rw [Operation.enter, Operation.make, if_neg h, if_neg (not_not.mpr rfl)]
  rfl

/-- Such a call can always begin. -/
theorem perform_construct (connection : Connection) (limits : PoolLimits) (dialect : Dialect)
    (hm : m.world.crashed = false) :
    m.perform (.begin (.construct connection limits true dialect)) =
      some (m.begin (.construct connection limits true dialect)) := by
  rw [perform, if_neg (hm ▸ Bool.false_ne_true)]
  rfl

theorem isAt_construct (m : Machine) (connection : Connection) {limits : PoolLimits}
    (dialect : Dialect) (h : limits.maxClients ≠ 0) :
    (m.begin (.construct connection limits true dialect)).IsAt m.calls.length .none
      (.stock m.world.pools.length (Pool.initialCount { connection, limits, dialect }).toNat
        .reserving) :=
  have henter := enter_construct m.world connection dialect h
  ⟨_, call?_begin m _, congrArg Entrance.point henter, fun _ => congrArg Entrance.sequel henter⟩

/-- A call that makes a pool of at least one client adds it, and stocks it with as many as it begins
with. -/
theorem stocks_construct (connection : Connection) {limits : PoolLimits} (dialect : Dialect)
    (h : limits.maxClients ≠ 0) (hm : m.world.crashed = false) :
    ∃ m₁, m.perform (.begin (.construct connection limits true dialect)) = some m₁ ∧
      m₁.world = m.world.addPool { connection, limits, dialect } ∧
        ∀ es n, m₁.run es = some n → m₁.Stocks m.calls.length m.world.pools.length
          (Pool.initialCount { connection, limits, dialect }).toNat es n := by
  refine ⟨_, perform_construct connection limits dialect hm, ?_, fun es n hn => ?_⟩
  · exact congrArg Entrance.world (enter_construct m.world connection dialect h)
  · obtain ⟨x, hstocking⟩ := stocking_run (isAt_construct m connection dialect h) hn
    exact hstocking.stocks

end Machine
end SessionPool
