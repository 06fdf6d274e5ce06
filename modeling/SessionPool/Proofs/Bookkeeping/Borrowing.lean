import SessionPool.Proofs.Bookkeeping

/-!
# The books of borrowing

The steps of callers who want a client, share one or give one back, and of the stocking of a new
pool, as entries in the books.
-/

namespace SessionPool

variable {bad : Mishap → Prop} {w : World} {rest : PoolKey → Stake} {p : PoolKey} {c : ClientKey}
  {t : Patience} {leased : Bool}

/-! ## Handing over -/

@[simp] theorem World.books_handOver (q : PoolKey) (s : Stake) :
    (w.handOver p c leased).1.books q s = w.books q s := by
  cases leased <;> rfl

@[simp] theorem World.pools_handOver : (w.handOver p c leased).1.pools = w.pools := by
  cases leased <;> rfl

@[simp] theorem World.clients_handOver : (w.handOver p c leased).1.clients = w.clients := by
  cases leased <;> rfl

/-- A step that ends the call with a reference to a client has done what was done before it. -/
theorem Passage.lend {w' : World} {x : Point} {o : Outcome}
    (h : Passage bad rest w x w' (.finished o)) :
    (Turn.lend w' p c leased).Passes bad rest w x where
  entries q := by
    show Books.Entries bad _ ((w'.handOver p c leased).1.books q _)
    rw [World.books_handOver]
    exact h.entries q
  errand := .inl rfl
  made := List.forall_mem_nil _
  pools := by
    show (w'.handOver p c leased).1.pools.length = _
    rw [World.pools_handOver]
    exact h.pools
  clients := by
    show _ ≤ (w'.handOver p c leased).1.clients.length
    rw [World.clients_handOver]
    exact h.clients

namespace Acquire

/-! ## Looking for a client -/

theorem stake_seeking (q : PoolKey) : (Point.acquire p t leased .seeking).stake q = 0 := by
  simp [Point.stake, AcquirePoint.stake]

/-- The next idle client is lent. -/
theorem passage_takeIdle {others : List ClientKey}
    (hf : Footing w rest (.acquire p t leased .seeking)) (hc : (w.pool p).closing = false)
    (hi : (w.pool p).idle = c :: others) (o : Outcome) :
    Passage bad rest w (.acquire p t leased .seeking)
      ((w.onPool p fun pool => pool.takeIdle others).onClient c Client.lend) (.finished o) := by
  obtain ⟨hp, -⟩ := hf.used p rfl
  have hs := hf.seated p
  have hmem : c ∈ (w.onPool p fun pool => pool.takeIdle others).own p :=
    hs.mem_own_of_mem (hs.mem_of_mem_free (by simp [Books.free, hi]))
  refine .of_pool p (.single ?_) ?_ (.inl rfl) (List.forall_mem_nil _) (by simp) (by simp)
  · rw [stake_seeking, World.books_onClient _ hmem rfl, World.books_onPool _ hp]
    exact .lend hc hi
  · intro q hq
    rw [stake_seeking, World.books_onClient_of_notMem _ (World.notMem_own_of_ne hmem hq) rfl,
      World.books_onPool_of_ne _ hq]
    rfl

/-- A slot is reserved. -/
theorem passage_reserve (hf : Footing w rest (.acquire p t leased .seeking))
    (hc : (w.pool p).closing = false) (hr : (w.pool p).hasRoom = true) :
    Passage bad rest w (.acquire p t leased .seeking) (w.onPool p Pool.reserve)
      (.acquire p t leased .opening) := by
  obtain ⟨hp, hbudget⟩ := hf.used p rfl
  refine .of_pool p (.single ?_) ?_ (.inr rfl) (List.forall_mem_nil _) (by simp) (by simp)
  · rw [stake_seeking, zero_add]
    simp only [Point.stake, if_true]
    rw [World.books_hold_of_eq _ _ rfl, World.books_onPool _ hp]
    exact .reserve hbudget hc hr
  · intro q hq
    simp only [Point.stake, if_neg (Ne.symm hq)]
    rw [World.books_onPool_of_ne _ hq]

/-- A caller begins to wait. -/
theorem passage_wait (hf : Footing w rest (.acquire p t leased .seeking)) :
    Passage bad rest w (.acquire p t leased .seeking)
      (w.onPool p fun pool => { pool with waiting := pool.waiting + 1 })
      (.acquire p t leased .asleep) := by
  obtain ⟨hp, -⟩ := hf.used p rfl
  refine .of_pool p (.single ?_) ?_ (.inr rfl) (List.forall_mem_nil _) (by simp) (by simp)
  · rw [stake_seeking, zero_add]
    simp only [Point.stake, if_true]
    rw [World.books_hold_of_eq _ _ rfl, World.books_onPool _ hp]
    exact .wait
  · intro q hq
    simp only [Point.stake, if_neg (Ne.symm hq)]
    rw [World.books_onPool_of_ne _ hq]

/-- A caller looks for a client. -/
theorem passes_seek (hf : Footing w rest (.acquire p t leased .seeking)) :
    (seek w p t leased).Passes bad rest w (.acquire p t leased .seeking) := by
  simp only [seek]
  split
  · exact .stay hf (fun q => (stake_seeking q).symm) (.inl rfl)
  · next hc =>
    rw [Bool.not_eq_true] at hc
    split
    · next c others hi => exact (passage_takeIdle hf hc hi (.ok .done)).lend
    · split
      · next hr => exact passage_reserve hf hc hr
      · exact passage_wait hf

/-- A caller does not wait any more. -/
theorem passage_rise {x y : Point} (hp : p < w.pools.length)
    (hx : ∀ q, x.stake q = if p = q then { waiters := 1 } else 0) (hy : ∀ q, y.stake q = 0)
    (herrand : y.errand? = none ∨ y.errand? = x.errand?) (hd : y.discards = []) :
    Passage bad rest w x (rise w p) y := by
  refine .of_pool p (.single ?_) ?_ herrand (by simp [hd]) (by simp [rise]) (by simp [rise])
  · rw [hx, hy, if_pos rfl, zero_add, World.books_hold_of_eq _ _ rfl, rise,
      World.books_onPool _ hp]
    exact .rise
  · intro q hq
    rw [hx, hy, if_neg (Ne.symm hq), rise, World.books_onPool_of_ne _ hq]

/-- A woken caller looks again. -/
theorem passes_wake (hf : Footing w rest (.acquire p t leased .woken)) :
    (wake w p t leased).Passes bad rest w (.acquire p t leased .woken) := by
  simp only [wake]
  split
  · have h : Passage bad rest w (.acquire p t leased .woken) (rise w p)
        (.acquire p t leased .seeking) :=
      passage_rise (hf.used p rfl).1 (fun _ => rfl) stake_seeking (.inr rfl) rfl
    exact h.trans (passes_seek (h.footing hf))
  · exact .stay hf (fun _ => rfl) (.inr rfl)

/-- A caller whose patience is over looks a last time. -/
theorem passes_expire (hf : Footing w rest (.acquire p t leased .expired)) :
    (expire w p t leased).Passes bad rest w (.acquire p t leased .expired) := by
  simp only [expire]
  split
  · have h : Passage bad rest w (.acquire p t leased .expired) (rise w p)
        (.acquire p t leased .seeking) :=
      passage_rise (hf.used p rfl).1 (fun _ => rfl) stake_seeking (.inr rfl) rfl
    exact h.trans (passes_seek (h.footing hf))
  · exact passage_rise (hf.used p rfl).1 (fun _ => rfl) (fun _ => rfl) (.inl rfl) rfl

end Acquire

/-! ## Windows -/

/-- The reserved slot of a session that has not come is given back. -/
theorem passage_unreserve {x y : Point} {s : Stake} (hp : p < w.pools.length)
    (hx : ∀ q, x.stake q = if p = q then { refusals := 1 } + s else 0)
    (hy : ∀ q, y.stake q = if p = q then s else 0)
    (herrand : y.errand? = none ∨ y.errand? = x.errand?) (hd : y.discards = []) :
    Passage bad rest w x (w.onPool p Pool.unreserve) y := by
  refine .of_pool p (.single ?_) ?_ herrand (by simp [hd]) (by simp) (by simp)
  · rw [hx, hy, if_pos rfl, if_pos rfl, add_assoc,
      World.books_hold_of_eq { refusals := 1 } _ rfl, World.books_onPool _ hp]
    exact .unreserve
  · intro q hq
    rw [hx, hy, if_neg (Ne.symm hq), if_neg (Ne.symm hq), World.books_onPool_of_ne _ hq]

/-- The factory returned a session. -/
theorem passage_opened {x y : Point} {s : Stake} (hf : Footing w rest x) (hp : p < w.pools.length)
    (hx : ∀ q, x.stake q = if p = q then { openings := 1 } + s else 0)
    (hy : ∀ q, y.stake q = if p = q then { arrived := {w.clients.length} } + s else 0)
    (herrand : y.errand? = x.errand?) (hd : y.discards = []) (connected : Bool) :
    Passage bad rest w x (Opening.answered w p (.session connected)).world y := by
  have hfresh : w.clients.length ∉ (s + rest p).discards := by
    intro hc
    have hc' : w.clients.length ∈ (x.stake p + rest p).discards := by
      rw [hx, if_pos rfl, add_assoc]
      simpa using hc
    exact Nat.lt_irrefl _ (hf.made p _ hc')
  refine .of_pool p (.single ?_) ?_ (.inr herrand) (by simp [hd]) ?_ ?_
  · simp only [Opening.answered]
    rw [hx, hy, if_pos rfl, if_pos rfl, add_assoc, add_assoc,
      World.books_hold_of_eq { openings := 1 } _ rfl,
      World.books_hold_of_eq { arrived := {w.clients.length} } _ rfl,
      World.books_onPool _ (show p < (w.addClient _).pools.length from hp),
      World.books_addClient _ rfl hfresh]
    exact .arrive _ (by simp [World.mem_own]) rfl rfl
  · intro q hq
    simp only [Opening.answered]
    rw [hx, hy, if_neg (Ne.symm hq), if_neg (Ne.symm hq), World.books_onPool_of_ne _ hq,
      World.books_addClient_of_ne _ (by simpa using Ne.symm hq)]
  · simp [Opening.answered, World.addClient]
  · simp [Opening.answered, World.addClient]

/-- The factory returned no session. -/
theorem passage_unopened {x y : Point} {s : Stake}
    (hx : ∀ q, x.stake q = if p = q then { openings := 1 } + s else 0)
    (hy : ∀ q, y.stake q = if p = q then { refusals := 1 } + s else 0)
    (herrand : y.errand? = x.errand?) (hd : y.discards = []) : Passage bad rest w x w y := by
  refine .of_pool p (.single ?_) ?_ (.inr herrand) (by simp [hd]) rfl le_rfl
  · rw [hx, hy, if_pos rfl, if_pos rfl, add_assoc, add_assoc,
      World.books_hold_of_eq { openings := 1 } _ rfl,
      World.books_hold_of_eq { refusals := 1 } _ rfl]
    exact .refuse
  · intro q hq
    rw [hx, hy, if_neg (Ne.symm hq), if_neg (Ne.symm hq)]

namespace Acquire

/-- The window of a caller is over. -/
theorem passes_answered (hf : Footing w rest (.acquire p t leased .opening)) (a : OpenAnswer) :
    (answered w p t leased a).Passes bad rest w (.acquire p t leased .opening) := by
  have hx : ∀ q, (Point.acquire p t leased .opening).stake q =
      if p = q then { openings := 1 } + 0 else 0 := fun _ => rfl
  cases a with
  | session connected =>
    exact passage_opened (y := .acquire p t leased (.arrived w.clients.length)) hf
      (hf.used p rfl).1 hx (fun _ => rfl) rfl rfl connected
  | nothing =>
    exact passage_unopened (y := .acquire p t leased (.refused _)) hx (fun _ => rfl) rfl rfl
  | failed reason =>
    exact passage_unopened (y := .acquire p t leased (.refused _)) hx (fun _ => rfl) rfl rfl

/-- No client has come for a caller. -/
theorem passes_refuse {f : Fault} (hf : Footing w rest (.acquire p t leased (.refused f))) :
    (refuse w p f).Passes bad rest w (.acquire p t leased (.refused f)) :=
  passage_unreserve (s := 0) (hf.used p rfl).1 (fun _ => rfl) (fun _ => by simp; rfl) (.inl rfl) rfl

theorem stake_arrived (q : PoolKey) : (Point.acquire p t leased (.arrived c)).stake q =
    if p = q then { arrived := {c} } else 0 := rfl

/-- A new client that has come for a caller is one of the pool. -/
theorem mem_own_of_arrived (hf : Footing w rest (.acquire p t leased (.arrived c))) :
    c ∈ w.own p := by
  refine (hf.seated p).owned c (Multiset.mem_add.mpr (.inr ?_))
  simp [World.books, stake_arrived]

/-- A new client has come too late. -/
theorem passage_dismiss (hf : Footing w rest (.acquire p t leased (.arrived c)))
    (hc : (w.pool p).closing = true) (o : Outcome) :
    Passage bad rest w (.acquire p t leased (.arrived c)) (w.onPool p Pool.unreserve)
      (.farewell .disconnect false [c] (.destroy [c] o)) := by
  obtain ⟨hp, -⟩ := hf.used p rfl
  have hmem := mem_own_of_arrived hf
  have hy : ∀ q, (Point.farewell .disconnect false [c] (.destroy [c] o)).stake q =
      { discards := {c} } := fun _ => rfl
  refine .of_pool p (.single ?_) ?_ (.inl rfl) ?_ (by simp) (by simp)
  · rw [stake_arrived, if_pos rfl, hy, World.books_hold_of_eq _ _ rfl,
      World.books_discarded (w := w.onPool p _) _ hmem, World.books_onPool _ hp]
    exact .dismiss hc
  · intro q hq
    rw [stake_arrived, if_neg (Ne.symm hq), zero_add, hy,
      World.books_foreign_singleton (w := w.onPool p _) _ (World.notMem_own_of_ne hmem hq),
      World.books_onPool_of_ne _ hq]
  · intro d hd
    rw [List.mem_singleton.mp hd]
    exact (World.mem_own.mp hmem).1

/-- A new client becomes a member and stays with the caller. -/
theorem passage_enroll (hf : Footing w rest (.acquire p t leased (.arrived c)))
    (hc : (w.pool p).closing = false) (o : Outcome) :
    Passage bad rest w (.acquire p t leased (.arrived c))
      ((w.onPool p fun pool => pool.enroll c).onClient c Client.lend) (.finished o) := by
  obtain ⟨hp, -⟩ := hf.used p rfl
  have hmem : c ∈ w.own p := mem_own_of_arrived hf
  replace hmem : c ∈ (w.onPool p fun pool => pool.enroll c).own p := hmem
  have hy : ∀ q, (Point.finished o).stake q = 0 := fun _ => rfl
  refine .of_pool p (.single ?_) ?_ (.inl rfl) (List.forall_mem_nil _) (by simp) (by simp)
  · rw [stake_arrived, if_pos rfl, hy, zero_add, World.books_hold_of_eq _ _ rfl,
      World.books_onClient _ hmem rfl, World.books_onPool _ hp]
    exact .enroll hc
  · intro q hq
    rw [stake_arrived, if_neg (Ne.symm hq), hy,
      World.books_onClient_of_notMem _ (World.notMem_own_of_ne hmem hq) rfl,
      World.books_onPool_of_ne _ hq]

/-- A new client has come for a caller. -/
theorem passes_arrive (hf : Footing w rest (.acquire p t leased (.arrived c))) :
    (arrive w p leased c).Passes bad rest w (.acquire p t leased (.arrived c)) := by
  simp only [arrive]
  split
  · next hc => exact passage_dismiss hf hc _
  · next hc =>
    rw [Bool.not_eq_true] at hc
    exact (passage_enroll hf hc (.ok .done)).lend

/-- Every step of a caller. -/
theorem passes_step {s : AcquirePoint} {turn : Turn}
    (hf : Footing w rest (.acquire p t leased s)) (h : step w p t leased s = some turn) :
    turn.Passes bad rest w (.acquire p t leased s) := by
  cases s with
  | seeking => exact Option.some.inj h ▸ passes_seek hf
  | opening => cases h
  | arrived c => exact Option.some.inj h ▸ passes_arrive hf
  | refused f => exact Option.some.inj h ▸ passes_refuse hf
  | asleep => cases h
  | woken => exact Option.some.inj h ▸ passes_wake hf
  | expired => exact Option.some.inj h ▸ passes_expire hf

theorem started_seek : (seek w p t leased).started = none := by
  simp only [seek]
  repeat' split
  all_goals rfl

theorem started_step {s : AcquirePoint} {turn : Turn} (h : step w p t leased s = some turn) :
    turn.started = none := by
  cases s with
  | seeking => exact Option.some.inj h ▸ started_seek
  | opening => cases h
  | asleep => cases h
  | _ =>
    obtain rfl := Option.some.inj h
    simp only [arrive, refuse, wake, expire]
    repeat' split
    all_goals first | rfl | exact started_seek

end Acquire

/-! ## Stocking a new pool -/

namespace Stock

variable {left : ℕ}

theorem stake_opening (q : PoolKey) : (Point.stock p left .opening).stake q =
    if p = q then { openings := 1 } + { budget := left - 1 } else 0 := by
  simp only [Point.stake, StockPoint.stake]
  congr 1
  ext1 <;> simp

theorem stake_arrived (q : PoolKey) : (Point.stock p left (.arrived c)).stake q =
    if p = q then { arrived := {c} } + { budget := left - 1 } else 0 := by
  simp only [Point.stake, StockPoint.stake]
  congr 1
  ext1 <;> simp

theorem stake_refused (f : Fault) (q : PoolKey) : (Point.stock p left (.refused f)).stake q =
    if p = q then { refusals := 1 } + { budget := left - 1 } else 0 := by
  simp only [Point.stake, StockPoint.stake]
  congr 1
  ext1 <;> simp

/-- The next slot is reserved. -/
theorem passage_reserve (hf : Footing w rest (.stock p (left + 1) .reserving)) :
    Passage bad rest w (.stock p (left + 1) .reserving) (w.onPool p Pool.reserve)
      (.stock p (left + 1) .opening) := by
  have hp := hf.stocked p rfl
  have hx : ∀ q, (Point.stock p (left + 1) .reserving).stake q =
      if p = q then { budget := left + 1 } else 0 := fun _ => rfl
  have hy : ∀ q, (Point.stock p (left + 1) .opening).stake q =
      if p = q then { budget := left, openings := 1 } else 0 := fun _ => rfl
  refine .of_pool p (.single ?_) ?_ (.inr rfl) (List.forall_mem_nil _) (by simp) (by simp)
  · rw [hx, hy, if_pos rfl, if_pos rfl, World.books_hold_of_eq _ _ rfl,
      World.books_hold_of_eq _ _ rfl, World.books_onPool _ hp]
    exact .reserveFirst left
  · intro q hq
    rw [hx, hy, if_neg (Ne.symm hq), if_neg (Ne.symm hq), World.books_onPool_of_ne _ hq]

/-- A new client becomes idle. -/
theorem passage_enrollIdle (hf : Footing w rest (.stock p left (.arrived c))) :
    Passage bad rest w (.stock p left (.arrived c))
      ((w.onClient c fun k => { k with state := .idle }).onPool p fun pool => pool.enrollIdle c)
      (.stock p (left - 1) .reserving) := by
  have hp := hf.stocked p rfl
  have hx : ∀ q, (Point.stock p left (.arrived c)).stake q =
      if p = q then { arrived := {c} } + { budget := left - 1 } else 0 := stake_arrived
  have hy : ∀ q, (Point.stock p (left - 1) .reserving).stake q =
      if p = q then { budget := left - 1 } else 0 := fun _ => rfl
  have hmem : c ∈ w.own p := by
    refine (hf.seated p).owned c (Multiset.mem_add.mpr (.inr ?_))
    simp [World.books, hx]
  refine .of_pool p (.single ?_) ?_ (.inr rfl) (List.forall_mem_nil _) (by simp) (by simp)
  · rw [hx, hy, if_pos rfl, if_pos rfl, add_assoc,
      World.books_hold_of_eq { arrived := {c} } _ rfl,
      World.books_onPool (w := w.onClient c _) _ hp, World.books_onClient _ hmem rfl]
    exact .enrollIdle
  · intro q hq
    rw [hx, hy, if_neg (Ne.symm hq), if_neg (Ne.symm hq), World.books_onPool_of_ne _ hq,
      World.books_onClient_of_notMem _ (World.notMem_own_of_ne hmem hq) rfl]

/-- A stocking ends, and gives up the slots it has not reserved. -/
theorem passage_forgo {y : Point} (hy : ∀ q, y.stake q = 0)
    (herrand : y.errand? = none ∨ y.errand? = some (.stock p)) (hd : y.discards = []) :
    Passage bad rest w (.stock p left .reserving) w y := by
  have hx : ∀ q, (Point.stock p left .reserving).stake q =
      if p = q then { budget := left } else 0 := fun _ => rfl
  refine .of_pool p (.single ?_) ?_ herrand (by simp [hd]) rfl le_rfl
  · rw [hx, hy, if_pos rfl, zero_add, World.books_hold_of_eq _ _ rfl]
    exact .forgo left
  · intro q hq
    rw [hx, hy, if_neg (Ne.symm hq)]

/-- No session has come, and the stocking ends. -/
theorem passage_refuse {f : Fault} (hf : Footing w rest (.stock p left (.refused f))) :
    Passage bad rest w (.stock p left (.refused f)) (w.onPool p Pool.unreserve)
      (.stock p 0 .reserving) := by
  have h : Passage bad rest w (.stock p left (.refused f)) (w.onPool p Pool.unreserve)
      (.stock p (left - 1) .reserving) :=
    passage_unreserve (hf.stocked p rfl) (stake_refused f) (fun _ => rfl) (.inr rfl) rfl
  refine h.trans (passage_forgo ?_ (.inr rfl) rfl)
  intro q
  show (if p = q then (0 : Stake) else 0) = 0
  split <;> rfl

/-- Every step of a stocking. -/
theorem passes_step {s : StockPoint} {turn : Turn} (hf : Footing w rest (.stock p left s))
    (h : step w p left s = some turn) : turn.Passes bad rest w (.stock p left s) := by
  cases s with
  | reserving =>
    cases left with
    | zero => exact Option.some.inj h ▸ passage_forgo (fun _ => rfl) (.inl rfl) rfl
    | succ left => exact Option.some.inj h ▸ passage_reserve hf
  | opening => cases h
  | arrived c => exact Option.some.inj h ▸ passage_enrollIdle hf
  | refused f => exact Option.some.inj h ▸ passage_refuse hf

theorem started_step {s : StockPoint} {turn : Turn} (h : step w p left s = some turn) :
    turn.started = none := by
  cases s with
  | reserving => cases left <;> exact Option.some.inj h ▸ rfl
  | opening => cases h
  | _ => exact Option.some.inj h ▸ rfl

/-- The window of a stocking is over. -/
theorem passes_answered (hf : Footing w rest (.stock p left .opening)) (a : OpenAnswer) :
    (answered w p left a).Passes bad rest w (.stock p left .opening) := by
  cases a with
  | session connected =>
    exact passage_opened hf (hf.stocked p rfl) stake_opening stake_arrived rfl rfl connected
  | nothing => exact passage_unopened stake_opening (stake_refused _) rfl rfl
  | failed reason => exact passage_unopened stake_opening (stake_refused _) rfl rfl

end Stock

/-! ## Sharing a client -/

namespace Share

/-- A reference is added to a client that is lent. -/
theorem passage_share (hf : Footing w rest (.addReference p c leased))
    (hmem : c ∈ (w.pool p).members) (hlent : (w.client c).references ≠ 0)
    (hbad : (w.client c).references = Client.mostReferences → bad (.overflow c)) (o : Outcome) :
    Passage bad rest w (.addReference p c leased)
      (w.onClient c fun k => { k with references := k.references + 1 }) (.finished o) := by
  have hown : c ∈ w.own p := (hf.seated p).mem_own_of_mem hmem
  refine .of_client hf hown rfl ?_ (fun _ => rfl) (.inl rfl)
  set b := w.books p _
  have hc : b.client c = w.client c := World.books_client _ hown
  by_cases hfull : (w.client c).references = Client.mostReferences
  · have e : Books.Entry bad b _ := .overflow (hbad hfull) hmem (hc ▸ hfull)
    have hzero : (b.client c).references + 1 = 0 := by rw [hc, hfull]; rfl
    simpa only [Books.onClient, hzero] using e
  · exact .share hmem (hc ▸ hlent) (hc ▸ hfull)

/-- A step that adds a reference. -/
theorem passes_step (hf : Footing w rest (.addReference p c leased))
    (hbad : c ∈ (w.pool p).members → (w.client c).references = Client.mostReferences →
      bad (.overflow c)) :
    (step w p c leased).Passes bad rest w (.addReference p c leased) := by
  have hsame : ∀ o, Passage bad rest w (.addReference p c leased) w (.finished o) := fun _ =>
    .stay hf (fun _ => rfl) (.inl rfl)
  simp only [step]
  split
  · exact hsame _
  · next hmem =>
    rw [not_not] at hmem
    split
    · exact hsame _
    · by_cases hlent : (w.client c).references = 0
      · simp only [Client.addReference, hlent, if_true]
        exact .wear hf ⟨rfl, rfl, id, .inl rfl⟩ (fun h => .inl h) (fun _ => rfl) (.inl rfl)
      · simp only [Client.addReference, hlent, if_false]
        have hsame : (w.onClient c fun _ =>
            { w.client c with references := (w.client c).references + 1 }) =
            w.onClient c fun k => { k with references := k.references + 1 } :=
          World.onClient_congr rfl
        rw [hsame]
        split
        · exact passage_share hf hmem hlent (hbad hmem) _
        · exact (passage_share hf hmem hlent (hbad hmem) (.ok .done)).lend

theorem started_step : (step w p c leased).started = none := by
  simp only [step]
  repeat' split
  all_goals rfl

end Share

/-! ## Giving a client back -/

namespace Release

/-- A reference is given back, and not the last one. -/
theorem passage_drop (hf : Footing w rest (.release p c leased)) (hmem : c ∈ (w.pool p).members)
    (hlent : (w.client c).references ≠ 0) (hmore : (w.client c).references ≠ 1) (o : Outcome) :
    Passage bad rest w (.release p c leased)
      (w.onClient c fun k => { k with references := k.references - 1 }) (.finished o) := by
  have hown : c ∈ w.own p := (hf.seated p).mem_own_of_mem hmem
  have hc : ∀ s, (w.books p s).client c = w.client c := fun s => World.books_client s hown
  exact .of_client hf hown rfl (.drop hmem (hc _ ▸ hlent) (hc _ ▸ hmore)) (fun _ => rfl) (.inl rfl)

/-- The last reference is given back, and the client is discarded. -/
theorem passage_discard (hf : Footing w rest (.release p c leased))
    (hmem : c ∈ (w.pool p).members) (hlast : (w.client c).references = 1)
    (hcause : (w.client c).isBroken = true ∨ (w.pool p).closing = true) (o : Outcome) :
    Passage bad rest w (.release p c leased)
      (((w.onClient c fun k => { k with references := 0 }).onPool p
        Pool.giveBack).onPool p fun pool => pool.detach c)
      (.farewell .disconnect false [c] (.destroy [c] o)) := by
  have hp := World.lt_length_of_mem hmem
  have hown : c ∈ w.own p := (hf.seated p).mem_own_of_mem hmem
  set w' := w.onClient c fun k => { k with references := 0 } with hw'
  have hown' : c ∈ ((w'.onPool p Pool.giveBack).onPool p fun pool => pool.detach c).own p := by
    show c ∈ (w.onClient c _).own p
    rwa [World.own_onClient rfl]
  have hc : (w.books p (rest p)).client c = w.client c := World.books_client _ hown
  have hx : ∀ q, (Point.release p c leased).stake q = 0 := fun _ => rfl
  have hy : ∀ q, (Point.farewell .disconnect false [c] (.destroy [c] o)).stake q =
      { discards := {c} } := fun _ => rfl
  refine .of_pool p (.single ?_) ?_ (.inl rfl) ?_ (by simp [hw']) (by simp [hw'])
  · rw [hx, zero_add, hy, World.books_discarded _ hown',
      World.books_onPool (w := w'.onPool p _) _ (by simpa [hw'] using hp),
      World.books_onPool (w := w') _ (by simpa [hw'] using hp), hw',
      World.books_onClient _ hown rfl]
    exact .discard hmem (hc ▸ hlast) (hc ▸ hcause)
  · intro q hq
    rw [hx, hy, World.books_foreign_singleton _ (World.notMem_own_of_ne hown' hq),
      World.books_onPool_of_ne _ hq, World.books_onPool_of_ne _ hq, hw',
      World.books_onClient_of_notMem _ (World.notMem_own_of_ne hown hq) rfl, zero_add]
  · intro d hd
    rw [List.mem_singleton.mp hd]
    exact (World.mem_own.mp hown').1

/-- The last reference is given back, and the client is idle again. -/
theorem passage_giveBack (hf : Footing w rest (.release p c leased))
    (hmem : c ∈ (w.pool p).members) (hlast : (w.client c).references = 1)
    (hopen : (w.pool p).closing = false) (hwhole : (w.client c).isBroken = false) (o : Outcome) :
    Passage bad rest w (.release p c leased)
      ((((w.onClient c fun k => { k with references := 0 }).onPool p
        Pool.giveBack).onClient c fun k => { k with state := .idle }).onPool p
          fun pool => pool.pushIdle c) (.finished o) := by
  have hp := World.lt_length_of_mem hmem
  have hown : c ∈ w.own p := (hf.seated p).mem_own_of_mem hmem
  set w' := w.onClient c fun k => { k with references := 0 } with hw'
  have hown' : c ∈ (w'.onPool p Pool.giveBack).own p := by
    show c ∈ (w.onClient c _).own p
    rwa [World.own_onClient rfl]
  have hc : (w.books p (rest p)).client c = w.client c := World.books_client _ hown
  have hx : ∀ q, (Point.release p c leased).stake q = 0 := fun _ => rfl
  have hy : ∀ q, (Point.finished o).stake q = 0 := fun _ => rfl
  refine .of_pool p (.single ?_) ?_ (.inl rfl) (List.forall_mem_nil _) (by simp [hw'])
    (by simp [hw'])
  · rw [hx, zero_add, hy, zero_add,
      World.books_onPool (w := (w'.onPool p _).onClient c _) _ (by simpa [hw'] using hp),
      World.books_onClient (w := w'.onPool p _) _ hown' rfl,
      World.books_onPool (w := w') _ (by simpa [hw'] using hp), hw',
      World.books_onClient _ hown rfl]
    have e : Books.Entry bad (w.books p (rest p)) _ :=
      .giveBack hmem (hc ▸ hlast) hopen (hc ▸ hwhole)
    simpa [Books.onClient, Books.onPool] using e
  · intro q hq
    rw [hx, hy, World.books_onPool_of_ne _ hq,
      World.books_onClient_of_notMem _ (World.notMem_own_of_ne hown' hq) rfl,
      World.books_onPool_of_ne _ hq, hw',
      World.books_onClient_of_notMem _ (World.notMem_own_of_ne hown hq) rfl]

/-- The last reference is given back. -/
theorem passes_last (hf : Footing w rest (.release p c leased)) (hmem : c ∈ (w.pool p).members)
    (hlast : (w.client c).references = 1) :
    (last (w.onClient c fun k => { k with references := 0 }) p c).Passes bad rest w
      (.release p c leased) := by
  have hown : c ∈ w.own p := (hf.seated p).mem_own_of_mem hmem
  have hbroken : ((w.onClient c fun k => { k with references := 0 }).client c).isBroken =
      (w.client c).isBroken := by
    rw [World.client_onClient w (World.mem_own.mp hown).1]
    rfl
  have hclosing : (((w.onClient c fun k => { k with references := 0 }).onPool p
      Pool.giveBack).pool p).closing = (w.pool p).closing := by
    rw [World.pool_onPool (w.onClient c _) (World.lt_length_of_mem hmem)]
    rfl
  simp only [last, World.client_onPool, hbroken, hclosing]
  split
  · next hb => exact passage_discard hf hmem hlast (.inl hb) _
  · next hb =>
    rw [Bool.not_eq_true] at hb
    split
    · next hc => exact passage_discard hf hmem hlast (.inr hc) _
    · next hc =>
      rw [Bool.not_eq_true] at hc
      exact passage_giveBack hf hmem hlast hc hb _

/-- A step that gives a reference back. -/
theorem passes_step (hf : Footing w rest (.release p c leased)) :
    (step w p c).Passes bad rest w (.release p c leased) := by
  have hsame : ∀ o, Passage bad rest w (.release p c leased) w (.finished o) := fun _ =>
    .stay hf (fun _ => rfl) (.inl rfl)
  simp only [step]
  split
  · exact hsame _
  · next hmem =>
    rw [not_not] at hmem
    simp only [Client.dropReference?]
    by_cases hlent : (w.client c).references = 0
    · simp only [hlent, if_true]
      exact hsame _
    · simp only [hlent, if_false]
      by_cases hlast : (w.client c).references = 1
      · have hzero : (w.client c).references - 1 = 0 := by
          rw [hlast]
          rfl
        have hw : (w.onClient c fun _ => { w.client c with references := 0 }) =
            w.onClient c fun k => { k with references := 0 } := World.onClient_congr rfl
        simp only [hzero, if_true, hw]
        exact passes_last hf hmem hlast
      · have hmore : (w.client c).references - 1 ≠ 0 := by
          intro h
          exact hlast (by rw [← UInt64.sub_add_cancel (w.client c).references 1, h]; rfl)
        have hw : (w.onClient c fun _ =>
            { w.client c with references := (w.client c).references - 1 }) =
            w.onClient c fun k => { k with references := k.references - 1 } :=
          World.onClient_congr rfl
        simp only [hmore, if_false, hw]
        exact passage_drop hf hmem hlent hlast _

theorem started_step : (step w p c).started = none := by
  simp only [step]
  split
  · rfl
  · split
    · rfl
    · split
      · simp only [last, Turn.saying]
        repeat' split
        all_goals rfl
      · rfl

end Release
end SessionPool
