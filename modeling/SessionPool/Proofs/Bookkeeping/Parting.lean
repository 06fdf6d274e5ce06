import SessionPool.Proofs.Bookkeeping

/-!
# The books of parting

The steps that use clients and send them off, ping the idle ones and close a pool, as entries in the
books.
-/

namespace SessionPool

variable {bad : Mishap → Prop} {w : World} {rest : PoolKey → Stake} {p : PoolKey} {c : ClientKey}
  {x y : Point}

/-! ## One command -/

/-- A fault is reported. -/
theorem Passage.breakDown (hf : Footing w rest x) (hstake : ∀ q, y.stake q = x.stake q)
    (errand : y.errand? = none ∨ y.errand? = x.errand?) :
    Passage bad rest w x (w.onClient c Client.breakDown) y := by
  have hstate : (w.client c).breakDown.state = .disconnected →
      (w.client c).state = .disconnected := by
    unfold Client.breakDown
    split
    · exact id
    · intro h
      cases h
  refine .wear hf ⟨?_, ?_, ?_, ?_⟩ (fun h => .inl (hstate h)) hstake errand
  · exact Client.breakDown_home _
  · exact Client.breakDown_references _
  · rw [Client.breakDown_session]
    exact id
  · unfold Client.breakDown
    split <;> simp

/-- A command is handed to a client. -/
theorem Passage.send (hf : Footing w rest x) (command : Text) (hstake : ∀ q, y.stake q = x.stake q)
    (errand : y.errand? = none ∨ y.errand? = x.errand?) :
    Passage bad rest w x (w.send c command) y := by
  refine .wear hf ⟨rfl, rfl, ?_, .inl rfl⟩ (fun h => .inl h) hstake errand
  unfold Client.receive Session.receive
  split <;> simp_all

/-- A command is answered. -/
theorem Passage.received (hf : Footing w rest x) (command : Text) (a : SendAnswer)
    (hstake : ∀ q, y.stake q = x.stake q) (errand : y.errand? = none ∨ y.errand? = x.errand?) :
    Passage bad rest w x (w.received c command a).world y := by
  have hsame : Passage bad rest w x w y := .stay hf hstake errand
  cases a with
  | reply r =>
    simp only [World.received]
    split
    · exact .breakDown hf hstake errand
    · exact hsame
  | lost reason => exact .breakDown hf hstake errand
  | failed reason => exact hsame

/-- A ping is answered. -/
theorem Passage.pinged (hf : Footing w rest x) (a : SendAnswer)
    (hstake : ∀ q, y.stake q = x.stake q) (errand : y.errand? = none ∨ y.errand? = x.errand?) :
    Passage bad rest w x (w.pinged c a).world y := by
  have hgot : Passage bad rest w x (w.received c pingCommand a).world x :=
    .received hf pingCommand a (fun _ => rfl) (.inr rfl)
  simp only [World.pinged]
  split
  · split
    · exact .received hf pingCommand a hstake errand
    · exact hgot.trans (.breakDown (hgot.footing hf) hstake errand)
  · exact .received hf pingCommand a hstake errand

namespace Exchange

variable {command : Text} {ping : Bool}

/-- A command is about to be sent. -/
theorem passes_step (hf : Footing w rest (.exchange c command ping false)) :
    (step w c command ping).Passes bad rest w (.exchange c command ping false) :=
  .send hf command (fun _ => rfl) (.inl rfl)

/-- A command has been answered. -/
theorem passes_answered (hf : Footing w rest (.exchange c command ping true)) (a : SendAnswer) :
    (answered w c command ping a).Passes bad rest w (.exchange c command ping true) := by
  simp only [answered]
  cases ping with
  | true => exact .pinged hf a (fun _ => rfl) (.inl rfl)
  | false => exact .received hf command a (fun _ => rfl) (.inl rfl)

end Exchange

/-! ## Sending clients off -/

namespace Farewell

variable {rite : Rite} {waiting : Bool} {others : List ClientKey} {next : Afterwards}

/-- After the last client has been sent off, a call holds what it held before. -/
theorem stake_after (q : PoolKey) :
    (after next).stake q = (Point.farewell rite waiting [] next).stake q := by
  cases next <;> cases rite <;> rfl

theorem errand_after :
    (after next).errand? = none ∨
      (after next).errand? = (Point.farewell rite waiting [] next).errand? := by
  cases next with
  | finish o => exact .inl rfl
  | destroy cs o => exact .inl rfl
  | markClosed p cs => exact .inr rfl

theorem errand_farewell {todo : List ClientKey} {rite' : Rite} {waiting' : Bool}
    {todo' : List ClientKey} :
    (Point.farewell rite waiting todo next).errand? =
      (Point.farewell rite' waiting' todo' next).errand? := by
  cases next <;> rfl

/-- Who destroys clients holds nothing of them. -/
theorem stake_destroy {waiting' : Bool} {todo todo' : List ClientKey} (q : PoolKey) :
    (Point.farewell .destroy waiting' todo' next).stake q =
      (Point.farewell .destroy waiting todo next).stake q := by
  cases next <;> rfl

/-- A client that is not connected any more has been sent off. -/
theorem passage_part (hf : Footing w rest (.farewell rite waiting (c :: others) next))
    (gone : (w.client c).session.connected = false ∨ bad (.failure c)) :
    Passage bad rest w (.farewell rite waiting (c :: others) next) w
      (.farewell rite false others next) := by
  have hgone : ∀ q s, ((w.books q s).client c).session.connected = false ∨ bad (.failure c) := by
    intro q s
    by_cases hc : c ∈ w.own q
    · rwa [World.books_client _ hc]
    · exact .inl (by simp [World.books, hc]; rfl)
  cases rite with
  | destroy => exact .stay hf stake_destroy (.inr errand_farewell)
  | disconnect =>
    cases next with
    | finish o => exact .stay hf (fun _ => rfl) (.inl rfl)
    | destroy cs o =>
      have hx : ∀ q, (Point.farewell .disconnect waiting (c :: others) (.destroy cs o)).stake q =
          { discards := {c} } + { discards := others } := by
        intro q
        simp only [Point.stake]
        ext1 <;> simp [Multiset.singleton_add]
      have hy : ∀ q, (Point.farewell .disconnect false others (.destroy cs o)).stake q =
          { discards := others } := fun _ => rfl
      refine ⟨fun q => ?_, .inl rfl, fun d hd => ?_, rfl, le_rfl⟩
      · rw [hx, hy, add_assoc]
        by_cases hc : c ∈ w.own q
        · rw [World.books_discarded _ hc]
          exact .single (.part (hgone q _))
        · rw [World.books_foreign_singleton _ hc]
      · refine hf.made 0 d (Multiset.mem_add.mpr (.inl ?_))
        rw [hx]
        exact Multiset.mem_add.mpr (.inr hd)
    | markClosed p cs =>
      have hx : ∀ q, (Point.farewell .disconnect waiting (c :: others) (.markClosed p cs)).stake q =
          if p = q then { shutting := {c} } + { shutters := 1, shutting := others } else 0 := by
        intro q
        simp only [Point.stake]
        congr 1
      have hy : ∀ q, (Point.farewell .disconnect false others (.markClosed p cs)).stake q =
          if p = q then { shutters := 1, shutting := others } else 0 := fun _ => rfl
      refine .of_pool p (.single ?_) ?_ (.inr rfl) (List.forall_mem_nil _) rfl le_rfl
      · rw [hx, hy, if_pos rfl, if_pos rfl, add_assoc,
          World.books_hold_of_eq { shutting := {c} } _ rfl]
        exact .shut (hgone p _)
      · intro q hq
        rw [hx, hy, if_neg (Ne.symm hq), if_neg (Ne.symm hq)]

/-- A client is sent off and is not connected any more. -/
theorem passage_depart {f : Client → Client}
    (hf : Footing w rest (.farewell rite waiting (c :: others) next))
    (worn : (w.client c).Worn (f (w.client c)))
    (gone : (f (w.client c)).session.connected = false ∨ bad (.failure c)) :
    Passage bad rest w (.farewell rite waiting (c :: others) next) (w.onClient c f)
      (.farewell rite false others next) := by
  have h : Passage bad rest w (.farewell rite waiting (c :: others) next) (w.onClient c f)
      (.farewell rite waiting (c :: others) next) :=
    .wear hf worn (fun _ => .inr gone) (fun _ => rfl) (.inr rfl)
  refine h.trans (passage_part (h.footing hf) (gone.imp_left fun hgone => ?_))
  by_cases hc : c < w.clients.length
  · rwa [World.client_onClient w hc]
  · simp [World.client, World.onClient, List.getElem?_eq_none (Nat.le_of_not_lt hc)]
    rfl

theorem worn_depart (k : Client) : k.Worn (depart rite k) := by
  cases rite <;> exact ⟨rfl, rfl, id, .inr (.inr rfl)⟩

/-- The next client is sent off. -/
theorem passes_step {todo : List ClientKey}
    (hf : Footing w rest (.farewell rite waiting todo next)) :
    (step w rite todo next).Passes bad rest w (.farewell rite waiting todo next) := by
  cases todo with
  | nil => exact .stay hf stake_after errand_after
  | cons c others =>
    simp only [step]
    split
    · next h =>
      obtain ⟨rfl, hgone⟩ := h
      exact .wear hf (worn_depart _) (fun _ => .inl hgone) stake_destroy (.inr errand_farewell)
    · split
      · refine .wear hf ⟨rfl, rfl, id, .inl rfl⟩ (fun h => .inl h) ?_ (.inr errand_farewell)
        intro q
        cases rite <;> cases next <;> rfl
      · next hgone =>
        rw [Bool.not_eq_true] at hgone
        refine passage_depart hf (worn_depart _) (.inl ?_)
        cases rite <;> exact hgone

theorem started_step {todo : List ClientKey} : (step w rite todo next).started = none := by
  cases todo with
  | nil => rfl
  | cons c others =>
    simp only [step]
    repeat' split
    all_goals rfl

/-- The window of a client's disconnection is over. -/
theorem passes_answered {a : DisconnectAnswer}
    (hf : Footing w rest (.farewell rite true (c :: others) next))
    (hbad : ∀ reason, a = .failed reason → bad (.failure c)) :
    (answered w rite c others next a).Passes bad rest w
      (.farewell rite true (c :: others) next) := by
  cases a with
  | done =>
    refine passage_depart hf ⟨?_, ?_, ?_, ?_⟩ (.inl ?_)
    all_goals cases rite <;> simp [depart]
  | failed reason => exact passage_depart hf (worn_depart _) (.inr (hbad reason rfl))

end Farewell

/-! ## Pinging the idle clients -/

namespace KeepAlive

theorem stake_draining (q : PoolKey) : (Point.keepAlive p .draining).stake q = 0 := by
  simp only [Point.stake]
  split <;> rfl

/-- The idle clients are taken out. -/
theorem passes_drain (hf : Footing w rest (.keepAlive p .draining)) :
    (drain w p).Passes bad rest w (.keepAlive p .draining) := by
  have hx : ∀ q, (Point.keepAlive p .draining).stake q = 0 := stake_draining
  have hy : ∀ q, (Point.keepAlive p (.pinging false [] (w.pool p).idle none)).stake q =
      if p = q then { drained := (w.pool p).idle } else 0 := fun _ => rfl
  simp only [drain]
  split
  · exact .stay hf (fun q => (hx q).symm) (.inl rfl)
  · next hc =>
    rw [Bool.not_eq_true] at hc
    by_cases hp : p < w.pools.length
    · refine .of_pool p (.single ?_) ?_ (.inl rfl) (List.forall_mem_nil _) (by simp) (by simp)
      · rw [hx, zero_add, hy, if_pos rfl, World.books_hold_of_eq _ _ rfl, World.books_onPool _ hp]
        exact .drain hc
      · intro q hq
        rw [hx, hy, if_neg (Ne.symm hq), World.books_onPool_of_ne _ hq]
    · -- A pool that does not exist has nothing that could be taken out.
      have hw : w.onPool p Pool.drain = w := by
        simp [World.onPool, List.modify_eq_self (Nat.le_of_not_lt hp)]
      have hidle : (w.pool p).idle = [] := by
        simp [World.pool, List.getElem?_eq_none (Nat.le_of_not_lt hp)]
        rfl
      refine .of_same hf (fun q s => by rw [hw]) (fun q => ?_) (.inl rfl) (by simp) (by simp)
      rw [hx, hy, hidle]
      split <;> rfl

variable {waiting : Bool} {pinged others : List ClientKey} {failure : Option Fault}

/-- The next client is pinged. -/
theorem passes_ping
    (hf : Footing w rest (.keepAlive p (.pinging false pinged (c :: others) failure))) :
    (ping w p pinged c others failure).Passes bad rest w
      (.keepAlive p (.pinging false pinged (c :: others) failure)) :=
  .send hf pingCommand (fun _ => rfl) (.inl rfl)

/-- A ping has been answered. -/
theorem passes_answered (a : SendAnswer)
    (hf : Footing w rest (.keepAlive p (.pinging true pinged (c :: others) failure))) :
    (answered w p pinged c others failure a).Passes bad rest w
      (.keepAlive p (.pinging true pinged (c :: others) failure)) := by
  have hstake : ∀ failure' q,
      (Point.keepAlive p (.pinging false (pinged ++ [c]) others failure')).stake q =
      (Point.keepAlive p (.pinging true pinged (c :: others) failure)).stake q := by
    intro failure' q
    simp [Point.stake, KeepAlivePoint.drained]
  have hgot : Passage bad rest w (.keepAlive p (.pinging true pinged (c :: others) failure))
      (w.pinged c a).world (.keepAlive p (.pinging true pinged (c :: others) failure)) :=
    .pinged hf a (fun _ => rfl) (.inr rfl)
  simp only [answered]
  split
  · exact .pinged hf a (hstake _) (.inl rfl)
  · exact hgot.trans (.breakDown (hgot.footing hf) (hstake _) (.inl rfl))

/-! ### The clients that have been pinged -/

/-- Who goes back does not change who else does. -/
theorem isDiscarded_settle (hp : p < w.pools.length) (d : ClientKey) :
    isDiscarded (settle w p c) p d = isDiscarded w p d := by
  unfold isDiscarded settle
  rw [World.client_onPool, World.pool_onPool w hp]
  split <;> rfl

/-- One client goes back, or leaves and is discarded. -/
theorem entry_settle (hp : p < w.pools.length) (hc : c ∈ w.own p) (s : Stake) :
    Books.Entry bad (w.books p ({ drained := {c} } + s))
      ((settle w p c).books p
        ((if isDiscarded w p c then { discards := {c} } else 0) + s)) := by
  have hclient : (w.books p s).client c = w.client c := World.books_client _ hc
  have hw : ∀ f, c ∈ (w.onPool p f).own p := fun _ => hc
  rw [World.books_hold_of_eq _ _ rfl]
  unfold settle
  split
  · next h =>
    rw [World.books_discarded _ (hw _), World.books_onPool _ hp]
    refine .remove ?_
    rw [hclient]
    simpa [isDiscarded] using h
  · next h =>
    rw [zero_add, World.books_onPool _ hp]
    simp only [isDiscarded, Bool.or_eq_true, not_or, Bool.not_eq_true] at h
    exact .restore h.2 (hclient ▸ h.1)

/-- The clients that have been pinged go back one after the other. -/
theorem entries_restore (ds : List ClientKey) (hp : p < w.pools.length)
    (hown : ∀ d ∈ ds, d ∈ w.own p) (s : Stake) :
    Books.Entries bad (w.books p ({ drained := ds } + s))
      ((ds.foldl (fun w c => settle w p c) w).books p
        ({ discards := ds.filter fun d => isDiscarded w p d } + s)) := by
  induction ds generalizing w s with
  | nil => exact .refl
  | cons d ds ih =>
    have hstep := @entry_settle bad w p d hp (hown d List.mem_cons_self) ({ drained := ds } + s)
    have hrest := ih (w := settle w p d) (by simpa [settle] using hp)
      (fun e he => hown e (List.mem_cons_of_mem d he))
      ((if isDiscarded w p d then { discards := {d} } else 0) + s)
    have hbefore : ({ drained := (d :: ds : List ClientKey) } + s : Stake) =
        { drained := {d} } + ({ drained := ds } + s) := by
      ext1 <;> simp [← Multiset.cons_coe]
    have hbetween : ((if isDiscarded w p d then { discards := {d} } else 0) +
        ({ drained := ds } + s) : Stake) =
        { drained := ds } + ((if isDiscarded w p d then { discards := {d} } else 0) + s) :=
      add_left_comm _ _ _
    have hafter : ({ discards := ds.filter fun e => isDiscarded w p e } +
        ((if isDiscarded w p d then { discards := {d} } else 0) + s) : Stake) =
        { discards := (d :: ds).filter fun e => isDiscarded w p e } + s := by
      rw [List.filter_cons]
      split <;> ext1 <;> simp [← Multiset.cons_coe]
    simp only [isDiscarded_settle hp] at hrest
    rw [hbetween] at hstep
    rw [hafter] at hrest
    rw [hbefore, List.foldl_cons]
    exact .head hstep hrest

/-- Nothing but the record of the pool changes when clients go back. -/
theorem foldl_settle (ds : List ClientKey) (w : World) :
    (ds.foldl (fun w c => settle w p c) w).pools.length = w.pools.length ∧
      (ds.foldl (fun w c => settle w p c) w).clients = w.clients ∧
      ∀ q, q ≠ p → ∀ s, (ds.foldl (fun w c => settle w p c) w).books q s = w.books q s := by
  induction ds generalizing w with
  | nil => exact ⟨rfl, rfl, fun _ _ _ => rfl⟩
  | cons d ds ih =>
    obtain ⟨hpools, hclients, hbooks⟩ := ih (settle w p d)
    refine ⟨hpools.trans (by simp [settle]), hclients, fun q hq s => ?_⟩
    exact (hbooks q hq s).trans (World.books_onPool_of_ne s hq _)

/-- All clients that have been pinged go back, or leave. -/
theorem passes_restore (hf : Footing w rest (.keepAlive p (.pinging waiting pinged [] failure))) :
    (restore w p pinged failure).Passes bad rest w
      (.keepAlive p (.pinging waiting pinged [] failure)) := by
  have hx : ∀ q, (Point.keepAlive p (.pinging waiting pinged [] failure)).stake q =
      if p = q then { drained := pinged } else 0 := by
    intro q
    simp [Point.stake, KeepAlivePoint.drained]
  have hy : ∀ q, (restore w p pinged failure).point.stake q =
      { discards := pinged.filter fun d => isDiscarded w p d } := fun _ => rfl
  have hmem : ∀ d ∈ pinged, d ∈ (w.pool p).members := by
    intro d hd
    refine (hf.seated p).mem_of_mem_free (Multiset.mem_add.mpr (.inr ?_))
    simp [World.books, hx, hd]
  have hown : ∀ d ∈ pinged, d ∈ w.own p := fun d hd => (hf.seated p).mem_own_of_mem (hmem d hd)
  obtain ⟨hpools, hclients, hbooks⟩ := foldl_settle (p := p) pinged w
  refine .of_pool p ?_ ?_ (.inl rfl) ?_ hpools (congrArg List.length hclients).ge
  · rw [hx, if_pos rfl, hy]
    cases pinged with
    | nil => exact .refl
    | cons d ds =>
      exact entries_restore _ (World.lt_length_of_mem (hmem d List.mem_cons_self)) hown _
  · intro q hq
    rw [hx, if_neg (Ne.symm hq), hy, zero_add]
    refine (hbooks q hq _).trans (World.books_foreign _ fun d hd => ?_)
    exact World.notMem_own_of_ne (hown d (List.mem_of_mem_filter hd)) hq
  · intro d hd
    refine lt_of_lt_of_eq ?_ (congrArg List.length hclients).symm
    exact (World.mem_own.mp (hown d (List.mem_of_mem_filter hd))).1

/-- Every step of a call that pings. -/
theorem passes_step {s : KeepAlivePoint} {turn : Turn} (hf : Footing w rest (.keepAlive p s))
    (h : step w p s = some turn) : turn.Passes bad rest w (.keepAlive p s) := by
  match s, h with
  | .draining, h => exact Option.some.inj h ▸ passes_drain hf
  | .pinging false pinged (c :: others) failure, h => exact Option.some.inj h ▸ passes_ping hf
  | .pinging false pinged [] failure, h => exact Option.some.inj h ▸ passes_restore hf
  | .pinging true pinged [] failure, h => exact Option.some.inj h ▸ passes_restore hf

theorem started_step {s : KeepAlivePoint} {turn : Turn} (h : step w p s = some turn) :
    turn.started = none := by
  match s, h with
  | .draining, h =>
    obtain rfl := Option.some.inj h
    simp only [drain]
    split <;> rfl
  | .pinging false pinged (c :: others) failure, h => exact Option.some.inj h ▸ rfl
  | .pinging false pinged [] failure, h => exact Option.some.inj h ▸ rfl
  | .pinging true pinged [] failure, h => exact Option.some.inj h ▸ rfl

end KeepAlive

/-! ## Closing a pool -/

namespace Close

variable {shut : List ClientKey} {woken : Bool}

/-- A call that waits until nothing is outstanding. -/
theorem passes_drain (hf : Footing w rest (.close p (.draining woken))) :
    (drain w p).Passes bad rest w (.close p (.draining woken)) := by
  obtain ⟨hp, -⟩ := hf.used p rfl
  have hx : ∀ q, (Point.close p (.draining woken)).stake q =
      if p = q then { drainers := 1 } else 0 := fun _ => rfl
  have hy : ∀ q, (takeAll w p).point.stake q =
      if p = q then { shutters := 1, shutting := (w.pool p).members } else 0 := fun _ => rfl
  simp only [drain]
  split
  · next hout =>
    refine .of_pool p (.single ?_) ?_ (.inr rfl) (List.forall_mem_nil _) ?_ ?_
    · rw [hx, hy, if_pos rfl, if_pos rfl, World.books_hold_of_eq _ _ rfl,
        World.books_hold_of_eq _ _ rfl, takeAll, World.books_onPool _ hp]
      exact .takeAll hout
    · intro q hq
      rw [hx, hy, if_neg (Ne.symm hq), if_neg (Ne.symm hq), takeAll, World.books_onPool_of_ne _ hq]
    · simp [takeAll]
    · simp [takeAll]
  · exact .stay hf (fun _ => rfl) (.inr rfl)

/-- A call that waits until another has closed the pool. -/
theorem passes_attend {s : ClosePoint} (hs : s.stake = 0) (hf : Footing w rest (.close p s)) :
    (attend w p).Passes bad rest w (.close p s) := by
  have hx : ∀ q, (Point.close p s).stake q = 0 := by
    intro q
    simp only [Point.stake, hs]
    split <;> rfl
  have hy : ∀ q, (Point.close p (.attending false)).stake q = 0 := by
    intro q
    simp only [Point.stake, ClosePoint.stake]
    split <;> rfl
  simp only [attend]
  split
  · exact .stay hf (fun q => (hx q).symm) (.inl rfl)
  · exact .stay hf (fun q => (hy q).trans (hx q).symm) (.inr rfl)

theorem stake_entering (q : PoolKey) : (Point.close p .entering).stake q = 0 := by
  simp only [Point.stake, ClosePoint.stake]
  split <;> rfl

/-- A call begins to close the pool. -/
theorem passage_begin (hf : Footing w rest (.close p .entering))
    (hopen : (w.pool p).closing = false) :
    Passage bad rest w (.close p .entering)
      (w.onPool p fun pool => { pool with closing := true }) (.close p (.draining true)) := by
  obtain ⟨hp, hbudget⟩ := hf.used p rfl
  have hx : ∀ q, (Point.close p .entering).stake q = 0 := stake_entering
  have hy : ∀ q, (Point.close p (.draining true)).stake q =
      if p = q then { drainers := 1 } else 0 := fun _ => rfl
  refine .of_pool p (.single ?_) ?_ (.inr rfl) (List.forall_mem_nil _) (by simp) (by simp)
  · rw [hx, zero_add, hy, if_pos rfl, World.books_hold_of_eq _ _ rfl, World.books_onPool _ hp]
    exact .beginClosing hbudget hopen
  · intro q hq
    rw [hx, hy, if_neg (Ne.symm hq), World.books_onPool_of_ne _ hq]

/-- A call that enters the closing of a pool. -/
theorem passes_enter (hf : Footing w rest (.close p .entering)) :
    (enter w p).Passes bad rest w (.close p .entering) := by
  simp only [enter]
  split
  · exact passes_attend rfl hf
  · next hc =>
    rw [Bool.not_eq_true] at hc
    have h : Passage bad rest w (.close p .entering) _ _ := passage_begin hf hc
    exact h.trans (passes_drain (h.footing hf))

theorem stake_announcing (q : PoolKey) : (Point.close p (.announcing shut)).stake q = 0 := by
  simp only [Point.stake, ClosePoint.stake]
  split <;> rfl

/-- A call that has taken all clients out marks the pool as closed. -/
theorem passes_markClosed (hf : Footing w rest (.close p (.sealing shut))) :
    (markClosed w p shut).Passes bad rest w (.close p (.sealing shut)) := by
  obtain ⟨hp, -⟩ := hf.used p rfl
  have hx : ∀ q, (Point.close p (.sealing shut)).stake q =
      if p = q then { shutters := 1 } else 0 := fun _ => rfl
  have hy : ∀ q, (markClosed w p shut).point.stake q = 0 := stake_announcing
  refine .of_pool p (.single ?_) ?_ (.inr rfl) (List.forall_mem_nil _) ?_ ?_
  · rw [hx, if_pos rfl, hy, zero_add, World.books_hold_of_eq _ _ rfl]
    refine Eq.subst (World.books_onPool _ hp _).symm ?_
    exact .markClosed
  · intro q hq
    rw [hx, if_neg (Ne.symm hq), hy]
    exact World.books_onPool_of_ne _ hq _
  · simp [markClosed, Turn.goto]
  · simp [markClosed, Turn.goto]

/-- Every step of a call that closes a pool. -/
theorem passes_step {s : ClosePoint} {turn : Turn} (hf : Footing w rest (.close p s))
    (h : step w p s = some turn) : turn.Passes bad rest w (.close p s) := by
  match s, h with
  | .entering, h => exact Option.some.inj h ▸ passes_enter hf
  | .draining true, h => exact Option.some.inj h ▸ passes_drain hf
  | .attending true, h => exact Option.some.inj h ▸ passes_attend rfl hf
  | .sealing shut, h => exact Option.some.inj h ▸ passes_markClosed hf
  | .announcing shut, h =>
    exact Option.some.inj h ▸ .stay hf (fun q => (stake_announcing q).symm) (.inl rfl)

theorem started_drain : (drain w p).started = none := by
  simp only [drain]
  split <;> rfl

theorem started_attend : (attend w p).started = none := by
  simp only [attend]
  split <;> rfl

theorem started_step {s : ClosePoint} {turn : Turn} (h : step w p s = some turn) :
    turn.started = none := by
  match s, h with
  | .entering, h =>
    obtain rfl := Option.some.inj h
    simp only [enter]
    split
    · exact started_attend
    · exact started_drain
  | .draining true, h => exact Option.some.inj h ▸ started_drain
  | .attending true, h => exact Option.some.inj h ▸ started_attend
  | .sealing shut, h => exact Option.some.inj h ▸ rfl
  | .announcing shut, h => exact Option.some.inj h ▸ rfl

end Close

/-! ## Heartbeats and results -/

/-- A step that has to do with leases and heartbeats only. -/
structure Turn.Aside (w : World) (t : Turn) : Prop where
  pools : t.world.pools = w.pools
  clients : t.world.clients = w.clients
  stake : ∀ q, t.point.stake q = 0
  errand : t.point.errand? = none

/-- Leases and heartbeats are in no book. -/
theorem Turn.Aside.passes {t : Turn} (h : t.Aside w) (hf : Footing w rest x)
    (hx : ∀ q, x.stake q = 0) : t.Passes bad rest w x :=
  .of_same hf (fun _ _ => World.books_congr h.pools h.clients)
    (fun q => (h.stake q).trans (hx q).symm) (.inl h.errand) (congrArg _ h.pools)
    (congrArg _ h.clients)

namespace Heartbeat

variable {h : HeartbeatKey} {k : CallKey} {ended : CallKey → Bool}

theorem aside_quit : (quit w h).Aside w := ⟨rfl, rfl, fun _ => rfl, rfl⟩

theorem aside_rest : (Heartbeat.rest w h).Aside w := by
  unfold Heartbeat.rest
  split
  · exact aside_quit
  · exact ⟨rfl, rfl, fun _ => rfl, rfl⟩

/-- A round is complete. -/
theorem aside_endRound (o : Outcome) : (endRound w h o).Aside w := by
  set w' := w.onHeartbeat h fun b => { b with rounds := b.rounds + 1 }
  have hquit := aside_quit (w := w') (h := h)
  have hrest := aside_rest (w := w') (h := h)
  unfold endRound
  split
  · exact ⟨hquit.pools, hquit.clients, hquit.stake, hquit.errand⟩
  all_goals exact ⟨hrest.pools, hrest.clients, hrest.stake, hrest.errand⟩

/-- Every step of a call that has to do with a heartbeat. -/
theorem aside_step {s : HeartbeatPoint} {turn : Turn} (ht : step w h k ended s = some turn) :
    turn.Aside w := by
  cases s with
  | starting =>
    refine Option.some.inj ht ▸ ?_
    simp only [start]
    split <;> exact ⟨rfl, rfl, fun _ => rfl, rfl⟩
  | restarting old =>
    simp only [step] at ht
    split at ht
    · refine Option.some.inj ht ▸ ?_
      simp only [restart]
      split <;> exact ⟨rfl, rfl, fun _ => rfl, rfl⟩
    · cases ht
  | stopping => exact Option.some.inj ht ▸ ⟨rfl, rfl, fun _ => rfl, rfl⟩
  | reaping =>
    simp only [step, reap] at ht
    split at ht
    · exact Option.some.inj ht ▸ ⟨rfl, rfl, fun _ => rfl, rfl⟩
    · split at ht
      · exact Option.some.inj ht ▸ ⟨rfl, rfl, fun _ => rfl, rfl⟩
      · cases ht
  | resting =>
    simp only [step] at ht
    split at ht
    · exact Option.some.inj ht ▸ aside_quit
    · cases ht

theorem started_endRound (o : Outcome) : (endRound w h o).started = none := by
  simp only [endRound, Heartbeat.rest, Turn.saying]
  repeat' split
  all_goals rfl

/-- Only a heartbeat that is started again starts another call. -/
theorem started_step {s : HeartbeatPoint} {turn : Turn} (ht : step w h k ended s = some turn) :
    ∀ y ∈ turn.started, ∃ h, y = .heartbeat h .resting := by
  cases s with
  | starting =>
    refine Option.some.inj ht ▸ Turn.forall_started ?_
    simp only [start]
    split <;> rfl
  | restarting old =>
    simp only [step] at ht
    split at ht
    · obtain rfl := Option.some.inj ht
      simp only [restart]
      split
      · exact Turn.forall_started rfl
      · rintro y ⟨⟩
        exact ⟨h, rfl⟩
    · cases ht
  | stopping => exact Option.some.inj ht ▸ Turn.forall_started rfl
  | reaping =>
    simp only [step, reap] at ht
    split at ht
    · exact Option.some.inj ht ▸ Turn.forall_started rfl
    · split at ht
      · exact Option.some.inj ht ▸ Turn.forall_started rfl
      · cases ht
  | resting =>
    simp only [step] at ht
    split at ht
    · exact Option.some.inj ht ▸ Turn.forall_started rfl
    · cases ht

end Heartbeat

namespace Machine

/-- What is done with the result of a call. -/
theorem aside_conclude {o : Outcome} {s : Sequel} {turn : Turn}
    (h : conclude w o s = some turn) : turn.Aside w := by
  cases s with
  | none => cases h
  | takeOver target source => exact Option.some.inj h ▸ ⟨rfl, rfl, fun _ => rfl, rfl⟩
  | forgive => exact Option.some.inj h ▸ ⟨rfl, rfl, fun _ => rfl, rfl⟩
  | beat b => exact Option.some.inj h ▸ Heartbeat.aside_endRound o

theorem started_conclude {o : Outcome} {s : Sequel} {turn : Turn}
    (h : conclude w o s = some turn) : turn.started = none := by
  cases s with
  | none => cases h
  | beat b => exact Option.some.inj h ▸ Heartbeat.started_endRound o
  | _ => exact Option.some.inj h ▸ rfl

end Machine
end SessionPool
