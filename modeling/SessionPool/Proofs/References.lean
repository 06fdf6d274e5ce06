import SessionPool.Proofs.Soundness

/-!
# How many references there can be

A reference is made by a call: by the one that borrows the client, or by one that asks for another
reference.  A client of a pool therefore never has more references than calls have acted, and its
count of references cannot wrap around before more calls have begun than a word can count
(`Machine.Reachable.withoutOverflow`).
-/

namespace SessionPool

/-! ## What a step does to references -/

namespace World

variable {w w' w'' : World} {c d : ClientKey} {f : Client → Client}

/-- The references to a client of a pool.  Clients that were made by hand have none that count. -/
def held (w : World) (c : ClientKey) : ℕ :=
  if (w.client c).home.isSome then (w.client c).references.toNat else 0

/-- Every client is left with no more references than it had, or with one. -/
def Spares (w w' : World) : Prop := ∀ c, w'.held c ≤ max (w.held c) 1

theorem Spares.refl (w : World) : w.Spares w := fun _ => Nat.le_max_left _ _

theorem Spares.trans (h : w.Spares w') (h' : w'.Spares w'') : w.Spares w'' := by
  intro c
  have h₁ := h c
  have h₂ := h' c
  omega

/-- References are kept with clients. -/
theorem Spares.of_clients (h : w'.clients = w.clients) : w.Spares w' := by
  intro c
  simp only [held, client, h]
  exact Nat.le_max_left _ _

/-- A change of one client changes the references of no other. -/
theorem held_onClient (home : (f (w.client c)).home = (w.client c).home) (d : ClientKey) :
    (w.onClient c f).held d = w.held d ∨
      (w.client c).home.isSome ∧ d = c ∧
        (w.onClient c f).held d = (f (w.client c)).references.toNat := by
  by_cases hd : d = c
  · subst hd
    by_cases hlt : d < w.clients.length
    · by_cases hhome : (w.client d).home.isSome
      · exact .inr ⟨hhome, rfl, by rw [held, client_onClient w hlt, home, if_pos hhome]⟩
      · exact .inl (by rw [held, held, client_onClient w hlt, home, if_neg hhome, if_neg hhome])
    · have hsame : w.onClient d f = w := by
        simp [onClient, List.modify_eq_self (Nat.le_of_not_lt hlt)]
      exact .inl (by rw [hsame])
  · exact .inl (by rw [held, held, client_onClient_of_ne w hd])

/-- A client is changed that is left with no more references than it had, or with one. -/
theorem Spares.onClient (home : (f (w.client c)).home = (w.client c).home)
    (references : (f (w.client c)).references.toNat ≤ max (w.client c).references.toNat 1) :
    w.Spares (w.onClient c f) := by
  intro d
  rcases held_onClient home d with h | ⟨hhome, rfl, h⟩
  · rw [h]
    exact Nat.le_max_left _ _
  · rw [h, held, if_pos hhome]
    exact references

theorem held_onClient_of_eq (home : (f (w.client c)).home = (w.client c).home)
    (references : (f (w.client c)).references = (w.client c).references) (d : ClientKey) :
    (w.onClient c f).held d = w.held d := by
  rcases held_onClient home d with h | ⟨hhome, rfl, h⟩
  · exact h
  · rw [h, references, held, if_pos hhome]

/-- A client is changed that keeps its references. -/
theorem Spares.onClient_of_eq (home : (f (w.client c)).home = (w.client c).home)
    (references : (f (w.client c)).references = (w.client c).references) :
    w.Spares (w.onClient c f) := by
  intro d
  rw [held_onClient_of_eq home references]
  exact Nat.le_max_left _ _

theorem held_breakDown (d : ClientKey) : (w.onClient c Client.breakDown).held d = w.held d := by
  exact held_onClient_of_eq (Client.breakDown_home _) (Client.breakDown_references _) d

theorem Spares.breakDown : w.Spares (w.onClient c Client.breakDown) := by
  intro d
  rw [held_breakDown]
  exact Nat.le_max_left _ _

/-- A new client has no references. -/
theorem held_addClient {k : Client} (h : k.references = 0) (d : ClientKey) :
    (w.addClient k).held d = w.held d := by
  simp only [held, client_addClient]
  by_cases hd : d = w.clients.length
  · have hnew : w.client d = default := by simp [client, hd]
    rw [if_pos hd, hnew, h]
    exact ite_self _
  · rw [if_neg hd]

theorem Spares.addClient {k : Client} (h : k.references = 0) : w.Spares (w.addClient k) := by
  intro d
  rw [held_addClient h]
  exact Nat.le_max_left _ _

theorem Spares.received (command : Text) (a : SendAnswer) :
    w.Spares (w.received c command a).world := by
  cases a with
  | reply r =>
    simp only [World.received]
    split
    · exact .breakDown
    · exact .refl w
  | lost reason => exact .breakDown
  | failed reason => exact .refl w

theorem Spares.pinged (a : SendAnswer) : w.Spares (w.pinged c a).world := by
  have hgot : w.Spares (w.received c pingCommand a).world := .received pingCommand a
  simp only [World.pinged]
  split
  · split
    · exact hgot
    · exact hgot.trans .breakDown
  · exact hgot

end World

/-- A call is about to add a reference. -/
def Point.shares : Point → Bool
  | .addReference _ _ _ => true
  | _ => false

theorem Point.Wakes.shares_eq {x y : Point} (h : Point.Wakes x y) : y.shares = x.shares := by
  cases h <;> rfl

/-- A step leaves every client with no more references than it had, or with one. -/
structure Turn.Spares (w : World) (t : Turn) : Prop where
  world : w.Spares t.world
  point : t.point.shares = false
  started : ∀ y ∈ t.started, y.shares = false

section Steps

variable {w w' : World} {p : PoolKey} {c : ClientKey} {t : Patience} {leased : Bool} {turn : Turn}

theorem Turn.Spares.finish (h : w.Spares w') (o : Outcome) : (Turn.finish w' o).Spares w :=
  ⟨h, rfl, Turn.forall_started rfl⟩

theorem Turn.Spares.lend (h : w.Spares w') : (Turn.lend w' p c leased).Spares w := by
  cases leased with
  | false => exact ⟨h, rfl, Turn.forall_started rfl⟩
  | true => exact ⟨h.trans (.of_clients rfl), rfl, Turn.forall_started rfl⟩

theorem Turn.Spares.saying (ns : List Notice) (h : turn.Spares w) : (turn.saying ns).Spares w :=
  ⟨h.world, h.point, h.started⟩

namespace Opening

theorem spares_answered (a : OpenAnswer) : w.Spares (answered w p a).world := by
  cases a with
  | session connected => exact .trans (.addClient rfl) (.of_clients rfl)
  | nothing => exact .refl w
  | failed reason => exact .refl w

end Opening

namespace Acquire

theorem spares_seek (h : w.Spares w') : (seek w' p t leased).Spares w := by
  simp only [seek]
  split
  · exact .finish h _
  · split
    · exact .saying _ (.lend (h.trans (.trans (.of_clients rfl)
        (.onClient rfl (Nat.le_max_right _ _)))))
    · split
      · exact ⟨h.trans (.of_clients rfl), rfl, Turn.forall_started rfl⟩
      · exact ⟨h.trans (.of_clients rfl), rfl, Turn.forall_started rfl⟩

theorem spares_step {s : AcquirePoint} (ht : step w p t leased s = some turn) :
    turn.Spares w := by
  have hrise : w.Spares (rise w p) := .of_clients rfl
  cases s with
  | seeking => exact Option.some.inj ht ▸ spares_seek (.refl w)
  | opening => cases ht
  | arrived c =>
    obtain rfl := Option.some.inj ht
    simp only [arrive]
    split
    · exact ⟨.of_clients rfl, rfl, Turn.forall_started rfl⟩
    · exact .saying _ (.lend (.trans (.of_clients rfl) (.onClient rfl (Nat.le_max_right _ _))))
  | refused f => exact Option.some.inj ht ▸ ⟨.of_clients rfl, rfl, Turn.forall_started rfl⟩
  | asleep => cases ht
  | woken =>
    obtain rfl := Option.some.inj ht
    simp only [wake]
    split
    · exact spares_seek hrise
    · exact ⟨.refl w, rfl, Turn.forall_started rfl⟩
  | expired =>
    obtain rfl := Option.some.inj ht
    simp only [expire]
    split
    · exact spares_seek hrise
    · exact ⟨hrise, rfl, Turn.forall_started rfl⟩

end Acquire

namespace Stock

theorem spares_step {left : ℕ} {s : StockPoint} (ht : step w p left s = some turn) :
    turn.Spares w := by
  cases s with
  | reserving =>
    cases left with
    | zero => exact Option.some.inj ht ▸ ⟨.refl w, rfl, Turn.forall_started rfl⟩
    | succ left => exact Option.some.inj ht ▸ ⟨.of_clients rfl, rfl, Turn.forall_started rfl⟩
  | opening => cases ht
  | arrived c =>
    refine Option.some.inj ht ▸ ⟨.trans (.onClient_of_eq ?_ ?_) (.of_clients rfl), rfl,
      Turn.forall_started rfl⟩
    all_goals rfl
  | refused f => exact Option.some.inj ht ▸ ⟨.of_clients rfl, rfl, Turn.forall_started rfl⟩

end Stock

namespace Release

theorem spares_last (h : w.Spares w') : (last w' p c).Spares w := by
  simp only [last]
  split
  · exact ⟨h.trans (.of_clients rfl), rfl, Turn.forall_started rfl⟩
  · split
    · exact ⟨h.trans (.of_clients rfl), rfl, Turn.forall_started rfl⟩
    · exact ⟨h.trans (.trans (.of_clients rfl) (.trans (.onClient_of_eq rfl rfl)
        (.of_clients rfl))), rfl, Turn.forall_started rfl⟩

theorem spares_step : (step w p c).Spares w := by
  simp only [step]
  split
  · exact .finish (.refl w) _
  · split
    · exact .finish (.refl w) _
    · next held count hdrop =>
      have hheld : w.Spares (w.onClient c fun _ => held) := by
        unfold Client.dropReference? at hdrop
        split at hdrop
        · cases hdrop
        · next hrefs =>
          obtain ⟨rfl, -⟩ := Prod.mk.inj (Option.some.inj hdrop)
          refine .onClient rfl ((Nat.le_of_eq (toNat_sub_one ?_)).trans ?_)
          · exact Nat.pos_of_ne_zero fun hz => hrefs (UInt64.toNat_inj.mp hz)
          · omega
      split
      · exact .saying _ (spares_last hheld)
      · exact .saying _ (.finish hheld _)

end Release

namespace KeepAlive

theorem spares_step {s : KeepAlivePoint} (ht : step w p s = some turn) : turn.Spares w := by
  match s, ht with
  | .draining, ht =>
    obtain rfl := Option.some.inj ht
    simp only [drain]
    split
    · exact .finish (.refl w) _
    · exact ⟨.of_clients rfl, rfl, Turn.forall_started rfl⟩
  | .pinging false pinged (d :: others) failure, ht =>
    exact Option.some.inj ht ▸ ⟨.onClient_of_eq rfl rfl, rfl, Turn.forall_started rfl⟩
  | .pinging true pinged [] failure, ht =>
    exact Option.some.inj ht ▸ ⟨.of_clients (foldl_settle pinged w).2.1, rfl,
      Turn.forall_started rfl⟩
  | .pinging false pinged [] failure, ht =>
    exact Option.some.inj ht ▸ ⟨.of_clients (foldl_settle pinged w).2.1, rfl,
      Turn.forall_started rfl⟩

theorem spares_answered {pinged others : List ClientKey} {failure : Option Fault}
    (a : SendAnswer) : (answered w p pinged c others failure a).Spares w := by
  have hgot : w.Spares (w.pinged c a).world := .pinged a
  simp only [answered]
  split
  · exact ⟨hgot, rfl, Turn.forall_started rfl⟩
  · exact ⟨hgot.trans .breakDown, rfl, Turn.forall_started rfl⟩

end KeepAlive

namespace Close

theorem spares_drain (h : w.Spares w') : (drain w' p).Spares w := by
  simp only [drain]
  split
  · exact ⟨h.trans (.of_clients rfl), rfl, Turn.forall_started rfl⟩
  · exact ⟨h, rfl, Turn.forall_started rfl⟩

theorem spares_attend : (attend w p).Spares w := by
  simp only [attend]
  split
  · exact .finish (.refl w) _
  · exact ⟨.refl w, rfl, Turn.forall_started rfl⟩

theorem spares_step {s : ClosePoint} (ht : step w p s = some turn) : turn.Spares w := by
  match s, ht with
  | .entering, ht =>
    obtain rfl := Option.some.inj ht
    simp only [enter]
    split
    · exact spares_attend
    · have hdrain : (drain (w.onPool p fun pool => { pool with closing := true }) p).Spares w :=
        spares_drain (.of_clients rfl)
      exact ⟨hdrain.world, hdrain.point, hdrain.started⟩
  | .draining true, ht => exact Option.some.inj ht ▸ spares_drain (.refl w)
  | .attending true, ht => exact Option.some.inj ht ▸ spares_attend
  | .sealing shut, ht => exact Option.some.inj ht ▸ ⟨.of_clients rfl, rfl, Turn.forall_started rfl⟩
  | .announcing shut, ht => exact Option.some.inj ht ▸ ⟨.refl w, rfl, Turn.forall_started rfl⟩

end Close

namespace Farewell

theorem spares_step {rite : Rite} {todo : List ClientKey} {next : Afterwards} :
    (step w rite todo next).Spares w := by
  cases todo with
  | nil => exact ⟨.refl w, by cases next <;> rfl, Turn.forall_started rfl⟩
  | cons c others =>
    have hdepart : w.Spares (w.onClient c (depart rite)) :=
      .onClient_of_eq (worn_depart _).home (worn_depart _).references
    simp only [step]
    split
    · exact ⟨hdepart, rfl, Turn.forall_started rfl⟩
    · split
      · exact ⟨.onClient_of_eq rfl rfl, rfl, Turn.forall_started rfl⟩
      · exact ⟨hdepart, rfl, Turn.forall_started rfl⟩

theorem spares_answered {rite : Rite} {others : List ClientKey} {next : Afterwards}
    (a : DisconnectAnswer) : (answered w rite c others next a).Spares w := by
  cases a with
  | done =>
    exact ⟨.onClient_of_eq (worn_depart _).home (worn_depart _).references, rfl,
      Turn.forall_started rfl⟩
  | failed reason =>
    exact ⟨.onClient_of_eq (worn_depart _).home (worn_depart _).references, rfl,
      Turn.forall_started rfl⟩

end Farewell

namespace Share

/-- Adding a reference adds one at most. -/
theorem held_step (d : ClientKey) : (step w p c leased).world.held d ≤ w.held d + 1 := by
  have hadd : (w.onClient c fun _ => (w.client c).addReference.1).held d ≤ w.held d + 1 := by
    unfold Client.addReference
    split
    · exact (World.Spares.onClient_of_eq (f := fun _ => w.client c) rfl rfl d).trans (by omega)
    · rcases World.held_onClient (w := w) (c := c) (f := fun _ =>
        { w.client c with references := (w.client c).references + 1 }) rfl d with
        h | ⟨hhome, rfl, h⟩
      · exact h.trans_le (Nat.le_succ _)
      · rw [h, World.held, if_pos hhome, UInt64.toNat_add]
        exact Nat.mod_le _ _
  simp only [step]
  split
  · exact Nat.le_succ _
  · split
    · exact Nat.le_succ _
    · split
      · exact hadd
      · cases leased with
        | false => exact hadd
        | true => exact hadd

theorem shares_step : (step w p c leased).point.shares = false := by
  simp only [step]
  repeat' split
  all_goals cases leased <;> rfl

end Share

namespace Heartbeat

variable {h : HeartbeatKey} {k : CallKey} {ended : CallKey → Bool}

theorem shares_endRound (o : Outcome) : (endRound w h o).point.shares = false := by
  simp only [endRound, Heartbeat.rest, Turn.saying]
  repeat' split
  all_goals rfl

theorem spares_step {s : HeartbeatPoint} (ht : step w h k ended s = some turn) :
    turn.Spares w := by
  refine ⟨.of_clients (aside_step ht).clients, ?_, fun y hy => ?_⟩
  · cases s with
    | starting =>
      obtain rfl := Option.some.inj ht
      simp only [start]
      split <;> rfl
    | restarting old =>
      simp only [step] at ht
      split at ht
      · obtain rfl := Option.some.inj ht
        simp only [restart]
        split <;> rfl
      · cases ht
    | stopping => exact Option.some.inj ht ▸ rfl
    | reaping =>
      simp only [step, reap] at ht
      split at ht
      · exact Option.some.inj ht ▸ rfl
      · split at ht
        · exact Option.some.inj ht ▸ rfl
        · cases ht
    | resting =>
      simp only [step] at ht
      split at ht
      · exact Option.some.inj ht ▸ rfl
      · cases ht
  · obtain ⟨b, rfl⟩ := started_step ht y hy
    rfl

end Heartbeat

end Steps

/-! ## The number of calls -/

namespace Machine

variable {m n : Machine} {k : CallKey} {call : Call} {t : Turn} {c : ClientKey}

theorem spares_conclude {w : World} {o : Outcome} {s : Sequel} (h : conclude w o s = some t) :
    t.Spares w := by
  refine ⟨.of_clients (aside_conclude h).clients, ?_, Turn.forall_started (started_conclude h)⟩
  cases s with
  | none => cases h
  | beat b => exact Option.some.inj h ▸ Heartbeat.shares_endRound o
  | _ => exact Option.some.inj h ▸ rfl

/-- A step that does not add a reference leaves every client with no more references than it had,
or with one. -/
theorem spares_turn {w : World} {fresh : CallKey} {ended : CallKey → Bool}
    (h : turn w fresh ended call = some t) (hs : call.point.shares = false) : t.Spares w := by
  obtain ⟨x, sequel, notices⟩ := call
  cases x with
  | stock p left s => exact Stock.spares_step h
  | acquire p t leased s => exact Acquire.spares_step h
  | addReference p c leased => cases hs
  | release p c leased => exact Option.some.inj h ▸ Release.spares_step
  | keepAlive p s => exact KeepAlive.spares_step h
  | close p s => exact Close.spares_step h
  | exchange c command ping waiting =>
    cases waiting with
    | false =>
      exact Option.some.inj h ▸ ⟨.onClient_of_eq rfl rfl, rfl, Turn.forall_started rfl⟩
    | true => cases h
  | farewell rite waiting todo next =>
    match waiting, todo, h with
    | false, todo, h => exact Option.some.inj h ▸ Farewell.spares_step
    | true, [], h => exact Option.some.inj h ▸ Farewell.spares_step
  | heartbeat b s => exact Heartbeat.spares_step h
  | finished o => exact spares_conclude h

/-- How many calls there are that are not about to add a reference. -/
def acts (m : Machine) : ℕ := m.calls.countP fun k => !k.point.shares

/-- No client of a pool has more references than calls have acted. -/
def Tallied (m : Machine) : Prop := ∀ c, m.world.held c ≤ m.acts

theorem countP_of_wakes {calls woken : List Call}
    (h : List.Forall₂ (fun k k' : Call => Point.Wakes k.point k'.point) calls woken) :
    (woken.countP fun k => !k.point.shares) = calls.countP fun k => !k.point.shares := by
  induction h with
  | nil => rfl
  | @cons k k' _ _ hk _ ih =>
    rw [List.countP_cons, List.countP_cons, ih, hk.shares_eq]

theorem countP_foldl_signal (pick : ℕ) (signals : List Signal) (calls : List Call) :
    ((signals.foldl (signal pick) calls).countP fun k => !k.point.shares) =
      calls.countP fun k => !k.point.shares := by
  induction signals generalizing calls with
  | nil => rfl
  | cons s signals ih => rw [List.foldl_cons, ih, countP_of_wakes (forall₂_signal pick calls s)]

/-- A call that is not about to add a reference after a change counts. -/
theorem le_countP_modify {calls : List Call} {f : Call → Call} (hk : calls[k]? = some call)
    (hf : (f call).point.shares = false) :
    max ((calls.countP fun k => !k.point.shares) + if call.point.shares then 1 else 0) 1 ≤
      (calls.modify k f).countP fun k => !k.point.shares := by
  obtain ⟨hlt, rfl⟩ := List.getElem?_eq_some_iff.mp hk
  have hcalls : calls.countP (fun k => !k.point.shares) =
      (calls.take k ++ calls[k] :: calls.drop (k + 1)).countP fun k => !k.point.shares := by
    rw [← List.drop_eq_getElem_cons hlt, List.take_append_drop]
  rw [hcalls, List.modify_eq_take_cons_drop hlt]
  simp only [List.countP_append, List.countP_cons, hf, Bool.not_false, if_true]
  cases calls[k].point.shares
  all_goals
    simp only [Bool.not_false, Bool.not_true, Bool.false_eq_true, if_true, if_false]
    omega

/-- A step of a call keeps the tally, if it adds a reference only when it is about to. -/
theorem Tallied.apply (hm : m.Tallied) (hk : m.call? k = some call)
    (hworld : ∀ c, t.world.held c ≤
      max (m.world.held c + if call.point.shares then 1 else 0) 1)
    (hpoint : t.point.shares = false) {m' : Machine} {f : Call → Call}
    (hcalls : m'.calls = m.calls.modify k f) (pick : ℕ) : (m'.apply k pick t).Tallied := by
  intro c
  have hcount := le_countP_modify (f := moved t ∘ f) hk hpoint
  have hacts : (m.calls.modify k (moved t ∘ f)).countP (fun k => !k.point.shares) ≤
      (m'.apply k pick t).acts := by
    simp only [acts, Machine.apply, hcalls, List.modify_modify_eq, List.countP_append,
      countP_foldl_signal]
    exact Nat.le_add_right _ _
  have hc : m.world.held c ≤ m.calls.countP fun k => !k.point.shares := hm c
  refine (hworld c).trans (le_trans ?_ (hcount.trans hacts))
  omega

/-- A step that adds no reference keeps the tally. -/
theorem Tallied.spare (hm : m.Tallied) (hk : m.call? k = some call)
    (hs : call.point.shares = false) (ht : t.Spares m.world) {m' : Machine} {f : Call → Call}
    (hcalls : m'.calls = m.calls.modify k f) (pick : ℕ) : (m'.apply k pick t).Tallied :=
  hm.apply hk (fun c => by simpa [hs] using (ht.world c : _ ≤ max _ _)) ht.point hcalls pick

theorem Tallied.advance (hm : m.Tallied) {pick : ℕ} (hn : m.advance k pick = some n) :
    n.Tallied := by
  simp only [Machine.advance, Option.bind_eq_bind, Option.bind_eq_some_iff, Option.some.injEq] at hn
  obtain ⟨call, hk, t, ht, rfl⟩ := hn
  by_cases hs : call.point.shares = false
  · exact hm.spare hk hs (spares_turn ht hs) rfl pick
  · obtain ⟨x, sequel, notices⟩ := call
    cases x with
    | addReference p c leased =>
      obtain rfl := Option.some.inj ht
      refine hm.apply hk (fun d => ?_) Share.shares_step rfl pick
      exact (Share.held_step d).trans (Nat.le_max_left _ _)
    | _ => exact absurd rfl hs

theorem Tallied.answer (hm : m.Tallied) {a : Answer} (hn : m.answer k a = some n) :
    n.Tallied := by
  have hcalls : m.calls = m.calls.modify k id := by simp
  simp only [Machine.answer, Option.bind_eq_bind, Option.bind_eq_some_iff] at hn
  obtain ⟨call, hk, hn⟩ := hn
  split at hn
  · next p left a hpoint =>
    exact Option.some.inj hn ▸ hm.spare hk (by rw [hpoint]; rfl)
      ⟨Opening.spares_answered a, rfl, Turn.forall_started rfl⟩ hcalls 0
  · next p t leased a hpoint =>
    exact Option.some.inj hn ▸ hm.spare hk (by rw [hpoint]; rfl)
      ⟨Opening.spares_answered a, rfl, Turn.forall_started rfl⟩ hcalls 0
  · next p pinged c others failure a hpoint =>
    exact Option.some.inj hn ▸ hm.spare hk (by rw [hpoint]; rfl)
      (KeepAlive.spares_answered a) hcalls 0
  · next c command ping a hpoint =>
    refine Option.some.inj hn ▸ hm.spare hk (by rw [hpoint]; rfl) ⟨?_, rfl,
      Turn.forall_started rfl⟩ hcalls 0
    cases ping with
    | false => exact .received command a
    | true => exact .pinged a
  · next rite c others next a hpoint =>
    exact Option.some.inj hn ▸ hm.spare hk (by rw [hpoint]; rfl)
      (Farewell.spares_answered a) hcalls 0
  · cases hn

/-- Calls that begin, and changes of the shared state that add no reference, keep the tally. -/
theorem Tallied.of_le (hm : m.Tallied) {w : World} (hworld : ∀ c, w.held c ≤ m.world.held c)
    (more : List Call) : Tallied { world := w, calls := m.calls ++ more } := by
  intro c
  refine (hworld c).trans ((hm c).trans ?_)
  simp [acts]

theorem Tallied.withWorld (hm : m.Tallied) {w : World}
    (hworld : ∀ c, w.held c ≤ m.world.held c) : Tallied { m with world := w } := by
  simpa using hm.of_le hworld []

theorem clients_enter (w : World) (o : Operation) : (o.enter w).world.clients = w.clients := by
  cases o with
  | construct connection limits factory dialect =>
    simp only [Operation.enter, Operation.make]
    repeat' split
    all_goals rfl
  | shareLease l =>
    simp only [Operation.enter]
    split <;> rfl
  | assignLease target source =>
    simp only [Operation.enter, Operation.giveUp]
    repeat' split
    all_goals rfl
  | releaseLease l | dropLease l =>
    simp only [Operation.enter, Operation.giveUp]
    split <;> rfl
  | _ => rfl

theorem Tallied.tick (hm : m.Tallied) (hn : m.tick k = some n) : n.Tallied := by
  simp only [Machine.tick, Option.bind_eq_bind, Option.bind_eq_some_iff] at hn
  obtain ⟨call, hk, hn⟩ := hn
  split at hn
  · next h hpoint =>
    split at hn
    · cases hn
    · obtain rfl := Option.some.inj hn
      intro c
      have hcount := le_countP_modify (f := fun c =>
        { c with point := .keepAlive (m.world.heartbeat h).pool .draining, sequel := .beat h })
        hk rfl
      exact (hm c).trans ((Nat.le_add_right _ _).trans ((Nat.le_max_left _ _).trans hcount))
  · cases hn

theorem Tallied.expire (hm : m.Tallied) (hn : m.expire k = some n) : n.Tallied := by
  simp only [Machine.expire, Option.bind_eq_bind, Option.bind_eq_some_iff] at hn
  obtain ⟨call, hk, hn⟩ := hn
  split at hn
  · next p t leased hpoint =>
    split at hn
    · exact Option.some.inj hn ▸ hm.spare hk (by rw [hpoint]; rfl)
        ⟨.refl m.world, rfl, Turn.forall_started rfl⟩ (f := id) (by simp) 0
    · cases hn
  · cases hn

theorem tallied_withWorld? {possible : Bool} {w : World} (hn : m.withWorld? possible w = some n)
    (h : possible = true → Tallied { m with world := w }) : n.Tallied := by
  unfold Machine.withWorld? at hn
  split at hn
  · next hp => exact Option.some.inj hn ▸ h hp
  · cases hn

/-- Every event keeps the tally. -/
theorem Tallied.perform {e : Event} (hm : m.Tallied) (hn : m.perform e = some n) :
    n.Tallied := by
  unfold Machine.perform at hn
  split at hn
  · cases hn
  cases e with
  | begin o =>
    simp only at hn
    split at hn
    · refine Option.some.inj hn ▸ hm.of_le (fun c => Nat.le_of_eq ?_) _
      unfold World.held World.client
      rw [clients_enter]
    · cases hn
  | advance k pick => exact hm.advance hn
  | overlook k pick => exact hm.advance (advance_of_overlook hn)
  | answer k a => exact hm.answer hn
  | expire k => exact hm.expire hn
  | tick k => exact hm.tick hn
  | breakDown c =>
    exact tallied_withWorld? hn fun _ => hm.withWorld fun d => Nat.le_of_eq (World.held_breakDown d)
  | connection c connected =>
    exact tallied_withWorld? hn fun _ => hm.withWorld fun d =>
      Nat.le_of_eq (World.held_onClient_of_eq rfl rfl d)
  | newClient id connected =>
    exact tallied_withWorld? hn fun _ => hm.withWorld fun d =>
      Nat.le_of_eq (World.held_addClient rfl d)
  | setState c state =>
    exact tallied_withWorld? hn fun _ => hm.withWorld fun d =>
      Nat.le_of_eq (World.held_onClient_of_eq rfl rfl d)
  | setReferences c count =>
    refine tallied_withWorld? hn fun hc => hm.withWorld fun d => ?_
    rcases World.held_onClient (w := m.world) (c := c)
      (f := fun k => { k with references := count }) rfl d with h | ⟨hhome, -, -⟩
    · exact Nat.le_of_eq h
    · simp [World.home_of_handmade hc] at hhome
  | newLease => exact tallied_withWorld? hn fun _ => hm.withWorld fun _ => le_rfl
  | moveLease l => exact tallied_withWorld? hn fun _ => hm.withWorld fun _ => le_rfl
  | newHeartbeat p interval => exact tallied_withWorld? hn fun _ => hm.withWorld fun _ => le_rfl

/-! ## Runs -/

theorem length_apply_le {m' : Machine} {pick : ℕ} (h : m'.calls.length = m.calls.length) :
    m.calls.length ≤ (m'.apply k pick t).calls.length := by
  simp only [Machine.apply, List.length_append, length_foldl_signal, List.length_modify, h]
  exact Nat.le_add_right _ _

theorem length_withWorld? {possible : Bool} {w : World} (hn : m.withWorld? possible w = some n) :
    m.calls.length ≤ n.calls.length := by
  unfold Machine.withWorld? at hn
  split at hn
  · exact Option.some.inj hn ▸ le_rfl
  · cases hn

/-- Calls are never forgotten. -/
theorem length_calls_le {e : Event} (hn : m.perform e = some n) :
    m.calls.length ≤ n.calls.length := by
  unfold Machine.perform at hn
  split at hn
  · cases hn
  cases e with
  | begin o =>
    simp only at hn
    split at hn
    · refine Option.some.inj hn ▸ ?_
      simp [Machine.begin]
    · cases hn
  | advance k pick =>
    simp only [Machine.advance, Option.bind_eq_bind, Option.bind_eq_some_iff,
      Option.some.injEq] at hn
    obtain ⟨call, -, t, -, rfl⟩ := hn
    exact length_apply_le (by simp)
  | overlook k pick =>
    obtain ⟨call, p, c, leased, t, -, -, -, rfl⟩ := exists_of_overlook hn
    exact length_apply_le rfl
  | answer k a =>
    simp only [Machine.answer, Option.bind_eq_bind, Option.bind_eq_some_iff] at hn
    obtain ⟨call, -, hn⟩ := hn
    split at hn
    all_goals first | exact Option.some.inj hn ▸ length_apply_le rfl | cases hn
  | expire k =>
    simp only [Machine.expire, Option.bind_eq_bind, Option.bind_eq_some_iff] at hn
    obtain ⟨call, -, hn⟩ := hn
    repeat' split at hn
    all_goals first | exact Option.some.inj hn ▸ length_apply_le rfl | cases hn
  | tick k =>
    simp only [Machine.tick, Option.bind_eq_bind, Option.bind_eq_some_iff] at hn
    obtain ⟨call, -, hn⟩ := hn
    repeat' split at hn
    all_goals first | exact Option.some.inj hn ▸ (List.length_modify _ _ _).ge | cases hn
  | _ => exact length_withWorld? hn

/-- No client of a pool ever has more references than calls have acted. -/
theorem Reachable.tallied (hm : m.Reachable) : m.Tallied :=
  hm.induct (fun _ => Nat.le_of_eq rfl) fun _ _ _ ih hn => ih.perform hn

/-- A count of references wraps around only when a call adds a reference to a member that has as
many as can be counted. -/
theorem exists_of_isOverflow {e : Event} {x : Mishap} (h : m.mishap? e = some x)
    (hx : x.isOverflow = true) : ∃ k call p c leased, m.call? k = some call ∧
      call.point = .addReference p c leased ∧ c ∈ (m.world.pool p).members ∧
        (m.world.client c).references = Client.mostReferences := by
  unfold mishap? at h
  split at h
  · next k pick =>
    split at h
    · next p c leased hpoint =>
      split at h
      · next hfull =>
        obtain ⟨call, hk, hpoint⟩ := Option.map_eq_some_iff.mp hpoint
        exact ⟨k, call, p, c, leased, hk, hpoint, hfull⟩
      · cases h
    · cases h
  · split at h
    · obtain rfl := Option.some.inj h
      cases hx
    · cases h
  · obtain rfl := Option.some.inj h
    cases hx
  · split at h
    · cases h
    · obtain rfl := Option.some.inj h
      cases hx
  · cases h

/-- No event wraps a count of references around before more calls have begun than a word can
count. -/
theorem Reachable.not_overflow (hm : m.Reachable) (hlength : m.calls.length < 2 ^ 64) {e : Event}
    {x : Mishap} (hx : m.mishap? e = some x) : x.isOverflow = false := by
  by_contra hoverflow
  rw [Bool.not_eq_false] at hoverflow
  obtain ⟨k, call, p, c, leased, hk, hpoint, hmem, hfull⟩ := exists_of_isOverflow hx hoverflow
  have hhome := (World.mem_own.mp ((hm.sound.seated p).mem_own_of_mem hmem)).2
  have hheld : m.world.held c = 2 ^ 64 - 1 := by
    rw [World.held, hhome, hfull]
    rfl
  have hacts : m.acts < m.calls.length :=
    List.countP_lt_length_iff.mpr ⟨call, List.mem_of_getElem? hk, by rw [hpoint]; rfl⟩
  have htally := hm.tallied c
  omega

/-- Nor does a run. -/
theorem runWithout_of_length {es : List Event} (h : run {} es = some m)
    (hlength : m.calls.length < 2 ^ 64) : runWithout Mishap.isOverflow {} es = some m := by
  induction es using List.reverseRecOn generalizing m with
  | nil => exact h
  | append_singleton es e ih =>
    obtain ⟨l, hl, hm⟩ := run_snoc_iff.mp h
    have hless : l.calls.length < 2 ^ 64 := (length_calls_le hm).trans_lt hlength
    have hreach : l.Reachable := ⟨es, hl⟩
    exact runWithout_snoc_iff.mpr ⟨l, ih hl hless, fun x => hreach.not_overflow hless, hm⟩

theorem Reachable.withoutOverflow (hm : m.Reachable) (hlength : m.calls.length < 2 ^ 64) :
    m.ReachableWithout Mishap.isOverflow := by
  obtain ⟨es, hes⟩ := hm
  exact ⟨es, runWithout_of_length hes hlength⟩

end Machine
end SessionPool
