import SessionPool.Proofs.Discharge
import SessionPool.Proofs.Moves

/-!
# Sending off clients that have left their pool

A call that has taken clients out of their pool for good disconnects them one after the other, and
then destroys them.  In its turn each client is asked to disconnect if it is connected, and goes
without being asked if it is not (`Machine.Disconnects`).  Whoever has been disconnected is not
asked a second time when it is destroyed, so that no client is asked more than once.

At any moment the clients that are disconnected are the first ones (`Machine.Parting.inOrder`).
Those before the next one are, because nobody else gives a client without a slot another state;
those from the next one on are not, because nobody else sends off a client that is with this call.

* `Machine.Disconnects`: the turns in which clients are disconnected, one after the other.
* `Point.Parts`: where such a call stands, what it has done, and what has become of its clients.
* `Machine.parting_run`: in every run it goes on until it has its outcome.
* `Machine.SentOff`, `Machine.sentOff_run`: what it has done then.
-/

namespace SessionPool

/-! ## Changes of the shared state -/

/-- What lasts of clients that are sent off. -/
structure World.Lasts (w : World) (cs : List ClientKey) (w' : World) : Prop where
  disconnected : ∀ c ∈ cs, (w.client c).state = .disconnected → (w'.client c).state = .disconnected
  destroyed : ∀ c ∈ cs, (w.client c).destroyed = true → (w'.client c).destroyed = true

/-- Nothing is changed but one of these clients, if anything is. -/
def World.Touches (w : World) (cs : List ClientKey) (w' : World) : Prop :=
  w' = w ∨ ∃ c ∈ cs, ∃ f, w' = w.onClient c f

theorem World.Touches.mono {w w' : World} {cs ds : List ClientKey} (h : w.Touches cs w')
    (hcs : cs ⊆ ds) : w.Touches ds w' :=
  h.imp_right fun ⟨c, hc, hf⟩ => ⟨c, hcs hc, hf⟩

/-- A client whose session has been asked to disconnect and has answered.  The client is
disconnected whether that went well or not. -/
def Client.answered : DisconnectAnswer → Client → Client
  | .done, k => { k with state := .disconnected, session := { k.session with connected := false } }
  | .failed _, k => { k with state := .disconnected }

theorem Client.answered_state (a : DisconnectAnswer) (k : Client) :
    (k.answered a).state = .disconnected := by
  cases a <;> rfl

/-! ## Turns -/

namespace Machine

/-- A turn in which a call asks a client to disconnect, because it is connected. -/
structure Move.Asks (k : CallKey) (c : ClientKey) (v : Move) : Prop where
  connected : (v.before.world.client c).session.connected = true
  request : v.after.request? k = some (.disconnect c)
  world : v.after.world = v.before.world.onClient c Client.asked

/-- A turn in which a call is answered that has asked a client to disconnect. -/
structure Move.Hears (k : CallKey) (c : ClientKey) (v : Move) : Prop where
  answer : ∃ a, v.event = .answer k (.disconnected a) ∧
    v.after.world = v.before.world.onClient c (Client.answered a)
  silent : v.after.request? k = none

/-- A turn in which a call lets a client go without asking it, because it is not connected. -/
structure Move.Passes (k : CallKey) (c : ClientKey) (v : Move) : Prop where
  unconnected : (v.before.world.client c).session.connected = false
  silent : v.after.request? k = none
  world : v.after.world = v.before.world.onClient c fun k => { k with state := .disconnected }

/-- A turn in which a call destroys one of these clients, or changes nothing, and asks nobody. -/
structure Move.Destroys (k : CallKey) (cs : List ClientKey) (v : Move) : Prop where
  silent : v.after.request? k = none
  world : v.after.world = v.before.world ∨ ∃ c ∈ cs, v.after.world =
    v.before.world.onClient c fun k => { k with state := .disconnected, destroyed := true }

/-- These are the turns in which a call has disconnected these clients, one after the other: whoever
was connected when its turn came has been asked and has answered, and nobody else has been
asked. -/
inductive Disconnects (k : CallKey) : List ClientKey → List Move → Prop where
  | nil : Disconnects k [] []
  | asked {cs : List ClientKey} {c : ClientKey} {vs : List Move} {v v' : Move}
      (before : Disconnects k cs vs) (asks : v.Asks k c) (hears : v'.Hears k c) :
      Disconnects k (cs ++ [c]) (vs ++ [v, v'])
  | unasked {cs : List ClientKey} {c : ClientKey} {vs : List Move} {v : Move}
      (before : Disconnects k cs vs) (passes : v.Passes k c) :
      Disconnects k (cs ++ [c]) (vs ++ [v])

theorem Move.Destroys.touches {k : CallKey} {cs : List ClientKey} {v : Move}
    (h : v.Destroys k cs) : v.before.world.Touches cs v.after.world :=
  h.world.imp_right fun ⟨c, hc, hw⟩ => ⟨c, hc, _, hw⟩

namespace Disconnects

variable {k : CallKey} {cs : List ClientKey} {vs : List Move}

/-- Each client is asked at most once, and in this order. -/
theorem requests_sublist (h : Disconnects k cs vs) :
    (vs.filterMap fun v => v.after.request? k).Sublist (cs.map .disconnect) := by
  induction h with
  | nil => exact List.nil_sublist _
  | asked before asks hears ih =>
    simpa [asks.request, hears.silent] using ih
  | unasked before passes ih =>
    simpa [passes.silent] using ih.trans (List.sublist_append_left ..)

/-- Each turn changes nothing but one of the clients. -/
theorem touches (h : Disconnects k cs vs) :
    ∀ v ∈ vs, v.before.world.Touches cs v.after.world := by
  induction h with
  | nil => exact List.forall_mem_nil _
  | @asked cs c vs v v' before asks hears ih =>
    obtain ⟨a, -, ha⟩ := hears.answer
    rw [List.forall_mem_append, List.forall_mem_cons, List.forall_mem_singleton]
    exact ⟨fun u hu => (ih u hu).mono (List.subset_append_left ..),
      .inr ⟨c, by simp, _, asks.world⟩, .inr ⟨c, by simp, _, ha⟩⟩
  | @unasked cs c vs v before passes ih =>
    rw [List.forall_mem_append, List.forall_mem_singleton]
    exact ⟨fun u hu => (ih u hu).mono (List.subset_append_left ..),
      .inr ⟨c, by simp, _, passes.world⟩⟩

end Disconnects

end Machine

/-- Where a call stands that sends off the clients `gone` and ends with this outcome, what has
become of them, and which turns it has taken: all of them are disconnected, one after the other, and
then destroyed. -/
inductive Point.Parts (k : CallKey) (gone : List ClientKey) (o : Outcome) (w : World)
    (vs : List Machine.Move) : Point → Prop where
  | disconnecting {done todo : List ClientKey} (split : gone = done ++ todo)
      (left : ∀ c ∈ done, (w.client c).state = .disconnected)
      (disconnects : Machine.Disconnects k done vs) :
      Parts k gone o w vs (.farewell .disconnect false todo (.destroy gone o))
  | waiting {done rest : List ClientKey} {c : ClientKey} {us : List Machine.Move}
      {v : Machine.Move} (split : gone = done ++ c :: rest)
      (left : ∀ c ∈ done, (w.client c).state = .disconnected)
      (disconnects : Machine.Disconnects k done us) (asks : v.Asks k c) (turns : vs = us ++ [v]) :
      Parts k gone o w vs (.farewell .disconnect true (c :: rest) (.destroy gone o))
  | destroying {done todo : List ClientKey} {us ws : List Machine.Move}
      (split : gone = done ++ todo)
      (left : ∀ c ∈ gone, (w.client c).state = .disconnected)
      (destroyed : ∀ c ∈ done, (w.client c).destroyed = true) (turns : vs = us ++ ws)
      (disconnects : Machine.Disconnects k gone us) (destroys : ∀ v ∈ ws, v.Destroys k gone) :
      Parts k gone o w vs (.farewell .destroy false todo (.finish o))
  | ended {us ws : List Machine.Move} (left : ∀ c ∈ gone, (w.client c).state = .disconnected)
      (destroyed : ∀ c ∈ gone, (w.client c).destroyed = true) (turns : vs = us ++ ws)
      (disconnects : Machine.Disconnects k gone us) (destroys : ∀ v ∈ ws, v.Destroys k gone) :
      Parts k gone o w vs (.finished o)

namespace Point.Parts

variable {k : CallKey} {gone done todo rest : List ClientKey} {c : ClientKey} {o : Outcome}
  {w w' : World} {us vs ws : List Machine.Move} {v v' : Machine.Move} {x y : Point}

/-- A call that sends clients off waits for nothing but answers. -/
theorem awake (h : Parts k gone o w vs x) : x.sleeps = false ∧ ∀ b, x ≠ .heartbeat b .resting := by
  cases h <;> exact ⟨rfl, by simp⟩

/-- The call has no part in an event. -/
theorem wait (h : Parts k gone o w vs x) (hlasts : w.Lasts gone w') : Parts k gone o w' vs x := by
  cases h with
  | disconnecting split left disconnects =>
    exact .disconnecting split (fun c hc =>
      hlasts.disconnected c (split ▸ List.mem_append_left _ hc) (left c hc)) disconnects
  | waiting split left disconnects asks turns =>
    exact .waiting split (fun c hc =>
      hlasts.disconnected c (split ▸ List.mem_append_left _ hc) (left c hc)) disconnects asks turns
  | destroying split left destroyed turns disconnects destroys =>
    exact .destroying split (fun c hc => hlasts.disconnected c hc (left c hc)) (fun c hc =>
      hlasts.destroyed c (split ▸ List.mem_append_left _ hc) (destroyed c hc)) turns disconnects
        destroys
  | ended left destroyed turns disconnects destroys =>
    exact .ended (fun c hc => hlasts.disconnected c hc (left c hc))
      (fun c hc => hlasts.destroyed c hc (destroyed c hc)) turns disconnects destroys

/-- When the next client is disconnected as well, one more is. -/
theorem left_next (split : gone = done ++ c :: rest)
    (left : ∀ d ∈ done, (w.client d).state = .disconnected) (hlasts : w.Lasts gone w')
    (hc : (w'.client c).state = .disconnected) :
    gone = (done ++ [c]) ++ rest ∧ ∀ d ∈ done ++ [c], (w'.client d).state = .disconnected := by
  refine ⟨split.trans (List.append_cons done c rest), ?_⟩
  rw [List.forall_mem_append, List.forall_mem_singleton]
  exact ⟨fun d hd => hlasts.disconnected d (split ▸ List.mem_append_left _ hd) (left d hd), hc⟩

section Turns

variable (before : v.before.world = w) (after : v.after.world = w')
  (requests : y.sleeps = false → v.after.request? k = y.request?) (hlasts : w.Lasts gone w')
  (hlt : ∀ c ∈ gone, c < w.clients.length)
include before after requests hlasts hlt

/-- A turn in which the call comes to the next client that it has to disconnect. -/
theorem disconnect (split : gone = done ++ todo)
    (left : ∀ c ∈ done, (w.client c).state = .disconnected)
    (disconnects : Machine.Disconnects k done vs)
    (h : Farewell.SendsOff w .disconnect (.destroy gone o) false todo w' y) :
    Parts k gone o w' (vs ++ [v]) y := by
  have hleft : ∀ c ∈ done, (w'.client c).state = .disconnected := fun c hc =>
    hlasts.disconnected c (split ▸ List.mem_append_left _ hc) (left c hc)
  cases h with
  | done =>
    obtain rfl : gone = done := split.trans (List.append_nil done)
    have hdestroys : v.Destroys k gone := ⟨requests rfl, .inl (after.trans before.symm)⟩
    exact .destroying (List.nil_append _).symm hleft (List.forall_mem_nil _) rfl disconnects
      (List.forall_mem_singleton.mpr hdestroys)
  | skipped destroys => cases destroys
  | @asked c rest present connected =>
    have hasks : v.Asks k c :=
      ⟨before.symm ▸ connected, requests rfl, before.symm ▸ after⟩
    exact .waiting split hleft disconnects hasks rfl
  | @unasked c rest unconnected =>
    have hpasses : v.Passes k c :=
      ⟨before.symm ▸ unconnected, requests rfl, before.symm ▸ after⟩
    obtain ⟨hsplit, hdone⟩ := left_next split left hlasts (by
      rw [World.client_onClient _ (hlt c (split ▸ by simp))]
      rfl)
    exact .disconnecting hsplit hdone (disconnects.unasked hpasses)

/-- A turn in which the call destroys clients.  They have been disconnected, so that none of them is
asked again. -/
theorem destroy (split : gone = done ++ todo)
    (left : ∀ c ∈ gone, (w.client c).state = .disconnected)
    (destroyed : ∀ c ∈ done, (w.client c).destroyed = true) (turns : vs = us ++ ws)
    (disconnects : Machine.Disconnects k gone us) (destroys : ∀ u ∈ ws, u.Destroys k gone)
    (h : Farewell.SendsOff w .destroy (.finish o) false todo w' y) :
    Parts k gone o w' (vs ++ [v]) y := by
  have hleft : ∀ c ∈ gone, (w'.client c).state = .disconnected := fun c hc =>
    hlasts.disconnected c hc (left c hc)
  have hover : ∀ c ∈ done, (w'.client c).destroyed = true := fun c hc =>
    hlasts.destroyed c (split ▸ List.mem_append_left _ hc) (destroyed c hc)
  have hturns : vs ++ [v] = us ++ (ws ++ [v]) := by rw [turns, List.append_assoc]
  have hall : v.Destroys k gone → ∀ u ∈ ws ++ [v], u.Destroys k gone := fun hv => by
    rw [List.forall_mem_append, List.forall_mem_singleton]
    exact ⟨destroys, hv⟩
  cases h with
  | done =>
    obtain rfl : gone = done := split.trans (List.append_nil done)
    exact .ended hleft hover hturns disconnects
      (hall ⟨requests rfl, .inl (after.trans before.symm)⟩)
  | @asked c rest present connected => exact absurd (left c (split ▸ by simp)) (present rfl)
  | @skipped c rest destroys away | @unasked c rest unconnected =>
    have hc : c ∈ gone := split ▸ by simp
    refine .destroying (split.trans (List.append_cons done c rest)) hleft ?_ hturns disconnects
      (hall ⟨requests rfl, .inr ⟨c, hc, before.symm ▸ after⟩⟩)
    rw [List.forall_mem_append, List.forall_mem_singleton, World.client_onClient _ (hlt c hc)]
    exact ⟨hover, rfl⟩

end Turns

/-- A turn in which the client answers that the call has asked to disconnect. -/
theorem hear (split : gone = done ++ c :: rest)
    (left : ∀ d ∈ done, (v'.before.world.client d).state = .disconnected)
    (disconnects : Machine.Disconnects k done us) (asks : v.Asks k c) (hears : v'.Hears k c)
    (hlasts : v'.before.world.Lasts gone v'.after.world)
    (hlt : ∀ c ∈ gone, c < v'.before.world.clients.length) :
    Parts k gone o v'.after.world ((us ++ [v]) ++ [v'])
      (.farewell .disconnect false rest (.destroy gone o)) := by
  obtain ⟨a, -, ha⟩ := hears.answer
  obtain ⟨hsplit, hdone⟩ := left_next split left hlasts (by
    rw [ha, World.client_onClient _ (hlt c (split ▸ by simp))]
    exact Client.answered_state a _)
  rw [List.append_assoc]
  exact .disconnecting hsplit hdone (disconnects.asked asks hears)

end Point.Parts

namespace Machine

variable {m n l : Machine} {e : Event} {es : List Event} {k : CallKey} {s : Sequel} {x : Point}
  {p : PoolKey} {c : ClientKey} {gone rest : List ClientKey} {o : Outcome} {vs : List Move}
  {call : Call} {t : Turn}

/-- A call that has asked a client to disconnect takes its next turn when that answers. -/
theorem Takes.hears {next : Afterwards} (h : m.Takes k call e t)
    (hx : call.point = .farewell .disconnect true (c :: rest) next) :
    t.point = .farewell .disconnect false rest next ∧
      ∃ a, e = .answer k (.disconnected a) ∧
        t.world = m.world.onClient c (Client.answered a) := by
  obtain ⟨x, sequel, notices⟩ := call
  simp only at hx
  subst hx
  cases h with
  | step ht => cases ht
  | overlooked ht hpoint => cases hpoint
  | parted a hpoint =>
    cases hpoint
    cases a <;> exact ⟨rfl, _, rfl, rfl⟩
  | stocked a hpoint | opened a hpoint | pinged a hpoint | replied a hpoint => cases hpoint
  | expired hpoint limited => cases hpoint
  | beat hpoint wanted => cases hpoint

/-- A turn of a call that sends clients off, as long as nothing is done with its outcome. -/
theorem Takes.parts (h : m.Takes k call e t) (hx : call.point.Parts k gone o m.world vs)
    (hlt : ∀ c ∈ gone, c < m.world.clients.length) (hworld : n.world = t.world)
    (requests : t.point.sleeps = false → n.request? k = t.point.request?)
    (hlasts : m.world.Lasts gone n.world)
    (unspent : call.sequel = .none ∨ call.point.result? = none) :
    t.point.Parts k gone o n.world (vs ++ [⟨m, e, n⟩]) ∧ t.point.toGo < call.point.toGo := by
  generalize hpoint : call.point = x at hx
  cases hx with
  | disconnecting split left disconnects =>
    exact ⟨.disconnect rfl rfl requests hlasts hlt split left disconnects
      (hworld ▸ h.sendsOff hpoint), hpoint ▸ (h.farewell hpoint).2⟩
  | @waiting done rest c us v split left disconnects asks turns =>
    obtain ⟨ht, a, he, hanswered⟩ := h.hears hpoint
    have hears : (⟨m, e, n⟩ : Move).Hears k c :=
      ⟨⟨a, he, hworld.trans hanswered⟩, (requests (ht ▸ rfl)).trans (ht ▸ rfl)⟩
    refine ⟨?_, hpoint ▸ (h.farewell hpoint).2⟩
    rw [ht, turns]
    exact .hear split left disconnects asks hears hlasts hlt
  | destroying split left destroyed turns disconnects destroys =>
    exact ⟨.destroy rfl rfl requests hlasts hlt split left destroyed turns disconnects destroys
      (hworld ▸ h.sendsOff hpoint), hpoint ▸ (h.farewell hpoint).2⟩
  | ended =>
    refine absurd (unspent.resolve_right ?_) (h.not_over hpoint)
    rw [hpoint]
    exact Option.some_ne_none o

/-- What lasts of clients that have no slot any more. -/
theorem Reachable.lasts (hl : l.Reachable) (hown : ∀ c ∈ gone, c ∈ l.world.own p)
    (hunseated : ∀ c ∈ gone, l.Unseated c) (he : ∀ c s, e ≠ .setState c s)
    (hn : l.perform e = some n) : l.world.Lasts gone n.world where
  disconnected c hc hgone :=
    (hunseated c hc).disconnected_perform hl.sound (World.mem_own.mp (hown c hc)).1 hgone hn (he c)
  destroyed c hc hgone := by
    rcases destroyed_perform (World.mem_own.mp (hown c hc)).1 hn with h | ⟨-, h, -⟩
    · exact h.trans hgone
    · exact h

/-! ## Runs -/

/-- A call that has taken the clients `gone` out of their pool for good is sending them off in a run
of the events `es` from `m` to `n`, and stands at `x` then. -/
structure Parting (m : Machine) (k : CallKey) (s : Sequel) (p : PoolKey) (gone : List ClientKey)
    (o : Outcome) (es : List Event) (n : Machine) (x : Point) : Prop where
  stands : n.IsAt k s x
  parts : x.Parts k gone o n.world (m.moves k es)
  own : ∀ c ∈ gone, c ∈ n.world.own p
  unseated : ∀ c ∈ gone, n.Unseated c
  turns : es.countP (Event.isTurnOf k) + x.toGo ≤ 4 * gone.length + 2

namespace Parting

/-- A call that has just taken clients out of their pool. -/
theorem start (hm : m.Reachable) (hown : ∀ c ∈ gone, c ∈ m.world.own p)
    (h : m.IsAt k s (.farewell .disconnect false gone (.destroy gone o))) :
    m.Parting k s p gone o [] m (.farewell .disconnect false gone (.destroy gone o)) where
  stands := h
  parts := .disconnecting (List.nil_append _).symm (List.forall_mem_nil _) .nil
  own := hown
  unseated c hc := by
    obtain ⟨call, hk, hx, -⟩ := h
    exact hm.unseated_of_discards (List.mem_of_getElem? hk) (hx ▸ hc)
  turns := by
    simp only [List.countP_nil, Point.toGo, Afterwards.toGo, Bool.false_eq_true, if_false]
    omega

/-- In an event the call goes on to send clients off. -/
theorem perform (h : m.Parting k s p gone o es l x) (hes : m.run es = some l) (hl : l.Reachable)
    (he : ∀ c s, e ≠ .setState c s) (hn : l.perform e = some n)
    (unspent : s ≠ .none → e.isTurnOf k = true → x.result? = none) :
    ∃ y, m.Parting k s p gone o (es ++ [e]) n y := by
  have hlt : ∀ c ∈ gone, c < l.world.clients.length := fun c hc => (World.mem_own.mp (h.own c hc)).1
  have hlasts := hl.lasts h.own h.unseated he hn
  have hown : ∀ c ∈ gone, c ∈ n.world.own p := fun c hc => hl.sound.mem_own_perform hn (h.own c hc)
  have hunseated : ∀ c ∈ gone, n.Unseated c :=
    fun c hc => (h.unseated c hc).perform hl.sound (hlt c hc) hn
  have hmoves := moves_snoc (k := k) hes hn
  rcases h.stands.perform h.parts.awake.1 h.parts.awake.2 hn with
    ⟨hturn, hstands⟩ | ⟨hturn, call, t, rfl, hs, takes, hworld, hnext⟩
  · rw [hturn, if_neg Bool.false_ne_true, List.append_nil] at hmoves
    refine ⟨x, hstands, hmoves ▸ h.parts.wait hlasts, hown, hunseated, ?_⟩
    rw [List.countP_append]
    simpa [hturn] using h.turns
  · have hunspent : call.sequel = .none ∨ call.point.result? = none := by
      by_cases hnone : s = .none
      · exact .inl (hs hnone)
      · exact .inr (unspent hnone hturn)
    obtain ⟨hparts, hless⟩ := takes.parts h.parts hlt hworld
      (fun hawake => (hnext hawake).request_eq) hlasts hunspent
    rw [hturn, if_pos rfl] at hmoves
    refine ⟨t.point, hnext hparts.awake.1, hmoves ▸ hparts, hown, hunseated, ?_⟩
    have hturns := h.turns
    rw [List.countP_append]
    simp only [List.countP_singleton, hturn, if_true]
    omega

/-- Those that the call has still to disconnect are not disconnected, and those before them are. -/
theorem inOrder (h : m.Parting k s p gone o es n x) (hn : n.ReachableWithout Mishap.isTampering) :
    ∃ done todo, gone = done ++ todo ∧ (∀ c ∈ done, (n.world.client c).state = .disconnected) ∧
      ∀ c ∈ todo, (n.world.client c).state ≠ .disconnected := by
  obtain ⟨call, hk, hx, -⟩ := h.stands
  have halive : ∀ c ∈ gone, c ∈ x.parting → (n.world.client c).state ≠ .disconnected :=
    fun c hc hparting =>
      hn.alive_of_attended (hn.reachable.mem_attended_of_parting hk (hx ▸ hparting) (h.own c hc))
  cases h.parts with
  | @disconnecting done todo split left disconnects =>
    exact ⟨done, todo, split, left, fun c hc =>
      halive c (split ▸ List.mem_append_right _ hc) hc⟩
  | @waiting done rest d us v split left disconnects asks turns =>
    exact ⟨done, d :: rest, split, left, fun c hc =>
      halive c (split ▸ List.mem_append_right _ hc) hc⟩
  | destroying split left | ended left =>
    exact ⟨gone, [], (List.append_nil gone).symm, left, List.forall_mem_nil _⟩

/-- The call can take its next turn until it has its outcome, if only the outside answers. -/
theorem goesOn (h : m.Parting k s p gone o es n x) (hn : n.world.crashed = false)
    (ho : n.result? k = none) : ∃ e, e.isTurnOf k = true ∧ (n.perform e).isSome := by
  refine h.stands.goesOn hn fun call hx => ?_
  cases h.parts with
  | disconnecting | waiting | destroying => exact exists_takes_farewell hx
  | ended =>
    rw [h.stands.result_eq] at ho
    cases ho

end Parting

/-- In every run a call goes on to send clients off until it has its outcome, as long as nothing is
done with that. -/
theorem parting_run (hm : m.ReachableWithout Mishap.isTampering)
    (hown : ∀ c ∈ gone, c ∈ m.world.own p)
    (h : m.IsAt k s (.farewell .disconnect false gone (.destroy gone o))) (hn : m.run es = some n)
    (untampered : ∀ c s, .setState c s ∉ es)
    (unspent : s ≠ .none → ∀ v ∈ m.moves k es, v.before.result? k = none) :
    ∃ x, m.Parting k s p gone o es n x := by
  induction es using List.reverseRecOn generalizing n with
  | nil =>
    rw [run_nil, Option.some.injEq] at hn
    subst hn
    exact ⟨_, .start hm.reachable hown h⟩
  | append_singleton es e ih =>
    obtain ⟨l, hes, hn⟩ := run_snoc_iff.mp hn
    have hbefore : ∀ c s, .setState c s ∉ es :=
      fun c s hmem => untampered c s (List.mem_append_left _ hmem)
    rw [moves_snoc hes hn] at unspent
    obtain ⟨x, hx⟩ := ih hes hbefore fun hs v hv => unspent hs v (List.mem_append_left _ hv)
    refine hx.perform hes (hm.untampered_run hbefore hes).reachable ?_ hn fun hs hturn => ?_
    · rintro c s rfl
      exact untampered c s (by simp)
    · rw [← hx.stands.result_eq]
      exact unspent hs ⟨l, e, n⟩ (by simp [hturn])

/-- In a run of the events `es` from `m` to `n` a call has sent off the clients `gone`, which have
left their pool, and has done nothing else.  It has disconnected them one after the other: whoever
was connected when its turn came has been asked to disconnect, and the others have gone without.
Then it has destroyed them and has asked nobody any more, so that nobody has been asked twice.  At
any moment those are disconnected that are before some one of them, and not this one or those behind
it. -/
structure SentOff (m : Machine) (k : CallKey) (gone : List ClientKey) (es : List Event)
    (n : Machine) : Prop where
  turns : ∃ us vs, m.moves k es = us ++ vs ∧ Disconnects k gone us ∧ ∀ v ∈ vs, v.Destroys k gone
  requests : (m.requests k es).Sublist (gone.map .disconnect)
  moves : ∀ v ∈ m.moves k es, v.before.world.Touches gone v.after.world
  inOrder : ∀ us vs l, es = us ++ vs → m.run us = some l → ∃ done todo, gone = done ++ todo ∧
    (∀ c ∈ done, (l.world.client c).state = .disconnected) ∧
      ∀ c ∈ todo, (l.world.client c).state ≠ .disconnected
  away : ∀ c ∈ gone, (n.world.client c).state = .disconnected ∧
    (n.world.client c).destroyed = true ∧ ∀ q, c ∉ (n.world.pool q).members

/-- A call that sends clients off has done so when it has an outcome. -/
theorem sentOff_run (hm : m.ReachableWithout Mishap.isTampering)
    (hown : ∀ c ∈ gone, c ∈ m.world.own p)
    (h : m.IsAt k s (.farewell .disconnect false gone (.destroy gone o))) (hn : m.run es = some n)
    (untampered : ∀ c s, .setState c s ∉ es)
    (unspent : s ≠ .none → ∀ v ∈ m.moves k es, v.before.result? k = none) {o' : Outcome}
    (ho : n.result? k = some o') : o' = o ∧ m.SentOff k gone es n := by
  obtain ⟨x, hx⟩ := parting_run hm hown h hn untampered unspent
  have hinOrder : ∀ us vs l, es = us ++ vs → m.run us = some l → ∃ done todo, gone = done ++ todo ∧
      (∀ c ∈ done, (l.world.client c).state = .disconnected) ∧
        ∀ c ∈ todo, (l.world.client c).state ≠ .disconnected := by
    rintro us vs l rfl hl
    have hbefore : ∀ c s, .setState c s ∉ us :=
      fun c s hmem => untampered c s (List.mem_append_left _ hmem)
    rw [moves_append hl] at unspent
    obtain ⟨y, hy⟩ := parting_run hm hown h hl hbefore
      fun hs v hv => unspent hs v (List.mem_append_left _ hv)
    exact hy.inOrder (hm.untampered_run hbefore hl)
  rw [hx.stands.result_eq] at ho
  have hunseated := hx.unseated
  cases hx.parts with
  | disconnecting | waiting | destroying => cases ho
  | @ended us ws left destroyed turns disconnects destroys =>
    refine ⟨(Option.some.inj ho).symm, ⟨us, ws, turns, disconnects, destroys⟩, ?_, ?_, hinOrder,
      fun c hc => ⟨left c hc, destroyed c hc, (hunseated c hc).notMem_members⟩⟩
    · have hsilent : (ws.filterMap fun v => v.after.request? k) = [] :=
        List.filterMap_eq_nil_iff.mpr fun v hv => (destroys v hv).silent
      rw [requests, turns, List.filterMap_append, hsilent, List.append_nil]
      exact disconnects.requests_sublist
    · rw [turns, List.forall_mem_append]
      exact ⟨disconnects.touches, fun v hv => (destroys v hv).touches⟩

end Machine
end SessionPool
