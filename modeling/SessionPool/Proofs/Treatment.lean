import SessionPool.Proofs.Happening

/-!
# What a turn makes of a client

A turn of a call changes at most one client, and there are not many ways in which it can
(`Treatment`): it lends the client, shares it or gives it back, it has a command sent or finds the
client broken, or it sends the client off.  Everything that holds of a client all its life is
derived from this list.

* `Point.outgoing`, `Point.hands`: the clients that a call is sending off, and the one that it is
  about to hand a command.
* `Machine.Takes.treatment`: every turn treats every client in one of these ways.
* `Machine.Befalls.client`: what can become of a client in which no call has a part.
* `Machine.Happens.home`: a client is always of the same pool.
* `Treatment.disconnected`, `Machine.unconnected_perform`: what is disconnected stays so.
-/

namespace SessionPool

/-- The clients that remain to be sent off when those before have been. -/
def Afterwards.outgoing : Afterwards → List ClientKey
  | .finish _ => []
  | .destroy cs _ => cs
  | .markClosed _ cs => cs

/-- The clients that a call is sending off. -/
def Point.outgoing : Point → List ClientKey
  | .farewell _ _ todo next => todo ++ next.outgoing
  | .close _ (.sealing shut) => shut
  | .close _ (.announcing shut) => shut
  | _ => []

/-- A call that stands here is about to hand the client a command. -/
def Point.hands (c : ClientKey) : Point → Bool
  | .exchange d _ _ false => d = c
  | .keepAlive _ (.pinging false _ (d :: _) _) => d = c
  | _ => false

/-- What a turn of a call that stands at `x` can make of a client. -/
inductive Treatment (w : World) (c : ClientKey) (x : Point) : Client → Prop where
  /-- It is left as it is. -/
  | left : Treatment w c x (w.client c)
  /-- It is the next idle client, and is lent. -/
  | lent {p : PoolKey} {t : Patience} {leased : Bool} {s : AcquirePoint} {rest : List ClientKey}
      (hx : x = .acquire p t leased s) (isOpen : (w.pool p).closing = false)
      (front : (w.pool p).idle = c :: rest) : Treatment w c x (w.client c).lend
  /-- It is new, and is lent. -/
  | enrolled {p : PoolKey} {t : Patience} {leased : Bool}
      (hx : x = .acquire p t leased (.arrived c)) (isOpen : (w.pool p).closing = false) :
      Treatment w c x (w.client c).lend
  /-- It is new, and is idle at once. -/
  | stocked {p : PoolKey} {left : ℕ} (hx : x = .stock p left (.arrived c)) :
      Treatment w c x { w.client c with state := .idle }
  /-- It is shared. -/
  | shared {p : PoolKey} {leased : Bool} (hx : x = .addReference p c leased)
      (mem : c ∈ (w.pool p).members) (busy : (w.client c).state = .busy)
      (lent : (w.client c).references ≠ 0) :
      Treatment w c x { w.client c with references := (w.client c).references + 1 }
  /-- A reference to it is given back, and not the last one. -/
  | dropped {p : PoolKey} {leased : Bool} (hx : x = .release p c leased)
      (mem : c ∈ (w.pool p).members) (lent : (w.client c).references ≠ 0)
      (more : (w.client c).references ≠ 1) :
      Treatment w c x { w.client c with references := (w.client c).references - 1 }
  /-- The last reference to it is given back, and it is idle again. -/
  | returned {p : PoolKey} {leased : Bool} (hx : x = .release p c leased)
      (mem : c ∈ (w.pool p).members) (last : (w.client c).references = 1)
      (isOpen : (w.pool p).closing = false) (whole : (w.client c).isBroken = false) :
      Treatment w c x { w.client c with references := 0, state := .idle }
  /-- The last reference to it is given back, and it is discarded. -/
  | discarded {p : PoolKey} {leased : Bool} (hx : x = .release p c leased)
      (mem : c ∈ (w.pool p).members) (last : (w.client c).references = 1)
      (cause : (w.client c).isBroken = true ∨ (w.pool p).closing = true) :
      Treatment w c x { w.client c with references := 0 }
  /-- It is handed a command. -/
  | commanded (command : Text) (hands : x.hands c = true) :
      Treatment w c x ((w.client c).receive command)
  /-- In answer to a command it turns out to be broken. -/
  | broken (asked : ∃ command, x.request? = some (.send c command)) :
      Treatment w c x (w.client c).breakDown
  /-- It is asked to disconnect. -/
  | asked (outgoing : c ∈ x.outgoing) : Treatment w c x { w.client c with
      session := { (w.client c).session with
        disconnects := (w.client c).session.disconnects + 1 } }
  /-- It has been sent off. -/
  | departed (rite : Rite) (connected : Bool) (outgoing : c ∈ x.outgoing)
      (was : connected = true → (w.client c).session.connected = true) :
      Treatment w c x (Farewell.depart rite { w.client c with
        session := { (w.client c).session with connected } })

variable {w : World} {c d : ClientKey} {x : Point} {p : PoolKey} {t : Patience} {leased : Bool}

/-- The turn changes another client, or this one in one of the ways. -/
theorem Treatment.onClient {w' : World} {f : Client → Client} (hw : w'.clients = w.clients)
    (hc : c < w.clients.length) (h : c = d → Treatment w c x (f (w.client c))) :
    Treatment w c x ((w'.onClient d f).client c) := by
  have hclient : w'.client c = w.client c := by simp [World.client, hw]
  by_cases hd : c = d
  · rw [← hd, World.client_onClient w' (by rw [hw]; exact hc), hclient]
    exact h hd
  · rw [World.client_onClient_of_ne w' hd, hclient]
    exact .left

/-- The turn changes no client. -/
theorem Treatment.of_eq {w' : World} (hw : w'.clients = w.clients) :
    Treatment w c x (w'.client c) := by
  have hclient : w'.client c = w.client c := by simp [World.client, hw]
  rw [hclient]
  exact .left

/-! ## One command -/

theorem Client.breakDown_breakDown (k : Client) : k.breakDown.breakDown = k.breakDown := by
  obtain ⟨id, home, session, state, references, destroyed⟩ := k
  cases state <;> rfl

/-- A client that turns out to be broken twice is broken. -/
theorem World.breakDown_of_breakDown {w' : World}
    (h : w'.client c = w.client c ∨ c = d ∧ w'.client c = (w.client c).breakDown)
    (hc : c < w'.clients.length) :
    (w'.onClient d Client.breakDown).client c = w.client c ∨
      c = d ∧ (w'.onClient d Client.breakDown).client c = (w.client c).breakDown := by
  by_cases hd : c = d
  · rw [← hd, World.client_onClient w' hc]
    refine .inr ⟨rfl, ?_⟩
    rcases h with h | ⟨-, h⟩
    · rw [h]
    · rw [h, Client.breakDown_breakDown]
  · rw [World.client_onClient_of_ne w' hd]
    exact .inl (h.resolve_right fun h => hd h.1)

theorem World.length_clients_received (command : Text) (a : SendAnswer) :
    (w.received d command a).world.clients.length = w.clients.length := by
  cases a with
  | reply r =>
    simp only [World.received]
    split <;> simp
  | _ => simp [World.received]

/-- An answer leaves a client as it is, or breaks the one that was asked. -/
theorem World.client_received (hc : c < w.clients.length) (command : Text) (a : SendAnswer) :
    (w.received d command a).world.client c = w.client c ∨
      c = d ∧ (w.received d command a).world.client c = (w.client c).breakDown := by
  cases a with
  | reply r =>
    simp only [World.received]
    split
    · exact World.breakDown_of_breakDown (.inl rfl) hc
    · exact .inl rfl
  | lost reason => exact World.breakDown_of_breakDown (.inl rfl) hc
  | failed reason => exact .inl rfl

theorem World.length_clients_pinged (a : SendAnswer) :
    (w.pinged d a).world.clients.length = w.clients.length := by
  simp only [World.pinged]
  repeat' split
  all_goals simp [World.length_clients_received]

/-- An answer to a ping leaves a client as it is, or breaks the one that was pinged. -/
theorem World.client_pinged (hc : c < w.clients.length) (a : SendAnswer) :
    (w.pinged d a).world.client c = w.client c ∨
      c = d ∧ (w.pinged d a).world.client c = (w.client c).breakDown := by
  have hgot : (w.received d pingCommand a).world.client c = w.client c ∨
      c = d ∧ (w.received d pingCommand a).world.client c = (w.client c).breakDown :=
    World.client_received hc pingCommand a
  simp only [World.pinged]
  split
  · split
    · exact hgot
    · exact World.breakDown_of_breakDown hgot (by rwa [World.length_clients_received])
  · exact hgot

/-- A client that is left as it is, or broken in answer to a command. -/
theorem Treatment.of_breakDown {k : Client} {command : Text}
    (hx : x.request? = some (.send d command))
    (h : k = w.client c ∨ c = d ∧ k = (w.client c).breakDown) : Treatment w c x k := by
  rcases h with rfl | ⟨rfl, rfl⟩
  · exact .left
  · exact .broken ⟨command, hx⟩

theorem KeepAlive.treatment_answered {pinged rest : List ClientKey} {failure : Option Fault}
    (hc : c < w.clients.length) (a : SendAnswer) :
    Treatment w c (.keepAlive p (.pinging true pinged (d :: rest) failure))
      ((KeepAlive.answered w p pinged d rest failure a).world.client c) := by
  have hgot := World.client_pinged (d := d) hc a
  refine .of_breakDown rfl ?_
  simp only [KeepAlive.answered]
  split
  · exact hgot
  · exact World.breakDown_of_breakDown hgot (by rwa [World.length_clients_pinged])

theorem Exchange.treatment_answered {command : Text} {ping : Bool} (hc : c < w.clients.length)
    (a : SendAnswer) : Treatment w c (.exchange d command ping true)
      ((Exchange.answered w d command ping a).world.client c) := by
  refine .of_breakDown rfl ?_
  simp only [Exchange.answered]
  split
  · exact World.client_pinged hc a
  · exact World.client_received hc command a

/-- A command is handed to a client. -/
theorem World.treatment_send {command : Text} (hc : c < w.clients.length)
    (hx : x.hands d = true) : Treatment w c x ((w.send d command).client c) :=
  .onClient rfl hc fun hd => .commanded command (hd ▸ hx)

/-! ## Borrowing -/

/-- A new client is another one. -/
theorem Opening.client_answered (hc : c < w.clients.length) (a : OpenAnswer) :
    (Opening.answered w p a).world.client c = w.client c := by
  cases a with
  | session connected =>
    simp only [Opening.answered, World.client_onPool]
    rw [World.client_addClient, if_neg (Nat.ne_of_lt hc)]
  | _ => rfl

namespace Acquire

theorem clients_rise : (rise w p).clients = w.clients := rfl

theorem closing_rise : ((rise w p).pool p).closing = (w.pool p).closing := by
  by_cases hp : p < w.pools.length
  · rw [rise, World.pool_onPool w hp]
  · simp [rise, World.pool, World.onPool, List.modify_eq_self (Nat.le_of_not_lt hp)]

/-- A caller that looks for a client gets the first idle one, or changes none. -/
theorem treatment_seek {w' : World} {s : AcquirePoint} (hw : w'.clients = w.clients)
    (hclosing : (w'.pool p).closing = (w.pool p).closing)
    (hidle : (w'.pool p).idle = (w.pool p).idle) (hc : c < w.clients.length) :
    Treatment w c (.acquire p t leased s) ((seek w' p t leased).world.client c) := by
  simp only [seek]
  split
  · exact .of_eq hw
  · next hopen =>
    rw [Bool.not_eq_true, hclosing] at hopen
    split
    · next d rest hfront =>
      rw [hidle] at hfront
      have hlend : Treatment w c (.acquire p t leased s)
          (((w'.onPool p fun pool => pool.takeIdle rest).onClient d Client.lend).client c) :=
        .onClient hw hc fun hd => .lent rfl hopen (hd ▸ hfront)
      cases leased <;> exact hlend
    · split <;> exact .of_eq hw

/-- Every step of a caller. -/
theorem treatment_step {s : AcquirePoint} {turn : Turn} (ht : step w p t leased s = some turn)
    (hc : c < w.clients.length) :
    Treatment w c (.acquire p t leased s) (turn.world.client c) := by
  cases s with
  | seeking => exact Option.some.inj ht ▸ treatment_seek rfl rfl rfl hc
  | opening => cases ht
  | asleep => cases ht
  | arrived d =>
    obtain rfl := Option.some.inj ht
    simp only [arrive]
    split
    · exact .left
    · next hopen =>
      rw [Bool.not_eq_true] at hopen
      have hlend : Treatment w c (.acquire p t leased (.arrived d))
          (((w.onPool p fun pool => pool.enroll d).onClient d Client.lend).client c) :=
        .onClient rfl hc fun hd => .enrolled (by rw [hd]) hopen
      cases leased <;> exact hlend
  | refused f => exact Option.some.inj ht ▸ .left
  | woken =>
    obtain rfl := Option.some.inj ht
    simp only [wake]
    split
    · exact treatment_seek clients_rise closing_rise idle_rise hc
    · exact .left
  | expired =>
    obtain rfl := Option.some.inj ht
    simp only [expire]
    split
    · exact treatment_seek clients_rise closing_rise idle_rise hc
    · exact .left

end Acquire

/-- Every step of a stocking. -/
theorem Stock.treatment_step {left : ℕ} {s : StockPoint} {turn : Turn}
    (ht : Stock.step w p left s = some turn) (hc : c < w.clients.length) :
    Treatment w c (.stock p left s) (turn.world.client c) := by
  cases s with
  | reserving => cases left <;> exact Option.some.inj ht ▸ .left
  | opening => cases ht
  | arrived d =>
    refine Option.some.inj ht ▸ ?_
    show Treatment w c (.stock p left (.arrived d))
      ((w.onClient d fun k => { k with state := .idle }).client c)
    exact .onClient rfl hc fun hd => .stocked (by rw [hd])
  | refused f => exact Option.some.inj ht ▸ .left

/-- A client is shared, or it is an error. -/
theorem Share.treatment_step (hc : c < w.clients.length) :
    Treatment w c (.addReference p d leased) ((Share.step w p d leased).world.client c) := by
  simp only [Share.step]
  split
  · exact .left
  · next hmem =>
    rw [not_not] at hmem
    split
    · exact .left
    · next hbusy =>
      rw [not_not] at hbusy
      have hshared : Treatment w c (.addReference p d leased)
          ((w.onClient d fun _ => (w.client d).addReference.1).client c) := by
        refine .onClient rfl hc fun hd => ?_
        subst hd
        unfold Client.addReference
        split
        · exact .left
        · next hlent => exact .shared rfl hmem hbusy hlent
      split
      · exact hshared
      · cases leased <;> exact hshared

namespace Release

/-- The last reference is given back. -/
theorem treatment_last {k : Client} (hc : c < w.clients.length) (hmem : d ∈ (w.pool p).members)
    (hk : k = { w.client d with references := 0 }) (hlast : (w.client d).references = 1) :
    Treatment w c (.release p d leased) ((last (w.onClient d fun _ => k) p d).world.client c) := by
  have hp := World.lt_length_of_mem hmem
  by_cases hd : c = d
  · subst hd
    have hclient : (w.onClient c fun _ => k).client c = { w.client c with references := 0 } := by
      rw [World.client_onClient w hc, hk]
    have hclosing : (((w.onClient c fun _ => k).onPool p Pool.giveBack).pool p).closing =
        (w.pool p).closing := by
      rw [World.pool_onPool _ (by simpa using hp)]
      rfl
    simp only [last, keep, World.client_onPool, hclient, hclosing]
    split
    · next hbroken =>
      rw [World.client_onPool, World.client_onPool, hclient]
      exact .discarded rfl hmem hlast (.inl hbroken)
    · next hwhole =>
      rw [Bool.not_eq_true] at hwhole
      split
      · next hclosing =>
        rw [World.client_onPool, World.client_onPool, hclient]
        exact .discarded rfl hmem hlast (.inr hclosing)
      · next hopen =>
        rw [Bool.not_eq_true] at hopen
        rw [World.client_onPool, World.client_onClient _ (by simpa using hc), World.client_onPool,
          hclient]
        exact .returned rfl hmem hlast hopen hwhole
  · have hne : ∀ f : Client → Client, (w.onClient d f).client c = w.client c :=
      World.client_onClient_of_ne w hd
    have hsame : (last (w.onClient d fun _ => k) p d).world.client c = w.client c := by
      simp only [last, keep]
      repeat' split
      all_goals simp [World.client_onClient_of_ne _ hd]
    rw [hsame]
    exact .left

/-- A reference is given back, or it is an error. -/
theorem treatment_step (hc : c < w.clients.length) :
    Treatment w c (.release p d leased) ((step w p d).world.client c) := by
  simp only [step]
  split
  · exact .left
  · next hmem =>
    rw [not_not] at hmem
    unfold Client.dropReference?
    by_cases hlent : (w.client d).references = 0
    · simp only [hlent, if_true]
      exact .left
    · simp only [hlent, if_false]
      by_cases hlast : (w.client d).references = 1
      · have hzero : (w.client d).references - 1 = 0 := by
          rw [hlast]
          rfl
        simp only [hzero, if_true]
        exact treatment_last hc hmem rfl hlast
      · have hmore : (w.client d).references - 1 ≠ 0 := by
          intro h
          exact hlast (by rw [← UInt64.sub_add_cancel (w.client d).references 1, h]; rfl)
        simp only [hmore, if_false]
        refine .onClient rfl hc fun hd => ?_
        subst hd
        exact .dropped rfl hmem hlent hlast

end Release

/-! ## Parting -/

namespace Farewell

variable {rite : Rite} {waiting : Bool} {next : Afterwards}

/-- The next client is sent off. -/
theorem treatment_step {todo : List ClientKey} (hc : c < w.clients.length) :
    Treatment w c (.farewell rite waiting todo next) ((step w rite todo next).world.client c) := by
  cases todo with
  | nil => exact .left
  | cons d rest =>
    have hmem : c = d → c ∈ (Point.farewell rite waiting (d :: rest) next).outgoing := by
      rintro rfl
      simp [Point.outgoing]
    have hdepart : ∀ y, Treatment w c (.farewell rite waiting (d :: rest) next)
        ((w.onClient d (depart y)).client c) :=
      fun y => .onClient rfl hc fun hd => .departed y _ (hmem hd) id
    simp only [step]
    split
    · exact hdepart rite
    · split
      · exact .onClient rfl hc fun hd => .asked (hmem hd)
      · exact hdepart rite

/-- The window of a disconnection is over. -/
theorem treatment_answered {rest : List ClientKey} (hc : c < w.clients.length)
    (a : DisconnectAnswer) :
    Treatment w c (.farewell rite waiting (d :: rest) next)
      ((answered w rite d rest next a).world.client c) := by
  have hmem : c = d → c ∈ (Point.farewell rite waiting (d :: rest) next).outgoing := by
    rintro rfl
    simp [Point.outgoing]
  cases a with
  | done => exact .onClient rfl hc fun hd => .departed rite false (hmem hd) nofun
  | failed reason =>
    exact .onClient rfl hc fun hd => .departed rite (w.client c).session.connected (hmem hd) id

end Farewell

/-- Every step of a call that pings. -/
theorem KeepAlive.treatment_step {s : KeepAlivePoint} {turn : Turn}
    (ht : KeepAlive.step w p s = some turn) (hc : c < w.clients.length) :
    Treatment w c (.keepAlive p s) (turn.world.client c) := by
  have hrestore : ∀ pinged failure,
      Treatment w c (.keepAlive p s) ((restore w p pinged failure).world.client c) :=
    fun pinged failure => .of_eq (KeepAlive.foldl_settle pinged w).2.1
  match s, ht with
  | .draining, ht =>
    refine Option.some.inj ht ▸ ?_
    simp only [drain]
    split <;> exact .left
  | .pinging false pinged (d :: rest) failure, ht =>
    exact Option.some.inj ht ▸ World.treatment_send hc (decide_eq_true rfl)
  | .pinging false pinged [] failure, ht => exact Option.some.inj ht ▸ hrestore pinged failure
  | .pinging true pinged [] failure, ht => exact Option.some.inj ht ▸ hrestore pinged failure

/-- Closing a pool changes no client. -/
theorem Close.clients_step {s : ClosePoint} {turn : Turn} (ht : Close.step w p s = some turn) :
    turn.world.clients = w.clients := by
  have hdrain : ∀ w' : World, w'.clients = w.clients → (drain w' p).world.clients = w.clients := by
    intro w' hw
    simp only [drain]
    split <;> exact hw
  have hattend : (attend w p).world.clients = w.clients := by
    simp only [attend]
    split <;> rfl
  cases s with
  | entering =>
    refine Option.some.inj ht ▸ ?_
    simp only [enter]
    split
    · exact hattend
    · exact hdrain _ rfl
  | draining woken =>
    cases woken with
    | true => exact Option.some.inj ht ▸ hdrain w rfl
    | false => cases ht
  | attending woken =>
    cases woken with
    | true => exact Option.some.inj ht ▸ hattend
    | false => cases ht
  | sealing shut => exact Option.some.inj ht ▸ rfl
  | announcing shut => exact Option.some.inj ht ▸ rfl

theorem Close.treatment_step {s : ClosePoint} {turn : Turn} (ht : Close.step w p s = some turn) :
    Treatment w c (.close p s) (turn.world.client c) :=
  .of_eq (clients_step ht)

namespace Machine

variable {m n : Machine} {k : CallKey} {call : Call} {e : Event} {turn : Turn}

/-- Every turn treats every client in one of these ways. -/
theorem Takes.treatment (h : m.Takes k call e turn) (hc : c < m.world.clients.length) :
    Treatment m.world c call.point (turn.world.client c) := by
  cases h with
  | step h | overlooked h =>
    obtain ⟨x, sequel, notices⟩ := call
    cases x with
    | stock p left s => exact Stock.treatment_step h hc
    | acquire p t leased s => exact Acquire.treatment_step h hc
    | addReference p c leased => exact Option.some.inj h ▸ Share.treatment_step hc
    | release p c leased => exact Option.some.inj h ▸ Release.treatment_step hc
    | keepAlive p s => exact KeepAlive.treatment_step h hc
    | close p s => exact Close.treatment_step h
    | exchange c command ping waiting =>
      cases waiting with
      | false => exact Option.some.inj h ▸ World.treatment_send hc (decide_eq_true rfl)
      | true => cases h
    | farewell rite waiting todo next =>
      match waiting, todo, h with
      | false, todo, h => exact Option.some.inj h ▸ Farewell.treatment_step hc
      | true, [], h => exact Option.some.inj h ▸ Farewell.treatment_step hc
    | heartbeat b s => exact .of_eq (Heartbeat.aside_step h).clients
    | finished o => exact .of_eq (aside_conclude h).clients
  | stocked a hpoint =>
    show Treatment m.world c _ ((Opening.answered m.world _ a).world.client c)
    rw [Opening.client_answered hc]
    exact .left
  | opened a hpoint =>
    show Treatment m.world c _ ((Opening.answered m.world _ a).world.client c)
    rw [Opening.client_answered hc]
    exact .left
  | pinged a hpoint =>
    rw [hpoint]
    exact KeepAlive.treatment_answered hc a
  | replied a hpoint =>
    rw [hpoint]
    exact Exchange.treatment_answered hc a
  | parted a hpoint =>
    rw [hpoint]
    exact Farewell.treatment_answered hc a
  | expired hpoint limited => exact .left
  | beat hpoint wanted => exact .left

end Machine

/-! ## What no turn does -/

/-- No turn moves a client to another pool. -/
theorem Treatment.home {k : Client} (h : Treatment w c x k) : k.home = (w.client c).home := by
  cases h with
  | broken => exact Client.breakDown_home _
  | departed rite => cases rite <;> rfl
  | _ => rfl

/-- No turn makes anything else of a client that is disconnected and neither a member nor at
hand. -/
theorem Treatment.disconnected {k : Client} (h : Treatment w c x k)
    (hs : (w.client c).state = .disconnected) (left : ∀ p, c ∉ (w.pool p).members)
    (unqueued : ∀ p, c ∉ (w.pool p).idle) (unstaked : ∀ p, c ∉ (x.stake p).arrived) :
    k.state = .disconnected := by
  cases h with
  | @lent p t leased s rest hx isOpen front =>
    exact absurd (front ▸ List.mem_cons_self) (unqueued p)
  | @enrolled p t leased hx isOpen =>
    exact absurd (by rw [hx, Acquire.stake_arrived]; simp) (unstaked p)
  | @stocked p left hx => exact absurd (by rw [hx, Stock.stake_arrived]; simp) (unstaked p)
  | @returned p leased hx mem last isOpen whole => exact absurd mem (left p)
  | broken =>
    unfold Client.breakDown
    rwa [if_pos hs]
  | departed rite connected outgoing was => cases rite <;> rfl
  | _ => exact hs

/-- No turn finds a connection again. -/
theorem Treatment.connected {k : Client} (h : Treatment w c x k) (hs : k.session.connected = true) :
    (w.client c).session.connected = true := by
  cases h with
  | commanded command =>
    unfold Client.receive Session.receive at hs
    split at hs <;> exact hs
  | broken => rwa [Client.breakDown_session] at hs
  | departed rite connected outgoing was => cases rite <;> exact was hs
  | _ => exact hs

namespace Machine

variable {m n : Machine} {e : Event}

/-- A call that begins changes no client. -/
theorem client_begin (m : Machine) (o : Operation) (c : ClientKey) :
    (m.begin o).world.client c = m.world.client c := by
  have hclients : (o.enter m.world).world.clients = m.world.clients := clients_enter m.world o
  simp [Machine.begin, World.client, hclients]

/-- What becomes of a client in an event in which no call has a part. -/
theorem Befalls.client {w : World} (h : m.Befalls e w) (hc : c < m.world.clients.length) :
    w.client c = m.world.client c ∨
      (e = .breakDown c ∧ w.client c = (m.world.client c).breakDown) ∨
      (∃ connected, e = .connection c connected ∧ w.client c = { m.world.client c with
        session := { (m.world.client c).session with connected } }) ∨
      (∃ state, e = .setState c state ∧ w.client c = { m.world.client c with state }) ∨
      m.world.hasHandmade c = true ∧
        ∃ count, w.client c = { m.world.client c with references := count } := by
  have hother : ∀ {d} {f : Client → Client}, c ≠ d →
      (m.world.onClient d f).client c = m.world.client c :=
    fun hd => World.client_onClient_of_ne m.world hd _
  cases h with
  | @breakDown d h =>
    by_cases hd : c = d
    · subst hd
      exact .inr (.inl ⟨rfl, World.client_onClient m.world hc _⟩)
    · exact .inl (hother hd)
  | @connection d connected h =>
    by_cases hd : c = d
    · subst hd
      exact .inr (.inr (.inl ⟨connected, rfl, World.client_onClient m.world hc _⟩))
    · exact .inl (hother hd)
  | newClient id connected =>
    refine .inl ?_
    rw [World.client_addClient, if_neg (Nat.ne_of_lt hc)]
  | @setState d state h =>
    by_cases hd : c = d
    · subst hd
      exact .inr (.inr (.inr (.inl ⟨state, rfl, World.client_onClient m.world hc _⟩)))
    · exact .inl (hother hd)
  | @setReferences d count h =>
    by_cases hd : c = d
    · subst hd
      exact .inr (.inr (.inr (.inr ⟨h, count, World.client_onClient m.world hc _⟩)))
    · exact .inl (hother hd)
  | newLease | moveLease | newHeartbeat => exact .inl rfl

theorem Befalls.home {w : World} (h : m.Befalls e w) (hc : c < m.world.clients.length) :
    (w.client c).home = (m.world.client c).home := by
  rcases h.client hc with h | ⟨-, h⟩ | ⟨connected, -, h⟩ | ⟨state, -, h⟩ | ⟨-, count, h⟩
  · rw [h]
  · rw [h, Client.breakDown_home]
  all_goals rw [h]

/-- A client is always of the same pool. -/
theorem Happens.home (h : m.Happens e n) (hc : c < m.world.clients.length) :
    (n.world.client c).home = (m.world.client c).home := by
  cases h with
  | turn pick s hk takes sequel => exact (takes.treatment hc).home
  | @enter o permits => exact congrArg Client.home (client_begin m o c)
  | aside befalls => exact befalls.home hc

/-- A client of a pool stays one. -/
theorem Sound.mem_own_perform {p : PoolKey} (hm : m.Sound) (hn : m.perform e = some n)
    (hc : c ∈ m.world.own p) : c ∈ n.world.own p := by
  obtain ⟨hlt, hhome⟩ := World.mem_own.mp hc
  refine World.mem_own.mpr ⟨hlt.trans_le (hm.length_clients (happens hn)), ?_⟩
  rw [(happens hn).home hlt, hhome]

/-- A client of a pool was one of it before, unless it has been made just now. -/
theorem mem_own_before (hn : m.perform e = some n) (hc : c < m.world.clients.length)
    {p : PoolKey} (hown : c ∈ n.world.own p) : c ∈ m.world.own p := by
  refine World.mem_own.mpr ⟨hc, ?_⟩
  rw [← (happens hn).home hc]
  exact (World.mem_own.mp hown).2

/-- A connection that is lost is not found again, unless the outside does it. -/
theorem unconnected_perform (hc : c < m.world.clients.length)
    (hs : (m.world.client c).session.connected = false) (hn : m.perform e = some n)
    (he : e ≠ .connection c true) : (n.world.client c).session.connected = false := by
  by_contra hconnected
  rw [Bool.not_eq_false] at hconnected
  suffices h : (m.world.client c).session.connected = true from
    Bool.noConfusion (hs.symm.trans h)
  cases happens hn with
  | turn pick s hk takes sequel => exact (takes.treatment hc).connected hconnected
  | enter permits => rwa [client_begin] at hconnected
  | @aside _ w befalls =>
    have hconnected' : (w.client c).session.connected = true := hconnected
    rcases befalls.client hc with hw | ⟨-, hw⟩ | ⟨connected, h, hw⟩ | ⟨s, -, hw⟩ | ⟨-, count, hw⟩
    · rwa [hw] at hconnected'
    · rwa [hw, Client.breakDown_session] at hconnected'
    · rw [hw] at hconnected'
      obtain rfl : connected = true := hconnected'
      exact absurd h he
    · rwa [hw] at hconnected'
    · rwa [hw] at hconnected'

end Machine
end SessionPool
