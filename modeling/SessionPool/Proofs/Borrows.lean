import SessionPool.Proofs.Lifecycle

/-!
# While a client is borrowed

A client of a pool is borrowed from the event in which somebody gets it to the one in which the last
reference to it is given back (`Machine.Borrow`).  If a fault is reported meanwhile, the client is
broken from then on, whatever other commands come to and however many references are given back,
and in the end it leaves its pool.  If none is reported it is busy to the end, and then it goes back
into the queue, unless the pool is closing.

Whoever runs a command has the client until the command is answered, so that a fault in the answer
is one of this borrow and not of a later one.  This is what it means to be mindful.

* `Machine.Mindful.exists_borrow`: every client to which there are references is borrowed.
* `Machine.Borrow.state`: the state of a borrowed client says whether a fault was reported.
* `Machine.states_match_places`: states and places in every machine that can be reached mindfully.
-/

namespace SessionPool
namespace Machine

variable {m n : Machine} {e : Event} {k : CallKey} {call : Call} {t : Turn} {p q : PoolKey}
  {c : ClientKey} {hurt : Bool}

/-! ## The beginning and the end of a borrow -/

/-- A client that gets references in a turn, and had none, is the one that the call yields. -/
theorem Takes.of_references (h : m.Takes k call e t) (hc : c < m.world.clients.length)
    (hnone : (m.world.client c).references = 0) (hrefs : (t.world.client c).references ≠ 0) :
    ∃ q u leased s, call.point = .acquire q u leased s ∧ t.point.Yields t.world q c := by
  have hchanged : t.world.client c ≠ m.world.client c := fun heq => hrefs (heq ▸ hnone)
  obtain ⟨q, u, leased, s, hx⟩ : ∃ q u leased s, call.point = .acquire q u leased s := by
    have htreatment := h.treatment hc
    generalize t.world.client c = client at htreatment hrefs
    cases htreatment with
    | lent hx => exact ⟨_, _, _, _, hx⟩
    | enrolled hx => exact ⟨_, _, _, _, hx⟩
    | shared hx mem busy lent => exact absurd hnone lent
    | dropped hx mem lent => exact absurd hnone lent
    | returned | discarded => exact absurd rfl hrefs
    | broken => exact absurd ((Client.breakDown_references _).trans hnone) hrefs
    | departed rite => cases rite <;> exact absurd hnone hrefs
    | _ => exact absurd hnone hrefs
  refine ⟨q, u, leased, s, hx, ?_⟩
  obtain ⟨x, sequel, notices⟩ := call
  obtain rfl : x = .acquire q u leased s := hx
  cases h with
  | step ht =>
    rcases Acquire.yields_or_leaves ht with ⟨d, hyields⟩ | hleaves
    · obtain ⟨-, hclients⟩ := Acquire.lent_of_yields ht hyields
      by_cases hd : c = d
      · exact hd ▸ hyields
      · refine absurd ?_ hchanged
        calc t.world.client c = (m.world.onClient d Client.lend).client c := by
              simp only [World.client, hclients]
          _ = m.world.client c := World.client_onClient_of_ne _ hd _
    · exact absurd (by simp only [World.client, hleaves.clients]) hchanged
  | overlooked ht hpoint => cases hpoint
  | opened a hpoint => exact absurd (Opening.client_answered hc a) hchanged
  | expired hpoint limited => exact absurd rfl hchanged
  | stocked a hpoint | pinged a hpoint | replied a hpoint | parted a hpoint => cases hpoint
  | beat hpoint wanted => cases hpoint

/-- A client of a pool that gets references in an event, and had none, is lent in it. -/
theorem Reachable.lends_of_references (hm : m.Reachable) (hn : m.perform e = some n)
    (hnone : c < m.world.clients.length → (m.world.client c).references = 0)
    (h : n.world.Releasable p c) : m.Lends e n p c := by
  have hown' : c ∈ n.world.own p :=
    ((hm.perform hn).sound.seated p).mem_own_of_mem h.1
  by_cases hlt : c < m.world.clients.length
  · have hown : c ∈ m.world.own p := mem_own_before hn hlt hown'
    have hrefs := h.2
    cases happens hn with
    | @turn _ k call t pick s hk takes sequel =>
      obtain ⟨q, u, leased, s', hx, hyields⟩ := takes.of_references hlt (hnone hlt) hrefs
      obtain ⟨call', hk', hw, -⟩ := exists_call_apply k t s pick hk
      rw [if_pos rfl] at hw
      obtain ⟨y, hy⟩ := hyields.exists_ok
      have hawake : t.point.sleeps = false := by rw [hy]; rfl
      have hlends : m.Lends e _ q c :=
        ⟨hn, k, call, u, leased, s', call', hk, hx, hk', (hw.eq_of_awake hawake).symm ▸ hyields⟩
      obtain ⟨-, hown'', -, -⟩ := hm.lends hlends
      obtain rfl : q = p := by
        by_contra hne
        exact World.notMem_own_of_ne hown hne hown''
      exact hlends
    | enter permits =>
      rw [client_begin] at hrefs
      exact absurd (hnone hlt) hrefs
    | @aside _ w befalls =>
      have hrefs' : (w.client c).references ≠ 0 := hrefs
      rcases befalls.client hlt with hw | ⟨-, hw⟩ | ⟨connected, -, hw⟩ | ⟨s, -, hw⟩ | ⟨hand, -⟩
      · exact absurd (hw ▸ hnone hlt) hrefs'
      · rw [hw, Client.breakDown_references] at hrefs'
        exact absurd (hnone hlt) hrefs'
      · rw [hw] at hrefs'
        exact absurd (hnone hlt) hrefs'
      · rw [hw] at hrefs'
        exact absurd (hnone hlt) hrefs'
      · exact absurd h.1
          (((hm.sound.unseated_of_handmade hand).2.perform hm.sound hlt hn).notMem_members p)
  · obtain ⟨id, home, connected, hclient⟩ :=
      made_perform hn (not_lt.mp hlt) (World.mem_own.mp hown').1
    exact absurd (by rw [hclient]) h.2

/-- References to a client run out in an event only when the last one is given back. -/
theorem Reachable.givesBack_of_unreferenced (hm : m.Reachable) (h : m.world.Releasable p c)
    (hn : m.perform e = some n) (countable : m.mishap? e ≠ some (.overflow c))
    (hnone : (n.world.client c).references = 0) :
    m.GivesBack e n p c ∧ (m.world.client c).references = 1 := by
  have hlt : c < m.world.clients.length := hm.sound.lt_length_of_mem h.1
  have hgives : m.GivesBack e n p c := by
    by_contra hunreturned
    by_cases hadds : m.Adds e n p c
    · obtain ⟨-, hless, hclients⟩ := hadds.shareable
      rw [client_shared hlt hclients] at hnone
      have hsucc := toNat_succ hless
      rw [show (m.world.client c).references + 1 = 0 from hnone] at hsucc
      exact absurd hsucc (Nat.succ_ne_zero _).symm
    · exact h.2 ((hm.kept h hn hadds hunreturned countable).1 ▸ hnone)
  refine ⟨hgives, ?_⟩
  by_contra hmore
  rw [hgives.releasable.2.1, Release.step_of_more h hmore] at hnone
  have hdropped : ((m.world.dropped c).client c).references = 0 := hnone
  rw [World.dropped, World.client_onClient _ hlt] at hdropped
  have hone : (m.world.client c).references - 1 = 0 := hdropped
  exact hmore (by grind)

/-! ## Borrows -/

/-- A client of a pool is borrowed, and since it was lent a fault of it was reported or was not. -/
inductive Borrow (p : PoolKey) (c : ClientKey) : Machine → Bool → Prop where
  /-- Somebody gets it. -/
  | lent {m n : Machine} {e : Event} (hm : m.Mindful) (mindful : m.isMindful e = true)
      (lends : m.Lends e n p c) : Borrow p c n false
  /-- Something else happens, and there are references to it still. -/
  | goesOn {m n : Machine} {e : Event} {hurt : Bool} (borrow : Borrow p c m hurt)
      (hn : m.performMindfully e = some n) (lasts : (n.world.client c).references ≠ 0) :
      Borrow p c n (hurt || m.reports? e = some c)

/-- A borrowed client is a member to which there are references. -/
theorem Borrow.releasable (h : Borrow p c m hurt) : m.Mindful ∧ m.world.Releasable p c := by
  induction h with
  | @lent m n e hm mindful lends =>
    have hm' : n.Mindful := hm.perform (performMindfully_eq_some_iff.mpr ⟨mindful, lends.1⟩)
    obtain ⟨-, hown, -, hclient⟩ := hm.reachable.lends lends
    have hrefs : (n.world.client c).references ≠ 0 := by
      rw [hclient]
      exact (by decide : (1 : UInt64) ≠ 0)
    exact ⟨hm', hm'.reachable.releasable (hm.reachable.sound.mem_own_perform lends.1 hown) hrefs⟩
  | @goesOn m n e hurt borrow hn lasts ih =>
    have hm' : n.Mindful := ih.1.perform hn
    have hown := (ih.1.reachable.sound.seated p).mem_own_of_mem ih.2.1
    exact ⟨hm', hm'.reachable.releasable
      (ih.1.reachable.sound.mem_own_perform (performMindfully_eq_some_iff.mp hn).2 hown) lasts⟩

/-- A client to which there are references is borrowed. -/
theorem Mindful.exists_borrow (hm : m.Mindful) (h : m.world.Releasable p c) :
    ∃ hurt, Borrow p c m hurt := by
  refine hm.induct (P := fun m => m.world.Releasable p c → ∃ hurt, Borrow p c m hurt)
    (fun h => absurd h.1 List.not_mem_nil) ?_ h
  intro m n e hm ih hmindful hn h
  by_cases hbefore : c < m.world.clients.length ∧ (m.world.client c).references ≠ 0
  · obtain ⟨hlt, hrefs⟩ := hbefore
    have hown : c ∈ m.world.own p :=
      mem_own_before hn hlt (((hm.reachable.perform hn).sound.seated p).mem_own_of_mem h.1)
    obtain ⟨hurt, hborrow⟩ := ih (hm.reachable.releasable hown hrefs)
    exact ⟨_, hborrow.goesOn (performMindfully_eq_some_iff.mpr ⟨hmindful, hn⟩) h.2⟩
  · rw [not_and_not_right] at hbefore
    exact ⟨false, .lent hm hmindful (hm.reachable.lends_of_references hn hbefore h)⟩

/-- A broken client to which there are references stays broken, if its state is not overwritten. -/
theorem Reachable.broken_perform (hm : m.Reachable) (h : m.world.Releasable p c)
    (hbroken : (m.world.client c).state = .broken) (hn : m.perform e = some n)
    (he : ∀ s, e ≠ .setState c s) (lasts : n.world.Releasable p c) :
    (n.world.client c).state = .broken := by
  have hspent : m.Spent p c :=
    { own := (hm.sound.seated p).mem_own_of_mem h.1
      barred := .inr (hm.sound.notMem_idle_of_references h.2)
      state := .inl hbroken }
  exact (hspent.perform hm hn he).state.resolve_right
    fun hgone => hgone.2.notMem_members p lasts.1

/-- A client to which there are references does not break unless a fault of it is reported. -/
theorem Mindful.reports_of_broken (hm : m.Mindful) (h : m.world.Releasable p c)
    (hs : (m.world.client c).state ≠ .broken) (hmindful : m.isMindful e = true)
    (hn : m.perform e = some n) (hbroken : (n.world.client c).state = .broken) :
    m.reports? e = some c := by
  have hlt : c < m.world.clients.length := hm.reachable.sound.lt_length_of_mem h.1
  rcases of_broken_perform hlt hn hs hbroken with hreports | ⟨s, he⟩ | ⟨j, q, hdrained, -⟩
  · exact hreports
  · exact absurd he (not_tampering hmindful s)
  · exact absurd (hm.reachable.sound.of_mem_drainedBy hdrained).2.1 h.2

/-- A client to which there are references is busy or broken. -/
theorem Mindful.state_of_releasable (hm : m.Mindful) (h : m.world.Releasable p c) :
    (m.world.client c).state = .busy ∨ (m.world.client c).state = .broken := by
  refine (hm.state_of_mem h.1).2 fun hf => ?_
  have hrefs := (hm.reachable.sound.seated p).free_unreferenced c hf
  rw [Machine.books, World.books_client _ ((hm.reachable.sound.seated p).mem_own_of_mem h.1)]
    at hrefs
  exact h.2 hrefs

/-- The state of a borrowed client says whether a fault of it was reported since it was lent. -/
theorem Borrow.state (h : Borrow p c m hurt) :
    (m.world.client c).state = if hurt then .broken else .busy := by
  induction h with
  | lent hm mindful lends =>
    obtain ⟨-, -, -, hclient⟩ := hm.reachable.lends lends
    rw [hclient]
    rfl
  | @goesOn m n e hurt borrow hn lasts ih =>
    obtain ⟨hm, h⟩ := borrow.releasable
    obtain ⟨hm', h'⟩ := (borrow.goesOn hn lasts).releasable
    obtain ⟨hmindful, hn⟩ := performMindfully_eq_some_iff.mp hn
    have hlt : c < m.world.clients.length := hm.reachable.sound.lt_length_of_mem h.1
    by_cases hreports : m.reports? e = some c
    · have halive : (m.world.client c).state ≠ .disconnected := by
        rcases hm.state_of_releasable h with hs | hs
        all_goals simp [hs]
      rw [client_of_reports hlt hn hreports, Client.breakDown, if_neg halive]
      simp [hreports]
    · cases hurt with
      | true =>
        rw [hm.reachable.broken_perform h ih hn (not_tampering hmindful) h']
        rfl
      | false =>
        have hbusy : (n.world.client c).state = .busy := by
          refine (hm'.state_of_releasable h').resolve_right fun hbroken => hreports ?_
          exact hm.reports_of_broken h (by simp [ih]) hmindful hn hbroken
        simp [hbusy, hreports]

/-! ## States and places -/

/-- States say where the clients of a pool are and what has become of them.  Every client to which
there are references is borrowed; it is broken if a fault was reported since it was lent, and busy
if not; and with the last reference it leaves the pool in the first case, and goes back into the
queue in the second, unless the pool is closing. -/
structure StatesMatch (m : Machine) (p : PoolKey) : Prop where
  placed : m.Placed p
  borrowed : ∀ c, m.world.Releasable p c → ∃ hurt, Borrow p c m hurt
  state : ∀ c hurt, Borrow p c m hurt → m.world.Releasable p c ∧
    (m.world.client c).state = if hurt then .broken else .busy
  /-- A borrow goes on until the last reference is given back, unless the count of references wraps
  around. -/
  goesOn : ∀ c hurt e n, Borrow p c m hurt → m.performMindfully e = some n →
    m.mishap? e ≠ some (.overflow c) → Borrow p c n (hurt || m.reports? e = some c) ∨
      m.GivesBack e n p c ∧ (m.world.client c).references = 1
  dismissed : ∀ c e n, Borrow p c m true → m.GivesBack e n p c →
    (m.world.client c).references = 1 → Dismissed m n p c
  takenBack : ∀ c e n, Borrow p c m false → m.GivesBack e n p c →
    (m.world.client c).references = 1 → (m.world.pool p).closing = false → TakenBack m n p c
  dismissedByClosing : ∀ c e n, Borrow p c m false → m.GivesBack e n p c →
    (m.world.client c).references = 1 → (m.world.pool p).closing = true → Dismissed m n p c

/-- As long as faults are reported only by those who have a client, states say where the clients of
a pool are and what has become of them. -/
theorem states_match_places (hm : m.Mindful) (p : PoolKey) : m.StatesMatch p where
  placed := hm.placed p
  borrowed _ h := hm.exists_borrow h
  state _ _ h := ⟨h.releasable.2, h.state⟩
  goesOn c hurt e n h hn countable := by
    obtain ⟨-, hreleasable⟩ := h.releasable
    by_cases hlasts : (n.world.client c).references = 0
    · exact .inr (hm.reachable.givesBack_of_unreferenced hreleasable
        (performMindfully_eq_some_iff.mp hn).2 countable hlasts)
    · exact .inl (h.goesOn hn hlasts)
  dismissed c e n h hn last := by
    refine hn.dismissed hm.reachable last (.inl ?_)
    simp [Client.isBroken, h.state]
  takenBack c e n h hn last isOpen := by
    refine hn.takenBack hm.reachable last ?_
    simp [World.Unwanted, Client.isBroken, h.state, isOpen]
  dismissedByClosing c e n _ hn last closing := hn.dismissed hm.reachable last (.inr closing)

/-- A run after which one client is idle and two are borrowed.  The connection of one of them was
lost in a command, and a second command came to nothing new. -/
def lostInCommand : List Event :=
  let limits : PoolLimits := { maxClients := 3, initialClients := 1 }
  [.begin (.construct {} limits true .standard), .advance 0 0, .answer 0 (.opened (.session true)),
    .advance 0 0, .advance 0 0,
    .begin (.acquire 0 0), .advance 1 0,
    .begin (.acquire 0 0), .advance 2 0, .answer 2 (.opened (.session true)), .advance 2 0,
    .begin (.acquire 0 0), .advance 3 0, .answer 3 (.opened (.session true)), .advance 3 0,
    .begin (.execute 1 pingCommand), .advance 4 0, .answer 4 (.sent (.lost [])),
    .begin (.execute 1 pingCommand), .advance 5 0, .answer 5 (.sent (.reply ⟨200, []⟩)),
    .begin (.execute 2 pingCommand), .advance 6 0, .answer 6 (.sent (.failed [])),
    .begin (.release 0 0), .advance 7 0]

/-- The borrow of the one is a hurt one, that of the other is not, and the states tell. -/
theorem states_match_places_lostInCommand : ∃ m : Machine,
    lostInCommand.foldlM performMindfully {} = some m ∧ m.Mindful ∧ m.StatesMatch 0 ∧
      (m.world.pool 0).idle = [0] ∧ Borrow 0 1 m true ∧ Borrow 0 2 m false := by
  obtain ⟨m, hm, hidle, h1, h2, hs1, hs2⟩ : ∃ m : Machine,
      lostInCommand.foldlM performMindfully {} = some m ∧ (m.world.pool 0).idle = [0] ∧
        m.world.Releasable 0 1 ∧ m.world.Releasable 0 2 ∧
          (m.world.client 1).state = .broken ∧ (m.world.client 2).state = .busy :=
    ⟨_, rfl, rfl, ⟨by decide, by decide⟩, ⟨by decide, by decide⟩, rfl, rfl⟩
  have hmatch : m.StatesMatch 0 := states_match_places ⟨_, hm⟩ 0
  refine ⟨m, hm, ⟨_, hm⟩, hmatch, hidle, ?_, ?_⟩
  · obtain ⟨hurt, hborrow⟩ := hmatch.borrowed 1 h1
    cases hurt with
    | true => exact hborrow
    | false => cases hs1.symm.trans (hmatch.state 1 false hborrow).2
  · obtain ⟨hurt, hborrow⟩ := hmatch.borrowed 2 h2
    cases hurt with
    | true => cases hs2.symm.trans (hmatch.state 2 true hborrow).2
    | false => exact hborrow

end Machine
end SessionPool
