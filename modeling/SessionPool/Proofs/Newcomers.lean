import SessionPool.Proofs.Arrivals
import SessionPool.Proofs.Tasks

/-!
# New clients are whole

A client that a pool has made is out of everybody's reach at first.  Nobody can report a fault of a
client that nobody has ever had, and nobody can run a command on it; and the pings of its pool reach
the clients that are idle, which a new client is not.  So it is not broken when it is lent for the
first time, or when the stocking of the pool puts it into the queue.

That nobody had a client when a command was begun does not say by itself that nobody has it now: it
is kept because a client that was once in somebody's hands is so for good.

* `Machine.Sheltered`: new clients are out of reach and whole, and commands are run on clients that
  somebody has had.
* `Machine.Reachable.sheltered`: it is always so.
-/

namespace SessionPool

/-- A client that somebody has had stays one, whatever is done to it. -/
theorem Treatment.wasHeld {w : World} {c : ClientKey} {x : Point} {client : Client}
    (h : Treatment w c x client) (held : (w.client c).wasHeld = true) : client.wasHeld = true := by
  cases h with
  | lent | enrolled => simp [Client.wasHeld, Client.lend]
  | broken => exact (Client.breakDown_wasHeld _).trans held
  | departed rite => cases rite <;> exact held
  | _ => exact held

/-- A client that has been made does not come again. -/
theorem Books.notMem_arrived_entry {b b' : Books} {bad : Mishap → Prop} {c : ClientKey}
    (hown : c ∈ b.own) (hc : c ∉ b.stake.arrived) (e : Books.Entry bad b b') :
    c ∉ b'.stake.arrived := by
  cases e with
  | @arrive b d k fresh unreferenced created =>
    have hne : c ≠ d := fun hd => fresh (hd ▸ hown)
    simpa [hne] using hc
  | _ => simp_all

namespace Machine

variable {m n : Machine} {e : Event} {k : CallKey} {call : Call} {t : Turn} {p q : PoolKey}
  {c : ClientKey}

/-- Nobody has a reference to a client that has just come for a pool. -/
theorem Sound.unreferenced_of_arrived (hm : m.Sound) (hc : c ∈ (m.stake p).arrived) :
    (m.world.client c).references = 0 := by
  have hs := hm.seated p
  have hown : c ∈ m.world.own p := hs.owned c (Multiset.mem_add.mpr (.inr hc))
  have hrefs := hs.arrived_unreferenced c hc
  rwa [Machine.books, World.books_client _ hown] at hrefs

/-- It is not a member of any pool yet. -/
theorem Sound.notMem_members_of_arrived (hm : m.Sound) (hc : c ∈ (m.stake p).arrived)
    (q : PoolKey) : c ∉ (m.world.pool q).members := by
  intro hmem
  have hown : c ∈ m.world.own p := (hm.seated p).owned c (Multiset.mem_add.mpr (.inr hc))
  obtain rfl : q = p := by
    by_contra hne
    exact World.notMem_own_of_ne hown hne ((hm.seated q).mem_own_of_mem hmem)
  exact Multiset.disjoint_left.mp (Multiset.disjoint_of_nodup_add (hm.seated q).nodup) hmem hc

/-- A client that has been made does not come again. -/
theorem Sound.notMem_arrived_perform (hm : m.Sound) (hn : m.perform e = some n)
    (hown : c ∈ m.world.own p) (hc : c ∉ (m.stake p).arrived) : c ∉ (n.stake p).arrived := by
  have hkeeps : c ∈ (n.books p).own ∧ c ∉ (n.books p).stake.arrived :=
    hm.books_perform (I := fun b => c ∈ b.own ∧ c ∉ b.stake.arrived) hn (fun _ _ => trivial)
      (fun _ _ _ _ hI e => ⟨Books.own_subset_entry e hI.1,
        Books.notMem_arrived_entry hI.1 hI.2 e⟩) ⟨hown, hc⟩
  exact hkeeps.2

/-- A client that somebody has had stays one. -/
theorem wasHeld_perform (hn : m.perform e = some n) (hc : c < m.world.clients.length)
    (held : (m.world.client c).wasHeld = true) : (n.world.client c).wasHeld = true := by
  rcases perform_cases hn with ⟨k, call, t, hk, takes, turned⟩ | ⟨o, rfl, permits, rfl⟩ |
    ⟨w, befalls, rfl⟩
  · rw [turned.world]
    exact (takes.treatment hc).wasHeld held
  · rwa [client_begin]
  · show (w.client c).wasHeld = true
    rcases befalls.client hc with hw | ⟨-, hw⟩ | ⟨connected, -, hw⟩ | ⟨s, -, hw⟩ | ⟨-, count, hw⟩
    · rwa [hw]
    · rwa [hw, Client.breakDown_wasHeld]
    · rwa [hw]
    · rwa [hw]
    · rwa [hw]

/-- Only of a client that somebody has had a fault is reported, and only such a client is
overwritten. -/
theorem Befalls.wasHeld {w : World} (h : m.Befalls e w) (s : Lifecycle)
    (he : e = .breakDown c ∨ e = .setState c s) : (m.world.client c).wasHeld = true := by
  rcases he with rfl | rfl
  · cases h with
    | breakDown hand => exact (Bool.and_eq_true_iff.mp hand).2
  · cases h with
    | setState state hand => exact (Bool.and_eq_true_iff.mp hand).2

/-- New clients are out of reach and whole. -/
structure Sheltered (m : Machine) : Prop where
  /-- Nobody has had a client that has just come for a pool, and it is not broken. -/
  arrived : ∀ p, ∀ c ∈ (m.stake p).arrived,
    (m.world.client c).state ≠ .broken ∧ (m.world.client c).wasHeld = false
  /-- Commands are run on clients that somebody has had. -/
  commanded : ∀ j call c, m.call? j = some call → call.point.task? = some (.command c) →
    (m.world.client c).wasHeld = true

/-- No turn breaks a new client that is new afterwards still. -/
theorem Sheltered.turn (h : m.Sheltered) (hm : m.Reachable) (hk : m.call? k = some call)
    (takes : m.Takes k call e t) (hc : c ∈ (m.stake p).arrived)
    (unreferenced : (t.world.client c).references = 0) :
    (t.world.client c).state ≠ .broken ∧ (t.world.client c).wasHeld = false := by
  obtain ⟨whole, unheld⟩ := h.arrived p c hc
  have hmem := hm.sound.notMem_members_of_arrived hc
  have hseated : c ∈ (m.books p).seated := Multiset.mem_add.mpr (.inr hc)
  have hlt : c < m.world.clients.length :=
    (World.mem_own.mp ((hm.sound.seated p).owned c hseated)).1
  have hunsent : c ∉ call.point.outgoing := fun ho =>
    (hm.unseated_of_outgoing call (List.mem_of_getElem? hk) c ho).2 p hseated
  -- Whoever is about a client with a command or a ping has had it, or it is a member.
  have hunused : ¬ ((∃ q, c ∈ call.point.drained q) ∨ call.point.task? = some (.command c)) := by
    rintro (⟨q, hd⟩ | htask)
    · exact hmem q (hm.sound.of_mem_drainedBy (drainedBy_eq hk ▸ hd)).1
    · exact Bool.noConfusion (unheld.symm.trans (h.commanded k call c hk htask))
  have htreatment := takes.treatment hlt
  generalize t.world.client c = client at htreatment unreferenced
  cases htreatment with
  | left => exact ⟨whole, unheld⟩
  | lent | enrolled => cases unreferenced
  | stocked => exact ⟨nofun, unheld⟩
  | shared hx mem | dropped hx mem | returned hx mem | discarded hx mem => exact absurd mem (hmem _)
  | commanded command hands => exact absurd (Point.of_hands hands) hunused
  | broken asked =>
    obtain ⟨command, asked⟩ := asked
    exact absurd (Point.of_send asked) hunused
  | asked outgoing | departed rite connected outgoing => exact absurd outgoing hunsent

/-- No event breaks a new client. -/
theorem Sheltered.arrived_perform (h : m.Sheltered) (hm : m.Reachable) (hn : m.perform e = some n)
    (hc : c ∈ (n.stake p).arrived) :
    (n.world.client c).state ≠ .broken ∧ (n.world.client c).wasHeld = false := by
  have hn' : n.Sound := (hm.perform hn).sound
  have hown : c ∈ n.world.own p := (hn'.seated p).owned c (Multiset.mem_add.mpr (.inr hc))
  obtain ⟨hlt', hhome⟩ := World.mem_own.mp hown
  by_cases hlt : c < m.world.clients.length
  · have hbefore : c ∈ (m.stake p).arrived := by
      by_contra hnot
      exact hm.sound.notMem_arrived_perform hn (mem_own_before hn hlt hown) hnot hc
    have hunheld := h.arrived p c hbefore
    have hunreferenced := hn'.unreferenced_of_arrived hc
    rcases perform_cases hn with ⟨k, call, t, hk, takes, turned⟩ | ⟨o, rfl, permits, rfl⟩ |
      ⟨w, befalls, rfl⟩
    · rw [turned.world] at hunreferenced ⊢
      exact h.turn hm hk takes hbefore hunreferenced
    · rwa [client_begin]
    · have hheld : ∀ s, e = .breakDown c ∨ e = .setState c s → False := fun s he =>
        Bool.noConfusion (hunheld.2.symm.trans (befalls.wasHeld s he))
      show (w.client c).state ≠ .broken ∧ (w.client c).wasHeld = false
      rcases befalls.client hlt with hw | ⟨he, -⟩ | ⟨connected, -, hw⟩ | ⟨s, he, -⟩ | ⟨-, count, hw⟩
      · rwa [hw]
      · exact (hheld .created (.inl he)).elim
      · rwa [hw]
      · exact (hheld s (.inr he)).elim
      · rwa [hw]
  · obtain ⟨id, home, connected, hmade⟩ := made_perform hn (Nat.le_of_not_lt hlt) hlt'
    rw [hmade] at hhome ⊢
    obtain rfl : home = some p := hhome
    exact ⟨nofun, rfl⟩

/-- Commands are run on clients that somebody has had, after every event. -/
theorem Sheltered.commanded_perform (h : m.Sheltered) (hm : m.Reachable)
    (hn : m.perform e = some n) {j : CallKey} {call' : Call} (hj : n.call? j = some call')
    (htask : call'.point.task? = some (.command c)) : (n.world.client c).wasHeld = true := by
  rcases hm.known.task_before hn hj htask with ⟨i, call, hi, hc⟩ | ⟨b, -, hc⟩ |
    ⟨o, rfl, permits, hc⟩
  · exact wasHeld_perform hn (hm.tasked.commanded i call c hi hc) (h.commanded i call c hi hc)
  · cases hc
  · obtain ⟨hhand, -⟩ := command_of_task_enter permits hc
    exact wasHeld_perform hn (lt_length_of_isInHand hhand) (Bool.and_eq_true_iff.mp hhand).2

/-- New clients are always out of reach and whole. -/
theorem Reachable.sheltered (hm : m.Reachable) : m.Sheltered := by
  suffices h : m.Reachable ∧ m.Sheltered from h.2
  refine hm.induct (P := fun m => m.Reachable ∧ m.Sheltered)
    ⟨reachable_empty, fun p c hc => absurd hc (Multiset.notMem_zero c), fun j call c hj => ?_⟩ ?_
  · cases hj
  · rintro m n e ⟨hm, ih⟩ hn
    exact ⟨hm.perform hn, fun p c hc => ih.arrived_perform hm hn hc,
      fun j call c hj htask => ih.commanded_perform hm hn hj htask⟩

end Machine
end SessionPool
