import SessionPool.Proofs.Closing

/-!
# Who sees to a connected client

Nobody forgets a connected client: it is a member, or has just arrived, or is on its way out, either
one by one or with all others when its pool is closed.  `Books.Attended` is this of one client.  It
needs that the disconnection of the client does not fail, and that its connection is not found again
after it was lost.
-/

namespace SessionPool
namespace Books

variable {b b' : Books} {bad : Mishap → Prop} {c d : ClientKey}

/-- The clients that have a slot or are on their way out. -/
def attended (b : Books) : Multiset ClientKey := b.seated + b.stake.discards + b.stake.shutting

theorem mem_attended : c ∈ b.attended ↔ (c ∈ b.pool.members ∨ c ∈ b.stake.arrived) ∨
    c ∈ b.stake.discards ∨ c ∈ b.stake.shutting := by
  simp [attended, seated, or_assoc]

/-- If a client is connected, someone sees to it. -/
def Attended (c : ClientKey) (b : Books) : Prop :=
  c ∈ b.own → (b.client c).session.connected = true → c ∈ b.attended

/-- Entries that neither make a client, nor connect it, nor let go of it. -/
theorem Attended.of_imp (h : b.Attended c) (hown : c ∈ b'.own → c ∈ b.own)
    (hconnected : (b'.client c).session.connected = true →
      (b.client c).session.connected = true)
    (hattended : c ∈ b.attended → c ∈ b'.attended) : b'.Attended c :=
  fun hc hs => hattended (h (hown hc) (hconnected hs))

/-- A client that is changed is not connected by it. -/
theorem Attended.onClient (h : b.Attended c) {f : Client → Client}
    (hf : (f (b.client d)).session.connected = true → (b.client d).session.connected = true) :
    (b.onClient d f).Attended c := by
  refine h.of_imp id (fun hs => ?_) id
  by_cases hd : c = d
  · subst hd
    exact hf (by simpa using hs)
  · simpa [Function.update_of_ne hd] using hs

theorem Attended.onPool (h : b.Attended c) {f : Pool → Pool}
    (hf : (f b.pool).members = b.pool.members) : (b.onPool f).Attended c := by
  refine h.of_imp id id fun hc => ?_
  rw [mem_attended] at hc ⊢
  rwa [onPool_pool, hf]

/-- A client that leaves is discarded. -/
theorem Attended.detach (h : b.Attended c) :
    ((b.onPool fun p => p.giveBack.detach d).hold { discards := {d} }).Attended c := by
  refine h.of_imp id id fun hc => ?_
  by_cases hd : c = d
  · exact mem_attended.mpr (by simp [hd])
  · simpa [mem_attended, Pool.giveBack, Pool.detach, hd, List.mem_erase_of_ne] using hc

/-- A client that is let go of is not connected any more. -/
theorem Attended.relieve {s : Stake} (h : (b.hold s).Attended c)
    (hs : ∀ e ∈ s.arrived + s.discards + s.shutting, e = d)
    (gone : (b.client d).session.connected = false ∨ bad (.failure d))
    (hfailure : ¬ bad (.failure c)) : b.Attended c := by
  by_cases hd : c = d
  · subst hd
    rw [or_iff_left hfailure] at gone
    exact fun _ hs => absurd (gone.symm.trans hs) Bool.false_ne_true
  · refine h.of_imp id id fun hc => ?_
    have hne : c ∉ s.arrived + s.discards + s.shutting := fun hcs => hd (hs c hcs)
    simp only [mem_attended, hold_pool, hold_stake, Stake.arrived_add, Stake.discards_add,
      Stake.shutting_add, Multiset.mem_add] at hc hne ⊢
    tauto

/-- Somebody sees to a client after every entry, unless its disconnection fails or its connection
comes back. -/
theorem Attended.entry (h : b.Attended c) (hfailure : ¬ bad (.failure c))
    (hrevival : ¬ bad (.revival c)) (e : Entry bad b b') : b'.Attended c := by
  cases e with
  | found connection limits dialect vacant unstocked =>
    have hmembers : b.pool.members = [] := by rw [vacant]; rfl
    refine h.of_imp id id fun hc => ?_
    simpa [mem_attended, hmembers] using hc
  | @arrive b d k fresh unreferenced created =>
    by_cases hd : c = d
    · exact fun _ _ => mem_attended.mpr (by simp [hd])
    · refine h.of_imp ?_ ?_ ?_
      · simp [hd]
      · simp [Function.update_of_ne hd]
      · simp [mem_attended, hd]
  | dismiss closing =>
    refine h.of_imp id id ?_
    simp only [mem_attended, Pool.unreserve, hold_pool, hold_stake, onPool_pool, onPool_stake,
      Stake.arrived_add, Stake.discards_add, Stake.shutting_add, Multiset.mem_add]
    tauto
  | @enroll b d isOpen =>
    suffices h₀ : (b.onPool fun p => p.enroll d).Attended c from h₀.onClient id
    refine h.of_imp id id ?_
    simp only [mem_attended, Pool.enroll, hold_pool, hold_stake, onPool_pool, onPool_stake,
      Stake.arrived_add, Stake.discards_add, Stake.shutting_add, Multiset.mem_add,
      Multiset.mem_singleton, Multiset.notMem_zero, List.mem_append, List.mem_singleton]
    tauto
  | @enrollIdle b d =>
    suffices h₀ : (b.onPool fun p => p.enrollIdle d).Attended c from h₀.onClient id
    refine h.of_imp id id ?_
    simp only [mem_attended, Pool.enrollIdle, hold_pool, hold_stake, onPool_pool, onPool_stake,
      Stake.arrived_add, Stake.discards_add, Stake.shutting_add, Multiset.mem_add,
      Multiset.mem_singleton, Multiset.notMem_zero, List.mem_append, List.mem_singleton]
    tauto
  | @lend _ d rest isOpen front =>
    have h₀ : (b.onPool fun p => p.takeIdle rest).Attended c := h.onPool rfl
    exact h₀.onClient id
  | @giveBack _ d mem last isOpen whole =>
    have h₀ : (b.onPool fun p => p.giveBack.pushIdle d).Attended c := h.onPool rfl
    exact h₀.onClient id
  | @discard _ d mem last cause =>
    let b₀ := b.onClient d fun k => { k with references := 0 }
    show ((b₀.onPool fun p => p.giveBack.detach d).hold { discards := {d} }).Attended c
    have h₀ : b₀.Attended c := h.onClient id
    exact h₀.detach
  | @remove b d cause =>
    have h₀ : b.Attended c := h.of_imp id id (by simp [mem_attended])
    exact h₀.detach
  | takeAll settled =>
    refine h.of_imp id id ?_
    simp only [mem_attended, Pool.empty, hold_pool, hold_stake, onPool_pool, onPool_stake,
      Stake.arrived_add, Stake.discards_add, Stake.shutting_add, Multiset.mem_add,
      Multiset.mem_coe]
    tauto
  | wear mem worn ended => exact h.onClient worn.connected
  | @part _ d gone => exact h.relieve (by simp) gone hfailure
  | @shut _ d gone => exact h.relieve (by simp) gone hfailure
  | @revive _ d mem mishap =>
    have hd : c ≠ d := fun hd => hrevival (hd ▸ mishap)
    exact h.of_imp id (by simp [Function.update_of_ne hd]) id
  | share | overflow | drop | tamper => exact h.onClient id
  | _ =>
    exact h.of_imp id id (by simp [mem_attended, Pool.reserve, Pool.unreserve, Pool.drain,
      Pool.giveBack, Pool.pushIdle])

end Books

namespace Machine

variable {m : Machine} {p : PoolKey} {c : ClientKey}

/-- The clients that calls have discarded and not disconnected yet. -/
def discards (m : Machine) : List ClientKey := m.calls.flatMap fun k => k.point.discards

/-- What is discarded of a pool is what calls have discarded of its clients. -/
theorem mem_discards_books (hc : c ∈ m.world.own p) :
    c ∈ (m.books p).stake.discards ↔ c ∈ m.discards := by
  have hdiscards : (m.stake p).discards = m.discards := discards_stakeOf m.calls p
  simp [Machine.books, World.books, hdiscards, hc]

/-- Some run leads here in which no disconnection of a client has failed, and its connection has not
been found again. -/
def Docile (m : Machine) (c : ClientKey) : Prop :=
  m.ReachableWithout fun x => x = .failure c || x = .revival c

theorem Docile.reachable (h : m.Docile c) : m.Reachable := ReachableWithout.reachable h

/-- Somebody sees to every connected client that is docile. -/
theorem Docile.attended (h : m.Docile c) (p : PoolKey) : (m.books p).Attended c :=
  ReachableWithout.books_induct (I := Books.Attended c)
    (fun hc => absurd hc (Finset.notMem_empty c))
    (fun _ _ _ _ hI e => hI.entry (by simp) (by simp) e) h p

end Machine
end SessionPool
