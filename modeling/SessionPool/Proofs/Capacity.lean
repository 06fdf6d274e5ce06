import Mathlib.Data.Finset.Card
import SessionPool.Proofs.Custody

/-!
# How many clients are connected

A pool has at most as many slots as it may have clients.  The slot of a client that is discarded
comes free when the client leaves the pool, which is before it is disconnected, and the next caller
may open another session with it in the meantime.

* `Machine.card_live_le_iff`: the connected clients that have not been discarded always fit into the
  pool, so that all of them do exactly if those fit in beside that are still being disconnected.
* `Machine.not_card_live_le`: they do not always.
-/

namespace SessionPool
namespace Books

variable {b b' : Books} {bad : Mishap → Prop} {c d : ClientKey}

/-- The connected clients that have not been discarded. -/
def retained (b : Books) : Finset ClientKey :=
  b.own.filter fun c => (b.client c).session.connected = true ∧ c ∉ b.stake.discards

theorem mem_retained : c ∈ b.retained ↔
    c ∈ b.own ∧ (b.client c).session.connected = true ∧ c ∉ b.stake.discards := by
  simp [retained]

/-- The connected clients that have not been discarded fit into the pool together with the sessions
that are still to be opened. -/
def Fits (b : Books) : Prop :=
  b.retained.card + b.stake.openings + b.stake.budget ≤ b.pool.limits.maxClients.toNat

/-- While a pool is open the clients that are retained have slots. -/
theorem fits_of_open (hn : b.Counted) (ho : b.Orderly) (ha : ∀ c, b.Attended c)
    (hopen : b.pool.closing = false) : b.Fits := by
  have hsubset : b.retained ⊆ b.seated.toFinset := by
    intro c hc
    obtain ⟨hown, hs, hdiscards⟩ := mem_retained.mp hc
    have hattended := mem_attended.mp (ha c hown hs)
    rw [(ho.untouched hopen).2.2.1, or_iff_left (Multiset.notMem_zero c),
      or_iff_left hdiscards] at hattended
    exact Multiset.mem_toFinset.mpr (Multiset.mem_add.mpr hattended)
  have hcard := (Finset.card_le_card hsubset).trans (Multiset.toFinset_card_le _)
  have hcreated := hn.created
  have hbound := hn.bound
  simp only [seated, Multiset.card_add, Multiset.coe_card] at hcard
  unfold Stake.creations at hcreated
  unfold Fits
  omega

/-- Entries that retain no more clients and have no more sessions to open. -/
theorem Fits.of_subset (h : b.Fits) (hlimits : b'.pool.limits = b.pool.limits)
    (hretained : b'.retained ⊆ b.retained)
    (hstake : b'.stake.openings + b'.stake.budget ≤ b.stake.openings + b.stake.budget) :
    b'.Fits := by
  have hcard := Finset.card_le_card hretained
  unfold Fits at h ⊢
  rw [hlimits]
  omega

/-- A client is not retained that has not been before, unless it has been made, connected, or taken
from those that are discarded. -/
theorem retained_subset (hown : b'.own ⊆ b.own)
    (hconnected : ∀ c, (b'.client c).session.connected = true →
      (b.client c).session.connected = true)
    (hdiscards : ∀ c, (b'.client c).session.connected = true → c ∈ b.stake.discards →
      c ∈ b'.stake.discards) : b'.retained ⊆ b.retained := by
  intro c hc
  obtain ⟨hc, hs, hd⟩ := mem_retained.mp hc
  exact mem_retained.mpr ⟨hown hc, hconnected c hs, fun h => hd (hdiscards c hs h)⟩

/-- A change of a client that does not connect it keeps the fit. -/
theorem Fits.onClient (h : b.Fits) {f : Client → Client}
    (hf : (f (b.client c)).session.connected = true → (b.client c).session.connected = true) :
    (b.onClient c f).Fits := by
  refine h.of_subset rfl
    (retained_subset (Finset.Subset.refl _) (fun d hs => ?_) fun _ _ => id) le_rfl
  by_cases hd : d = c
  · subst hd
    exact hf (by simpa using hs)
  · simpa [Function.update_of_ne hd] using hs

/-- Entries that change neither clients nor what is discarded keep the fit, if they leave no more
sessions to be opened. -/
theorem Fits.of_eq (h : b.Fits) (hlimits : b'.pool.limits = b.pool.limits)
    (hown : b'.own = b.own) (hclient : b'.client = b.client)
    (hdiscards : ∀ c ∈ b.stake.discards, c ∈ b'.stake.discards)
    (hstake : b'.stake.openings + b'.stake.budget ≤ b.stake.openings + b.stake.budget) :
    b'.Fits :=
  h.of_subset hlimits (retained_subset hown.subset (fun c hs => by rwa [hclient] at hs)
    fun c _ => hdiscards c) hstake

/-- A client that has been disconnected is not retained. -/
theorem Fits.relieve {s : Stake} (h : (b.hold s).Fits) (hs : ∀ d ∈ s.discards, d = c)
    (gone : (b.client c).session.connected = false) : b.Fits := by
  refine h.of_subset rfl (retained_subset (Finset.Subset.refl _) (fun _ => id) ?_) ?_
  · intro d hconnected hd
    rw [hold_stake, Stake.discards_add, Multiset.mem_add] at hd
    refine hd.resolve_left fun hd => ?_
    rw [hs d hd, gone] at hconnected
    exact Bool.noConfusion hconnected
  · simp only [hold_stake, Stake.openings_add, Stake.budget_add]
    omega

/-- A session that comes makes a client that is retained and is not to be opened any more. -/
theorem Fits.arrive (h : (b.hold { openings := 1 }).Fits) (k : Client) (f : Pool → Pool)
    (hf : (f b.pool).limits = b.pool.limits) :
    (((b.welcome c k).onPool f).hold { arrived := {c} }).Fits := by
  have hsubset : (((b.welcome c k).onPool f).hold { arrived := {c} }).retained ⊆
      insert c (b.hold { openings := 1 }).retained := by
    intro d hd
    obtain ⟨hown, hs, hdiscards⟩ := mem_retained.mp hd
    by_cases hdc : d = c
    · exact Finset.mem_insert.mpr (.inl hdc)
    · refine Finset.mem_insert.mpr (.inr (mem_retained.mpr ⟨?_, ?_, ?_⟩))
      · simpa [hdc] using hown
      · simpa [Function.update_of_ne hdc] using hs
      · simpa using hdiscards
  have hcard := (Finset.card_le_card hsubset).trans (Finset.card_insert_le _ _)
  unfold Fits at h ⊢
  simp only [hold_pool, onPool_pool, welcome_pool, hf, hold_stake, onPool_stake, welcome_stake,
    Stake.openings_add, Stake.budget_add] at h ⊢
  omega

/-- Every entry keeps the fit, unless disconnections fail or connections come back. -/
theorem Fits.entry (hs : b.Seated) (hn : b.Counted) (ho : b.Orderly) (ha : ∀ c, b.Attended c)
    (h : b.Fits) (hfailure : ∀ c, ¬ bad (.failure c)) (hrevival : ∀ c, ¬ bad (.revival c))
    (e : Entry bad b b') : b'.Fits := by
  by_cases hopen : b'.pool.closing = false
  · exact fits_of_open (hn.entry hs e) (ho.entry hs hn e)
      (fun c => (ha c).entry (hfailure c) (hrevival c) e) hopen
  -- In a closing pool no slot is reserved any more, so that sessions only take what was left for
  -- them.
  cases e with
  | found connection limits dialect vacant unstocked => exact absurd rfl hopen
  | reserveFirst n =>
    refine h.of_eq rfl rfl rfl (by simp) ?_
    simp
    omega
  | reserve unstocked isOpen room => exact absurd isOpen hopen
  | arrive k fresh unreferenced created => exact h.arrive k _ rfl
  | enroll isOpen => exact absurd isOpen hopen
  | @enrollIdle b c =>
    have h₀ : (b.onPool fun p => p.enrollIdle c).Fits := h.of_eq rfl rfl rfl (by simp) (by simp)
    exact h₀.onClient id
  | lend isOpen front => exact absurd isOpen hopen
  | giveBack mem last isOpen whole => exact absurd isOpen hopen
  | @discard _ c mem last cause =>
    have h₀ : (b.onClient c fun k => { k with references := 0 }).Fits := h.onClient id
    exact h₀.of_eq rfl rfl rfl (by simp +contextual) (by simp)
  | drain isOpen => exact absurd isOpen hopen
  | restore isOpen whole => exact absurd isOpen hopen
  | wear mem worn ended => exact h.onClient worn.connected
  | part gone => exact h.relieve (by simp) (gone.resolve_right (hfailure _))
  | shut gone => exact h.relieve (by simp) (gone.resolve_right (hfailure _))
  | revive mem mishap => exact absurd mishap (hrevival _)
  | share | overflow | drop | tamper => exact h.onClient id
  | _ => exact h.of_eq rfl rfl rfl (by simp +contextual) (by simp)

end Books

namespace Machine

variable {m : Machine} {p : PoolKey} {c : ClientKey}

/-- The clients of a pool that are connected. -/
def live (m : Machine) (p : PoolKey) : Finset ClientKey :=
  (m.world.own p).filter fun c => (m.world.client c).session.connected = true

/-- The clients of a pool that are connected and have not been discarded. -/
def retained (m : Machine) (p : PoolKey) : Finset ClientKey :=
  (m.live p).filter (· ∉ m.discards)

/-- The clients of a pool that are connected although they have been discarded. -/
def overdue (m : Machine) (p : PoolKey) : Finset ClientKey :=
  (m.live p).filter (· ∈ m.discards)

/-- Where no disconnection has failed and no connection has come back, the clients that are retained
fit into the pool. -/
theorem ReachableWithout.fits
    (hm : m.ReachableWithout fun x => x.isFailure || x.isRevival) (p : PoolKey) :
    (m.books p).Fits := by
  refine (hm.orderly_induct (I := fun b => (∀ c, b.Attended c) ∧ b.Fits) ⟨?_, ?_⟩ ?_ p).2.2
  · exact fun c hc => absurd hc (Finset.notMem_empty c)
  · exact Nat.zero_le _
  · rintro b b' hs hn ho ⟨ha, h⟩ e
    exact ⟨fun c => (ha c).entry nofun nofun e,
      h.entry hs hn ho ha (fun _ => nofun) (fun _ => nofun) e⟩

/-- The books retain whoever is connected and has not been discarded. -/
theorem retained_books (m : Machine) (p : PoolKey) : (m.books p).retained = m.retained p := by
  ext c
  simp only [Books.mem_retained, retained, live, Finset.mem_filter, and_assoc]
  refine and_congr_right fun hc => ?_
  rw [mem_discards_books hc, Machine.books, World.books_client _ hc]

/-- Connected clients are retained or overdue. -/
theorem card_live (m : Machine) (p : PoolKey) :
    (m.live p).card = (m.retained p).card + (m.overdue p).card := by
  rw [add_comm]
  exact (Finset.card_filter_add_card_filter_not (s := m.live p) (· ∈ m.discards)).symm

/-- The connected clients fit into a pool exactly if those that are still being disconnected fit in
beside the others, which always fit in by themselves. -/
theorem card_live_le_iff (hm : m.ReachableWithout fun x => x.isFailure || x.isRevival)
    (p : PoolKey) :
    (m.retained p).card ≤ (m.world.pool p).limits.maxClients.toNat ∧
      ((m.live p).card ≤ (m.world.pool p).limits.maxClients.toNat ↔
        (m.overdue p).card ≤
          (m.world.pool p).limits.maxClients.toNat - (m.retained p).card) := by
  have hfits : (m.retained p).card ≤ (m.world.pool p).limits.maxClients.toNat := by
    rw [← retained_books]
    exact (Nat.le_add_right _ _).trans ((Nat.le_add_right _ _).trans (hm.fits p))
  refine ⟨hfits, ?_⟩
  rw [card_live]
  omega

/-- A run in which a client of a pool for one client is being disconnected, and another has been
lent in its place. -/
def overbooked : List Event :=
  [.begin (.construct {} { maxClients := 1 } true .standard), .advance 0 0,
    .begin (.acquire 0 0), .advance 1 0, .answer 1 (.opened (.session true)), .advance 1 0,
    .breakDown 0, .begin (.release 0 0), .advance 2 0, .advance 2 0,
    .begin (.acquire 0 0), .advance 3 0, .answer 3 (.opened (.session true)), .advance 3 0]

/-- The pool is full with the one client that is retained, and the other one is too many. -/
theorem card_live_le_iff_overbooked : ∃ m : Machine, run {} overbooked = some m ∧
    (m.world.pool 0).limits.maxClients.toNat = 1 ∧ m.retained 0 = {1} ∧ m.overdue 0 = {0} ∧
    ((m.live 0).card ≤ 1 ↔ (m.overdue 0).card ≤ 1 - (m.retained 0).card) :=
  ⟨_, rfl, rfl, by decide, by decide, (card_live_le_iff ⟨overbooked, rfl⟩ 0).2⟩

/-- There can be more connected clients than the pool may have, even where no disconnection has
failed. -/
theorem not_card_live_le : ¬ ∀ (m : Machine) (p : PoolKey),
    (m.ReachableWithout fun x => x.isFailure || x.isRevival) →
      (m.live p).card ≤ (m.world.pool p).limits.maxClients.toNat := by
  intro h
  have hfalse := h _ 0 ⟨overbooked, rfl⟩
  exact absurd hfalse (by decide)

end Machine
end SessionPool
