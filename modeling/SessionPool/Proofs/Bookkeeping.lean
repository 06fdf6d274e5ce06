import SessionPool.Machine
import SessionPool.Proofs.Balance

/-!
# Every step is a sequence of entries

A step of one call is a sequence of entries in the books of every pool, whatever the other calls
hold.  This is the ground that the lemmas about the step functions of each kind of call stand on.

* `Footing`: what a step may rely on.  The books balance, a call that deals with the slots of a pool
  deals with a pool that exists, and nobody uses a pool that is still being stocked.
* `Passage`: what a step guarantees.  Besides the entries this is that a call never goes to
  another pool, and that all clients it discards have been made.
-/

namespace SessionPool

/-! ## Errands -/

/-- What a call has to do with the slots of a pool. -/
inductive Errand where
  /-- It stocks the pool. -/
  | stock (p : PoolKey)
  /-- It takes clients or closes the pool. -/
  | use (p : PoolKey)
  deriving DecidableEq

namespace Point

/-- The errand of a call that stands at a point. -/
def errand? : Point → Option Errand
  | .stock p _ _ => some (.stock p)
  | .acquire p _ _ _ => some (.use p)
  | .close p _ => some (.use p)
  | .farewell _ _ _ (.markClosed p _) => some (.use p)
  | _ => none

/-- The clients that a call has discarded and not disconnected yet. -/
def discards : Point → List ClientKey
  | .farewell .disconnect _ todo (.destroy _ _) => todo
  | _ => []

theorem discards_stake (x : Point) (p : PoolKey) : (x.stake p).discards = x.discards := by
  cases x with
  | stock q left s =>
    cases s <;> simp [stake, discards, StockPoint.stake, apply_ite Stake.discards]
  | acquire q t leased s =>
    cases s <;> simp [stake, discards, AcquirePoint.stake, apply_ite Stake.discards]
  | keepAlive q s => simp [stake, discards, apply_ite Stake.discards]
  | close q s => cases s <;> simp [stake, discards, ClosePoint.stake, apply_ite Stake.discards]
  | farewell rite waiting todo next =>
    cases rite <;> cases next <;> simp [stake, discards, apply_ite Stake.discards]
  | _ => rfl

/-- Only a call that stocks a pool has a budget. -/
theorem budget_stake {x : Point} {p : PoolKey} (h : x.errand? ≠ some (.stock p)) :
    (x.stake p).budget = 0 := by
  cases x with
  | stock q left s =>
    have hq : q ≠ p := fun hq => h (by rw [hq]; rfl)
    simp [stake, hq]
  | acquire q t leased s =>
    cases s <;> simp [stake, AcquirePoint.stake, apply_ite Stake.budget]
  | keepAlive q s => simp [stake, apply_ite Stake.budget]
  | close q s => cases s <;> simp [stake, ClosePoint.stake, apply_ite Stake.budget]
  | farewell rite waiting todo next =>
    cases rite <;> cases next <;> simp [stake, apply_ite Stake.budget]
  | _ => rfl

end Point

/-! ## What a step may rely on, and what it guarantees -/

/-- What a call may rely on that stands at `x`, while the others hold `rest`. -/
structure Footing (w : World) (rest : PoolKey → Stake) (x : Point) : Prop where
  seated : ∀ p, (w.books p (x.stake p + rest p)).Seated
  counted : ∀ p, (w.books p (x.stake p + rest p)).Counted
  made : ∀ p, ∀ c ∈ (x.stake p + rest p).discards, c < w.clients.length
  stocked : ∀ p, x.errand? = some (.stock p) → p < w.pools.length
  used : ∀ p, x.errand? = some (.use p) → p < w.pools.length ∧ (rest p).budget = 0

/-- What a step guarantees that takes a call from `x` to `y`, while the others hold `rest`. -/
structure Passage (bad : Mishap → Prop) (rest : PoolKey → Stake) (w : World) (x : Point)
    (w' : World) (y : Point) : Prop where
  entries : ∀ p, Books.Entries bad (w.books p (x.stake p + rest p))
    (w'.books p (y.stake p + rest p))
  errand : y.errand? = none ∨ y.errand? = x.errand?
  made : ∀ c ∈ y.discards, c < w'.clients.length
  pools : w'.pools.length = w.pools.length
  clients : w.clients.length ≤ w'.clients.length

namespace World

variable (w : World)

@[simp] theorem length_pools_onPool (p : PoolKey) (f : Pool → Pool) :
    (w.onPool p f).pools.length = w.pools.length := by simp [onPool]

@[simp] theorem length_pools_onClient (c : ClientKey) (f : Client → Client) :
    (w.onClient c f).pools.length = w.pools.length := rfl

@[simp] theorem length_clients_onPool (p : PoolKey) (f : Pool → Pool) :
    (w.onPool p f).clients.length = w.clients.length := rfl

@[simp] theorem length_clients_onClient (c : ClientKey) (f : Client → Client) :
    (w.onClient c f).clients.length = w.clients.length := by simp [onClient]

end World

/-- A step leads from `x` to the point that it says. -/
def Turn.Passes (bad : Mishap → Prop) (rest : PoolKey → Stake) (w : World) (x : Point)
    (t : Turn) : Prop :=
  Passage bad rest w x t.world t.point

/-- A step that starts no call. -/
theorem Turn.forall_started {t : Turn} {P : Point → Prop} (h : t.started = none) :
    ∀ y ∈ t.started, P y := by
  rw [h]
  intro y hy
  cases hy

namespace Passage

variable {bad : Mishap → Prop} {rest : PoolKey → Stake} {w w' w'' : World} {x y z : Point}

/-- A step that changes no books and does not change what the call holds. -/
theorem of_same (hf : Footing w rest x) (hbooks : ∀ p s, w'.books p s = w.books p s)
    (hstake : ∀ p, y.stake p = x.stake p) (errand : y.errand? = none ∨ y.errand? = x.errand?)
    (pools : w'.pools.length = w.pools.length) (clients : w'.clients.length = w.clients.length) :
    Passage bad rest w x w' y where
  entries p := by rw [hbooks, hstake]
  errand := errand
  made c hc := by
    rw [clients]
    refine hf.made 0 c (Multiset.mem_add.mpr (.inl ?_))
    rw [← hstake, Point.discards_stake]
    exact hc
  pools := pools
  clients := clients.ge

/-- A step that changes nothing but the point. -/
theorem stay (hf : Footing w rest x) (hstake : ∀ p, y.stake p = x.stake p)
    (errand : y.errand? = none ∨ y.errand? = x.errand?) : Passage bad rest w x w y :=
  .of_same hf (fun _ _ => rfl) hstake errand rfl rfl

/-- A step that has to do with one pool only. -/
theorem of_pool (p : PoolKey)
    (here : Books.Entries bad (w.books p (x.stake p + rest p)) (w'.books p (y.stake p + rest p)))
    (elsewhere : ∀ q, q ≠ p →
      w'.books q (y.stake q + rest q) = w.books q (x.stake q + rest q))
    (errand : y.errand? = none ∨ y.errand? = x.errand?)
    (made : ∀ c ∈ y.discards, c < w'.clients.length)
    (pools : w'.pools.length = w.pools.length) (clients : w.clients.length ≤ w'.clients.length) :
    Passage bad rest w x w' y where
  entries q := by
    by_cases hq : q = p
    · exact hq ▸ here
    · rw [elsewhere q hq]
  errand := errand
  made := made
  pools := pools
  clients := clients

/-- A step that changes one client, and that no calls know of. -/
theorem of_client {p : PoolKey} {c : ClientKey} {f : Client → Client} (hf : Footing w rest x)
    (hc : c ∈ w.own p) (home : (f (w.client c)).home = (w.client c).home)
    (here : Books.Entry bad (w.books p (x.stake p + rest p))
      ((w.books p (x.stake p + rest p)).onClient c f))
    (hstake : ∀ q, y.stake q = x.stake q) (errand : y.errand? = none ∨ y.errand? = x.errand?) :
    Passage bad rest w x (w.onClient c f) y := by
  refine .of_pool p (.single ?_) ?_ errand ?_ (by simp) (by simp)
  · rw [hstake, World.books_onClient _ hc home]
    exact here
  · intro q hq
    rw [hstake, World.books_onClient_of_notMem _ (World.notMem_own_of_ne hc hq) home]
  · intro d hd
    rw [World.length_clients_onClient]
    refine hf.made p d (Multiset.mem_add.mpr (.inl ?_))
    rw [← hstake, Point.discards_stake]
    exact hd

/-- A step that uses a client, of whatever pool it is. -/
theorem wear {c : ClientKey} {f : Client → Client} (hf : Footing w rest x)
    (worn : (w.client c).Worn (f (w.client c)))
    (ended : (f (w.client c)).state = .disconnected → (w.client c).state = .disconnected ∨
      (f (w.client c)).session.connected = false ∨ bad (.failure c))
    (hstake : ∀ q, y.stake q = x.stake q) (errand : y.errand? = none ∨ y.errand? = x.errand?) :
    Passage bad rest w x (w.onClient c f) y := by
  cases hhome : (w.client c).home with
  | some p =>
    have hc : c ∈ w.own p := World.mem_own_of_home hhome
    have hclient : (w.books p (x.stake p + rest p)).client c = w.client c :=
      World.books_client _ hc
    exact .of_client hf hc worn.home (.wear hc (hclient ▸ worn) (hclient ▸ ended)) hstake errand
  | none =>
    refine .of_same hf (fun p s => ?_) hstake errand (by simp) (by simp)
    refine World.books_onClient_of_notMem _ (fun hc => ?_) worn.home
    rw [(World.mem_own.mp hc).2] at hhome
    cases hhome

/-- After a step there is a footing for the next one. -/
theorem footing (h : Passage bad rest w x w' y) (hf : Footing w rest x) : Footing w' rest y where
  seated p := ((hf.seated p).entries (hf.counted p) (h.entries p)).1
  counted p := ((hf.seated p).entries (hf.counted p) (h.entries p)).2
  made p c hc := by
    rw [Stake.discards_add, Multiset.mem_add, Point.discards_stake] at hc
    rcases hc with hc | hc
    · exact h.made c hc
    · exact (hf.made p c (Multiset.mem_add.mpr (.inr hc))).trans_le h.clients
  stocked p hp := by
    rw [h.pools]
    rcases h.errand with he | he
    · rw [he] at hp; cases hp
    · exact hf.stocked p (he ▸ hp)
  used p hp := by
    rw [h.pools]
    rcases h.errand with he | he
    · rw [he] at hp; cases hp
    · exact hf.used p (he ▸ hp)

/-- Two steps of a call are one. -/
theorem trans (h : Passage bad rest w x w' y) (h' : Passage bad rest w' y w'' z) :
    Passage bad rest w x w'' z where
  entries p := (h.entries p).trans (h'.entries p)
  errand := by
    rcases h'.errand with he | he
    · exact .inl he
    · rw [he]; exact h.errand
  made := h'.made
  pools := h'.pools.trans h.pools
  clients := h.clients.trans h'.clients

end Passage
end SessionPool
