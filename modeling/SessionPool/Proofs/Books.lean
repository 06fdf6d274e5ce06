import Mathlib.Data.Finset.Filter
import Mathlib.Data.Finset.Range
import SessionPool.Proofs.Stake

/-!
# The books of a pool

The books of a pool hold everything that concerns it: its record, its clients, and what the calls in
progress hold of it.  What happens to a pool is a sequence of entries in its books
(`Books.Entry`), each of which is one small and complete change.  One step of a call is often more
than one entry: a woken caller first stops waiting and then borrows a client, and the clients that
have been pinged go back one after the other.

An entry says when it can be made and what it changes.  Calls keep only what they hold in view, so
an entry that exchanges one holding for another reads `b.hold s` before and `b.hold t` after, where
`b` has what the other calls hold.

* `Books.Entry`: all that can happen to a pool, whatever calls are in progress.
* `World.books`: the books as they stand, with the laws of how they follow the shared state.
-/

namespace SessionPool

/-- The books of a pool. -/
structure Books where
  /-- The record of the pool. -/
  pool : Pool
  /-- All clients ever made for it. -/
  own : Finset ClientKey
  /-- These clients, and nothing of any others. -/
  client : ClientKey → Client
  /-- What the calls in progress hold of it. -/
  stake : Stake

namespace Books

variable (b : Books)

/-- Calls hold something in addition. -/
def hold (s : Stake) : Books := { b with stake := s + b.stake }

/-- The record is changed. -/
def onPool (f : Pool → Pool) : Books := { b with pool := f b.pool }

/-- A client is changed. -/
def onClient (c : ClientKey) (f : Client → Client) : Books :=
  { b with client := Function.update b.client c (f (b.client c)) }

/-- A client is made. -/
def welcome (c : ClientKey) (k : Client) : Books :=
  { b with own := insert c b.own, client := Function.update b.client c k }

/-- The clients that nobody uses: idle, or taken out to be pinged. -/
def free : Multiset ClientKey := (b.pool.idle : Multiset ClientKey) + b.stake.drained

/-- The clients that have a slot. -/
def seated : Multiset ClientKey := (b.pool.members : Multiset ClientKey) + b.stake.arrived

@[simp] theorem hold_pool (s : Stake) : (b.hold s).pool = b.pool := rfl
@[simp] theorem hold_own (s : Stake) : (b.hold s).own = b.own := rfl
@[simp] theorem hold_client (s : Stake) : (b.hold s).client = b.client := rfl
@[simp] theorem hold_stake (s : Stake) : (b.hold s).stake = s + b.stake := rfl

@[simp] theorem onPool_pool (f : Pool → Pool) : (b.onPool f).pool = f b.pool := rfl
@[simp] theorem onPool_own (f : Pool → Pool) : (b.onPool f).own = b.own := rfl
@[simp] theorem onPool_client (f : Pool → Pool) : (b.onPool f).client = b.client := rfl
@[simp] theorem onPool_stake (f : Pool → Pool) : (b.onPool f).stake = b.stake := rfl

@[simp] theorem onClient_pool (c : ClientKey) (f : Client → Client) :
    (b.onClient c f).pool = b.pool := rfl
@[simp] theorem onClient_own (c : ClientKey) (f : Client → Client) :
    (b.onClient c f).own = b.own := rfl
@[simp] theorem onClient_client (c : ClientKey) (f : Client → Client) :
    (b.onClient c f).client = Function.update b.client c (f (b.client c)) := rfl
@[simp] theorem onClient_stake (c : ClientKey) (f : Client → Client) :
    (b.onClient c f).stake = b.stake := rfl

@[simp] theorem welcome_pool (c : ClientKey) (k : Client) : (b.welcome c k).pool = b.pool := rfl
@[simp] theorem welcome_own (c : ClientKey) (k : Client) :
    (b.welcome c k).own = insert c b.own := rfl
@[simp] theorem welcome_client (c : ClientKey) (k : Client) :
    (b.welcome c k).client = Function.update b.client c k := rfl
@[simp] theorem welcome_stake (c : ClientKey) (k : Client) : (b.welcome c k).stake = b.stake := rfl

end Books

/-! ## Entries -/

/-- Use wears a client down: commands, faults, lost connections and farewells leave its references
alone, never bring its connection back, and can only end its life. -/
structure Client.Worn (k k' : Client) : Prop where
  home : k'.home = k.home
  references : k'.references = k.references
  connected : k'.session.connected → k.session.connected
  state : k'.state = k.state ∨ k'.state = .broken ∨ k'.state = .disconnected

namespace Books

/-- What can happen to a pool, if only mishaps happen that are `bad`. -/
inductive Entry (bad : Mishap → Prop) : Books → Books → Prop where
  /-- The pool is made, and its stocking begins. -/
  | found {b : Books} (connection : Connection) (limits : PoolLimits) (dialect : Dialect)
      (vacant : b.pool = default) (unstocked : b.stake.budget = 0) :
      Entry bad b ((b.onPool fun _ => { connection, limits, dialect }).hold
        { budget := (min limits.initialClients limits.maxClients).toNat })
  /-- A stocking reserves a slot. -/
  | reserveFirst {b : Books} (n : ℕ) :
      Entry bad (b.hold { budget := n + 1 })
        ((b.onPool Pool.reserve).hold { budget := n, openings := 1 })
  /-- A stocking gives up the slots it has not reserved. -/
  | forgo {b : Books} (n : ℕ) : Entry bad (b.hold { budget := n }) b
  /-- A caller reserves a slot. -/
  | reserve {b : Books} (unstocked : b.stake.budget = 0) (isOpen : b.pool.closing = false)
      (room : b.pool.hasRoom) :
      Entry bad b ((b.onPool Pool.reserve).hold { openings := 1 })
  /-- A session comes, and a client is made of it. -/
  | arrive {b : Books} {c : ClientKey} (k : Client) (fresh : c ∉ b.own)
      (unreferenced : k.references = 0) (created : k.state = .created) :
      Entry bad (b.hold { openings := 1 })
        (((b.welcome c k).onPool fun p => { p with nextNumber := p.nextNumber + 1 }).hold
          { arrived := {c} })
  /-- No session comes. -/
  | refuse {b : Books} : Entry bad (b.hold { openings := 1 }) (b.hold { refusals := 1 })
  /-- The slot of a session that has not come is given back. -/
  | unreserve {b : Books} : Entry bad (b.hold { refusals := 1 }) (b.onPool Pool.unreserve)
  /-- A new client comes too late, and its slot is given back. -/
  | dismiss {b : Books} {c : ClientKey} (closing : b.pool.closing = true) :
      Entry bad (b.hold { arrived := {c} })
        ((b.onPool Pool.unreserve).hold { discards := {c} })
  /-- A new client stays with its borrower. -/
  | enroll {b : Books} {c : ClientKey} (isOpen : b.pool.closing = false) :
      Entry bad (b.hold { arrived := {c} })
        ((b.onPool fun p => p.enroll c).onClient c Client.lend)
  /-- A new client is idle at once. -/
  | enrollIdle {b : Books} {c : ClientKey} :
      Entry bad (b.hold { arrived := {c} })
        ((b.onPool fun p => p.enrollIdle c).onClient c fun k => { k with state := .idle })
  /-- The next idle client is lent. -/
  | lend {b : Books} {c : ClientKey} {rest : List ClientKey} (isOpen : b.pool.closing = false)
      (front : b.pool.idle = c :: rest) :
      Entry bad b ((b.onPool fun p => p.takeIdle rest).onClient c Client.lend)
  /-- A lent client is shared. -/
  | share {b : Books} {c : ClientKey} (mem : c ∈ b.pool.members)
      (lent : (b.client c).references ≠ 0)
      (countable : (b.client c).references ≠ Client.mostReferences) :
      Entry bad b (b.onClient c fun k => { k with references := k.references + 1 })
  /-- A lent client is shared that has as many references as can be counted. -/
  | overflow {b : Books} {c : ClientKey} (mishap : bad (.overflow c)) (mem : c ∈ b.pool.members)
      (full : (b.client c).references = Client.mostReferences) :
      Entry bad b (b.onClient c fun k => { k with references := 0 })
  /-- A reference is given back, and not the last one. -/
  | drop {b : Books} {c : ClientKey} (mem : c ∈ b.pool.members)
      (lent : (b.client c).references ≠ 0) (more : (b.client c).references ≠ 1) :
      Entry bad b (b.onClient c fun k => { k with references := k.references - 1 })
  /-- The last reference is given back, and the client is idle again. -/
  | giveBack {b : Books} {c : ClientKey} (mem : c ∈ b.pool.members)
      (last : (b.client c).references = 1) (isOpen : b.pool.closing = false)
      (whole : (b.client c).isBroken = false) :
      Entry bad b ((b.onPool fun p => p.giveBack.pushIdle c).onClient c
        fun k => { k with references := 0, state := .idle })
  /-- The last reference is given back, and the client is discarded. -/
  | discard {b : Books} {c : ClientKey} (mem : c ∈ b.pool.members)
      (last : (b.client c).references = 1)
      (cause : (b.client c).isBroken = true ∨ b.pool.closing = true) :
      Entry bad b (((b.onPool fun p => p.giveBack.detach c).onClient c
        fun k => { k with references := 0 }).hold { discards := {c} })
  /-- A caller begins to wait. -/
  | wait {b : Books} :
      Entry bad b ((b.onPool fun p => { p with waiting := p.waiting + 1 }).hold { waiters := 1 })
  /-- A caller does not wait any more. -/
  | rise {b : Books} :
      Entry bad (b.hold { waiters := 1 }) (b.onPool fun p => { p with waiting := p.waiting - 1 })
  /-- All idle clients are taken out to be pinged. -/
  | drain {b : Books} (isOpen : b.pool.closing = false) :
      Entry bad b ((b.onPool Pool.drain).hold { drained := b.pool.idle })
  /-- A client that was pinged goes back. -/
  | restore {b : Books} {c : ClientKey} (isOpen : b.pool.closing = false)
      (whole : (b.client c).isBroken = false) :
      Entry bad (b.hold { drained := {c} }) (b.onPool fun p => p.giveBack.pushIdle c)
  /-- A client that was pinged is discarded. -/
  | remove {b : Books} {c : ClientKey}
      (cause : (b.client c).isBroken = true ∨ b.pool.closing = true) :
      Entry bad (b.hold { drained := {c} })
        ((b.onPool fun p => p.giveBack.detach c).hold { discards := {c} })
  /-- A call begins to close the pool. -/
  | beginClosing {b : Books} (unstocked : b.stake.budget = 0) (isOpen : b.pool.closing = false) :
      Entry bad b ((b.onPool fun p => { p with closing := true }).hold { drainers := 1 })
  /-- Nothing is outstanding, and all clients are taken out. -/
  | takeAll {b : Books} (settled : b.pool.outstanding = 0) :
      Entry bad (b.hold { drainers := 1 })
        ((b.onPool Pool.empty).hold { shutters := 1, shutting := b.pool.members })
  /-- The pool is closed. -/
  | markClosed {b : Books} :
      Entry bad (b.hold { shutters := 1 }) (b.onPool fun p => { p with closed := true })
  /-- A client is used or sent off. -/
  | wear {b : Books} {c : ClientKey} {f : Client → Client} (mem : c ∈ b.own)
      (worn : (b.client c).Worn (f (b.client c)))
      (ended : (f (b.client c)).state = .disconnected →
        (b.client c).state = .disconnected ∨ (f (b.client c)).session.connected = false ∨
          bad (.failure c)) :
      Entry bad b (b.onClient c f)
  /-- A discarded client has been disconnected. -/
  | part {b : Books} {c : ClientKey}
      (gone : (b.client c).session.connected = false ∨ bad (.failure c)) :
      Entry bad (b.hold { discards := {c} }) b
  /-- A client of the closed pool has been disconnected. -/
  | shut {b : Books} {c : ClientKey}
      (gone : (b.client c).session.connected = false ∨ bad (.failure c)) :
      Entry bad (b.hold { shutting := {c} }) b
  /-- The state of a client is overwritten. -/
  | tamper {b : Books} {c : ClientKey} (s : Lifecycle) (mishap : bad (.tampering c)) :
      Entry bad b (b.onClient c fun k => { k with state := s })
  /-- The connection of a client is found again. -/
  | revive {b : Books} {c : ClientKey} (mem : c ∈ b.own) (mishap : bad (.revival c)) :
      Entry bad b (b.onClient c fun k => { k with session := { k.session with connected := true } })

/-- Entries one after the other. -/
abbrev Entries (bad : Mishap → Prop) : Books → Books → Prop :=
  Relation.ReflTransGen (Entry bad)

end Books

/-! ## The books as they stand -/

namespace World

/-- The clients that were made for a pool. -/
def own (w : World) (p : PoolKey) : Finset ClientKey :=
  (Finset.range w.clients.length).filter fun c => (w.client c).home = some p

/-- The books of a pool, given what the calls in progress hold of it. -/
def books (w : World) (p : PoolKey) (s : Stake) : Books where
  pool := w.pool p
  own := w.own p
  client c := if c ∈ w.own p then w.client c else default
  stake := { s with discards := s.discards.filter (· ∈ w.own p) }

variable {w : World} {p : PoolKey} {c : ClientKey}

theorem mem_own : c ∈ w.own p ↔ c < w.clients.length ∧ (w.client c).home = some p := by
  simp [own]

/-- A client that was made by hand belongs to no pool. -/
theorem home_of_handmade (h : w.hasHandmade c = true) : (w.client c).home = none := by
  simp only [hasHandmade, Bool.and_eq_true, Option.isNone_iff_eq_none] at h
  exact h.2

theorem notMem_own_of_handmade (h : w.hasHandmade c = true) : c ∉ w.own p := by
  intro hc
  have hhome := (mem_own.mp hc).2
  rw [home_of_handmade h] at hhome
  cases hhome

/-- A client belongs to one pool only. -/
theorem notMem_own_of_ne {q : PoolKey} (h : c ∈ w.own p) (hq : q ≠ p) : c ∉ w.own q := by
  intro hc
  have hp := (mem_own.mp h).2
  rw [(mem_own.mp hc).2, Option.some.injEq] at hp
  exact hq hp

/-- A client that is there has a home if a pool was it made for. -/
theorem mem_own_of_home (h : (w.client c).home = some p) : c ∈ w.own p := by
  refine mem_own.mpr ⟨?_, h⟩
  by_contra hc
  have hd : w.client c = default := by
    simp [client, List.getElem?_eq_none (Nat.le_of_not_lt hc)]
  rw [hd] at h
  cases h

/-- Changes that make the same of a client are the same. -/
theorem onClient_congr {f g : Client → Client} (h : f (w.client c) = g (w.client c)) :
    w.onClient c f = w.onClient c g := by
  simp only [onClient, mk.injEq, and_true]
  refine List.ext_getElem? fun d => ?_
  rw [List.getElem?_modify, List.getElem?_modify]
  by_cases hd : c = d
  · subst hd
    cases hk : w.clients[c]? with
    | none => rfl
    | some k =>
      have hc : w.client c = k := by simp [client, hk]
      simpa [hc] using h
  · simp [hd]

/-- A pool that has a member is there. -/
theorem lt_length_of_mem (h : c ∈ (w.pool p).members) : p < w.pools.length := by
  by_contra hp
  have hd : w.pool p = default := by
    simp [pool, List.getElem?_eq_none (Nat.le_of_not_lt hp)]
  rw [hd] at h
  cases h

@[simp] theorem books_pool (s : Stake) : (w.books p s).pool = w.pool p := rfl
@[simp] theorem books_own (s : Stake) : (w.books p s).own = w.own p := rfl

/-- Only pools and clients are in the books. -/
theorem books_congr {w' : World} {s : Stake} (hpools : w'.pools = w.pools)
    (hclients : w'.clients = w.clients) : w'.books p s = w.books p s := by
  cases w
  cases w'
  cases hpools
  cases hclients
  rfl

theorem books_client (s : Stake) (h : c ∈ w.own p) : (w.books p s).client c = w.client c :=
  if_pos h

/-- What is held in addition stands in the books, provided that discards are clients of the
pool. -/
theorem books_hold (s t : Stake) (h : ∀ c ∈ s.discards, c ∈ w.own p) :
    w.books p (s + t) = (w.books p t).hold s := by
  have hs : s.discards.filter (· ∈ w.own p) = s.discards := Multiset.filter_eq_self.mpr h
  simp only [books, Books.hold, Books.mk.injEq, true_and]
  ext1 <;> simp [hs]

/-- What is held in addition and is not discarded stands in the books. -/
theorem books_hold_of_eq (s t : Stake) (h : s.discards = 0) :
    w.books p (s + t) = (w.books p t).hold s :=
  books_hold s t (by simp [h])

/-- A discarded client stands in the books of its pool. -/
theorem books_discarded (t : Stake) (h : c ∈ w.own p) :
    w.books p ({ discards := {c} } + t) = (w.books p t).hold { discards := {c} } :=
  books_hold _ t fun _ hd => Multiset.mem_singleton.mp hd ▸ h

/-- Discarded clients of other pools do not stand in the books. -/
theorem books_foreign {cs : Multiset ClientKey} (t : Stake) (h : ∀ c ∈ cs, c ∉ w.own p) :
    w.books p ({ discards := cs } + t) = w.books p t := by
  have hcs : cs.filter (· ∈ w.own p) = 0 := Multiset.filter_eq_nil.mpr h
  simp only [books, Books.mk.injEq, true_and]
  ext1 <;> simp [hcs]

theorem books_foreign_singleton (t : Stake) (h : c ∉ w.own p) :
    w.books p ({ discards := {c} } + t) = w.books p t :=
  books_foreign t fun _ hd => Multiset.mem_singleton.mp hd ▸ h

/-- The books follow the record of their pool. -/
theorem books_onPool (s : Stake) (h : p < w.pools.length) (f : Pool → Pool) :
    (w.onPool p f).books p s = (w.books p s).onPool f := by
  simp only [books, Books.onPool, pool_onPool w h]
  rfl

/-- The books do not follow the record of another pool. -/
theorem books_onPool_of_ne {q : PoolKey} (s : Stake) (h : q ≠ p) (f : Pool → Pool) :
    (w.onPool p f).books q s = w.books q s := by
  simp only [books, pool_onPool_of_ne w h]
  rfl

theorem pool_addPool (x : Pool) (q : PoolKey) :
    (w.addPool x).pool q = if q = w.pools.length then x else w.pool q := by
  rcases Nat.lt_trichotomy q w.pools.length with h | h | h
  · simp [pool, addPool, List.getElem?_append_left h, Nat.ne_of_lt h]
  · simp [pool, addPool, h]
  · rw [if_neg (Nat.ne_of_gt h)]
    have hl : (w.pools ++ [x]).length ≤ q := by simpa using Nat.succ_le_of_lt h
    simp [pool, addPool, List.getElem?_eq_none (Nat.le_of_lt h), List.getElem?_eq_none hl]

/-- The books follow a new pool. -/
theorem books_addPool (s : Stake) (x : Pool) :
    (w.addPool x).books w.pools.length s =
      (w.books w.pools.length s).onPool fun _ => x := by
  simp only [books, Books.onPool, pool_addPool, if_true]
  rfl

/-- The books do not follow another new pool. -/
theorem books_addPool_of_ne {q : PoolKey} (s : Stake) (h : q ≠ w.pools.length) (x : Pool) :
    (w.addPool x).books q s = w.books q s := by
  simp only [books, pool_addPool, if_neg h]
  rfl

theorem own_onClient {f : Client → Client} (hf : (f (w.client c)).home = (w.client c).home) :
    (w.onClient c f).own p = w.own p := by
  ext d
  rw [mem_own, mem_own]
  have hl : (w.onClient c f).clients.length = w.clients.length := by simp [onClient]
  rw [hl]
  refine and_congr_right fun hd => ?_
  by_cases hc : d = c
  · rw [hc, client_onClient w (hc ▸ hd), hf]
  · rw [client_onClient_of_ne w hc]

/-- The books follow the clients of their pool. -/
theorem books_onClient (s : Stake) (h : c ∈ w.own p) {f : Client → Client}
    (hf : (f (w.client c)).home = (w.client c).home) :
    (w.onClient c f).books p s = (w.books p s).onClient c f := by
  simp only [books, Books.onClient, own_onClient hf, Books.mk.injEq, true_and, and_true,
    pool_onClient]
  funext d
  by_cases hc : d = c
  · rw [hc, Function.update_self, if_pos h, if_pos h, client_onClient w (mem_own.mp h).1]
  · rw [Function.update_of_ne hc, client_onClient_of_ne w hc]

/-- The books do not follow the clients of other pools. -/
theorem books_onClient_of_notMem (s : Stake) (h : c ∉ w.own p) {f : Client → Client}
    (hf : (f (w.client c)).home = (w.client c).home) :
    (w.onClient c f).books p s = w.books p s := by
  simp only [books, own_onClient hf, Books.mk.injEq, true_and, and_true, pool_onClient]
  funext d
  by_cases hc : d = c
  · rw [hc, if_neg h, if_neg h]
  · rw [client_onClient_of_ne w hc]

theorem client_addClient (k : Client) (d : ClientKey) :
    (w.addClient k).client d = if d = w.clients.length then k else w.client d := by
  rcases Nat.lt_trichotomy d w.clients.length with h | h | h
  · simp [client, addClient, List.getElem?_append_left h, Nat.ne_of_lt h]
  · simp [client, addClient, h]
  · rw [if_neg (Nat.ne_of_gt h)]
    have hl : (w.clients ++ [k]).length ≤ d := by simpa using Nat.succ_le_of_lt h
    simp [client, addClient, List.getElem?_eq_none (Nat.le_of_lt h), List.getElem?_eq_none hl]

theorem own_addClient (k : Client) :
    (w.addClient k).own p =
      if k.home = some p then insert w.clients.length (w.own p) else w.own p := by
  ext d
  have hl : (w.addClient k).clients.length = w.clients.length + 1 := by simp [addClient]
  rw [mem_own, client_addClient, hl]
  by_cases hd : d = w.clients.length
  · by_cases hk : k.home = some p <;> simp [hd, hk, mem_own]
  · rw [if_neg hd, Nat.lt_add_one_iff_lt_or_eq, or_iff_left hd, ← mem_own]
    split <;> simp [hd]

/-- The books follow a new client of their pool. -/
theorem books_addClient (s : Stake) {k : Client} (hk : k.home = some p)
    (h : w.clients.length ∉ s.discards) :
    (w.addClient k).books p s = (w.books p s).welcome w.clients.length k := by
  have hd : s.discards.filter (· ∈ insert w.clients.length (w.own p)) =
      s.discards.filter (· ∈ w.own p) := by
    refine Multiset.filter_congr fun d hds => ?_
    have : d ≠ w.clients.length := fun hd => h (hd ▸ hds)
    simp [this]
  simp only [books, Books.welcome, own_addClient, hk, if_true, hd, Books.mk.injEq, true_and,
    and_true]
  refine ⟨rfl, funext fun d => ?_⟩
  by_cases hd : d = w.clients.length
  · simp [hd, client_addClient]
  · simp [hd, client_addClient]

/-- The books do not follow a new client of another pool. -/
theorem books_addClient_of_ne (s : Stake) {k : Client} (hk : k.home ≠ some p) :
    (w.addClient k).books p s = w.books p s := by
  simp only [books, own_addClient, hk, if_false, Books.mk.injEq, true_and, and_true]
  refine ⟨rfl, funext fun d => ?_⟩
  by_cases hd : d ∈ w.own p
  · rw [if_pos hd, if_pos hd, client_addClient, if_neg (Nat.ne_of_lt (mem_own.mp hd).1)]
  · rw [if_neg hd, if_neg hd]

end World

/-- The books of a pool in a machine. -/
def Machine.books (m : Machine) (p : PoolKey) : Books := m.world.books p (m.stake p)

end SessionPool
