import SessionPool.Proofs.Arrivals
import SessionPool.Proofs.Course

/-!
# Sessions that are delivered

A session that comes for a pool is wrapped in a client there and then, and nothing else makes
clients of a pool.  The clients of a pool are numbered in the order in which their sessions came.  A
session that does not come uses up no number, since the number is taken from the pool only when the
client is made.

* `World.roster`: the clients of a pool in the order in which they were made.
* `Machine.deliveries`: the clients made in those events of a run in which a session comes.
* `Machine.roster_run`: the one list grows by the other.
* `Machine.Reachable.id_of_roster`: the names of the clients of a pool.
-/

namespace SessionPool

/-! ## Names -/

/-- Different numbers are written differently. -/
theorem Text.decimal_injective : Function.Injective Text.decimal := by
  have hback : ∀ n, (Text.decimal n).map (fun b => Char.ofNat b.toNat) = Nat.toDigits 10 n := by
    intro n
    rw [Text.decimal, List.map_map]
    refine (List.map_congr_left fun c hc => ?_).trans (List.map_id _)
    have hdigit := Nat.isDigit_of_mem_toDigits (by decide) le_rfl hc
    have hle : c.toNat ≤ 57 := by
      simp only [Char.isDigit, Bool.and_eq_true, decide_eq_true_eq] at hdigit
      exact UInt32.le_iff_toNat_le.mp hdigit.2
    have hbyte : (UInt8.ofNat c.toNat).toNat = c.toNat := UInt8.toNat_ofNat_of_lt' (by
      have : UInt8.size = 256 := rfl
      omega)
    rw [Function.comp_apply, hbyte, Char.ofNat_toNat, id]
  intro a b h
  rw [← Nat.ofDigitChars_ten_toDigits (n := a), ← Nat.ofDigitChars_ten_toDigits (n := b), ← hback,
    ← hback, h]

/-- What stands somewhere in a list with one more at the end. -/
theorem getElem?_snoc_eq_some_iff {α : Type} {as : List α} {a b : α} {i : ℕ} :
    (as ++ [a])[i]? = some b ↔ as[i]? = some b ∨ i = as.length ∧ b = a := by
  rcases Nat.lt_trichotomy i as.length with hlt | rfl | hgt
  · simp [List.getElem?_append_left hlt, hlt.ne]
  · simp [eq_comm]
  · have hle : (as ++ [a]).length ≤ i := by
      rw [List.length_append, List.length_singleton]
      omega
    simp [List.getElem?_eq_none hle, List.getElem?_eq_none hgt.le, hgt.ne']

/-- The clients of a pool, in the order in which they were made. -/
def World.roster (w : World) (p : PoolKey) : List ClientKey :=
  (List.range w.clients.length).filter fun c => (w.client c).home = some p

/-- The name of the client of a pool that was made after so many others. -/
def clientName (i : ℕ) : Text := Text.ascii "client-" ++ Text.decimal ((i + 1) % 2 ^ 64)

theorem clientName_inj {i j : ℕ} (hi : i + 1 < 2 ^ 64) (hj : j + 1 < 2 ^ 64)
    (h : clientName i = clientName j) : i = j := by
  have hnumber := Text.decimal_injective (List.append_cancel_left h)
  rw [Nat.mod_eq_of_lt hi, Nat.mod_eq_of_lt hj] at hnumber
  omega

/-- No turn changes the name of a client. -/
theorem Treatment.id {w : World} {c : ClientKey} {x : Point} {k : Client}
    (h : Treatment w c x k) : k.id = (w.client c).id := by
  cases h with
  | broken => exact Client.breakDown_id _
  | departed rite => cases rite <;> rfl
  | _ => rfl

section Roster

variable {w w' : World} {p : PoolKey} {c : ClientKey}

theorem World.mem_roster : c ∈ w.roster p ↔ c ∈ w.own p := by
  simp [World.roster, World.mem_own]

theorem World.nodup_roster : (w.roster p).Nodup := List.nodup_range.filter _

theorem World.card_own : (w.own p).card = (w.roster p).length := by
  rw [← List.toFinset_card_of_nodup World.nodup_roster]
  congr 1
  ext c
  rw [List.mem_toFinset, World.mem_roster]

/-- The clients of a pool are the same when no client is made. -/
theorem World.roster_of_length_eq (hlength : w'.clients.length = w.clients.length)
    (hhome : ∀ c < w.clients.length, (w'.client c).home = (w.client c).home) :
    w'.roster p = w.roster p := by
  rw [World.roster, hlength]
  refine List.filter_congr fun c hc => ?_
  rw [hhome c (List.mem_range.mp hc)]

/-- When one client is made, it is the last one of its pool. -/
theorem World.roster_of_length_succ (hlength : w'.clients.length = w.clients.length + 1)
    (hhome : ∀ c < w.clients.length, (w'.client c).home = (w.client c).home) :
    w'.roster p = w.roster p ++
      if (w'.client w.clients.length).home = some p then [w.clients.length] else [] := by
  rw [World.roster, hlength, List.range_succ, List.filter_append]
  congr 1
  · refine List.filter_congr fun c hc => ?_
    rw [hhome c (List.mem_range.mp hc)]
  · simp [List.filter_singleton]

end Roster

namespace Books

variable {b b' : Books} {bad : Mishap → Prop}

/-- The next number of a pool is one more than it has had clients. -/
def Numbered (b : Books) : Prop := b.pool.nextNumber = UInt64.ofNat (b.own.card + 1)

/-- Every entry keeps the numbers. -/
theorem Numbered.entry (h : b.Numbered) (e : Entry bad b b') : b'.Numbered := by
  have hsettle : ∀ {b₁ b₂ : Books}, b₁.Numbered → b₂.pool.nextNumber = b₁.pool.nextNumber →
      b₂.own = b₁.own → b₂.Numbered := by
    intro b₁ b₂ h₁ hnumber hown
    rw [Numbered, hnumber, hown]
    exact h₁
  cases e with
  | found connection limits dialect vacant unstocked =>
    exact hsettle h (by rw [vacant]; rfl) rfl
  | arrive k fresh unreferenced created =>
    have h' : _ = UInt64.ofNat _ := h
    show _ + 1 = UInt64.ofNat _
    simp only [hold_own, hold_pool] at h'
    simp only [hold_own, onPool_own, welcome_own, welcome_pool, Finset.card_insert_of_notMem fresh]
    rw [h']
    exact (UInt64.ofNat_add _ 1).symm
  | _ => exact hsettle h rfl rfl

end Books

namespace Machine

variable {m n : Machine} {e : Event} {p : PoolKey} {c : ClientKey} {connected : Bool}

/-- In this event a session comes for the pool. -/
def delivers (m : Machine) (p : PoolKey) : Event → Bool
  | .answer k (.opened (.session _)) =>
    (m.call? k).any fun call => call.point.request? = some (.openSession p)
  | _ => false

/-- The clients that are made in the events of a run in which a session comes for the pool. -/
def deliveries (p : PoolKey) (m : Machine) : List Event → List ClientKey
  | [] => []
  | e :: es =>
    (if m.delivers p e then [m.world.clients.length] else []) ++
      ((m.perform e).map fun n => deliveries p n es).getD []

theorem delivers_iff : m.delivers p e = true ↔ ∃ connected, m.Arrives e p connected := by
  constructor
  · intro h
    unfold delivers at h
    split at h
    · next k connected =>
      obtain ⟨call, hk, hx⟩ := (Option.any_eq_true _ _).mp h
      exact ⟨connected, k, call, rfl, hk, of_decide_eq_true hx⟩
    · cases h
  · rintro ⟨connected, k, call, rfl, hk, hx⟩
    simp [delivers, hk, hx]

/-- One session comes for one pool. -/
theorem Arrives.eq {q : PoolKey} {other : Bool} (h : m.Arrives e p connected)
    (h' : m.Arrives e q other) : q = p ∧ other = connected := by
  obtain ⟨k, call, rfl, hk, hx⟩ := h
  obtain ⟨k', call', he, hk', hx'⟩ := h'
  cases he
  obtain rfl := Option.some.inj (hk.symm.trans hk')
  rw [hx] at hx'
  cases hx'
  exact ⟨rfl, rfl⟩

/-- A session that comes for a pool is wrapped in a new client. -/
theorem Arrives.clients (h : m.Arrives e p connected) (hn : m.perform e = some n) :
    n.world.clients = m.world.clients ++ [m.newcomer p connected] := by
  cases makes hn with
  | arrived arrives clients =>
    obtain ⟨rfl, rfl⟩ := h.eq arrives
    exact clients
  | byHand he clients =>
    obtain ⟨k, call, hanswer, -⟩ := h
    rw [hanswer] at he
    cases he
  | none unarrived length => exact absurd h (unarrived p connected)

/-- Exactly those clients of a pool are made in an event that are made of a session that comes for
it. -/
theorem roster_perform (hn : m.perform e = some n) (p : PoolKey) :
    n.world.roster p =
      m.world.roster p ++ if m.delivers p e then [m.world.clients.length] else [] := by
  have hhome : ∀ c < m.world.clients.length,
      (n.world.client c).home = (m.world.client c).home := fun c hc => (happens hn).home hc
  have hmade : ∀ {k : Client}, n.world.clients = m.world.clients ++ [k] →
      n.world.clients.length = m.world.clients.length + 1 ∧
        n.world.client m.world.clients.length = k := by
    intro k hclients
    simp [World.client, hclients]
  cases makes hn with
  | @arrived q connected arrives clients =>
    obtain ⟨hlength, hclient⟩ := hmade clients
    have hq : m.delivers p e = true ↔ q = p := by
      rw [delivers_iff]
      constructor
      · rintro ⟨_, harrives⟩
        exact (harrives.eq arrives).1
      · rintro rfl
        exact ⟨connected, arrives⟩
    rw [World.roster_of_length_succ hlength hhome, hclient]
    simp [newcomer, hq]
  | byHand he clients =>
    obtain ⟨hlength, hclient⟩ := hmade clients
    rw [World.roster_of_length_succ hlength hhome, hclient, he]
    simp [delivers]
  | none unarrived length =>
    have hnone : m.delivers p e = false := by
      by_contra h
      obtain ⟨connected, harrives⟩ := delivers_iff.mp (Bool.not_eq_false _ ▸ h)
      exact unarrived p connected harrives
    rw [World.roster_of_length_eq length hhome, hnone]
    simp

/-- The clients of a pool are those that were made of sessions that came for it, in this order. -/
theorem roster_run {es : List Event} (hn : m.run es = some n) (p : PoolKey) :
    n.world.roster p = m.world.roster p ++ deliveries p m es := by
  induction es generalizing m with
  | nil =>
    rw [run_nil, Option.some.injEq] at hn
    simp [deliveries, hn]
  | cons e es ih =>
    rw [run_cons, Option.bind_eq_some_iff] at hn
    obtain ⟨l, hl, hn⟩ := hn
    rw [ih hn, roster_perform hl, deliveries, hl, List.append_assoc]
    rfl

/-! ## Numbers -/

/-- The next number of a pool is one more than the number of clients it has had. -/
theorem Reachable.nextNumber_eq (hm : m.Reachable) (p : PoolKey) :
    (m.world.pool p).nextNumber = UInt64.ofNat ((m.world.roster p).length + 1) := by
  have h : (m.books p).Numbered := (reachable_iff_reachableWithout.mp hm).books_induct
    (I := Books.Numbered) rfl (fun _ _ _ _ h e => h.entry e) p
  rw [← World.card_own]
  exact h

/-- A client keeps its name. -/
theorem id_perform (hn : m.perform e = some n) (hc : c < m.world.clients.length) :
    (n.world.client c).id = (m.world.client c).id := by
  cases happens hn with
  | turn pick s hk takes sequel => exact (takes.treatment hc).id
  | enter permits => rw [client_begin]
  | @aside _ w befalls =>
    show (w.client c).id = _
    rcases befalls.client hc with hw | ⟨-, hw⟩ | ⟨connected, -, hw⟩ | ⟨s, -, hw⟩ | ⟨-, count, hw⟩
    · rw [hw]
    · rw [hw, Client.breakDown_id]
    all_goals rw [hw]

/-- The clients of a pool are numbered in the order in which they were made. -/
theorem Reachable.id_of_roster (hm : m.Reachable) :
    ∀ p i c, (m.world.roster p)[i]? = some c → (m.world.client c).id = clientName i := by
  suffices h : m.Reachable ∧ ∀ p i c, (m.world.roster p)[i]? = some c →
      (m.world.client c).id = clientName i from h.2
  refine hm.induct (P := fun m => m.Reachable ∧ ∀ p i c, (m.world.roster p)[i]? = some c →
    (m.world.client c).id = clientName i) ⟨reachable_empty, fun p i c h => ?_⟩ ?_
  · cases h
  rintro m n e ⟨hm, ih⟩ hn
  refine ⟨hm.perform hn, fun p i c hi => ?_⟩
  have hbefore : (m.world.roster p)[i]? = some c → (n.world.client c).id = clientName i := by
    intro hi
    have hc : c < m.world.clients.length :=
      (World.mem_own.mp (World.mem_roster.mp (List.mem_of_getElem? hi))).1
    rw [id_perform hn hc]
    exact ih p i c hi
  rw [roster_perform hn] at hi
  split at hi
  · next hdelivers =>
    obtain ⟨connected, harrives⟩ := delivers_iff.mp hdelivers
    rcases getElem?_snoc_eq_some_iff.mp hi with hi | ⟨rfl, rfl⟩
    · exact hbefore hi
    · have hclient : n.world.client m.world.clients.length = m.newcomer p connected := by
        simp [World.client, harrives.clients hn]
      rw [hclient, newcomer, Pool.nextId, hm.nextNumber_eq, clientName, UInt64.toNat_ofNat']
  · rw [List.append_nil] at hi
    exact hbefore hi

end Machine
end SessionPool
