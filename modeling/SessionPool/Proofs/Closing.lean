import SessionPool.Proofs.Soundness

/-!
# How a pool is closed

One call at most closes a pool: it begins, waits until nothing is outstanding, takes all clients out
and marks the pool as closed.  What the pool and this call know of one another is
`Books.Orderly`, which every entry keeps.  Nothing is added to a pool after all clients have been
taken out.
-/

namespace SessionPool
namespace Books

/-- A pool is closed by one call, in order. -/
structure Orderly (b : Books) : Prop where
  alone : b.stake.drainers + b.stake.shutters ≤ 1
  untouched : b.pool.closing = false →
    b.stake.drainers = 0 ∧ b.stake.shutters = 0 ∧ b.stake.shutting = 0 ∧ b.pool.closed = false
  unstocked : b.pool.closing = true → b.stake.budget = 0
  emptied : 0 < b.stake.shutters ∨ b.pool.closed = true → b.pool.created.toNat = 0
  ended : b.pool.closed = true → b.stake.drainers = 0 ∧ b.stake.shutters = 0

variable {b b' : Books} {bad : Mishap → Prop} {c : ClientKey}

/-- A pool that has been emptied, or closed, is closing. -/
theorem Orderly.closing (h : b.Orderly) (hs : 0 < b.stake.shutters ∨ b.pool.closed = true) :
    b.pool.closing = true := by
  by_contra hc
  obtain ⟨-, h₂, -, h₄⟩ := h.untouched (Bool.not_eq_true _ ▸ hc)
  rcases hs with hs | hs
  · exact Nat.ne_of_gt hs h₂
  · rw [h₄] at hs
    cases hs

/-- Entries that have nothing to do with the closing of the pool keep it in order, if they create
nothing in a pool that is closing. -/
theorem Orderly.of_eq (h : b.Orderly) (hdrainers : b'.stake.drainers = b.stake.drainers)
    (hshutters : b'.stake.shutters = b.stake.shutters)
    (hshutting : b.stake.shutting = 0 → b'.stake.shutting = 0)
    (hclosing : b'.pool.closing = b.pool.closing) (hclosed : b'.pool.closed = b.pool.closed)
    (hbudget : b.stake.budget = 0 → b'.stake.budget = 0)
    (hcreated : b.pool.closing = true → b.pool.created.toNat = 0 →
      b'.pool.created.toNat = 0) : b'.Orderly where
  alone := by
    rw [hdrainers, hshutters]
    exact h.alone
  untouched hc := by
    rw [hdrainers, hshutters, hclosed]
    obtain ⟨h₁, h₂, h₃, h₄⟩ := h.untouched (hclosing ▸ hc)
    exact ⟨h₁, h₂, hshutting h₃, h₄⟩
  unstocked hc := hbudget (h.unstocked (hclosing ▸ hc))
  emptied hs := by
    rw [hshutters, hclosed] at hs
    exact hcreated (h.closing hs) (h.emptied hs)
  ended hc := by
    rw [hdrainers, hshutters]
    exact h.ended (hclosed ▸ hc)

/-- Every entry keeps the closing of the pool in order. -/
theorem Orderly.entry (hs : b.Seated) (hn : b.Counted) (h : b.Orderly) (e : Entry bad b b') :
    b'.Orderly := by
  have hcreated := hn.created
  cases e with
  | found connection limits dialect vacant unstocked =>
    obtain ⟨h₁, h₂, h₃, -⟩ := h.untouched (by rw [vacant]; rfl)
    refine ⟨?_, fun _ => ?_, fun hc => ?_, fun _ => rfl, fun hc => ?_⟩
    · simp [h₁, h₂]
    · simp [h₁, h₂, h₃]
    · cases hc
    · cases hc
  | reserveFirst n =>
    refine h.of_eq (by simp) (by simp) (by simp) rfl rfl (by simp) fun hc _ => ?_
    have hbudget := h.unstocked hc
    simp at hbudget
  | forgo n => exact h.of_eq (by simp) (by simp) (by simp) rfl rfl (by simp) fun _ => id
  | reserve unstocked isOpen room =>
    refine h.of_eq (by simp) (by simp) (by simp) rfl rfl (by simp) fun hc _ => ?_
    rw [isOpen] at hc
    cases hc
  | arrive k fresh unreferenced created =>
    exact h.of_eq (by simp) (by simp) (by simp) rfl rfl (by simp) fun _ => id
  | refuse => exact h.of_eq (by simp) (by simp) (by simp) rfl rfl (by simp) fun _ => id
  | unreserve =>
    refine h.of_eq (by simp) (by simp) (by simp) rfl rfl (by simp) fun _ hc => ?_
    simp [Stake.creations] at hcreated hc
    omega
  | dismiss closing =>
    refine h.of_eq (by simp) (by simp) (by simp) rfl rfl (by simp) fun _ hc => ?_
    simp [Stake.creations] at hcreated hc
    omega
  | enroll isOpen => exact h.of_eq (by simp) (by simp) (by simp) rfl rfl (by simp) fun _ => id
  | enrollIdle => exact h.of_eq (by simp) (by simp) (by simp) rfl rfl (by simp) fun _ => id
  | discard mem last cause =>
    refine h.of_eq (by simp) (by simp) (by simp) rfl rfl (by simp) fun _ hc => ?_
    have hpos := List.length_pos_of_mem mem
    omega
  | wait => exact h.of_eq (by simp) (by simp) (by simp) rfl rfl (by simp) fun _ => id
  | rise => exact h.of_eq (by simp) (by simp) (by simp) rfl rfl (by simp) fun _ => id
  | drain isOpen => exact h.of_eq (by simp) (by simp) (by simp) rfl rfl (by simp) fun _ => id
  | restore isOpen whole =>
    exact h.of_eq (by simp) (by simp) (by simp) rfl rfl (by simp) fun _ => id
  | remove cause =>
    refine h.of_eq (by simp) (by simp) (by simp) rfl rfl (by simp) fun _ hc => ?_
    have hpos := List.length_pos_of_mem hs.drained.1
    simp at hcreated hc
    omega
  | takeAll settled =>
    have halone := h.alone
    simp at halone
    refine ⟨?_, fun hc => ?_, fun hc => ?_, fun _ => rfl, fun hc => ?_⟩
    · simp
      omega
    · have hdrainers := (h.untouched hc).1
      simp at hdrainers
    · simpa using h.unstocked hc
    · have hdrainers := (h.ended hc).1
      simp at hdrainers
  | beginClosing unstocked isOpen =>
    obtain ⟨h₁, h₂, h₃, h₄⟩ := h.untouched isOpen
    refine ⟨?_, fun hc => ?_, fun _ => ?_, fun hc => ?_, fun hc => ?_⟩
    · simp [h₁, h₂]
    · cases hc
    · simpa using unstocked
    · simp [h₂, h₄] at hc
    · simp [h₄] at hc
  | markClosed =>
    have halone := h.alone
    have hempty := h.emptied (.inl (Nat.add_pos_left Nat.one_pos _))
    simp at halone
    refine ⟨?_, fun hc => ?_, fun hc => ?_, fun _ => hempty, fun _ => ?_⟩
    · simp
      omega
    · have hshutters := (h.untouched hc).2.1
      simp at hshutters
    · simpa using h.unstocked hc
    · exact ⟨Nat.eq_zero_of_not_pos (by simp; omega), Nat.eq_zero_of_not_pos (by simp; omega)⟩
  | part gone => exact h.of_eq (by simp) (by simp) (by simp) rfl rfl (by simp) fun _ => id
  | shut gone => exact h.of_eq (by simp) (by simp) (by simp) rfl rfl (by simp) fun _ => id
  | _ => exact h.of_eq rfl rfl id rfl rfl id fun _ => id

/-- A pool that is closed stays closed. -/
theorem closed_entry (e : Entry bad b b') (h : b.pool.closed = true) : b'.pool.closed = true := by
  cases e with
  | found connection limits dialect vacant unstocked =>
    rw [vacant] at h
    cases h
  | markClosed => rfl
  | _ => exact h

/-- Books in which there is no entry yet are in order. -/
theorem orderly_empty : Orderly
    { pool := default, own := ∅, client := fun _ => default, stake := 0 } where
  alone := Nat.zero_le _
  untouched _ := ⟨rfl, rfl, rfl, rfl⟩
  unstocked hc := by cases hc
  emptied _ := rfl
  ended hc := by cases hc

end Books

namespace Machine

variable {m : Machine}

/-- What holds of empty books and is kept by every entry in books that are in order, mishaps that
are bad apart, holds of the books of every machine that can be reached without bad mishaps. -/
theorem ReachableWithout.orderly_induct {worse : Mishap → Bool} {I : Books → Prop}
    (empty : I { pool := default, own := ∅, client := fun _ => default, stake := 0 })
    (keeps : ∀ b b', b.Seated → b.Counted → b.Orderly → I b →
      Books.Entry (fun x => worse x = false) b b' → I b')
    (hm : m.ReachableWithout worse) (p : PoolKey) : (m.books p).Orderly ∧ I (m.books p) := by
  refine hm.books_induct (I := fun b => b.Orderly ∧ I b) ⟨Books.orderly_empty, empty⟩ ?_ p
  rintro b b' hs hn ⟨ho, hI⟩ e
  exact ⟨ho.entry hs hn e, keeps b b' hs hn ho hI e⟩

/-- In every machine that can be reached pools are closed in order. -/
theorem Reachable.orderly (hm : m.Reachable) (p : PoolKey) : (m.books p).Orderly :=
  ((reachable_iff_reachableWithout.mp hm).orderly_induct (I := fun _ => True) trivial
    (fun _ _ _ _ _ _ _ => trivial) p).1

end Machine
end SessionPool
