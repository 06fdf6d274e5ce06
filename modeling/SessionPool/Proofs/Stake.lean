import Mathlib.Algebra.Order.Group.Multiset
import SessionPool.Proofs.Mishap

/-!
# What calls in progress hold of a pool

The record of a pool does not tell all there is to know about it.  A slot may be reserved for a
session that is still being opened, a client may have been taken out to be pinged, another may have
left the pool and not be disconnected yet: all this is known to the calls alone that are at it.

`Point.stake p` is what a call that stands at a point holds of the pool `p`, and
`Machine.stake m p` is the sum over all calls.  Stakes are added entry by entry.

* `Machine.exists_rest`: a step of one call exchanges the stake of its old point for the stake of
  its new one, and leaves alone what the other calls hold.  Waking a sleeper does not change what it
  holds, so that nothing has to be said about wake-ups.
-/

namespace SessionPool

/-! ## Stakes -/

/-- What calls hold of a pool. -/
@[ext]
structure Stake where
  /-- Sessions that are being opened, each with a slot. -/
  openings : ℕ := 0
  /-- Slots that are reserved for sessions that have not come. -/
  refusals : ℕ := 0
  /-- Slots that a stocking may still reserve. -/
  budget : ℕ := 0
  /-- Callers that wait for a client, asleep or not. -/
  waiters : ℕ := 0
  /-- Calls that close the pool and wait until nothing is outstanding. -/
  drainers : ℕ := 0
  /-- Calls that close the pool and have taken all clients out. -/
  shutters : ℕ := 0
  /-- New clients, each with a slot, that the pool does not know yet. -/
  arrived : Multiset ClientKey := 0
  /-- Clients that have been taken out to be pinged. -/
  drained : Multiset ClientKey := 0
  /-- Clients that were discarded and are not disconnected yet, whichever pool they are from. -/
  discards : Multiset ClientKey := 0
  /-- Clients that the closing of the pool has taken out and not disconnected yet. -/
  shutting : Multiset ClientKey := 0

namespace Stake

instance : Zero Stake := ⟨{}⟩

instance : Add Stake where
  add s t :=
    { openings := s.openings + t.openings
      refusals := s.refusals + t.refusals
      budget := s.budget + t.budget
      waiters := s.waiters + t.waiters
      drainers := s.drainers + t.drainers
      shutters := s.shutters + t.shutters
      arrived := s.arrived + t.arrived
      drained := s.drained + t.drained
      discards := s.discards + t.discards
      shutting := s.shutting + t.shutting }

variable (s t : Stake)

@[simp] theorem openings_zero : (0 : Stake).openings = 0 := rfl
@[simp] theorem refusals_zero : (0 : Stake).refusals = 0 := rfl
@[simp] theorem budget_zero : (0 : Stake).budget = 0 := rfl
@[simp] theorem waiters_zero : (0 : Stake).waiters = 0 := rfl
@[simp] theorem drainers_zero : (0 : Stake).drainers = 0 := rfl
@[simp] theorem shutters_zero : (0 : Stake).shutters = 0 := rfl
@[simp] theorem arrived_zero : (0 : Stake).arrived = 0 := rfl
@[simp] theorem drained_zero : (0 : Stake).drained = 0 := rfl
@[simp] theorem discards_zero : (0 : Stake).discards = 0 := rfl
@[simp] theorem shutting_zero : (0 : Stake).shutting = 0 := rfl

@[simp] theorem openings_add : (s + t).openings = s.openings + t.openings := rfl
@[simp] theorem refusals_add : (s + t).refusals = s.refusals + t.refusals := rfl
@[simp] theorem budget_add : (s + t).budget = s.budget + t.budget := rfl
@[simp] theorem waiters_add : (s + t).waiters = s.waiters + t.waiters := rfl
@[simp] theorem drainers_add : (s + t).drainers = s.drainers + t.drainers := rfl
@[simp] theorem shutters_add : (s + t).shutters = s.shutters + t.shutters := rfl
@[simp] theorem arrived_add : (s + t).arrived = s.arrived + t.arrived := rfl
@[simp] theorem drained_add : (s + t).drained = s.drained + t.drained := rfl
@[simp] theorem discards_add : (s + t).discards = s.discards + t.discards := rfl
@[simp] theorem shutting_add : (s + t).shutting = s.shutting + t.shutting := rfl

instance : AddCommMonoid Stake where
  add_assoc _ _ _ := by ext1 <;> simp [add_assoc]
  zero_add _ := by ext1 <;> simp
  add_zero _ := by ext1 <;> simp
  add_comm _ _ := by ext1 <;> simp [add_comm]
  nsmul := nsmulRec

/-- The slots that are reserved for new clients: those being opened, those that have arrived and
those that have been refused. -/
def creations : ℕ := s.openings + s.arrived.card + s.refusals

@[simp] theorem creations_add : (s + t).creations = s.creations + t.creations := by
  simp only [creations, openings_add, arrived_add, refusals_add, Multiset.card_add]
  omega

/-- Nobody has arrived while nothing is being created. -/
theorem arrived_eq_zero {s : Stake} (h : s.creations = 0) : s.arrived = 0 := by
  unfold creations at h
  exact Multiset.card_eq_zero.mp (by omega)

end Stake

/-! ## The stake of a point -/

/-- What a stocking holds that has so many clients still to create. -/
def StockPoint.stake (left : ℕ) : StockPoint → Stake
  | .reserving => { budget := left }
  | .opening => { budget := left - 1, openings := 1 }
  | .arrived c => { budget := left - 1, arrived := {c} }
  | .refused _ => { budget := left - 1, refusals := 1 }

/-- What a caller holds who wants a client. -/
def AcquirePoint.stake : AcquirePoint → Stake
  | .seeking => 0
  | .opening => { openings := 1 }
  | .arrived c => { arrived := {c} }
  | .refused _ => { refusals := 1 }
  | .asleep | .woken | .expired => { waiters := 1 }

/-- The clients that a call has taken out to ping them. -/
def KeepAlivePoint.drained : KeepAlivePoint → List ClientKey
  | .draining => []
  | .pinging _ pinged todo _ => pinged ++ todo

/-- What a call holds that closes a pool and is not sending clients off. -/
def ClosePoint.stake : ClosePoint → Stake
  | .draining _ => { drainers := 1 }
  | .sealing _ => { shutters := 1 }
  | .entering | .attending _ | .announcing _ => 0

namespace Point

/-- The clients that a call has taken out of a pool to ping them. -/
def drained (p : PoolKey) : Point → List ClientKey
  | .keepAlive q s => if q = p then s.drained else []
  | _ => []

/-- What a call holds of a pool that stands at a point. -/
def stake (p : PoolKey) : Point → Stake
  | .stock q left s => if q = p then s.stake left else 0
  | .acquire q _ _ s => if q = p then s.stake else 0
  | .keepAlive q s => if q = p then { drained := s.drained } else 0
  | .close q s => if q = p then s.stake else 0
  | .farewell .disconnect _ todo (.destroy _ _) => { discards := todo }
  | .farewell .disconnect _ todo (.markClosed q _) =>
    if q = p then { shutters := 1, shutting := todo } else 0
  | .farewell .destroy _ _ (.markClosed q _) => if q = p then { shutters := 1 } else 0
  | _ => 0

/-- Waking leaves a point alone, or takes a sleeper to where it has been woken. -/
inductive Wakes : Point → Point → Prop where
  | refl (x : Point) : Wakes x x
  | acquirer (p : PoolKey) (t : Patience) (leased : Bool) :
      Wakes (.acquire p t leased .asleep) (.acquire p t leased .woken)
  | drainer (p : PoolKey) : Wakes (.close p (.draining false)) (.close p (.draining true))
  | attendant (p : PoolKey) : Wakes (.close p (.attending false)) (.close p (.attending true))

/-- A sleeper holds the same after it has been woken. -/
theorem Wakes.stake_eq {x y : Point} (h : Wakes x y) (p : PoolKey) : y.stake p = x.stake p := by
  cases h <;> rfl

end Point

namespace Machine

/-! ## Wake-ups -/

theorem wakes_wakeAcquirer (p : PoolKey) (k : Call) :
    Point.Wakes k.point (wakeAcquirer p k).point := by
  unfold wakeAcquirer
  split
  · next q t leased hk =>
    split
    · rw [hk]; exact .acquirer q t leased
    · exact .refl _
  · exact .refl _

theorem wakes_wakeCloser (p : PoolKey) (k : Call) :
    Point.Wakes k.point (wakeCloser p k).point := by
  unfold wakeCloser
  split
  · next q hk =>
    split
    · rw [hk]; exact .drainer q
    · exact .refl _
  · next q hk =>
    split
    · rw [hk]; exact .attendant q
    · exact .refl _
  · exact .refl _

/-- A wake-up lets every call be or wakes it. -/
theorem forall₂_signal (pick : Nat) (calls : List Call) (s : Signal) :
    List.Forall₂ (fun k k' : Call => Point.Wakes k.point k'.point) calls
      (signal pick calls s) := by
  cases s with
  | oneAcquirer p =>
    simp only [signal]
    split
    · refine List.forall₂_iff_get.mpr ⟨by simp, fun j h₁ h₂ => ?_⟩
      simp only [List.get_eq_getElem, List.getElem_modify]
      split
      · exact wakes_wakeAcquirer p _
      · exact .refl _
    · exact List.forall₂_same.mpr fun k _ => Point.Wakes.refl k.point
  | allAcquirers p =>
    exact List.forall₂_map_right_iff.mpr (List.forall₂_same.mpr fun k _ => wakes_wakeAcquirer p k)
  | allClosers p =>
    exact List.forall₂_map_right_iff.mpr (List.forall₂_same.mpr fun k _ => wakes_wakeCloser p k)

theorem length_foldl_signal {pick : ℕ} (signals : List Signal) (calls : List Call) :
    (signals.foldl (signal pick) calls).length = calls.length := by
  induction signals generalizing calls with
  | nil => rfl
  | cons s signals ih => exact (ih _).trans (forall₂_signal pick calls s).length_eq.symm

/-! ## The stake of all calls -/

/-- What some calls hold of a pool together. -/
def stakeOf (calls : List Call) (p : PoolKey) : Stake :=
  (calls.map fun k => k.point.stake p).sum

/-- What all calls hold of a pool together. -/
def stake (m : Machine) (p : PoolKey) : Stake := stakeOf m.calls p

@[simp] theorem stakeOf_nil (p : PoolKey) : stakeOf [] p = 0 := rfl

@[simp] theorem stakeOf_cons (k : Call) (calls : List Call) (p : PoolKey) :
    stakeOf (k :: calls) p = k.point.stake p + stakeOf calls p := by
  simp [stakeOf]

@[simp] theorem stakeOf_append (calls more : List Call) (p : PoolKey) :
    stakeOf (calls ++ more) p = stakeOf calls p + stakeOf more p := by
  simp [stakeOf]

theorem stakeOf_eq_of_wakes {calls woken : List Call}
    (h : List.Forall₂ (fun k k' : Call => Point.Wakes k.point k'.point) calls woken)
    (p : PoolKey) : stakeOf woken p = stakeOf calls p := by
  induction h with
  | nil => rfl
  | cons hk _ ih => rw [stakeOf_cons, stakeOf_cons, ih, hk.stake_eq]

/-- Wake-ups do not change what calls hold. -/
theorem stakeOf_foldl_signal (pick : Nat) (signals : List Signal) (calls : List Call)
    (p : PoolKey) : stakeOf (signals.foldl (signal pick) calls) p = stakeOf calls p := by
  induction signals generalizing calls with
  | nil => rfl
  | cons s signals ih =>
    rw [List.foldl_cons, ih, stakeOf_eq_of_wakes (forall₂_signal pick calls s)]

/-- What the calls hold is what one of them holds and what the others hold. -/
theorem exists_rest_of_getElem? {calls : List Call} {k : CallKey} {call : Call}
    (h : calls[k]? = some call) :
    ∃ rest : PoolKey → Stake, (∀ p, stakeOf calls p = call.point.stake p + rest p) ∧
      ∀ f p, stakeOf (calls.modify k f) p = (f call).point.stake p + rest p := by
  obtain ⟨hk, rfl⟩ := List.getElem?_eq_some_iff.mp h
  refine ⟨fun p => stakeOf (calls.take k) p + stakeOf (calls.drop (k + 1)) p,
    fun p => ?_, fun f p => ?_⟩
  · conv_lhs => rw [← List.take_append_drop k calls, List.drop_eq_getElem_cons hk]
    rw [stakeOf_append, stakeOf_cons, add_left_comm]
  · rw [List.modify_eq_take_cons_drop hk, stakeOf_append, stakeOf_cons, add_left_comm]

/-- A step of a call exchanges what the call holds and leaves alone what the others hold. -/
theorem exists_rest {m : Machine} {k : CallKey} {call : Call} (h : m.call? k = some call) :
    ∃ rest : PoolKey → Stake, (∀ p, m.stake p = call.point.stake p + rest p) ∧
      ∀ (m' : Machine) (f : Call → Call) (pick : Nat) (t : Turn),
        m'.calls = m.calls.modify k f → ∀ p, (m'.apply k pick t).stake p =
          t.point.stake p + rest p + stakeOf (t.started.toList.map fun x => { point := x }) p := by
  obtain ⟨rest, hrest, hmodify⟩ := exists_rest_of_getElem? h
  refine ⟨rest, hrest, fun m' f pick t hm' p => ?_⟩
  simp only [stake, apply, stakeOf_append, stakeOf_foldl_signal, hm', List.modify_modify_eq]
  rw [hmodify]
  rfl

end Machine
end SessionPool
