import Mathlib.Data.List.Induction
import SessionPool.Machine

/-!
# Runs without mishaps

Some things can happen to a pool that it does not count on: a count of references that wraps
around, a state that is overwritten by hand, a disconnection that fails, a lost connection that
comes back.  A machine can tell which of its events are such mishaps (`Machine.mishap?`), and a
theorem about pools says which mishaps it needs to be spared.

* `Machine.runWithout`: a run in which no mishap is bad.
* `Machine.ReachableWithout bad m`: some run leads to `m` in which no mishap is `bad`.
* `Machine.ReachableWithout.induct`: what every event keeps, mishaps that are `bad` apart, holds of
  all these machines.
* `Machine.reachable_iff_reachableWithout`: without anything that is bad, this is all that can be
  reached.
-/

namespace SessionPool

/-- Something that a pool does not count on. -/
inductive Mishap where
  /-- A reference is asked for to a client that has as many as can be counted. -/
  | overflow (c : ClientKey)
  /-- The state of a client is overwritten by hand. -/
  | tampering (c : ClientKey)
  /-- The disconnection of a client fails. -/
  | failure (c : ClientKey)
  /-- The connection of a client is found again. -/
  | revival (c : ClientKey)
  deriving DecidableEq

namespace Mishap

/-- A count of references wraps around. -/
def isOverflow : Mishap → Bool
  | overflow _ => true
  | _ => false

/-- A state is overwritten. -/
def isTampering : Mishap → Bool
  | tampering _ => true
  | _ => false

/-- A disconnection fails. -/
def isFailure : Mishap → Bool
  | failure _ => true
  | _ => false

/-- A connection is found again. -/
def isRevival : Mishap → Bool
  | revival _ => true
  | _ => false

end Mishap

/-- As many references as can be counted. -/
def Client.mostReferences : UInt64 := UInt64.ofNat (UInt64.size - 1)

namespace Machine

/-- The mishap that an event is, if it is one. -/
def mishap? (m : Machine) : Event → Option Mishap
  | .advance k _ =>
    match (m.call? k).map Call.point with
    | some (.addReference p c _) =>
      if c ∈ (m.world.pool p).members ∧ (m.world.client c).references = Client.mostReferences then
        some (.overflow c)
      else none
    | _ => none
  | .answer k (.disconnected (.failed _)) =>
    match (m.call? k).bind fun call => call.point.request? with
    | some (.disconnect c) => some (.failure c)
    | _ => none
  | .setState c _ => some (.tampering c)
  | .connection c true =>
    if (m.world.client c).session.connected then none else some (.revival c)
  | _ => none

/-- Only overwriting a state is a tampering. -/
theorem setState_of_mishap {m : Machine} {e : Event} {x : Mishap} (h : m.mishap? e = some x)
    (hx : x.isTampering = true) : ∃ c s, e = .setState c s := by
  unfold mishap? at h
  split at h
  · repeat' split at h
    all_goals
      cases h
    cases hx
  · split at h
    · cases h
      cases hx
    · cases h
  · exact ⟨_, _, rfl⟩
  · split at h
    · cases h
    · cases h
      cases hx
  · cases h

variable {bad : Mishap → Bool}

/-- Carries out an event, if it can happen and is no bad mishap. -/
def performWithout (bad : Mishap → Bool) (m : Machine) (e : Event) : Option Machine :=
  if (m.mishap? e).any bad then none else m.perform e

/-- Carries out events one after the other, if they can happen and none is a bad mishap. -/
def runWithout (bad : Mishap → Bool) (m : Machine) (es : List Event) : Option Machine :=
  es.foldlM (performWithout bad) m

/-- A machine that some events lead to, none of which is a bad mishap. -/
def ReachableWithout (bad : Mishap → Bool) (m : Machine) : Prop :=
  ∃ es, runWithout bad {} es = some m

/-- An event that is carried out is no bad mishap. -/
theorem performWithout_eq_some_iff {m n : Machine} {e : Event} :
    m.performWithout bad e = some n ↔
      (∀ x, m.mishap? e = some x → bad x = false) ∧ m.perform e = some n := by
  unfold performWithout
  cases hx : m.mishap? e with
  | none => simp
  | some x => cases hb : bad x <;> simp [hb]

/-- A run without bad mishaps is one without them that goes on with an event that is none. -/
theorem runWithout_snoc_iff {m n : Machine} {es : List Event} {e : Event} :
    m.runWithout bad (es ++ [e]) = some n ↔ ∃ l, m.runWithout bad es = some l ∧
      (∀ x, l.mishap? e = some x → bad x = false) ∧ l.perform e = some n := by
  simp [runWithout, List.foldlM_append, Option.bind_eq_some_iff, performWithout_eq_some_iff]

/-- A run without bad mishaps is a run. -/
theorem run_of_runWithout {m n : Machine} {es : List Event}
    (h : m.runWithout bad es = some n) : m.run es = some n := by
  induction es using List.reverseRecOn generalizing n with
  | nil => exact h
  | append_singleton es e ih =>
    obtain ⟨l, hl, -, hn⟩ := runWithout_snoc_iff.mp h
    exact run_snoc_iff.mpr ⟨l, ih hl, hn⟩

/-- What holds of the empty machine and is kept by every event that is no bad mishap holds of every
machine that can be reached without bad mishaps. -/
theorem ReachableWithout.induct {P : Machine → Prop} (empty : P {})
    (keeps : ∀ m n e, P m → (∀ x, m.mishap? e = some x → bad x = false) →
      m.perform e = some n → P n)
    {m : Machine} (hm : m.ReachableWithout bad) : P m := by
  obtain ⟨es, hes⟩ := hm
  induction es using List.reverseRecOn generalizing m with
  | nil => exact Option.some.inj hes ▸ empty
  | append_singleton es e ih =>
    obtain ⟨l, hl, hx, hm⟩ := runWithout_snoc_iff.mp hes
    exact keeps l m e (ih hl) hx hm

/-- Nothing has to happen to reach the empty machine. -/
theorem reachableWithout_empty : ReachableWithout bad {} := ⟨[], rfl⟩

/-- What an event leads to that is no bad mishap can be reached without bad mishaps. -/
theorem ReachableWithout.perform {m n : Machine} {e : Event} (hm : m.ReachableWithout bad)
    (hx : ∀ x, m.mishap? e = some x → bad x = false) (h : m.perform e = some n) :
    n.ReachableWithout bad := by
  obtain ⟨es, hes⟩ := hm
  exact ⟨es ++ [e], runWithout_snoc_iff.mpr ⟨m, hes, hx, h⟩⟩

/-- Fewer mishaps are bad, and more can be reached. -/
theorem ReachableWithout.mono {worse : Mishap → Bool} (hle : ∀ x, bad x → worse x) {m : Machine}
    (hm : m.ReachableWithout worse) : m.ReachableWithout bad := by
  refine hm.induct (P := fun m => m.ReachableWithout bad) reachableWithout_empty ?_
  intro m n e ih hx h
  refine ih.perform (fun x hxe => ?_) h
  cases hb : bad x with
  | false => rfl
  | true => exact absurd ((hx x hxe).symm.trans (hle x hb)) Bool.false_ne_true

/-- An event that overwrites no state. -/
theorem ReachableWithout.untampered {m n : Machine} {e : Event}
    (hm : m.ReachableWithout Mishap.isTampering) (he : ∀ c s, e ≠ .setState c s)
    (hn : m.perform e = some n) : n.ReachableWithout Mishap.isTampering := by
  refine hm.perform (fun x hx => ?_) hn
  cases htampering : x.isTampering with
  | false => rfl
  | true =>
    obtain ⟨c, s, hset⟩ := setState_of_mishap hx htampering
    exact absurd hset (he c s)

/-- A run in which no state is overwritten. -/
theorem ReachableWithout.untampered_run {m n : Machine} {es : List Event}
    (hm : m.ReachableWithout Mishap.isTampering) (untampered : ∀ c s, .setState c s ∉ es)
    (hn : m.run es = some n) : n.ReachableWithout Mishap.isTampering := by
  induction es generalizing m with
  | nil =>
    rw [run_nil, Option.some.injEq] at hn
    exact hn ▸ hm
  | cons e es ih =>
    rw [run_cons, Option.bind_eq_some_iff] at hn
    obtain ⟨l, hl, hn⟩ := hn
    refine ih (hm.untampered (fun c s he => untampered c s ?_) hl)
      (fun c s he => untampered c s (List.mem_cons_of_mem e he)) hn
    exact he ▸ List.mem_cons_self

/-- Whatever can be reached without bad mishaps can be reached. -/
theorem ReachableWithout.reachable {m : Machine} (hm : m.ReachableWithout bad) : m.Reachable :=
  hm.induct reachable_empty fun _ _ _ ih _ h => ih.perform h

/-- Where no mishap is bad, everything can be reached that can be reached at all. -/
theorem reachable_iff_reachableWithout {m : Machine} :
    m.Reachable ↔ m.ReachableWithout fun _ => false := by
  refine ⟨fun hm => ?_, ReachableWithout.reachable⟩
  exact hm.induct reachableWithout_empty fun _ _ _ ih h => ih.perform (fun _ _ => rfl) h

end Machine
end SessionPool
