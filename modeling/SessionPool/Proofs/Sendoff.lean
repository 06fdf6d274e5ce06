import SessionPool.Proofs.Happening

/-!
# Calls that send clients off

A call that is sending clients off goes on with what comes next when all are gone, whatever becomes
of the clients: failing to disconnect one is no failure of the call.  It waits for nothing but the
answers to its windows, so that it ends after a number of turns that can be told beforehand.

* `Point.toGo`: a bound on the turns that a call still takes; every turn of a call that sends
  clients off lowers it.
* `Point.Concluding`: where a call stands that ends with this outcome after some clients have been
  sent off.
* `Machine.exists_call_run`: what a run makes of a call of which every turn lowers the bound.
-/

namespace SessionPool

/-! ## Turns to go -/

/-- A bound on the turns that follow when clients have been sent off. -/
def Afterwards.toGo : Afterwards → ℕ
  | .destroy cs _ => 2 * cs.length + 1
  | _ => 0

/-- A bound on the turns that a call takes which is sending clients off, or wants one and does not
get it. -/
def Point.toGo : Point → ℕ
  | .acquire _ _ _ .opening => 8
  | .acquire _ _ _ (.arrived _) => 7
  | .acquire _ _ _ _ => 1
  | .farewell _ waiting todo next =>
    2 * todo.length - (if waiting then 1 else 0) + 1 + next.toGo
  | _ => 0

theorem Point.toGo_farewell (rite : Rite) (waiting : Bool) (todo : List ClientKey)
    (next : Afterwards) : (Point.farewell rite waiting todo next).toGo =
      2 * todo.length - (if waiting then 1 else 0) + 1 + next.toGo := rfl

namespace Farewell

theorem toGo_after (next : Afterwards) : (after next).toGo ≤ next.toGo := by
  cases next with
  | destroy cs o => simp [after, Point.toGo, Afterwards.toGo]
  | _ => exact le_rfl

/-- A call that is sending clients off goes on with those that are left, or goes on to what comes
next. -/
theorem point_step (w : World) (rite : Rite) (todo : List ClientKey) (next : Afterwards) :
    (step w rite todo next).point = after next ∨
      ∃ waiting' todo', (step w rite todo next).point = .farewell rite waiting' todo' next ∧
        2 * todo'.length - (if waiting' then 1 else 0) < 2 * todo.length := by
  cases todo with
  | nil => exact .inl rfl
  | cons c rest =>
    refine .inr ?_
    simp only [step]
    split
    · exact ⟨_, _, rfl, by simp⟩
    · split
      · refine ⟨_, _, rfl, ?_⟩
        simp only [List.length_cons, if_true]
        omega
      · exact ⟨_, _, rfl, by simp⟩

theorem point_answered {w : World} {rite : Rite} {c : ClientKey} {rest : List ClientKey}
    {next : Afterwards} (a : DisconnectAnswer) :
    (answered w rite c rest next a).point = .farewell rite false rest next := by
  cases a <;> rfl

end Farewell

/-! ## Turns of one call -/

/-- The event is a turn of the call of this key. -/
def Event.isTurnOf (k : CallKey) : Event → Bool
  | .advance j _ | .overlook j _ | .answer j _ | .expire j | .tick j => j = k
  | _ => false

/-- A call that stands here ends with this outcome, after it has sent some clients off. -/
inductive Point.Concluding (o : Outcome) : Point → Prop where
  /-- It disconnects clients. -/
  | parting {waiting : Bool} {todo cs : List ClientKey} :
      Concluding o (.farewell .disconnect waiting todo (.destroy cs o))
  /-- It destroys them. -/
  | destroying {waiting : Bool} {todo : List ClientKey} :
      Concluding o (.farewell .destroy waiting todo (.finish o))
  /-- It is over. -/
  | ended : Concluding o (.finished o)

theorem Point.Concluding.awake {o : Outcome} {x : Point} (h : x.Concluding o) :
    x.sleeps = false := by
  cases h <;> rfl

namespace Machine

variable {m n : Machine} {e : Event} {k : CallKey} {call call' : Call} {t : Turn} {o : Outcome}

theorem Takes.isTurnOf (h : m.Takes k call e t) : e.isTurnOf k = true := by
  cases h <;> simp [Event.isTurnOf]

theorem Takes.key_eq (h : m.Takes k call e t) {j : CallKey} (he : e.isTurnOf j = true) :
    k = j := by
  cases h <;> simpa [Event.isTurnOf] using he

/-- A call takes its turn in an event that is a turn of it. -/
theorem Happens.exists_takes (h : m.Happens e n) (hk : m.call? k = some call)
    (he : e.isTurnOf k = true) :
    ∃ call' t, n.call? k = some call' ∧ m.Takes k call e t ∧ n.world = t.world ∧
      t.point.Wakes call'.point ∧ (call'.sequel = call.sequel ∨ call'.sequel = .none ∨
        ∃ h, call.point = .heartbeat h .resting ∧ call'.sequel = .beat h) := by
  cases h with
  | @turn _ j call₀ t pick s hj takes sequel =>
    obtain rfl := takes.key_eq he
    obtain rfl := Option.some.inj (hk.symm.trans hj)
    obtain ⟨call', hk', hw, hs⟩ := exists_call_apply j t s pick hk
    rw [if_pos rfl] at hw hs
    exact ⟨call', t, hk', takes, rfl, hw, hs ▸ sequel⟩
  | enter permits => cases he
  | aside befalls => cases befalls <;> cases he

/-- A call that is over takes no turn. -/
theorem Takes.not_over (h : m.Takes k call e t) (hx : call.point = .finished o) :
    call.sequel ≠ .none := by
  intro hnone
  obtain ⟨-, ht⟩ := h.turn_eq (by rw [hx]; rfl) (by rw [hx]; rfl) (by simp [hx])
  simp [turn, hx, hnone, conclude] at ht

/-- A turn of a call that is sending clients off. -/
theorem Takes.farewell {rite : Rite} {waiting : Bool} {todo : List ClientKey} {next : Afterwards}
    (h : m.Takes k call e t) (hx : call.point = .farewell rite waiting todo next) :
    (t.point = Farewell.after next ∨
      ∃ waiting' todo', t.point = .farewell rite waiting' todo' next) ∧
      t.point.toGo < call.point.toGo := by
  obtain ⟨x, sequel, notices⟩ := call
  simp only at hx ⊢
  subst hx
  have hstep : ∀ (h : waiting = false ∨ todo = []),
      ((Farewell.step m.world rite todo next).point = Farewell.after next ∨
        ∃ waiting' todo', (Farewell.step m.world rite todo next).point =
          .farewell rite waiting' todo' next) ∧
      (Farewell.step m.world rite todo next).point.toGo <
        (Point.farewell rite waiting todo next).toGo := by
    intro hwaiting
    rcases Farewell.point_step m.world rite todo next with h | ⟨waiting', todo', h, hless⟩
    · refine ⟨.inl h, ?_⟩
      have hafter := Farewell.toGo_after next
      rw [h, Point.toGo_farewell]
      omega
    · refine ⟨.inr ⟨_, _, h⟩, ?_⟩
      rw [h, Point.toGo_farewell, Point.toGo_farewell]
      rcases hwaiting with rfl | rfl
      · simp only [Bool.false_eq_true, if_false]
        omega
      · exact absurd hless (Nat.not_lt_zero _)
  cases h with
  | step ht =>
    match waiting, todo, ht with
    | false, todo, ht => exact Option.some.inj ht ▸ hstep (.inl rfl)
    | true, [], ht => exact Option.some.inj ht ▸ hstep (.inr rfl)
  | overlooked ht hpoint => cases hpoint
  | parted a hpoint =>
    cases hpoint
    rw [Farewell.point_answered, Point.toGo_farewell, Point.toGo_farewell]
    refine ⟨.inr ⟨_, _, rfl⟩, ?_⟩
    simp only [List.length_cons, Bool.false_eq_true, if_false, if_true]
    omega
  | stocked a hpoint | opened a hpoint | pinged a hpoint | replied a hpoint => cases hpoint
  | expired hpoint limited => cases hpoint
  | beat hpoint wanted => cases hpoint

/-- A call that is sending clients off can take its next turn, if only the outside answers. -/
theorem exists_takes_farewell {rite : Rite} {waiting : Bool} {todo : List ClientKey}
    {next : Afterwards} (hx : call.point = .farewell rite waiting todo next) :
    ∃ e t, m.Takes k call e t := by
  obtain ⟨x, sequel, notices⟩ := call
  simp only at hx
  subst hx
  match waiting, todo with
  | false, _ => exact ⟨.advance k 0, _, .step rfl⟩
  | true, [] => exact ⟨.advance k 0, _, .step rfl⟩
  | true, c :: rest => exact ⟨_, _, .parted .done rfl⟩

/-- A call that ends with an outcome and is not over goes on to do so, and has fewer turns to go. -/
theorem Takes.concluding_of_ne (h : m.Takes k call e t) (hx : call.point.Concluding o)
    (hover : call.point ≠ .finished o) :
    t.point.Concluding o ∧ t.point.toGo < call.point.toGo := by
  generalize hpoint : call.point = x at hx hover
  cases hx with
  | parting =>
    obtain ⟨h | ⟨waiting', todo', h⟩, hless⟩ := h.farewell hpoint
    all_goals rw [hpoint] at hless
    · exact ⟨h ▸ .destroying, hless⟩
    · exact ⟨h ▸ .parting, hless⟩
  | destroying =>
    obtain ⟨h | ⟨waiting', todo', h⟩, hless⟩ := h.farewell hpoint
    all_goals rw [hpoint] at hless
    · exact ⟨h ▸ .ended, hless⟩
    · exact ⟨h ▸ .destroying, hless⟩
  | ended => exact absurd rfl hover

/-- So does every call that ends with an outcome, if nothing is done with its result. -/
theorem Takes.concluding (h : m.Takes k call e t) (hx : call.point.Concluding o)
    (hs : call.sequel = .none) :
    t.point.Concluding o ∧ t.point.toGo < call.point.toGo :=
  h.concluding_of_ne hx fun hover => h.not_over hover hs

/-- A call that ends with an outcome and is not over can take its next turn. -/
theorem exists_takes_concluding (hx : call.point.Concluding o) (hover : call.point ≠ .finished o) :
    ∃ e t, m.Takes k call e t := by
  generalize hpoint : call.point = x at hx hover
  cases hx with
  | parting => exact exists_takes_farewell hpoint
  | destroying => exact exists_takes_farewell hpoint
  | ended => exact absurd rfl hover

/-! ## Runs -/

section Runs

variable {P : Machine → Prop} {Q : List Event → Point → Prop}

/-- A call of which every turn lowers the bound takes no more turns in a run than the bound allows.
`P` is what holds of the machine meanwhile, and `Q` what holds of the call after some events. -/
theorem exists_call_run (hP : ∀ l n e, P l → l.perform e = some n → P n)
    (awake : ∀ fs x, Q fs x → x.sleeps = false) (mono : ∀ fs e x, Q fs x → Q (fs ++ [e]) x)
    (turns : ∀ l call fs e t, P l → l.call? k = some call → Q fs call.point →
      call.sequel = .none → l.Takes k call e t →
        Q (fs ++ [e]) t.point ∧ t.point.toGo < call.point.toGo)
    (hm : P m) (hk : m.call? k = some call) (hx : Q [] call.point) (hs : call.sequel = .none)
    {es : List Event} (hn : m.run es = some n) :
    ∃ call', n.call? k = some call' ∧ Q es call'.point ∧ call'.sequel = .none ∧
      es.countP (Event.isTurnOf k) + call'.point.toGo ≤ call.point.toGo := by
  suffices h : ∀ fs, Q fs call.point → ∃ call', n.call? k = some call' ∧
      Q (fs ++ es) call'.point ∧ call'.sequel = .none ∧
        es.countP (Event.isTurnOf k) + call'.point.toGo ≤ call.point.toGo from h [] hx
  clear hx
  induction es generalizing m call with
  | nil =>
    intro fs hx
    rw [run_nil, Option.some.injEq] at hn
    exact ⟨call, hn ▸ hk, by rwa [List.append_nil], hs, by simp⟩
  | cons e es ih =>
    intro fs hx
    rw [run_cons, Option.bind_eq_some_iff] at hn
    obtain ⟨l, hl, hn⟩ := hn
    obtain ⟨call₁, hk₁, hx₁, hs₁, hless⟩ : ∃ call₁, l.call? k = some call₁ ∧
        Q (fs ++ [e]) call₁.point ∧ call₁.sequel = .none ∧
          (if e.isTurnOf k then 1 else 0) + call₁.point.toGo ≤ call.point.toGo := by
      by_cases he : e.isTurnOf k = true
      · obtain ⟨call₁, t, hk₁, takes, -, hw, hs₁⟩ := (happens hl).exists_takes hk he
        obtain ⟨hQ, hless⟩ := turns m call fs e t hm hk hx hs takes
        have hsame : call₁.point = t.point := hw.eq_of_awake (awake _ _ hQ)
        rw [← hsame] at hQ hless
        refine ⟨call₁, hk₁, hQ, ?_, ?_⟩
        · refine eq_none_of_sequel hs₁ hs fun b hb => ?_
          rw [hb] at hless
          exact absurd hless (Nat.not_lt_zero _)
        · rw [if_pos he]
          omega
      · obtain ⟨call₁, hk₁, h⟩ := (happens hl).exists_call hk
        rcases h with ⟨hw, hs₁⟩ | ⟨t, takes, -⟩
        · have hsame : call₁.point = call.point := hw.eq_of_awake (awake _ _ hx)
          refine ⟨call₁, hk₁, hsame ▸ mono _ _ _ hx, hs₁.trans hs, ?_⟩
          rw [if_neg he, zero_add, hsame]
        · exact absurd takes.isTurnOf he
    obtain ⟨call', hk', hx', hs', hturns⟩ := ih (hP m l e hm hl) hk₁ hs₁ hn (fs ++ [e]) hx₁
    refine ⟨call', hk', ?_, hs', ?_⟩
    · rwa [List.append_assoc, List.singleton_append] at hx'
    · rw [List.countP_cons]
      omega

end Runs

/-- A call that ends with an outcome takes no more turns in a run than it has to go. -/
theorem exists_concluding_run (hk : m.call? k = some call) (hx : call.point.Concluding o)
    (hs : call.sequel = .none) {es : List Event} (hn : m.run es = some n) :
    ∃ call', n.call? k = some call' ∧ call'.point.Concluding o ∧ call'.sequel = .none ∧
      es.countP (Event.isTurnOf k) + call'.point.toGo ≤ call.point.toGo :=
  exists_call_run (P := fun _ => True) (Q := fun _ x => x.Concluding o) (fun _ _ _ _ _ => trivial)
    (fun _ _ h => h.awake) (fun _ _ _ h => h)
    (fun _ _ _ _ _ _ _ hx hs takes => takes.concluding hx hs) trivial hk hx hs hn

end Machine
end SessionPool
