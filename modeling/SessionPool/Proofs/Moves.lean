import SessionPool.Proofs.Course

/-!
# The turns of one call in a run

What one call does in a run is what it does in its turns.  These are listed with the machines before
and after them (`Machine.moves`), so that a statement about the list says what the call itself has
done, whatever others have done in between.

In a run in which no other call has a part a pool changes only in the turns of this one.

* `Machine.moves`, `Machine.requests`, `Machine.answers`: the turns of a call, what it asks for, and
  what it is answered.
* `Machine.steps`: all events of a run with the machines before and after them.
* `Machine.IsAt.perform`: in an event a call takes its turn, or stays where it stands.
* `Machine.Reachable.alike_run`: what nobody else changes.
-/

namespace SessionPool

/-! ## Events -/

namespace Event

variable {k j : CallKey} {e : Event}

/-- The answer that the event is to a command of this call. -/
def answerTo? (k : CallKey) : Event → Option SendAnswer
  | .answer j (.sent a) => if j = k then some a else none
  | _ => none

/-- The event is a turn of another call, or the beginning of one, or a client is broken or its state
overwritten in it. -/
def isOfOthers (k : CallKey) : Event → Bool
  | .advance j _ | .overlook j _ | .answer j _ | .expire j | .tick j => j ≠ k
  | .begin _ | .breakDown _ | .setState _ _ => true
  | _ => false

theorem answerTo?_eq_none (h : e.isTurnOf k = false) : e.answerTo? k = none := by
  unfold answerTo?
  split
  · exact if_neg (of_decide_eq_false h)
  · rfl

theorem isOfOthers_of_isTurnOf (hj : e.isTurnOf j = true) (hk : e.isTurnOf k = false) :
    e.isOfOthers k = true := by
  cases e with
  | advance i | overlook i | answer i | expire i | tick i =>
    exact decide_eq_true (of_decide_eq_false hk)
  | _ => cases hj

end Event

/-- The outcome of a call that stands here, if it has one. -/
def Point.result? : Point → Option Outcome
  | .finished o => some o
  | _ => none

namespace Machine

variable {m n l : Machine} {e : Event} {es us vs : List Event} {k : CallKey} {s : Sequel}
  {x : Point} {p : PoolKey} {c : ClientKey}

/-! ## The list of turns -/

/-- A turn that a call takes in a run: the machine before it, the event, and the machine after
it. -/
structure Move where
  before : Machine
  event : Event
  after : Machine

/-- The turns that a call takes in a run. -/
def moves (k : CallKey) (m : Machine) : List Event → List Move
  | [] => []
  | e :: es =>
    match m.perform e with
    | some n => (if e.isTurnOf k then [⟨m, e, n⟩] else []) ++ moves k n es
    | none => []

/-- What a call asks for, if it stands in a window. -/
def request? (m : Machine) (k : CallKey) : Option Request :=
  (m.call? k).bind fun call => call.point.request?

/-- The outcome of a call, if it has one. -/
def result? (m : Machine) (k : CallKey) : Option Outcome :=
  (m.call? k).bind fun call => call.point.result?

/-- What a call asks for in a run, in this order. -/
def requests (k : CallKey) (m : Machine) (es : List Event) : List Request :=
  (m.moves k es).filterMap fun v => v.after.request? k

/-- The answers to the commands of a call, in this order. -/
def answers (k : CallKey) (es : List Event) : List SendAnswer := es.filterMap (Event.answerTo? k)

theorem moves_append (h : m.run us = some l) :
    m.moves k (us ++ vs) = m.moves k us ++ l.moves k vs := by
  induction us generalizing m with
  | nil =>
    rw [run_nil, Option.some.injEq] at h
    exact h ▸ rfl
  | cons e us ih =>
    rw [run_cons, Option.bind_eq_some_iff] at h
    obtain ⟨l', hl', h⟩ := h
    simp only [List.cons_append, moves, hl', ih h, List.append_assoc]

theorem moves_cons (h : m.perform e = some n) :
    m.moves k (e :: es) = (if e.isTurnOf k then [⟨m, e, n⟩] else []) ++ n.moves k es := by
  simp only [moves, h]

theorem moves_snoc (h : m.run es = some l) (hn : l.perform e = some n) :
    m.moves k (es ++ [e]) = m.moves k es ++ if e.isTurnOf k then [⟨l, e, n⟩] else [] := by
  rw [moves_append h, moves_cons hn]
  exact congrArg _ (List.append_nil _)

theorem requests_snoc (h : m.run es = some l) (hn : l.perform e = some n) :
    m.requests k (es ++ [e]) =
      m.requests k es ++ if e.isTurnOf k then (n.request? k).toList else [] := by
  rw [requests, moves_snoc h hn, List.filterMap_append, requests]
  cases e.isTurnOf k with
  | false => rfl
  | true => cases hr : n.request? k <;> simp [hr]

theorem answers_snoc : answers k (es ++ [e]) = answers k es ++ (e.answerTo? k).toList := by
  rw [answers, List.filterMap_append, answers]
  cases hr : e.answerTo? k <;> simp [hr]

/-- The turns of a call are events of the run. -/
theorem event_mem_of_mem_moves {v : Move} (h : v ∈ m.moves k es) : v.event ∈ es := by
  induction es generalizing m with
  | nil => cases h
  | cons e es ih =>
    unfold moves at h
    split at h
    · rw [List.mem_append] at h
      rcases h with h | h
      · split at h
        · obtain rfl := List.mem_singleton.mp h
          exact List.mem_cons_self
        · cases h
      · exact List.mem_cons_of_mem e (ih h)
    · cases h

/-! ## All events of a run -/

/-- All events of a run, with the machines before and after them. -/
def steps (m : Machine) : List Event → List Move
  | [] => []
  | e :: es =>
    match m.perform e with
    | some n => ⟨m, e, n⟩ :: steps n es
    | none => []

theorem steps_cons (h : m.perform e = some n) : m.steps (e :: es) = ⟨m, e, n⟩ :: n.steps es := by
  simp only [steps, h]

theorem steps_append (h : m.run us = some l) : m.steps (us ++ vs) = m.steps us ++ l.steps vs := by
  induction us generalizing m with
  | nil =>
    rw [run_nil, Option.some.injEq] at h
    exact h ▸ rfl
  | cons e us ih =>
    rw [run_cons, Option.bind_eq_some_iff] at h
    obtain ⟨l', hl', h⟩ := h
    rw [List.cons_append, steps_cons hl', steps_cons hl', ih h, List.cons_append]

theorem steps_snoc (h : m.run es = some l) (hn : l.perform e = some n) :
    m.steps (es ++ [e]) = m.steps es ++ [⟨l, e, n⟩] := by
  rw [steps_append h, steps_cons hn]
  rfl

/-! ## Where the call stands -/

/-- The call of this key stands at `x`; and if at first nothing was to be done with its result, then
nothing is. -/
def IsAt (m : Machine) (k : CallKey) (s : Sequel) (x : Point) : Prop :=
  ∃ call, m.call? k = some call ∧ call.point = x ∧ (s = .none → call.sequel = .none)

theorem IsAt.request_eq (h : m.IsAt k s x) : m.request? k = x.request? := by
  obtain ⟨call, hk, rfl, -⟩ := h
  simp [request?, hk]

theorem IsAt.result_eq (h : m.IsAt k s x) : m.result? k = x.result? := by
  obtain ⟨call, hk, rfl, -⟩ := h
  simp [result?, hk]

theorem IsAt.point_eq {call : Call} (h : m.IsAt k s x) (hk : m.call? k = some call) :
    call.point = x := by
  obtain ⟨call', hk', hx, -⟩ := h
  obtain rfl := Option.some.inj (hk.symm.trans hk')
  exact hx

/-- A call that does not sleep stays where it stands, or takes its turn. -/
theorem IsAt.perform (h : m.IsAt k s x) (awake : x.sleeps = false)
    (busy : ∀ b, x ≠ .heartbeat b .resting) (hn : m.perform e = some n) :
    e.isTurnOf k = false ∧ n.IsAt k s x ∨
      e.isTurnOf k = true ∧ ∃ call t, call.point = x ∧ (s = .none → call.sequel = .none) ∧
        m.Takes k call e t ∧ n.world = t.world ∧
          (t.point.sleeps = false → n.IsAt k s t.point) := by
  obtain ⟨call, hk, rfl, hs⟩ := h
  obtain ⟨call', hk', ⟨he, hw, hs'⟩ | ⟨he, t, takes, hworld, hw, hs'⟩⟩ :=
    (happens hn).turn_or_wakes hk
  · exact .inl ⟨he, call', hk', hw.eq_of_awake awake, fun hnone => hs'.trans (hs hnone)⟩
  · refine .inr ⟨he, call, t, rfl, hs, takes, hworld, fun hawake => ?_⟩
    exact ⟨call', hk', hw.eq_of_awake hawake,
      fun hnone => eq_none_of_sequel hs' (hs hnone) busy⟩

/-- A call that has a turn to take can take it. -/
theorem IsAt.goesOn (h : m.IsAt k s x) (hm : m.world.crashed = false)
    (turns : ∀ call, call.point = x → ∃ e t, m.Takes k call e t) :
    ∃ e, e.isTurnOf k = true ∧ (m.perform e).isSome := by
  obtain ⟨call, hk, hx, -⟩ := h
  obtain ⟨e, t, takes⟩ := turns call hx
  obtain ⟨n, -, hn, -⟩ := takes.exists_perform hk hm
  exact ⟨e, takes.isTurnOf, hn ▸ rfl⟩

end Machine

/-! ## Nobody else -/

/-- All pools are as they were, and the clients of this one have the states and references that they
had. -/
structure World.Alike (w : World) (p : PoolKey) (w' : World) : Prop where
  pools : w'.pools = w.pools
  clients : ∀ c ∈ w.own p, c ∈ w'.own p ∧ (w'.client c).state = (w.client c).state ∧
    (w'.client c).references = (w.client c).references

namespace World.Alike

variable {w w' w'' : World} {p : PoolKey}

theorem refl (w : World) (p : PoolKey) : w.Alike p w := ⟨rfl, fun _ hc => ⟨hc, rfl, rfl⟩⟩

theorem trans (h : w.Alike p w') (h' : w'.Alike p w'') : w.Alike p w'' where
  pools := h'.pools.trans h.pools
  clients c hc :=
    have ⟨hown, hstate, hrefs⟩ := h.clients c hc
    have ⟨hown', hstate', hrefs'⟩ := h'.clients c hown
    ⟨hown', hstate'.trans hstate, hrefs'.trans hrefs⟩

/-- A command changes nothing but a session. -/
theorem send (d : ClientKey) (command : Text) : w.Alike p (w.send d command) where
  pools := rfl
  clients c hc := by
    obtain ⟨hlt, hhome⟩ := World.mem_own.mp hc
    rw [World.mem_own, World.send]
    by_cases hd : c = d
    · subst hd
      rw [World.client_onClient _ hlt]
      exact ⟨⟨by simpa using hlt, hhome⟩, rfl, rfl⟩
    · rw [World.client_onClient_of_ne _ hd]
      exact ⟨⟨by simpa using hlt, hhome⟩, rfl, rfl⟩

end World.Alike

namespace Machine

variable {m n l : Machine} {e : Event} {es : List Event} {k : CallKey} {p : PoolKey}

/-- An event in which no call has a part, and that breaks no client. -/
theorem Befalls.alike {w : World} (h : m.Befalls e w) (hown : ∀ c ∈ m.world.own p, c ∈ w.own p)
    (he : e.isOfOthers k = false) : m.world.Alike p w where
  pools := h.pools
  clients c hc := by
    refine ⟨hown c hc, ?_⟩
    rcases h.client (World.mem_own.mp hc).1 with
      hw | ⟨rfl, -⟩ | ⟨connected, -, hw⟩ | ⟨state, rfl, -⟩ | ⟨hand, -⟩
    · rw [hw]
      exact ⟨rfl, rfl⟩
    · cases he
    · rw [hw]
      exact ⟨rfl, rfl⟩
    · cases he
    · exact absurd hc (World.notMem_own_of_handmade hand)

/-- An event in which neither this call nor another has a part, and that breaks no client. -/
theorem Reachable.alike (hm : m.Reachable) (hn : m.perform e = some n)
    (he : e.isOfOthers k = false) (hturn : e.isTurnOf k = false) : m.world.Alike p n.world := by
  cases happens hn with
  | turn pick s hj takes sequel =>
    rw [Event.isOfOthers_of_isTurnOf takes.isTurnOf hturn] at he
    cases he
  | enter permits => cases he
  | aside befalls => exact befalls.alike (fun c hc => hm.sound.mem_own_perform hn hc) he

/-- In a run in which no other call has a part everything is as it was that the turns of this one
leave as it was. -/
theorem Reachable.alike_run (hm : m.Reachable) (hn : m.run es = some n)
    (alone : ∀ e ∈ es, e.isOfOthers k = false)
    (hmoves : ∀ v ∈ m.moves k es, v.before.world.Alike p v.after.world) :
    m.world.Alike p n.world := by
  induction es generalizing m with
  | nil =>
    rw [run_nil, Option.some.injEq] at hn
    exact hn ▸ .refl m.world p
  | cons e es ih =>
    rw [run_cons, Option.bind_eq_some_iff] at hn
    obtain ⟨l, hl, hn⟩ := hn
    rw [List.forall_mem_cons] at alone
    rw [moves_cons hl, List.forall_mem_append] at hmoves
    refine .trans ?_ (ih (hm.perform hl) hn alone.2 hmoves.2)
    cases hturn : e.isTurnOf k with
    | true => exact hmoves.1 ⟨m, e, l⟩ (by simp [hturn])
    | false => exact hm.alike hl alone.1 hturn

end Machine
end SessionPool
