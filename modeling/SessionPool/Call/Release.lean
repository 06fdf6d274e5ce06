import SessionPool.Call.Acquire

/-!
# Sharing a client and giving it back

Both are errors unless the client belongs to the pool and is lent, and an error changes nothing.
When the last reference is given back, the client becomes idle again, unless it is broken or the
pool is closing: then it leaves the pool, its slot comes free, and it is sent off.

All of this is done under the lock, but faults are reported without it, by hand or by a command that
has failed.  A call that gives the last reference back looks whether the client is broken, and then
makes it idle without looking again.  A fault that is reported in between is overwritten
(`Release.overlook`).  It leaves no trace, so that a command whose fault is overwritten does to its
client what one does that fails without breaking it.  In every other step of a call it makes no
difference whether a fault is reported before, within or after it.  Whoever lends a client
overwrites its state without having looked at it, and whoever puts it back after a ping has looked
at its state and leaves it alone.

A lease that gives its reference back is empty from the beginning of that on, and stays so even if
the pool refuses the reference.
-/

namespace SessionPool

/-- A reference is added to a lent client. -/
def Share.step (w : World) (p : PoolKey) (c : ClientKey) (leased : Bool) : Turn :=
  let client := w.client c
  if ¬ c ∈ (w.pool p).members then .finish w (.error (.foreign client.id))
  else if client.state ≠ .busy then .finish w (.error (.notBusy client.id client.state))
  else
    let (shared, count) := client.addReference
    let w := w.onClient c fun _ => shared
    if count = 0 then .finish w (.error (.notBorrowed client.id))
    else
      (Turn.lend w p c leased).saying [.referenceAdded client.id count]

namespace Release

/-- A client goes back into the queue, in whatever state it is. -/
def keep (w : World) (p : PoolKey) (c : ClientKey) : Turn :=
  { world := (w.onClient c fun k => { k with state := .idle }).onPool p fun pool =>
      pool.pushIdle c
    point := .finished (.ok .done)
    notices := [.clientReturned (w.client c).id ((w.pool p).idle.length + 1)]
    signals := Acquire.slotFreed p }

/-- The last reference to a client is given back. -/
def last (w : World) (p : PoolKey) (c : ClientKey) : Turn :=
  let w := w.onPool p Pool.giveBack
  let client := w.client c
  if client.isBroken then
    { world := w.onPool p fun pool => pool.detach c
      point := .farewell .disconnect false [c] (.destroy [c] (.ok .done))
      notices := [.discarding client.id]
      signals := Acquire.slotFreed p }
  else if (w.pool p).closing then
    { world := w.onPool p fun pool => pool.detach c
      point := .farewell .disconnect false [c] (.destroy [c] (.ok .done))
      signals := Acquire.slotFreed p }
  else keep w p c

/-- A reference is given back. -/
def step (w : World) (p : PoolKey) (c : ClientKey) : Turn :=
  let client := w.client c
  if ¬ c ∈ (w.pool p).members then .finish w (.error (.foreign client.id))
  else
    match client.dropReference? with
    | none => .finish w (.error (.notBorrowed client.id))
    | some (held, count) =>
      let w := w.onClient c fun _ => held
      let said := [Notice.referenceDropped client.id count]
      if count = 0 then (last w p c).saying said
      else (Turn.finish w (.ok .done)).saying said

/-- The last reference to a client is given back, and a fault of the client is reported after it has
been found whole and before it becomes idle. -/
def lastAmidFault (w : World) (p : PoolKey) (c : ClientKey) : Option Turn :=
  let w := w.onPool p Pool.giveBack
  if (w.client c).isBroken || (w.pool p).closing then none
  else some (keep (w.onClient c Client.breakDown) p c)

/-- A reference is given back, and a fault is overlooked; none if the client does not become idle
in this. -/
def overlook (w : World) (p : PoolKey) (c : ClientKey) : Option Turn :=
  let client := w.client c
  if ¬ c ∈ (w.pool p).members then none
  else
    match client.dropReference? with
    | none => none
    | some (held, count) =>
      if count = 0 then
        (lastAmidFault (w.onClient c fun _ => held) p c).map
          (Turn.saying [Notice.referenceDropped client.id count])
      else none

/-! ## Faults that are overlooked -/

variable {w : World} {p : PoolKey} {c : ClientKey} {t : Turn}

/-- A client that goes back is idle, whether a fault of it has just been reported or not. -/
theorem keep_breakDown (w : World) (p : PoolKey) (c : ClientKey) :
    keep (w.onClient c Client.breakDown) p c = keep w p c := by
  have hid : ((w.onClient c Client.breakDown).client c).id = (w.client c).id := by
    unfold World.client World.onClient
    rw [List.getElem?_modify_eq]
    cases w.clients[c]? <;> simp
  have hidle : (fun k : Client => { k.breakDown with state := .idle }) =
      fun k => { k with state := .idle } := by
    funext k
    unfold Client.breakDown
    split <;> rfl
  have hworld : ((w.onClient c Client.breakDown).onClient c fun k => { k with state := .idle }) =
      w.onClient c fun k => { k with state := .idle } := by
    simp only [World.onClient, List.modify_modify_eq, Function.comp_def, hidle]
  simp only [keep, hid, hworld]
  rfl

theorem last_of_amidFault (h : lastAmidFault w p c = some t) : last w p c = t := by
  simp only [lastAmidFault] at h
  split at h
  · cases h
  · next hkept =>
    rw [Bool.or_eq_true, not_or] at hkept
    rw [← Option.some.inj h, keep_breakDown]
    simp only [last, if_neg hkept.1, if_neg hkept.2]

/-- A fault that is overlooked leaves no trace: the step is the same as without it. -/
theorem step_of_overlook (h : overlook w p c = some t) : step w p c = t := by
  simp only [overlook] at h
  simp only [step]
  split at h
  · cases h
  · next hmem =>
    rw [if_neg hmem]
    split at h
    · cases h
    · next hdrop =>
      split at h
      · next hlast =>
        obtain ⟨t', ht', rfl⟩ := Option.map_eq_some_iff.mp h
        simp only [if_pos hlast, last_of_amidFault ht']
      · cases h

end Release
end SessionPool
