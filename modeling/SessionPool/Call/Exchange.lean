import SessionPool.Call

/-!
# One command, and sending clients off

The two things that calls do with a single client: run a command on it, and send it off.  Both pass
through a window, and both are parts of larger calls as well as calls of their own.

* `World.send` and `World.received` are the two sides of the window of a command.  A failed
  connection breaks the client, and so does a reply that announces the end of the connection.
* `World.pinged` is `received` for a ping, which insists on a reply of success.
* `Farewell.step` and `Farewell.answered` send clients off one after the other.  A client that is
  not connected needs no window.  Failing to disconnect is noted and otherwise ignored; the client
  counts as disconnected either way.
-/

namespace SessionPool

/-! ## One command -/

/-- A command is handed to the session of a client. -/
def World.send (w : World) (c : ClientKey) (command : Text) : World :=
  w.onClient c fun k => k.receive command

/-- The shared state, what is said, and what a command came to. -/
structure Received where
  world : World
  notices : List Notice
  result : Except Fault Reply

/-- A command is answered. -/
def World.received (w : World) (c : ClientKey) (command : Text) : SendAnswer → Received
  | .reply r =>
    if r.announcesClosing then
      { world := w.onClient c Client.breakDown
        notices := [.replied r, .closingAnnounced (w.idOf c) r.text]
        result := .ok r }
    else { world := w, notices := [.replied r], result := .ok r }
  | .lost reason =>
    { world := w.onClient c Client.breakDown
      notices := [.commandFailed (w.idOf c) command reason.uptoNul]
      result := .error (.transport reason) }
  | .failed reason => { world := w, notices := [], result := .error (.unforeseen reason) }

/-- A ping is answered.  A reply that is not a success breaks the client and is a failure. -/
def World.pinged (w : World) (c : ClientKey) (a : SendAnswer) : Received :=
  let got := w.received c pingCommand a
  match got.result with
  | .ok r =>
    if r.isPositiveCompletion then got
    else
      { got with
        world := got.world.onClient c Client.breakDown
        result := .error (.pingRefused (w.idOf c) r.text) }
  | .error _ => got

namespace Exchange

/-- A command is about to be sent. -/
def step (w : World) (c : ClientKey) (command : Text) (ping : Bool) : Turn :=
  { world := w.send c command
    point := .exchange c command ping true
    notices := [.command command] }

/-- What a command came to is what the call comes to. -/
def outcome : Except Fault Reply → Outcome
  | .ok r => .ok (.reply r)
  | .error f => .error f

/-- The command has been answered. -/
def answered (w : World) (c : ClientKey) (command : Text) (ping : Bool) (a : SendAnswer) : Turn :=
  let got := if ping then w.pinged c a else w.received c command a
  { world := got.world, point := .finished (outcome got.result), notices := got.notices }

end Exchange

/-! ## Sending clients off -/

namespace Farewell

/-- What follows when nobody is left to send off. -/
def after : Afterwards → Point
  | .finish o => .finished o
  | .destroy cs o => .farewell .destroy false cs (.finish o)
  | .markClosed p cs => .close p (.sealing cs)

/-- A client that is not connected any more has been sent off. -/
def depart (rite : Rite) (k : Client) : Client :=
  match rite with
  | .disconnect => { k with state := .disconnected }
  | .destroy => { k with state := .disconnected, destroyed := true }

/-- The next client is sent off.  It needs a window if it is connected.  A client to be destroyed
that has been disconnected before, as well as it went, is not disconnected again. -/
def step (w : World) (rite : Rite) (todo : List ClientKey) (next : Afterwards) : Turn :=
  match todo with
  | [] => .goto w (after next)
  | c :: rest =>
    if rite = .destroy ∧ (w.client c).state = .disconnected then
      .goto (w.onClient c (depart rite)) (.farewell rite false rest next)
    else if (w.client c).session.connected then
      .goto (w.onClient c fun k =>
          { k with session := { k.session with disconnects := k.session.disconnects + 1 } })
        (.farewell rite true (c :: rest) next)
    else
      { world := w.onClient c (depart rite)
        point := .farewell rite false rest next
        notices := [.disconnected (w.idOf c)] }

/-- The window of a client's disconnection is over. -/
def answered (w : World) (rite : Rite) (c : ClientKey) (rest : List ClientKey)
    (next : Afterwards) : DisconnectAnswer → Turn
  | .done =>
    { world := w.onClient c fun k =>
        depart rite { k with session := { k.session with connected := false } }
      point := .farewell rite false rest next
      notices := [.disconnected (w.idOf c)] }
  | .failed reason =>
    { world := w.onClient c (depart rite)
      point := .farewell rite false rest next
      notices := [.disconnectFailed (w.idOf c) reason.uptoNul] }

end Farewell
end SessionPool
