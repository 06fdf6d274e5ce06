import SessionPool.Text

/-!
# Clients

A client is a session with the server together with a name, a number of references and a state.
The session can run one command at a time; it is owned by its client and lives exactly as long.

The state says where a client is in its life: just created, idle in its pool, busy with a borrower,
broken by a fault, or disconnected.  A report of a fault breaks a client unless it is already
disconnected.  References are counted in words of 64 bits, so that counting wraps around.
-/

namespace SessionPool

/-! ## Sessions -/

/-- A session with the server: whether it is connected, which commands it received while it was,
and how often its disconnection was asked for. -/
structure Session where
  connected : Bool
  commands : List Text := []
  disconnects : Nat := 0
  deriving DecidableEq, Inhabited

/-- A session that has been handed a command.  A lost connection receives nothing. -/
def Session.receive (s : Session) (command : Text) : Session :=
  if s.connected then { s with commands := s.commands ++ [command] } else s

/-! ## States -/

/-- Where a client is in its life. -/
inductive Lifecycle where
  | created
  | idle
  | busy
  | broken
  | disconnected
  deriving DecidableEq, Inhabited

namespace Lifecycle

/-- The states in the order of their numbers. -/
def all : List Lifecycle := [created, idle, busy, broken, disconnected]

/-- The name of a state. -/
def name : Lifecycle → String
  | created => "created"
  | idle => "idle"
  | busy => "busy"
  | broken => "broken"
  | disconnected => "disconnected"

/-- The state that a number stands for. -/
def ofNumber? : Int → Option Lifecycle
  | .ofNat n => all[n]?
  | .negSucc _ => none

/-- The name of the state that a number stands for. -/
def nameOfNumber (n : Int) : String := (ofNumber? n).elim "unknown" name

/-- The state of a name. -/
def ofName? (s : Text) : Option Lifecycle := all.find? fun l => Text.ascii l.name = s

end Lifecycle

/-! ## Clients -/

/-- The key of a pool. -/
abbrev PoolKey := Nat

/-- A client: its name, the pool it was made for, if it was not made by hand, its session, its
state, how many references to it are out, and whether it has ever been lent.  A destroyed client has
left its pool and everyone's hands. -/
structure Client where
  id : Text
  home : Option PoolKey := none
  session : Session
  state : Lifecycle := .created
  references : UInt64 := 0
  handedOut : Bool := false
  destroyed : Bool := false
  deriving DecidableEq, Inhabited

namespace Client

/-- Somebody has had the client in hand: whoever made it, or a borrower. -/
def wasHeld (c : Client) : Bool := c.home.isNone || c.handedOut

/-- A fault has broken the client. -/
def isBroken (c : Client) : Bool := c.state == .broken

/-- A fault is reported: the client is broken from now on, unless it is disconnected already. -/
def breakDown (c : Client) : Client :=
  if c.state = .disconnected then c else { c with state := .broken }

@[simp] theorem breakDown_home (c : Client) : c.breakDown.home = c.home := by
  unfold breakDown
  split <;> rfl

@[simp] theorem breakDown_references (c : Client) : c.breakDown.references = c.references := by
  unfold breakDown
  split <;> rfl

@[simp] theorem breakDown_id (c : Client) : c.breakDown.id = c.id := by
  unfold breakDown
  split <;> rfl

@[simp] theorem breakDown_wasHeld (c : Client) : c.breakDown.wasHeld = c.wasHeld := by
  unfold breakDown
  split <;> rfl

@[simp] theorem breakDown_session (c : Client) : c.breakDown.session = c.session := by
  unfold breakDown
  split <;> rfl

/-- One more reference, and the new count.  A client without any has nobody to share it, and
stays as it is. -/
def addReference (c : Client) : Client × UInt64 :=
  if c.references = 0 then (c, 0)
  else ({ c with references := c.references + 1 }, c.references + 1)

/-- One reference less, and the new count.  A client without any has none to give back. -/
def dropReference? (c : Client) : Option (Client × UInt64) :=
  if c.references = 0 then none
  else some ({ c with references := c.references - 1 }, c.references - 1)

/-- The client is lent: it is busy and has one reference. -/
def lend (c : Client) : Client := { c with references := 1, state := .busy, handedOut := true }

/-- The client's session was handed a command. -/
def receive (c : Client) (command : Text) : Client :=
  { c with session := c.session.receive command }

end Client
end SessionPool
