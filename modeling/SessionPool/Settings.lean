import SessionPool.Journal
import SessionPool.Number

/-!
# Settings

Three groups: whom to connect to, how large a pool to keep, and how to keep the journal.  The
fields have usable defaults, so that settings can be given piecemeal.

`Settings.fault?` finds what makes settings unusable, worst first, and `Settings.checkEntries` is
what the journal says about it.
-/

namespace SessionPool

/-- Whom to connect to, and how.  Times are in milliseconds. -/
structure Connection where
  host : Text := Text.ascii "localhost"
  port : UInt16 := 21
  user : Text := []
  password : Text := []
  account : Text := []
  connectTimeout : Int := 5000
  readTimeout : Int := 30000
  passiveMode : Bool := true
  deriving DecidableEq, Inhabited

/-- Host and port, as they are written in the journal. -/
def Connection.address (c : Connection) : Text :=
  c.host ++ Text.ascii ":" ++ Text.decimal c.port.toNat

/-- How large a pool to keep.  Waiting for a client is limited by `acquireTimeout` milliseconds, or
not at all if that is 0; idle clients are pinged every `keepAliveInterval` seconds, or never if
that is 0. -/
structure PoolLimits where
  maxClients : UInt64 := 1
  acquireTimeout : Int := 0
  initialClients : UInt64 := 0
  keepAliveInterval : Int := 0
  deriving DecidableEq, Inhabited

/-- The interval between two pings in milliseconds, counted in a signed word of 64 bits. -/
def PoolLimits.keepAliveMilliseconds (l : PoolLimits) : Int :=
  (l.keepAliveInterval * 1000).bmod Number.wordValues

/-- Where the journal goes, and from which level on. -/
structure JournalSettings where
  level : Text := Text.ascii "info"
  file : Text := []
  console : Bool := true
  deriving DecidableEq, Inhabited

/-- All settings. -/
structure Settings where
  connection : Connection := {}
  pool : PoolLimits := {}
  journal : JournalSettings := {}
  deriving DecidableEq, Inhabited

namespace Settings

/-! ## Unusable settings -/

/-- What makes settings unusable. -/
inductive Fault where
  | hostMissing
  | noClients
  | tooManyInitialClients (initial max : UInt64)
  | negativeTimeout
  deriving DecidableEq

/-- What the journal says about it. -/
def Fault.entry : Fault → Journal.Entry
  | hostMissing => ⟨.error, Text.ascii "Server host is required"⟩
  | noClients => ⟨.error, Text.ascii "max_clients must be at least 1"⟩
  | tooManyInitialClients initial max =>
    ⟨.error, Text.ascii "initial_clients (" ++ Text.decimal initial.toNat
      ++ Text.ascii ") exceeds max_clients (" ++ Text.decimal max.toNat ++ Text.ascii ")"⟩
  | negativeTimeout => ⟨.error, Text.ascii "acquire_timeout must not be negative"⟩

/-- The first fault of the settings, if they have one. -/
def fault? (s : Settings) : Option Fault :=
  if s.connection.host = [] then some .hostMissing
  else if s.pool.maxClients = 0 then some .noClients
  else if s.pool.initialClients > s.pool.maxClients then
    some (.tooManyInitialClients s.pool.initialClients s.pool.maxClients)
  else if s.pool.acquireTimeout < 0 then some .negativeTimeout
  else none

/-- The settings can be used. -/
def valid (s : Settings) : Bool := s.fault?.isNone

/-- The journal of the check: one entry for the first fault, and none if there is no fault. -/
def checkEntries (s : Settings) : List Journal.Entry := s.fault?.toList.map Fault.entry

/-! ## The password -/

/-- The settings with a password from the environment, if they have none of their own.  A variable
holds a zero-terminated text. -/
def withPassword (environment : Option Text) (s : Settings) : Settings :=
  match environment with
  | some p =>
    if s.connection.password = [] then
      { s with connection := { s.connection with password := p.uptoNul } }
    else s
  | none => s

end Settings
end SessionPool
