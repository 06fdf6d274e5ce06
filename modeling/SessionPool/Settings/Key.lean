import SessionPool.Settings

/-!
# The keys of a settings file

Every field of the settings has a key: a name within the section of its group.  `Key.assign`
stores a written value under a key.  Texts are stored as they are; a switch is on for exactly the
words `true`, `1` and `yes`; a number has to be readable and inside the range of its key, and is
refused otherwise.
-/

namespace SessionPool
namespace Settings

/-! ## Groups and keys -/

/-- The groups of settings.  Each has a section of its own in a file. -/
inductive Group where
  | connection
  | pool
  | journal
  deriving DecidableEq, Inhabited

namespace Group

/-- All groups. -/
def all : List Group := [connection, pool, journal]

/-- The name of the section of a group. -/
def name : Group → Text
  | connection => Text.ascii "connection"
  | pool => Text.ascii "pool"
  | journal => Text.ascii "logging"

end Group

/-- The fields that a settings file can set. -/
inductive Key where
  | host
  | port
  | user
  | password
  | account
  | passiveMode
  | connectTimeout
  | readTimeout
  | maxClients
  | acquireTimeout
  | initialClients
  | keepAliveInterval
  | level
  | file
  | console
  deriving DecidableEq, Inhabited

/-! ## Written values -/

/-- Why a written value is refused. -/
inductive Refusal where
  /-- No number of 64 bits can be read from it. -/
  | unreadable
  /-- The number is outside the range of its key. -/
  | outside (value : Text) (least greatest : Int)
  deriving DecidableEq

/-- The reason in words, as far as a zero-terminated text can hold it. -/
def Refusal.message : Refusal → Text
  | unreadable => Text.ascii "stoll"
  | outside value least greatest =>
    (value ++ Text.ascii " is outside [" ++ Text.ofInt least ++ Text.ascii ", "
      ++ Text.ofInt greatest ++ Text.ascii "]").uptoNul

/-- A switch is on for exactly these three words. -/
def isOn (value : Text) : Bool :=
  value = Text.ascii "true" || value = Text.ascii "1" || value = Text.ascii "yes"

/-- The number that a value gives for a key with this range. -/
def numberIn (least greatest : Int) (value : Text) : Except Refusal Int :=
  match Number.read? value with
  | none => .error .unreadable
  | some n =>
    if least ≤ n ∧ n ≤ greatest then .ok n else .error (.outside value least greatest)

/-- The greatest count, and the greatest number of seconds: that of a signed 32-bit word. -/
def greatestCount : Int := 2147483647

/-! ## Keys and what they store -/

namespace Key

/-- All keys. -/
def all : List Key :=
  [host, port, user, password, account, passiveMode, connectTimeout, readTimeout, maxClients,
    acquireTimeout, initialClients, keepAliveInterval, level, file, console]

/-- The group that a key belongs to. -/
def group : Key → Group
  | host | port | user | password | account | passiveMode | connectTimeout | readTimeout =>
    .connection
  | maxClients | acquireTimeout | initialClients | keepAliveInterval => .pool
  | level | file | console => .journal

/-- The name of a key within the section of its group. -/
def name : Key → Text
  | host => Text.ascii "host"
  | port => Text.ascii "port"
  | user => Text.ascii "user"
  | password => Text.ascii "password"
  | account => Text.ascii "account"
  | passiveMode => Text.ascii "passive_mode"
  | connectTimeout => Text.ascii "connect_timeout"
  | readTimeout => Text.ascii "read_timeout"
  | maxClients => Text.ascii "max_clients"
  | acquireTimeout => Text.ascii "acquire_timeout"
  | initialClients => Text.ascii "initial_clients"
  | keepAliveInterval => Text.ascii "keep_alive_interval"
  | level => Text.ascii "level"
  | file => Text.ascii "file"
  | console => Text.ascii "console"

/-- The key with this name in this section. -/
def find? (sectionName keyName : Text) : Option Key :=
  all.find? fun k => k.group.name = sectionName && k.name = keyName

/-- Stores a written value under a key, or says why it is refused. -/
def assign (k : Key) (value : Text) (s : Settings) : Except Refusal Settings :=
  match k with
  | host => .ok { s with connection := { s.connection with host := value } }
  | user => .ok { s with connection := { s.connection with user := value } }
  | password => .ok { s with connection := { s.connection with password := value } }
  | account => .ok { s with connection := { s.connection with account := value } }
  | passiveMode => .ok { s with connection := { s.connection with passiveMode := isOn value } }
  | port => (numberIn 1 65535 value).map fun n =>
    { s with connection := { s.connection with port := UInt16.ofNat n.toNat } }
  | connectTimeout => (numberIn 0 Number.greatest value).map fun n =>
    { s with connection := { s.connection with connectTimeout := n } }
  | readTimeout => (numberIn 0 Number.greatest value).map fun n =>
    { s with connection := { s.connection with readTimeout := n } }
  | maxClients => (numberIn 0 greatestCount value).map fun n =>
    { s with pool := { s.pool with maxClients := UInt64.ofNat n.toNat } }
  | acquireTimeout => (numberIn 0 Number.greatest value).map fun n =>
    { s with pool := { s.pool with acquireTimeout := n } }
  | initialClients => (numberIn 0 greatestCount value).map fun n =>
    { s with pool := { s.pool with initialClients := UInt64.ofNat n.toNat } }
  | keepAliveInterval => (numberIn 0 greatestCount value).map fun n =>
    { s with pool := { s.pool with keepAliveInterval := n } }
  | level => .ok { s with journal := { s.journal with level := value } }
  | file => .ok { s with journal := { s.journal with file := value } }
  | console => .ok { s with journal := { s.journal with console := isOn value } }

end Key
end Settings
end SessionPool
