import SessionPool.Rehearsal.Stage

/-!
# Playing a rehearsal

A rehearsal is one schedule of the machine, and every change of the shared state in it is an event
of the machine.  The schedule is this: the call of a step runs until it is over or sleeps
(`drive`); in a window, the steps that the script has there are played first, and then the script
gives the answer (`serve`).  After every step, and before the steps in a window, every other call
that can go on does so (`settle`); a caller whose patience is short enough is kept waiting until
it is over.  Then the step is answered.

Steps in a window nest, and calls that go on may reach windows of their own.  The functions that
play them call each other, so all of them count down one supply of turns, which no rehearsal
exhausts.
-/

namespace SessionPool
namespace Rehearsal

/-- Something done on a stage. -/
abbrev Play := StateM Stage

/-- Something done on a stage that may be refused. -/
abbrev Attempted := ExceptT Refusal Play

/-- How many turns a rehearsal may take; none takes that many. -/
def supply : Nat := 1000000000000000000

/-! ## The machine on the stage -/

/-- An event happens, if it can. -/
def happen (e : Event) : Play Unit :=
  modify fun s => { s with machine := (s.machine.perform e).getD s.machine }

/-- A call begins. -/
def beginCall (o : Operation) : Play CallKey := do
  let k := (← get).machine.calls.length
  happen (.begin o)
  return k

/-! ## The script -/

/-- The next item of the script for openings. -/
def nextOpening : Play (OpenItem Step) :=
  modifyGet fun s =>
    match s.openings with
    | [] => ({}, s)
    | item :: rest => (item, { s with openings := rest })

/-- The next item of the script for the commands of a client. -/
def nextReply (c : ClientKey) : Play (ReplyItem Step) :=
  modifyGet fun s =>
    match (s.scripts[c]?.getD {}).replies with
    | [] => ({}, s)
    | item :: rest =>
      (item, { s with scripts := s.scripts.modify c fun x => { x with replies := rest } })

/-- The next item of the script for the disconnections of a client. -/
def nextDisconnect (c : ClientKey) : Play (DisconnectItem Step) :=
  modifyGet fun s =>
    match (s.scripts[c]?.getD {}).disconnects with
    | [] => ({}, s)
    | item :: rest =>
      (item, { s with scripts := s.scripts.modify c fun x => { x with disconnects := rest } })

/-- The answer of a good server. -/
def usualReply (command : Text) : Reply :=
  if command = pingCommand then ⟨200, Text.ascii "200 NOOP completed."⟩
  else ⟨250, Text.ascii "250 Requested file action okay, completed."⟩

/-- How a scripted command is answered. -/
def sendAnswer (command : Text) : ReplyOutcome → SendAnswer
  | .usual => .reply (usualReply command)
  | .reply r => .reply r
  | .transportError m => .lost m
  | .error m => .failed m

/-- How a scripted opening is answered. -/
def openAnswer (user : Text) : OpenOutcome → OpenAnswer
  | .session connected => .session connected
  | .failed m => .failed m
  | .loginRefused => .failed (Text.ascii "530 Login incorrect for " ++ user)
  | .nothing => .nothing

/-! ## Looking up names -/

/-- The pool of a name. -/
def findPool (name : Text) : Attempted PoolKey := do
  match (← get).pools.key? name with
  | some p => return p
  | none => throw .noPool

/-- The client of a name, which must not have been destroyed. -/
def findClient (name : Text) : Attempted ClientKey := do
  let s ← get
  match s.clients.key? name with
  | none => throw .noHandle
  | some c => if (s.world.client c).destroyed then throw .gone else return c

/-- The client of a name that depends on it. -/
def findDependent (name : Text) : Attempted ClientKey := do
  let c ← findClient name
  if (← get).dependents.contains c then return c else throw .unsupported

/-- The lease of a name, whose client must not have been destroyed. -/
def findLease (name : Text) : Attempted LeaseKey := do
  let s ← get
  match s.leases.key? name with
  | none => throw .noHandle
  | some l =>
    match s.world.lease l with
    | none => return l
    | some (_, c) => if (s.world.client c).destroyed then throw .gone else return l

/-- The heartbeat of a name. -/
def findHeartbeat (name : Text) : Attempted HeartbeatKey := do
  match (← get).heartbeats.key? name with
  | some h => return h
  | none => throw .noHandle

/-- A lease may be given this name. -/
def requireNewLease (name : Text) : Attempted Unit := do
  if (← get).leases.has name then throw .nameTaken

/-- Heartbeats are not to be touched while one is run round by round. -/
def requireQuiet : Attempted Unit := do
  if (← get).beating then throw .unsupported

/-! ## What a step has done -/

/-- What a step has done: it came out so, with this log, or it has a call on a thread of its own. -/
inductive Done where
  | now (report : Report StepAnswer) (log : List (LogItem StepAnswer))
  | onThread (k : CallKey)

/-- A step that came out well and has no log. -/
def quietly (v : Value StepAnswer) : Done := .now (.ok v) []

/-- The client of a key, as a value. -/
def clientValue (c : ClientKey) : Play (Value StepAnswer) := do
  return .client (some ((← get).clientView c))

/-- How the end of a call is reported, where a success has this value. -/
def reportAs (v : Value StepAnswer) : Outcome → Report StepAnswer
  | .ok _ => .ok v
  | .error f => .fault f

/-- The value of a call that pings clients, or has a reply. -/
def ownValue : Yield → Value StepAnswer
  | .count n => .count n
  | .reply r => .reply r
  | _ => .done

/-- How the end of a call is reported, where the call has a value of its own. -/
def reportOwn : Outcome → Report StepAnswer
  | .ok y => .ok (ownValue y)
  | .error f => .fault f

/-- The longest interval of a heartbeat that is run round by round. -/
def longestBeat : Int := 50

/-- The shortest interval of a heartbeat that may be started and left alone. -/
def shortestRest : Int := 60000

/-! ## The players -/

mutual

/-- A call takes turns until it is over or sleeps. -/
def drive : Nat → CallKey → Play Unit
  | 0, _ => return
  | n + 1, k => do
    let s ← get
    match (s.machine.call? k).bind fun c => c.point.request? with
    | some r => do
      let a ← serve n k r
      happen (.answer k a)
      drive n k
    | none =>
      match s.machine.perform (.advance k 0) with
      | some m => do
        set { s with machine := m }
        drive n k
      | none => endThread n k

/-- The script answers the call in a window. -/
def serve : Nat → CallKey → Request → Play Answer
  | 0, _, _ => return .disconnected .done
  | n + 1, k, .openSession p => do
    let item ← nextOpening
    playAside n k item.during
    let answer := openAnswer ((← get).world.pool p).connection.user item.outcome
    match answer with
    | .session _ => modify fun s => { s with scripts := s.scripts ++ [item.script] }
    | _ => pure ()
    return .opened answer
  | n + 1, k, .send c command => do
    if ((← get).world.client c).session.connected then
      let item ← nextReply c
      playAside n k item.during
      if item.drop then happen (.connection c false)
      return .sent (sendAnswer command item.outcome)
    else return .sent (.lost (Text.ascii "Connection closed"))
  | n + 1, k, .disconnect c => do
    let item ← nextDisconnect c
    playAside n k item.during
    match item.error with
    | some m => return .disconnected (.failed m)
    | none => return .disconnected .done

/-- Steps are played in the middle of a call, after everybody else has gone on. -/
def playAside : Nat → CallKey → List Step → Play Unit
  | 0, _, _ => return
  | _ + 1, _, [] => return
  | n + 1, k, steps => do
    settle n
    let said := ((← get).machine.call? k).elim 0 fun c => c.notices.length
    let answers ← playAll n steps
    modify fun s => { s with asides := s.asides ++ [(k, said, answers)] }

/-- A call on a thread may be over by now.  Then its result gets its name, and the thread ends. -/
def endThread : Nat → CallKey → Play Unit
  | 0, _ => return
  | n + 1, k => do
    match (← get).unnamedResult? k with
    | none => return
    | some (name, o) => do
      let (report, log) ← nameResult n name o
      modify fun s => s.endThread k report log

/-- The result of a call gets a name, if it needs one, and is reported. -/
def nameResult : Nat → Text → Outcome → Play (Report StepAnswer × List (LogItem StepAnswer))
  | n + 1, name, .ok (.client c) => do
    let log ← nameClient n name (some c)
    return (.ok (← clientValue c), log)
  | n + 1, name, .ok (.lease l) => do
    let (view, log) ← nameLease n name l
    return (.ok (.client view), log)
  | _, _, o => return (reportAs .done o, [])

/-- A name stands for this client from now on, or for none.  A client that depended on the name is
destroyed after that. -/
def nameClient : Nat → Text → Option ClientKey → Play (List (LogItem StepAnswer))
  | 0, _, _ => return []
  | n + 1, name, c => do
    let lost := (← get).dependent? name
    modify fun s => s.nameClient name c
    match lost with
    | none => return []
    | some d => destroy n d

/-- A client that was made by hand is destroyed.  It depends on no name any more. -/
def destroy : Nat → ClientKey → Play (List (LogItem StepAnswer))
  | 0, _ => return []
  | n + 1, c => do
    modify fun s => s.setFree c
    let (_, log) ← callOut n (.destroy c)
    return log

/-- A name stands for this lease from now on, and the lease is shown.  A lease that the name stood
for before is dropped after that. -/
def nameLease : Nat → Text → LeaseKey → Play (Option ClientView × List (LogItem StepAnswer))
  | 0, _, _ => return (none, [])
  | n + 1, name, l => do
    let log ← nameLeaseClient n name l
    let view := (← get).leaseView l
    let lost := (← get).leases.key? name
    modify fun s => { s with leases := s.leases.bind name l }
    match lost with
    | none => return (view, log)
    | some k => do
      let (_, more) ← callOut n (.dropLease k)
      return (view, log ++ more)

/-- The client of a lease can be found under the name of the lease, if it has one. -/
def nameLeaseClient : Nat → Text → LeaseKey → Play (List (LogItem StepAnswer))
  | 0, _, _ => return []
  | n + 1, name, l => do
    nameClient n (Stage.leaseHandle name) ((← get).leaseClient? l)

/-- Every call that can go on does so, until all are over, asleep, or waiting around this one. -/
def settle : Nat → Play Unit
  | 0 => return
  | n + 1 => do
    let s ← get
    match s.machine.ready? with
    | some k => do
      drive n k
      settle n
    | none =>
      match s.impatient? with
      | some k => do
        happen (.expire k)
        drive n k
        settle n
      | none => return

/-- A call is begun and driven. -/
def callOut : Nat → Operation → Play (Outcome × List (LogItem StepAnswer))
  | 0, _ => return (.ok .done, [])
  | n + 1, o => do
    let k ← beginCall o
    drive n k
    let s ← get
    return (((s.machine.call? k).bind Call.outcome?).getD (.ok .done), s.logOf k)

/-- A call is begun and driven on a thread of its own. -/
def onThread : Nat → Operation → Text → PoolKey → Play Done
  | 0, _, _, _ => return quietly .done
  | n + 1, o, name, pool => do
    let k ← beginCall o
    modify fun s => { s with threads := s.threads ++ [{ name, pool, call := k }] }
    drive n k
    return .onThread k

/-- The worker of a heartbeat goes through so many rounds, or fewer if it stops by itself. -/
def beat : Nat → CallKey → Nat → Play Unit
  | 0, _, _ => return
  | _ + 1, _, 0 => return
  | n + 1, k, rounds + 1 => do
    if (← get).machine.isOver k then return
    happen (.tick k)
    drive n k
    settle n
    beat n k rounds

/-- A heartbeat is started, goes through so many rounds, and is stopped. -/
def runBeats : Nat → HeartbeatKey → Nat → Play Done
  | 0, _, _ => return quietly .done
  | n + 1, h, rounds => do
    let (_, started) ← callOut n (.startHeartbeat h)
    match ((← get).world.heartbeat h).worker with
    | none => return .now (.ok (.rounds ((← get).heartbeatView h) [])) started
    | some k => do
      beat n k rounds
      if !(← get).machine.isOver k then
        let _ ← callOut n (.stopHeartbeat h)
        settle n
      let s ← get
      return .now (.ok (.rounds (s.heartbeatView h) (s.logOf k))) started

/-- A step does what it is there for. -/
def act : Nat → Step → Attempted Done
  | 0, _ => throw .unsupported
  | n + 1, .newPool name connection limits factory dialect => do
    let (o, log) ← callOut n (.construct connection limits factory dialect)
    match o with
    | .error f => return .now (.fault f) log
    | .ok (.pool p) =>
      if (← get).pools.has name then
        let (_, closing) ← callOut n (.close p)
        return .now (.refused .nameTaken) (log ++ closing)
      else
        modify fun s => { s with pools := s.pools.bind name p }
        return .now (.ok .done) log
    | .ok _ => return .now (.ok .done) log
  | _ + 1, .poolInfo name => do
    let p ← findPool name
    let pool := (← get).world.pool p
    return quietly (.pool pool.connection pool.limits)
  | n + 1, .destroyPool name => do
    let p ← findPool name
    if (← get).isInUse p then throw .inUse
    modify fun s => { s with pools := s.pools.forget name }
    let (_, log) ← callOut n (.close p)
    return .now (.ok .done) log
  | n + 1, .acquire name as timeout => do
    let p ← findPool name
    let t := timeout.getD ((← get).world.pool p).limits.acquireTimeout
    onThread n (.acquire p t) as p
  | n + 1, .lease name as timeout => do
    let p ← findPool name
    requireNewLease as
    let t := timeout.getD ((← get).world.pool p).limits.acquireTimeout
    onThread n (.lease p t) as p
  | n + 1, .close name as => do
    let p ← findPool name
    onThread n (.close p) as p
  | n + 1, .keepAlive name => do
    let p ← findPool name
    let (o, log) ← callOut n (.keepAlive p)
    return .now (reportOwn o) log
  | n + 1, .addReference pool client => do
    let p ← findPool pool
    let c ← findClient client
    let (o, log) ← callOut n (.addReference p c)
    return .now (reportAs (← clientValue c) o) log
  | n + 1, .release pool client => do
    let p ← findPool pool
    let c ← findClient client
    let (o, log) ← callOut n (.release p c)
    return .now (reportAs .done o) log
  | n + 1, .execute client command => do
    let c ← findClient client
    let (o, log) ← callOut n (.execute c command)
    return .now (reportOwn o) log
  | _ + 1, .markBroken client => do
    let c ← findClient client
    happen (.breakDown c)
    return quietly (← clientValue c)
  | _ + 1, .setState client state => do
    let c ← findClient client
    match state with
    | none => throw .badRequest
    | some state => do
      happen (.setState c state)
      return quietly (← clientValue c)
  | _ + 1, .clientInfo client => do
    let c ← findClient client
    return quietly (.clientInfo ((← get).clientView c) (c + 1))
  | _ + 1, .script client more connected => do
    let c ← findClient client
    modify fun s => { s with scripts := s.scripts.modify c fun x =>
      { replies := x.replies ++ more.replies, disconnects := x.disconnects ++ more.disconnects } }
    match connected with
    | some b => happen (.connection c b)
    | none => pure ()
    return quietly (.count (c + 1))
  | _ + 1, .scriptOpenings items => do
    modify fun s => { s with openings := s.openings ++ items }
    return quietly (.count (← get).openings.length)
  | n + 1, .newClient name id session script => do
    match session with
    | none => return .now (.fault .noSession) []
    | some connected => do
      let c := (← get).world.clients.length
      happen (.newClient id connected)
      modify fun s =>
        { s with scripts := s.scripts ++ [script], dependents := c :: s.dependents }
      let log ← nameClient n name (some c)
      return .now (.ok (← clientValue c)) log
  | n + 1, .destroyClient client => do
    let c ← findDependent client
    let log ← destroy n c
    return .now (.ok .done) log
  | n + 1, .pingClient client => do
    let c ← findDependent client
    let (o, log) ← callOut n (.ping c)
    return .now (reportAs (← clientValue c) o) log
  | n + 1, .disconnectClient client => do
    let c ← findDependent client
    let (o, log) ← callOut n (.disconnect c)
    return .now (reportAs (← clientValue c) o) log
  | _ + 1, .addClientReference client => do
    let c ← findDependent client
    let (k, count) := ((← get).world.client c).addReference
    happen (.setReferences c k.references)
    return quietly (.count count.toNat)
  | _ + 1, .dropClientReference client => do
    let c ← findDependent client
    let k := (← get).world.client c
    match k.dropReference? with
    | none => return .now (.fault (.notBorrowed k.id)) []
    | some (k, count) => do
      happen (.setReferences c k.references)
      return quietly (.count count.toNat)
  | _ + 1, .setClientReferences client count => do
    let c ← findDependent client
    happen (.setReferences c count)
    return quietly (← clientValue c)
  | n + 1, .newLease name => do
    requireNewLease name
    let l := (← get).world.leases.length
    happen .newLease
    let (view, log) ← nameLease n name l
    return .now (.ok (.client view)) log
  | n + 1, .shareLease lease name => do
    requireNewLease name
    let l ← findLease lease
    let (o, log) ← callOut n (.shareLease l)
    match o with
    | .ok (.lease new) => do
      let (view, more) ← nameLease n name new
      return .now (.ok (.client view)) (log ++ more)
    | o => return .now (reportAs .done o) log
  | n + 1, .moveLease lease name => do
    requireNewLease name
    let l ← findLease lease
    let new := (← get).world.leases.length
    happen (.moveLease l)
    let (view, log) ← nameLease n name new
    return .now (.ok (.client view)) log
  | n + 1, .assignLease target source => do
    let a ← findLease target
    let b ← findLease source
    let (_, log) ← callOut n (.assignLease a b)
    let more ← if target = source then pure [] else nameLeaseClient n target a
    let evenMore ← if target = source then pure [] else nameLeaseClient n source b
    let s ← get
    return .now (.ok (.assigned (s.leaseView a) (s.leaseView b))) (log ++ more ++ evenMore)
  | n + 1, .releaseLease lease => do
    let l ← findLease lease
    let (o, log) ← callOut n (.releaseLease l)
    return .now (reportAs (.client ((← get).leaseView l)) o) log
  | _ + 1, .leaseInfo lease => do
    let l ← findLease lease
    return quietly (.client ((← get).leaseView l))
  | n + 1, .dropLease lease => do
    let l ← findLease lease
    modify fun s => { s with leases := s.leases.forget lease }
    let (o, log) ← callOut n (.dropLease l)
    return .now (reportAs .done o) log
  | n + 1, .leaseClient lease name => do
    let l ← findLease lease
    match (← get).world.lease l with
    | none => return quietly (.client none)
    | some (_, c) => do
      let log ← nameClient n name (some c)
      return .now (.ok (← clientValue c)) log
  | _ + 1, .translate pool attempt reply => do
    let p ← findPool pool
    match attempt with
    | none => throw .badRequest
    | some a => do
      let translator := Translator.ofWording ((← get).world.pool p).dialect.wording
      return quietly (.failure (translator.apply a reply))
  | _ + 1, .newHeartbeat name pool interval => do
    let p ← findPool pool
    let s ← get
    if s.heartbeats.has name then throw .nameTaken
    let h := s.world.heartbeats.length
    happen (.newHeartbeat p (interval.getD (s.world.pool p).limits.keepAliveMilliseconds))
    modify fun s => { s with heartbeats := s.heartbeats.bind name h }
    return quietly (.heartbeat ((← get).heartbeatView h))
  | _ + 1, .heartbeatInfo name => do
    let h ← findHeartbeat name
    return quietly (.heartbeat ((← get).heartbeatView h))
  | n + 1, .startHeartbeat name => do
    requireQuiet
    let h ← findHeartbeat name
    let interval := ((← get).world.heartbeat h).interval
    if 0 < interval && interval < shortestRest then throw .unsupported
    let (_, log) ← callOut n (.startHeartbeat h)
    return .now (.ok (.heartbeat ((← get).heartbeatView h))) log
  | n + 1, .stopHeartbeat name => do
    requireQuiet
    let h ← findHeartbeat name
    let (_, log) ← callOut n (.stopHeartbeat h)
    settle n
    return .now (.ok (.heartbeat ((← get).heartbeatView h))) log
  | n + 1, .runHeartbeat name rounds => do
    let h ← findHeartbeat name
    requireQuiet
    let b := (← get).world.heartbeat h
    if b.interval > longestBeat || b.running then throw .unsupported
    modify fun s => { s with beating := true }
    let done ← runBeats n h rounds
    modify fun s => { s with beating := false }
    return done
  | n + 1, .destroyHeartbeat name => do
    requireQuiet
    let h ← findHeartbeat name
    modify fun s => { s with heartbeats := s.heartbeats.forget name }
    let (_, log) ← callOut n (.stopHeartbeat h)
    settle n
    return .now (.ok .done) log
  | _ + 1, .unknown => throw .badRequest

/-- A step is played and answered. -/
def play : Nat → Step → Play StepAnswer
  | 0, _ => return .mk .blocked [] [] [] ⟨0, 0, 0⟩
  | n + 1, step => do
    let done ← act n step
    settle n
    let (report, log) ← do
      match done with
      | .error r => pure (Report.refused r, [])
      | .ok (.now report log) => pure (report, log)
      | .ok (.onThread k) => do
        let s ← get
        match s.thread? k with
        | some t =>
          match t.report with
          | some report => pure (report, s.threadLog t)
          | none => do
            modify fun s => s.block k
            pure (.blocked, s.threadLog t)
        | none => pure (.ok .done, [])
    let s ← get
    set s.reportDue
    return .mk report log s.due s.poolViews s.serverView

/-- Steps are played one after the other. -/
def playAll : Nat → List Step → Play (List StepAnswer)
  | 0, _ => return []
  | _ + 1, [] => return []
  | n + 1, step :: rest => do
    let answer ← play n step
    let answers ← playAll n rest
    return answer :: answers

end

/-- A whole rehearsal. -/
def answers (steps : List Step) : Answers :=
  let (steps, s) := (playAll supply steps).run {}
  { steps, sessions := s.sessionViews }

end Rehearsal
end SessionPool
