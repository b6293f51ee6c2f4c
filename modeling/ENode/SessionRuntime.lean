import ENode.LowIDClients
import ENode.MemoryUserHashes
import ENode.Tally

/-! Logins and releases as the server's goroutines interleave them. Each session has a
goroutine of its own, which stands between two of its accesses to what is shared; its release
runs once, whoever starts it, and has a place of its own. -/
namespace ENode.Ed2k

open GoText ByteNumbers Storage List

inductive Address where
  | v4 (ip : Nat)
  | v6 (bytes : Bytes)
  deriving DecidableEq

def Address.ipv4 : Address → Nat
  | .v4 ip => ip
  | .v6 _ => 0

def Address.connectedV6 : Address → Bool
  | .v4 _ => false
  | .v6 _ => true

/-- A login packet as it is parsed. `ipv6` is the public address it names, or the one it came
from. -/
structure LoginRequest where
  hash : HashKey
  id : Nat
  port : Nat
  cryptOptions : Nat := 0
  nattCapable : Bool := false
  ipv6 : Bytes := []

/-- Where a session's goroutine stands: what it does next. -/
inductive Doing where
  | reading
  -- `handleLoginRequest`
  | checkOnline (req : LoginRequest)
  | replace (req : LoginRequest)
  | replacing (req : LoginRequest) (old : Nat)
  | checkHandover (req : LoginRequest)
  | probe (req : LoginRequest)
  | probing (req : LoginRequest) (old : Nat)
  | awaitStore (req : LoginRequest) (old : Nat)
  | recheck (req : LoginRequest)
  | checkHeld (req : LoginRequest)
  | freeOrphan (req : LoginRequest)
  | freeingOrphan (req : LoginRequest) (storeID : Nat)
  | record (req : LoginRequest)
  | firewall
  | allocate
  | assign (id : Nat)
  | verdict
  -- `handShake`
  | checkFree
  | takeOver
  | takingOver (old : Nat)
  | recheckFree
  | beginHandshake
  | connect
  | logIn (storeID : Nat)
  | register
  | endHandshake
  -- `addFiles`
  | offering (info : ClientInfo) (files : List File)
  -- the end of `run`
  | leaving
  | returned

namespace Doing

/-- In a login that has not been given a LowID. -/
def early : Doing → Bool
  | .checkOnline _ => true
  | .replace _ => true
  | .replacing _ _ => true
  | .checkHandover _ => true
  | .probe _ => true
  | .probing _ _ => true
  | .awaitStore _ _ => true
  | .recheck _ => true
  | .checkHeld _ => true
  | .freeOrphan _ => true
  | .freeingOrphan _ _ => true
  | .record _ => true
  | .firewall => true
  | .allocate => true
  | _ => false

/-- The LowID it has been given and not yet recorded. -/
def given : Doing → Option Nat
  | .assign id => some id
  | _ => none

/-- In a login that is not registered. -/
def loggingIn : Doing → Bool
  | .reading => false
  | .endHandshake => false
  | .offering _ _ => false
  | .leaving => false
  | .returned => false
  | _ => true

/-- In a login that has recorded what the packet says. -/
def recorded : Doing → Bool
  | .firewall => true
  | .allocate => true
  | .assign _ => true
  | .verdict => true
  | .checkFree => true
  | .takeOver => true
  | .takingOver _ => true
  | .recheckFree => true
  | .beginHandshake => true
  | .connect => true
  | .logIn _ => true
  | .register => true
  | .endHandshake => true
  | _ => false

/-- Between `beginHandshake` and the end of `handShake`. -/
def handshakes : Doing → Bool
  | .connect => true
  | .logIn _ => true
  | .register => true
  | .endHandshake => true
  | _ => false

/-- The step ahead changes the session or the tables, not only where the goroutine stands. -/
def works : Doing → Bool
  | .freeOrphan _ => true
  | .record _ => true
  | .firewall => true
  | .allocate => true
  | .assign _ => true
  | .verdict => true
  | .beginHandshake => true
  | .connect => true
  | .logIn _ => true
  | .register => true
  | .endHandshake => true
  | .offering _ _ => true
  | .leaving => true
  | _ => false

/-- The working steps that one that reads may lead to. -/
def entered : Doing → Bool
  | .freeOrphan _ => true
  | .record _ => true
  | .beginHandshake => true
  | _ => false

end Doing

/-- How far `releaseSession` has come. -/
inductive Release where
  | idle
  | begun
  | flags (hadLowID wasLogged : Bool)
  | snapshot (hadLowID wasLogged : Bool) (info : ClientInfo)
  | lock (wasLogged : Bool) (info : ClientInfo)
  | unregister (info : ClientInfo)
  | disconnect (info : ClientInfo)
  | disconnecting (storeID : Nat)
  | done

/-- What login and release use of a `tcpClient`. `clientID` says that `info.id` is the number
the client sent, for the statements only. -/
structure ClientSession where
  peer : Option Address
  info : ClientInfo
  logged : Bool := false
  hasLowID : Bool := true
  nattCapable : Bool := false
  released : Bool := false
  doing : Doing := .reading
  release : Release := .idle
  clientID : Bool := false

def newTCPClient (peer : Option Address) : ClientSession :=
  { peer := peer, info := { ipv4 := peer.elim 0 Address.ipv4, lowID := true } }

namespace ClientSession

/-- The release holds the session's `storeMu`. -/
def storeHeld (x : ClientSession) : Bool :=
  match x.release with
  | .unregister _ => true
  | .disconnect _ => true
  | .disconnecting _ => true
  | _ => false

/-- `releaseOnce`: only the first caller starts it. -/
def beginRelease (x : ClientSession) : ClientSession :=
  match x.release with
  | .idle => { x with release := .begun }
  | _ => x

def isDone (x : ClientSession) : Bool :=
  match x.release with
  | .done => true
  | _ => false

def isReading (x : ClientSession) : Bool :=
  match x.doing with
  | .reading => true
  | _ => false

def isReturned (x : ClientSession) : Bool :=
  match x.doing with
  | .returned => true
  | _ => false

def connectedV6 (x : ClientSession) : Bool := x.peer.elim false Address.connectedV6

end ClientSession

structure RuntimeConfig where
  natCallback : Bool
  publishV6Sources : Bool
  unicode : Unicode

structure Tables where
  lowIDs : LowIDClients Nat
  sessionsByHash : GoMap Bytes Nat := ∅
  handshaking : GoMap Bytes Int := ∅
  storage : System := {}

/-- `online` and `unheld` are the rows a `ReleaseOrphans` still has to look at, and those that
no session held when it did. -/
structure Runtime extends Tables where
  sessions : List ClientSession := []
  online : List ClientInfo := []
  unheld : List ClientInfo := []

namespace Tables

variable (t : Tables)

def isConnected (hash : Bytes) : Bool := t.storage.engine.isConnected { hash := hash }

def sessionByHash (hash : Bytes) : Option Nat := if hash.length = hashLen then t.sessionsByHash.lookup hash else none

/-- A session of this process holds the hash: logged in, or on its way from `Connect` to
`registerSession`. -/
def hashHeldLocally (hash : Bytes) : Bool :=
  decide (hash.length = hashLen) && ((t.sessionsByHash.lookup hash).isSome || decide (0 < t.handshaking.tally hash))

def registerSession (hash : Bytes) (c : Nat) : Tables :=
  if hash.length = hashLen then { t with sessionsByHash := t.sessionsByHash.insert hash c } else t

/-- Only an entry that still names the session goes. -/
def unregisterSession (hash : Bytes) (c : Nat) : Tables :=
  if hash.length = hashLen ∧ t.sessionsByHash.lookup hash = some c
    then { t with sessionsByHash := t.sessionsByHash.erase hash } else t

def beginHandshake (hash : Bytes) : Tables :=
  if hash.length = hashLen then { t with handshaking := t.handshaking.addTo hash 1 } else t

def endHandshake (hash : Bytes) : Tables :=
  if hash.length = hashLen then { t with handshaking := t.handshaking.bump hash (-1) } else t

variable (hash : Bytes)

theorem unregisterSession_keeps (c : Nat) : (t.unregisterSession hash c).lowIDs = t.lowIDs ∧
    (t.unregisterSession hash c).storage = t.storage := by
  unfold unregisterSession
  split <;> exact ⟨rfl,rfl⟩

theorem beginHandshake_keeps : (t.beginHandshake hash).lowIDs = t.lowIDs ∧
    (t.beginHandshake hash).sessionsByHash = t.sessionsByHash ∧ (t.beginHandshake hash).storage = t.storage := by
  unfold beginHandshake
  split <;> exact ⟨rfl,rfl,rfl⟩

theorem endHandshake_keeps : (t.endHandshake hash).lowIDs = t.lowIDs ∧
    (t.endHandshake hash).sessionsByHash = t.sessionsByHash ∧ (t.endHandshake hash).storage = t.storage := by
  unfold endHandshake
  split <;> exact ⟨rfl,rfl,rfl⟩

def store (u : Unicode) (op : Op) : Tables := { t with storage := t.storage.step u op }

/-- A `Disconnect` of the row has released the lock and is not done. -/
def disconnecting (storeID : Nat) : Bool := t.storage.pending.any (fun p => p.storeID == storeID)

end Tables

/-- What a step of a session's goroutine leaves: the session, the tables, and the session it
starts to release. -/
structure Outcome where
  self : ClientSession
  tables : Tables
  ends : Option Nat := none

namespace Runtime

variable (cfg : RuntimeConfig)

def isDone (s : Runtime) (c : Nat) : Bool := (s.sessions[c]?).any ClientSession.isDone

def storeHeld (s : Runtime) (c : Nat) : Bool := (s.sessions[c]?).any ClientSession.storeHeld

/-- The session that a login from the same address replaces. -/
def sameIPSession (s : Runtime) (c : Nat) (x : ClientSession) (hash : Bytes) : Option Nat :=
  (s.sessionByHash hash).filter (fun old => old != c && x.peer.isSome && (s.sessions[old]?).any (fun y => y.peer == x.peer))

/-- The IPv4 session that an IPv6 login may take over: it named this address as its own. -/
def dualStackHandoverFrom (s : Runtime) (c : Nat) (x : ClientSession) (hash : Bytes) (port : Nat) : Option Nat :=
  if x.connectedV6 then
    (s.sessionByHash hash).filter (fun old => old != c && (s.sessions[old]?).any (fun y =>
      !y.connectedV6 && y.info.ipv6.length == 16 && y.info.port == port && x.peer == some (.v6 y.info.ipv6)))
  else none

def lowIDParity (x : ClientSession) : LowIDParity :=
  if cfg.natCallback then (if x.nattCapable then .odd else .even) else .any

def lowIDKey (x : ClientSession) : Bytes :=
  match x.peer with
  | some (.v6 bytes) => bytes ++ leBytes 2 x.info.port
  | _ => endpointKey x.info.ipv4 x.info.port

/-- Where the goroutine goes from a step that reads but writes nothing, and the session it
starts to release. `yes` is what the world says where it is asked. A goroutine that has to wait
stays where it is. -/
def decides (s : Runtime) (c : Nat) (x : ClientSession) (yes : Bool) : Doing → Doing × Option Nat
  | .checkOnline req => (if s.isConnected req.hash then .replace req else .record req,none)
  | .replace req =>
    (s.sameIPSession c x req.hash).elim (.checkHandover req,none) (fun old => (.replacing req old,some old))
  | .replacing req old => (if s.isDone old then .checkHandover req else .replacing req old,none)
  | .checkHandover req =>
    (if (s.dualStackHandoverFrom c x req.hash req.port).isSome then .record req else .probe req,none)
  | .probe req =>
    (((s.sessionByHash req.hash).filter (fun old => old != c)).elim (.recheck req) (fun old => .probing req old),none)
  -- `yes`: the probe has waited long enough
  | .probing req old =>
    (if s.sessionByHash req.hash = some old then (if yes then .recheck req else .probing req old)
      else .awaitStore req old,none)
  | .awaitStore req old => (if s.storeHeld old then .awaitStore req old else .recheck req,none)
  | .recheck req => (if s.isConnected req.hash then .checkHeld req else .record req,none)
  -- a session holds the hash: the login is refused
  | .checkHeld req => (if s.hashHeldLocally req.hash then .reading else .freeOrphan req,none)
  | .freeingOrphan req storeID => (if s.disconnecting storeID then .freeingOrphan req storeID else .record req,none)
  | .checkFree => (if x.info.hash.length = hashLen ∧ s.isConnected x.info.hash then .takeOver else .beginHandshake,none)
  | .takeOver =>
    (s.dualStackHandoverFrom c x x.info.hash x.info.port).elim (.recheckFree,none) (fun old => (.takingOver old,some old))
  | .takingOver old => (if s.isDone old then .recheckFree else .takingOver old,none)
  -- the hash is online: the login is refused
  | .recheckFree => (if s.isConnected x.info.hash then .reading else .beginHandshake,none)
  | doing => (doing,none)

/-- The next step of a session's goroutine. `yes` is what the world says where it is asked: the
client could not be dialled, its IPv6 address was reached, storage is there, or as for
`decides`. -/
def own (s : Runtime) (c : Nat) (x : ClientSession) (yes : Bool) : Outcome :=
  match x.doing with
  | .freeOrphan req =>
    { self := { x with doing := .freeingOrphan req (s.storage.engine.storeIDOf { hash := req.hash }) }
      tables := s.store cfg.unicode (.beginDisconnect { hash := req.hash }) }
  | .record req =>
    { self := { x with
        info := { x.info with
          hash := req.hash, id := req.id, port := req.port, cryptOptions := req.cryptOptions, ipv6 := req.ipv6 }
        nattCapable := cfg.natCallback && req.nattCapable
        clientID := true
        doing := .firewall }
      tables := s.toTables }
  | .firewall =>
    { self := if !hasHighID x.info.ipv4 || yes
        then { x with hasLowID := true, info := { x.info with lowID := true }, doing := .allocate }
        else { x with
          hasLowID := false
          info := { x.info with lowID := false, id := x.info.ipv4 }
          clientID := false
          doing := .verdict }
      tables := s.toTables }
  | .allocate =>
    match s.lowIDs.addByKeyLocked (lowIDKey x) c (lowIDParity cfg x) with
    -- the pool is exhausted and the session closed
    | (_,none) => { self := { x with doing := .reading }, tables := s.toTables }
    | (lowIDs,some id) => { self := { x with doing := .assign id }, tables := { s.toTables with lowIDs := lowIDs } }
  | .assign id =>
    { self := { x with info := { x.info with id := id }, clientID := false, doing := .verdict }, tables := s.toTables }
  | .verdict =>
    { self := { x with
        info := { x.info with
          ipv6Reachable := if cfg.publishV6Sources && x.info.ipv6.length == 16 then yes else x.info.ipv6Reachable }
        doing := .checkFree }
      tables := s.toTables }
  | .beginHandshake => { self := { x with doing := .connect }, tables := s.beginHandshake x.info.hash }
  | .connect =>
    if yes then
      { self := { x with doing := .logIn (s.storage.engine.connect x.info).2 }
        tables := s.store cfg.unicode (.connect x.info) }
    else { self := { x with doing := .endHandshake }, tables := s.toTables }
  | .logIn storeID =>
    { self := { x with logged := true, info := { x.info with storeID := storeID }, doing := .register }
      tables := s.toTables }
  | .register => { self := { x with doing := .endHandshake }, tables := s.registerSession x.info.hash c }
  | .endHandshake => { self := { x with doing := .reading }, tables := s.endHandshake x.info.hash }
  | .offering info files =>
    if x.storeHeld then { self := x, tables := s.toTables }
    else
      { self := { x with doing := .reading }
        tables := if x.released then s.toTables else s.store cfg.unicode (.offer files info) }
  | .leaving =>
    { self := if x.isDone then { x with doing := .returned } else x.beginRelease, tables := s.toTables }
  | doing =>
    let next := s.decides c x yes doing
    { self := { x with doing := next.1 }, tables := s.toTables, ends := next.2 }

def releaseStep (t : Tables) (c : Nat) (x : ClientSession) : ClientSession × Tables :=
  match x.release with
  | .idle => (x,t)
  | .begun => ({ x with release := .flags x.hasLowID x.logged },t)
  | .flags hadLowID wasLogged => ({ x with release := .snapshot hadLowID wasLogged x.info },t)
  | .snapshot hadLowID wasLogged info =>
    ({ x with release := .lock wasLogged info },if hadLowID then { t with lowIDs := t.lowIDs.remove info.id } else t)
  | .lock wasLogged info =>
    ({ x with released := true, release := if wasLogged then .unregister info else .done },t)
  | .unregister info => ({ x with release := .disconnect info },t.unregisterSession info.hash c)
  | .disconnect info =>
    ({ x with release := .disconnecting (t.storage.engine.storeIDOf info) },t.store cfg.unicode (.beginDisconnect info))
  | .disconnecting storeID => ({ x with release := if t.disconnecting storeID then .disconnecting storeID else .done },t)
  | .done => (x,t)

/-- Everything that can happen next. A handover drops a session that did not park, whatever
its goroutine is at; storage goes on with a `Disconnect` that released the lock, and sweeps. -/
inductive Event where
  | accept (peer : Option Address)
  | login (c : Nat) (req : LoginRequest)
  | offer (c : Nat) (files : List File)
  | hangUp (c : Nat)
  | drop (c : Nat)
  | own (c : Nat) (yes : Bool)
  | release (c : Nat)
  | resumeDisconnect (i : Nat)
  | cleanupStale (maxAge : Int) (keepZeroSourceFiles : Bool)
  | releaseOrphans
  | sweepCheck (i : Nat)
  | sweepDisconnect (i : Nat)

def modifySession (s : Runtime) (c : Nat) (f : ClientSession → ClientSession) : Runtime :=
  { s with sessions := s.sessions.modify c f }

/-- A packet is taken in between two others. A second login on a session is refused. -/
def beginLogin (req : LoginRequest) (x : ClientSession) : ClientSession :=
  if x.isReading && !x.logged then { x with doing := .checkOnline req } else x

def beginOffer (files : List File) (x : ClientSession) : ClientSession :=
  if x.isReading && x.logged then { x with doing := .offering x.info files } else x

def beginLeaving (x : ClientSession) : ClientSession := if x.isReading then { x with doing := .leaving } else x

def stepOwn (s : Runtime) (c : Nat) (x : ClientSession) (yes : Bool) : Runtime :=
  let o := own cfg s c x yes
  let sessions := o.ends.elim s.sessions (fun old => s.sessions.modify old ClientSession.beginRelease)
  { s with toTables := o.tables, sessions := sessions.set c o.self }

def stepRelease (s : Runtime) (c : Nat) (x : ClientSession) : Runtime :=
  let o := releaseStep cfg s.toTables c x
  { s with toTables := o.2, sessions := s.sessions.set c o.1 }

def step (s : Runtime) : Event → Runtime
  | .accept peer => { s with sessions := s.sessions ++ [newTCPClient peer] }
  | .login c req => s.modifySession c (beginLogin req)
  | .offer c files => s.modifySession c (beginOffer files)
  | .hangUp c => s.modifySession c beginLeaving
  | .drop c => s.modifySession c ClientSession.beginRelease
  | .own c yes => (s.sessions[c]?).elim s (fun x => stepOwn cfg s c x yes)
  | .release c => (s.sessions[c]?).elim s (fun x => stepRelease cfg s c x)
  | .resumeDisconnect i => { s with toTables := s.store cfg.unicode (.resumeDisconnect i) }
  | .cleanupStale maxAge keep => { s with toTables := s.store cfg.unicode (.cleanupStale maxAge keep) }
  | .releaseOrphans => { s with online := s.online ++ (GoMap.pairs s.storage.engine.clients).map (fun c => c.2.info) }
  | .sweepCheck i =>
    (s.online[i]?).elim s (fun info =>
      { s with online := s.online.eraseIdx i, unheld := if s.hashHeldLocally info.hash then s.unheld else info :: s.unheld })
  | .sweepDisconnect i =>
    (s.unheld[i]?).elim s (fun info =>
      { s with toTables := s.store cfg.unicode (.beginDisconnect info), unheld := s.unheld.eraseIdx i })

def run (s : Runtime) (events : List Event) : Runtime := events.foldl (step cfg) s

/-- Where a step that only moves the goroutine may lead. -/
structure Walk (s : Runtime) (x : ClientSession) (next : Doing) : Prop where
  works : next.works = true → next.entered = true
  early : next.early = true → x.doing.early = true
  loggingIn : next.loggingIn = true → x.doing.loggingIn = true
  recorded : next.recorded = true → x.doing.recorded = true
  orphan : ∀ req, next = .freeOrphan req → s.hashHeldLocally req.hash = false
  free : next = .beginHandshake → x.info.hash.length = hashLen → s.isConnected x.info.hash = false

variable {x : ClientSession}

theorem Walk.given {next : Doing} (walk : Walk s x next) : next.given = none := by
  have works := walk.works
  cases next <;> first | rfl | cases works rfl

theorem Walk.handshakes {next : Doing} (walk : Walk s x next) : next.handshakes = false := by
  have works := walk.works
  cases next <;> first | rfl | cases works rfl

theorem own_decides (s : Runtime) (c : Nat) (yes : Bool) (reads : x.doing.works = false) : own cfg s c x yes =
      { self := { x with doing := (s.decides c x yes x.doing).1 }
        tables := s.toTables
        ends := (s.decides c x yes x.doing).2 } := by
  unfold own
  cases doing : x.doing <;> first | rfl | (rw [doing] at reads; cases reads)

/-- A step that reads leads where what it read allows. -/
theorem decides_walk (s : Runtime) (c : Nat) (yes : Bool) (reads : x.doing.works = false) :
    Walk s x (s.decides c x yes x.doing).1 := by
  -- where a step leads without a condition of its own
  have plain : ∀ next : Doing, next.works = false → (next.early = true → x.doing.early = true) →
      (next.loggingIn = true → x.doing.loggingIn = true) → (next.recorded = true → x.doing.recorded = true) →
      Walk s x next := by
    intro next quiet early loggingIn recorded
    refine ⟨fun works => ?_,early,loggingIn,recorded,fun req same => ?_,fun same => ?_⟩
    · exact absurd (quiet.symm.trans works) Bool.false_ne_true
    all_goals
      rw [same] at quiet
      cases quiet
  have recording : ∀ req, x.doing.early = true → x.doing.loggingIn = true → Walk s x (.record req) := by
    intro req early loggingIn
    exact ⟨fun _ => rfl,fun _ => early,fun _ => loggingIn,nofun,nofun,nofun⟩
  have freeing : ∀ req, s.hashHeldLocally req.hash = false → x.doing.early = true → x.doing.loggingIn = true →
      Walk s x (.freeOrphan req) := by
    intro req orphaned early loggingIn
    refine ⟨fun _ => rfl,fun _ => early,fun _ => loggingIn,nofun,fun _ same => ?_,nofun⟩
    cases same
    exact orphaned
  have starting : (x.info.hash.length = hashLen → s.isConnected x.info.hash = false) → x.doing.loggingIn = true →
      x.doing.recorded = true → Walk s x .beginHandshake := by
    intro free loggingIn recorded
    exact ⟨fun _ => rfl,nofun,fun _ => loggingIn,fun _ => recorded,nofun,fun _ => free⟩
  cases doing : x.doing <;> simp only [doing] at reads plain recording freeing starting <;> dsimp only [decides]
  case replace req => cases s.sameIPSession c x req.hash <;> exact plain _ rfl (fun _ => rfl) (fun _ => rfl) id
  case probe req =>
    cases (s.sessionByHash req.hash).filter (fun old => old != c) <;> exact plain _ rfl (fun _ => rfl) (fun _ => rfl) id
  case replacing | awaitStore | probing =>
    repeat' split
    all_goals exact plain _ rfl (fun _ => rfl) (fun _ => rfl) id
  case checkOnline req | checkHandover req | recheck req | freeingOrphan req _ =>
    split
    all_goals first | exact plain _ rfl (fun _ => rfl) (fun _ => rfl) id | exact recording req rfl rfl
  case checkHeld req =>
    split
    · exact plain _ rfl nofun nofun nofun
    next orphaned => exact freeing req (Bool.eq_false_iff.mpr orphaned) rfl rfl
  case checkFree =>
    split
    · exact plain _ rfl nofun (fun _ => rfl) (fun _ => rfl)
    next free => exact starting (fun whole => Bool.eq_false_iff.mpr (fun online => free ⟨whole,online⟩)) rfl rfl
  case takeOver =>
    cases s.dualStackHandoverFrom c x x.info.hash x.info.port <;>
      exact plain _ rfl nofun (fun _ => rfl) (fun _ => rfl)
  case takingOver => split <;> exact plain _ rfl nofun (fun _ => rfl) (fun _ => rfl)
  case recheckFree =>
    split
    · exact plain _ rfl nofun nofun nofun
    next free => exact starting (fun _ => Bool.eq_false_iff.mpr free) rfl rfl
  case reading | returned => exact plain _ rfl id id id
  all_goals cases reads

/-- A condition on every step of a run. -/
def Along (allowed : Runtime → Event → Prop) (s : Runtime) : List Event → Prop
  | [] => True
  | e :: events => allowed s e ∧ Along allowed (step cfg s e) events

/-- What storage does by itself: it goes on with a `Disconnect`, sweeps files, and takes away
the rows found orphaned. -/
def Upkeep (s : Runtime) : Op → Prop
  | .resumeDisconnect _ => True
  | .cleanupStale _ _ => True
  | .beginDisconnect info => info ∈ s.unheld
  | _ => False

/-- What every session satisfies, as the tables stand. -/
def Each (P : Tables → Nat → ClientSession → Prop) (s : Runtime) : Prop :=
  ∀ c x, s.sessions[c]? = some x → P s.toTables c x

section
variable {cfg} {s : Runtime}

/-- What every step keeps holds after a run. -/
theorem Along.run {motive : Runtime → Prop} (along : Along cfg allowed s events)
    (start : motive s)
    (keeps : ∀ s e, allowed s e → motive s → motive (step cfg s e)) : motive (run cfg s events) := by
  induction events generalizing s with
  | nil => exact start
  | cons e _ ih => exact ih along.2 (keeps s e along.1 start)

theorem Along.of_all (events : List Event) (all : ∀ e ∈ events, ∀ s, allowed s e) : Along cfg allowed s events := by
  induction events generalizing s with
  | nil => trivial
  | cons e _ ih => exact ⟨all e (.head _) s,ih (fun e member => all e (.tail _ member))⟩

def checks (cfg : RuntimeConfig) (check : Runtime → Event → Bool) (s : Runtime) : List Event → Bool
  | [] => true
  | e :: events => check s e && checks cfg check (step cfg s e) events

theorem Along.of_checks (check : Runtime → Event → Bool)
    (sound : ∀ s e, check s e = true → allowed s e) (checked : checks cfg check s events = true) :
    Along cfg allowed s events := by
  induction events generalizing s with
  | nil => trivial
  | cons e _ ih =>
    rw [checks,Bool.and_eq_true] at checked
    exact ⟨sound s e checked.1,ih checked.2⟩

theorem Each.modify (each : Each P s)
    (kept : ∀ x, s.sessions[c]? = some x → P s.toTables c x → P s.toTables c (f x)) :
    Each P (s.modifySession c f) := by
  intro d _ held
  rw [modifySession,getElem?_modify] at held
  obtain ⟨x,known,rfl⟩ := Option.map_eq_some_iff.mp held
  split
  next same =>
    subst same
    exact kept x known (each _ x known)
  · exact each d x known

theorem getElem?_set_held {sessions : List ClientSession}
    (known : sessions[c]? = some x) (held : (sessions.set c z)[d]? = some y) :
    d = c ∧ y = z ∨ d ≠ c ∧ sessions[d]? = some y := by
  rw [getElem?_set] at held
  split at held
  next same =>
    have bound : c < sessions.length := (List.getElem?_eq_some_iff.mp known).1
    rw [if_pos bound] at held
    exact .inl ⟨same.symm,(Option.some.inj held).symm⟩
  next other => exact .inr ⟨Ne.symm other,held⟩

/-- The sessions after a step of a goroutine: its own, and the others, of which one may have
begun its release. -/
theorem stepOwn_sessions {c d : Nat} (known : s.sessions[c]? = some x)
    (held : (stepOwn cfg s c x yes).sessions[d]? = some y) : d = c ∧ y = (own cfg s c x yes).self ∨
      d ≠ c ∧ ∃ z, s.sessions[d]? = some z ∧ (y = z ∨ (own cfg s c x yes).ends = some d ∧ y = z.beginRelease) := by
  have there : ∃ w, ((own cfg s c x yes).ends.elim s.sessions
      (fun old => s.sessions.modify old ClientSession.beginRelease))[c]? = some w := by
    cases (own cfg s c x yes).ends with
    | none => exact ⟨x,known⟩
    | some old =>
      rw [Option.elim_some,getElem?_modify,known]
      exact ⟨_,rfl⟩
  obtain ⟨_,there⟩ := there
  rcases getElem?_set_held there held with ⟨same,self⟩ | ⟨other,kept⟩
  · exact .inl ⟨same,self⟩
  · refine .inr ⟨other,?_⟩
    cases ends : (own cfg s c x yes).ends with
    | none =>
      rw [ends] at kept
      exact ⟨y,kept,.inl rfl⟩
    | some _ =>
      rw [ends,Option.elim_some,getElem?_modify] at kept
      obtain ⟨z,was,rfl⟩ := Option.map_eq_some_iff.mp kept
      refine ⟨z,was,?_⟩
      split
      next same => exact .inr ⟨congrArg some same,rfl⟩
      · exact .inl rfl

/-- Only a session of the index by user hash is released by another. -/
theorem own_ends (ends : (own cfg s c x yes).ends = some old) :
    ∃ hash, s.sessionsByHash.lookup hash = some old := by
  have indexed : ∀ {hash : Bytes}, s.sessionByHash hash = some old → ∃ hash, s.sessionsByHash.lookup hash = some old := by
    intro hash found
    unfold Tables.sessionByHash at found
    split at found
    · exact ⟨hash,found⟩
    · cases found
  by_cases reads : x.doing.works = false
  · rw [own_decides cfg s c yes reads] at ends
    dsimp only at ends
    cases doing : x.doing <;> rw [doing] at ends <;> dsimp only [decides] at ends
    case replace req =>
      rcases Option.eq_none_or_eq_some (s.sameIPSession c x req.hash) with none | ⟨found,same⟩
      · rw [none] at ends
        cases ends
      · rw [same] at ends
        cases ends
        exact indexed (Option.filter_eq_some_iff.mp same).1
    case takeOver =>
      rcases Option.eq_none_or_eq_some (s.dualStackHandoverFrom c x x.info.hash x.info.port) with none | ⟨found,same⟩
      · rw [none] at ends
        cases ends
      · rw [same] at ends
        cases ends
        unfold dualStackHandoverFrom at same
        split at same
        · exact indexed (Option.filter_eq_some_iff.mp same).1
        · cases same
    case probe req => cases (s.sessionByHash req.hash).filter (fun old => old != c) <;> cases ends
    all_goals cases ends
  · unfold own at ends
    cases doing : x.doing <;> rw [doing] at reads ends
    case allocate | connect | offering =>
      dsimp only at ends
      split at ends <;> cases ends
    all_goals first | exact absurd rfl reads | cases ends

theorem Each.own (each : Each P s) (known : s.sessions[c]? = some x)
    (begun : ∀ d y, s.sessions[d]? = some y → (∃ hash, s.sessionsByHash.lookup hash = some d) →
      P s.toTables d y → P s.toTables d y.beginRelease)
    (self : P (own cfg s c x yes).tables c (own cfg s c x yes).self)
    (others : ∀ d y, d ≠ c → P s.toTables d y → P (own cfg s c x yes).tables d y) :
    Each P (stepOwn cfg s c x yes) := by
  intro d _ held
  rcases stepOwn_sessions known held with ⟨rfl,rfl⟩ | ⟨other,z,was,rfl | ⟨ends,rfl⟩⟩
  · exact self
  · exact others d _ other (each d _ was)
  · exact others d _ other (begun d z was (own_ends ends) (each d z was))

theorem Each.release (each : Each P s) {c : Nat} (known : s.sessions[c]? = some x)
    (self : P (releaseStep cfg s.toTables c x).2 c (releaseStep cfg s.toTables c x).1)
    (others : ∀ d y, d ≠ c → P s.toTables d y → P (releaseStep cfg s.toTables c x).2 d y) :
    Each P (stepRelease cfg s c x) := by
  intro d y held
  rcases getElem?_set_held known held with ⟨rfl,rfl⟩ | ⟨other,was⟩
  · exact self
  · exact others d y other (each d y was)

/-- A step keeps what every session satisfies when each session keeps it over its own steps
and those of its release, and over what the others do to the tables. -/
theorem Each.step (each : Each P s) (e : Event)
    (fresh : ∀ c peer, s.sessions.length ≤ c → P s.toTables c (newTCPClient peer))
    (packet : ∀ c x next, s.sessions[c]? = some x → P s.toTables c x → x.isReading = true →
      (∀ req, next = .checkOnline req → e = .login c req) →
      (next = .leaving ∨ (∃ req, next = .checkOnline req ∧ x.logged = false) ∨
        ∃ files, next = .offering x.info files ∧ x.logged = true) → P s.toTables c { x with doing := next })
    (begun : ∀ c x, s.sessions[c]? = some x → (e = .drop c ∨ ∃ hash, s.sessionsByHash.lookup hash = some c) →
      P s.toTables c x → P s.toTables c x.beginRelease)
    (own : ∀ c x yes, e = .own c yes → s.sessions[c]? = some x → P s.toTables c x →
      P (Runtime.own cfg s c x yes).tables c (Runtime.own cfg s c x yes).self ∧
        ∀ d y, d ≠ c → P s.toTables d y → P (Runtime.own cfg s c x yes).tables d y)
    (release : ∀ c x, e = .release c → s.sessions[c]? = some x → P s.toTables c x →
      P (releaseStep cfg s.toTables c x).2 c (releaseStep cfg s.toTables c x).1 ∧
        ∀ d y, d ≠ c → P s.toTables d y → P (releaseStep cfg s.toTables c x).2 d y)
    (store : ∀ op c x, s.Upkeep op → P s.toTables c x → P (s.store cfg.unicode op) c x) : Each P (step cfg s e) := by
  cases e with
  | accept peer =>
    intro c x held
    rw [Runtime.step,getElem?_append] at held
    split at held
    · exact each c x held
    next above =>
      obtain ⟨-,rfl⟩ := List.getElem?_eq_some_iff.mp held
      simp only [getElem_singleton]
      exact fresh c peer (Nat.le_of_not_lt above)
  | login c req =>
    refine each.modify (fun x known holds => ?_)
    unfold beginLogin
    split
    next open' =>
      rw [Bool.and_eq_true,Bool.not_eq_true'] at open'
      exact packet c x _ known holds open'.1 (fun _ same => by cases same; rfl) (.inr (.inl ⟨req,rfl,open'.2⟩))
    · exact holds
  | offer c files =>
    refine each.modify (fun x known holds => ?_)
    unfold beginOffer
    split
    next open' =>
      rw [Bool.and_eq_true] at open'
      exact packet c x _ known holds open'.1 nofun (.inr (.inr ⟨files,rfl,open'.2⟩))
    · exact holds
  | hangUp c =>
    refine each.modify (fun x known holds => ?_)
    unfold beginLeaving
    split
    next open' => exact packet c x _ known holds open' nofun (.inl rfl)
    · exact holds
  | drop c => exact each.modify (fun x known holds => begun c x known (.inl rfl) holds)
  | own c yes =>
    rw [Runtime.step]
    cases known : s.sessions[c]? with
    | none => exact each
    | some x =>
      obtain ⟨self,others⟩ := own c x yes rfl known (each c x known)
      exact each.own known (fun d y was indexed => begun d y was (.inr indexed)) self others
  | release c =>
    rw [Runtime.step]
    cases known : s.sessions[c]? with
    | none => exact each
    | some x =>
      obtain ⟨self,others⟩ := release c x rfl known (each c x known)
      exact each.release known self others
  | resumeDisconnect | cleanupStale => exact fun c x held => store _ c x trivial (each c x held)
  | releaseOrphans => exact each
  | sweepCheck i =>
    rw [Runtime.step]
    cases s.online[i]? with
    | none | some => exact each
  | sweepDisconnect i =>
    rw [Runtime.step]
    cases unheld : s.unheld[i]? with
    | none => exact each
    | some _ => exact fun c x held => store _ c x (mem_of_getElem? unheld) (each c x held)

end

end Runtime

end ENode.Ed2k
