import ENode.TcpFraming
import ENode.KeepaliveProofs

/-! A session crosses to another process: it is read out between two reads and rebuilt around
the same socket. Its handlers, and what else in the server reads it, are any functions of its
fields; what they see and decide is compared on both sides. -/
namespace ENode.Ed2k

open GoText ByteNumbers Storage

/-- A reading of the clock, which is never the zero time. -/
abbrev Instant := { t : Int // t ≠ 0 }

abbrev FileHash := Vector UInt8 16

/-- The rest of a search, never stored without rows. -/
structure PendingSearch where
  rows : List File
  expires : Int
  kept : rows ≠ []

/-- Where a session's last believed keepalive came from. -/
structure NatCallbackRecent where
  ipv4 : Nat
  port : Nat
  at_ : Int
  proven : Bool

/-- The fields of `tcpClient` that the handlers read and write, and what `natCallback` keeps under
the pointer to it: its entry of `sessions` and the one of `keepalives` that it owns. `τ` is what
the spam observer keeps of a session. -/
structure ClientState (τ : Type) where
  logged : Bool := false
  hasLowID : Bool := true
  info : ClientInfo
  nick : Bytes := []
  software : Bytes := []
  mod : Bytes := []
  ipv6Capable : Bool := false
  metaCapable : Bool := false
  nattCapable : Bool := false
  natWakeCapable : Bool := false
  holePunchExt : Bool := false
  ed3kID : Option (Vector UInt8 16) := none
  pendingResults : Option PendingSearch := none
  softLimitWarned : Bool := false
  hardLimitHit : Bool := false
  banlistDropped : Bool := false
  banlistHits : Finset FileHash := ∅
  keywordHits : Finset FileHash := ∅
  spamSession : Option τ := none
  natSession : Option NatSessionState := none
  natKeepalive : Option NatCallbackRecent := none

/-- A session in its server: its connection, its fields and the rest of the server. -/
structure Held (ω τ : Type) where
  peerIP : Option Address
  connectedAt : Instant
  client : ClientState τ
  world : ω

/-- A socket. What was written to it and what happened on it is for the statements only. -/
structure Socket (ρ : Type) where
  peerIP : Option Address
  sent : Bytes := []
  events : List (Event ρ) := []

variable {ω τ ρ α : Type}

def TcpClient.newTCPClient (world : ω) (conn : Socket ρ) (enableCrypt : Bool) (now : Instant) : TcpClient (Held ω τ) ρ where
  crypt := if enableCrypt then some { state := .unknown } else none
  sent := conn.sent
  events := conn.events
  state := {
    peerIP := conn.peerIP
    connectedAt := now
    client := { info := { ipv4 := (conn.peerIP.map Address.ipv4).getD 0, lowID := true } }
    world := world }

structure CryptState where
  state : CryptStatus
  pending : Bytes
  sendKey : Option RC4Key
  recvKey : Option RC4Key

structure PacketState where
  status : PacketStatus
  protocol : UInt8
  code : UInt8
  size : Nat
  recv : Bytes

structure SessionState where
  obfuscated : Bool
  crypt : Option CryptState
  packet : PacketState
  headerBuf : Bytes
  logged : Bool
  hasLowID : Bool
  info : ClientInfo
  nick : Bytes
  software : Bytes
  mod : Bytes
  connectedAt : Int
  ipv6Capable : Bool
  metaCapable : Bool
  nattCapable : Bool
  natWakeCapable : Bool
  ed3kID : Bytes
  pendingResults : List File
  softLimitWarned : Bool
  hardLimitHit : Bool
  banlistDropped : Bool
  loginGateTripped : Bool
  banlistHits : List FileHash
  keywordHits : List FileHash

/-- `range` over a set visits its members in some order. -/
structure SetRange (K : Type) [DecidableEq K] where
  order : Finset K → List K
  visits : ∀ s, (order s).toFinset = s

/-- What the successor's configuration says of kept rows, and when it rebuilds the session. -/
structure Taking where
  now : Instant
  moreResultsMax : Int
  moreResultsTTL : Int

def Taking.deadline (t : Taking) : Int := t.now.1 + t.moreResultsTTL

def TCPCrypt.exportState (t : TCPCrypt) : CryptState := ⟨t.state,t.pending,t.sendKey,t.recvKey⟩

def TCPCrypt.importState (st : CryptState) : TCPCrypt :=
  { state := st.state, pending := st.pending, sendKey := st.sendKey, recvKey := st.recvKey }

def ClientState.pendingRows (s : ClientState τ) : List File := (s.pendingResults.map PendingSearch.rows).getD []

/-- The rows that fit, or nothing. -/
def keepPendingResults (most : Int) (rows : List File) (expires : Int) : Option PendingSearch :=
  if kept : rows.take most.toNat = [] then none else some ⟨rows.take most.toNat,expires,kept⟩

namespace TcpClient

def socket (c : TcpClient (Held ω τ) ρ) : Socket ρ := ⟨c.state.peerIP,c.sent,c.events⟩

def exportState (range : SetRange FileHash) (c : TcpClient (Held ω τ) ρ) : SessionState :=
  let s := c.state.client
  { obfuscated := c.crypt.isSome
    crypt := c.crypt.map TCPCrypt.exportState
    packet := ⟨c.packet.status,c.packet.protocol,c.packet.code,c.packet.size,c.packet.recv⟩
    headerBuf := c.headerBuf
    logged := s.logged
    hasLowID := s.hasLowID
    info := s.info
    nick := s.nick
    software := s.software
    mod := s.mod
    connectedAt := c.state.connectedAt
    ipv6Capable := s.ipv6Capable
    metaCapable := s.metaCapable
    nattCapable := s.nattCapable
    natWakeCapable := s.natWakeCapable
    ed3kID := (s.ed3kID.map Vector.toList).getD []
    pendingResults := s.pendingRows
    softLimitWarned := s.softLimitWarned
    hardLimitHit := s.hardLimitHit
    banlistDropped := s.banlistDropped
    loginGateTripped := c.loginGateTripped
    banlistHits := range.order s.banlistHits
    keywordHits := range.order s.keywordHits }

/-- `exportState`'s inverse, on a session that has just been built. -/
def applyState (taking : Taking) (c : TcpClient (Held ω τ) ρ) (st : SessionState) : TcpClient (Held ω τ) ρ :=
  { c with
    crypt := match c.crypt, st.crypt with
      | some _, some st => some (TCPCrypt.importState st)
      | crypt, _ => crypt
    loginGateTripped := st.loginGateTripped
    packet := { c.packet with
      status := st.packet.status
      protocol := st.packet.protocol
      code := st.packet.code
      size := st.packet.size
      recv := st.packet.recv }
    headerBuf := if st.headerBuf.length > 0 then st.headerBuf else c.headerBuf
    state := { c.state with
      connectedAt := if set : st.connectedAt ≠ 0 then ⟨st.connectedAt,set⟩ else c.state.connectedAt
      client := { c.state.client with
        logged := st.logged
        hasLowID := st.hasLowID
        info := st.info
        nick := st.nick
        software := st.software
        mod := st.mod
        ipv6Capable := st.ipv6Capable
        ed3kID := if sized : st.ed3kID.length = 16 then some ⟨st.ed3kID.toArray,sized⟩ else c.state.client.ed3kID
        metaCapable := st.metaCapable
        nattCapable := st.nattCapable
        natWakeCapable := st.natWakeCapable
        pendingResults := keepPendingResults taking.moreResultsMax st.pendingResults taking.deadline
        softLimitWarned := st.softLimitWarned
        hardLimitHit := st.hardLimitHit
        banlistDropped := st.banlistDropped
        banlistHits := st.banlistHits.toFinset
        keywordHits := st.keywordHits.toFinset } } }

/-- The session as `RestoreSessions` rebuilds it from its state and its socket. The tables of
`natCallback` are empty in the new process. -/
def handedOver (range : SetRange FileHash) (taking : Taking) (c : TcpClient (Held ω τ) ρ) : TcpClient (Held ω τ) ρ :=
  let st := c.exportState range
  (newTCPClient c.state.world c.socket st.obfuscated taking.now).applyState taking st

end TcpClient

/-- The code behind the dispatch, over the fields of its session and the rest of the server. -/
structure Service (ω τ ρ : Type) where
  inflate : Bytes → Except InflateError Bytes
  notLoggedInMessage : Bytes
  handle : Held ω τ → UInt8 → Bytes → (ClientState τ × ω) × List (Effect ρ)

def Service.handlers (service : Service ω τ ρ) : Handlers (Held ω τ) ρ where
  isLogged s := s.client.logged
  inflate := service.inflate
  notLoggedInMessage := service.notLoggedInMessage
  handle s opcode data :=
    let done := service.handle s opcode data
    ({ s with client := done.1.1, world := done.1.2 },done.2)

/-- What comes next for a session: bytes of its client, or a reading of it from elsewhere in
the server, which decides, may write to the session and may change it. -/
inductive Input (ω τ ρ α : Type) where
  | bytes (draws : Draws) (data : Bytes)
  | request (reads : Held ω τ → (ClientState τ × ω) × List (Effect ρ) × α)

namespace TcpClient

def take (service : Service ω τ ρ) (md5 : Bytes → Bytes) (c : TcpClient (Held ω τ) ρ) :
    Input ω τ ρ α → TcpClient (Held ω τ) ρ × List α
  | .bytes draws data => (c.handleBytes service.handlers md5 draws data,[])
  | .request reads =>
    let done := reads c.state
    let state := { c.state with client := done.1.1, world := done.1.2 }
    ({ c with toSession := done.2.1.foldl Session.applyEffect { c.toSession with state := state } },[done.2.2])

def takeAll (service : Service ω τ ρ) (md5 : Bytes → Bytes) (c : TcpClient (Held ω τ) ρ)
    (inputs : List (Input ω τ ρ α)) : TcpClient (Held ω τ) ρ × List α :=
  inputs.foldl (fun s input =>
    let next := s.1.take service md5 input
    (next.1,s.2 ++ next.2)) (c,[])

/-- What a run shows: the packets dispatched and the closes, the bytes written, the decisions. -/
def shows (s : TcpClient (Held ω τ) ρ × List α) : List (Event ρ) × Bytes × List α := (s.1.events,s.1.sent,s.2)

/-- Two sessions that no handler, no reading and no stream of bytes can tell apart. -/
def SameFuture (a b : TcpClient (Held ω τ) ρ) : Prop :=
  ∀ (α : Type) (service : Service ω τ ρ) (md5 : Bytes → Bytes) (inputs : List (Input ω τ ρ α)),
    shows (a.takeAll service md5 inputs) = shows (b.takeAll service md5 inputs)

end TcpClient

/-- What a callback reads of the session that holds a LowID. -/
structure NatCallbackPeerView where
  ipv4 : Nat
  sessionIP : Option Address
  crypt : Nat
  natt : Bool
  holePunch : Bool
  hash : Bytes
  deriving DecidableEq

def natCallbackPeer (id : Nat) (s : Held ω τ) : Option NatCallbackPeerView :=
  if id = 0 ∨ hasHighID id then none
  else if !s.client.logged || !s.client.hasLowID || s.client.info.id != id then none
  else some {
    ipv4 := match s.peerIP with
      | some (.v4 ip) => ip
      | _ => s.client.info.ipv4
    sessionIP := s.peerIP
    crypt := s.client.info.cryptOptions
    natt := s.client.nattCapable
    holePunch := s.client.holePunchExt
    hash := s.client.info.hash }

/-- A packet is not being handled: nothing of one is left but what is still incomplete. -/
structure Packet.Quiet (p : Packet) : Prop where
  status : p.status ≠ .ready
  data : p.data = []
  hasExcess : p.hasExcess = false
  excess : p.excess = []

namespace TcpClient

variable {σ : Type}

variable {c : TcpClient σ ρ}

variable (service : Service ω τ ρ) (md5 : Bytes → Bytes) {c : TcpClient (Held ω τ) ρ}

theorem packet_crosses (quiet : c.packet.Quiet) (range : SetRange FileHash) (taking : Taking) :
    (c.handedOver range taking).packet = c.packet := by
  have data := quiet.data
  have hasExcess := quiet.hasExcess
  have excess := quiet.excess
  cases packet : c.packet
  simp_all [handedOver,applyState,newTCPClient,exportState]

section
variable (c : TcpClient (Held ω τ) ρ)

section
variable (range : SetRange FileHash)
include range

end

end

/-- A reading that decides by a value of the session and leaves it as it is. -/
def Input.reading (read : Held ω τ → α) : Input ω τ ρ α := .request fun s => ((s.client,s.world),[],read s)

theorem SameFuture.reading {a b : TcpClient (Held ω τ) ρ} (same : a.SameFuture b) (read : Held ω τ → α) :
    read a.state = read b.state := by
  let service : Service ω τ ρ := ⟨fun _ => .error .corrupt,[],fun s _ _ => ((s.client,s.world),[])⟩
  have equal := same α service id [Input.reading read]
  simpa [shows,takeAll,take,Input.reading] using congrArg (fun shown => shown.2.2) equal

/-- A keepalive of the session as `udpNatKeepalive` decides it, on its entry of the table. -/
def Input.keepalive (mac : Bytes → Bytes → Nat → Bytes) (k : NatKeepalive Unit) : Input ω τ ρ Bool :=
  .request fun s =>
    let table : GoMap Unit NatSessionState := (s.client.natSession.map fun st => AList.insert () st ∅).getD ∅
    let out := udpNatKeepalive mac table k
    (({ s.client with natSession := out.1.lookup () },s.world),[],out.2.1)

/-- A server on which any login packet makes a logged-in LowID session, one with content such a
session that has announced the hole-punch extension. -/
def punching : Service Unit Unit Unit where
  inflate _ := .error .corrupt
  notLoggedInMessage := []
  handle s opcode data :=
    if opcode = opLoginRequest then
      (({ s.client with
          logged := true
          info := { s.client.info with id := 5, hash := List.replicate 16 7 }
          nattCapable := true
          holePunchExt := !data.isEmpty },s.world),[])
    else ((s.client,s.world),[])

def after (data : Bytes) : TcpClient (Held Unit Unit) Unit :=
  ((newTCPClient () ⟨some (.v4 9),[],[]⟩ false ⟨1,by decide⟩).takeAll punching id
    [(Input.bytes ⟨none,none⟩ data : Input Unit Unit Unit Unit)]).1

/-- The hash of the session logged in, from its own address. -/
def heard (obfuscated : Bool) : NatKeepalive Unit :=
  ⟨true,fun _ => some (),fun _ => 5,fun _ => some ⟨(),9,some (.v4 9)⟩,.v4 9,4672,List.replicate 16 7,obfuscated⟩

end TcpClient

end ENode.Ed2k
