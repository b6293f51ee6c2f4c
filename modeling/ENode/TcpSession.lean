import ENode.TcpCrypt

/-! A TCP session as its read loop drives it: bytes come in chunks, are decrypted, cut into
packets and handed to the handlers. The handlers are any deterministic machine; what a
session shows is the packets dispatched and why it was closed. -/
namespace ENode.Ed2k

open GoText ByteNumbers List

def prED2K : UInt8 := 0xe3
def prEMule : UInt8 := 0xc5
def prZlib : UInt8 := 0xd4

def opLoginRequest : UInt8 := 0x01
def opDisconnect : UInt8 := 0x18

def isProtocol (protocol : UInt8) : Bool := protocol == prED2K || protocol == prEMule || protocol == prZlib

def packetHeaderSize : Nat := 6
def maxTCPPacketSize : Nat := 2000000
def maxPreLoginPacket : Nat := 64 * 1024

inductive PacketError where
  | outOfBounds
  | tooLarge (declared : Nat)
  | unknownProtocol (protocol : UInt8)
  deriving DecidableEq

structure Packet where
  protocol : UInt8 := 0
  size : Nat := 0
  code : UInt8 := 0
  status : PacketStatus := .new
  data : Bytes := []
  hasExcess : Bool := false
  excess : Bytes := []
  recv : Bytes := []
  deriving DecidableEq

namespace Packet

/-- Received bytes join the payload; those past its end are kept apart. -/
def append (p : Packet) (chunk : Bytes) : Packet :=
  let take := min (p.size - p.recv.length) chunk.length
  let recv := p.recv ++ chunk.take take
  if recv.length < p.size then { p with recv := recv, status := .waitingData, hasExcess := false }
  else { p with
    data := recv
    recv := []
    status := .ready
    hasExcess := decide (take < chunk.length)
    excess := if take < chunk.length then chunk.drop take else p.excess }

/-- Parses a header. A size counts the opcode. -/
def init (p : Packet) (buffer : Bytes) : Packet × Except PacketError Unit :=
  let p := { p with hasExcess := false }
  match buffer with
  | [] => (p,.error .outOfBounds)
  | protocol :: rest =>
    let p := { p with protocol := protocol }
    if isProtocol protocol then
      if rest.length < 4 then (p,.error .outOfBounds)
      else
        let size := leValue (rest.take 4)
        if size = 0 then (p,.error .outOfBounds)
        else if size - 1 > maxTCPPacketSize then (p,.error (.tooLarge (size - 1)))
        else
          let p := { p with size := size - 1 }
          match rest.drop 4 with
          | [] => (p,.error .outOfBounds)
          | code :: payload => (({ p with code := code, recv := [], data := [] }).append payload,.ok ())
    else (p,.error (.unknownProtocol protocol))

def release (p : Packet) : Packet := { p with data := [] }

end Packet

inductive CloseReason (ρ : Type) where
  | unknownProtocol
  | packetTooLarge
  | badPacketHeader (err : PacketError)
  | preloginPacketTooLarge
  | notLoggedIn
  | zlibBomb
  | cryptHandshakeFailed (err : CryptError)
  | byHandler (reason : ρ)
  deriving DecidableEq

/-- With a whole header in hand every error of it is fatal. -/
def PacketError.closeReason {ρ : Type} : PacketError → CloseReason ρ
  | .tooLarge _ => .packetTooLarge
  | err => .badPacketHeader err

/-- What a handler does to the session, in its order. -/
inductive Effect (ρ : Type) where
  | write (data : Bytes)
  | close (reason : ρ)

inductive InflateError where
  | tooLarge
  | corrupt

/-- The code behind the dispatch: a deterministic machine over the state `σ`, closing for
reasons `ρ`. `notLoggedInMessage` is the packet a refused session is told with. -/
structure Handlers (σ ρ : Type) where
  isLogged : σ → Bool
  inflate : Bytes → Except InflateError Bytes
  handle : σ → UInt8 → Bytes → σ × List (Effect ρ)
  notLoggedInMessage : Bytes

structure Frame where
  protocol : UInt8
  opcode : UInt8
  payload : Bytes
  deriving DecidableEq

inductive Event (ρ : Type) where
  | dispatched (frame : Frame)
  | closed (reason : CloseReason ρ)
  deriving DecidableEq

def Closed {ρ : Type} (events : List (Event ρ)) : Prop := ∃ reason, .closed reason ∈ events

/-- What happened up to the first close, with its reason. -/
def observed {ρ : Type} : List (Event ρ) → List (Event ρ)
  | [] => []
  | .dispatched frame :: rest => .dispatched frame :: observed rest
  | .closed reason :: _ => [.closed reason]

/-- What the handlers act on. `sent` is what went out on the socket, `events` is what
happened, for the statements only. -/
structure Session (σ ρ : Type) where
  crypt : Option TCPCrypt := none
  loginGateTripped : Bool := false
  closeReason : Option (CloseReason ρ) := none
  sent : Bytes := []
  state : σ
  events : List (Event ρ) := []

namespace Session

variable {σ ρ : Type} (h : Handlers σ ρ)

def closeWithReason (c : Session σ ρ) (reason : CloseReason ρ) : Session σ ρ :=
  { c with closeReason := some (c.closeReason.getD reason), events := c.events ++ [.closed reason] }

/-- The keystream moves on even for a socket that is closed. -/
def writeRaw (c : Session σ ρ) (data : Bytes) : Session σ ρ :=
  let (crypt,out) := match c.crypt with
    | some t => (some (t.encrypt data).1,(t.encrypt data).2)
    | none => (none,data)
  { c with crypt := crypt, sent := if c.closeReason.isNone then c.sent ++ out else c.sent }

def applyEffect (c : Session σ ρ) : Effect ρ → Session σ ρ
  | .write data => c.writeRaw data
  | .close reason => c.closeWithReason (.byHandler reason)

/-- Whether an opcode that needs an identity may be served; a session without one is told
and closed, once. -/
def requireLogin (c : Session σ ρ) : Session σ ρ × Bool :=
  if h.isLogged c.state then (c,true)
  else if c.loginGateTripped then (c,false)
  else
    let c := { c with loginGateTripped := true }
    ((c.writeRaw h.notLoggedInMessage).closeWithReason .notLoggedIn,false)

def dispatch (c : Session σ ρ) (opcode : UInt8) (data : Bytes) : Session σ ρ :=
  let (state,effects) := h.handle c.state opcode data
  effects.foldl applyEffect { c with state := state }

def handleED2K (c : Session σ ρ) (opcode : UInt8) (data : Bytes) : Session σ ρ :=
  if opcode = opLoginRequest ∨ opcode = opDisconnect then c.dispatch h opcode data
  else match c.requireLogin h with
    | (c,true) => c.dispatch h opcode data
    | (c,false) => c

def handlePacket (c : Session σ ρ) (frame : Frame) : Session σ ρ :=
  let c := { c with events := c.events ++ [.dispatched frame] }
  if frame.protocol = prED2K then c.handleED2K h frame.opcode frame.payload
  else if frame.protocol = prZlib then
    match h.inflate frame.payload with
    | .error .tooLarge => c.closeWithReason .zlibBomb
    | .error .corrupt => c
    | .ok payload => c.handleED2K h frame.opcode payload
  else c

/-- Before login only a login or disconnect of plausible size may follow. -/
def preLoginHeaderAllowed (c : Session σ ρ) (header : Bytes) : Session σ ρ × Bool :=
  if h.isLogged c.state then (c,true)
  else if leValue ((header.drop 1).take 4) > maxPreLoginPacket + 1 then
    (c.closeWithReason .preloginPacketTooLarge,false)
  else if header.getD 0 0 ≠ prEMule ∧ header.getD 5 0 ≠ opLoginRequest ∧ header.getD 5 0 ≠ opDisconnect then
    c.requireLogin h
  else (c,true)

end Session

structure TcpClient (σ ρ : Type) extends Session σ ρ where
  packet : Packet := {}
  headerBuf : Bytes := []

namespace TcpClient

variable {σ ρ : Type} (h : Handlers σ ρ)

/-- A complete packet is handled and its space given up; what came after it is next. -/
def finishPacket (c : TcpClient σ ρ) : TcpClient σ ρ × Option Bytes :=
  if c.packet.status ≠ .ready then (c,none)
  else
    let session := c.toSession.handlePacket h ⟨c.packet.protocol,c.packet.code,c.packet.data⟩
    let p := { c.packet with status := .new }.release
    if p.hasExcess && !p.excess.isEmpty then
      ({ c with toSession := session, packet := { p with hasExcess := false, excess := [] } },some p.excess)
    else ({ c with toSession := session, packet := p },none)

/-- The start of a packet, with what an earlier chunk left of its header. A bad protocol
byte is refused before the rest of the header is there. -/
def processHeader (c : TcpClient σ ρ) (data : Bytes) : TcpClient σ ρ × Option Bytes :=
  if data.isEmpty then (c,none)
  else if !isProtocol (data.getD 0 0) then ({ c with toSession := c.toSession.closeWithReason .unknownProtocol },none)
  else if data.length < packetHeaderSize then ({ c with headerBuf := data },none)
  else
    let (session,allowed) := c.toSession.preLoginHeaderAllowed h data
    if !allowed then ({ c with toSession := session },none)
    else
      let (p,parsed) := c.packet.init data
      match parsed with
      | .error err => ({ c with toSession := session.closeWithReason err.closeReason, packet := p },none)
      | .ok () => ({ c with toSession := session, packet := p }).finishPacket h

/-- One round of `processPacketData`, with the excess it goes on with. -/
def processRound (c : TcpClient σ ρ) (data : Bytes) : TcpClient σ ρ × Option Bytes :=
  match c.packet.status with
  | .new => ({ c with headerBuf := [] }).processHeader h (c.headerBuf ++ data)
  | .waitingData => ({ c with packet := c.packet.append data }).finishPacket h
  | _ => (c,none)

/-- Every round that leaves excess has used up a header or finished the packet it was in. -/
def work (c : TcpClient σ ρ) (data : Bytes) : Nat :=
  2 * (c.headerBuf.length + data.length) + if c.packet.status = .new then 0 else 1

end TcpClient

namespace Packet

variable {p : Packet} {chunk : Bytes}

theorem append_waiting (short : chunk.length < p.size - p.recv.length) :
    p.append chunk = { p with recv := p.recv ++ chunk, status := .waitingData, hasExcess := false } := by
  have take : min (p.size - p.recv.length) chunk.length = chunk.length := by omega
  have waiting : (p.recv ++ chunk).length < p.size := by rw [length_append]; omega
  rw [append,take,take_length,if_pos waiting]

theorem append_ready (enough : p.size - p.recv.length ≤ chunk.length) :
    p.append chunk = { p with
      data := p.recv ++ chunk.take (p.size - p.recv.length)
      recv := []
      status := .ready
      hasExcess := decide (p.size - p.recv.length < chunk.length)
      excess := if p.size - p.recv.length < chunk.length then chunk.drop (p.size - p.recv.length) else p.excess } := by
  have take : min (p.size - p.recv.length) chunk.length = p.size - p.recv.length := by omega
  have complete : ¬(p.recv ++ chunk.take (p.size - p.recv.length)).length < p.size := by
    rw [length_append,length_take]
    omega
  rw [append,take,if_neg complete]

theorem append_excess (more : (p.append chunk).hasExcess = true) :
    (p.append chunk).excess.length ≤ chunk.length := by
  by_cases short : chunk.length < p.size - p.recv.length
  · rw [append_waiting short] at more
    cases more
  · rw [append_ready (Nat.le_of_not_lt short)] at more ⊢
    dsimp only at more ⊢
    rw [if_pos (of_decide_eq_true more),length_drop]
    omega

/-- With a whole header in hand, what comes after it only matters to the payload. -/
theorem init_append (p : Packet) {buffer : Bytes} (header : packetHeaderSize ≤ buffer.length) :
    (∃ q err, ∀ more, p.init (buffer ++ more) = (q,.error err)) ∨ ∃ q : Packet, q.recv = [] ∧ q.excess = p.excess ∧
        ∀ more, p.init (buffer ++ more) = (q.append (buffer.drop packetHeaderSize ++ more),.ok ()) := by
  match buffer, header with
  | b0 :: b1 :: b2 :: b3 :: b4 :: b5 :: rest, _ =>
    by_cases known : isProtocol b0 = true
    · by_cases zero : leValue [b1,b2,b3,b4] = 0
      · exact .inl ⟨{ p with hasExcess := false, protocol := b0 },.outOfBounds,fun more => by simp [init,known,zero]⟩
      · by_cases large : leValue [b1,b2,b3,b4] - 1 > maxTCPPacketSize
        · exact .inl ⟨{ p with hasExcess := false, protocol := b0 },.tooLarge (leValue [b1,b2,b3,b4] - 1),
            fun more => by simp [init,known,zero,large]⟩
        · exact .inr ⟨{ p with
              hasExcess := false, protocol := b0, size := leValue [b1,b2,b3,b4] - 1, code := b5, recv := [], data := [] },
            rfl,rfl,fun more => by simp [init,known,zero,large,packetHeaderSize]⟩
    · exact .inl ⟨{ p with hasExcess := false, protocol := b0 },.unknownProtocol b0,fun _ => by simp [init,known]⟩

end Packet

namespace TcpClient

variable {σ ρ : Type} {h : Handlers σ ρ}

theorem finishPacket_some {c c' : TcpClient σ ρ} (done : c.finishPacket h = (c',some excess)) :
    c.packet.hasExcess = true ∧ excess = c.packet.excess ∧ c'.packet.status = .new ∧ c'.headerBuf = c.headerBuf := by
  unfold finishPacket at done
  split at done
  · cases done
  dsimp only [Packet.release] at done
  split at done
  next both =>
    cases done
    exact ⟨(Bool.and_eq_true_iff.mp both).1,rfl,rfl,rfl⟩
  · cases done

variable {header : Bytes}

theorem preLoginHeaderAllowed_append (c : Session σ ρ) (whole : packetHeaderSize ≤ header.length)
    (more : Bytes) : c.preLoginHeaderAllowed h (header ++ more) = c.preLoginHeaderAllowed h header := by
  match header, whole with
  | b0 :: b1 :: b2 :: b3 :: b4 :: b5 :: rest, _ => rfl

theorem closed_closeWithReason (c : Session σ ρ) (reason : CloseReason ρ) : Closed (c.closeWithReason reason).events :=
  ⟨reason,by simp [Session.closeWithReason]⟩

theorem preLoginHeaderAllowed_closed {c session : Session σ ρ} (gate : c.loginGateTripped = false)
    (refused : c.preLoginHeaderAllowed h header = (session,false)) : Closed session.events := by
  unfold Session.preLoginHeaderAllowed at refused
  split at refused
  · cases refused
  next anonymous =>
    split at refused
    · cases refused
      exact closed_closeWithReason ..
    · split at refused
      · rw [Session.requireLogin,if_neg anonymous,gate] at refused
        cases refused
        exact closed_closeWithReason ..
      · cases refused

theorem preLoginHeaderAllowed_same {c session : Session σ ρ}
    (allowed : c.preLoginHeaderAllowed h header = (session,true)) : session = c := by
  unfold Session.preLoginHeaderAllowed at allowed
  split at allowed
  · cases allowed
    rfl
  next anonymous =>
    split at allowed
    · cases allowed
    split at allowed
    · rw [Session.requireLogin,if_neg anonymous] at allowed
      split at allowed <;> cases allowed
    · cases allowed
      rfl

/-- A round over a whole header either ends there, whatever comes after it, or fills the
payload of the packet it declares. -/
theorem processHeader_whole (c : TcpClient σ ρ) {data : Bytes} (whole : packetHeaderSize ≤ data.length) :
    (∃ c', (c.loginGateTripped = false → Closed c'.events) ∧ ∀ more, c.processHeader h (data ++ more) = (c',none)) ∨
      ∃ p : Packet, p.recv = [] ∧ p.excess = c.packet.excess ∧ ∀ more, c.processHeader h (data ++ more) =
        ({ c with packet := p.append (data.drop packetHeaderSize ++ more) }).finishPacket h := by
  have size : packetHeaderSize = 6 := rfl
  have filled : ∀ more, (data ++ more).isEmpty = false := by
    intro more
    rw [isEmpty_eq_false_iff,← length_pos_iff,length_append]
    omega
  have long : ∀ more, ¬(data ++ more).length < packetHeaderSize := by
    intro more
    rw [length_append]
    omega
  have first : ∀ more, (data ++ more).getD 0 0 = data.getD 0 0 := fun more => getD_append _ _ _ _ (by omega)
  by_cases known : isProtocol (data.getD 0 0) = true
  · rcases allowed : c.toSession.preLoginHeaderAllowed h data with ⟨session,_ | _⟩
    · refine .inl ⟨{ c with toSession := session },fun gate => preLoginHeaderAllowed_closed gate allowed,fun more => ?_⟩
      simp only [processHeader,filled,first,known,long,preLoginHeaderAllowed_append _ whole,allowed,Bool.not_true,
        Bool.not_false,Bool.false_eq_true,reduceIte]
    · obtain rfl := preLoginHeaderAllowed_same allowed
      rcases c.packet.init_append whole with ⟨p,err,fails⟩ | ⟨p,fresh,stale,fills⟩
      · refine .inl ⟨{ c with toSession := c.toSession.closeWithReason err.closeReason, packet := p },
          fun _ => closed_closeWithReason ..,fun more => ?_⟩
        simp only [processHeader,filled,first,known,long,preLoginHeaderAllowed_append _ whole,allowed,fails,
          Bool.not_true,Bool.false_eq_true,reduceIte]
      · refine .inr ⟨p,fresh,stale,fun more => ?_⟩
        simp only [processHeader,filled,first,known,long,preLoginHeaderAllowed_append _ whole,allowed,fills,
          Bool.not_true,Bool.false_eq_true,reduceIte]
  · refine .inl ⟨{ c with toSession := c.toSession.closeWithReason .unknownProtocol },
      fun _ => closed_closeWithReason ..,fun _ => ?_⟩
    simp only [processHeader,filled,first,known,Bool.not_false,Bool.false_eq_true,reduceIte]

theorem processHeader_short (c : TcpClient σ ρ) {data : Bytes} (short : data.length < packetHeaderSize) :
    (c.processHeader h data).2 = none := by
  unfold processHeader
  split
  · rfl
  split
  · rfl
  · rfl

theorem work_decreases {c c' : TcpClient σ ρ}
    (round : c.processRound h data = (c',some excess)) : c'.work excess < c.work data := by
  unfold processRound at round
  split at round
  next new =>
    by_cases whole : packetHeaderSize ≤ (c.headerBuf ++ data).length
    · rcases processHeader_whole (h := h) { c with headerBuf := [] } whole with ⟨end',-,same⟩ | ⟨p,-,-,fills⟩
      · have same := same []
        rw [append_nil,round] at same
        cases same
      · have fills := fills []
        rw [append_nil,append_nil,round] at fills
        obtain ⟨more,same,status,buf⟩ := finishPacket_some fills.symm
        have shorter := Packet.append_excess more
        rw [length_drop] at shorter
        have header : packetHeaderSize = 6 := rfl
        rw [length_append] at whole shorter
        rw [work,work,status,new,buf,same]
        simp
        omega
    · have none := processHeader_short (h := h) { c with headerBuf := [] } (Nat.lt_of_not_le whole)
      rw [round] at none
      cases none
  next waiting =>
    obtain ⟨more,same,status,buf⟩ := finishPacket_some round
    have shorter := Packet.append_excess more
    rw [work,work,status,waiting,buf,same]
    simp
    omega
  · cases round

variable (h)

def processPacketData (c : TcpClient σ ρ) (data : Bytes) : TcpClient σ ρ :=
  match _round : c.processRound h data with
  | (c',none) => c'
  | (c',some excess) => processPacketData c' excess
termination_by c.work data
decreasing_by exact work_decreases (by assumption)

/-- A chunk as it is read. Only the stream's first byte tells a plaintext session on the
obfuscated port. -/
def handleBytes (md5 : Bytes → Bytes) (draws : Draws) (c : TcpClient σ ρ) (data : Bytes) : TcpClient σ ρ :=
  match c.crypt with
  | none => c.processPacketData h data
  | some t =>
    match t.state with
    | .none => c.processPacketData h data
    | .encrypting => ({ c with crypt := some (t.decrypt data).1 }).processPacketData h (t.decrypt data).2
    | state =>
      if state = .unknown ∧ !data.isEmpty ∧ isProtocol (data.getD 0 0) ∧ t.pending.length = 0 then
        ({ c with crypt := some { t with state := .none } }).processPacketData h data
      else
        let step := t.processData md5 draws data
        let c := { c with crypt := some step.crypt, packet := { c.packet with status := step.status.getD c.packet.status } }
        match step.result with
        | .error err => { c with toSession := c.toSession.closeWithReason (.cryptHandshakeFailed err) }
        | .ok rest =>
          if rest.isEmpty then c
          else if state = .unknown then { c with toSession := c.toSession.writeRaw rest }
          else c.processPacketData h rest

end TcpClient

end ENode.Ed2k
