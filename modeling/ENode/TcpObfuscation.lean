import ENode.TcpKeyExchange

/-! Obfuscation is transparent. Once the keys are agreed on, an obfuscated session does what a
plaintext session does with the client's plaintext, and the client reads what the server wrote. -/
namespace ENode.Ed2k

open GoText ByteNumbers List

/-- A session that encrypts, with `recvKey` its place in the key stream it reads: as the
plaintext session `plain`, but for what is on the wire. Before `plain` the wire carried
`base`, and `sendKey` was the key then; `lost` is what was written to the closed socket. -/
structure Veils {σ ρ : Type} (base : Bytes) (sendKey recvKey : RC4Key) (veiled plain : Session σ ρ) : Prop where
  bare : plain.crypt = none
  same : ∃ lost, (plain.closeReason = none → lost = []) ∧ veiled = { plain with
    crypt := some
      { state := .encrypting, sendKey := some (sendKey.crypt (plain.sent ++ lost)).1, recvKey := some recvKey }
    sent := base ++ (sendKey.crypt plain.sent).2 }

namespace Veils

variable {σ ρ : Type} {h : Handlers σ ρ} {base : Bytes} {sendKey recvKey : RC4Key} {veiled plain : Session σ ρ}

section
variable (veils : Veils base sendKey recvKey veiled plain)
include veils

theorem closeWithReason (reason : CloseReason ρ) :
    Veils base sendKey recvKey (veiled.closeWithReason reason) (plain.closeWithReason reason) := by
  obtain ⟨bare,lost,-,rfl⟩ := veils
  exact ⟨bare,lost,(absurd · (Option.some_ne_none _)),rfl⟩

theorem writeRaw (data : Bytes) : Veils base sendKey recvKey (veiled.writeRaw data) (plain.writeRaw data) := by
  obtain ⟨bare,lost,kept,rfl⟩ := veils
  have written : plain.writeRaw data =
      { plain with sent := if plain.closeReason.isNone then plain.sent ++ data else plain.sent } := by
    rw [Session.writeRaw,bare]
  rw [written]
  refine ⟨bare,?_⟩
  cases closed : plain.closeReason with
  | none =>
    refine ⟨[],fun _ => rfl,?_⟩
    obtain rfl := kept closed
    have next := sendKey.crypt_append plain.sent data
    simp only [Session.writeRaw,TCPCrypt.encrypt,cryptWith,append_nil,Option.isNone_none,next,reduceIte,
      append_assoc]
  | some _ =>
    refine ⟨lost ++ data,(absurd · (Option.some_ne_none _)),?_⟩
    have next := sendKey.crypt_append (plain.sent ++ lost) data
    rw [append_assoc] at next
    simp only [Session.writeRaw,TCPCrypt.encrypt,cryptWith,Option.isNone_some,next,Bool.false_eq_true,reduceIte]

theorem dispatch (opcode : UInt8) (data : Bytes) :
    Veils base sendKey recvKey (veiled.dispatch h opcode data) (plain.dispatch h opcode data) := by
  have effects : ∀ (effects : List (Effect ρ)) {veiled plain : Session σ ρ}, Veils base sendKey recvKey veiled plain →
      Veils base sendKey recvKey (effects.foldl Session.applyEffect veiled) (effects.foldl Session.applyEffect plain) := by
    intro effects
    induction effects with
    | nil => exact fun veils => veils
    | cons effect effects ih =>
      intro _ _ veils
      refine ih ?_
      cases effect with
      | write data => exact veils.writeRaw data
      | close _ => exact veils.closeWithReason _
  obtain ⟨bare,lost,kept,rfl⟩ := veils
  exact effects _ ⟨bare,lost,kept,rfl⟩

theorem state : veiled.state = plain.state := by
  obtain ⟨-,_,-,rfl⟩ := veils
  rfl

theorem events : veiled.events = plain.events := by
  obtain ⟨-,_,-,rfl⟩ := veils
  rfl

theorem closeReason : veiled.closeReason = plain.closeReason := by
  obtain ⟨-,_,-,rfl⟩ := veils
  rfl

theorem sent : veiled.sent = base ++ (sendKey.crypt plain.sent).2 := by
  obtain ⟨-,_,-,rfl⟩ := veils
  rfl

theorem encrypts : ∃ t, veiled.crypt = some t ∧ t.state = .encrypting := by
  obtain ⟨-,_,-,rfl⟩ := veils
  exact ⟨_,rfl,rfl⟩

theorem loginGateTripped : veiled.loginGateTripped = plain.loginGateTripped := by
  obtain ⟨-,_,-,rfl⟩ := veils
  rfl

theorem requireLogin : Veils base sendKey recvKey (veiled.requireLogin h).1 (plain.requireLogin h).1 ∧
      (veiled.requireLogin h).2 = (plain.requireLogin h).2 := by
  unfold Session.requireLogin
  rw [veils.state,veils.loginGateTripped]
  split
  · exact ⟨veils,rfl⟩
  split
  · exact ⟨veils,rfl⟩
  refine ⟨closeWithReason (writeRaw ?_ _) _,rfl⟩
  obtain ⟨bare,lost,kept,rfl⟩ := veils
  exact ⟨bare,lost,kept,rfl⟩

theorem handleED2K (opcode : UInt8) (data : Bytes) :
    Veils base sendKey recvKey (veiled.handleED2K h opcode data) (plain.handleED2K h opcode data) := by
  unfold Session.handleED2K
  split
  · exact veils.dispatch opcode data
  have login := veils.requireLogin (h := h)
  rcases first : veiled.requireLogin h with ⟨_,allowed⟩
  rcases second : plain.requireLogin h with ⟨_,_⟩
  rw [first,second] at login
  obtain ⟨veils,rfl⟩ := login
  cases allowed with
  | true => exact veils.dispatch opcode data
  | false => exact veils

theorem handlePacket (frame : Frame) :
    Veils base sendKey recvKey (veiled.handlePacket h frame) (plain.handlePacket h frame) := by
  have noted : Veils base sendKey recvKey { veiled with events := veiled.events ++ [.dispatched frame] }
      { plain with events := plain.events ++ [.dispatched frame] } := by
    obtain ⟨bare,lost,kept,rfl⟩ := veils
    exact ⟨bare,lost,kept,rfl⟩
  unfold Session.handlePacket
  dsimp only
  split
  · exact noted.handleED2K ..
  split
  · split
    · exact noted.closeWithReason _
    · exact noted
    · exact noted.handleED2K ..
  · exact noted

theorem preLoginHeaderAllowed (header : Bytes) :
    Veils base sendKey recvKey (veiled.preLoginHeaderAllowed h header).1 (plain.preLoginHeaderAllowed h header).1 ∧
      (veiled.preLoginHeaderAllowed h header).2 = (plain.preLoginHeaderAllowed h header).2 := by
  unfold Session.preLoginHeaderAllowed
  rw [veils.state]
  split
  · exact ⟨veils,rfl⟩
  split
  · exact ⟨veils.closeWithReason _,rfl⟩
  split
  · exact veils.requireLogin
  · exact ⟨veils,rfl⟩

end

end Veils

namespace TcpClient

variable {σ ρ : Type} {h : Handlers σ ρ} {base : Bytes} {sendKey recvKey : RC4Key} {veiled plain : TcpClient σ ρ}

/-- A whole session that encrypts, beside the plaintext one. -/
structure Veiled (base : Bytes) (sendKey recvKey : RC4Key) (veiled plain : TcpClient σ ρ) : Prop where
  session : Veils base sendKey recvKey veiled.toSession plain.toSession
  packet : veiled.packet = plain.packet
  headerBuf : veiled.headerBuf = plain.headerBuf

namespace Veiled

section
variable (both : Veiled base sendKey recvKey veiled plain)
include both

theorem finishPacket : Veiled base sendKey recvKey (veiled.finishPacket h).1 (plain.finishPacket h).1 ∧
      (veiled.finishPacket h).2 = (plain.finishPacket h).2 := by
  unfold TcpClient.finishPacket
  rw [both.packet]
  split
  · exact ⟨both,rfl⟩
  dsimp only
  split
  · exact ⟨⟨both.session.handlePacket _,rfl,both.headerBuf⟩,rfl⟩
  · exact ⟨⟨both.session.handlePacket _,rfl,both.headerBuf⟩,rfl⟩

variable (data : Bytes)

theorem processHeader : Veiled base sendKey recvKey (veiled.processHeader h data).1 (plain.processHeader h data).1 ∧
      (veiled.processHeader h data).2 = (plain.processHeader h data).2 := by
  unfold TcpClient.processHeader
  rw [both.packet]
  split
  · exact ⟨both,rfl⟩
  split
  · exact ⟨⟨both.session.closeWithReason _,rfl,both.headerBuf⟩,rfl⟩
  split
  · exact ⟨⟨both.session,rfl,rfl⟩,rfl⟩
  have login := both.session.preLoginHeaderAllowed (h := h) data
  rcases first : veiled.toSession.preLoginHeaderAllowed h data with ⟨_,_⟩
  rcases second : plain.toSession.preLoginHeaderAllowed h data with ⟨_,_⟩
  rw [first,second] at login
  obtain ⟨veils,rfl⟩ := login
  dsimp only at veils ⊢
  split
  · exact ⟨⟨veils,rfl,both.headerBuf⟩,rfl⟩
  rcases plain.packet.init data with ⟨_,_ | _⟩
  · exact ⟨⟨veils.closeWithReason _,rfl,both.headerBuf⟩,rfl⟩
  · exact finishPacket ⟨veils,rfl,both.headerBuf⟩

theorem processRound : Veiled base sendKey recvKey (veiled.processRound h data).1 (plain.processRound h data).1 ∧
      (veiled.processRound h data).2 = (plain.processRound h data).2 := by
  have cleared : Veiled base sendKey recvKey { veiled with packet := plain.packet, headerBuf := [] }
      { plain with headerBuf := [] } := ⟨both.session,rfl,rfl⟩
  unfold TcpClient.processRound
  rw [both.packet,both.headerBuf]
  split
  · exact cleared.processHeader _
  · exact finishPacket ⟨both.session,rfl,rfl⟩
  · exact ⟨both,rfl⟩

theorem processPacketData :
    Veiled base sendKey recvKey (veiled.processPacketData h data) (plain.processPacketData h data) := by
  induction plain, data using TcpClient.processPacketData.induct h generalizing veiled with
  | case1 plain data plain' round =>
    have rounds := both.processRound (h := h) data
    rw [round] at rounds
    rw [processPacketData_none round,processPacketData_none (Prod.ext rfl rounds.2)]
    exact rounds.1
  | case2 _ data _ _ round ih =>
    have rounds := both.processRound (h := h) data
    rw [round] at rounds
    rw [processPacketData_some round,processPacketData_some (Prod.ext rfl rounds.2)]
    exact ih rounds.1

end

end Veiled

theorem Veiled.handleBytes (both : Veiled base sendKey recvKey veiled plain) (md5 : Bytes → Bytes) (draws : Draws)
    (chunk : Bytes) : Veiled base sendKey (recvKey.crypt chunk).1 (veiled.handleBytes h md5 draws chunk)
      (plain.handleBytes h md5 draws (recvKey.crypt chunk).2) := by
  rcases veiled with ⟨_,_,_⟩
  obtain ⟨⟨bare,lost,kept,rfl⟩,rfl,rfl⟩ := both
  rw [handleBytes_plain (c := plain) (fun _ some => by rw [bare] at some; cases some)]
  unfold TcpClient.handleBytes
  simp only [TCPCrypt.decrypt,cryptWith,reduceIte]
  apply processPacketData
  exact ⟨⟨bare,lost,kept,rfl⟩,rfl,rfl⟩

end TcpClient

/-- What happens to a session: a chunk is read, or another goroutine writes a packet to it,
as happens only to a session that is logged in. -/
inductive SessionOp where
  | read (chunk : Bytes)
  | notify (data : Bytes)

def SessionOp.chunk : SessionOp → Bytes
  | .read chunk => chunk
  | .notify _ => []

def readsOf (ops : List SessionOp) : Bytes := ops.flatMap SessionOp.chunk

/-- The same but for the bytes read. -/
def SessionOp.Alike : SessionOp → SessionOp → Prop
  | .read _, .read _ => True
  | .notify a, .notify b => a = b
  | _, _ => False

namespace TcpClient

variable {σ ρ : Type} (h : Handlers σ ρ) (md5 : Bytes → Bytes) (draws : Draws)

def step (c : TcpClient σ ρ) : SessionOp → TcpClient σ ρ
  | .read chunk => c.handleBytes h md5 draws chunk
  | .notify data => if h.isLogged c.state then { c with toSession := c.toSession.writeRaw data } else c

/-- Beside an encrypting session runs a plaintext session that reads the plaintext. -/
theorem run_encrypting (ops : List SessionOp)
    (both : Veiled base sendKey recvKey veiled plain) (reads : readsOf ops = (recvKey.crypt todo).2) :
    ∃ plainOps, List.Forall₂ SessionOp.Alike plainOps ops ∧ readsOf plainOps = todo ∧
      ∃ recvKey', Veiled base sendKey recvKey' (ops.foldl (step h md5 draws) veiled)
        (plainOps.foldl (step h md5 draws) plain) := by
  induction ops generalizing veiled plain recvKey todo with
  | nil =>
    have empty : todo = [] := by
      rw [← length_eq_zero_iff,← recvKey.crypt_length todo,← reads]
      rfl
    exact ⟨[],.nil,empty.symm,recvKey,both⟩
  | cons op ops ih =>
    cases op with
    | read chunk =>
      have cipher : (recvKey.crypt todo).2 = chunk ++ readsOf ops := reads.symm
      obtain ⟨here,later⟩ := RC4Key.crypt_part cipher
      have next := both.handleBytes (h := h) md5 draws chunk
      rw [here] at next
      obtain ⟨plainOps,alike,readsPlain,ends⟩ := ih next later.symm
      refine ⟨.read (todo.take chunk.length) :: plainOps,.cons trivial alike,?_,ends⟩
      rw [readsOf,flatMap_cons,SessionOp.chunk,← readsOf,readsPlain,take_append_drop]
    | notify data =>
      have next : Veiled base sendKey recvKey (step h md5 draws veiled (.notify data))
          (step h md5 draws plain (.notify data)) := by
        rw [step,step,both.session.state]
        split
        · exact ⟨both.session.writeRaw data,both.packet,both.headerBuf⟩
        · exact both
      obtain ⟨plainOps,alike,readsPlain,ends⟩ := ih next reads
      exact ⟨.notify data :: plainOps,.cons rfl alike,readsPlain,ends⟩

end TcpClient

section
variable {σ ρ : Type} (h : Handlers σ ρ) (md5 : Bytes → Bytes) (draws : Draws) (client : Client) (base : Bytes)
  (sendKey recvKey : RC4Key) (state : σ)

/-- A session that has decrypted part of the client's reply. -/
def TcpClient.waiting (part : Bytes) : TcpClient σ ρ :=
  { crypt := some
      { state := .negotiating, sendKey := some sendKey, recvKey := some (recvKey.crypt part).1, pending := part }
    packet := { status := .cryptNegotiating }
    sent := base
    state := state }

def TcpClient.encrypting (part : Bytes) : TcpClient σ ρ :=
  { crypt := some { state := .encrypting, sendKey := some sendKey, recvKey := some (recvKey.crypt part).1 }
    sent := base
    state := state }

theorem RC4Key.crypt_nil (key : RC4Key) : key.crypt [] = (key,[]) := rfl

theorem encrypting_veiled (part : Bytes) : TcpClient.Veiled base sendKey (recvKey.crypt part).1
      (TcpClient.encrypting base sendKey recvKey state part : TcpClient σ ρ) { state := state } := by
  refine ⟨⟨rfl,[],fun _ => rfl,?_⟩,rfl,rfl⟩
  rw [append_nil,RC4Key.crypt_nil,append_nil]
  rfl

/-- A chunk of the reply either leaves it incomplete or starts the client's stream. -/
theorem handleBytes_waiting (conforms : client.Conforms)
    (whole : part ++ x ++ rest = client.reply ++ app)
    (plain : (recvKey.crypt part).1.crypt chunk = ((recvKey.crypt (part ++ x)).1,x)) :
    (TcpClient.waiting base sendKey recvKey state part : TcpClient σ ρ).handleBytes h md5 draws chunk =
      if (part ++ x).length < client.reply.length then TcpClient.waiting base sendKey recvKey state (part ++ x)
      else (TcpClient.encrypting base sendKey recvKey state (part ++ x)).processPacketData h
        ((part ++ x).drop client.reply.length) := by
  have reply := handshake_reply conforms whole
  have processed : TCPCrypt.processData md5 draws
      { state := .negotiating, sendKey := some sendKey, recvKey := some (recvKey.crypt part).1, pending := part } chunk =
      if (part ++ x).length < client.reply.length then
        { crypt :=
            { state := .negotiating, sendKey := some sendKey, recvKey := some (recvKey.crypt (part ++ x)).1
              pending := part ++ x }
          result := .ok [] }
      else
        { crypt := { state := .encrypting, sendKey := some sendKey, recvKey := some (recvKey.crypt (part ++ x)).1 }
          status := some .new
          result := .ok ((part ++ x).drop client.reply.length) } := by
    rw [TCPCrypt.processData]
    dsimp only [cryptWith]
    rw [plain,reply]
    by_cases short : (part ++ x).length < client.reply.length
    · rw [if_pos short,if_pos short]
    · rw [if_neg short,if_neg short]
  unfold TcpClient.handleBytes
  dsimp only [TcpClient.waiting]
  rw [if_neg (by rintro ⟨no,-⟩; cases no),processed]
  by_cases short : (part ++ x).length < client.reply.length
  · rw [if_pos short,if_pos short]
    rfl
  · rw [if_neg short,if_neg short]
    dsimp only [Option.getD_some]
    split
    next empty =>
      rw [isEmpty_iff.mp empty,TcpClient.processPacketData_nil rfl rfl]
      rfl
    · rw [if_neg (by decide)]
      rfl

theorem plain_none : Plain none := nofun

/-- From the server's answer on, a plaintext session runs beside the obfuscated one. -/
theorem run_waiting (conforms : client.Conforms) (anonymous : h.isLogged state = false) (ops : List SessionOp)
    {part todo app : Bytes} (incomplete : part.length < client.reply.length) (whole : part ++ todo = client.reply ++ app)
    (reads : readsOf ops = ((recvKey.crypt part).1.crypt todo).2) :
    ∃ plainOps, List.Forall₂ SessionOp.Alike plainOps ops ∧ readsOf plainOps = app ∧
      ∃ recvKey', TcpClient.Veiled base sendKey recvKey'
        (ops.foldl (TcpClient.step h md5 draws) (TcpClient.waiting base sendKey recvKey state part : TcpClient σ ρ))
        (plainOps.foldl (TcpClient.step h md5 draws) { state := state }) := by
  induction ops generalizing part todo with
  | nil =>
    have empty : todo = [] := by
      rw [← length_eq_zero_iff,← RC4Key.crypt_length _ todo,← reads]
      rfl
    have := congrArg List.length whole
    rw [empty,append_nil,length_append] at this
    omega
  | cons op ops ih =>
    cases op with
    | read chunk =>
      have cipher : ((recvKey.crypt part).1.crypt todo).2 = chunk ++ readsOf ops := reads.symm
      obtain ⟨here,later⟩ := RC4Key.crypt_part cipher
      have onward : ((recvKey.crypt part).1.crypt (todo.take chunk.length)).1 =
          (recvKey.crypt (part ++ todo.take chunk.length)).1 := by rw [RC4Key.crypt_append]
      rw [onward] at here later
      have parts : part ++ todo.take chunk.length ++ todo.drop chunk.length = client.reply ++ app := by
        rw [append_assoc,take_append_drop,whole]
      have next := handleBytes_waiting h md5 draws client base sendKey recvKey state conforms parts here
      by_cases short : (part ++ todo.take chunk.length).length < client.reply.length
      · -- The reply goes on: the plaintext session reads nothing.
        obtain ⟨plainOps,alike,readsPlain,ends⟩ := ih short parts later.symm
        refine ⟨.read [] :: plainOps,.cons trivial alike,readsPlain,?_⟩
        rw [foldl_cons,foldl_cons,TcpClient.step,TcpClient.step,next,if_pos short,
          TcpClient.handleBytes_plain plain_none,TcpClient.processPacketData_nil rfl rfl]
        exact ends
      · -- The reply is complete, and what follows it is the client's stream.
        have both := (encrypting_veiled base sendKey recvKey state (part ++ todo.take chunk.length)).processPacketData
          (h := h) ((part ++ todo.take chunk.length).drop client.reply.length)
        obtain ⟨plainOps,alike,readsPlain,ends⟩ := TcpClient.run_encrypting h md5 draws ops both later.symm
        refine ⟨.read ((part ++ todo.take chunk.length).drop client.reply.length) :: plainOps,.cons trivial alike,?_,?_⟩
        · rw [readsOf,flatMap_cons,SessionOp.chunk,← readsOf,readsPlain,
            ← drop_append_of_le_length (Nat.le_of_not_lt short),parts,drop_left]
        · rw [foldl_cons,foldl_cons,TcpClient.step,TcpClient.step,next,if_neg short,
            TcpClient.handleBytes_plain plain_none]
          exact ends
    | notify data =>
      obtain ⟨plainOps,alike,readsPlain,ends⟩ := ih incomplete whole reads
      refine ⟨.notify data :: plainOps,.cons rfl alike,readsPlain,?_⟩
      have logged : h.isLogged (TcpClient.waiting base sendKey recvKey state part : TcpClient σ ρ).state = false := anonymous
      rw [foldl_cons,foldl_cons,TcpClient.step,TcpClient.step,logged,anonymous]
      exact ends

end

section
variable {σ ρ : Type} {client : Client} {bRaw pad : Bytes} {state : σ}

theorem key_of_sent (md5 : Bytes → Bytes) (client : Client) (bRaw more : Bytes) :
    let sent := publicKey (beValue bRaw)
    (sent ++ more).take cryptPrimeSize = sent ∧ client.sendKey md5 (sent ++ more) = client.sendKey md5 sent ∧
      client.recvKey md5 (sent ++ more) = client.recvKey md5 sent := by
  intro sent
  have length := publicKey_length (beValue bRaw)
  have key : (sent ++ more).take cryptPrimeSize = sent := take_left' length
  have alone : sent.take cryptPrimeSize = sent := take_of_length_le length.le
  refine ⟨key,?_,?_⟩
  · rw [Client.sendKey,Client.sendKey,Client.shared,Client.shared,key,alone]
  · rw [Client.recvKey,Client.recvKey,Client.shared,Client.shared,key,alone]

/-- The client reads what the server wrote after its sync block. -/
theorem client_reads (md5 : Bytes → Bytes) (short : pad.length < 256) (written : Bytes) :
    client.reads md5 ((client.answered md5 bRaw pad state : TcpClient σ ρ).sent ++
      (((client.recvKey md5 (publicKey (beValue bRaw))).crypt (syncBlock pad)).1.crypt written).2) = written := by
  have plain := (client.recvKey md5 (publicKey (beValue bRaw))).crypt_crypt (syncBlock pad ++ written)
  rw [RC4Key.crypt_append] at plain
  have sync : leBytes 4 magicValueSync = [0xC4,0x6F,0x5E,0x83] := by decide
  have block : syncBlock pad ++ written =
      0xC4 :: 0x6F :: 0x5E :: 0x83 :: emSupported :: emPreferred :: UInt8.ofNat pad.length :: (pad ++ written) := by
    rw [syncBlock,sync]
    rfl
  rw [Client.reads,Client.answered]
  dsimp only
  rw [append_assoc,(key_of_sent md5 _ _ _).2.2,drop_left' (publicKey_length _),plain]
  dsimp only
  rw [block,show (0xC4 :: 0x6F :: 0x5E :: 0x83 :: emSupported :: emPreferred :: UInt8.ofNat pad.length ::
    (pad ++ written) : Bytes).getD 6 0 = UInt8.ofNat pad.length from rfl,UInt8.toNat_ofNat',Nat.mod_eq_of_lt short,
    Nat.add_comm]
  exact drop_left

/-- A conforming client and the server agree on the keys, whatever either draws and however
the request is cut. From the answer on, whatever the client's stream and however it is cut,
the session does what a plaintext session does that reads the client's plaintext, and the
client reads what that session writes. -/
theorem obfuscation_transparent (h : Handlers σ ρ) (md5 : Bytes → Bytes) (conforms : client.Conforms)
    (short : pad.length < 256) (anonymous : h.isLogged state = false) {requestChunks : List Bytes}
    (request : requestChunks.flatten = client.request) :
    let draws : Draws := ⟨some bRaw,some pad⟩
    let c1 := requestChunks.foldl (TcpClient.handleBytes h md5 draws)
      { state := state, crypt := some { state := .unknown } }
    c1.crypt = some
      { state := .negotiating
        sendKey := some ((client.recvKey md5 c1.sent).crypt (syncBlock pad)).1
        recvKey := some (client.sendKey md5 c1.sent) } ∧
    ∀ (app : Bytes) (ops : List SessionOp), readsOf ops = client.stream md5 c1.sent app →
      let c2 := ops.foldl (TcpClient.step h md5 draws) c1
      (∃ t, c2.crypt = some t ∧ t.state = .encrypting) ∧
      ∃ plainOps, List.Forall₂ SessionOp.Alike plainOps ops ∧ readsOf plainOps = app ∧
        let plain : TcpClient σ ρ := plainOps.foldl (TcpClient.step h md5 draws) { state := state }
        c2.state = plain.state ∧ c2.events = plain.events ∧ c2.closeReason = plain.closeReason ∧
          c2.packet = plain.packet ∧ c2.headerBuf = plain.headerBuf ∧ client.reads md5 c2.sent = plain.sent := by
  intro draws c1
  have empty : ([] : Bytes) ≠ client.request := nofun
  have answered : c1 = client.answered md5 bRaw pad state :=
    feed_request md5 client bRaw pad h conforms state requestChunks empty request
  have keys := key_of_sent md5 client bRaw
    ((client.recvKey md5 (publicKey (beValue bRaw))).crypt (syncBlock pad)).2
  have sent : c1.sent = publicKey (beValue bRaw) ++
      ((client.recvKey md5 (publicKey (beValue bRaw))).crypt (syncBlock pad)).2 := by rw [answered]; rfl
  refine ⟨?_,fun _ ops reads => ?_⟩
  · rw [sent,keys.2.1,keys.2.2,answered]
    rfl
  · rw [sent,Client.stream,keys.2.1] at reads
    have incomplete : ([] : Bytes).length < client.reply.length := by
      rw [reply_length]
      exact Nat.lt_of_lt_of_le (Nat.succ_pos 5) (Nat.le_add_right _ _)
    obtain ⟨plainOps,alike,readsPlain,_,both⟩ := run_waiting h md5 draws client c1.sent
      ((client.recvKey md5 (publicKey (beValue bRaw))).crypt (syncBlock pad)).1
      (client.sendKey md5 (publicKey (beValue bRaw))) state conforms anonymous ops incomplete (nil_append _) reads
    have start : (TcpClient.waiting c1.sent ((client.recvKey md5 (publicKey (beValue bRaw))).crypt (syncBlock pad)).1
        (client.sendKey md5 (publicKey (beValue bRaw))) state [] : TcpClient σ ρ) = c1 := by
      rw [TcpClient.waiting,RC4Key.crypt_nil,answered]
      rfl
    rw [start] at both
    refine ⟨both.session.encrypts,plainOps,alike,readsPlain,both.session.state,both.session.events,
      both.session.closeReason,both.packet,both.headerBuf,?_⟩
    rw [both.session.sent,answered]
    exact client_reads md5 short _

/-- A client that sends its request and its stream at once each ends up encrypting. -/
theorem obfuscation_transparent_once :
    let h : Handlers Bool Unit := ⟨fun logged => logged,fun _ => .error .corrupt,fun _ _ _ => (true,[]),[]⟩
    let client : Client := ⟨5,0x10,[1,2],[3]⟩
    let draws : Draws := ⟨some [7],some [9]⟩
    let c1 := [client.request].foldl (TcpClient.handleBytes h id draws)
      { state := false, crypt := some { state := .unknown } }
    let c2 := [.read (client.stream id c1.sent [0xe3,1,0,0,0,0x01])].foldl (TcpClient.step h id draws) c1
    ∃ t, c2.crypt = some t ∧ t.state = .encrypting :=
  ((@obfuscation_transparent Bool Unit ⟨5,0x10,[1,2],[3]⟩ [7] [9] false
    ⟨fun logged => logged,fun _ => .error .corrupt,fun _ _ _ => (true,[]),[]⟩ id ⟨rfl,by decide,by decide⟩ (by decide) rfl _
    (append_nil _)).2 [0xe3,1,0,0,0,0x01] _ (append_nil _)).1

end

end ENode.Ed2k
