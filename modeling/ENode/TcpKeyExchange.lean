import ENode.TcpFraming

/-! The key exchange of an obfuscated session with a conforming client: both ends agree on
the keys whatever either draws, however the client's bytes are cut. -/
namespace ENode.Ed2k

open GoText ByteNumbers List

theorem RC4Key.crypt_append (key : RC4Key) (a b : Bytes) :
    key.crypt (a ++ b) = (((key.crypt a).1.crypt b).1,(key.crypt a).2 ++ ((key.crypt a).1.crypt b).2) :=
  Stream.cipher_append ..

theorem RC4Key.crypt_length (key : RC4Key) (l : Bytes) : (key.crypt l).2.length = l.length := Stream.cipher_length ..

theorem RC4Key.crypt_crypt (key : RC4Key) (l : Bytes) : key.crypt (key.crypt l).2 = ((key.crypt l).1,l) := by
  refine Stream.cipher_cipher _ (fun _ _ => ?_) key l
  rw [UInt8.xor_assoc,UInt8.xor_self,UInt8.xor_zero]

/-- The first bytes of a ciphertext decrypt to the first bytes of the plaintext, and leave
the key where the rest decrypts. -/
theorem RC4Key.crypt_part {key : RC4Key} {plain x y : Bytes} (cipher : (key.crypt plain).2 = x ++ y) :
    key.crypt x = ((key.crypt (plain.take x.length)).1,plain.take x.length) ∧
      ((key.crypt (plain.take x.length)).1.crypt (plain.drop x.length)).2 = y := by
  have long : x.length ≤ plain.length := by
    have := congrArg List.length cipher
    rw [RC4Key.crypt_length,length_append] at this
    omega
  have split := key.crypt_append (plain.take x.length) (plain.drop x.length)
  rw [take_append_drop] at split
  rw [split] at cipher
  have parts := append_inj cipher (by rw [RC4Key.crypt_length,length_take,Nat.min_eq_left long])
  refine ⟨?_,parts.2⟩
  rw [← RC4Key.crypt_crypt,parts.1]

/-- What a client brings to the handshake: its secret exponent, the first byte it sends, and
the paddings of its two messages. -/
structure Client where
  secret : Nat
  marker : UInt8
  pad : Bytes
  replyPad : Bytes

/-- A marker that no plaintext session starts with, paddings whose length fits a byte. -/
structure Client.Conforms (client : Client) : Prop where
  marker : isProtocol client.marker = false
  pad : client.pad.length < 256
  replyPad : client.replyPad.length < 256

def publicKey (secret : Nat) : Bytes := leftPad cryptPrimeSize (beBytes (2 ^ secret % beValue cryptPrime))

namespace Client

variable (md5 : Bytes → Bytes) (client : Client)

def request : Bytes := client.marker :: (publicKey client.secret ++ UInt8.ofNat client.pad.length :: client.pad)

def reply : Bytes := leBytes 4 magicValueSync ++ [emObfuscate,UInt8.ofNat client.replyPad.length] ++ client.replyPad

/-- The secret a client computes from what the server sent. -/
def shared (received : Bytes) : Nat := beValue (received.take cryptPrimeSize) ^ client.secret % beValue cryptPrime

def sendKey (received : Bytes) : RC4Key :=
  rc4CreateKey (md5 (keyBuffer (client.shared received) magicValueRequester)) true

def recvKey (received : Bytes) : RC4Key :=
  rc4CreateKey (md5 (keyBuffer (client.shared received) magicValueServer)) true

/-- What the client sends after the server's answer: its reply and its stream, encrypted. -/
def stream (received app : Bytes) : Bytes := ((client.sendKey md5 received).crypt (client.reply ++ app)).2

/-- What the client reads in everything the server sent: past the public key it decrypts,
and the stream starts where the sync block and its padding end. -/
def reads (received : Bytes) : Bytes :=
  let plain := ((client.recvKey md5 received).crypt (received.drop cryptPrimeSize)).2
  plain.drop (7 + (plain.getD 6 0).toNat)

end Client

def syncBlock (pad : Bytes) : Bytes :=
  leBytes 4 magicValueSync ++ [emSupported,emPreferred,UInt8.ofNat pad.length] ++ pad

theorem cryptPrime_pos : 0 < beValue cryptPrime := by decide +kernel

theorem residue_small (n : Nat) : n % beValue cryptPrime < 256 ^ cryptPrimeSize :=
  lt_trans (Nat.mod_lt _ cryptPrime_pos) (beValue_lt cryptPrime)

theorem publicKey_length (secret : Nat) : (publicKey secret).length = cryptPrimeSize :=
  leftPad_length (beBytes_length_le (residue_small _))

theorem beValue_publicKey (secret : Nat) : beValue (publicKey secret) = 2 ^ secret % beValue cryptPrime :=
  beValue_fixed ..

theorem shared_agree (client : Client) (b : Nat) (rest : Bytes) :
    beValue (publicKey client.secret) ^ b % beValue cryptPrime = client.shared (publicKey b ++ rest) := by
  have key : (publicKey b ++ rest).take cryptPrimeSize = publicKey b := by
    rw [take_append_of_le_length (by rw [publicKey_length]),take_of_length_le (by rw [publicKey_length])]
  rw [Client.shared,key,beValue_publicKey,beValue_publicKey,← Nat.pow_mod,← Nat.pow_mod,← Nat.pow_mul,← Nat.pow_mul,
    Nat.mul_comm]

section
variable (md5 : Bytes → Bytes) (client : Client) (bRaw pad : Bytes)

theorem request_length : client.request.length = cryptRequestFixed + client.pad.length := by
  rw [Client.request,length_cons,length_append,publicKey_length,length_cons]
  unfold cryptRequestFixed
  omega

theorem request_padding (whole : l ++ rest = client.request) (enough : cryptRequestFixed ≤ l.length) :
    l.getD (cryptRequestFixed - 1) 0 = UInt8.ofNat client.pad.length := by
  have fixed : cryptRequestFixed - 1 = (client.marker :: publicKey client.secret).length := by
    rw [length_cons,publicKey_length]
    rfl
  have inside : cryptRequestFixed - 1 < l.length := by
    have : 0 < cryptRequestFixed := Nat.succ_pos _
    omega
  rw [← getD_append l rest 0 _ inside,whole,fixed,Client.request,← cons_append,
    getD_append_right _ _ _ _ le_rfl,Nat.sub_self]
  rfl

theorem request_need (conforms : client.Conforms) (whole : l ++ rest = client.request) :
    let need := if l.length ≥ cryptRequestFixed then cryptRequestFixed + (l.getD (cryptRequestFixed - 1) 0).toNat
      else cryptRequestFixed
    (rest = [] → l.length = need) ∧ (rest ≠ [] → l.length < need) := by
  have length := congrArg List.length whole
  rw [request_length,length_append] at length
  rw [← length_pos_iff,← length_eq_zero_iff]
  dsimp only
  split
  next enough =>
    rw [request_padding client whole enough,UInt8.toNat_ofNat',Nat.mod_eq_of_lt conforms.pad]
    omega
  next short => omega

/-- The session once it has answered a client's public key. -/
def Client.answered {σ ρ : Type} (state : σ) : TcpClient σ ρ :=
  let serverKey := publicKey (beValue bRaw)
  let sync := (client.recvKey md5 serverKey).crypt (syncBlock pad)
  { crypt := some
      { state := .negotiating, sendKey := some sync.1, recvKey := some (client.sendKey md5 serverKey), pending := [] }
    packet := { status := .cryptNegotiating }
    sent := serverKey ++ sync.2
    state := state }

theorem negotiate_request (t : TCPCrypt) :
    t.negotiate md5 ⟨some bRaw,some pad⟩ ((client.request.drop 1).take cryptPrimeSize) =
      ({ t with
          sendKey := some ((client.recvKey md5 (publicKey (beValue bRaw))).crypt (syncBlock pad)).1
          recvKey := some (client.sendKey md5 (publicKey (beValue bRaw))) },
        .ok (publicKey (beValue bRaw) ++ ((client.recvKey md5 (publicKey (beValue bRaw))).crypt (syncBlock pad)).2)) := by
  have key : (client.request.drop 1).take cryptPrimeSize = publicKey client.secret := by
    rw [Client.request,drop_one,tail_cons,take_append_of_le_length (by rw [publicKey_length]),
      take_of_length_le (by rw [publicKey_length])]
  have agree := shared_agree client (beValue bRaw) []
  rw [append_nil] at agree
  rw [key,TCPCrypt.negotiate]
  dsimp only
  rw [agree]
  rfl

/-- A session that has part of the client's key exchange. -/
def Client.collecting {σ ρ : Type} (state : σ) (part : Bytes) : TcpClient σ ρ :=
  { state := state, crypt := some { state := .unknown, pending := part } }

variable {σ ρ : Type} (h : Handlers σ ρ)

theorem collecting_obfuscated (conforms : client.Conforms) (whole : part ++ chunk ++ rest = client.request) :
    ¬((!chunk.isEmpty) = true ∧ isProtocol (chunk.getD 0 0) = true ∧ part.length = 0) := by
  rintro ⟨some,known,first⟩
  rw [length_eq_zero_iff] at first
  subst first
  match chunk, some with
  | b :: chunk, _ =>
    rw [nil_append,Client.request,cons_append,cons.injEq] at whole
    rw [getD_cons_zero,whole.1,conforms.marker] at known
    cases known

theorem processData_collecting (conforms : client.Conforms) (whole : part ++ chunk ++ rest = client.request) :
    TCPCrypt.processData md5 ⟨some bRaw,some pad⟩ { state := .unknown, pending := part } chunk =
      if rest = [] then
        { crypt :=
            { state := .negotiating
              sendKey := some ((client.recvKey md5 (publicKey (beValue bRaw))).crypt (syncBlock pad)).1
              recvKey := some (client.sendKey md5 (publicKey (beValue bRaw))) }
          status := some .cryptNegotiating
          result := .ok (publicKey (beValue bRaw) ++
            ((client.recvKey md5 (publicKey (beValue bRaw))).crypt (syncBlock pad)).2) }
      else { crypt := { state := .unknown, pending := part ++ chunk }, result := .ok [] } := by
  have need := request_need client conforms whole
  rw [TCPCrypt.processData]
  dsimp only
  by_cases complete : rest = []
  · subst complete
    rw [append_nil] at whole
    rw [whole] at need ⊢
    have complete := need.1 rfl
    rw [if_neg (Nat.not_lt.mpr complete.ge),if_neg (Nat.not_lt.mpr complete.le),negotiate_request,if_pos rfl]
  · rw [if_pos (need.2 complete),if_neg complete]

theorem handleBytes_collecting (conforms : client.Conforms) (state : σ)
    (whole : part ++ chunk ++ rest = client.request) :
    (Client.collecting state part : TcpClient σ ρ).handleBytes h md5 ⟨some bRaw,some pad⟩ chunk =
      if rest = [] then client.answered md5 bRaw pad state else Client.collecting state (part ++ chunk) := by
  have sniff : ¬(CryptStatus.unknown = .unknown ∧ (!chunk.isEmpty) = true ∧ isProtocol (chunk.getD 0 0) = true ∧
      part.length = 0) := fun both => collecting_obfuscated client conforms whole both.2
  unfold TcpClient.handleBytes
  dsimp only [Client.collecting]
  rw [if_neg sniff,processData_collecting md5 client bRaw pad conforms whole]
  by_cases complete : rest = []
  · have filled : (publicKey (beValue bRaw) ++
        ((client.recvKey md5 (publicKey (beValue bRaw))).crypt (syncBlock pad)).2).isEmpty = false := by
      rw [isEmpty_eq_false_iff,← length_pos_iff,length_append,publicKey_length]
      exact Nat.lt_of_lt_of_le (Nat.succ_pos 95) (Nat.le_add_right _ _)
    rw [if_pos complete,if_pos complete]
    dsimp only
    rw [filled]
    rfl
  · rw [if_neg complete,if_neg complete]
    rfl

theorem handleBytes_answered_nil (state : σ) :
    (client.answered md5 bRaw pad state : TcpClient σ ρ).handleBytes h md5 ⟨some bRaw,some pad⟩ [] =
      client.answered md5 bRaw pad state := rfl

/-- However the client's key exchange is cut, the server answers it. -/
theorem feed_request (conforms : client.Conforms) (state : σ) (chunks : List Bytes)
    (open' : part ≠ client.request) (whole : part ++ chunks.flatten = client.request) :
    chunks.foldl (TcpClient.handleBytes h md5 ⟨some bRaw,some pad⟩) (Client.collecting state part : TcpClient σ ρ) =
      client.answered md5 bRaw pad state := by
  induction chunks generalizing part with
  | nil =>
    rw [flatten_nil,append_nil] at whole
    exact absurd whole open'
  | cons _ chunks ih =>
    rw [flatten_cons,← append_assoc] at whole
    rw [foldl_cons,handleBytes_collecting md5 client bRaw pad h conforms state whole]
    split
    next complete =>
      have empty : ∀ more ∈ chunks, more = [] := fun more here => flatten_eq_nil_iff.mp complete more here
      refine foldlRecOn chunks _ rfl (motive := fun c => c = client.answered md5 bRaw pad state) ?_
      rintro _ rfl more here
      rw [empty more here]
      exact handleBytes_answered_nil md5 client bRaw pad h state
    next rest =>
      refine ih ?_ whole
      rintro same
      rw [same] at whole
      exact rest (append_right_eq_self.mp whole)

end

theorem reply_length (client : Client) : client.reply.length = cryptHandshakeFixed + client.replyPad.length := by
  rw [Client.reply,length_append,length_append,leBytes_length]
  rfl

theorem handshake_reply {client : Client} (conforms : client.Conforms)
    (whole : l ++ rest = client.reply ++ app) : TCPCrypt.handshake l =
      if l.length < client.reply.length then .ok none else .ok (some (l.drop client.reply.length)) := by
  have sync : leBytes 4 magicValueSync = [0xC4,0x6F,0x5E,0x83] := by decide
  have fixed : client.reply ++ app =
      0xC4 :: 0x6F :: 0x5E :: 0x83 :: emObfuscate :: UInt8.ofNat client.replyPad.length :: (client.replyPad ++ app) := by
    rw [Client.reply,sync]
    rfl
  have size : cryptHandshakeFixed = 6 := rfl
  have magic : ∀ l : Bytes, leValue ((0xC4 :: 0x6F :: 0x5E :: 0x83 :: l).take 4) = magicValueSync := by
    intro l
    rw [show (0xC4 :: 0x6F :: 0x5E :: 0x83 :: l : Bytes).take 4 = leBytes 4 magicValueSync by rw [sync]; rfl,
      leValue_leBytes]
    decide
  rw [fixed] at whole
  rw [reply_length,size]
  match l with
  | [] | [_] | [_,_] | [_,_,_] => rw [TCPCrypt.handshake,if_pos (by simp),if_pos (by simp +arith)]
  | [a,b,c,d] | [a,b,c,d,_] =>
    simp only [cons_append,cons.injEq] at whole
    obtain ⟨rfl,rfl,rfl,rfl,-⟩ := whole
    rw [TCPCrypt.handshake,if_neg (by simp),if_neg (not_not.mpr (magic _)),if_pos (by simp [size]),if_pos (by simp +arith)]
  | a :: b :: c :: d :: e :: f :: l =>
    simp only [cons_append,cons.injEq] at whole
    obtain ⟨rfl,rfl,rfl,rfl,rfl,rfl,-⟩ := whole
    have method : (0xC4 :: 0x6F :: 0x5E :: 0x83 :: emObfuscate :: UInt8.ofNat client.replyPad.length :: l : Bytes).getD 4 0 =
        emObfuscate := rfl
    have padding : (0xC4 :: 0x6F :: 0x5E :: 0x83 :: emObfuscate :: UInt8.ofNat client.replyPad.length :: l : Bytes).getD
        (6 - 1) 0 = UInt8.ofNat client.replyPad.length := rfl
    rw [TCPCrypt.handshake,if_neg (by simp),if_neg (not_not.mpr (magic _)),if_neg (by simp [size]),if_neg (not_not.mpr method),
      size,padding,UInt8.toNat_ofNat',Nat.mod_eq_of_lt conforms.replyPad]

end ENode.Ed2k
