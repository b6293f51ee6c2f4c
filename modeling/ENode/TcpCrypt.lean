import ENode.GoText
import ENode.Streams
import ENode.ByteNumbers

/-! The obfuscation of a TCP session: RC4 and the state machine that agrees on its keys. The
random draws are arguments, MD5 is a parameter. -/
namespace ENode.Ed2k

open GoText ByteNumbers

structure RC4Key where
  state : Vector UInt8 256
  x : UInt8
  y : UInt8
  deriving DecidableEq

def swap (s : Vector UInt8 256) (i j : UInt8) : Vector UInt8 256 :=
  (s.set i.toNat (s.get j.toFin) i.toNat_lt).set j.toNat (s.get i.toFin) j.toNat_lt

/-- The key moved on by one byte, and that byte of the key stream. -/
def RC4Key.next (key : RC4Key) : RC4Key × UInt8 :=
  let x := key.x + 1
  let y := key.state.get x.toFin + key.y
  let state := swap key.state x y
  ({ state := state, x := x, y := y },state.get (state.get x.toFin + state.get y.toFin).toFin)

/-- `RC4Crypt` over a buffer, with the key as it leaves it. -/
def RC4Key.crypt (key : RC4Key) (buffer : Bytes) : RC4Key × Bytes := Stream.cipher RC4Key.next (· ^^^ ·) key buffer

/-- `RC4Crypt` without a buffer: the key moves on. -/
def RC4Key.skip (key : RC4Key) (length : Nat) : RC4Key := (fun k => k.next.1)^[length] key

def rc4CreateKey (keyphrase : Bytes) (drop : Bool) : RC4Key :=
  let identity : Vector UInt8 256 := Vector.ofFn (fun i => UInt8.ofFin i)
  if keyphrase.length = 0 then ⟨identity,0,0⟩
  else
    let mixed := (List.finRange 256).foldl (fun (s : Vector UInt8 256 × Nat × UInt8) i =>
      let index2 := keyphrase.getD s.2.1 0 + s.1.get i + s.2.2
      (swap s.1 (UInt8.ofFin i) index2,(s.2.1 + 1) % keyphrase.length,index2)) (identity,0,0)
    let key : RC4Key := ⟨mixed.1,0,0⟩
    if drop then key.skip 1024 else key

inductive CryptStatus where
  | none
  | unknown
  | negotiating
  | encrypting
  deriving DecidableEq

inductive PacketStatus where
  | new
  | ready
  | waitingData
  | cryptNegotiating
  deriving DecidableEq

inductive CryptError where
  | noRandom
  | earlyData
  | wrongSync
  | unsupportedMethod
  | unexpectedStatus
  deriving DecidableEq

def cryptPrimeSize : Nat := 96

def cryptPrime : Bytes := [
  0xF2, 0xBF, 0x52, 0xC5, 0x5F, 0x58, 0x7A, 0xDD, 0x53, 0x71, 0xA9, 0x36,
  0xE8, 0x86, 0xEB, 0x3C, 0x62, 0x17, 0xA3, 0x3E, 0xC3, 0x4C, 0xB4, 0x0D,
  0xC7, 0x3A, 0x41, 0xA6, 0x43, 0xAF, 0xFC, 0xE7, 0x21, 0xFC, 0x28, 0x63,
  0x66, 0x53, 0x5B, 0xDB, 0xCE, 0x25, 0x9F, 0x22, 0x86, 0xDA, 0x4A, 0x91,
  0xB2, 0x07, 0xCB, 0xAA, 0x52, 0x55, 0xD4, 0xF6, 0x1C, 0xCE, 0xAE, 0xD4,
  0x5A, 0xD5, 0xE0, 0x74, 0x7D, 0xF7, 0x78, 0x18, 0x28, 0x10, 0x5F, 0x34,
  0x0F, 0x76, 0x23, 0x87, 0xF8, 0x8B, 0x28, 0x91, 0x42, 0xFB, 0x42, 0x68,
  0x8F, 0x05, 0x15, 0x0F, 0x54, 0x8B, 0x5F, 0x43, 0x6A, 0xF7, 0x0D, 0xF3]

def magicValueServer : UInt8 := 203
def magicValueRequester : UInt8 := 34
def magicValueSync : Nat := 0x835E6FC4
def emObfuscate : UInt8 := 0
def emPreferred : UInt8 := emObfuscate
def emSupported : UInt8 := emObfuscate

/-- Marker, public key and padding length. -/
def cryptRequestFixed : Nat := 1 + cryptPrimeSize + 1

/-- Sync magic, method and padding length. -/
def cryptHandshakeFixed : Nat := 4 + 1 + 1

/-- What the server draws to answer a key exchange; a read of the system's randomness that
fails is `none`. -/
structure Draws where
  secret : Option Bytes
  pad : Option Bytes

structure TCPCrypt where
  state : CryptStatus := .none
  sendKey : Option RC4Key := none
  recvKey : Option RC4Key := none
  pending : Bytes := []
  deriving DecidableEq

/-- A chunk taken in: `status` is what it sets on the session's packet, if anything. -/
structure CryptStep where
  crypt : TCPCrypt
  status : Option PacketStatus := none
  result : Except CryptError Bytes

/-- `RC4Crypt` gives nothing without a key. -/
def cryptWith (key : Option RC4Key) (buffer : Bytes) : Option RC4Key × Bytes :=
  match key with
  | some key => (some (key.crypt buffer).1,(key.crypt buffer).2)
  | none => (none,[])

/-- The shared secret in a fixed width, with the byte that tells the directions apart. -/
def keyBuffer (secret : Nat) (magic : UInt8) : Bytes := leftPad cryptPrimeSize (beBytes secret) ++ [magic]

namespace TCPCrypt

variable (md5 : Bytes → Bytes)

/-- Answers the client's public key with the server's and an encrypted sync block. -/
def negotiate (draws : Draws) (t : TCPCrypt) (aBytes : Bytes) : TCPCrypt × Except CryptError Bytes :=
  let p := beValue cryptPrime
  match draws.secret with
  | none => (t,.error .noRandom)
  | some bRaw =>
    let b := beValue bRaw
    let k := beValue aBytes ^ b % p
    let sendKey := rc4CreateKey (md5 (keyBuffer k magicValueServer)) true
    let recvKey := rc4CreateKey (md5 (keyBuffer k magicValueRequester)) true
    match draws.pad with
    | none => ({ t with sendKey := some sendKey, recvKey := some recvKey },.error .noRandom)
    | some pad =>
      let block := leBytes 4 magicValueSync ++ [emSupported,emPreferred,UInt8.ofNat pad.length] ++ pad
      let enc := sendKey.crypt block
      ({ t with sendKey := some enc.1, recvKey := some recvKey },
        .ok (leftPad cryptPrimeSize (beBytes (2 ^ b % p)) ++ enc.2))

/-- The client's decrypted reply: what followed it, once it is complete. -/
def handshake (pending : Bytes) : Except CryptError (Option Bytes) :=
  if pending.length < 4 then .ok none
  else if leValue (pending.take 4) ≠ magicValueSync then .error .wrongSync
  else if pending.length < cryptHandshakeFixed then .ok none
  else if pending.getD 4 0 ≠ emObfuscate then .error .unsupportedMethod
  else
    let need := cryptHandshakeFixed + (pending.getD (cryptHandshakeFixed - 1) 0).toNat
    if pending.length < need then .ok none else .ok (some (pending.drop need))

/-- Advances the handshake with the next chunk. The bytes are empty while a stage is
incomplete. -/
def processData (draws : Draws) (t : TCPCrypt) (data : Bytes) : CryptStep :=
  match t.state with
  | .none => { crypt := t, result := .ok [] }
  | .unknown =>
    let t := { t with pending := t.pending ++ data }
    let need := if t.pending.length ≥ cryptRequestFixed
      then cryptRequestFixed + (t.pending.getD (cryptRequestFixed - 1) 0).toNat else cryptRequestFixed
    if t.pending.length < need then { crypt := t, result := .ok [] }
    else if t.pending.length > need then { crypt := t, result := .error .earlyData }
    else match t.negotiate md5 draws ((t.pending.drop 1).take cryptPrimeSize) with
      | (t,.error err) => { crypt := t, result := .error err }
      | (t,.ok resp) =>
        { crypt := { t with pending := [], state := .negotiating }, status := some .cryptNegotiating, result := .ok resp }
  | .negotiating =>
    let (recvKey,plain) := cryptWith t.recvKey data
    let t := { t with recvKey := recvKey, pending := t.pending ++ plain }
    match handshake t.pending with
    | .error err => { crypt := t, result := .error err }
    | .ok none => { crypt := t, result := .ok [] }
    | .ok (some rest) =>
      { crypt := { t with pending := [], state := .encrypting }, status := some .new, result := .ok rest }
  | .encrypting => { crypt := t, result := .error .unexpectedStatus }

def decrypt (t : TCPCrypt) (buffer : Bytes) : TCPCrypt × Bytes :=
  if t.state = .encrypting then
    let (recvKey,plain) := cryptWith t.recvKey buffer
    ({ t with recvKey := recvKey },plain)
  else (t,buffer)

def encrypt (t : TCPCrypt) (data : Bytes) : TCPCrypt × Bytes :=
  if t.state = .encrypting then
    let (sendKey,out) := cryptWith t.sendKey data
    ({ t with sendKey := sendKey },out)
  else (t,data)

end TCPCrypt

end ENode.Ed2k
