import ENode.TcpKeyExchange

/-! The obfuscation of UDP datagrams. The marker in front says nothing about the key, but the
receiver takes one of its values for a plain datagram, and the draw that keeps clear of it gives up
after five tries. -/
namespace ENode.Ed2k

open GoText ByteNumbers List

def magicValueUDPServerClient : UInt8 := 0xA5
def magicValueUDPClientServer : UInt8 := 0x6B
def magicValueUDPSyncServer : Nat := 0x13EF24D5

structure UDPCrypt where
  status : CryptStatus
  serverKey : UInt32

def prKad : UInt8 := 0xe4
def prKadZlib : UInt8 := 0xe5

/-- The loop of `RandProtocol`: rounds left, the last draw, and the number of draws made. -/
def randProtocolLoop (draw : Nat → UInt8) : Nat → UInt8 → Nat → UInt8
  | 0, p, _ => p
  | rounds+1, _, i => if isProtocol (draw i) then randProtocolLoop draw rounds (draw i) (i + 1) else draw i

def randProtocol (draw : Nat → UInt8) : UInt8 := randProtocolLoop draw 5 0xff 0

/-- The loop ends with its first good draw; the fuel bounds the draws looked at. -/
def randClientSocketMarker (draw : Nat → UInt8) : Nat → Nat → Option UInt8
  | 0, _ => none
  | fuel+1, i =>
    if isProtocol (draw i) = false ∧ draw i ≠ prKad ∧ draw i ≠ prKadZlib then some (draw i)
    else randClientSocketMarker draw fuel (i + 1)

/-- The draws of one call: `Rand(0xffff)`, then the results of `Rand(0xff)` in order. -/
structure UDPDraws where
  randomKey : UInt16
  marker : Nat → UInt8

namespace UDPCrypt

variable (md5 : Bytes → Bytes) (u : UDPCrypt)

def rc4Key (magic : UInt8) (randomKey : Nat) : RC4Key :=
  rc4CreateKey (md5 (leBytes 4 u.serverKey.toNat ++ [magic] ++ leBytes 2 randomKey)) false

def decrypt (buffer : Bytes) (direction : UInt8) : Bytes :=
  if u.status ≠ .encrypting then buffer
  else match buffer with
    | [] => buffer
    | protocol :: rest =>
      if protocol = prED2K then buffer
      else if rest.length < 2 then buffer
      else
        let dec := ((u.rc4Key md5 direction (leValue (rest.take 2))).crypt (rest.drop 2)).2
        if dec.length < 4 ∨ leValue (dec.take 4) ≠ magicValueUDPSyncServer then buffer
        else match dec.drop 4 with
          | [] => buffer
          | pad :: body =>
            let padLength := (pad &&& 0x0f).toNat
            if body.length ≤ padLength then buffer else body.drop padLength

def sealed (randomKey : UInt16) (buffer : Bytes) (direction : UInt8) : Bytes :=
  ((u.rc4Key md5 direction randomKey.toNat).crypt (leBytes 4 magicValueUDPSyncServer ++ [0] ++ buffer)).2

def encrypt (draws : UDPDraws) (buffer : Bytes) (direction : UInt8) : Bytes :=
  if u.status ≠ .encrypting then buffer
  else randProtocol draws.marker :: (leBytes 2 draws.randomKey.toNat ++ u.sealed md5 draws.randomKey buffer direction)

/-- The marker is drawn a second time, after those of `Encrypt`. -/
def encryptForClientSocket (fuel : Nat) (draws : UDPDraws) (again : Nat → UInt8) (buffer : Bytes) : Option Bytes :=
  let out := u.encrypt md5 draws buffer magicValueUDPServerClient
  if u.status = .encrypting ∧ out.length > 0 then
    (randClientSocketMarker again fuel 0).map (fun marker => out.set 0 marker)
  else some out

/-- Behind any marker but the one of a plain datagram the receiver finds the datagram. -/
theorem decrypt_sealed (live : u.status = .encrypting) (marker : UInt8) (veiled : marker ≠ prED2K) (randomKey : UInt16)
    (datagram : Bytes) (some_ : datagram ≠ []) (direction : UInt8) :
    u.decrypt md5 (marker :: (leBytes 2 randomKey.toNat ++ u.sealed md5 randomKey datagram direction)) direction =
      datagram := by
  have twoBytes : (leBytes 2 randomKey.toNat).length = 2 := leBytes_length ..
  let carried := leBytes 2 randomKey.toNat ++ u.sealed md5 randomKey datagram direction
  have key : leValue (carried.take 2) = randomKey.toNat := by
    rw [take_append_of_le_length (by rw [twoBytes]),take_of_length_le (by rw [twoBytes]),leValue_leBytes]
    exact Nat.mod_eq_of_lt randomKey.toNat_lt
  have body : carried.drop 2 = u.sealed md5 randomKey datagram direction := drop_left' twoBytes
  have opened : ((u.rc4Key md5 direction randomKey.toNat).crypt (u.sealed md5 randomKey datagram direction)).2 =
      leBytes 4 magicValueUDPSyncServer ++ [0] ++ datagram := by
    rw [sealed,RC4Key.crypt_crypt]
  have sync : leValue (leBytes 4 magicValueUDPSyncServer) = magicValueUDPSyncServer := by
    rw [leValue_leBytes]
    rfl
  have long : ¬carried.length < 2 := by
    rw [length_append,twoBytes]
    omega
  unfold decrypt
  rw [if_neg (not_not.mpr live)]
  dsimp only
  rw [if_neg veiled,if_neg long,key,body,opened,append_assoc,take_left' (leBytes_length ..),
    drop_left' (leBytes_length ..),sync,if_neg]
  · exact if_neg (by simpa using some_)
  · rw [length_append,leBytes_length]
    rintro (short | other)
    · omega
    · exact other rfl

/-- Under the marker of a plain datagram an obfuscated one is not read back. -/
theorem decrypt_plain (live : u.status = .encrypting) (key datagram : Bytes) (randomKey : UInt16) (direction : UInt8) :
    u.decrypt md5 (prED2K :: (key ++ u.sealed md5 randomKey datagram direction)) direction ≠ datagram := by
  unfold decrypt
  rw [if_neg (not_not.mpr live)]
  intro same
  have lengths := congrArg List.length ((if_pos rfl).symm.trans same)
  rw [length_cons,length_append,sealed,RC4Key.crypt_length,length_append] at lengths
  omega

end UDPCrypt

section
variable (draw : Nat → UInt8)

theorem randProtocolLoop_protocol (rounds i : Nat) (p : UInt8) :
    (∀ k < rounds, isProtocol (draw (i + k)) = true) → randProtocolLoop draw (rounds + 1) p i = draw (i + rounds) := by
  induction rounds generalizing i p with
  | zero => intro _; unfold randProtocolLoop; split_ifs <;> rfl
  | succ rounds ih =>
    intro all
    have first : isProtocol (draw i) = true := all 0 (Nat.succ_pos _)
    rw [randProtocolLoop,if_pos first,ih (i + 1) (draw i) fun k _ => ?_]
    · rw [show i + 1 + rounds = i + (rounds + 1) by omega]
    · have later := all (k + 1) (by omega)
      rwa [show i + (k + 1) = i + 1 + k by omega] at later

theorem randProtocolLoop_other (rounds i : Nat) (p : UInt8) {k : Nat} (early : k < rounds)
    (other : isProtocol (draw (i + k)) = false) : isProtocol (randProtocolLoop draw rounds p i) = false := by
  induction rounds generalizing i p k with
  | zero => omega
  | succ _ ih =>
    unfold randProtocolLoop
    split_ifs with protocol
    · cases k with
      | zero => exact absurd protocol (by rw [Nat.add_zero] at other; simp [other])
      | succ k => exact ih (i + 1) (draw i) (k := k) (by omega) (by rwa [show i + 1 + k = i + (k + 1) by omega])
    · exact Bool.eq_false_iff.mpr protocol

/-- The marker is the one of a plain datagram after four draws of protocol bytes and this one. -/
theorem randProtocol_plain_iff :
    randProtocol draw = prED2K ↔ (∀ k < 4, isProtocol (draw k) = true) ∧ draw 4 = prED2K := by
  by_cases all : ∀ k < 4, isProtocol (draw k) = true
  · have last : randProtocol draw = draw (0 + 4) :=
      randProtocolLoop_protocol draw 4 0 0xff (fun k small => by rw [Nat.zero_add]; exact all k small)
    rw [last]
    exact ⟨fun plain => ⟨all,plain⟩,And.right⟩
  · obtain ⟨k,_,_⟩ : ∃ k < 4, isProtocol (draw k) = false := by simpa using all
    have veiled := randProtocolLoop_other draw 5 0 0xff (k := k) (by omega) (by rwa [Nat.zero_add])
    constructor
    · intro plain
      rw [randProtocol] at plain
      rw [plain] at veiled
      cases veiled
    · exact fun both => absurd both.1 all

theorem randClientSocketMarker_veiled (fuel i : Nat) {marker : UInt8}
    (drawn : randClientSocketMarker draw fuel i = some marker) : marker ≠ prED2K := by
  induction fuel generalizing i with
  | zero => cases drawn
  | succ _ ih =>
    unfold randClientSocketMarker at drawn
    split_ifs at drawn with good
    · cases drawn
      rintro plain
      rw [plain] at good
      cases good.1
    · exact ih (i + 1) drawn

end

/-- A datagram is read back exactly unless the five draws of its marker run out on the marker of a
plain one; the reply to a client's own socket, whose marker is drawn until it fits, always is. -/
theorem udp_read_back_iff (md5 : Bytes → Bytes) (u : UDPCrypt) (draws : UDPDraws) (datagram : Bytes)
    (some_ : datagram ≠ []) :
    (∀ direction, u.decrypt md5 (u.encrypt md5 draws datagram direction) direction = datagram ↔
      (u.status = .encrypting → ¬((∀ k < 4, isProtocol (draws.marker k) = true) ∧ draws.marker 4 = prED2K))) ∧
    ∀ fuel again out, u.encryptForClientSocket md5 fuel draws again datagram = some out →
      u.decrypt md5 out magicValueUDPServerClient = datagram := by
  refine ⟨fun direction => ?_,fun fuel again _ sent => ?_⟩
  · unfold UDPCrypt.encrypt
    by_cases live : u.status = .encrypting
    · rw [if_neg (not_not.mpr live),← randProtocol_plain_iff]
      constructor
      · intro same _ plain
        rw [plain] at same
        exact u.decrypt_plain md5 live _ _ _ _ same
      · exact fun veiled => u.decrypt_sealed md5 live _ (veiled live) _ datagram some_ direction
    · rw [if_pos live]
      refine ⟨fun _ started => absurd started live,fun _ => ?_⟩
      exact if_pos live
  · unfold UDPCrypt.encryptForClientSocket at sent
    dsimp only at sent
    by_cases live : u.status = .encrypting
    · have written : u.encrypt md5 draws datagram magicValueUDPServerClient = _ := if_neg (not_not.mpr live)
      rw [written,if_pos ⟨live,Nat.succ_pos _⟩] at sent
      obtain ⟨marker,drawn,rfl⟩ := Option.map_eq_some_iff.mp sent
      exact u.decrypt_sealed md5 live marker (randClientSocketMarker_veiled again fuel 0 drawn) _ datagram some_ _
    · rw [if_neg fun both => live both.1] at sent
      cases sent
      have written : u.encrypt md5 draws datagram magicValueUDPServerClient = datagram := if_pos live
      rw [written]
      exact if_pos live

/-- Five draws of the plain marker, and the receiver is left with the obfuscated bytes. -/
theorem udp_taken_for_plain : let u : UDPCrypt := ⟨.encrypting,7⟩
    u.decrypt (fun _ => [1]) (u.encrypt (fun _ => [1]) ⟨3,fun _ => prED2K⟩ [prED2K,0x96] magicValueUDPClientServer)
      magicValueUDPClientServer ≠ [prED2K,0x96] := by
  intro u same
  have live : u.status = .encrypting := rfl
  have marked : u.encrypt (fun _ => [1]) ⟨3,fun _ => prED2K⟩ [prED2K,0x96] magicValueUDPClientServer =
      prED2K :: (leBytes 2 3 ++ u.sealed (fun _ => [1]) 3 [prED2K,0x96] magicValueUDPClientServer) := if_neg (not_not.mpr live)
  rw [marked] at same
  exact u.decrypt_plain _ live _ _ _ _ same

theorem udp_read_back_iff_drawn : let u : UDPCrypt := ⟨.encrypting,7⟩
    u.decrypt (fun _ => [1]) (u.encrypt (fun _ => [1]) ⟨3,fun _ => 0x10⟩ [prED2K,0x96] magicValueUDPClientServer)
      magicValueUDPClientServer = [prED2K,0x96] := by
  intro u
  refine ((udp_read_back_iff (fun _ => [1]) u ⟨3,fun _ => 0x10⟩ [prED2K,0x96] (by simp)).1 _).mpr fun _ plain => ?_
  cases plain.2

end ENode.Ed2k
