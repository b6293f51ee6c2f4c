import ENode.ByteNumbers

/-! Frames on a byte stream: a kind, a length of four bytes and as many bytes of payload. What
was written whole is read back; a frame of which a part is missing is waited for. -/
namespace ENode.Frames

open ByteNumbers

structure Frame where
  kind : UInt8
  payload : List UInt8
  deriving DecidableEq

/-- Four bytes, the highest first. -/
def word32 (n : Nat) : List UInt8 := (leBytes 4 n).reverse

def Frame.encode (f : Frame) : List UInt8 := f.kind :: (word32 f.payload.length ++ f.payload)

inductive Received where
  | waits
  | tooLarge (size : Nat)
  | frame (f : Frame) (rest : List UInt8)
  deriving DecidableEq

/-- The first frame of a stream, if it is all there. -/
def receive (limit : Nat) : List UInt8 → Received
  | kind :: b1 :: b2 :: b3 :: b4 :: rest =>
    let n := beValue [b1,b2,b3,b4]
    if n > limit then .tooLarge n
    else if rest.length < n then .waits
    else .frame ⟨kind,rest.take n⟩ (rest.drop n)
  | _ => .waits

@[simp] theorem word32_length (n : Nat) : (word32 n).length = 4 := by simp [word32]

theorem beValue_word32 (n : Nat) : beValue (word32 n) = n % 256 ^ 4 := by
  rw [beValue_eq,word32,List.reverse_reverse,leValue_leBytes]

theorem beValue_word32_of_lt (small : n < 256 ^ 4) : beValue (word32 n) = n := by
  rw [beValue_word32,Nat.mod_eq_of_lt small]

theorem encode_length (f : Frame) : f.encode.length = 5 + f.payload.length := by
  simp [Frame.encode]
  omega

variable {limit n : Nat}

theorem word32_bytes (small : limit < 256 ^ 4) (fits : n ≤ limit) :
    ∃ b1 b2 b3 b4, word32 n = [b1,b2,b3,b4] ∧ beValue [b1,b2,b3,b4] = n ∧ ¬n > limit := by
  have value := beValue_word32_of_lt (Nat.lt_of_le_of_lt fits small)
  match bytes : word32 n, word32_length n with
  | [b1,b2,b3,b4], _ => exact ⟨b1,b2,b3,b4,rfl,bytes ▸ value,Nat.not_lt.mpr fits⟩

theorem receive_encode {f : Frame} (small : limit < 256 ^ 4) (fits : f.payload.length ≤ limit) (rest : List UInt8) :
    receive limit (f.encode ++ rest) = .frame f rest := by
  obtain ⟨_,_,_,_,bytes,value,whole⟩ := word32_bytes small fits
  simp [Frame.encode,bytes,receive,value,whole]

/-- A frame that was not written to its end. -/
def Torn (limit : Nat) (stream : List UInt8) : Prop :=
  ∃ f : Frame, f.payload.length ≤ limit ∧ ∃ k < f.encode.length, stream = f.encode.take k

theorem torn_nil : Torn limit [] := ⟨⟨0,[]⟩,Nat.zero_le _,0,by decide,rfl⟩

theorem receive_torn (small : limit < 256 ^ 4) (torn : Torn limit stream) :
    receive limit stream = .waits := by
  obtain ⟨f,fits,k,less,rfl⟩ := torn
  obtain ⟨_,_,_,_,bytes,value,whole⟩ := word32_bytes small fits
  rw [encode_length] at less
  match k, less with
  | 0, _ | 1, _ | 2, _ | 3, _ | 4, _ => simp [Frame.encode,bytes,receive]
  | k + 5, less =>
    have short : min k f.payload.length < f.payload.length := by omega
    simp [Frame.encode,bytes,receive,value,whole,short]

end ENode.Frames
