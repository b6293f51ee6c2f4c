import Mathlib.Data.Nat.Digits.Lemmas

/-! Numbers as byte strings: a fixed number of bytes with the lowest first, and any number of
bytes with the highest first. -/
namespace ENode.ByteNumbers
open List

/-- The lowest `width` bytes of a number, lowest first. -/
def leBytes : Nat → Nat → List UInt8
  | 0, _ => []
  | width+1, n => UInt8.ofNat n :: leBytes width (n / 256)

def leValue : List UInt8 → Nat
  | [] => 0
  | b :: rest => b.toNat + 256 * leValue rest

@[simp] theorem leBytes_length (width n : Nat) : (leBytes width n).length = width := by
  induction width generalizing n with
  | zero => rfl
  | succ _ ih => rw [leBytes,length_cons,ih]

variable (l : List UInt8)

theorem leValue_lt : leValue l < 256 ^ l.length := by
  induction l with
  | nil => exact Nat.one_pos
  | cons b _ _ =>
    have byte := b.toNat_lt
    rw [leValue,length_cons,Nat.pow_succ]
    omega

theorem leValue_leBytes (width n : Nat) : leValue (leBytes width n) = n % 256 ^ width := by
  induction width generalizing n with
  | zero => rw [leBytes,leValue,Nat.pow_zero,Nat.mod_one]
  | succ _ ih => rw [leBytes,leValue,ih,Nat.pow_succ',Nat.mod_mul,UInt8.toNat_ofNat']

/-- Highest byte first. -/
def beValue (l : List UInt8) : Nat := l.foldl (fun n b => 256 * n + b.toNat) 0

/-- As many bytes as the number needs, highest first. -/
def beBytes (n : Nat) : List UInt8 := ((Nat.digits 256 n).map UInt8.ofNat).reverse

/-- Zero bytes in front, up to a width. -/
def leftPad (width : Nat) (l : List UInt8) : List UInt8 := replicate (width - l.length) 0 ++ l

theorem beValue_eq : beValue l = leValue l.reverse := by
  unfold beValue
  induction l using reverseRecOn with
  | nil => rfl
  | append_singleton _ _ ih =>
    rw [foldl_append,foldl_cons,foldl_nil,ih,reverse_append,reverse_singleton,
      singleton_append,leValue,Nat.add_comm]

theorem beValue_lt : beValue l < 256 ^ l.length := by
  rw [beValue_eq,← length_reverse]
  exact leValue_lt _

theorem leValue_digits (n : Nat) : leValue ((Nat.digits 256 n).map UInt8.ofNat) = n := by
  have digits : ∀ l : List Nat, (∀ d ∈ l, d < 256) → leValue (l.map UInt8.ofNat) = Nat.ofDigits 256 l := by
    intro l
    induction l with
    | nil => exact fun _ => rfl
    | cons d _ ih =>
      intro small
      have digit := small d (.head _)
      rw [map_cons,leValue,ih (fun e later => small e (.tail _ later)),Nat.ofDigits_cons,
        UInt8.toNat_ofNat',Nat.mod_eq_of_lt digit]
  rw [digits _ (fun _ there => Nat.digits_lt_base (by decide) there),Nat.ofDigits_digits]

theorem beValue_beBytes (n : Nat) : beValue (beBytes n) = n := by
  rw [beValue_eq,beBytes,reverse_reverse,leValue_digits]

theorem beBytes_length_le (small : n < 256 ^ width) : (beBytes n).length ≤ width := by
  rw [beBytes,length_reverse,length_map]
  exact (Nat.digits_length_le_iff (by decide) n).mpr small

theorem beValue_leftPad (width : Nat) (l : List UInt8) : beValue (leftPad width l) = beValue l := by
  unfold leftPad beValue
  rw [foldl_append]
  congr 1
  induction width - l.length with
  | zero => rfl
  | succ _ ih => rw [replicate_succ,foldl_cons]; exact ih

theorem leftPad_length {l : List UInt8} (fits : l.length ≤ width) : (leftPad width l).length = width := by
  rw [leftPad,length_append,length_replicate]
  omega

theorem beValue_fixed (width n : Nat) : beValue (leftPad width (beBytes n)) = n := by
  rw [beValue_leftPad,beValue_beBytes]

end ENode.ByteNumbers
