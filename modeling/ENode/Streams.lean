import Mathlib.Data.List.Basic

/-! Machines that read a stream in pieces. What such a machine does must not depend on how
the stream was cut; for a machine with a law for two pieces that holds for any number. A
stream cipher mixes each symbol with the next one of a key stream. -/
namespace ENode.Stream
open List

section
variable {S α O : Type}

theorem observe_foldl {feed : S → List α → S} (observe : S → O) (Inv : S → Prop)
    (keeps : ∀ s piece, Inv s → Inv (feed s piece)) (nothing : ∀ s, Inv s → observe (feed s []) = observe s)
    (append : ∀ s a b, Inv s → observe (feed (feed s a) b) = observe (feed s (a ++ b)))
    (pieces : List (List α)) {s : S} (inv : Inv s) :
    observe (pieces.foldl feed s) = observe (feed s pieces.flatten) := by
  induction pieces generalizing s with
  | nil => exact (nothing s inv).symm
  | cons piece rest ih => rw [foldl_cons,ih (keeps s piece inv),append s piece rest.flatten inv,flatten_cons]

end

section
variable {S K α : Type} (next : S → S × K) (mix : α → K → α)

/-- Each symbol mixed with its own key symbol; the state moves on whatever is mixed. -/
def cipher (s : S) : List α → S × List α
  | [] => (s,[])
  | a :: rest =>
    let (s',k) := next s
    let (last,out) := cipher s' rest
    (last,mix a k :: out)


@[simp] theorem cipher_cons (s : S) (a : α) (rest : List α) : cipher next mix s (a :: rest) =
    ((cipher next mix (next s).1 rest).1,mix a (next s).2 :: (cipher next mix (next s).1 rest).2) := rfl

theorem cipher_append (s : S) (a b : List α) : cipher next mix s (a ++ b) =
    ((cipher next mix (cipher next mix s a).1 b).1,
      (cipher next mix s a).2 ++ (cipher next mix (cipher next mix s a).1 b).2) := by
  induction a generalizing s with
  | nil => rfl
  | cons _ _ ih => rw [cons_append,cipher_cons,ih,cipher_cons,cons_append]

theorem cipher_length (s : S) (l : List α) : (cipher next mix s l).2.length = l.length := by
  induction l generalizing s with
  | nil => rfl
  | cons _ _ ih => rw [cipher_cons,length_cons,ih,length_cons]

variable {mix}

theorem cipher_cipher (undo : ∀ a k, mix (mix a k) k = a) (s : S) (l : List α) :
    cipher next mix s (cipher next mix s l).2 = ((cipher next mix s l).1,l) := by
  induction l generalizing s with
  | nil => rfl
  | cons _ _ ih => rw [cipher_cons,cipher_cons,ih,undo]

end

end ENode.Stream
