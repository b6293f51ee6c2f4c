import ENode.GoMap
import ENode.GoText
import ENode.ByteNumbers

/-! The table of LowIDs. A client gets an id of the configured range, probed for from a seed
of its address; a table entry is given up by its number alone. -/
namespace ENode.Ed2k

open GoText ByteNumbers

/-- The top of the LowID space. -/
def lowIDCeiling : Nat := 0xffffff

def isLowID (id : Nat) : Bool := decide (id > 0 ∧ id ≤ 0x00FFFFFF)

def hasHighID (id : Nat) : Bool := decide (id ≠ 0) && !isLowID id

inductive LowIDParity where
  | any
  | even
  | odd
  deriving DecidableEq

def fnv32a (bytes : Bytes) : UInt32 := bytes.foldl (fun h b => (h ^^^ b.toUInt32) * 16777619) 2166136261

def hashLowIDSeed (key : Bytes) (nonce : Nat) : Nat := (fnv32a (key ++ leBytes 4 nonce) &&& 0x00ffffff).toNat

/-- The seed of an IPv4 client: its address and port. -/
def endpointKey (ipv4 port : Nat) : Bytes := leBytes 4 ipv4 ++ leBytes 2 port

/-- The range is never empty and never leaves the LowID space. -/
structure LowIDClients (α : Type) where
  min : Nat
  max : Nat
  allowLowIDs : Bool
  count : Nat := 0
  oddCount : Nat := 0
  clients : GoMap Nat α := ∅
  range : 0 < min ∧ min ≤ max ∧ max ≤ lowIDCeiling

/-- The range configured; what is left out or makes no sense is replaced. -/
def newLowIDClients {α : Type} (allowLowIDs : Bool) (min max : Nat) : LowIDClients α :=
  let min := if min = 0 then 1 else min
  let max := if max = 0 ∨ max > lowIDCeiling then lowIDCeiling else max
  if sane : min ≤ max then
    { min := min, max := max, allowLowIDs := allowLowIDs
      range := by
        have ceiling : 0 < lowIDCeiling := by decide
        refine ⟨?_,sane,?_⟩
        · simp only [min]
          split <;> omega
        · simp only [max]
          split <;> omega }
  else
    { min := 1, max := lowIDCeiling, allowLowIDs := allowLowIDs, range := by decide }

theorem newLowIDClients_clients {α : Type} (allowLowIDs : Bool) (min max : Nat) :
    (newLowIDClients allowLowIDs min max : LowIDClients α).clients = ∅ := by
  unfold newLowIDClients
  extract_lets low high
  by_cases sane : low ≤ high
  · rw [dif_pos sane]
  · rw [dif_neg sane]

namespace LowIDClients

variable {α : Type} (l : LowIDClients α)

/-- The lowest id of a parity in the range, and how many there are. -/
def paritySpanLocked (parity : LowIDParity) : Nat × Nat :=
  match parity with
  | .any => (l.min,l.max - l.min + 1)
  | _ =>
    let first := if (l.min % 2 = 1) ≠ (parity = .odd) then l.min + 1 else l.min
    if first > l.max then (first,0) else (first,(l.max - first) / 2 + 1)

def usedLocked : LowIDParity → Nat
  | .odd => l.oddCount
  | .even => l.count - l.oddCount
  | .any => l.count

def putLocked (id : Nat) (client : α) : LowIDClients α :=
  { l with
    clients := l.clients.insert id client
    count := l.count + 1
    oddCount := if id % 2 = 1 then l.oddCount + 1 else l.oddCount }

/-- The id a key asks for at a nonce. -/
def candidate (key : Bytes) (parity : LowIDParity) (nonce : Nat) : Nat :=
  let (first,span) := l.paritySpanLocked parity
  first + (if parity = .any then 1 else 2) * (hashLowIDSeed key nonce % span)

/-- The first free id that one of the nonces asks for. -/
def addByKeyLocked (key : Bytes) (client : α) (parity : LowIDParity) : LowIDClients α × Option Nat :=
  if !l.allowLowIDs then (l,none)
  else
    let span := (l.paritySpanLocked parity).2
    if span = 0 ∨ l.usedLocked parity ≥ span then (l,none)
    else
      match ((List.range span).map (l.candidate key parity)).find? (fun id => (l.clients.lookup id).isNone) with
      | none => (l,none)
      | some id => (l.putLocked id client,some id)

def remove (id : Nat) : LowIDClients α :=
  if (l.clients.lookup id).isSome then
    { l with
      clients := l.clients.erase id
      count := l.count - 1
      oddCount := if id % 2 = 1 then l.oddCount - 1 else l.oddCount }
  else l

theorem paritySpan_inside (inside : i < (l.paritySpanLocked parity).2) :
    l.min ≤ (l.paritySpanLocked parity).1 ∧
      (l.paritySpanLocked parity).1 + (if parity = .any then 1 else 2) * i ≤ l.max := by
  have range := l.range
  have bound : ∀ first, l.min ≤ first → i < (if first > l.max then (first,0) else (first,(l.max - first) / 2 + 1)).2 →
      (if first > l.max then (first,0) else (first,(l.max - first) / 2 + 1)).1 = first ∧ first + 2 * i ≤ l.max := by
    intro first _ inside
    split at inside
    · cases inside
    next below =>
      rw [if_neg below]
      exact ⟨rfl,by dsimp only at inside; omega⟩
  cases parity with
  | any =>
    simp only [paritySpanLocked] at inside ⊢
    simp only [reduceIte]
    omega
  | _ =>
    have least : ∀ odd : Prop, [Decidable odd] → l.min ≤ if odd then l.min + 1 else l.min := by
      intro _ _
      split <;> omega
    obtain ⟨first,last⟩ := bound _ (least _) inside
    exact ⟨(least _).trans_eq first.symm,(congrArg (· + 2 * i) first).trans_le last⟩

theorem candidate_range (key : Bytes) (nonce : Nat) (some : (l.paritySpanLocked parity).2 ≠ 0) :
    l.min ≤ l.candidate key parity nonce ∧ l.candidate key parity nonce ≤ l.max := by
  have small := Nat.mod_lt (hashLowIDSeed key nonce) (Nat.pos_of_ne_zero some)
  obtain ⟨first,last⟩ := l.paritySpan_inside small
  exact ⟨Nat.le_trans first (Nat.le_add_right _ _),last⟩

theorem addByKey_some {id : Nat}
    (added : l.addByKeyLocked key client parity = (l',some id)) :
    l.clients.lookup id = none ∧ l' = l.putLocked id client ∧ 0 < id ∧ id ≤ lowIDCeiling := by
  unfold addByKeyLocked at added
  split at added
  · cases added
  dsimp only at added
  split at added
  · cases added
  next open' =>
    split at added
    · cases added
    next found =>
      cases added
      have free := List.find?_some found
      obtain ⟨nonce,-,asked⟩ := List.mem_map.mp (List.mem_of_find?_eq_some found)
      have inside := l.candidate_range key nonce (fun none => open' (.inl none))
      have range := l.range
      rw [asked] at inside
      exact ⟨Option.isNone_iff_eq_none.mp free,rfl,by omega,by omega⟩

theorem addByKey_none (refused : l.addByKeyLocked key client parity = (l',none)) : l' = l := by
  unfold addByKeyLocked at refused
  split at refused
  · cases refused
    rfl
  · dsimp only at refused
    split at refused
    · cases refused
      rfl
    · split at refused
      · cases refused
        rfl
      · cases refused

theorem lookup_put (id j : Nat) (client : α) :
    (l.putLocked id client).clients.lookup j = if j = id then some client else l.clients.lookup j :=
  GoMap.lookup_insert_ite ..

theorem lookup_remove (id j : Nat) :
    (l.remove id).clients.lookup j = if j = id then none else l.clients.lookup j := by
  unfold remove
  split
  · exact GoMap.lookup_erase_ite ..
  next gone =>
    have none := Option.not_isSome_iff_eq_none.mp gone
    split
    next same => rw [same,none]
    · rfl

end LowIDClients

end ENode.Ed2k
