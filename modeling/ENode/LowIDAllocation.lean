import ENode.LowIDClients

/-! When an allocation finds an id. The probes start from a hash of the key and are hashed
again for each nonce, so they need not visit every id of the range. -/
namespace ENode.Ed2k

open GoText ByteNumbers List

def LowIDParity.holds : LowIDParity → Nat → Bool
  | .any, _ => true
  | .even, id => id % 2 = 0
  | .odd, id => id % 2 = 1

/-- A bound parity takes every second id. -/
def LowIDParity.step (parity : LowIDParity) : Nat := if parity = .any then 1 else 2

namespace LowIDClients

variable {α : Type}

/-- A session handed over keeps its id, whatever the range is now. -/
def restore (l : LowIDClients α) (id : Nat) (client : α) : LowIDClients α × Bool :=
  if id = 0 ∨ id > lowIDCeiling then (l,false)
  else if (l.clients.lookup id).isSome then (l,false)
  else (l.putLocked id client,true)

inductive Op (α : Type) where
  | add (key : Bytes) (client : α) (parity : LowIDParity)
  | restore (id : Nat) (client : α)
  | remove (id : Nat)

def apply (l : LowIDClients α) : Op α → LowIDClients α
  | .add key client parity => (l.addByKeyLocked key client parity).1
  | .restore id client => (l.restore id client).1
  | .remove id => l.remove id

def run (l : LowIDClients α) (ops : List (Op α)) : LowIDClients α := ops.foldl apply l

def uses (l : LowIDClients α) (id : Nat) : Bool := (l.clients.lookup id).isSome

theorem mem_keys_iff (l : LowIDClients α) (id : Nat) : id ∈ l.clients.keys ↔ l.uses id = true := by
  rw [uses,AList.lookup_isSome,AList.mem_keys]

/-- The two counters say how many ids are in use, and how many of them are odd. -/
structure Counted (l : LowIDClients α) : Prop where
  count : l.count = l.clients.keys.length
  odd : l.oddCount = l.clients.keys.countP (fun id => id % 2 = 1)

variable {l : LowIDClients α}

theorem put_counted (counted : l.Counted) {id : Nat} (free : l.clients.lookup id = none)
    (client : α) : (l.putLocked id client).Counted := by
  have absent : id ∉ l.clients.keys := by
    rw [mem_keys_iff,uses,free]
    exact Bool.false_ne_true
  have keys : (l.putLocked id client).clients.keys = id :: l.clients.keys := by
    rw [putLocked,AList.keys_insert,erase_of_not_mem absent]
  constructor
  · rw [keys,length_cons,← counted.count]
    rfl
  · rw [keys,countP_cons,← counted.odd]
    by_cases odd : id % 2 = 1 <;> simp [putLocked,odd]

theorem remove_counted (counted : l.Counted) (id : Nat) : (l.remove id).Counted := by
  unfold remove
  split
  next used =>
    have present : id ∈ l.clients.keys := (l.mem_keys_iff id).mpr used
    constructor
    · rw [AList.keys_erase,length_erase_of_mem present,← counted.count]
    · rw [AList.keys_erase,countP_erase,← counted.odd]
      by_cases odd : id % 2 = 1 <;> simp [odd,present]
  · exact counted

theorem apply_counted (counted : l.Counted) (op : Op α) : (l.apply op).Counted := by
  cases op with
  | add key client parity =>
    rw [apply]
    cases added : l.addByKeyLocked key client parity with
    | mk _ id =>
      cases id with
      | none =>
        rw [l.addByKey_none added]
        exact counted
      | some id =>
        obtain ⟨free,rfl,-,-⟩ := l.addByKey_some added
        exact put_counted counted free client
  | restore id client =>
    simp only [apply,restore]
    split
    · exact counted
    split
    · exact counted
    next free => exact put_counted counted (Option.not_isSome_iff_eq_none.mp free) client
  | remove id => exact remove_counted counted id

theorem run_counted (counted : l.Counted) (ops : List (Op α)) : (l.run ops).Counted :=
  foldlRecOn ops _ counted fun _ kept op _ => apply_counted kept op

theorem new_counted (allow : Bool) (min max : Nat) : (newLowIDClients allow min max : LowIDClients α).Counted := by
  have empty := newLowIDClients_clients (α := α) allow min max
  constructor
  all_goals
    rw [empty]
    unfold newLowIDClients
    extract_lets low high
    split <;> rfl

variable {key : Bytes}

section
variable (l : LowIDClients α) (parity : LowIDParity)

def idAt (i : Nat) : Nat := (l.paritySpanLocked parity).1 + parity.step * i

/-- Every second id from `first` on, up to the end of the range. -/
theorem everySecond_iff (first max id : Nat) :
    (∃ i < (if first > max then (first,0) else (first,(max - first) / 2 + 1)).2,
      (if first > max then (first,0) else (first,(max - first) / 2 + 1)).1 + 2 * i = id) ↔
    first ≤ id ∧ id ≤ max ∧ id % 2 = first % 2 := by
  split
  next beyond =>
    constructor
    · rintro ⟨i,none,-⟩
      cases none
    · omega
  · constructor
    · rintro ⟨_,inside,rfl⟩
      dsimp only at inside ⊢
      omega
    · rintro ⟨_,_,_⟩
      exact ⟨(id - first) / 2,by dsimp only; omega,by dsimp only; omega⟩

/-- The ids of a parity are those the probes can reach. -/
theorem idAt_iff (id : Nat) : (∃ i < (l.paritySpanLocked parity).2, l.idAt parity i = id) ↔
    l.min ≤ id ∧ id ≤ l.max ∧ parity.holds id = true := by
  have range := l.range
  cases parity with
  | any =>
    simp only [idAt,paritySpanLocked,LowIDParity.step,LowIDParity.holds,reduceIte]
    constructor
    · rintro ⟨_,_,rfl⟩
      exact ⟨by omega,by omega,trivial⟩
    · rintro ⟨_,_,-⟩
      exact ⟨id - l.min,by omega,by omega⟩
  | even | odd =>
    refine (everySecond_iff _ l.max id).trans ?_
    by_cases odd : l.min % 2 = 1 <;> simp [odd,LowIDParity.holds] <;> omega

theorem candidate_eq (key : Bytes) (nonce : Nat) :
    l.candidate key parity nonce = l.idAt parity (hashLowIDSeed key nonce % (l.paritySpanLocked parity).2) := rfl

/-- The probes of a key visit every id of the parity. -/
def Covers (key : Bytes) : Prop :=
  ∀ i < (l.paritySpanLocked parity).2, ∃ nonce < (l.paritySpanLocked parity).2,
    hashLowIDSeed key nonce % (l.paritySpanLocked parity).2 = i

/-- No id of the parity is left. -/
def Full : Prop := ∀ id, l.min ≤ id → id ≤ l.max → parity.holds id = true → l.uses id = true

/-- Room is counted and a probe of the key is free. -/
def Probed (key : Bytes) : Prop :=
  l.usedLocked parity < (l.paritySpanLocked parity).2 ∧
    ∃ nonce < (l.paritySpanLocked parity).2, l.uses (l.candidate key parity nonce) = false

variable {l} {parity}

/-- As many ids in use as there are in the range, and none outside: all are in use. -/
theorem all_used (counted : l.Counted) (inside : ∀ id, l.uses id = true → l.min ≤ id ∧ id ≤ l.max)
    (full : l.usedLocked parity ≥ (l.paritySpanLocked parity).2) : l.Full parity := by
  intro id low high holds
  have used : l.usedLocked parity = (l.clients.keys.filter (parity.holds ·)).length := by
    rw [← countP_eq_length_filter]
    cases parity with
    | any => simp [usedLocked,counted.count,LowIDParity.holds]
    | odd => rw [usedLocked,counted.odd]; rfl
    | even =>
      have split := length_eq_countP_add_countP (fun id => decide (id % 2 = 1)) (l := l.clients.keys)
      have even : l.clients.keys.countP (fun id => decide ¬(decide (id % 2 = 1)) = true) =
          l.clients.keys.countP (LowIDParity.even.holds ·) := by
        refine countP_congr fun id _ => ?_
        simp [LowIDParity.holds]
      rw [usedLocked,counted.count,counted.odd]
      omega
  have reach : (l.clients.keys.filter (parity.holds ·)) ⊆ (List.range (l.paritySpanLocked parity).2).map (l.idAt parity) := by
    intro other there
    obtain ⟨held,fits⟩ := mem_filter.mp there
    obtain ⟨low,high⟩ := inside other ((l.mem_keys_iff other).mp held)
    obtain ⟨i,small,same⟩ := (l.idAt_iff parity other).mpr ⟨low,high,fits⟩
    exact mem_map.mpr ⟨i,mem_range.mpr small,same⟩
  have distinct : (l.clients.keys.filter (parity.holds ·)).Nodup := l.clients.nodupKeys.filter _
  have same := (subperm_of_subset distinct reach).perm_of_length_le (by
    rw [length_map,length_range,← used]
    exact full)
  obtain ⟨i,small,at_⟩ := (l.idAt_iff parity id).mpr ⟨low,high,holds⟩
  have member := same.mem_iff.mpr (mem_map.mpr ⟨i,mem_range.mpr small,at_⟩)
  exact (l.mem_keys_iff id).mp (mem_filter.mp member).1

/-- What is refused, and why. -/
theorem add_none_iff (l : LowIDClients α) (key : Bytes) (client : α) (parity : LowIDParity) :
    (l.addByKeyLocked key client parity).2 = none ↔ l.allowLowIDs = false ∨ ¬l.Probed parity key := by
  have probes : ((List.range (l.paritySpanLocked parity).2).map (l.candidate key parity)).find?
      (fun id => (l.clients.lookup id).isNone) = none ↔
      ∀ nonce < (l.paritySpanLocked parity).2, l.uses (l.candidate key parity nonce) = true := by
    simp [uses,Option.isSome_iff_ne_none]
  unfold addByKeyLocked
  by_cases allowed : l.allowLowIDs = true
  · rw [if_neg (by simpa using allowed)]
    dsimp only
    split
    next full => simp [allowed,Probed,show ¬l.usedLocked parity < (l.paritySpanLocked parity).2 by omega]
    next room =>
      have counted : l.usedLocked parity < (l.paritySpanLocked parity).2 := by omega
      split
      next nothing => simpa [allowed,Probed] using fun _ => probes.mp nothing
      next found =>
        have some := mt probes.mpr (by rw [found]; exact Option.some_ne_none _)
        simpa [allowed,Probed,counted] using some
  · simp [allowed]

theorem add_some_spec {id : Nat} (added : (l.addByKeyLocked key client parity).2 = some id) :
    l.min ≤ id ∧ id ≤ l.max ∧ parity.holds id = true ∧ l.uses id = false := by
  unfold addByKeyLocked at added
  split at added
  · cases added
  dsimp only at added
  split at added
  · cases added
  next room =>
    split at added
    · cases added
    next found =>
      obtain rfl := Option.some.inj added
      obtain ⟨nonce,-,probed⟩ := mem_map.mp (mem_of_find?_eq_some found)
      have free := find?_some found
      have small := Nat.mod_lt (hashLowIDSeed key nonce) (Nat.pos_of_ne_zero (fun none => room (.inl none)))
      have fits := (l.idAt_iff parity _).mp ⟨_,small,(candidate_eq l parity key nonce).symm.trans probed⟩
      refine ⟨fits.1,fits.2.1,fits.2.2,?_⟩
      rw [uses]
      simpa using free

end

/-- In every table reached an id given out is free, in the range and of the parity. A refusal means that
LowIDs are disabled or no id of the parity is left exactly if one of these holds or room is counted
and a probe of the key is free. When no id outside the range is in use, that is so for every key
whose probes visit all ids. -/
theorem allocation_finds_iff (allow : Bool) (min max : Nat) (ops : List (Op α)) (key : Bytes) (client : α)
    (parity : LowIDParity) :
    let l := (newLowIDClients allow min max : LowIDClients α).run ops
    let given := (l.addByKeyLocked key client parity).2
    (∀ id, given = some id → l.min ≤ id ∧ id ≤ l.max ∧ parity.holds id = true ∧ l.uses id = false) ∧
      ((given = none → l.allowLowIDs = false ∨ l.Full parity) ↔
        l.allowLowIDs = false ∨ l.Full parity ∨ l.Probed parity key) ∧
      ((∀ id, l.uses id = true → l.min ≤ id ∧ id ≤ l.max) → l.Covers parity key →
        given = none → l.allowLowIDs = false ∨ l.Full parity) := by
  intro l given
  have refusal := l.add_none_iff key client parity
  refine ⟨fun id => add_some_spec,⟨fun complete => ?_,fun holds refused => ?_⟩,fun inside covers refused => ?_⟩
  · by_cases refused : given = none
    · exact (complete refused).imp_right .inl
    · exact .inr (.inr (not_not.mp fun none => refused (refusal.mpr (.inr none))))
  · rcases holds with disabled | full | probed
    · exact .inl disabled
    · exact .inr full
    · exact .inl ((refusal.mp refused).resolve_right (not_not.mpr probed))
  · refine (refusal.mp refused).imp_right fun none id low high holds => ?_
    by_contra free
    have counted := run_counted (new_counted (α := α) allow min max) ops
    have room : ¬l.usedLocked parity ≥ (l.paritySpanLocked parity).2 := by
      intro full
      exact free (all_used counted inside full id low high holds)
    obtain ⟨i,small,rfl⟩ := (l.idAt_iff parity id).mpr ⟨low,high,holds⟩
    obtain ⟨nonce,few,hit⟩ := covers i small
    refine none ⟨not_le.mp room,nonce,few,?_⟩
    rw [candidate_eq,hit]
    exact Bool.eq_false_iff.mpr free

/-- `Add`'s own seed. -/
def defaultSeed : Bytes := lit "lowid-default-seed"

/-- With ids 1 to 3 the second client of one seed finds an id; with the id 9 alone its probes visit all ids. -/
theorem allocation_finds_second :
    let l := (newLowIDClients true 1 3 : LowIDClients Unit).run [.add defaultSeed () .any]
    let one := (newLowIDClients true 9 9 : LowIDClients Unit).run []
    (l.Probed .any defaultSeed ∧ (l.addByKeyLocked defaultSeed () .any).2 ≠ none) ∧
      one.Covers .any defaultSeed ∧ (one.addByKeyLocked defaultSeed () .any).2 ≠ none := by
  intro l one
  have second : l.Probed .any defaultSeed := ⟨by decide +kernel,1,by decide +kernel,by decide +kernel⟩
  have alone : one.Covers .any defaultSeed := by
    intro i small
    have zero : i = 0 := Nat.lt_one_iff.mp small
    exact ⟨0,by decide,by rw [zero]; exact Nat.mod_one _⟩
  refine ⟨⟨second,fun refused => ?_⟩,alone,fun refused => ?_⟩
  · rcases (allocation_finds_iff true 1 3 [.add defaultSeed () .any] defaultSeed () .any).2.1.mpr
      (.inr (.inr second)) refused with disabled | full
    · exact absurd disabled (by decide)
    · exact absurd (full 2 (by decide) (by decide) rfl) (by decide +kernel)
  · have empty : ∀ id, one.uses id = true → one.min ≤ id ∧ id ≤ one.max := fun _ used => nomatch used
    rcases (allocation_finds_iff true 9 9 [] defaultSeed () .any).2.2 empty alone refused with disabled | full
    · exact absurd disabled (by decide)
    · exact absurd (full 9 (by decide) (by decide) rfl) (by decide)

/-- With ids 1 to 3, the third client of one seed is refused while id 2 is free. -/
theorem refused_with_room :
    ((newLowIDClients true 1 3 : LowIDClients Unit).run
      [.add defaultSeed () .any,.add defaultSeed () .any]).uses 2 = false ∧
    (((newLowIDClients true 1 3 : LowIDClients Unit).run
      [.add defaultSeed () .any,.add defaultSeed () .any]).addByKeyLocked defaultSeed () .any).2 = none := by
  decide +kernel

end LowIDClients

end ENode.Ed2k
