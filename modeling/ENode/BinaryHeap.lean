import Mathlib

/-! Binary heaps in a list, the least element on top, over any strict order that ties may leave
undecided. Sifting is told how many levels it may go; a level for each element is enough. -/
namespace ENode.BinaryHeap
open List

variable {α : Type} (below : α → α → Bool) (d : α)

/-- A strict order in which "not below" composes. -/
structure Strict (below : α → α → Bool) : Prop where
  asymm : ∀ {a b}, below a b = true → below b a = false
  chain : ∀ {a b c}, below b a = false → below c b = false → below c a = false

theorem Strict.irrefl {below : α → α → Bool} (strict : Strict below) (a : α) : below a a = false := by
  cases same : below a a with
  | false => rfl
  | true => exact same ▸ strict.asymm same

def pick (h : List α) (least child : Nat) : Nat :=
  if child < h.length ∧ below (h.getD child d) (h.getD least d) then child else least

/-- The position of the least of an element and its children. -/
def leastOf (h : List α) (i : Nat) : Nat := pick below d h (pick below d h i (2*i+1)) (2*i+2)

def siftDown : Nat → List α → Nat → List α
  | 0, h, _ => h
  | fuel+1, h, i =>
    let least := leastOf below d h i
    if least = i then h
    else siftDown fuel ((h.set i (h.getD least d)).set least (h.getD i d)) least

def build (h : List α) : List α := (List.range (h.length / 2)).reverse.foldl (siftDown below d h.length) h

variable {below d} {h : List α} {lo i : Nat}

/-- Every element whose parent stands at `lo` or later is not below its parent. -/
def OrderedFrom (below : α → α → Bool) (d : α) (lo : Nat) (h : List α) : Prop :=
  ∀ k, 0 < k → k < h.length → lo ≤ (k-1)/2 → below (h.getD k d) (h.getD ((k-1)/2) d) = false

/-- Ordered but for the element at `i`, which may have children below it; they are not below its parent. -/
structure Hole (below : α → α → Bool) (d : α) (lo i : Nat) (h : List α) : Prop where
  off : ∀ k, 0 < k → k < h.length → lo ≤ (k-1)/2 → (k-1)/2 ≠ i → below (h.getD k d) (h.getD ((k-1)/2) d) = false
  grand : 0 < i → lo ≤ (i-1)/2 → ∀ k, 0 < k → k < h.length → (k-1)/2 = i →
    below (h.getD k d) (h.getD ((i-1)/2) d) = false

theorem getD_set (h : List α) (i : Nat) (x : α) (k : Nat) (d : α) (inside : i < h.length) :
    (h.set i x).getD k d = if k = i then x else h.getD k d := by
  simp only [getD_eq_getElem?_getD,getElem?_set]
  split
  · rename_i eq
    rw [if_pos eq.symm]
    rfl
  · rename_i ne
    rw [if_neg (fun eq => ne eq.symm)]

theorem pick_cases (below : α → α → Bool) (d : α) (h : List α) (least child : Nat) :
    pick below d h least child = least ∨
      pick below d h least child = child ∧ child < h.length ∧ below (h.getD child d) (h.getD least d) = true := by
  rw [pick]
  split
  · exact .inr ⟨rfl,‹_›⟩
  · exact .inl rfl

theorem pick_least (strict : Strict below) (h : List α) (least child : Nat) :
    below (h.getD least d) (h.getD (pick below d h least child) d) = false := by
  obtain same | ⟨same,_,lower⟩ := pick_cases below d h least child
  · rw [same]
    exact strict.irrefl _
  · rw [same]
    exact strict.asymm lower

theorem pick_child (strict : Strict below) {h : List α} (least : Nat) (inside : child < h.length) :
    below (h.getD child d) (h.getD (pick below d h least child) d) = false := by
  rw [pick]
  split
  · exact strict.irrefl _
  rename_i higher
  exact Bool.eq_false_iff.mpr fun lower => higher ⟨inside,lower⟩

theorem leastOf_least (strict : Strict below) (h : List α) (i : Nat) (inside : k < h.length)
    (child : k = i ∨ k = 2*i+1 ∨ k = 2*i+2) : below (h.getD k d) (h.getD (leastOf below d h i) d) = false := by
  have second := pick_least (d := d) strict h (pick below d h i (2*i+1)) (2*i+2)
  rcases child with rfl | rfl | rfl
  · exact strict.chain second (pick_least strict h k (2*k+1))
  · exact strict.chain second (pick_child strict i inside)
  · exact pick_child strict _ inside

theorem leastOf_cases (below : α → α → Bool) (d : α) (h : List α) (i : Nat) : leastOf below d h i = i ∨
    leastOf below d h i < h.length ∧ (leastOf below d h i = 2*i+1 ∨ leastOf below d h i = 2*i+2) := by
  rw [leastOf]
  obtain same | ⟨same,inside,_⟩ := pick_cases below d h (pick below d h i (2*i+1)) (2*i+2)
  · rw [same]
    obtain same | ⟨same,inside,_⟩ := pick_cases below d h i (2*i+1)
    · exact .inl same
    · rw [same]
      exact .inr ⟨inside,.inl rfl⟩
  · rw [same]
    exact .inr ⟨inside,.inr rfl⟩

theorem swap_getD {h : List α} (inside₁ : i < h.length) (inside₂ : j < h.length) (d : α) (k : Nat) :
    ((h.set i (h.getD j d)).set j (h.getD i d)).getD k d =
      if k = j then h.getD i d else if k = i then h.getD j d else h.getD k d := by
  rw [getD_set _ _ _ _ _ (by rwa [length_set]),getD_set _ _ _ _ _ inside₁]

theorem swap_perm {h : List α} (inside₁ : i < h.length) (inside₂ : j < h.length) (d : α) :
    ((h.set i (h.getD j d)).set j (h.getD i d)).Perm h := by
  rw [getD_eq_getElem _ _ inside₁,getD_eq_getElem _ _ inside₂]
  exact set_set_perm inside₁ inside₂

theorem Hole.fill (strict : Strict below) (hole : Hole below d lo i h) (least : leastOf below d h i = i) :
    OrderedFrom below d lo h := by
  intro k positive inside from'
  by_cases parent : (k-1)/2 = i
  · rw [parent]
    have lowest := leastOf_least (d := d) strict h i inside (by omega)
    rwa [least] at lowest
  · exact hole.off k positive inside from' parent

/-- The lesser child goes up and leaves the hole where it was. -/
theorem Hole.down (strict : Strict below) (hole : Hole below d lo i h) (from' : lo ≤ i)
    (least : leastOf below d h i = j) (inside : j < h.length) (child : j = 2*i+1 ∨ j = 2*i+2) :
    Hole below d lo j ((h.set i (h.getD j d)).set j (h.getD i d)) := by
  have inside' : i < h.length := by omega
  have lowest {k : Nat} (there : k < h.length) (near : k = i ∨ k = 2*i+1 ∨ k = 2*i+2) :
      below (h.getD k d) (h.getD j d) = false := least ▸ leastOf_least strict h i there near
  constructor
  · intro k positive there from'' parent
    simp only [length_set] at there
    rw [swap_getD inside' inside,swap_getD inside' inside,if_neg parent]
    by_cases down : k = j
    · rw [if_pos down,if_pos (by omega)]
      exact lowest inside' (.inl rfl)
    · rw [if_neg down]
      by_cases up : k = i
      · rw [if_pos up,if_neg (by omega)]
        exact up ▸ hole.grand (by omega) (by omega) j (by omega) inside (by omega)
      · rw [if_neg up]
        by_cases sibling : (k-1)/2 = i
        · rw [if_pos sibling]
          exact lowest there (by omega)
        · rw [if_neg sibling]
          exact hole.off k positive there from'' sibling
  · intro _ _ k positive there parent
    simp only [length_set] at there
    rw [swap_getD inside' inside,swap_getD inside' inside,if_neg (by omega),if_neg (by omega),
      if_neg (by omega),if_pos (by omega)]
    have ordered := hole.off k positive there (by omega) (by omega)
    rwa [parent] at ordered

theorem siftDown_ordered (strict : Strict below) (fuel : Nat) (h : List α) (i : Nat) (hole : Hole below d lo i h)
    (from' : lo ≤ i) (enough : h.length ≤ i + fuel) : OrderedFrom below d lo (siftDown below d fuel h i) := by
  induction fuel generalizing h i with
  | zero =>
    intro k positive inside after
    change k < h.length at inside
    exact hole.off k positive inside after (by omega)
  | succ _ ih =>
    rw [siftDown]
    split
    · exact hole.fill strict ‹_›
    rename_i moves
    obtain stays | ⟨inside,child⟩ := leastOf_cases below d h i
    · exact absurd stays moves
    · exact ih _ _ (hole.down strict from' rfl inside child) (by omega) (by simp only [length_set]; omega)

theorem siftDown_perm (fuel : Nat) (h : List α) (i : Nat) : (siftDown below d fuel h i).Perm h := by
  induction fuel generalizing h i with
  | zero => exact .refl h
  | succ _ ih =>
    rw [siftDown]
    split
    · exact .refl h
    rename_i moves
    obtain stays | ⟨inside,_⟩ := leastOf_cases below d h i
    · exact absurd stays moves
    · exact (ih _ _).trans (swap_perm (by omega) inside d)

theorem OrderedFrom.hole (ordered : OrderedFrom below d (lo+1) h) : Hole below d lo lo h :=
  ⟨fun k positive inside _ _ => ordered k positive inside (by omega),fun _ _ => by omega⟩

theorem OrderedFrom.replace (ordered : OrderedFrom below d 0 h) (x : α) : Hole below d 0 0 (h.set 0 x) := by
  refine ⟨fun k positive inside _ parent => ?_,fun positive => absurd positive (Nat.lt_irrefl 0)⟩
  rw [length_set] at inside
  rw [getD_set _ _ _ _ _ (by omega),getD_set _ _ _ _ _ (by omega),if_neg (by omega),if_neg parent]
  exact ordered k positive inside (Nat.zero_le _)

theorem build_perm (h : List α) : (build below d h).Perm h := by
  have every (l : List Nat) (h' : List α) : (l.foldl (siftDown below d h.length) h').Perm h' := by
    induction l generalizing h' with
    | nil => exact .refl _
    | cons _ _ ih => exact (ih _).trans (siftDown_perm ..)
  exact every _ h

theorem build_ordered (strict : Strict below) (h : List α) : OrderedFrom below d 0 (build below d h) := by
  have every (n : Nat) (h' : List α) (size : h'.length = h.length) (ordered : OrderedFrom below d n h') :
      OrderedFrom below d 0 ((List.range n).reverse.foldl (siftDown below d h.length) h') := by
    induction n generalizing h' with
    | zero => exact ordered
    | succ _ ih =>
      rw [range_succ,reverse_append]
      exact ih _ ((siftDown_perm ..).length_eq.trans size)
        (siftDown_ordered strict _ _ _ ordered.hole le_rfl (by omega))
  exact every _ h rfl fun _ _ _ _ => by omega

theorem root_least (strict : Strict below) (ordered : OrderedFrom below d 0 h) (inside : k < h.length) :
    below (h.getD k d) (h.getD 0 d) = false := by
  induction k using Nat.strongRecOn with
  | _ k ih =>
    rcases Nat.eq_zero_or_pos k with rfl | positive
    · exact strict.irrefl _
    · exact strict.chain (ih ((k-1)/2) (by omega) (by omega)) (ordered k positive inside (Nat.zero_le _))

end ENode.BinaryHeap
