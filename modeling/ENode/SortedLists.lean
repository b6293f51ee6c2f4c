import Mathlib

/-! Ascending lists as sets: binary search, insertion, union and intersection by
merging, and the sorts of Go's standard library. Each merge loop runs on fuel that its
two lengths bound. -/
namespace ENode.SortedLists
open List

abbrev Ascending [LT α] (l : List α) : Prop := l.Pairwise (· < ·)

/-- What `sort.Slice` promises for an order by key: equal keys may come in any order. -/
structure SliceSort where
  run : {α : Type} → (α → Nat) → List α → List α
  perm : ∀ {α : Type} (key : α → Nat) (l : List α), (run key l).Perm l
  ordered : ∀ {α : Type} (key : α → Nat) (l : List α), (run key l).Pairwise (fun a b => key a ≤ key b)

def SliceSort.stable : SliceSort where
  run := fun key l => l.insertionSort (fun a b => key a ≤ key b)
  perm := fun _ l => l.perm_insertionSort _
  ordered := fun {α} key l => by
    have : Std.Total (fun a b : α => key a ≤ key b) := ⟨fun a b => Nat.le_total (key a) (key b)⟩
    have : IsTrans α (fun a b => key a ≤ key b) := ⟨fun _ _ _ => Nat.le_trans⟩
    exact l.pairwise_insertionSort _

section
variable [LinearOrder α]

/-- `slices.BinarySearch` on an ascending slice: the insertion point, and whether the
element stands there. -/
def binarySearch (l : List α) (x : α) : Nat × Bool :=
  let pos := (l.takeWhile (· < x)).length
  (pos,l[pos]? == some x)

/-- `slices.Insert` of one element. -/
def insertAt (l : List α) (pos : Nat) (x : α) : List α := l.take pos ++ x :: l.drop pos

/-- `slices.Compact`. -/
def compact : List α → List α
  | [] => []
  | [a] => [a]
  | a :: b :: rest => if a = b then compact (b :: rest) else a :: compact (b :: rest)

/-- `slices.Sort`. -/
def sort (l : List α) : List α := l.insertionSort (· ≤ ·)

def unionWithin : Nat → List α → List α → List α
  | 0, a, b => a ++ b
  | _, [], b => b
  | _, a, [] => a
  | fuel+1, x :: a, y :: b =>
    if x < y then x :: unionWithin fuel a (y :: b)
    else if y < x then y :: unionWithin fuel (x :: a) b
    else x :: unionWithin fuel a b

def unionSorted (a b : List α) : List α := unionWithin (a.length+b.length) a b

def intersectWithin : Nat → List α → List α → List α
  | 0, _, _ => []
  | _, [], _ => []
  | _, _, [] => []
  | fuel+1, x :: a, y :: b =>
    if x < y then intersectWithin fuel a (y :: b)
    else if y < x then intersectWithin fuel (x :: a) b
    else x :: intersectWithin fuel a b

/-- Each element of the short list is searched in what is left of the long one. -/
def gallop : List α → List α → List α
  | [], _ => []
  | x :: a, b =>
    let found := binarySearch b x
    if found.2 then x :: gallop a (b.drop found.1) else gallop a (b.drop found.1)

def intersectSorted (a b : List α) : List α :=
  let short := if a.length > b.length then b else a
  let long := if a.length > b.length then a else b
  if short.length*32 < long.length then gallop short long
  else intersectWithin (short.length+long.length) short long

variable (l : List α)

theorem take_insertion (x : α) : l.take (l.takeWhile (· < x)).length = l.takeWhile (· < x) :=
  (prefix_iff_eq_take.mp ( takeWhile_prefix _)).symm

theorem drop_insertion (x : α) : l.drop (l.takeWhile (· < x)).length = l.dropWhile (· < x) := by
  have split := take_append_drop (l.takeWhile (· < x)).length l
  rw [take_insertion] at split
  exact append_cancel_left (split.trans takeWhile_append_dropWhile.symm)

theorem le_of_mem_dropWhile (ascending : Ascending l) (member : y ∈ l.dropWhile (· < x)) : x ≤ y := by
  induction l with
  | nil => simp at member
  | cons a _ ih =>
    obtain ⟨first,tail⟩ := pairwise_cons.mp ascending
    by_cases below : a < x
    · exact ih tail (by simpa [dropWhile_cons,below] using member)
    · simp only [dropWhile_cons,below,decide_false,Bool.false_eq_true,if_false,mem_cons] at member
      rcases member with rfl | later
      · exact not_lt.mp below
      · exact (not_lt.mp below).trans (first y later).le

theorem mem_dropWhile_of_le (member : y ∈ l) (above : x ≤ y) : y ∈ l.dropWhile (· < x) := by
  rw [← takeWhile_append_dropWhile (p := (· < x)) (l := l)] at member
  rcases mem_append.mp member with taken | dropped
  · have below : y < x := by simpa using mem_takeWhile_imp taken
    exact absurd above (not_le.mpr below)
  · exact dropped

theorem binarySearch_found (x : α) (ascending : Ascending l) : (binarySearch l x).2 = true ↔ x ∈ l := by
  have head : l[(l.takeWhile (· < x)).length]? = (l.dropWhile (· < x)).head? := by rw [← drop_insertion,head?_drop]
  simp only [binarySearch,head,beq_iff_eq]
  constructor
  · intro first
    exact (dropWhile_sublist _).subset (mem_of_mem_head? first)
  · intro member
    have dropped := mem_dropWhile_of_le l member le_rfl
    have tail : Ascending (l.dropWhile (· < x)) := ascending.sublist (dropWhile_sublist _)
    cases shape : l.dropWhile (· < x) with
    | nil => simp [shape] at dropped
    | cons b _ =>
      rw [shape] at dropped tail
      rcases mem_cons.mp dropped with rfl | later
      · rfl
      · have lower : x ≤ b := le_of_mem_dropWhile l ascending (by simp [shape])
        have upper : b < x := (pairwise_cons.mp tail).1 x later
        exact absurd lower (not_le.mpr upper)

section
variable (l : List α)

omit [LinearOrder α] in
theorem mem_insertAt (pos : Nat) (x y : α) : y ∈ insertAt l pos x ↔ y = x ∨ y ∈ l := by
  conv_rhs => rw [← take_append_drop pos l]
  simp only [insertAt,mem_append,mem_cons]
  tauto

theorem insertAt_ascending (x : α) (ascending : Ascending l) (absent : x ∉ l) :
    Ascending (insertAt l (binarySearch l x).1 x) := by
  simp only [insertAt,binarySearch,take_insertion,drop_insertion]
  refine pairwise_append.mpr ⟨ascending.sublist (takeWhile_sublist _),
    pairwise_cons.mpr ⟨?_,ascending.sublist (dropWhile_sublist _)⟩,?_⟩
  · intro _ later
    have bound := le_of_mem_dropWhile l ascending later
    exact lt_of_le_of_ne bound (fun same => absent (same ▸ (dropWhile_sublist _).subset later))
  · intro a before _ after
    have below : a < x := by simpa using mem_takeWhile_imp before
    rcases mem_cons.mp after with rfl | later
    · exact below
    · exact below.trans_le (le_of_mem_dropWhile l ascending later)

theorem mem_compact (x : α) : x ∈ compact l ↔ x ∈ l := by
  induction l using compact.induct with
  | case1 | case2 => simp [compact]
  | case3 b rest ih => simp [compact,ih]
  | case4 _ _ _ different ih => simp only [compact,different,if_false,mem_cons,ih]

theorem compact_ascending (sorted : l.Pairwise (· ≤ ·)) : Ascending (compact l) := by
  induction l using compact.induct with
  | case1 | case2 => simp [compact]
  | case3 b rest ih => simpa [compact] using ih (pairwise_cons.mp sorted).2
  | case4 a b rest different ih =>
    obtain ⟨first,tail⟩ := pairwise_cons.mp sorted
    simp only [compact,different,if_false]
    refine pairwise_cons.mpr ⟨?_,ih tail⟩
    intro y member
    have above : a < b := lt_of_le_of_ne (first b (by simp)) different
    rcases mem_cons.mp ((mem_compact (b :: rest) y).mp member) with rfl | later
    · exact above
    · exact above.trans_le ((pairwise_cons.mp tail).1 y later)

theorem sort_pairwise : (sort l).Pairwise (· ≤ ·) := l.pairwise_insertionSort _

@[simp] theorem mem_sort (x : α) : x ∈ sort l ↔ x ∈ l := mem_insertionSort _

theorem sort_compact : Ascending (compact (sort l)) ∧ ∀ x, x ∈ compact (sort l) ↔ x ∈ l :=
  ⟨compact_ascending _ (sort_pairwise l),fun _ => by rw [mem_compact,mem_sort]⟩

end

variable (fuel : Nat)

theorem mem_unionWithin {a b : List α} (x : α) (enough : a.length+b.length ≤ fuel) :
    x ∈ unionWithin fuel a b ↔ x ∈ a ∨ x ∈ b := by
  fun_induction unionWithin fuel a b with
  | case1 | case2 | case3 => simp
  | case4 _ _ _ _ _ _ ih | case5 _ _ _ _ _ _ _ ih =>
    rw [mem_cons,ih (by simp only [length_cons] at enough ⊢; omega)]
    simp only [mem_cons]
    tauto
  | case6 _ _ _ _ _ notLess notGreater ih =>
    have equal := le_antisymm (not_lt.mp notGreater) (not_lt.mp notLess)
    rw [mem_cons,ih (by simp only [length_cons] at enough ⊢; omega)]
    simp only [mem_cons,equal]
    tauto

variable (a b : List α)

theorem mem_unionSorted (x : α) : x ∈ unionSorted a b ↔ x ∈ a ∨ x ∈ b :=
  mem_unionWithin _ x le_rfl

theorem unionWithin_ascending {a b : List α} (enough : a.length+b.length ≤ fuel)
    (ha : Ascending a) (hb : Ascending b) : Ascending (unionWithin fuel a b) := by
  fun_induction unionWithin fuel a b with
  | case1 a b =>
    have empty : a = [] := length_eq_zero_iff.mp (by omega)
    simpa [empty] using hb
  | case2 => exact hb
  | case3 => exact ha
  | case4 fuel y a z b less ih =>
    obtain ⟨ya,sa⟩ := pairwise_cons.mp ha
    have room : a.length+(z :: b).length ≤ fuel := by simp only [length_cons] at enough ⊢; omega
    refine pairwise_cons.mpr ⟨fun w member => ?_,ih room sa hb⟩
    rcases (mem_unionWithin fuel w room).mp member with left | right
    · exact ya w left
    · rcases mem_cons.mp right with rfl | later
      · exact less
      · exact less.trans ((pairwise_cons.mp hb).1 w later)
  | case5 fuel y a z b _ greater ih =>
    obtain ⟨zb,sb⟩ := pairwise_cons.mp hb
    have room : (y :: a).length+b.length ≤ fuel := by simp only [length_cons] at enough ⊢; omega
    refine pairwise_cons.mpr ⟨fun w member => ?_,ih room ha sb⟩
    rcases (mem_unionWithin fuel w room).mp member with left | right
    · rcases mem_cons.mp left with rfl | later
      · exact greater
      · exact greater.trans ((pairwise_cons.mp ha).1 w later)
    · exact zb w right
  | case6 fuel _ a _ b _ notGreater ih =>
    obtain ⟨ya,sa⟩ := pairwise_cons.mp ha
    obtain ⟨zb,sb⟩ := pairwise_cons.mp hb
    have room : a.length+b.length ≤ fuel := by simp only [length_cons] at enough; omega
    refine pairwise_cons.mpr ⟨fun w member => ?_,ih room sa sb⟩
    rcases (mem_unionWithin fuel w room).mp member with left | right
    · exact ya w left
    · exact (not_lt.mp notGreater).trans_lt (zb w right)

theorem unionSorted_ascending (ha : Ascending a) (hb : Ascending b) :
    Ascending (unionSorted a b) := unionWithin_ascending _ le_rfl ha hb

theorem intersectWithin_sublist (a b : List α) : (intersectWithin fuel a b).Sublist a := by
  fun_induction intersectWithin fuel a b with
  | case1 | case2 | case3 => exact nil_sublist _
  | case4 fuel y a z b _ ih => exact ih.trans (sublist_cons_self y a)
  | case5 fuel y a z b _ _ ih => exact ih
  | case6 _ y _ _ _ _ _ ih => exact ih.cons_cons y

theorem mem_intersectWithin {a b : List α} (x : α) (enough : a.length+b.length ≤ fuel)
    (ha : Ascending a) (hb : Ascending b) : x ∈ intersectWithin fuel a b ↔ x ∈ a ∧ x ∈ b := by
  fun_induction intersectWithin fuel a b with
  | case1 a b =>
    have empty : a = [] := length_eq_zero_iff.mp (by omega)
    simp [empty]
  | case2 | case3 => simp
  | case4 fuel y a z b less ih =>
    rw [ih (by simp only [length_cons] at enough ⊢; omega) (pairwise_cons.mp ha).2 hb,mem_cons,mem_cons]
    have apart : x = y → x ≠ z ∧ x ∉ b := by
      rintro rfl
      exact ⟨less.ne,fun h => absurd ((pairwise_cons.mp hb).1 x h) (not_lt.mpr less.le)⟩
    tauto
  | case5 fuel y a z b _ greater ih =>
    rw [ih (by simp only [length_cons] at enough ⊢; omega) ha (pairwise_cons.mp hb).2,mem_cons,mem_cons]
    have apart : x = z → x ≠ y ∧ x ∉ a := by
      rintro rfl
      exact ⟨greater.ne,fun h => absurd ((pairwise_cons.mp ha).1 x h) (not_lt.mpr greater.le)⟩
    tauto
  | case6 _ _ _ _ _ notLess notGreater ih =>
    have equal := le_antisymm (not_lt.mp notGreater) (not_lt.mp notLess)
    rw [mem_cons,ih (by simp only [length_cons] at enough; omega) (pairwise_cons.mp ha).2
      (pairwise_cons.mp hb).2,mem_cons,mem_cons,equal]
    tauto

theorem gallop_sublist : (gallop a b).Sublist a := by
  induction a generalizing b with
  | nil => simp [gallop]
  | cons y a ih =>
    simp only [gallop]
    split
    · exact (ih _).cons_cons y
    · exact (ih _).trans (sublist_cons_self y a)

theorem mem_gallop (x : α) (ha : Ascending a) (hb : Ascending b) : x ∈ gallop a b ↔ x ∈ a ∧ x ∈ b := by
  induction a generalizing b with
  | nil => simp [gallop]
  | cons y a ih =>
    obtain ⟨ya,sa⟩ := pairwise_cons.mp ha
    have left : Ascending (b.drop (binarySearch b y).1) := hb.sublist (drop_sublist _ _)
    -- what the search skips is below `y`, hence below everything still to be looked up
    have kept : x ∈ a → (x ∈ b.drop (binarySearch b y).1 ↔ x ∈ b) := by
      intro member
      constructor
      · exact fun h => (drop_sublist _ _).subset h
      · intro h
        simp only [binarySearch,drop_insertion]
        exact mem_dropWhile_of_le b h (ya x member).le
    simp only [gallop]
    by_cases found : (binarySearch b y).2 = true
    · have here : y ∈ b := (binarySearch_found b y hb).mp found
      simp only [found,if_true,mem_cons,ih _ sa left]
      constructor
      · rintro (rfl | ⟨member,inside⟩)
        · exact ⟨.inl rfl,here⟩
        · exact ⟨.inr member,(kept member).mp inside⟩
      · rintro ⟨rfl | member,inside⟩
        · exact .inl rfl
        · exact .inr ⟨member,(kept member).mpr inside⟩
    · have missing : y ∉ b := fun h => found ((binarySearch_found b y hb).mpr h)
      rw [if_neg found,ih _ sa left,mem_cons]
      constructor
      · rintro ⟨member,inside⟩
        exact ⟨.inr member,(kept member).mp inside⟩
      · rintro ⟨rfl | member,inside⟩
        · exact absurd inside missing
        · exact ⟨member,(kept member).mpr inside⟩

theorem mem_intersectSorted (x : α) (ha : Ascending a) (hb : Ascending b) :
    x ∈ intersectSorted a b ↔ x ∈ a ∧ x ∈ b := by
  simp only [intersectSorted]
  by_cases swap : a.length > b.length
  · simp only [swap,if_true]
    split
    · rw [mem_gallop b a x hb ha]; tauto
    · rw [mem_intersectWithin _ x le_rfl hb ha]; tauto
  · simp only [swap,if_false]
    split
    · exact mem_gallop a b x ha hb
    · exact mem_intersectWithin _ x le_rfl ha hb

theorem intersectSorted_subset (member : x ∈ intersectSorted a b) : x ∈ a ∨ x ∈ b := by
  simp only [intersectSorted] at member
  by_cases swap : a.length > b.length
  · simp only [swap,if_true] at member
    split at member
    · exact .inr ((gallop_sublist b a).subset member)
    · exact .inr ((intersectWithin_sublist _ b a).subset member)
  · simp only [swap,if_false] at member
    split at member
    · exact .inl ((gallop_sublist a b).subset member)
    · exact .inl ((intersectWithin_sublist _ a b).subset member)

theorem intersectSorted_ascending (ha : Ascending a) (hb : Ascending b) : Ascending (intersectSorted a b) := by
  simp only [intersectSorted]
  by_cases swap : a.length > b.length
  · simp only [swap,if_true]
    split
    · exact hb.sublist (gallop_sublist b a)
    · exact hb.sublist (intersectWithin_sublist _ b a)
  · simp only [swap,if_false]
    split
    · exact ha.sublist (gallop_sublist a b)
    · exact ha.sublist (intersectWithin_sublist _ a b)

end

end ENode.SortedLists
