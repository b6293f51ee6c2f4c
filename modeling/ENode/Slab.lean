import Mathlib

/-! Records found by their position in a list: chains of positions linked by a `next`
function, and the dense renumbering that drops unused positions. -/
namespace ENode.Slab
open List

/-- The positions reached from a start by following `next`, at most `fuel` of them. -/
def follow (next : Nat → Option Nat) : Nat → Option Nat → List Nat
  | 0, _ => []
  | _+1, none => []
  | fuel+1, some i => i :: follow next fuel (next i)

/-- The positions from a start to the end of its chain. -/
inductive Linked (next : Nat → Option Nat) : Option Nat → List Nat → Prop
  | nil : Linked next none []
  | cons (i : Nat) (rest : List Nat) : Linked next (next i) rest → Linked next (some i) (i :: rest)

namespace Linked

variable {next : Nat → Option Nat} {start : Option Nat} {l : List Nat}

section
variable (linked : Linked next start l)
include linked

theorem unique (other : Linked next start l') : l = l' := by
  induction linked generalizing l' with
  | nil => cases other; rfl
  | cons _ _ _ ih =>
    cases other with
    | cons _ _ tail => rw [ih tail]

theorem head : l.head? = start := by
  cases linked <;> rfl

theorem suffix (member : i ∈ l) : ∃ tail, (i :: tail) <:+ l ∧ Linked next (next i) tail := by
  induction linked with
  | nil => cases member
  | cons j rest linked ih =>
    rcases mem_cons.mp member with rfl | later
    · exact ⟨rest,suffix_refl _,linked⟩
    · obtain ⟨tail,within,tailLinked⟩ := ih later
      exact ⟨tail,within.trans (suffix_cons j rest),tailLinked⟩

theorem nodup : l.Nodup := by
  induction linked with
  | nil => exact nodup_nil
  | cons _ _ linked ih =>
    refine nodup_cons.mpr ⟨fun again => ?_,ih⟩
    obtain ⟨_,within,tailLinked⟩ := linked.suffix again
    have same := tailLinked.unique linked
    have shorter := within.length_le
    simp only [same,length_cons] at shorter
    omega

theorem congr (agree : ∀ i ∈ l, next' i = next i) : Linked next' start l := by
  induction linked with
  | nil => exact .nil
  | cons i rest _ ih =>
    refine .cons i rest ?_
    rw [agree i (by simp)]
    exact ih (fun j member => agree j (.tail _ member))

theorem follow_eq (fuel : Nat) (enough : l.length ≤ fuel) : follow next fuel start = l := by
  induction linked generalizing fuel with
  | nil => cases fuel <;> rfl
  | cons _ _ _ ih =>
    obtain ⟨fuel,rfl⟩ : ∃ n, fuel = n + 1 := ⟨fuel - 1,by simp at enough; omega⟩
    rw [follow,ih fuel (by simpa using enough)]

theorem concat (isLast : l.getLast? = some last) (link : next' last = some i) (ends : next' i = none)
    (agree : ∀ j ∈ l, j ≠ last → next' j = next j) : Linked next' start (l ++ [i]) := by
  induction linked with
  | nil => cases isLast
  | cons j rest linked ih =>
    refine .cons j (rest ++ [i]) ?_
    cases rest with
    | nil =>
      obtain rfl : j = last := by simpa using isLast
      rw [link]
      exact .cons i [] (by rw [ends]; exact .nil)
    | cons k more =>
      have lastLater : (k :: more).getLast? = some last := by simpa using isLast
      have repeated : j ≠ last := by
        rintro rfl
        have distinct := (Linked.cons j (k :: more) linked).nodup
        exact (nodup_cons.mp distinct).1 (mem_of_getLast? lastLater)
      rw [agree j (by simp) repeated]
      exact ih lastLater (fun m member => agree m (.tail _ member))

theorem exists_prev (member : i ∈ l) (notFirst : start ≠ some i) : ∃ prev ∈ l, next prev = some i := by
  induction linked with
  | nil => cases member
  | cons j _ _ ih =>
    rcases mem_cons.mp member with rfl | later
    · exact absurd rfl notFirst
    · by_cases second : next j = some i
      · exact ⟨j,by simp,second⟩
      · obtain ⟨prev,within,link⟩ := ih later second
        exact ⟨prev,.tail _ within,link⟩

/-- Bypassing a position that is not the first. -/
theorem bypass {prev i : Nat} (member : i ∈ l) (notFirst : start ≠ some i)
    (within : prev ∈ l) (link : next prev = some i) (bypassed : next' prev = next i)
    (agree : ∀ j ∈ l, j ≠ prev → j ≠ i → next' j = next j) : Linked next' start (l.erase i) := by
  induction linked with
  | nil => cases member
  | cons j rest linked ih =>
    have distinct := (Linked.cons j rest linked).nodup
    have apart : j ≠ i := fun same => notFirst (congrArg some same)
    rw [erase_cons_tail (by simpa using apart)]
    refine .cons j _ ?_
    have later : i ∈ rest := (mem_cons.mp member).resolve_left (Ne.symm apart)
    by_cases here : j = prev
    · subst here
      rw [bypassed]
      rw [link] at linked
      cases linked with
      | cons _ tail tailLinked =>
        rw [erase_cons_head]
        have fresh := (nodup_cons.mp distinct).1
        have tailFresh := (nodup_cons.mp (nodup_cons.mp distinct).2).1
        refine tailLinked.congr (fun m inTail => agree m (by simp [inTail]) ?_ ?_)
        · rintro rfl; exact fresh (.tail _ inTail)
        · rintro rfl; exact tailFresh inTail
    · have prevLater : prev ∈ rest := (mem_cons.mp within).resolve_left (Ne.symm here)
      rw [agree j (by simp) here apart]
      by_cases second : next j = some i
      · -- two positions cannot link to `i`
        rw [second] at linked
        cases linked with
        | cons _ tail tailLinked =>
          have whole : Linked next (some i) (i :: tail) := .cons i tail tailLinked
          obtain ⟨_,within,afterLinked⟩ := whole.suffix prevLater
          rw [link] at afterLinked
          have same := afterLinked.unique whole
          have shorter := within.length_le
          simp only [same,length_cons] at shorter
          omega
      · exact ih later second prevLater (fun m member => agree m (.tail _ member))

theorem map (f : Nat → Nat) (agree : ∀ i ∈ l, next' (f i) = (next i).map f) :
    Linked next' (start.map f) (l.map f) := by
  induction linked with
  | nil => exact .nil
  | cons i rest _ ih =>
    refine .cons (f i) (rest.map f) ?_
    rw [agree i (by simp)]
    exact ih (fun j member => agree j (.tail _ member))

end

end Linked

section
variable {α : Type} (p : α → Bool)

/-- The position of an element among those that are kept. -/
def rank (l : List α) (i : Nat) : Nat := (l.take i).countP p

variable (l : List α)

theorem getElem?_filter_rank (i : Nat) (a : α) (atIndex : l[i]? = some a) (kept : p a = true) :
    (l.filter p)[rank p l i]? = some a := by
  induction l generalizing i with
  | nil => cases atIndex
  | cons b _ ih =>
    cases i with
    | zero =>
      obtain rfl : b = a := by simpa using atIndex
      simp [rank,kept]
    | succ i =>
      have later := ih i (by simpa using atIndex)
      by_cases first : p b = true
      · simpa [rank,first] using later
      · simpa [rank,first] using later

theorem rank_lt (i j : Nat) (a : α) (atIndex : l[i]? = some a) (kept : p a = true) (less : i < j) :
    rank p l i < rank p l j := by
  have longer : (l.take (i+1)).countP p ≤ (l.take j).countP p :=
    (take_prefix_take_left (l := l) less).sublist.countP_le
  have counted : (l.take (i+1)).countP p = (l.take i).countP p + 1 := by
    rw [take_add_one,atIndex,countP_append]
    simp [kept]
  unfold rank
  omega

theorem rank_injective (i j : Nat) (a b : α) (ha : l[i]? = some a) (hb : l[j]? = some b)
    (keptA : p a = true) (keptB : p b = true) (same : rank p l i = rank p l j) : i = j := by
  rcases Nat.lt_trichotomy i j with less | equal | more
  · have := rank_lt p l i j a ha keptA less
    omega
  · exact equal
  · have := rank_lt p l j i b hb keptB more
    omega

theorem exists_rank (n : Nat) (a : α) (atIndex : (l.filter p)[n]? = some a) :
    ∃ i, l[i]? = some a ∧ p a = true ∧ rank p l i = n := by
  induction l generalizing n with
  | nil => cases atIndex
  | cons b _ ih =>
    by_cases first : p b = true
    · rw [filter_cons_of_pos first] at atIndex
      cases n with
      | zero =>
        obtain rfl : b = a := by simpa using atIndex
        exact ⟨0,rfl,first,rfl⟩
      | succ n =>
        obtain ⟨i,found,kept,position⟩ := ih n (by simpa using atIndex)
        exact ⟨i+1,by simpa using found,kept,by simpa [rank,first] using position⟩
    · rw [filter_cons_of_neg first] at atIndex
      obtain ⟨i,found,kept,position⟩ := ih n atIndex
      exact ⟨i+1,by simpa using found,kept,by simpa [rank,first] using position⟩

theorem getD_concat (d : α) (j : Nat) : (l ++ [d]).getD j d = l.getD j d := by
  simp only [getD_eq_getElem?_getD,getElem?_append]
  split
  · rfl
  next outside =>
    rw [getElem?_eq_none (Nat.le_of_not_lt outside),getElem?_singleton]
    split <;> rfl

theorem getD_modify (i j : Nat) (f : α → α) (d : α) (bound : i < l.length) :
    (l.modify i f).getD j d = if j = i then f (l.getD i d) else l.getD j d := by
  simp only [getD_eq_getElem?_getD,getElem?_modify]
  by_cases same : j = i
  · subst same
    simp [getElem?_eq_getElem bound]
  · simp only [if_neg same,if_neg (Ne.symm same)]
    cases l[j]? <;> rfl

end

end ENode.Slab
