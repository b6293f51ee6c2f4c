import Mathlib

/-! A map that forgets what was least recently used: a list of entries with different keys, the
most recently used in front. What has to go goes from the back, until nothing exceeds the limits. -/
namespace ENode.Lru
open List

section
variable {α K : Type} [DecidableEq K] (key : α → K) (weight : α → Int)

def total (l : List α) : Int := (l.map weight).sum

def without (l : List α) (k : K) : List α := l.filter (fun e => key e ≠ k)

/-- Drops from the back, as many times as it takes and at most as often as allowed. -/
def shrink (exceeds : Nat → Int → Bool) : Nat → List α → List α
  | 0, l => l
  | fuel+1, l => if exceeds l.length (total weight l) then shrink exceeds fuel l.dropLast else l

def trim (exceeds : Nat → Int → Bool) (l : List α) : List α := shrink weight exceeds l.length l

theorem shrink_isPrefix (exceeds : Nat → Int → Bool) (fuel : Nat) (l : List α) : shrink weight exceeds fuel l <+: l := by
  induction fuel generalizing l with
  | zero => exact prefix_refl l
  | succ _ ih =>
    unfold shrink
    split_ifs with isOver
    · exact (ih l.dropLast).trans ( dropLast_prefix l)
    · exact prefix_refl l

theorem shrink_fits {exceeds : Nat → Int → Bool} (fits : exceeds 0 0 = false) (fuel : Nat) (l : List α) (enough : l.length ≤ fuel) :
    exceeds (shrink weight exceeds fuel l).length (total weight (shrink weight exceeds fuel l)) = false := by
  induction fuel generalizing l with
  | zero =>
    rw [length_eq_zero_iff.mp (Nat.le_zero.mp enough)]
    exact fits
  | succ _ ih =>
    unfold shrink
    split_ifs with isOver
    · exact ih l.dropLast (by rw [length_dropLast]; omega)
    · exact Bool.eq_false_iff.mpr isOver

theorem trim_isPrefix (exceeds : Nat → Int → Bool) (l : List α) : trim weight exceeds l <+: l := shrink_isPrefix ..

theorem trim_fits {exceeds : Nat → Int → Bool} (fits : exceeds 0 0 = false) (l : List α) :
    exceeds (trim weight exceeds l).length (total weight (trim weight exceeds l)) = false :=
  shrink_fits weight fits _ l (le_refl _)

variable {key}

theorem without_sublist (l : List α) (k : K) : (without key l k).Sublist l := filter_sublist

theorem not_mem_without (l : List α) (k : K) : k ∉ (without key l k).map key := by
  simp [without]

variable {l : List α}

theorem keys_cons (distinct : (l.map key).Nodup) (e : α) : ((e :: without key l (key e)).map key).Nodup :=
  nodup_cons.mpr ⟨not_mem_without l (key e),((without_sublist l (key e)).map key).nodup distinct⟩

theorem without_eq_erase [DecidableEq α] (distinct : (l.map key).Nodup) (member : e ∈ l) :
    without key l (key e) = l.erase e := by
  have nodup : l.Nodup := List.Nodup.of_map key distinct
  rw [nodup.erase_eq_filter]
  refine filter_congr fun a inside => ?_
  have same : key a = key e ↔ a = e := ⟨fun eq => inj_on_of_nodup_map distinct inside member eq,fun eq => by rw [eq]⟩
  rw [bne,decide_not,decide_eq_decide.mpr same]
  rfl

theorem total_without (distinct : (l.map key).Nodup) (member : e ∈ l) :
    total weight (without key l (key e)) = total weight l - weight e := by
  classical
  rw [without_eq_erase distinct member]
  have split := (perm_cons_erase member).map weight
  have sums := split.sum_eq
  rw [map_cons,sum_cons] at sums
  unfold total
  omega

variable (key) in
/-- An entry is used more recently than everything behind it. -/
def Recent (used : K → Nat) (l : List α) : Prop := l.Pairwise fun a b => used (key b) < used (key a)

omit [DecidableEq K] in
theorem Recent.sublist {l l' : List α} (recent : Recent key used l) (sub : l'.Sublist l) :
    Recent key used l' := List.Pairwise.sublist sub recent

theorem Recent.front (recent : Recent key used l) (past : ∀ k, used k < now) (e : α) :
    Recent key (Function.update used (key e) now) (e :: without key l (key e)) := by
  refine pairwise_cons.mpr ⟨fun a inside => ?_,?_⟩
  · have other : key a ≠ key e := by simpa [without] using (mem_filter.mp inside).2
    rw [Function.update_self,Function.update_of_ne other]
    exact past _
  · refine (recent.sublist (without_sublist l (key e))).imp_of_mem fun {a b} inA inB before => ?_
    have otherA : key a ≠ key e := by simpa [without] using (mem_filter.mp inA).2
    have otherB : key b ≠ key e := by simpa [without] using (mem_filter.mp inB).2
    rwa [Function.update_of_ne otherA,Function.update_of_ne otherB]

omit [DecidableEq K] in
theorem Recent.dropped (recent : Recent key used l) (front : l' <+: l)
    (inside : a ∈ l) (gone : a ∉ l') (stays : b ∈ l') : used (key a) < used (key b) := by
  obtain ⟨_,rfl⟩ := front
  have behind := (mem_append.mp inside).resolve_left gone
  exact (pairwise_append.mp recent).2.2 b stays a behind

end

end ENode.Lru
