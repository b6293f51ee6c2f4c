import ENode.GoText

/-! The runes of a piece of a string. A string cut between two runes has the runes of both parts, so
trimming it leaves the rune it then begins with. -/
namespace ENode.GoText
open List

theorem decodeRune_pos (s : Bytes) : 0 < (decodeRune s).2 := by
  unfold decodeRune
  split
  · exact Char.utf8Size_pos _
  · exact Nat.one_pos

theorem runesWithin_enough (fuel : Nat) (s : Bytes) (enough : s.length ≤ fuel) : runesWithin fuel s = runes s := by
  suffices ∀ n fuel (s : Bytes), s.length ≤ n → s.length ≤ fuel → runesWithin fuel s = runesWithin n s from
    this s.length fuel s (le_refl _) enough
  intro n
  induction n with
  | zero =>
    intro fuel s none_ _
    rw [length_eq_zero_iff.mp (Nat.le_zero.mp none_)]
    cases fuel <;> rfl
  | succ _ ih =>
    intro fuel s bound enough
    cases s with
    | nil => cases fuel <;> rfl
    | cons b s =>
      cases fuel with
      | zero => cases enough
      | succ fuel =>
        have width := decodeRune_pos (b :: s)
        have shorter : ((b :: s).drop (decodeRune (b :: s)).2).length ≤ s.length := by
          rw [length_drop,length_cons]
          omega
        rw [length_cons] at bound enough
        simp only [runesWithin]
        rw [ih fuel _ (by omega) (by omega)]

theorem runes_cons (occupied : s ≠ []) :
    runes s = ((decodeRune s).1,s.take (decodeRune s).2) :: runes (s.drop (decodeRune s).2) := by
  cases s with
  | nil => exact absurd rfl occupied
  | cons b s =>
    have width := decodeRune_pos (b :: s)
    have rest := runesWithin_enough s.length ((b :: s).drop (decodeRune (b :: s)).2) (by
      rw [length_drop,length_cons]
      omega)
    rw [← rest]
    rfl

/-- Strings by their first rune. -/
theorem rune_induction {motive : Bytes → Prop} (nil : motive [])
    (rune : ∀ s, s ≠ [] → motive (s.drop (decodeRune s).2) → motive s) (s : Bytes) : motive s := by
  induction length : s.length using Nat.strongRecOn generalizing s with
  | ind _ ih =>
    cases s with
    | nil => exact nil
    | cons b s =>
      have width := decodeRune_pos (b :: s)
      refine rune _ (cons_ne_nil b s) (ih _ ?_ _ rfl)
      rw [← length,length_drop,length_cons]
      omega

theorem joinRaw_runes (s : Bytes) : joinRaw (runes s) = s := by
  induction s using rune_induction with
  | nil => rfl
  | rune s occupied ih =>
    rw [runes_cons occupied]
    show s.take (decodeRune s).2 ++ joinRaw (runes (s.drop (decodeRune s).2)) = s
    rw [ih,take_append_drop]

theorem runes_of_append (a b : List (Char × Bytes)) (s : Bytes) (shape : runes s = a ++ b) : runes (joinRaw b) = b := by
  induction a generalizing s with
  | nil => rw [nil_append] at shape; rw [← shape,joinRaw_runes]
  | cons _ _ ih =>
    have occupied : s ≠ [] := by
      rintro rfl
      cases shape
    rw [runes_cons occupied] at shape
    exact ih _ (List.cons.inj shape).2

/-- The first rune does not change when bytes after it are cut off. -/
theorem decodeRune_append (s t : Bytes) (within : (decodeRune (s ++ t)).2 ≤ s.length) :
    decodeRune s = decodeRune (s ++ t) := by
  unfold decodeRune at within ⊢
  cases short : s.toByteArray.utf8DecodeChar? 0 with
  | some c => rw [toByteArray_append,ByteArray.utf8DecodeChar?_append_eq_some short]
  | none =>
    cases long : (s ++ t).toByteArray.utf8DecodeChar? 0 with
    | none => rfl
    | some c =>
      -- the encoding found is within the part kept
      rw [long] at within
      obtain ⟨rest,whole⟩ := ByteArray.exists_of_utf8DecodeChar?_eq_some long
      have bytes : s ++ t = String.utf8EncodeChar c ++ rest.data.toList := by
        have data := congrArg (fun b : ByteArray => b.data.toList) whole
        simpa using data
      have begins : String.utf8EncodeChar c <+: s := by
        refine prefix_of_prefix_length_le ⟨_,bytes.symm⟩ (prefix_append s t) ?_
        rw [String.length_utf8EncodeChar]
        exact within
      obtain ⟨_,rfl⟩ := begins
      rw [toByteArray_append,ByteArray.utf8DecodeChar?_utf8EncodeChar_append] at short
      cases short

theorem decodeRune_le (occupied : s ≠ []) : (decodeRune s).2 ≤ s.length := by
  unfold decodeRune
  split
  next c found =>
    have size := ByteArray.le_size_of_utf8DecodeChar?_eq_some found
    simpa using size
  · exact length_pos_iff.mpr occupied

theorem dropWhile_head (p : α → Bool) (l : List α) (a : α) (rest : List α)
    (shape : l.dropWhile p = a :: rest) : p a = false := by
  have head := head_dropWhile_not p (l := l) (by simp [shape])
  simpa [shape] using head

variable (u : Unicode)

theorem fields_ne_nil (occupied : s ≠ []) (solid : u.isSpace (decodeRune s).1 = false) : fields u s ≠ [] := by
  have first := runes_cons occupied
  have piece : [((decodeRune s).1,s.take (decodeRune s).2)] <:+: runes s := by
    rw [first]
    exact (prefix_append ..).isInfix
  obtain ⟨_,isRun,_⟩ := infix_maximalRuns (fun r => !u.isSpace r.1) (runes s) _ (by simp) (by simp [solid]) piece
  rw [fields,Ne,map_eq_nil_iff]
  exact ne_nil_of_mem isRun

theorem decodeRune_kept (occupied : s ≠ [])
    (shape : runes (s ++ t) = r :: rest) (within : r.2.length ≤ s.length) : (decodeRune s).1 = r.1 := by
  have some_ : s ++ t ≠ [] := fun none_ => occupied (append_eq_nil_iff.mp none_).1
  rw [runes_cons some_] at shape
  obtain ⟨first,_⟩ := List.cons.inj shape
  have width : r.2.length = (decodeRune (s ++ t)).2 := by
    rw [← first,length_take]
    exact min_eq_left (decodeRune_le some_)
  rw [decodeRune_append s t (by omega),← first]

/-- What is left of a trimmed string has a field. -/
theorem fields_trimSpace (left : trimSpace u s ≠ []) : fields u (trimSpace u s) ≠ [] := by
  obtain ⟨lead,split⟩ : ∃ lead, runes s = lead ++ (runes s).dropWhile (fun r => u.isSpace r.1) :=
    ⟨_,(takeWhile_append_dropWhile).symm⟩
  unfold trimSpace at left ⊢
  generalize body : (runes s).dropWhile (fun r => u.isSpace r.1) = rest at left split ⊢
  have reread := runes_of_append lead rest s split
  obtain ⟨tail,cut⟩ : ∃ tail, rest = (rest.reverse.dropWhile (fun r => u.isSpace r.1)).reverse ++ tail := by
    refine ⟨(rest.reverse.takeWhile (fun r => u.isSpace r.1)).reverse,?_⟩
    rw [← reverse_append,takeWhile_append_dropWhile,reverse_reverse]
  generalize (rest.reverse.dropWhile (fun r => u.isSpace r.1)).reverse = kept at left cut ⊢
  cases kept with
  | nil => exact absurd rfl left
  | cons r kept =>
    have solid : u.isSpace r.1 = false :=
      dropWhile_head (fun r => u.isSpace r.1) (runes s) r (kept ++ tail) (body.trans cut)
    have joined : joinRaw (r :: kept ++ tail) = joinRaw (r :: kept) ++ joinRaw tail := flatMap_append
    have within : r.2.length ≤ (joinRaw (r :: kept)).length := by
      rw [show joinRaw (r :: kept) = r.2 ++ joinRaw kept from rfl,length_append]
      exact Nat.le_add_right ..
    rw [cut,joined] at reread
    refine fields_ne_nil u left ?_
    rw [decodeRune_kept left reread within]
    exact solid

/-- What precedes a rune is read as it was. -/
theorem runes_of_append_left (a b : List (Char × Bytes)) (s : Bytes) (shape : runes s = a ++ b) : runes (joinRaw a) = a := by
  induction a generalizing s with
  | nil => rfl
  | cons r a ih =>
    have occupied : s ≠ [] := by
      rintro rfl
      cases shape
    have whole : s = joinRaw (r :: a) ++ joinRaw b := by
      rw [← joinRaw_runes s,shape]
      exact flatMap_append
    rw [runes_cons occupied] at shape
    obtain ⟨first,rest⟩ := List.cons.inj shape
    have width : r.2.length = (decodeRune s).2 := by
      rw [← first,length_take]
      exact min_eq_left (decodeRune_le occupied)
    have joined : joinRaw (r :: a) = r.2 ++ joinRaw a := rfl
    have same : decodeRune (joinRaw (r :: a)) = decodeRune s := by
      conv_rhs => rw [whole]
      refine decodeRune_append _ _ ?_
      rw [← whole,← width,joined,length_append]
      exact Nat.le_add_right ..
    have left : joinRaw (r :: a) ≠ [] := by
      have positive := decodeRune_pos s
      rw [joined,← length_pos_iff,length_append]
      omega
    rw [runes_cons left,same,← width,joined,take_left,drop_left,ih _ rest,← first]

theorem runes_piece (within : piece <:+: runes s) :
    runes (joinRaw piece) = piece := by
  obtain ⟨a,b,shape⟩ := within
  have front := runes_of_append_left (a ++ piece) b s shape.symm
  exact runes_of_append a piece _ front

theorem runsFrom_within (p : α → Bool) (cur l run : List α) (member : run ∈ runsFrom p cur l) :
    run <:+: cur ++ l := by
  induction l generalizing cur with
  | nil =>
    rw [runsFrom] at member
    split at member
    · cases member
    · rw [mem_singleton.mp member,append_nil]
  | cons a rest ih =>
    rw [runsFrom] at member
    split at member
    · simpa using ih (cur ++ [a]) member
    rcases mem_append.mp member with flushed | later
    · split at flushed
      · cases flushed
      rw [mem_singleton.mp flushed]
      exact (prefix_append ..).isInfix
    · exact (ih [] later).trans ((suffix_cons a rest).trans (suffix_append ..)).isInfix

theorem runsFrom_all (p : α → Bool) (cur l : List α) (all : ∀ a ∈ l, p a = true) (some_ : cur ++ l ≠ []) :
    runsFrom p cur l = [cur ++ l] := by
  induction l generalizing cur with
  | nil =>
    rw [append_nil] at some_ ⊢
    rw [runsFrom,if_neg (by rwa [List.isEmpty_iff])]
  | cons a _ ih =>
    rw [runsFrom,if_pos (all a (.head _)),ih (cur ++ [a]) (fun b member => all b (.tail _ member)) (by simp)]
    simp

theorem runes_eq_nil (s : Bytes) : runes s = [] ↔ s = [] := by
  constructor
  · intro none_
    rw [← joinRaw_runes s,none_]
    rfl
  · rintro rfl
    rfl

theorem field_solid (isField : term ∈ fields u s) :
    term ≠ [] ∧ ∀ r ∈ runes term, u.isSpace r.1 = false := by
  obtain ⟨run,isRun,rfl⟩ := mem_map.mp isField
  obtain ⟨some_,solid⟩ := runsFrom_spec (fun r : Char × Bytes => !u.isSpace r.1) [] (runes s) (by simp) run isRun
  have reread := runes_piece (runsFrom_within _ [] (runes s) run isRun)
  rw [Ne,← runes_eq_nil,reread]
  exact ⟨some_,fun r member => by simpa using solid r member⟩

theorem trimSpace_solid (solid : ∀ r ∈ runes s, u.isSpace r.1 = false) : trimSpace u s = s := by
  have keep : ∀ l : List (Char × Bytes), (∀ r ∈ l, u.isSpace r.1 = false) → l.dropWhile (fun r => u.isSpace r.1) = l := by
    intro l all
    cases l with
    | nil => rfl
    | cons r _ => rw [dropWhile_cons_of_neg (by rw [all r (.head _)]; exact Bool.false_ne_true)]
  rw [trimSpace,keep _ solid,keep _ (fun r member => solid r (mem_reverse.mp member)),reverse_reverse,joinRaw_runes]

theorem fields_solid (some_ : s ≠ []) (solid : ∀ r ∈ runes s, u.isSpace r.1 = false) : fields u s = [s] := by
  rw [fields,maximalRuns,runsFrom_all _ [] _ (fun r member => by simp [solid r member])]
  · rw [nil_append,map_singleton,joinRaw_runes]
  · rwa [nil_append,Ne,runes_eq_nil]

end ENode.GoText
