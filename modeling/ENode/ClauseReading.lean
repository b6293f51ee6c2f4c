import Mathlib

/-! Reading a fully bracketed boolean clause back from its text. A clause is a fragment
with its bound arguments or two clauses joined by a connective inside brackets.
Brackets make the reading unique: the text fixes the fragments, and with the arguments
it fixes which of them each fragment takes. -/
namespace ENode.ClauseReading
open List

inductive Connective where
  | and | or | andNot
  deriving DecidableEq

def Connective.text : Connective → List Char
  | and => " AND ".toList
  | or => " OR ".toList
  | andNot => " AND NOT ".toList

@[simp] theorem Connective.text_and : Connective.and.text = [' ','A','N','D',' '] :=
  String.toList_ofList

@[simp] theorem Connective.text_or : Connective.or.text = [' ','O','R',' '] :=
  String.toList_ofList

@[simp] theorem Connective.text_andNot : Connective.andNot.text = [' ','A','N','D',' ','N','O','T',' '] :=
  String.toList_ofList

def Connective.apply : Connective → Bool → Bool → Bool
  | and, a, b => a && b
  | or, a, b => a || b
  | andNot, a, b => a && !b

def join (c : Connective) (l r : List Char) : List Char := '(' :: (l ++ c.text ++ r ++ [')'])

def depth (s : List Char) : Int :=
  (s.map (fun c => if c = '(' then 1 else if c = ')' then -1 else 0)).sum

/-- No prefix closes more than it opened, and everything opened is closed. -/
structure Balanced (s : List Char) : Prop where
  closed : depth s = 0
  above : ∀ p, p <+: s → 0 ≤ depth p

/-- The first bracket closes at the very end. -/
structure Bracketed (s : List Char) : Prop where
  nonempty : s ≠ []
  closed : depth s = 0
  opened : ∀ p, p <+: s → p ≠ [] → p ≠ s → 0 < depth p

/-- A fragment opens with a bracket that another bracket does not follow. -/
def Fragment (s : List Char) : Prop := Bracketed s ∧ ∃ c rest, s = '(' :: c :: rest ∧ c ≠ '('

def placeholders (s : List Char) : Nat := s.count '?'

/-- A fragment of the text, the arguments bound to it and the truth value it is read as. -/
structure Piece (A : Type) where
  text : List Char
  args : List A
  value : Bool

inductive Reads : List Char → List A → List (Piece A) → Bool → Prop where
  | leaf (p : Piece A) : Fragment p.text → placeholders p.text = p.args.length →
      Reads p.text p.args [p] p.value
  | join (c : Connective) : Reads l as ps a → Reads r bs qs b →
      Reads (join c l r) (as ++ bs) (ps ++ qs) (c.apply a b)

@[simp] theorem depth_nil : depth [] = 0 := rfl

@[simp] theorem depth_cons (c : Char) (s : List Char) :
    depth (c :: s) = (if c = '(' then 1 else if c = ')' then -1 else 0) + depth s := by
  simp [depth]

@[simp] theorem depth_append (s t : List Char) : depth (s ++ t) = depth s + depth t := by
  simp [depth]

theorem balanced_nil : Balanced [] := ⟨rfl,by simp⟩

theorem balanced_plain (s : List Char) (plain : ∀ c ∈ s, c ≠ '(' ∧ c ≠ ')') : Balanced s := by
  have level : ∀ p : List Char, (∀ c ∈ p, c ≠ '(' ∧ c ≠ ')') → depth p = 0 := by
    intro p
    induction p with
    | nil => simp
    | cons c p ih =>
      intro h
      have head := h c (by simp)
      simp [head.1,head.2,ih (fun d hd => h d (by simp [hd]))]
  exact ⟨level s plain,fun p inside => (level p (fun c h => plain c (inside.subset h))).ge⟩

theorem Balanced.append (hs : Balanced s) (ht : Balanced t) : Balanced (s ++ t) := by
  refine ⟨by simp [hs.closed,ht.closed],?_⟩
  rintro p ⟨rest,split⟩
  rcases append_eq_append_iff.mp split with ⟨q,within,_⟩ | ⟨q,rfl,within⟩
  · exact hs.above p ⟨q,within.symm⟩
  · have := ht.above q ⟨rest,within.symm⟩
    simp only [depth_append,hs.closed]
    omega

theorem Balanced.bracketed (h : Balanced s) : Bracketed ('(' :: (s ++ [')'])) := by
  refine ⟨by simp,by simp [h.closed],fun _ inside occupied proper => ?_⟩
  obtain ⟨_,q,rfl⟩ := exists_cons_of_ne_nil occupied
  obtain ⟨rfl,within⟩ := cons_prefix_cons.mp inside
  rcases prefix_concat_iff.mp within with rfl | short
  · exact absurd rfl proper
  · have := h.above q short
    simp only [depth_cons,if_true]
    omega

theorem Bracketed.balanced (h : Bracketed s) : Balanced s := by
  refine ⟨h.closed,fun p inside => ?_⟩
  by_cases empty : p = []
  · simp [empty]
  by_cases whole : p = s
  · simp [whole,h.closed]
  exact (h.opened p inside empty whole).le

theorem Bracketed.cut (hs : Bracketed s) (ht : Bracketed t)
    (equal : s ++ a = t ++ b) : s = t := by
  by_contra different
  rcases prefix_or_prefix_of_prefix (prefix_append s a) (equal ▸ prefix_append t b) with
    short | long
  · have := ht.opened s short hs.nonempty different
    have := hs.closed
    omega
  · have := hs.opened t long ht.nonempty (Ne.symm different)
    have := ht.closed
    omega

/-- Scans the brackets with the number still open. -/
def closes : List Char → Nat → Bool
  | [], n => n == 0
  | c :: s, n =>
    if c = '(' then closes s (n + 1)
    else if c = ')' then n != 0 && closes s (n - 1)
    else closes s n

theorem closes_spec (s : List Char) (n : Nat) (h : closes s n = true) :
    depth s = -n ∧ ∀ p, p <+: s → -n ≤ depth p := by
  induction s generalizing n with
  | nil => simp_all [closes]
  | cons c s ih =>
    have step : ∃ m : Nat, (m : Int) = n + (if c = '(' then 1 else if c = ')' then -1 else 0) ∧
        closes s m = true := by
      simp only [closes] at h
      split at h
      next opens => exact ⟨n + 1,by simp [opens],h⟩
      next closed =>
        split at h
        next shuts =>
          simp only [Bool.and_eq_true,bne_iff_ne] at h
          exact ⟨n - 1,by simp [shuts]; omega,h.2⟩
        next other => exact ⟨n,by simp [closed,other],h⟩
    obtain ⟨m,_,rest⟩ := step
    obtain ⟨total,above⟩ := ih m rest
    refine ⟨by rw [depth_cons,total]; omega,fun _ inside => ?_⟩
    rcases prefix_cons_iff.mp inside with rfl | ⟨q,rfl,within⟩
    · simp
    · have := above q within
      rw [depth_cons]
      omega

theorem balanced_of_closes (s : List Char) (h : closes s 0 = true) : Balanced s := by
  obtain ⟨total,above⟩ := closes_spec s 0 h
  exact ⟨by simpa using total,fun p inside => by simpa using above p inside⟩

theorem Balanced.intercalate (sep : List Char) (hsep : Balanced sep) (parts : List (List Char))
    (h : ∀ p ∈ parts, Balanced p) : Balanced (sep.intercalate parts) := by
  induction parts with
  | nil => exact balanced_nil
  | cons p rest ih =>
    cases rest with
    | nil => simpa using h p
    | cons _ _ =>
      rw [intercalate_cons_cons]
      exact ((h p (by simp)).append hsep).append (ih (fun x hx => h x (by simp [hx])))

theorem text_balanced (c : Connective) : Balanced c.text := by
  apply balanced_plain
  cases c <;> simp

theorem Balanced.fragment (h : Balanced s) (first : s.head? ≠ some '(') :
    Fragment ('(' :: (s ++ [')'])) := by
  refine ⟨h.bracketed,?_⟩
  cases s with
  | nil => exact ⟨')',[],rfl,by simp⟩
  | cons c s => exact ⟨c,s ++ [')'],rfl,by simpa using first⟩

theorem placeholders_intercalate (sep : List Char) (none : placeholders sep = 0)
    (parts : List (List Char)) (each : ∀ p ∈ parts, placeholders p = 1) :
    placeholders (sep.intercalate parts) = parts.length := by
  induction parts with
  | nil => rfl
  | cons p rest ih =>
    have one := each p (by simp)
    cases rest with
    | nil => simpa using one
    | cons _ _ =>
      have others := ih (fun x hx => each x (by simp [hx]))
      simp only [placeholders] at one others none ⊢
      rw [intercalate_cons_cons,count_append,count_append,one,none,others]
      simp only [length_cons]
      omega

theorem head_intercalate (sep : List Char) (parts : List (List Char)) (c : Char)
    (each : ∀ p ∈ parts, p ≠ [] ∧ p.head? ≠ some c) : (sep.intercalate parts).head? ≠ some c := by
  cases parts with
  | nil => simp
  | cons p rest =>
    obtain ⟨occupied,other⟩ := each p (by simp)
    obtain ⟨_,_,rfl⟩ := exists_cons_of_ne_nil occupied
    cases rest with
    | nil => simpa using other
    | cons _ _ => simpa [intercalate_cons_cons] using other

theorem Reads.bracketed (h : Reads s as ps b) : Bracketed s := by
  induction h with
  | leaf _ shape => exact shape.1
  | join c _ _ ihl ihr => exact ((ihl.balanced.append (text_balanced c)).append ihr.balanced).bracketed

theorem Reads.opens (h : Reads s as ps b) : ∃ rest, s = '(' :: rest := by
  cases h with
  | leaf _ shape =>
    obtain ⟨_,c,_,opened,_⟩ := shape
    exact ⟨_,opened⟩
  | join _ => exact ⟨_,rfl⟩

theorem Reads.placeholders (h : Reads s as ps b) : placeholders s = as.length := by
  induction h with
  | leaf _ _ count => exact count
  | join c _ _ ihl ihr =>
    have none : ClauseReading.placeholders c.text = 0 := by cases c <;> simp [ClauseReading.placeholders]
    simp only [ClauseReading.placeholders] at ihl ihr none
    simp [ClauseReading.placeholders,ClauseReading.join,ihl,ihr,none]

theorem Reads.args (h : Reads s as ps b) : as = ps.flatMap Piece.args := by
  induction h with
  | leaf _ => simp
  | join _ _ _ ihl ihr => simp [ihl,ihr]

theorem Reads.inversion (h : Reads s as ps b) : (Fragment s ∧ ∃ p, ps = [p] ∧ p.text = s ∧ p.value = b) ∨
    ∃ c l r asl asr psl psr x y, s = ClauseReading.join c l r ∧ as = asl ++ asr ∧ ps = psl ++ psr ∧
      b = c.apply x y ∧ Reads l asl psl x ∧ Reads r asr psr y := by
  cases h with
  | leaf p shape => exact .inl ⟨shape,p,rfl,rfl,rfl⟩
  | join c hl hr => exact .inr ⟨c,_,_,_,_,_,_,_,_,rfl,rfl,rfl,rfl,hl,hr⟩

theorem join_injective (c d : Connective) (l l' r r' : List Char)
    (hl : Bracketed l) (hl' : Bracketed l') (hr : ∃ rest, r = '(' :: rest)
    (hr' : ∃ rest, r' = '(' :: rest) (equal : join c l r = join d l' r') : c = d ∧ l = l' ∧ r = r' := by
  simp only [join,cons.injEq,true_and,append_assoc] at equal
  have left := hl.cut hl' equal
  subst left
  have tail := append_cancel_left equal
  obtain ⟨_,rfl⟩ := hr
  obtain ⟨_,rfl⟩ := hr'
  cases c <;> cases d <;> simp_all

theorem fragment_not_join (c : Connective) (l r : List Char) (hf : Fragment (join c l r))
    (hl : ∃ rest, l = '(' :: rest) : False := by
  obtain ⟨_,_,_,shape,different⟩ := hf
  obtain ⟨_,rfl⟩ := hl
  simp only [join,cons_append,cons.injEq,true_and] at shape
  exact different shape.1.symm

theorem Reads.unique (first : Reads s as ps a) (second : Reads s bs qs b) : ps.map Piece.text = qs.map Piece.text ∧
      (ps.map Piece.value = qs.map Piece.value → a = b) := by
  induction first generalizing bs qs b with
  | leaf _ shape =>
    rcases second.inversion with ⟨_,_,rfl,same,rfl⟩ | ⟨c,l,r,_,_,_,_,_,_,split,_,_,_,hl,_⟩
    · simp [same]
    · exact (fragment_not_join c l r (split ▸ shape) hl.opens).elim
  | join c hl hr ihl ihr =>
    rcases second.inversion with ⟨f,_⟩ | ⟨d,l',r',_,_,_,_,_,_,same,rfl,rfl,rfl,hl',hr'⟩
    · exact (fragment_not_join _ _ _ f hl.opens).elim
    · obtain ⟨rfl,rfl,rfl⟩ := join_injective c d _ l' _ r' hl.bracketed hl'.bracketed hr.opens
        hr'.opens same
      obtain ⟨textl,valuel⟩ := ihl hl'
      obtain ⟨textr,valuer⟩ := ihr hr'
      refine ⟨by simp [textl,textr],fun equal => ?_⟩
      have size := congrArg List.length textl
      simp only [length_map] at size
      rw [map_append,map_append] at equal
      obtain ⟨eql,eqr⟩ := append_inj equal (by simpa using size)
      rw [valuel eql,valuer eqr]

end ENode.ClauseReading
