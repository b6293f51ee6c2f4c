import Mathlib

/-! Byte strings as Go reads them. A string is any byte sequence: ranging over it
yields one rune for each well-formed UTF-8 sequence and U+FFFD for every other byte.
The Unicode tables are a parameter, so nothing here depends on a table's version. -/
namespace ENode.GoText
open List

abbrev Bytes := List UInt8

/-- Bytes compare as numbers, so strings compare lexicographically by them. -/
instance byteLinearOrder : LinearOrder UInt8 where
  le_refl := UInt8.le_refl
  le_trans _ _ _ := UInt8.le_trans
  le_antisymm _ _ := UInt8.le_antisymm
  le_total := UInt8.le_total
  lt_iff_le_not_ge a b := by
    rw [UInt8.lt_iff_toNat_lt,UInt8.le_iff_toNat_le,UInt8.le_iff_toNat_le]
    omega
  toDecidableLE := inferInstance

/-- What the libraries ask of the character tables. `fold` is the representative of a
rune's simple case folding orbit, `windows1252` the rune of a byte in that code page. -/
structure Unicode where
  isLetter : Char → Bool
  isDigit : Char → Bool
  isSpace : Char → Bool
  toLower : Char → Char
  fold : Char → Char
  windows1252 : UInt8 → Char

/-- The tables cut down to ASCII. -/
def Unicode.ascii : Unicode where
  isLetter := Char.isAlpha
  isDigit := Char.isDigit
  isSpace := Char.isWhitespace
  toLower := Char.toLower
  fold := Char.toLower
  windows1252 := fun b => Char.ofNat b.toNat

def Unicode.alnum (u : Unicode) (r : Char) : Bool := u.isLetter r || u.isDigit r

def runeError : Char := Char.ofNat 0xfffd

/-- `utf8.DecodeRune` at the start of a nonempty string: the rune and its width. -/
def decodeRune (s : Bytes) : Char × Nat :=
  match s.toByteArray.utf8DecodeChar? 0 with
  | some r => (r,r.utf8Size)
  | none => (runeError,1)

/-- Every decoded rune consumes a byte, so the length bounds the iterations of `range`. -/
def runesWithin : Nat → Bytes → List (Char × Bytes)
  | 0, _ => []
  | _, [] => []
  | fuel+1, s => ((decodeRune s).1,s.take (decodeRune s).2) ::
      runesWithin fuel (s.drop (decodeRune s).2)

/-- `for _, r := range s`, each rune with the bytes it was read from. -/
def runes (s : Bytes) : List (Char × Bytes) := runesWithin s.length s

def encode (text : List Char) : Bytes := text.flatMap String.utf8EncodeChar

/-- A string constant of the source. -/
def lit (s : String) : Bytes := encode s.toList

def lowered (u : Unicode) (s : Bytes) : List Char := (runes s).map (fun r => u.toLower r.1)

/-- `strings.ToLower`: invalid bytes come out as U+FFFD, so the result is always UTF-8. -/
def toLower (u : Unicode) (s : Bytes) : Bytes := encode (lowered u s)

/-- `strings.Contains`. -/
def contains (s sub : Bytes) : Bool := decide (sub <:+: s)

/-- `utf8.ValidString`: no byte was read as U+FFFD for want of a sequence. -/
def validString (s : Bytes) : Bool := (runes s).all (fun r => !(r.1 == runeError && r.2.length == 1))

/-- `strings.EqualFold`. -/
def equalFold (u : Unicode) (s t : Bytes) : Bool :=
  (runes s).map (fun r => u.fold r.1) == (runes t).map (fun r => u.fold r.1)

def joinRaw (segments : List (Char × Bytes)) : Bytes := segments.flatMap Prod.snd

/-- `strings.TrimSpace`. -/
def trimSpace (u : Unicode) (s : Bytes) : Bytes :=
  joinRaw ((((runes s).dropWhile (fun r => u.isSpace r.1)).reverse.dropWhile
    (fun r => u.isSpace r.1)).reverse)

/-- Pieces of `l` made of elements `p` accepts, each as long as possible. -/
def runsFrom (p : α → Bool) : List α → List α → List (List α)
  | cur, [] => if cur.isEmpty then [] else [cur]
  | cur, a :: rest =>
    if p a then runsFrom p (cur ++ [a]) rest
    else (if cur.isEmpty then [] else [cur]) ++ runsFrom p [] rest

def maximalRuns (p : α → Bool) (l : List α) : List (List α) := runsFrom p [] l

/-- `strings.Fields`. -/
def fields (u : Unicode) (s : Bytes) : List Bytes :=
  (maximalRuns (fun r => !u.isSpace r.1) (runes s)).map joinRaw

/-- `filepath.Ext`: from the last dot after the last separator. -/
def ext (name : Bytes) : Bytes :=
  let last := (name.reverse.takeWhile (· != 0x2f)).reverse
  if last.contains 0x2e then 0x2e :: (last.reverse.takeWhile (· != 0x2e)).reverse else []

@[simp] theorem encode_nil : encode [] = [] := rfl

@[simp] theorem encode_cons (c : Char) (text : List Char) :
    encode (c :: text) = String.utf8EncodeChar c ++ encode text := rfl

@[simp] theorem encode_append (a b : List Char) : encode (a ++ b) = encode a ++ encode b := by
  simp [encode]

theorem encodeChar_ne_nil (c : Char) : String.utf8EncodeChar c ≠ [] := by
  intro empty
  have size := String.length_utf8EncodeChar c
  have positive := c.utf8Size_pos
  simp only [empty,length_nil] at size
  omega

variable (text : List Char)

theorem encode_eq_nil : encode text = [] ↔ text = [] := by
  cases text with
  | nil => simp
  | cons _ _ => simp

theorem decodeRune_encode (c : Char) (rest : List Char) : decodeRune (encode (c :: rest)) = (c,c.utf8Size) := by
  have decoded : (encode (c :: rest)).toByteArray.utf8DecodeChar? 0 = some c :=
    utf8DecodeChar?_utf8Encode_cons (l := rest) (c := c)
  simp only [decodeRune,decoded]

theorem runesWithin_encode (fuel : Nat) (enough : (encode text).length ≤ fuel) :
    runesWithin fuel (encode text) = text.map (fun c => (c,String.utf8EncodeChar c)) := by
  induction text generalizing fuel with
  | nil => cases fuel <;> rfl
  | cons c rest ih =>
    have size := String.length_utf8EncodeChar c
    have positive := c.utf8Size_pos
    simp only [encode_cons,length_append] at enough
    cases fuel with
    | zero => omega
    | succ fuel =>
      obtain ⟨_,_,shape⟩ := exists_cons_of_ne_nil (encodeChar_ne_nil c)
      have unfolded : runesWithin (fuel+1) (encode (c :: rest)) =
          ((decodeRune (encode (c :: rest))).1,
            (encode (c :: rest)).take (decodeRune (encode (c :: rest))).2) ::
          runesWithin fuel ((encode (c :: rest)).drop (decodeRune (encode (c :: rest))).2) := by
        simp only [encode_cons,shape,cons_append,runesWithin]
      rw [unfolded,decodeRune_encode]
      simp only [encode_cons,← size,take_left,drop_left,map_cons]
      rw [ih fuel (by omega)]

theorem runes_encode : runes (encode text) = text.map (fun c => (c,String.utf8EncodeChar c)) :=
  runesWithin_encode text _ le_rfl

theorem encodeChar_append_inj
    (same : String.utf8EncodeChar c ++ encode s <+: String.utf8EncodeChar d ++ encode t) : c = d := by
  obtain ⟨rest,equal⟩ := same
  have left : (encode (d :: t)).toByteArray.utf8DecodeChar? 0 = some d :=
    utf8DecodeChar?_utf8Encode_cons (l := t) (c := d)
  have right : (String.utf8EncodeChar c ++ (encode s ++ rest)).toByteArray.utf8DecodeChar? 0 = some c := by
    rw [toByteArray_append]
    exact ByteArray.utf8DecodeChar?_utf8EncodeChar_append
  rw [encode_cons,← equal,append_assoc,right] at left
  exact Option.some.inj left

variable (s t : List Char)

theorem prefix_of_encode (within : encode s <+: encode t) : s <+: t := by
  induction s generalizing t with
  | nil => exact nil_prefix
  | cons _ _ ih =>
    cases t with
    | nil =>
      have empty := prefix_nil.mp within
      exact absurd ((encode_eq_nil _).mp empty) (by simp)
    | cons _ t =>
      simp only [encode_cons] at within
      have same := encodeChar_append_inj within
      subst same
      exact (cons_prefix_cons).mpr ⟨rfl,ih t ((prefix_append_right_inj _).mp within)⟩

/-- UTF-8 is self-synchronizing: an encoded text occurs only on rune boundaries. -/
theorem infix_of_encode (nonempty : s ≠ []) (within : encode s <:+: encode t) : s <:+: t := by
  obtain ⟨before,after,equal⟩ := within
  induction t generalizing before with
  | nil =>
    have empty : encode s = [] := by
      have h := congrArg List.length equal
      simp only [length_append,encode_nil,length_nil] at h
      exact length_eq_zero_iff.mp (by omega)
    exact absurd ((encode_eq_nil s).mp empty) nonempty
  | cons c t ih =>
    by_cases start : before = []
    · subst start
      exact (prefix_of_encode s (c :: t) ⟨after,by simpa using equal⟩).isInfix
    · by_cases past : (String.utf8EncodeChar c).length ≤ before.length
      · have split : before = String.utf8EncodeChar c ++ before.drop (String.utf8EncodeChar c).length := by
          have h := congrArg (List.take (String.utf8EncodeChar c).length) equal
          rw [encode_cons,append_assoc,take_append_of_le_length past,take_left] at h
          exact (h ▸ (take_append_drop (String.utf8EncodeChar c).length before)).symm
        rw [split,encode_cons,append_assoc,append_assoc,append_cancel_left_eq] at equal
        exact (ih _ (by simpa using equal)).trans (suffix_cons c t).isInfix
      · exfalso
        have inside : before.length < (String.utf8EncodeChar c).length := by omega
        obtain ⟨d,_,rfl⟩ := exists_cons_of_ne_nil nonempty
        obtain ⟨b,_,shape⟩ := exists_cons_of_ne_nil (encodeChar_ne_nil d)
        have lead : b.IsUTF8FirstByte := by
          have bound : 0 < (String.utf8EncodeChar d).length := by simp [shape]
          have h : (String.utf8EncodeChar d)[0].IsUTF8FirstByte :=
            UInt8.isUTF8FirstByte_getElem_utf8EncodeChar.mpr rfl
          simpa [shape] using h
        have atByte : (String.utf8EncodeChar c)[before.length]? = some b := by
          have h := congrArg (fun l => l[before.length]?) equal
          simp only [encode_cons,shape,append_assoc,getElem?_append_right le_rfl,
            Nat.sub_self,cons_append,getElem?_cons_zero] at h
          rw [getElem?_append_left inside] at h
          exact h.symm
        obtain ⟨_,value⟩ := List.getElem?_eq_some_iff.mp atByte
        have first : (String.utf8EncodeChar c)[before.length].IsUTF8FirstByte := value ▸ lead
        have zero := UInt8.isUTF8FirstByte_getElem_utf8EncodeChar.mp first
        exact start (length_eq_zero_iff.mp zero)

theorem encode_infix (within : s <:+: t) : encode s <:+: encode t := by
  obtain ⟨before,after,rfl⟩ := within
  exact ⟨encode before,encode after,by simp⟩

/-- A separator splits every piece that does not contain it to one of its sides. -/
theorem infix_of_notMem {piece before after : List α} (absent : a ∉ piece)
    (within : piece <:+: before ++ a :: after) : piece <:+: before ∨ piece <:+: after := by
  obtain ⟨s,t,equal⟩ := within
  rw [append_assoc] at equal
  rcases append_eq_append_iff.mp equal with ⟨mid,hb,ht⟩ | ⟨mid,_,ha⟩
  · rcases append_eq_append_iff.mp ht with ⟨mid2,hm,_⟩ | ⟨mid2,hp,hr⟩
    · left
      exact ⟨s,mid2,by rw [hb,hm,append_assoc]⟩
    · cases mid2 with
      | nil => left; exact ⟨s,[],by simp [hb,hp]⟩
      | cons x _ =>
        obtain ⟨rfl,_⟩ := cons.inj hr
        exact absurd (by simp [hp]) absent
  · cases mid with
    | nil =>
      simp only [nil_append] at ha
      cases piece with
      | nil => left; exact nil_infix
      | cons x _ =>
        obtain ⟨rfl,_⟩ := cons.inj ha
        exact absurd (by simp) absent
    | cons _ mid =>
      obtain ⟨_,hr⟩ := cons.inj ha
      right
      exact ⟨mid,t,by rw [hr,append_assoc]; rfl⟩

section
variable (p : α → Bool)

theorem infix_runsFrom (cur l piece : List α) (nonempty : piece ≠ [])
    (accepted : ∀ a ∈ piece, p a = true) (within : piece <:+: cur ++ l) :
    ∃ run ∈ runsFrom p cur l, piece <:+: run := by
  induction l generalizing cur with
  | nil =>
    simp only [append_nil] at within
    have occupied : cur.isEmpty = false := by
      cases cur with
      | nil => exact absurd (infix_nil.mp within) nonempty
      | cons a cur => rfl
    exact ⟨cur,by simp [runsFrom,occupied],within⟩
  | cons a _ ih =>
    by_cases good : p a = true
    · obtain ⟨run,member,inside⟩ := ih (cur ++ [a]) (by simpa using within)
      exact ⟨run,by simpa [runsFrom,good] using member,inside⟩
    · have absent : a ∉ piece := fun h => good (accepted a h)
      rcases infix_of_notMem absent within with left | right
      · have occupied : cur.isEmpty = false := by
          cases cur with
          | nil => exact absurd (infix_nil.mp left) nonempty
          | cons _ cur => rfl
        exact ⟨cur,by simp [runsFrom,good,occupied],left⟩
      · obtain ⟨run,member,inside⟩ := ih [] (by simpa using right)
        exact ⟨run,by simp [runsFrom,good,member],inside⟩

theorem infix_maximalRuns (l piece : List α) (nonempty : piece ≠ [])
    (accepted : ∀ a ∈ piece, p a = true) (within : piece <:+: l) : ∃ run ∈ maximalRuns p l, piece <:+: run :=
  infix_runsFrom p [] l piece nonempty accepted (by simpa using within)

theorem flushed_spec (good : ∀ a ∈ cur, p a = true)
    (member : run ∈ (if cur.isEmpty then [] else [cur])) : run ≠ [] ∧ ∀ a ∈ run, p a = true := by
  cases cur with
  | nil => simp at member
  | cons _ _ =>
    simp only [isEmpty_cons,Bool.false_eq_true,if_false,mem_singleton] at member
    subst member
    exact ⟨by simp,good⟩

theorem runsFrom_spec (cur l : List α) (good : ∀ a ∈ cur, p a = true)
    (run : List α) (member : run ∈ runsFrom p cur l) : run ≠ [] ∧ ∀ a ∈ run, p a = true := by
  induction l generalizing cur with
  | nil => exact flushed_spec p good (by simpa only [runsFrom] using member)
  | cons a _ ih =>
    by_cases ok : p a = true
    · have extended : ∀ b ∈ cur ++ [a], p b = true := by
        intro b hb
        rcases mem_append.mp hb with h | h
        · exact good b h
        · rw [mem_singleton.mp h]; exact ok
      exact ih (cur ++ [a]) extended (by simpa [runsFrom,ok] using member)
    · rw [runsFrom,if_neg ok] at member
      rcases mem_append.mp member with h | h
      · exact flushed_spec p good h
      · exact ih [] (by simp) h

theorem runsFrom_map (q : β → Bool) (f : β → α) (agree : ∀ b, p (f b) = q b) (cur l : List β) :
    runsFrom p (cur.map f) (l.map f) = (runsFrom q cur l).map (List.map f) := by
  induction l generalizing cur with
  | nil => cases cur <;> simp [runsFrom]
  | cons b _ ih =>
    by_cases ok : q b = true
    · simpa [runsFrom,agree,ok] using ih (cur ++ [b])
    · have step := ih []
      simp only [map_nil] at step
      cases cur <;> simp [runsFrom,agree,ok,step]

end

end ENode.GoText
