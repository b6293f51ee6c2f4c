import ENode.BinaryHeap
import ENode.GoMap
import ENode.SearchExpr
import ENode.Slab
import ENode.SortedLists

/-! The inverted index over file names and how it is kept. Word ids have 32 bits and are
never freed; every posting list is ascending. An id may stay listed under words its file
no longer has, but while no two words share an id a file is listed under every word of
its name. -/
namespace ENode.Storage

open GoText SortedLists List

structure NameIndex where
  vocab : GoMap Bytes Nat := ∅
  words : List Bytes := []
  post : List (List Nat) := []
  tails : GoMap Nat (List Nat) := ∅
  grams : GoMap Nat (List Nat) := ∅
  entries : Int := 0
  live : Int := 0

def postingInlineMax : Nat := 1024
def postingTailMax : Nat := 256
def candidateFloor : Nat := 65536

def trigram (s : Bytes) : Nat :=
  (s.getD 0 0).toNat * 2^16 + (s.getD 1 0).toNat * 2^8 + (s.getD 2 0).toNat

def trigrams (w : Bytes) : List Nat := (List.range (w.length - 2)).map (fun i => trigram (w.drop i))

def nameWords (u : Unicode) (name : Bytes) : List Bytes :=
  compact (sort ((maximalRuns (fun r => u.alnum r.1) (runes (toLower u name))).map joinRaw))

namespace NameIndex

def postOf (x : NameIndex) (wid : Nat) : List Nat := x.post.getD wid []
def tailOf (x : NameIndex) (wid : Nat) : List Nat := (x.tails.lookup wid).getD []

def addGram (wid : Nat) (grams : GoMap Nat (List Nat)) (g : Nat) : GoMap Nat (List Nat) :=
  let l := (grams.lookup g).getD []
  if l.getLast? = some wid then grams else grams.insert g (l ++ [wid])

def wordID (x : NameIndex) (w : Bytes) : NameIndex × Nat :=
  match x.vocab.lookup w with
  | some wid => (x,wid)
  | none =>
    let wid := x.words.length % 2^32
    ({ x with
        vocab := x.vocab.insert w wid
        words := x.words ++ [w]
        post := x.post ++ [[]]
        grams := (trigrams w).foldl (addGram wid) x.grams },wid)

/-- Lists a file under a word; false when it already was. -/
def add (x : NameIndex) (wid id : Nat) : NameIndex × Bool :=
  let ids := x.postOf wid
  let tail := x.tailOf wid
  if (binarySearch tail id).2 then (x,false)
  else if ids.getLast?.all (· < id) then ({ x with post := x.post.set wid (ids ++ [id]) },true)
  else if (binarySearch ids id).2 then (x,false)
  else if ids.length ≤ postingInlineMax ∧ tail.length = 0 then
    ({ x with post := x.post.set wid (insertAt ids (binarySearch ids id).1 id) },true)
  else
    let tail := insertAt tail (binarySearch tail id).1 id
    if tail.length < postingTailMax then ({ x with tails := x.tails.insert wid tail },true)
    else ({ x with post := x.post.set wid (unionSorted ids tail), tails := x.tails.erase wid },true)

def indexWord (id : Nat) (x : NameIndex) (w : Bytes) : NameIndex :=
  let (x,wid) := x.wordID w
  let (x,added) := x.add wid id
  if added then { x with entries := x.entries + 1 } else x

def indexName (u : Unicode) (x : NameIndex) (id : Nat) (name : Bytes) : NameIndex :=
  (nameWords u name).foldl (indexWord id) { x with live := x.live + (nameWords u name).length }

/-- The id stays listed under words that only the old name had. -/
def renameFile (u : Unicode) (x : NameIndex) (id : Nat) (oldName name : Bytes) : NameIndex :=
  if oldName = name then x
  else { x with live := x.live - (nameWords u oldName).length }.indexName u id name

def removeFile (u : Unicode) (x : NameIndex) (name : Bytes) : NameIndex :=
  { x with live := x.live - (nameWords u name).length }

def keep (dead : Nat → Bool) (ids : List Nat) : List Nat := ids.filter (fun id => !dead id)

def purge (x : NameIndex) (dead : Nat → Bool) : NameIndex :=
  let dropped (ids : List Nat) : Int := ids.length - (keep dead ids).length
  { x with
    post := x.post.map (keep dead)
    tails := x.tails.filterMapVals (fun tail =>
      if (keep dead tail).length = 0 then none else some (keep dead tail))
    entries := x.entries - (x.post.map dropped).sum - ((GoMap.pairs x.tails).map (fun e => dropped e.2)).sum }

def needsRebuild (x : NameIndex) : Bool :=
  let stale := x.entries - x.live
  decide (stale > 1024) && decide (stale > x.entries.tdiv 4)

/-- The files a word lists, in no particular order. -/
def posting (x : NameIndex) (wid : Nat) : List Nat := x.postOf wid ++ x.tailOf wid

def Lists (x : NameIndex) (w : Bytes) (id : Nat) : Prop :=
  ∃ wid, x.words[wid]? = some w ∧ id ∈ x.posting wid

structure Valid (x : NameIndex) : Prop where
  sizes : x.post.length = x.words.length
  vocab : ∀ w wid, x.vocab.lookup w = some wid ↔ x.words[wid]? = some w
  posts : ∀ wid, Ascending (x.postOf wid)
  tails : ∀ wid tail, x.tails.lookup wid = some tail → wid < x.words.length ∧ Ascending tail
  grams : ∀ g l, x.grams.lookup g = some l → Ascending l ∧ ∀ wid ∈ l, wid < x.words.length
  gramed : ∀ wid w, x.words[wid]? = some w → ∀ g ∈ trigrams w, ∃ l, x.grams.lookup g = some l ∧ wid ∈ l

theorem empty_valid : Valid {} := by
  constructor <;> simp [postOf]

/-- Ascending word ids below a bound under every trigram. -/
def GramsBelow (n : Nat) (grams : GoMap Nat (List Nat)) : Prop :=
  ∀ g l, grams.lookup g = some l → Ascending l ∧ ∀ wid ∈ l, wid < n

def HasGram (grams : GoMap Nat (List Nat)) (g wid : Nat) : Prop :=
  ∃ l, grams.lookup g = some l ∧ wid ∈ l

theorem lt_of_getLast_ne (ascending : Ascending l)
    (below : ∀ v ∈ l, v < wid + 1) (last : l.getLast? ≠ some wid) : ∀ v ∈ l, v < wid := by
  intro v member
  rcases eq_nil_or_concat l with rfl | ⟨_,z,rfl⟩
  · simp at member
  · simp only [concat_eq_append] at ascending below last member
    have ordered := pairwise_append.mp ascending
    have bound := below z (by simp)
    have other : z ≠ wid := by simpa using last
    rcases mem_append.mp member with h | h
    · have := ordered.2.2 v h z (by simp)
      omega
    · have := mem_singleton.mp h
      omega

theorem addGram_below {grams : GoMap Nat (List Nat)} (g : Nat)
    (good : GramsBelow (wid + 1) grams) : GramsBelow (wid + 1) (addGram wid grams g) := by
  simp only [addGram]
  split
  · exact good
  next last =>
    intro g' l' found
    rw [GoMap.lookup_insert_ite] at found
    split at found
    next same =>
      cases found
      have old : Ascending ((grams.lookup g).getD []) ∧ ∀ v ∈ (grams.lookup g).getD [], v < wid + 1 := by
        cases h : grams.lookup g with
        | none => simp
        | some l => exact good g l h
      have below := lt_of_getLast_ne old.1 old.2 last
      refine ⟨pairwise_append.mpr ⟨old.1,by simp,fun a ha _ hb => ?_⟩,?_⟩
      · rw [mem_singleton.mp hb]; exact below a ha
      · intro v member
        rcases mem_append.mp member with h | h
        · exact old.2 v h
        · rw [mem_singleton.mp h]; omega
    · exact good g' l' found

theorem addGram_has (wid : Nat) (grams : GoMap Nat (List Nat)) (g g' v : Nat) :
    HasGram (addGram wid grams g) g' v ↔ HasGram grams g' v ∨ (g' = g ∧ v = wid) := by
  simp only [addGram]
  split
  next last =>
    refine ⟨.inl,?_⟩
    rintro (old | ⟨rfl,rfl⟩)
    · exact old
    · cases h : grams.lookup g' with
      | none => simp [h] at last
      | some l => exact ⟨l,h,mem_of_getLast? (by simpa [h] using last)⟩
  · simp only [HasGram,GoMap.lookup_insert_ite]
    by_cases same : g' = g
    · subst same
      cases grams.lookup g' <;> simp
    · simp [same]

theorem addGrams_spec (wid : Nat) (gs : List Nat) (grams : GoMap Nat (List Nat))
    (good : GramsBelow (wid + 1) grams) : GramsBelow (wid + 1) (gs.foldl (addGram wid) grams) ∧
    ∀ g v, HasGram (gs.foldl (addGram wid) grams) g v ↔ HasGram grams g v ∨ (g ∈ gs ∧ v = wid) := by
  induction gs generalizing grams with
  | nil => exact ⟨good,by simp⟩
  | cons first _ ih =>
    obtain ⟨below,has⟩ := ih _ (addGram_below first good)
    refine ⟨below,fun _ _ => ?_⟩
    rw [foldl_cons,has,addGram_has]
    simp only [mem_cons]
    tauto

variable (x : NameIndex)

theorem posting_of_absent (valid : x.Valid) (absent : x.words.length ≤ wid) : x.posting wid = [] := by
  have post : x.postOf wid = [] := by rw [postOf,getD_eq_default _ _ (by rw [valid.sizes]; exact absent)]
  have tail : x.tailOf wid = [] := by
    rw [tailOf]
    cases h : x.tails.lookup wid with
    | none => rfl
    | some tail =>
      have := (valid.tails wid tail h).1
      omega
  simp [posting,post,tail]

theorem wordID_grows (w : Bytes) : x.words.length ≤ (x.wordID w).1.words.length := by
  unfold wordID
  split <;> simp

/-- Looking a word up gives it an id; no file is listed or unlisted by it. -/
theorem wordID_spec (valid : x.Valid) (w : Bytes) (fits : (x.wordID w).1.words.length ≤ 2^32) :
    (x.wordID w).1.Valid ∧ (x.wordID w).1.words[(x.wordID w).2]? = some w ∧
    ∀ v id, (x.wordID w).1.Lists v id ↔ x.Lists v id := by
  revert fits
  unfold wordID
  split
  next wid known => exact fun _ => ⟨valid,(valid.vocab w wid).mp known,fun _ _ => Iff.rfl⟩
  next unknown =>
    intro fits
    rw [length_append,length_singleton] at fits
    rw [Nat.mod_eq_of_lt (by omega : x.words.length < 2^32)]
    have fresh : ∀ n : Nat, x.words[n]? ≠ some w := by
      intro n found
      simp [(valid.vocab w n).mpr found] at unknown
    have word : ∀ (n : Nat) v, (x.words ++ [w])[n]? = some v ↔
        x.words[n]? = some v ∨ (n = x.words.length ∧ v = w) := by
      intro n v
      rcases Nat.lt_trichotomy n x.words.length with h | h | h
      · simp [getElem?_append_left h,Nat.ne_of_lt h]
      · subst h; simp [eq_comm]
      · simp [getElem?_eq_none (by simp; omega : (x.words ++ [w]).length ≤ n),
          getElem?_eq_none (Nat.le_of_lt h),Nat.ne_of_gt h]
    have post : ∀ n, (x.post ++ [[]]).getD n [] = x.postOf n := Slab.getD_concat x.post []
    obtain ⟨below,has⟩ := addGrams_spec x.words.length (trigrams w) x.grams (fun g l found =>
      ⟨(valid.grams g l found).1,fun v h => Nat.lt_succ_of_lt ((valid.grams g l found).2 v h)⟩)
    refine ⟨⟨?_,?_,?_,?_,?_,?_⟩,?_,?_⟩
    · simp [valid.sizes]
    · intro v n
      rw [GoMap.lookup_insert_ite,word]
      by_cases same : v = w
      · subst same
        simp [fresh,eq_comm]
      · simp [same,valid.vocab]
    · intro n
      rw [postOf,post]
      exact valid.posts n
    · intro n tail found
      have old := valid.tails n tail found
      exact ⟨by simp; omega,old.2⟩
    · intro g l found
      have good := below g l found
      exact ⟨good.1,fun v h => by simpa using good.2 v h⟩
    · intro n v found g member
      apply (has g n).mpr
      rcases (word n v).mp found with old | ⟨rfl,rfl⟩
      · exact .inl (valid.gramed n v old g member)
      · exact .inr ⟨member,rfl⟩
    · simp
    · intro _ _
      have same : ∀ n, posting { x with
          vocab := x.vocab.insert w x.words.length
          words := x.words ++ [w]
          post := x.post ++ [[]]
          grams := (trigrams w).foldl (addGram x.words.length) x.grams } n = x.posting n := by
        intro n
        simp only [posting,tailOf]
        rw [postOf,post]
      simp only [Lists,same,word]
      constructor
      · rintro ⟨n,old | ⟨rfl,rfl⟩,member⟩
        · exact ⟨n,old,member⟩
        · simp [posting_of_absent x valid le_rfl] at member
      · rintro ⟨n,old,member⟩
        exact ⟨n,.inl old,member⟩

/-- Replacing one word's lists leaves every other word's alone. -/
theorem setPosting_spec (valid : x.Valid) (known : wid < x.words.length) {tails : GoMap Nat (List Nat)}
    (ascending : Ascending ids) (here : ∀ tail, tails.lookup wid = some tail → Ascending tail)
    (others : ∀ n, n ≠ wid → tails.lookup n = x.tails.lookup n) :
    Valid { x with post := x.post.set wid ids, tails := tails } ∧
    ∀ n, posting { x with post := x.post.set wid ids, tails := tails } n =
      if n = wid then ids ++ (tails.lookup wid).getD [] else x.posting n := by
  have post : ∀ n, (x.post.set wid ids).getD n [] = if n = wid then ids else x.postOf n :=
    fun n => BinaryHeap.getD_set x.post wid ids n [] (valid.sizes ▸ known)
  refine ⟨⟨by simp [valid.sizes],valid.vocab,?_,?_,valid.grams,valid.gramed⟩,?_⟩
  · intro n
    rw [postOf,post]
    split
    · exact ascending
    · exact valid.posts n
  · intro n tail found
    by_cases same : n = wid
    · subst same
      exact ⟨known,here tail found⟩
    · exact valid.tails n tail (others n same ▸ found)
  · intro n
    simp only [posting,tailOf]
    rw [postOf,post]
    by_cases same : n = wid
    · subst same; simp
    · simp [same,others n same]

theorem tailOf_ascending (valid : x.Valid) (wid : Nat) : Ascending (x.tailOf wid) := by
  rw [tailOf]
  cases h : x.tails.lookup wid with
  | none => simp
  | some tail => exact (valid.tails wid tail h).2

/-- `x'` is `x` with the lists of one word replaced by lists that also hold `id`. -/
structure Relists (x : NameIndex) (wid id : Nat) (ids : List Nat) (tails : GoMap Nat (List Nat)) : Prop where
  ascending : Ascending ids
  here : ∀ tail, tails.lookup wid = some tail → Ascending tail
  others : ∀ n, n ≠ wid → tails.lookup n = x.tails.lookup n
  members : ∀ j, j ∈ ids ++ (tails.lookup wid).getD [] ↔ j ∈ x.posting wid ∨ j = id

/-- Lists of `x` that hold `id` in addition, and that share an id only if those of `x` do. -/
structure Grows (x : NameIndex) (wid id : Nat) (ids : List Nat) (tails : GoMap Nat (List Nat)) : Prop extends
    x.Relists wid id ids tails where
  fresh : id ∉ x.posting wid
  apart : (x.postOf wid).Disjoint (x.tailOf wid) → ids.Disjoint ((tails.lookup wid).getD [])

section
variable {wid id : Nat} {x : NameIndex} (fresh : id ∉ x.posting wid) (l : List Nat) (ascending : Ascending l)
include fresh ascending

theorem grows_post (tailed : Ascending (x.tailOf wid)) (members : ∀ j, j ∈ l ↔ j ∈ x.postOf wid ∨ j = id) :
    x.Grows wid id l x.tails := by
  refine ⟨⟨ascending,fun _ h => by simpa [tailOf,h] using tailed,fun _ _ => rfl,fun j => ?_⟩,fresh,?_⟩
  · simp only [posting,tailOf,mem_append,members]
    tauto
  · intro apart j left right
    rcases (members j).mp left with old | rfl
    · exact apart old right
    · exact fresh (mem_append_right _ right)

theorem grows_tail (posts : Ascending (x.postOf wid)) (members : ∀ j, j ∈ l ↔ j ∈ x.tailOf wid ∨ j = id) :
    x.Grows wid id (x.postOf wid) (x.tails.insert wid l) := by
  refine ⟨⟨posts,?_,fun _ other => by simp [other],fun j => ?_⟩,fresh,?_⟩
  · intro _ found
    rw [AList.lookup_insert] at found
    cases found
    exact ascending
  · simp only [posting,mem_append,AList.lookup_insert,Option.getD_some,members]
    tauto
  · rw [AList.lookup_insert]
    intro apart j left right
    rcases (members j).mp right with old | rfl
    · exact apart left old
    · exact fresh (mem_append_left _ left)

theorem grows_merged (posts : Ascending (x.postOf wid)) (members : ∀ j, j ∈ l ↔ j ∈ x.tailOf wid ∨ j = id) :
    x.Grows wid id (unionSorted (x.postOf wid) l) (x.tails.erase wid) := by
  refine ⟨⟨unionSorted_ascending _ _ posts ascending,by simp,fun _ other => by simp [other],fun _ => ?_⟩,fresh,by simp⟩
  simp only [AList.lookup_erase,Option.getD_none,append_nil,mem_unionSorted,members,posting,mem_append]
  tauto

end

theorem set_postOf (wid : Nat) : x.post.set wid (x.postOf wid) = x.post := by
  apply ext_getElem?
  intro n
  rw [getElem?_set]
  by_cases same : wid = n
  · subst same
    split
    · by_cases bound : wid < x.post.length <;> simp [postOf,bound]
    · simp_all
  · simp [same]

theorem ascending_concat {n : Nat} (ascending : Ascending l)
    (above : l.getLast?.all (· < n) = true) : Ascending (l ++ [n]) := by
  rcases eq_nil_or_concat l with rfl | ⟨_,z,rfl⟩
  · simp
  · simp only [concat_eq_append] at ascending above ⊢
    have ordered := pairwise_append.mp ascending
    have last : z < n := by simpa using above
    refine pairwise_append.mpr ⟨ascending,by simp,fun a ha _ hb => ?_⟩
    rw [mem_singleton.mp hb]
    rcases mem_append.mp ha with h | h
    · exact (ordered.2.2 a h z (by simp)).trans last
    · rw [mem_singleton.mp h]; exact last

/-- What `add` can do: nothing, or list the id under the word. -/
theorem add_cases (wid id : Nat) (posts : Ascending (x.postOf wid)) (tailed : Ascending (x.tailOf wid)) :
    (x.add wid id = (x,false) ∧ id ∈ x.posting wid) ∨ ∃ ids tails,
      x.add wid id = ({ x with post := x.post.set wid ids, tails := tails },true) ∧ x.Grows wid id ids tails := by
  have inserted : ∀ l : List Nat, Ascending l → id ∉ l → Ascending (insertAt l (binarySearch l id).1 id) ∧
      ∀ j, j ∈ insertAt l (binarySearch l id).1 id ↔ j ∈ l ∨ j = id := by
    intro l ascending absent
    refine ⟨insertAt_ascending l id ascending absent,fun _ => ?_⟩
    rw [mem_insertAt]
    tauto
  simp only [add,binarySearch_found _ _ tailed,binarySearch_found _ _ posts]
  split
  next found => exact .inl ⟨rfl,mem_append_right _ found⟩
  next notInTail =>
  have fresh : id ∉ x.postOf wid → id ∉ x.posting wid := fun h => by simp [posting,h,notInTail]
  split
  next above =>
    have ascending := ascending_concat posts above
    have last := fun h => (pairwise_append.mp ascending).2.2 id h id (by simp)
    exact .inr ⟨_,x.tails,rfl,grows_post (fresh fun h => Nat.lt_irrefl _ (last h)) _ ascending tailed (by simp)⟩
  split
  next found => exact .inl ⟨rfl,mem_append_left _ found⟩
  next notFound =>
  obtain ⟨ascending,members⟩ := inserted _ posts notFound
  obtain ⟨ascendingTail,membersTail⟩ := inserted _ tailed notInTail
  split
  · exact .inr ⟨_,x.tails,rfl,grows_post (fresh notFound) _ ascending tailed members⟩
  split
  · refine .inr ⟨x.postOf wid,_,?_,grows_tail (fresh notFound) _ ascendingTail posts membersTail⟩
    rw [set_postOf]
  · exact .inr ⟨_,_,rfl,grows_merged (fresh notFound) _ ascendingTail posts membersTail⟩

theorem add_spec (valid : x.Valid) (wid id : Nat) (known : wid < x.words.length) :
    (x.add wid id).1.Valid ∧ (x.add wid id).1.words = x.words ∧
    ∀ n j, j ∈ (x.add wid id).1.posting n ↔ j ∈ x.posting n ∨ (n = wid ∧ j = id) := by
  rcases x.add_cases wid id (valid.posts wid) (x.tailOf_ascending valid wid) with
    ⟨same,listed⟩ | ⟨ids,tails,changed,relists⟩
  · rw [same]
    refine ⟨valid,rfl,fun n j => ⟨.inl,?_⟩⟩
    rintro (h | ⟨rfl,rfl⟩)
    · exact h
    · exact listed
  · rw [changed]
    obtain ⟨kept,posting⟩ := setPosting_spec x valid known relists.ascending relists.here
      relists.others
    refine ⟨kept,rfl,fun n j => ?_⟩
    rw [posting n]
    by_cases here : n = wid
    · subst here
      simpa using relists.members j
    · simp [here]

theorem Valid.counters {x : NameIndex} (valid : x.Valid) (entries live : Int) :
    Valid { x with entries := entries, live := live } :=
  ⟨valid.sizes,valid.vocab,valid.posts,valid.tails,valid.grams,valid.gramed⟩

theorem add_words (wid id : Nat) : (x.add wid id).1.words = x.words ∧
    (x.add wid id).1.vocab = x.vocab ∧ (x.add wid id).1.grams = x.grams := by
  simp only [add]
  split_ifs <;> exact ⟨rfl,rfl,rfl⟩

/-- The index is valid and lists at least these files under these words, unless it has had
more words than there are ids. -/
def Covers (x : NameIndex) (listed : Bytes → Nat → Prop) : Prop :=
  x.words.length ≤ 2^32 → x.Valid ∧ ∀ w id, listed w id → x.Lists w id

theorem empty_covers : Covers {} (fun _ _ => False) := fun _ => ⟨empty_valid,nofun⟩

section
variable {x : NameIndex} {listed : Bytes → Nat → Prop} (covers : x.Covers listed)
include covers

theorem Covers.mono (fewer : ∀ w id, less w id → listed w id) : x.Covers less :=
  fun fits => ⟨(covers fits).1,fun w id h => (covers fits).2 w id (fewer w id h)⟩

theorem Covers.counters (entries live : Int) : Covers { x with entries := entries, live := live } listed :=
  fun fits => ⟨(covers fits).1.counters _ _,(covers fits).2⟩

theorem Covers.indexWord (id : Nat) (w : Bytes) :
    (indexWord id x w).Covers (fun v j => listed v j ∨ (v = w ∧ j = id)) := by
  have added : Covers ((x.wordID w).1.add (x.wordID w).2 id).1 (fun v j => listed v j ∨ (v = w ∧ j = id)) := by
    intro fits
    rw [(add_words _ _ id).1] at fits
    obtain ⟨valid,old⟩ := covers ((x.wordID_grows w).trans fits)
    obtain ⟨worded,found,lists⟩ := wordID_spec x valid w fits
    obtain ⟨added,words,posting⟩ := add_spec _ worded (x.wordID w).2 id (List.getElem?_eq_some_iff.mp found).1
    refine ⟨added,?_⟩
    simp only [Lists,words,posting]
    rintro v j (h | ⟨rfl,rfl⟩)
    · obtain ⟨wid,word,member⟩ := (lists v j).mpr (old v j h)
      exact ⟨wid,word,.inl member⟩
    · exact ⟨_,found,.inr ⟨rfl,rfl⟩⟩
  simp only [NameIndex.indexWord]
  split
  · exact added.counters _ _
  · exact added

end

theorem Covers.indexName {x : NameIndex} (covers : x.Covers listed) (u : Unicode) (id : Nat) (name : Bytes) :
    (x.indexName u id name).Covers (fun w j => listed w j ∨ (w ∈ nameWords u name ∧ j = id)) := by
  have each : ∀ (ws : List Bytes) (x : NameIndex) (listed : Bytes → Nat → Prop), x.Covers listed →
      (ws.foldl (NameIndex.indexWord id) x).Covers (fun w j => listed w j ∨ (w ∈ ws ∧ j = id)) := by
    intro ws
    induction ws with
    | nil => exact fun x listed covers => covers.mono (by simp)
    | cons w _ ih =>
      refine fun x _ covers => (ih _ _ (covers.indexWord id w)).mono (fun _ _ h => ?_)
      rw [mem_cons] at h
      tauto
  exact each _ _ _ (covers.counters x.entries _)

theorem Covers.indexAll (u : Unicode) (id : α → Nat) (name : α → Bytes) (l : List α) {x : NameIndex}
    (covers : x.Covers listed) : (l.foldl (fun x a => x.indexName u (id a) (name a)) x).Covers
      (fun w j => listed w j ∨ ∃ a ∈ l, w ∈ nameWords u (name a) ∧ j = id a) := by
  induction l generalizing x listed with
  | nil => exact covers.mono (by simp)
  | cons a _ ih =>
    refine (ih (covers.indexName u (id a) (name a))).mono ?_
    rintro _ _ (old | ⟨b,member,word⟩)
    · exact .inl (.inl old)
    · rcases mem_cons.mp member with rfl | later
      · exact .inl (.inr word)
      · exact .inr ⟨b,later,word⟩

theorem Covers.renameFile {x : NameIndex} (covers : x.Covers listed) (u : Unicode) {id : Nat} {oldName : Bytes}
    (known : ∀ w ∈ nameWords u oldName, listed w id) (name : Bytes) :
    (x.renameFile u id oldName name).Covers (fun w j => listed w j ∨ (w ∈ nameWords u name ∧ j = id)) := by
  unfold NameIndex.renameFile
  split
  next same =>
    refine covers.mono ?_
    rintro w _ (old | ⟨word,rfl⟩)
    · exact old
    · exact known w (same ▸ word)
  · exact (covers.counters x.entries _).indexName u id name

theorem keep_ascending (dead : Nat → Bool) (ascending : Ascending ids) :
    Ascending (keep dead ids) := ascending.filter _

theorem mem_keep (dead : Nat → Bool) (ids : List Nat) (id : Nat) :
    id ∈ keep dead ids ↔ id ∈ ids ∧ dead id = false := by
  simp [keep]

theorem purge_postOf (dead : Nat → Bool) (n : Nat) : (x.purge dead).postOf n = keep dead (x.postOf n) := by
  simp only [purge,postOf,getD_eq_getElem?_getD,getElem?_map]
  cases x.post[n]? <;> rfl

theorem purge_tailOf (dead : Nat → Bool) (n : Nat) : (x.purge dead).tailOf n = keep dead (x.tailOf n) := by
  simp only [purge,tailOf,GoMap.lookup_filterMapVals]
  cases x.tails.lookup n with
  | none => rfl
  | some _ =>
    simp only [Option.bind_some,Option.getD_some]
    split
    next empty => exact (length_eq_zero_iff.mp empty).symm
    · rfl

theorem purge_valid (valid : x.Valid) (dead : Nat → Bool) : (x.purge dead).Valid := by
  refine ⟨?_,valid.vocab,?_,?_,valid.grams,valid.gramed⟩
  · simpa [purge] using valid.sizes
  · intro n
    rw [purge_postOf]
    exact keep_ascending dead (valid.posts n)
  · intro n _ found
    simp only [purge,GoMap.lookup_filterMapVals,Option.bind_eq_some_iff] at found
    obtain ⟨old,known,remains⟩ := found
    obtain ⟨bound,ascending⟩ := valid.tails n old known
    split at remains
    · simp at remains
    cases remains
    exact ⟨bound,keep_ascending dead ascending⟩

/-- A purge unlists only the dead. -/
theorem Covers.purge {x : NameIndex} (covers : x.Covers listed) (dead : Nat → Bool) :
    (x.purge dead).Covers (fun w j => listed w j ∧ dead j = false) := by
  intro fits
  obtain ⟨valid,old⟩ := covers fits
  refine ⟨purge_valid x valid dead,?_⟩
  rintro v j ⟨h,alive⟩
  obtain ⟨wid,word,member⟩ := old v j h
  refine ⟨wid,word,?_⟩
  simpa [posting,purge_postOf,purge_tailOf,mem_keep,alive] using member

end NameIndex

end ENode.Storage
