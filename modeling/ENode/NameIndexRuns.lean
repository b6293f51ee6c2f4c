import ENode.NameIndexSearch
import ENode.RuneSplits

/-! The name index over whole runs. The lists of every word stay ascending and disjoint and
`entries` counts them; the trigrams lead to exactly the words with a run until the
vocabulary outgrows the ids. -/
namespace ENode.Storage

open GoText SortedLists List

namespace NameIndex

inductive IndexOp where
  | index (id : Nat) (name : Bytes)
  | rename (id : Nat) (oldName name : Bytes)
  | remove (name : Bytes)
  | purge (dead : Nat → Bool)

def step (u : Unicode) (x : NameIndex) : IndexOp → NameIndex
  | .index id name => x.indexName u id name
  | .rename id oldName name => x.renameFile u id oldName name
  | .remove name => x.removeFile u name
  | .purge dead => x.purge dead

/-- What every run keeps. -/
structure Kept (x : NameIndex) : Prop where
  sizes : x.post.length = x.words.length
  known : ∀ w wid, x.vocab.lookup w = some wid → wid < x.words.length
  lists : ∀ wid, Ascending (x.postOf wid) ∧ Ascending (x.tailOf wid) ∧ (x.postOf wid).Disjoint (x.tailOf wid)
  tailed : ∀ wid tail, x.tails.lookup wid = some tail → wid < x.words.length
  count : x.entries = ∑ wid ∈ Finset.range x.words.length, (x.postingLen wid : Int)

theorem empty_kept : Kept {} := by
  constructor <;> simp [postOf,tailOf]

variable {x : NameIndex}

theorem Kept.wordID (kept : x.Kept) (w : Bytes) :
    (x.wordID w).1.Kept ∧ (x.wordID w).2 < (x.wordID w).1.words.length := by
  unfold NameIndex.wordID
  split
  next wid known => exact ⟨kept,kept.known w wid known⟩
  have post : ∀ n, (x.post ++ [[]]).getD n [] = x.postOf n := Slab.getD_concat x.post []
  have wraps := Nat.mod_le x.words.length (2^32)
  refine ⟨⟨?_,?_,?_,?_,?_⟩,Nat.lt_of_le_of_lt wraps (by simp)⟩
  · simp [kept.sizes]
  · intro v wid found
    rw [GoMap.lookup_insert_ite] at found
    rw [length_append,length_singleton]
    split at found
    · cases found
      omega
    · exact Nat.lt_succ_of_lt (kept.known v wid found)
  · intro wid
    rw [postOf,post]
    exact kept.lists wid
  · intro wid tail found
    rw [length_append,length_singleton]
    exact Nat.lt_succ_of_lt (kept.tailed wid tail found)
  · -- the word's place is new, even where its id is not
    have fresh : x.tails.lookup x.words.length = none := by
      by_contra held
      obtain ⟨tail,held⟩ := Option.ne_none_iff_exists'.mp held
      exact Nat.lt_irrefl _ (kept.tailed _ tail held)
    rw [length_append,length_singleton,Finset.sum_range_succ]
    simp only [postingLen,postOf,post,tailOf,fresh]
    rw [kept.count]
    simp [postingLen,postOf,tailOf,kept.sizes]

theorem Kept.grown {wid id : Nat} {tails : GoMap Nat (List Nat)} (kept : x.Kept)
    (known : wid < x.words.length) (grows : x.Grows wid id ids tails) :
    Kept { x with post := x.post.set wid ids, tails := tails, entries := x.entries + 1 } := by
  have post : ∀ n, (x.post.set wid ids).getD n [] = if n = wid then ids else x.postOf n :=
    fun n => BinaryHeap.getD_set x.post wid ids n [] (kept.sizes ▸ known)
  have tail : ∀ n, (tails.lookup n).getD [] = if n = wid then (tails.lookup wid).getD [] else x.tailOf n := by
    intro n
    split
    next same => rw [same]
    next other => rw [grows.others n other,tailOf]
  have here : Ascending ((tails.lookup wid).getD []) := by
    cases held : tails.lookup wid with
    | none => exact Pairwise.nil
    | some t => exact grows.here t held
  obtain ⟨posts,tailed,apart⟩ := kept.lists wid
  have apart' := grows.apart apart
  refine ⟨by simp [kept.sizes],kept.known,?_,?_,?_⟩
  · intro n
    rw [postOf,tailOf,post,tail]
    split
    · exact ⟨grows.ascending,here,apart'⟩
    · exact kept.lists n
  · intro n held found
    by_cases same : n = wid
    · exact same ▸ known
    · exact kept.tailed n held (grows.others n same ▸ found)
  · -- the lists of the word hold what they held and the id, each once
    have perm : (ids ++ (tails.lookup wid).getD []).Perm (id :: x.posting wid) :=
      (perm_ext_iff_of_nodup (nodup_append'.mpr ⟨grows.ascending.nodup,here.nodup,apart'⟩)
        (nodup_cons.mpr ⟨grows.fresh,nodup_append'.mpr ⟨posts.nodup,tailed.nodup,apart⟩⟩)).mpr
        (fun _ => by rw [grows.members,mem_cons,or_comm])
    have size : ids.length + ((tails.lookup wid).getD []).length = x.postingLen wid + 1 := by
      simpa [posting,postingLen] using perm.length_eq
    have each : ∀ n, (postingLen { x with post := x.post.set wid ids, tails := tails, entries := x.entries + 1 } n : Int) =
        x.postingLen n + if n = wid then 1 else 0 := by
      intro _
      rw [postingLen,postOf,tailOf,post,tail]
      split
      next same => rw [size,same]; rfl
      · simp [postingLen]
    simp only [each,Finset.sum_add_distrib,Finset.sum_ite_eq',Finset.mem_range,known,if_true]
    rw [kept.count]

theorem Kept.indexWord (kept : x.Kept) (id : Nat) (w : Bytes) : (indexWord id x w).Kept := by
  obtain ⟨worded,known⟩ := kept.wordID w
  simp only [NameIndex.indexWord]
  rcases add_cases _ (x.wordID w).2 id (worded.lists _).1 (worded.lists _).2.1 with ⟨same,_⟩ | ⟨ids,tails,same,grows⟩
  · simpa [same] using worded
  · simpa [same] using worded.grown known grows

theorem Kept.live (kept : x.Kept) (live : Int) : Kept { x with live := live } :=
  ⟨kept.sizes,kept.known,kept.lists,kept.tailed,kept.count⟩

theorem Kept.indexName (kept : x.Kept) (u : Unicode) (id : Nat) (name : Bytes) : (x.indexName u id name).Kept := by
  have each : ∀ (ws : List Bytes) (x : NameIndex), x.Kept → (ws.foldl (NameIndex.indexWord id) x).Kept := by
    intro ws
    induction ws with
    | nil => exact fun _ kept => kept
    | cons w _ ih => exact fun _ kept => ih _ (kept.indexWord id w)
  exact each _ _ (kept.live _)

/-- A sum over all posting lists and tails is one over the words. -/
theorem Kept.sum (kept : x.Kept) (f : List Nat → Int) (zero : f [] = 0) :
    (x.post.map f).sum + ((GoMap.pairs x.tails).map (fun e => f e.2)).sum =
      ∑ wid ∈ Finset.range x.words.length, (f (x.postOf wid) + f (x.tailOf wid)) := by
  have posts : ∀ post : List (List Nat), (post.map f).sum = ∑ n ∈ Finset.range post.length, f (post.getD n []) := by
    intro post
    induction post with
    | nil => rfl
    | cons _ _ ih =>
      rw [length_cons,Finset.sum_range_succ',map_cons,sum_cons,ih,add_comm]
      rfl
  have keys : (GoMap.pairs x.tails).map (fun e => f e.2) = ((GoMap.pairs x.tails).map Prod.fst).map
      (fun n => f (x.tailOf n)) := by
    rw [map_map]
    refine map_congr_left (fun e member => ?_)
    simp [tailOf,(GoMap.mem_pairs x.tails e.1 e.2).mp member]
  rw [posts,kept.sizes,keys,← sum_toFinset _ (GoMap.pairs_keys_nodup x.tails),Finset.sum_add_distrib]
  congr 1
  refine Finset.sum_subset (fun n member => ?_) (fun n _ absent => ?_)
  · obtain ⟨e,held,rfl⟩ := mem_map.mp (mem_toFinset.mp member)
    exact Finset.mem_range.mpr (kept.tailed e.1 e.2 ((GoMap.mem_pairs ..).mp held))
  · cases held : x.tails.lookup n with
    | none => rw [tailOf,held,Option.getD_none,zero]
    | some tail =>
      exact absurd (mem_toFinset.mpr (mem_map.mpr ⟨(n,tail),(GoMap.mem_pairs ..).mpr held,rfl⟩)) absent

theorem Kept.purge (kept : x.Kept) (dead : Nat → Bool) : (x.purge dead).Kept := by
  refine ⟨by simpa [NameIndex.purge] using kept.sizes,kept.known,?_,?_,?_⟩
  · intro n
    obtain ⟨posts,tails,apart⟩ := kept.lists n
    rw [purge_postOf,purge_tailOf]
    refine ⟨keep_ascending dead posts,keep_ascending dead tails,fun _ left right => ?_⟩
    exact apart ((mem_keep ..).mp left).1 ((mem_keep ..).mp right).1
  · intro n _ found
    simp only [NameIndex.purge,GoMap.lookup_filterMapVals,Option.bind_eq_some_iff] at found
    obtain ⟨old,held,_⟩ := found
    exact kept.tailed n old held
  · have dropped := kept.sum (fun ids => ids.length - (keep dead ids).length) rfl
    have entries : (x.purge dead).entries = x.entries - _ := (sub_sub _ _ _).trans (congrArg _ dropped)
    rw [entries,kept.count,← Finset.sum_sub_distrib]
    refine Finset.sum_congr rfl (fun _ _ => ?_)
    rw [postingLen,postingLen,purge_postOf,purge_tailOf]
    push_cast
    ring

theorem Kept.step (kept : x.Kept) (u : Unicode) (op : IndexOp) : (x.step u op).Kept := by
  cases op with
  | index id name => exact kept.indexName u id name
  | rename id _ name =>
    simp only [NameIndex.step,NameIndex.renameFile]
    split
    · exact kept
    · exact (kept.live _).indexName u id name
  | remove _ => exact kept.live _
  | purge dead => exact kept.purge dead

theorem Covers.step (covers : x.Covers (fun _ _ => False)) (u : Unicode) (op : IndexOp) :
    (x.step u op).Covers (fun _ _ => False) := by
  cases op with
  | index id name => exact (covers.indexName u id name).mono nofun
  | rename id _ name =>
    simp only [NameIndex.step,NameIndex.renameFile]
    split
    · exact covers
    · exact ((covers.counters x.entries _).indexName u id name).mono nofun
  | remove _ => exact covers.counters x.entries _
  | purge dead => exact (covers.purge dead).mono nofun

theorem found_within (sorter : SliceSort) (found : wid ∈ x.wordsContaining sorter run) :
    run <:+: x.words.getD wid [] := by
  simp only [wordsContaining] at found
  split at found
  · cases found
  split at found
  · cases found
  simpa [GoText.contains] using (mem_filter.mp found).2

/-- The words a run occurs in are found through its trigrams, and no others. -/
theorem mem_wordsContaining (sorter : SliceSort) (valid : x.Valid) (run : Bytes) (wid : Nat) (long : 3 ≤ run.length) :
    wid ∈ x.wordsContaining sorter run ↔ ∃ w, x.vocab.lookup w = some wid ∧ run <:+: w := by
  constructor
  · intro found
    have within := found_within sorter found
    rw [getD_eq_getElem?_getD] at within
    cases word : x.words[wid]? with
    | none =>
      rw [word,Option.getD_none,infix_nil] at within
      simp [within] at long
    | some w => exact ⟨w,(valid.vocab w wid).mpr word,by simpa [word] using within⟩
  · rintro ⟨w,known,within⟩
    exact wordsContaining_complete sorter x valid run w wid long ((valid.vocab w wid).mp known) within

theorem run_kept (u : Unicode) (ops : List IndexOp) (x : NameIndex) (kept : x.Kept)
    (covers : x.Covers (fun _ _ => False)) :
    (ops.foldl (step u) x).Kept ∧ (ops.foldl (step u) x).Covers (fun _ _ => False) := by
  induction ops generalizing x with
  | nil => exact ⟨kept,covers⟩
  | cons op _ ih => exact ih _ (kept.step u op) (covers.step u op)

/-- The structure of the index after every run. -/
theorem index_structure (u : Unicode) (sorter : SliceSort) (ops : List IndexOp) :
    let x := ops.foldl (step u) {}
    (∀ wid, Ascending (x.postOf wid) ∧ Ascending (x.tailOf wid) ∧ (x.postOf wid).Disjoint (x.tailOf wid)) ∧
    x.entries = ∑ wid ∈ Finset.range x.words.length, (x.postingLen wid : Int) ∧
    (x.words.length ≤ 2^32 → ∀ run wid, 3 ≤ run.length →
      (wid ∈ x.wordsContaining sorter run ↔ ∃ w, x.vocab.lookup w = some wid ∧ run <:+: w)) ∧
    ∀ a b : List Nat, Ascending a → Ascending b →
      (Ascending (intersectSorted a b) ∧ ∀ id, id ∈ intersectSorted a b ↔ id ∈ a ∧ id ∈ b) ∧
      (Ascending (unionSorted a b) ∧ ∀ id, id ∈ unionSorted a b ↔ id ∈ a ∨ id ∈ b) := by
  intro _
  obtain ⟨kept,covers⟩ := run_kept u ops {} empty_kept empty_covers
  refine ⟨kept.lists,kept.count,?_,?_⟩
  · exact fun small run wid long => mem_wordsContaining sorter (covers small).1 run wid long
  · intro a b ha hb
    exact ⟨⟨intersectSorted_ascending a b ha hb,fun id => mem_intersectSorted a b id ha hb⟩,
      unionSorted_ascending a b ha hb,fun id => mem_unionSorted a b id⟩

/-- 33 letters that spell a number in binary. -/
def spelled (n : Nat) : List Char := (List.range 33).map (fun i => if n.testBit i then 'b' else 'a')

theorem spelled_inj (hm : m < 2^33) (hn : n < 2^33)
    (within : encode (spelled m) <:+: encode (spelled n)) : m = n := by
  have same : spelled m = spelled n :=
    (infix_of_encode _ _ (by simp [spelled]) within).eq_of_length (by simp [spelled])
  apply Nat.eq_of_testBit_eq
  intro i
  by_cases low : i < 33
  · have letter := map_inj_left.mp same i (mem_range.mpr low)
    cases hm : m.testBit i <;> cases hn : n.testBit i <;> simp_all
  · have high : 2^33 ≤ 2^i := Nat.pow_le_pow_right (by omega) (by omega)
    rw [Nat.testBit_lt_two_pow (hm.trans_le high),Nat.testBit_lt_two_pow (hn.trans_le high)]

theorem spelled_letter (member : c ∈ spelled n) :
    Char.toLower c = c ∧ Unicode.ascii.alnum c = true ∧ Unicode.ascii.isSpace c = false := by
  obtain ⟨_,_,rfl⟩ := mem_map.mp member
  split <;> decide

theorem toLower_spelled (n : Nat) : toLower .ascii (encode (spelled n)) = encode (spelled n) := by
  rw [toLower,lowered,runes_encode,map_map]
  exact congrArg encode ((map_congr_left (fun _ member => (spelled_letter member).1)).trans (map_id _))

theorem spelled_words (n : Nat) : nameWords .ascii (encode (spelled n)) = [encode (spelled n)] := by
  have one : maximalRuns (fun r => Unicode.ascii.alnum r.1) (runes (encode (spelled n))) = [runes (encode (spelled n))] := by
    refine runsFrom_all _ [] _ (fun _ member => ?_) (by simp [runes_encode,spelled])
    rw [runes_encode] at member
    obtain ⟨_,letter,rfl⟩ := mem_map.mp member
    exact (spelled_letter letter).2.1
  rw [nameWords,toLower_spelled,one,map_singleton,joinRaw_runes]
  rfl

/-- The index has had the words of the first numbers. -/
structure Spelt (x : NameIndex) (n : Nat) : Prop where
  words : x.words = (List.range n).map (fun i => encode (spelled i))
  vocab : ∀ m < 2^33, x.vocab.lookup (encode (spelled m)) = if m < n then some (m % 2^32) else none
  grams : ∀ g wid, HasGram x.grams g wid → wid < 2^32

theorem empty_spelt : Spelt {} 0 := ⟨rfl,fun _ _ => rfl,fun _ _ ⟨_,known,_⟩ => nomatch known⟩

theorem Spelt.counters (spelt : x.Spelt n) (entries live : Int) : Spelt { x with entries := entries, live := live } n :=
  ⟨spelt.words,spelt.vocab,spelt.grams⟩

theorem Spelt.indexWord (spelt : x.Spelt n) (fits : n < 2^33) (id : Nat) :
    (indexWord id x (encode (spelled n))).Spelt (n+1) := by
  have unknown := spelt.vocab n fits
  rw [if_neg (Nat.lt_irrefl n)] at unknown
  have grams : ∀ (gs : List Nat) (grams : GoMap Nat (List Nat)), (∀ g wid, HasGram grams g wid → wid < 2^32) →
      ∀ g wid, HasGram (gs.foldl (addGram (n % 2^32)) grams) g wid → wid < 2^32 := by
    intro gs
    induction gs with
    | nil => exact fun _ below => below
    | cons _ _ ih =>
      refine fun grams below => ih _ (fun g wid has => ?_)
      rcases (addGram_has ..).mp has with old | ⟨-,rfl⟩
      · exact below g wid old
      · exact Nat.mod_lt _ (by decide)
  let given := x.wordID (encode (spelled n))
  have worded : given.1.Spelt (n+1) := by
    simp only [given,wordID,unknown,spelt.words,length_map,length_range]
    refine ⟨by rw [range_succ,map_append,map_singleton],fun m small => ?_,grams _ _ spelt.grams⟩
    rw [GoMap.lookup_insert_ite]
    split
    next same =>
      obtain rfl := spelled_inj small fits (by rw [same])
      rw [if_pos (Nat.lt_succ_self m)]
    next other =>
      have apart : m ≠ n := fun same => other (by rw [same])
      rw [spelt.vocab m small]
      exact if_congr (by omega) rfl rfl
  obtain ⟨words,vocab,same⟩ := add_words given.1 given.2 id
  have added : Spelt (given.1.add given.2 id).1 (n+1) :=
    ⟨words.trans worded.words,vocab ▸ worded.vocab,same ▸ worded.grams⟩
  simp only [NameIndex.indexWord]
  split
  · exact added.counters _ _
  · exact added

theorem Spelt.indexName (spelt : x.Spelt n) (fits : n < 2^33) (id : Nat) :
    (x.indexName .ascii id (encode (spelled n))).Spelt (n+1) := by
  rw [NameIndex.indexName,spelled_words]
  exact (spelt.counters x.entries _).indexWord fits id

theorem mem_intersectAll (found : wid ∈ intersectAll cand lists) : ∃ l ∈ cand :: lists, wid ∈ l := by
  induction lists generalizing cand with
  | nil => exact ⟨cand,by simp,found⟩
  | cons l _ ih =>
    rw [intersectAll] at found
    split at found
    · cases found
    obtain ⟨l',member,inside⟩ := ih found
    rcases mem_cons.mp member with rfl | later
    · rcases intersectSorted_subset _ _ inside with h | h
      · exact ⟨cand,by simp,h⟩
      · exact ⟨l,by simp,h⟩
    · exact ⟨l',by simp [later],inside⟩

theorem mem_gramLists (found : x.gramLists gs = some lists) (member : l ∈ lists) (inside : wid ∈ l) :
    ∃ g, HasGram x.grams g wid := by
  induction gs generalizing lists with
  | nil =>
    cases found
    cases member
  | cons g _ ih =>
    simp only [gramLists] at found
    split at found
    · cases found
    obtain ⟨_,known,rfl⟩ := Option.map_eq_some_iff.mp found
    rcases mem_cons.mp member with rfl | later
    · cases held : x.grams.lookup g with
      | none => simp [held] at inside
      | some l => exact ⟨g,l,held,by simpa [held] using inside⟩
    · exact ih known later

theorem found_gram (sorter : SliceSort) (found : wid ∈ x.wordsContaining sorter run) : ∃ g, HasGram x.grams g wid := by
  simp only [wordsContaining] at found
  split at found
  · cases found
  next lists known =>
  split at found
  · cases found
  next first rest shape =>
  obtain ⟨_,member,inside⟩ := mem_intersectAll (mem_filter.mp found).1
  exact mem_gramLists known ((sorter.perm List.length lists).mem_iff.mp (shape ▸ member)) inside

/-- The word after the last id is not found: the ids under its trigrams are other words'. -/
theorem Spelt.missed (spelt : x.Spelt (2^32+1)) (sorter : SliceSort) :
    x.wordsContaining sorter (encode (spelled (2^32))) = [] := by
  refine eq_nil_iff_forall_not_mem.mpr (fun wid found => ?_)
  obtain ⟨g,has⟩ := found_gram sorter found
  have small := spelt.grams g wid has
  have within := found_within sorter found
  rw [spelt.words,getD_eq_getElem?_getD,getElem?_map,getElem?_range (by omega)] at within
  exact absurd (spelled_inj (by omega) (by omega) within) (by omega)

theorem spelled_length (n : Nat) : 3 ≤ (encode (spelled n)).length := by
  have bytes := length_le_sum_of_one_le ((spelled n).map (fun c => (String.utf8EncodeChar c).length))
    (by simpa using fun c _ => c.utf8Size_pos)
  rw [length_map,spelled,length_map,length_range] at bytes
  rw [encode,length_flatMap]
  exact le_trans (by decide) bytes

/-- One file is named after one number after another. -/
def spelling (n : Nat) : List IndexOp := (List.range n).map (fun i => .index 0 (encode (spelled i)))

theorem spelling_run (n : Nat) (fits : n ≤ 2^33) : ((spelling n).foldl (step .ascii) {}).Spelt n := by
  induction n with
  | zero => exact empty_spelt
  | succ _ ih =>
    rw [spelling,range_succ,map_append,foldl_append,map_singleton,foldl_cons,foldl_nil]
    exact Spelt.indexName (ih (by omega)) (by omega) 0

theorem word_ids_wrap : ∃ (ops : List IndexOp) (w : Bytes) (wid : Nat), let x := ops.foldl (step .ascii) {}
    x.vocab.lookup w = some wid ∧ 3 ≤ w.length ∧ ∀ sorter, wid ∉ x.wordsContaining sorter w := by
  have spelt := spelling_run (2^32+1) (by omega)
  refine ⟨spelling (2^32+1),encode (spelled (2^32)),0,?_,spelled_length _,fun _ => ?_⟩
  · rw [spelt.vocab _ (by omega),if_pos (by omega),Nat.mod_self]
  · rw [spelt.missed]
    exact not_mem_nil

end NameIndex
end ENode.Storage
