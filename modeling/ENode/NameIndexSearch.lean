import ENode.NameIndex

/-! Looking a search expression up in the name index. The candidates of an expression are
ascending and hold every file that is listed under the words of its name and matches;
`all` means that the index does not narrow the expression. -/
namespace ENode.Storage

open GoText SortedLists List

/-- The ids of the files with a hash, of one size or of any when the size is 0. -/
abbrev HashLookup := Bytes → Nat → List Nat

namespace NameIndex

/-- The lists of a run's trigrams, unless one of them is empty. -/
def gramLists (x : NameIndex) : List Nat → Option (List (List Nat))
  | [] => some []
  | g :: rest =>
    let l := (x.grams.lookup g).getD []
    if l.length = 0 then none else (x.gramLists rest).map (l :: ·)

def intersectAll : List Nat → List (List Nat) → List Nat
  | cand, [] => cand
  | cand, l :: rest => if cand.length = 0 then [] else intersectAll (intersectSorted cand l) rest

def postingLen (x : NameIndex) (wid : Nat) : Nat := (x.postOf wid).length + (x.tailOf wid).length

/-- The sorted union of the lists of several words. -/
def collect (x : NameIndex) (wids : List Nat) : List Nat :=
  match wids with
  | [wid] => if (x.tailOf wid).length = 0 then x.postOf wid else compact (sort (x.posting wid))
  | _ => compact (sort (wids.flatMap x.posting))

section
variable (sorter : SliceSort)

/-- The words a run of at least three bytes occurs in. -/
def wordsContaining (x : NameIndex) (run : Bytes) : List Nat :=
  match x.gramLists (trigrams run) with
  | none => []
  | some lists =>
    match sorter.run List.length lists with
    | [] => []
    | first :: rest => (intersectAll first rest).filter (fun wid => contains (x.words.getD wid []) run)

/-- The words of each run and how many files they list; none when a run has no file. Runs
too short for a trigram are left out. -/
def runSets (x : NameIndex) : List Bytes → Option (List (List Nat × Nat))
  | [] => some []
  | run :: rest =>
    if run.length < 3 then x.runSets rest
    else
      let wids := x.wordsContaining sorter run
      let size := (wids.map x.postingLen).sum
      if size = 0 then none else (x.runSets rest).map ((wids,size) :: ·)

/-- A much wider set barely narrows the result, and the re-check covers it. -/
def narrow (x : NameIndex) : List Nat → List (List Nat × Nat) → List Nat
  | out, [] => out
  | out, s :: rest =>
    if out.length = 0 ∨ s.2 > 16 * out.length then out
    else x.narrow (intersectSorted out (x.collect s.1)) rest

def lookupRuns (u : Unicode) (text : Bytes) : List Bytes :=
  (splitTerms u text).flatMap (fun t => alnumRuns u (toLower u t))

def textCandidates (u : Unicode) (x : NameIndex) (text : Bytes) (limit : Nat) : List Nat × Bool :=
  if (splitTerms u text).length = 0 then ([],false)
  else
    match x.runSets sorter (lookupRuns u text) with
    | none => ([],false)
    | some sets =>
      match sorter.run Prod.snd sets with
      | [] => ([],true)
      | first :: rest =>
        if first.2 > limit then ([],true) else (x.narrow (x.collect first.1) rest,false)

def candidates (u : Unicode) (x : NameIndex) (limit : Nat) (byHash : Option HashLookup) :
    SearchExpr → List Nat × Bool
  | .nil => ([],true)
  | .node kind text tagType valueString valueUint _ left right =>
    match kind with
    | .hash =>
      match byHash with
      | none => ([],true)
      | some files => (compact (sort (files valueString valueUint)),false)
    | .text => x.textCandidates sorter u text limit
    | .string =>
      if tagType = searchTypeText then x.textCandidates sorter u valueString limit else ([],true)
    | .and =>
      let l := x.candidates u limit byHash left
      if !l.2 && l.1.length == 0 then ([],false)
      else
        let r := x.candidates u limit byHash right
        if l.2 then r else if r.2 then (l.1,false) else (intersectSorted l.1 r.1,false)
    | .or =>
      let l := x.candidates u limit byHash left
      if l.2 then ([],true)
      else
        let r := x.candidates u limit byHash right
        if r.2 then ([],true) else (unionSorted l.1 r.1,false)
    | .andNot => x.candidates u limit byHash left
    | _ => ([],true)

end

theorem mem_trigrams (w : Bytes) (g : Nat) : g ∈ trigrams w ↔ ∃ i, i + 3 ≤ w.length ∧ g = trigram (w.drop i) := by
  simp only [trigrams,mem_map,mem_range]
  constructor
  · rintro ⟨i,bound,rfl⟩
    exact ⟨i,by omega,rfl⟩
  · rintro ⟨i,_,rfl⟩
    exact ⟨i,by omega,rfl⟩

theorem trigrams_infix (within : run <:+: w) : trigrams run ⊆ trigrams w := by
  obtain ⟨before,after,rfl⟩ := within
  intro g member
  obtain ⟨i,_,rfl⟩ := (mem_trigrams run g).mp member
  refine (mem_trigrams _ _).mpr ⟨before.length + i,by simp; omega,?_⟩
  have shifted : (before ++ run ++ after).drop (before.length + i) = run.drop i ++ after := by
    rw [append_assoc,drop_append,drop_append_of_le_length (by omega)]
    simp
  have first : ∀ k, k < 3 → (run.drop i ++ after).getD k 0 = (run.drop i).getD k 0 := by
    intro _ _
    rw [getD_append _ _ _ _ (by simp; omega)]
  rw [shifted]
  simp only [trigram,first 0 (by omega),first 1 (by omega),first 2 (by omega)]

variable (x : NameIndex)

theorem gramLists_complete (has : ∀ g ∈ gs, HasGram x.grams g wid) :
    ∃ lists, x.gramLists gs = some lists ∧ lists.length = gs.length ∧ ∀ l ∈ lists, wid ∈ l := by
  induction gs with
  | nil => exact ⟨[],rfl,rfl,by simp⟩
  | cons g _ ih =>
    obtain ⟨lists,found,size,members⟩ := ih (fun g' h => has g' (by simp [h]))
    obtain ⟨l,known,member⟩ := has g (by simp)
    have occupied : ¬ l.length = 0 := by
      rw [length_eq_zero_iff]
      exact ne_nil_of_mem member
    exact ⟨l :: lists,by simp [gramLists,known,occupied,found],by simp [size],by simpa using ⟨member,members⟩⟩

theorem gramLists_ascending (valid : x.Valid) (gs : List Nat) (lists : List (List Nat))
    (found : x.gramLists gs = some lists) : ∀ l ∈ lists, Ascending l := by
  induction gs generalizing lists with
  | nil =>
    cases found
    simp
  | cons g _ ih =>
    simp only [gramLists] at found
    split at found
    · simp at found
    obtain ⟨others,known,rfl⟩ := Option.map_eq_some_iff.mp found
    intro l member
    rcases mem_cons.mp member with rfl | later
    · cases h : x.grams.lookup g with
      | none => simp
      | some l => exact (valid.grams g l h).1
    · exact ih others known l later

theorem intersectAll_spec (cand : List Nat) (lists : List (List Nat)) (ascending : Ascending cand)
    (each : ∀ l ∈ lists, Ascending l) : Ascending (intersectAll cand lists) ∧
    ∀ wid, wid ∈ intersectAll cand lists ↔ wid ∈ cand ∧ ∀ l ∈ lists, wid ∈ l := by
  induction lists generalizing cand with
  | nil => exact ⟨ascending,by simp [intersectAll]⟩
  | cons l _ ih =>
    have here := each l (by simp)
    simp only [intersectAll]
    split
    next empty =>
      rw [length_eq_zero_iff.mp empty]
      simp
    · obtain ⟨ordered,members⟩ := ih (intersectSorted cand l) (intersectSorted_ascending _ _ ascending here)
        (fun l' h => each l' (by simp [h]))
      refine ⟨ordered,fun _ => ?_⟩
      rw [members,mem_intersectSorted _ _ _ ascending here]
      simp only [mem_cons,forall_eq_or_imp]
      tauto

/-- Every word a run occurs in is found through the run's trigrams. -/
theorem wordsContaining_complete (sorter : SliceSort) (x : NameIndex) (valid : x.Valid) (run w : Bytes)
    (wid : Nat) (long : 3 ≤ run.length) (word : x.words[wid]? = some w) (within : run <:+: w) :
    wid ∈ x.wordsContaining sorter run := by
  obtain ⟨lists,found,size,members⟩ := gramLists_complete x
    (fun g h => valid.gramed wid w word g ( trigrams_infix within h))
  have perm := sorter.perm List.length lists
  have each := gramLists_ascending x valid _ lists found
  simp only [wordsContaining,found]
  split
  next empty =>
    have : lists.length = 0 := by rw [← perm.length_eq,empty]; rfl
    simp [trigrams] at size
    omega
  next first rest shape =>
    rw [shape] at perm
    have from_ : ∀ l ∈ first :: rest, l ∈ lists := fun l h => perm.mem_iff.mp h
    obtain ⟨_,inside⟩ := intersectAll_spec first rest (each _ (from_ _ (by simp)))
      (fun l h => each _ (from_ _ (by simp [h])))
    refine mem_filter.mpr ⟨(inside wid).mpr ⟨members _ (from_ _ (by simp)),
      fun _ h => members _ (from_ _ (by simp [h]))⟩,?_⟩
    simpa [getD_eq_getElem?_getD,word,GoText.contains] using within

theorem collect_spec (valid : x.Valid) (wids : List Nat) :
    Ascending (x.collect wids) ∧ ∀ id, id ∈ x.collect wids ↔ ∃ wid ∈ wids, id ∈ x.posting wid := by
  unfold collect
  split
  next wid =>
    split
    next plain =>
      refine ⟨valid.posts wid,fun _ => ?_⟩
      simp [posting,length_eq_zero_iff.mp plain]
    · obtain ⟨ascending,members⟩ := sort_compact (x.posting wid)
      exact ⟨ascending,by simp [members]⟩
  · obtain ⟨ascending,members⟩ := sort_compact (wids.flatMap x.posting)
    exact ⟨ascending,by simp [members]⟩

/-- A file listed under a word with each long run is in every set that is looked up. -/
theorem runSets_complete (sorter : SliceSort) {x : NameIndex} (valid : x.Valid) {id : Nat}
    (listed : ∀ run ∈ runs, 3 ≤ run.length → ∃ w, run <:+: w ∧ x.Lists w id) :
    ∃ sets, x.runSets sorter runs = some sets ∧ ∀ s ∈ sets, id ∈ x.collect s.1 := by
  induction runs with
  | nil => exact ⟨[],rfl,by simp⟩
  | cons run _ ih =>
    obtain ⟨sets,found,members⟩ := ih (fun r h => listed r (by simp [h]))
    simp only [runSets]
    split
    · exact ⟨sets,found,members⟩
    next long =>
      obtain ⟨w,within,wid,word,posted⟩ := listed run (by simp) (by omega)
      have hit := wordsContaining_complete sorter x valid run w wid (by omega) word within
      have occupied : ¬ ((x.wordsContaining sorter run).map x.postingLen).sum = 0 := by
        intro empty
        have none := sum_eq_zero_iff.mp empty (x.postingLen wid) (mem_map.mpr ⟨wid,hit,rfl⟩)
        have : (x.posting wid).length = 0 := by simpa [posting,postingLen] using none
        rw [length_eq_zero_iff.mp this] at posted
        simp at posted
      rw [if_neg occupied,found]
      refine ⟨_,rfl,fun s member => ?_⟩
      rcases mem_cons.mp member with rfl | later
      · exact ((x.collect_spec valid _).2 id).mpr ⟨wid,hit,posted⟩
      · exact members s later

theorem narrow_spec (valid : x.Valid) (out : List Nat) (sets : List (List Nat × Nat)) (ascending : Ascending out) :
    Ascending (x.narrow out sets) ∧ ∀ id, id ∈ out → (∀ s ∈ sets, id ∈ x.collect s.1) → id ∈ x.narrow out sets := by
  induction sets generalizing out with
  | nil => exact ⟨ascending,fun _ h _ => h⟩
  | cons s _ ih =>
    simp only [narrow]
    split
    · exact ⟨ascending,fun _ h _ => h⟩
    have here := (x.collect_spec valid s.1).1
    obtain ⟨ordered,kept⟩ := ih _ (intersectSorted_ascending _ _ ascending here)
    refine ⟨ordered,fun id member each => kept id ?_ (fun s' h => each s' (by simp [h]))⟩
    exact (mem_intersectSorted _ _ _ ascending here).mpr ⟨member,each s (by simp)⟩

theorem textCandidates_spec (sorter : SliceSort) (u : Unicode) (x : NameIndex) (valid : x.Valid)
    (text : Bytes) (limit : Nat) (narrowed : (x.textCandidates sorter u text limit).2 = false) :
    Ascending (x.textCandidates sorter u text limit).1 ∧ ∀ id, splitTerms u text ≠ [] →
      (∀ run ∈ lookupRuns u text, 3 ≤ run.length → ∃ w, run <:+: w ∧ x.Lists w id) →
      id ∈ (x.textCandidates sorter u text limit).1 := by
  unfold textCandidates at *
  split
  next blank => exact ⟨by simp,fun id terms => absurd (length_eq_zero_iff.mp blank) terms⟩
  next terms =>
    rw [if_neg terms] at narrowed
    split
    next missing =>
      refine ⟨by simp,fun id _ listed => ?_⟩
      obtain ⟨sets,found,_⟩ := runSets_complete sorter valid listed
      simp [missing] at found
    next sets found =>
      simp only [found] at narrowed
      split
      next empty => simp [empty] at narrowed
      next first rest shape =>
        simp only [shape] at narrowed
        split
        next wide => simp [wide] at narrowed
        have perm := sorter.perm Prod.snd sets
        rw [shape] at perm
        obtain ⟨ascending,kept⟩ := x.narrow_spec valid (x.collect first.1) rest (x.collect_spec valid _).1
        refine ⟨ascending,fun id _ listed => ?_⟩
        obtain ⟨_,found',members⟩ := runSets_complete sorter valid listed
        rw [found] at found'
        cases found'
        exact kept id (members first (perm.mem_iff.mp (by simp)))
          (fun s h => members s (perm.mem_iff.mp (by simp [h])))

end NameIndex

section
variable (u : Unicode)

theorem encode_length_pos (cur : List Char) : (encode cur).length > 0 ↔ cur ≠ [] := by
  rw [gt_iff_lt,length_pos_iff,Ne,encode_eq_nil]

/-- The runs of a string are the encoded runs of its runes. -/
theorem alnumRuns_eq (s : Bytes) : alnumRuns u s = (maximalRuns u.alnum ((runes s).map Prod.fst)).map encode := by
  have loop : ∀ (rs : List (Char × Bytes)) (built : List Bytes) (cur : List Char),
      (let state := rs.foldl (alnumStep u) (built,encode cur)
       if state.2.length > 0 then state.1 ++ [state.2] else state.1) =
      built ++ (runsFrom u.alnum cur (rs.map Prod.fst)).map encode := by
    intro rs
    induction rs with
    | nil =>
      intro built cur
      cases cur with
      | nil => simp [runsFrom]
      | cons c cur =>
        show (if (encode (c :: cur)).length > 0 then built ++ [encode (c :: cur)] else built) = _
        rw [if_pos ((encode_length_pos (c :: cur)).mpr (by simp))]
        rfl
    | cons r _ ih =>
      intro built cur
      by_cases ok : u.alnum r.1 = true
      · have step : alnumStep u (built,encode cur) r = (built,encode (cur ++ [r.1])) := by simp [alnumStep,ok]
        rw [foldl_cons,step,ih built (cur ++ [r.1])]
        simp [runsFrom,ok]
      · cases cur with
        | nil =>
          have step : alnumStep u (built,encode []) r = (built,encode []) := by simp [alnumStep,ok]
          rw [foldl_cons,step,ih built []]
          simp [runsFrom,ok]
        | cons c cur =>
          have step : alnumStep u (built,encode (c :: cur)) r = (built ++ [encode (c :: cur)],encode []) := by
            rw [alnumStep,if_neg ok,if_pos ((encode_length_pos (c :: cur)).mpr (by simp))]
            rfl
          rw [foldl_cons,step,ih _ []]
          simp [runsFrom,ok]
  exact loop (runes s) [] []

theorem mem_nameWords (name w : Bytes) :
    w ∈ nameWords u name ↔ ∃ run ∈ maximalRuns u.alnum (lowered u name), w = encode run := by
  have raw : (maximalRuns (fun r : Char × Bytes => u.alnum r.1) (runes (toLower u name))).map joinRaw =
      (maximalRuns u.alnum (lowered u name)).map encode := by
    have split := runsFrom_map (fun r : Char × Bytes => u.alnum r.1) u.alnum
      (fun c => (c,String.utf8EncodeChar c)) (fun _ => rfl) [] (lowered u name)
    rw [toLower,runes_encode,maximalRuns,maximalRuns]
    simp only [map_nil] at split
    rw [split,map_map]
    refine map_congr_left (fun run _ => ?_)
    simp [joinRaw,encode,flatMap_map]
  rw [nameWords,(sort_compact _).2,raw,mem_map]
  constructor
  · rintro ⟨run,member,same⟩
    exact ⟨run,member,same.symm⟩
  · rintro ⟨run,member,same⟩
    exact ⟨run,member,same.symm⟩

/-- A text leaf that matches a name has each of its runs inside one word of the name. -/
theorem matchText_words (matches_ : matchText u text (toLower u name) = true) :
    splitTerms u text ≠ [] ∧ ∀ run ∈ NameIndex.lookupRuns u text, ∃ w ∈ nameWords u name, run <:+: w := by
  simp only [matchText,Bool.and_eq_true,Bool.not_eq_true',isEmpty_eq_false_iff,all_eq_true] at matches_
  obtain ⟨occupied,all⟩ := matches_
  refine ⟨fun blank => occupied (by simp [textRuns,blank]),fun run member => ?_⟩
  simp only [NameIndex.lookupRuns,mem_flatMap] at member
  obtain ⟨t,term,found⟩ := member
  have asked : run ∈ textRuns u text := by
    refine mem_flatMap.mpr ⟨t,term,?_⟩
    rw [termRuns,if_pos (length_pos_of_mem found)]
    exact found
  have within : run <:+: toLower u name := by simpa [GoText.contains] using all run asked
  rw [alnumRuns_eq,mem_map] at found
  obtain ⟨chars,isRun,rfl⟩ := found
  obtain ⟨nonempty,accepted⟩ := runsFrom_spec u.alnum [] _ (by simp) chars isRun
  have inName := infix_of_encode chars (lowered u name) nonempty within
  obtain ⟨word,isWord,inside⟩ := infix_maximalRuns u.alnum (lowered u name) chars nonempty accepted inName
  exact ⟨encode word,(mem_nameWords u name _).mpr ⟨word,isWord,rfl⟩, encode_infix chars word inside⟩

/-- The file is listed under every word of its name, and a hash lookup finds it. -/
structure Indexed (x : NameIndex) (byHash : Option HashLookup) (id : Nat) (file : File) : Prop where
  words : ∀ w ∈ nameWords u file.name, x.Lists w id
  hash : ∀ files, byHash = some files → ∀ size, size = 0 ∨ size = file.size → id ∈ files file.hash size

theorem text_narrowed {x : NameIndex} (valid : x.Valid)
    (narrowed : (x.textCandidates sorter u text limit).2 = false) :
    Ascending (x.textCandidates sorter u text limit).1 ∧
    ∀ byHash id file, Indexed u x byHash id file → matchText u text (toLower u file.name) = true →
      id ∈ (x.textCandidates sorter u text limit).1 := by
  obtain ⟨ascending,complete⟩ := x.textCandidates_spec sorter u valid text limit narrowed
  refine ⟨ascending,fun _ id _ indexed hit => ?_⟩
  obtain ⟨terms,inWords⟩ := matchText_words u hit
  refine complete id terms (fun run member _ => ?_)
  obtain ⟨w,word,within⟩ := inWords run member
  exact ⟨w,within,indexed.words w word⟩

/-- When a node of two expressions prunes and what it asks of the two. -/
theorem matchNode_operator (file : File) (lowerName text : Bytes) (tagType : Nat) (value : Bytes) (number : Nat)
    (related : List FileKey) (left right : SearchExpr) :
    let l := matchNode u file lowerName left
    let r := matchNode u file lowerName right
    let node kind := matchNode u file lowerName (.node kind text tagType value number related left right)
    ((node .and).2 = (l.2 && r.2) ∧
      ((node .and).1 = true → (l.2 = true ∨ l.1 = true) ∧ (r.2 = true ∨ r.1 = true))) ∧
    ((node .or).2 = (l.2 && r.2) ∧ ((node .or).1 = true → l.1 = true ∨ r.1 = true)) ∧
    (node .andNot).2 = l.2 ∧ ((node .andNot).1 = true → l.1 = true) := by
  simp only [matchNode]
  rcases matchNode u file lowerName left with ⟨_ | _,_ | _⟩ <;>
    rcases matchNode u file lowerName right with ⟨_ | _,_ | _⟩ <;> simp

/-- An expression the index narrows is not pruned, and every indexed file that matches it
is among the candidates, which are ascending. -/
theorem candidates_spec (sorter : SliceSort) (x : NameIndex) (valid : x.Valid) (limit : Nat)
    (byHash : Option HashLookup) (expr : SearchExpr)
    (narrowed : (x.candidates sorter u limit byHash expr).2 = false) :
    Ascending (x.candidates sorter u limit byHash expr).1 ∧ ∀ id file, Indexed u x byHash id file →
      (matchNode u file (toLower u file.name) expr).2 = false ∧
      ((matchNode u file (toLower u file.name) expr).1 = true →
        id ∈ (x.candidates sorter u limit byHash expr).1) := by
  induction expr with
  | nil => simp [NameIndex.candidates] at narrowed
  | node kind text tagType value number related left right ihl ihr =>
    have rule := fun file : File =>
      matchNode_operator u file (toLower u file.name) text tagType value number related left right
    cases kind with
    | text =>
      obtain ⟨ascending,complete⟩ := text_narrowed u valid narrowed
      exact ⟨ascending,fun id file indexed => ⟨rfl,complete byHash id file indexed⟩⟩
    | string =>
      simp only [NameIndex.candidates] at narrowed ⊢
      split at narrowed
      next isText =>
        obtain ⟨ascending,complete⟩ := text_narrowed u valid narrowed
        rw [if_pos isText]
        refine ⟨ascending,fun id file indexed => ?_⟩
        simp only [matchNode,if_pos isText]
        exact ⟨trivial,complete byHash id file indexed⟩
      · simp at narrowed
    | hash =>
      simp only [NameIndex.candidates] at narrowed ⊢
      cases lookup : byHash with
      | none => simp [lookup] at narrowed
      | some files =>
        obtain ⟨ascending,members⟩ := sort_compact (files value number)
        refine ⟨ascending,fun id file indexed => ⟨rfl,fun hit => (members id).mpr ?_⟩⟩
        simp only [matchNode,matchHashLeaf] at hit
        split at hit
        · simp at hit
        next same =>
        simp only [Bool.or_eq_true,beq_iff_eq] at hit
        rw [← not_not.mp same]
        exact indexed.hash files rfl number (hit.imp_right Eq.symm)
    | and =>
      simp only [NameIndex.candidates] at narrowed ⊢
      generalize x.candidates sorter u limit byHash left = l at *
      generalize x.candidates sorter u limit byHash right = r at *
      cases hl : l.2 with
      | true =>
        simp only [hl,Bool.not_true,Bool.false_and,Bool.false_eq_true,if_false,if_true] at narrowed ⊢
        obtain ⟨ascending,complete⟩ := ihr narrowed
        refine ⟨ascending,fun id file indexed => ?_⟩
        obtain ⟨kept,found⟩ := complete id file indexed
        obtain ⟨prune,hit⟩ := (rule file).1
        exact ⟨by simp [prune,kept],fun h => found ((hit h).2.resolve_left (by simp [kept]))⟩
      | false =>
        obtain ⟨ascending,complete⟩ := ihl hl
        let node := SearchExpr.node .and text tagType value number related left right
        have onLeft : ∀ id file, Indexed u x byHash id file → (matchNode u file (toLower u file.name) node).2 = false ∧
            ((matchNode u file (toLower u file.name) node).1 = true → id ∈ l.1) := by
          intro id file indexed
          obtain ⟨kept,found⟩ := complete id file indexed
          obtain ⟨prune,hit⟩ := (rule file).1
          exact ⟨by rw [prune,kept]; rfl,fun h => found ((hit h).1.resolve_left (by simp [kept]))⟩
        simp only [Bool.not_false,Bool.true_and,beq_iff_eq,length_eq_zero_iff,Bool.false_eq_true,if_false]
        split
        next empty => exact ⟨by simp,empty ▸ onLeft⟩
        split
        · exact ⟨ascending,onLeft⟩
        next hr =>
        obtain ⟨ascendingr,completer⟩ := ihr (Bool.eq_false_of_not_eq_true hr)
        refine ⟨intersectSorted_ascending _ _ ascending ascendingr,fun id file indexed => ?_⟩
        obtain ⟨kept,found⟩ := completer id file indexed
        refine ⟨(onLeft id file indexed).1,fun h => (mem_intersectSorted _ _ _ ascending ascendingr).mpr ?_⟩
        exact ⟨(onLeft id file indexed).2 h,found (((rule file).1.2 h).2.resolve_left (by simp [kept]))⟩
    | or =>
      simp only [NameIndex.candidates] at narrowed ⊢
      generalize x.candidates sorter u limit byHash left = l at *
      generalize x.candidates sorter u limit byHash right = r at *
      cases hl : l.2 with
      | true => simp [hl] at narrowed
      | false =>
        cases hr : r.2 with
        | true => simp [hl,hr] at narrowed
        | false =>
          obtain ⟨ascendingl,completel⟩ := ihl hl
          obtain ⟨ascendingr,completer⟩ := ihr hr
          refine ⟨by simpa using unionSorted_ascending _ _ ascendingl ascendingr,fun id file indexed => ?_⟩
          obtain ⟨keptl,foundl⟩ := completel id file indexed
          obtain ⟨_,foundr⟩ := completer id file indexed
          obtain ⟨prune,hit⟩ := (rule file).2.1
          refine ⟨by simp [prune,keptl],fun h => ?_⟩
          have either : id ∈ unionSorted l.1 r.1 := (mem_unionSorted _ _ _).mpr ((hit h).imp foundl foundr)
          simpa using either
    | andNot =>
      obtain ⟨ascending,complete⟩ := ihl narrowed
      refine ⟨ascending,fun id file indexed => ?_⟩
      obtain ⟨kept,found⟩ := complete id file indexed
      obtain ⟨prune,hit⟩ := (rule file).2.2
      exact ⟨by simp [prune,kept],fun h => found (hit h)⟩
    | uint32 | uint64 | related | other => simp [NameIndex.candidates] at narrowed

end

end ENode.Storage
