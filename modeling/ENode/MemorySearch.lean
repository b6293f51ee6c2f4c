import ENode.MemoryRoster
import ENode.NameIndexRuns
import ENode.SearchReduce

/-! Searching the memory engine. The name index narrows a search to candidates that are
checked again, so the answer is the one a scan of every record gives. -/
namespace ENode.Storage

open GoText SortedLists Slab List

def searchRankScan : Nat := 20000

structure RankEntry where
  sources : Nat
  id : Nat
  tie : UInt64
  idx : Nat

/-- The id only makes the order total. -/
def RankEntry.below (a b : RankEntry) : Bool :=
  if a.sources ≠ b.sources then decide (a.sources < b.sources)
  else if a.tie ≠ b.tie then decide (a.tie < b.tie)
  else decide (a.id > b.id)

def littleEndian (bytes : List UInt8) : Nat := bytes.foldr (fun b n => b.toNat + 2^8 * n) 0

/-- `binary.LittleEndian.PutUint`: the low bytes first. -/
def putLittleEndian : Nat → Nat → Bytes
  | 0, _ => []
  | n+1, v => UInt8.ofNat (v % 2^8) :: putLittleEndian n (v / 2^8)

def rankTie (seed : UInt64) (f : File) : UInt64 :=
  let head := (f.hash ++ replicate 8 0).take 8
  let z := seed ^^^ UInt64.ofNat (littleEndian head) ^^^ (UInt64.ofNat f.size * 0x9e3779b97f4a7c15)
  let z := (z ^^^ (z >>> 30)) * 0xbf58476d1ce4e5b9
  let z := (z ^^^ (z >>> 27)) * 0x94d049bb133111eb
  z ^^^ (z >>> 31)

/-- `fnv.New64a`. -/
def fnvWrite (h : UInt64) (bytes : Bytes) : UInt64 :=
  bytes.foldl (fun h b => (h ^^^ UInt64.ofNat b.toNat) * 1099511628211) h

def SearchKind.value : SearchKind → Nat
  | .text => 0 | .and => 1 | .or => 2 | .andNot => 3 | .string => 4 | .uint32 => 5 | .uint64 => 6
  | .hash => 7 | .related => 8 | .other value => value

def seedWalk (h : UInt64) : SearchExpr → UInt64
  | .nil => fnvWrite h [0]
  | .node kind text tagType valueString valueUint _ left right =>
    let h := fnvWrite h (UInt8.ofNat (kind.value + 1) :: putLittleEndian 4 tagType ++ putLittleEndian 8 valueUint)
    let h := fnvWrite (fnvWrite h text) [0]
    let h := fnvWrite (fnvWrite h valueString) [0]
    seedWalk (seedWalk h left) right

def searchSeed (expr : SearchExpr) : UInt64 := seedWalk 14695981039346656037 expr

/-- The answer to one search. The heap, the worst kept file on top, is built when there
are more matches than fit. -/
structure SearchRanker where
  out : List File := []
  ids : List Nat := []
  heap : Option (List RankEntry) := none
  seed : UInt64 := 0
  count : Nat := 0

namespace SearchRanker

def entryAt (h : List RankEntry) (i : Nat) : RankEntry := h.getD i ⟨0,0,0,0⟩

def siftDown : Nat → List RankEntry → Nat → List RankEntry
  | 0, h, _ => h
  | fuel+1, h, i =>
    let pick (least child : Nat) : Nat :=
      if child < h.length ∧ (entryAt h child).below (entryAt h least) then child else least
    let least := pick (pick i (2*i+1)) (2*i+2)
    if least = i then h
    else siftDown fuel ((h.set i (entryAt h least)).set least (entryAt h i)) least

def buildHeap (h : List RankEntry) : List RankEntry :=
  (List.range (h.length / 2)).reverse.foldl (siftDown h.length) h

variable (expr : SearchExpr) (results scan : Nat)

def overflow (r : SearchRanker) : SearchRanker :=
  match r.heap with
  | some _ => r
  | none =>
    let seed := searchSeed expr
    let entries := (r.out.zip r.ids).zipIdx.map (fun e =>
      (⟨e.1.1.sources,e.1.2,rankTie seed e.1.1,e.2⟩ : RankEntry))
    { r with seed := seed, ids := [], heap := some (buildHeap entries) }

/-- Takes one match; false when the search should stop. -/
def add (r : SearchRanker) (id : Nat) (f : File) : SearchRanker × Bool :=
  let r := { r with count := r.count + 1 }
  if r.out.length < results then ({ r with out := r.out ++ [f], ids := r.ids ++ [id] },true)
  else
    let r := r.overflow expr
    let h := r.heap.getD []
    let e : RankEntry := ⟨f.sources,id,rankTie r.seed f,(entryAt h 0).idx⟩
    let r := if (entryAt h 0).below e then
      { r with out := r.out.set e.idx f, heap := some (siftDown h.length (h.set 0 e) 0) } else r
    (r,decide (r.count < scan))

/-- In the order of the matches when all of them fit, best first otherwise. -/
def result (r : SearchRanker) : List File :=
  match r.heap with
  | none => r.out
  | some h => (h.insertionSort (fun a b => !a.below b)).map (fun e => r.out.getD e.idx {})

end SearchRanker

namespace MemoryEngine

section
variable (u : Unicode) (e : MemoryEngine) (expr : SearchExpr)

/-- The record as a file when it is live and matches. -/
def matchLocked (id : Nat) : Option File :=
  if (e.record id).live = false then none
  else if searchMatch u expr (e.fileLocked id) then some (e.fileLocked id) else none

/-- Ranks the matches among the ids until the ranker has seen enough. -/
def rankIDs : SearchRanker → List Nat → SearchRanker
  | r, [] => r
  | r, id :: rest =>
    match e.matchLocked u expr id with
    | none => rankIDs r rest
    | some f =>
      let (r,more) := r.add expr maxSearchResults searchRankScan id f
      if more then rankIDs r rest else r

def searchCandidates (sorter : SliceSort) : List Nat × Bool :=
  e.names.candidates sorter u (max candidateFloor (e.count / 8)) (some e.hashIDsLocked) expr

def findBySearch (sorter : SliceSort) : List File :=
  if expr = .nil ∨ searchPrunes u expr = true then []
  else
    let (ids,all) := e.searchCandidates u expr sorter
    (e.rankIDs u expr {} (if all then List.range e.recs.length else ids)).result

/-- The live records in id order that the expression accepts. -/
def liveMatches : List (Nat × File) :=
  (List.range e.recs.length).filterMap (fun id =>
    if (e.record id).live = true ∧ matchSearchExpr u expr (e.fileLocked id) = true
    then some (id,e.fileLocked id) else none)

def rankAll : SearchRanker → List (Nat × File) → SearchRanker
  | r, [] => r
  | r, (id,f) :: rest =>
    let (r,more) := r.add expr maxSearchResults searchRankScan id f
    if more then rankAll r rest else r

def scanSearch : List File := (rankAll expr {} (e.liveMatches u expr)).result

end

section
variable {u : Unicode} {e : MemoryEngine} {expr : SearchExpr}

theorem rankIDs_eq (r : SearchRanker) (ids : List Nat) : e.rankIDs u expr r ids =
      rankAll expr r (ids.filterMap (fun id => (e.matchLocked u expr id).map (fun f => (id,f)))) := by
  induction ids generalizing r with
  | nil => rfl
  | cons id _ ih =>
    cases found : e.matchLocked u expr id with
    | none =>
      rw [filterMap_cons_none (by simp [found]),rankIDs,found]
      exact ih r
    | some f =>
      rw [filterMap_cons_some (b := (id,f)) (by simp [found]),rankIDs,found,rankAll]
      dsimp only
      split
      · exact ih _
      · rfl

theorem searchMatch_pruned (pruned : searchPrunes u expr = true) (file : File) :
    searchMatch u expr file = false := by
  rw [searchPrunes_reduce u expr []] at pruned
  rw [searchMatch,matchNode_reduce u file _ expr [],if_pos (by rw [outcome_pruned,pruned])]

theorem liveMatches_eq (kept : expr ≠ .nil) : e.liveMatches u expr =
    (List.range e.recs.length).filterMap (fun id => (e.matchLocked u expr id).map (fun f => (id,f))) := by
  refine filterMap_congr (fun id _ => ?_)
  rw [matchSearchExpr,if_neg kept,matchLocked]
  cases (e.record id).live <;> cases searchMatch u expr (e.fileLocked id) <;> rfl

theorem liveMatches_pruned (pruned : expr = .nil ∨ searchPrunes u expr = true) : e.liveMatches u expr = [] := by
  refine filterMap_eq_nil_iff.mpr (fun _ _ => if_neg ?_)
  rintro ⟨_,accepted⟩
  rcases pruned with rfl | pruned
  · simp [matchSearchExpr] at accepted
  · rw [matchSearchExpr] at accepted
    split at accepted <;> simp [searchMatch_pruned pruned] at accepted

theorem countSource_fields (f : File) (s : MemSource) :
    (countSource f s).name = f.name ∧ (countSource f s).size = f.size ∧ (countSource f s).hash = f.hash := by
  unfold countSource
  split
  · exact ⟨rfl,rfl,rfl⟩
  dsimp only
  split <;> exact ⟨rfl,rfl,rfl⟩

theorem countSources_fields (l : List MemSource) (f : File) :
    (l.foldl countSource f).name = f.name ∧ (l.foldl countSource f).size = f.size ∧
    (l.foldl countSource f).hash = f.hash := by
  induction l generalizing f with
  | nil => exact ⟨rfl,rfl,rfl⟩
  | cons s _ ih =>
    obtain ⟨name,size,hash⟩ := ih (countSource f s)
    obtain ⟨name₁,size₁,hash₁⟩ := countSource_fields f s
    exact ⟨name.trans name₁,size.trans size₁,hash.trans hash₁⟩

theorem fileLocked_fields (e : MemoryEngine) (id : Nat) : (e.fileLocked id).name = (e.record id).name ∧
    (e.fileLocked id).size = (e.record id).size ∧ (e.fileLocked id).hash = (stored (e.record id)).hash :=
  countSources_fields _ _

theorem live_indexed (good : e.Structured) (contents : Contents u e) (fits : e.names.words.length ≤ 2^32) {id : Nat}
    (live : (e.record id).live = true) : Indexed u e.names (some e.hashIDsLocked) id (e.fileLocked id) := by
  obtain ⟨name,size,hash⟩ := e.fileLocked_fields id
  refine ⟨fun w word => (contents.named fits).2 w id ⟨live,by rwa [name] at word⟩,?_⟩
  rintro _ ⟨rfl⟩ _ sized
  have member := (good.members _ id).mpr ⟨live,rfl⟩
  have keyed := (recordsOf_hash good contents (mem_map_of_mem member)).1
  rw [hash,hashIDsLocked,keyed,mem_filter]
  refine ⟨member,?_⟩
  rcases sized with rfl | equal
  · rfl
  · rw [equal,size]
    simp

theorem matchLocked_isSome {id : Nat} : (e.matchLocked u expr id).isSome = true ↔
    (e.record id).live = true ∧ searchMatch u expr (e.fileLocked id) = true := by
  unfold matchLocked
  split
  next dead => simp [dead]
  next live =>
    split
    next hit => simpa [hit] using live
    next miss => simp [miss]

/-- When the index narrows a search its candidates are ascending and hold every match. -/
theorem candidates_complete (sorter : SliceSort) (good : e.Structured) (contents : Contents u e)
    (fits : e.names.words.length ≤ 2^32) (narrowed : (e.searchCandidates u expr sorter).2 = false) :
    Ascending (e.searchCandidates u expr sorter).1 ∧
    ∀ id, (e.matchLocked u expr id).isSome = true → id ∈ (e.searchCandidates u expr sorter).1 := by
  obtain ⟨ascending,complete⟩ := candidates_spec u sorter e.names (contents.named fits).1 _ _ expr narrowed
  refine ⟨ascending,fun id hit => ?_⟩
  obtain ⟨live,accepted⟩ := matchLocked_isSome.mp hit
  obtain ⟨unpruned,found⟩ := complete id (e.fileLocked id) (live_indexed good contents fits live)
  refine found ?_
  simpa [searchMatch,unpruned] using accepted

theorem ascending_filterMap_eq {f : Nat → Option β} (ha : Ascending a) (hb : Ascending b)
    (same : ∀ n, (f n).isSome = true → (n ∈ a ↔ n ∈ b)) : a.filterMap f = b.filterMap f := by
  have nodup : ∀ l : List Nat, Ascending l → (l.filter (fun n => (f n).isSome)).Nodup :=
    fun l h => (h.imp (fun less => Nat.ne_of_lt less)).filter _
  have hits : ∀ l : List Nat, l.filterMap f = (l.filter (fun n => (f n).isSome)).filterMap f := by
    intro _
    rw [filterMap_filter]
    refine filterMap_congr (fun n _ => ?_)
    cases f n <;> rfl
  have equal : a.filter (fun n => (f n).isSome) = b.filter (fun n => (f n).isSome) := by
    refine List.Perm.eq_of_pairwise (fun x _ _ _ xy yx => absurd (Nat.lt_trans xy yx) (Nat.lt_irrefl x))
      (ha.filter _) (hb.filter _) ((perm_ext_iff_of_nodup (nodup a ha) (nodup b hb)).mpr (fun n => ?_))
    simp only [mem_filter]
    exact and_congr_left (same n)
  rw [hits a,equal,← hits b]

theorem findBySearch_eq (sorter : SliceSort) (good : e.Structured) (contents : Contents u e)
    (fits : e.names.words.length ≤ 2^32) : e.findBySearch u expr sorter = e.scanSearch u expr := by
  unfold findBySearch scanSearch
  split
  next pruned =>
    rw [liveMatches_pruned pruned]
    rfl
  next kept =>
    dsimp only
    rw [liveMatches_eq (not_or.mp kept).1,rankIDs_eq]
    congr 2
    cases all : (e.searchCandidates u expr sorter).2 with
    | true => rfl
    | false =>
      obtain ⟨ascending,found⟩ := candidates_complete sorter good contents fits all
      simp only [Bool.false_eq_true,if_false]
      refine ascending_filterMap_eq ascending pairwise_lt_range (fun id hit => ?_)
      rw [Option.isSome_map] at hit
      exact iff_of_true (found id hit) (mem_range.mpr (e.live_bound (matchLocked_isSome.mp hit).1))

end

end MemoryEngine

namespace System

open MemoryEngine

/-- In every state a new engine can be brought to, by any calls, a search through the name
index returns what a scan of the records in id order returns, in the same order, while the
word ids last; narrowed candidates are ascending and hold every record that matches. -/
theorem findBySearch_eq_scan (u : Unicode) (sorter : SliceSort) (ops : List Op) (expr : SearchExpr)
    (fits : (({} : System).run u ops).engine.names.words.length ≤ 2^32) :
    let e := (({} : System).run u ops).engine
    e.findBySearch u expr sorter = e.scanSearch u expr ∧
    ((e.searchCandidates u expr sorter).2 = false → Ascending (e.searchCandidates u expr sorter).1 ∧
      ∀ id, (e.record id).live = true → searchMatch u expr (e.fileLocked id) = true →
        id ∈ (e.searchCandidates u expr sorter).1) := by
  intro _
  obtain ⟨sound,contents⟩ := System.reached_sound u ops
  refine ⟨findBySearch_eq sorter sound.structured contents fits,fun narrowed => ?_⟩
  obtain ⟨ascending,found⟩ := candidates_complete sorter sound.structured contents fits narrowed
  exact ⟨ascending,fun id live hit => found id (matchLocked_isSome.mpr ⟨live,hit⟩)⟩

def seeker : ClientInfo := { id := 1, port := 2, storeID := 1 }

def textLeaf (text : Bytes) : SearchExpr := .node .text text 0 [] 0 [] .nil .nil

/-- Two files are offered, one of them again under another name; the old name finds nothing,
the new one finds it, and so after a rebuild. -/
theorem findBySearch_eq_scan_renamed :
    let offers : List Op := [.connect seeker,
      .offer [{ hash := replicate 16 1, name := lit "alpha beta", size := 5 },
        { hash := replicate 16 2, name := lit "beta gamma", size := 5 }] seeker,
      .offer [{ hash := replicate 16 1, name := lit "delta beta", size := 5 }] seeker]
    ∀ ops ∈ [offers,offers ++ [.rebuild]], let e := (({} : System).run .ascii ops).engine
    (e.findBySearch .ascii (textLeaf (lit "alpha")) .stable = e.scanSearch .ascii (textLeaf (lit "alpha")) ∧
      e.findBySearch .ascii (textLeaf (lit "beta")) .stable = e.scanSearch .ascii (textLeaf (lit "beta"))) ∧
    e.scanSearch .ascii (textLeaf (lit "alpha")) = [] ∧
    (e.scanSearch .ascii (textLeaf (lit "beta"))).map (·.name) = [lit "delta beta",lit "beta gamma"] := by
  intro _ ops _
  have run : (({} : System).run .ascii ops).engine.names.words.length ≤ 2^32 ∧
      (({} : System).run .ascii ops).engine.scanSearch .ascii (textLeaf (lit "alpha")) = [] ∧
      ((({} : System).run .ascii ops).engine.scanSearch .ascii (textLeaf (lit "beta"))).map (·.name) =
        [lit "delta beta",lit "beta gamma"] := by
    revert ops
    decide +kernel
  refine ⟨⟨?_,?_⟩,run.2⟩
  · exact (findBySearch_eq_scan .ascii .stable ops (textLeaf (lit "alpha")) run.1).1
  · exact (findBySearch_eq_scan .ascii .stable ops (textLeaf (lit "beta")) run.1).1

end System

open NameIndex MemoryEngine

section
variable {e : MemoryEngine} {n : Nat} (sound : e.Sound) (contents : Contents .ascii e) (spelt : e.names.Spelt n)
  (few : n ≤ 2^32)
include sound contents spelt few

/-- A file is stored under the name of the next number, whatever its record was called. -/
theorem store_spelt (file : File) (named : file.name = encode (spelled n)) :
    (e.storeFileLocked .ascii file).1.names.Spelt (n+1) ∧
    ∃ id, ((e.storeFileLocked .ascii file).1.record id).live = true ∧
      ((e.storeFileLocked .ascii file).1.record id).name = encode (spelled n) := by
  obtain ⟨id,effect⟩ := store_effect .ascii sound.structured file
  refine ⟨?_,id,?_⟩
  · rw [effect.names,named]
    split
    next live =>
      have other : (e.record id).name ≠ encode (spelled n) := by
        intro same
        have fits : e.names.words.length ≤ 2^32 := by simpa [spelt.words] using few
        obtain ⟨_,word,-⟩ := (contents.named fits).2 (encode (spelled n)) id ⟨live,by simp [same,spelled_words]⟩
        have member := mem_of_getElem? word
        rw [spelt.words] at member
        obtain ⟨_,below,equal⟩ := mem_map.mp member
        have less := mem_range.mp below
        exact absurd (spelled_inj (by omega) (by omega) (by rw [equal])) less.ne
      rw [NameIndex.renameFile,if_neg other]
      exact (spelt.counters e.names.entries _).indexName (by omega) id
    · exact spelt.indexName (by omega) id
  · obtain ⟨_,_,same⟩ := effect.written
    rw [same]
    exact ⟨rfl,named⟩

theorem offer_spelt (info : ClientInfo) (connected : e.infoOf info.storeID ≠ none) (nonzero : info.storeID ≠ 0)
    (file : File) (named : (normalizeFile .ascii file).name = encode (spelled n)) :
    (addFileLocked .ascii info e file).names.Spelt (n+1) ∧
    ∃ id, ((addFileLocked .ascii info e file).record id).live = true ∧
      ((addFileLocked .ascii info e file).record id).name = encode (spelled n) := by
  obtain ⟨names,id,live,name⟩ := store_spelt sound contents spelt few (normalizeFile .ascii file) named
  obtain ⟨sound₁,-,known⟩ := store_sound .ascii sound (normalizeFile .ascii file)
  have put (src : MemSource) : let a := ((e.storeFileLocked .ascii (normalizeFile .ascii file)).1.putSourceLocked
      (e.storeFileLocked .ascii (normalizeFile .ascii file)).2 src).1
      a.names.Spelt (n+1) ∧ ∃ id, (a.record id).live = true ∧ (a.record id).name = encode (spelled n) := by
    obtain ⟨set,-⟩ := putSource_spec sound₁.placed (sound₁.known_bound known) src
    obtain ⟨-,same,-⟩ := set.sound sound₁ known
    refine ⟨same.names ▸ names,id,?_,?_⟩
    · exact (congrArg MemRec.live (same.bare id)).trans live
    · exact (congrArg MemRec.name (same.bare id)).trans name
  have client : (e.clients.lookup (e.storeIDOf info)).isNone = false := by
    rw [storeIDOf,if_neg nonzero]
    simpa [infoOf,← Option.isSome_iff_ne_none] using connected
  unfold addFileLocked
  dsimp only
  rw [if_neg (by simp [client])]
  split
  · obtain ⟨_,frame⟩ := modifyClient_keeps _ (e.storeIDOf info) _
    rw [frame]
    exact put _
  · exact put _

end

def spelledFile (n : Nat) : File := { hash := replicate 16 1, name := encode (spelled n), size := 5 }

theorem normalize_spelled (n : Nat) : (normalizeFile .ascii (spelledFile n)).name = encode (spelled n) := by
  have valid : validString (encode (spelled n)) = true := by
    rw [validString,runes_encode,all_map,all_eq_true]
    intro _ member
    obtain ⟨_,-,rfl⟩ := mem_map.mp member
    split <;> decide
  have short : (runes (encode (spelled n))).length ≤ maxNameLen := by
    rw [runes_encode,length_map,spelled,length_map,length_range]
    decide
  simp only [spelledFile,normalizeFile,toUTF8,truncateRunes,valid,if_true,if_pos short]

/-- One session offers one file under one name after another. -/
def respelling (n : Nat) : List Op :=
  .connect System.seeker :: (List.range n).map (fun i => .offer [spelledFile i] System.seeker)

theorem respelling_run (n : Nat) (few : n ≤ 2^32 + 1) :
    let e := (({} : System).run .ascii (respelling n)).engine
    e.names.Spelt n ∧ e.infoOf 1 ≠ none ∧
      (0 < n → ∃ id, (e.record id).live = true ∧ (e.record id).name = encode (spelled (n-1))) := by
  induction n with
  | zero => exact ⟨empty_spelt,by decide,by simp⟩
  | succ n ih =>
    obtain ⟨spelt,connected,-⟩ := ih (by omega)
    obtain ⟨sound,contents⟩ := System.reached_sound .ascii (respelling n)
    have last : ({} : System).run .ascii (respelling (n+1)) = (({} : System).run .ascii (respelling n)).step .ascii
        (.offer [spelledFile n] System.seeker) := by
      rw [respelling,range_succ,map_append,map_singleton,← cons_append,System.run,foldl_append]
      rfl
    rw [last]
    obtain ⟨names,found⟩ := offer_spelt sound contents spelt (by omega) System.seeker connected (by decide)
      (spelledFile n) (normalize_spelled n)
    have kept := (addFile_sessions (u := .ascii) sound System.seeker (spelledFile n)).infos
    exact ⟨names,(congrFun kept 1).trans_ne connected,fun _ => found⟩

theorem spelled_runs (n : Nat) : lookupRuns .ascii (encode (spelled n)) = [encode (spelled n)] ∧
    textRuns .ascii (encode (spelled n)) = [encode (spelled n)] ∧
    splitTerms .ascii (encode (spelled n)) = [encode (spelled n)] := by
  have solid : ∀ r ∈ runes (encode (spelled n)), Unicode.ascii.isSpace r.1 = false := by
    rw [runes_encode]
    intro _ member
    obtain ⟨c,letter,rfl⟩ := mem_map.mp member
    exact (spelled_letter letter).2.2
  have some_ : encode (spelled n) ≠ [] := ne_nil_of_length_pos (Nat.lt_of_lt_of_le (by decide) (spelled_length n))
  have terms : splitTerms .ascii (encode (spelled n)) = [encode (spelled n)] := by
    rw [splitTerms,trimSpace_solid _ solid,fields_solid _ some_ solid]
  have runs : alnumRuns .ascii (encode (spelled n)) = [encode (spelled n)] := by
    have letters : (runes (encode (spelled n))).map Prod.fst = spelled n := by
      rw [runes_encode,map_map]
      exact map_id _
    rw [alnumRuns_eq,letters,maximalRuns,runsFrom_all _ [] _ (fun _ letter => (spelled_letter letter).2.1) (by simp [spelled])]
    rfl
  simp [lookupRuns,textRuns,termRuns,terms,toLower_spelled,runs]

/-- A file is offered under one name more than there are word ids: the last name is not found. -/
theorem System.word_ids_run_out : ∃ (ops : List Op) (expr : SearchExpr),
    let e := (({} : System).run .ascii ops).engine
    (∀ sorter, e.searchCandidates .ascii expr sorter = ([],false) ∧ e.findBySearch .ascii expr sorter = []) ∧
    ∃ id, (e.record id).live = true ∧ searchMatch .ascii expr (e.fileLocked id) = true := by
  obtain ⟨spelt,-,found⟩ := respelling_run (2^32+1) le_rfl
  obtain ⟨id,live,named⟩ := found (by omega)
  obtain ⟨runs,asked,terms⟩ := spelled_runs (2^32)
  refine ⟨respelling (2^32+1),textLeaf (encode (spelled (2^32))),fun sorter => ?_,id,live,?_⟩
  · have none_ : (({} : System).run .ascii (respelling (2^32+1))).engine.searchCandidates .ascii
        (textLeaf (encode (spelled (2^32)))) sorter = ([],false) := by
      have long := Nat.not_lt.mpr (spelled_length (2^32))
      simp only [searchCandidates,textLeaf,candidates,textCandidates,terms,runs,runSets,spelt.missed,if_neg long]
      rfl
    refine ⟨none_,?_⟩
    unfold findBySearch
    split
    · rfl
    · rw [none_]
      rfl
  · rw [searchMatch,textLeaf,matchNode]
    simp only [matchText,asked,(fileLocked_fields _ id).1,named]
    simp [toLower_spelled,GoText.contains]

end ENode.Storage
