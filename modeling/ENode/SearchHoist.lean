import ENode.SearchMongo

/-! The aggregation the MongoDB engine runs for a search. A single text leaf on the AND
spine is hoisted to a $text stage and the filter is built from the rest of the tree.
Taking the leaf out can leave a side without a constraint where there was one, and then
the rest says less than the tree, or nothing. -/
namespace ENode.Storage

open GoText

def mongoMinTokenSize : Nat := 2

inductive MongoStage where
  | textSearch (search : Bytes)
  | addTextScore
  | matching (filter : MongoFilter)
  | lookupFile (hashField sizeField : String)
  | unwindFile
  | group (score counters : Bool)
  | sortScore
  | sortSources
  | limit (count : Nat)
  | copyCounters
  | dropFile
  deriving DecidableEq

def mongoFileJoin (hashField sizeField : String) : List MongoStage :=
  [.lookupFile hashField sizeField,.unwindFile]

def mongoFileCounterStages : List MongoStage := mongoFileJoin "$hash" "$size" ++ [.copyCounters,.dropFile]

section
variable (u : Unicode)

def countTextLeaves : SearchExpr → Nat
  | .nil => 0
  | .node kind _ tagType _ _ _ left right =>
    match kind with
    | .text => 1
    | .string => if tagType = searchTypeText then 1 else 0
    | .and | .or | .andNot => countTextLeaves left + countTextLeaves right
    | _ => 0

/-- One quoted phrase per run, without the quotes a run may hold itself. -/
def quotedRuns (raw : Bytes) : List Bytes :=
  (splitTerms u raw).flatMap (fun t => (termRuns u t).filterMap (fun run =>
    let plain := run.filter (· ≠ 0x22)
    if plain ≠ [] then some (lit "\"" ++ plain ++ lit "\"") else none))

def rawTextSearch (raw : Bytes) : Option Bytes :=
  if (splitTerms u raw).length = 0 then none
  else if (quotedRuns u raw).length = 0 then none
  else some ((lit " ").intercalate (quotedRuns u raw))

def textLeafSearch : SearchExpr → Option Bytes
  | .nil => none
  | .node kind text tagType valueString _ _ _ _ =>
    match kind with
    | .text => rawTextSearch u text
    | .string => if tagType ≠ searchTypeText then none else rawTextSearch u valueString
    | _ => none

/-- The first text leaf reachable through conjunctions, and the expression without it. -/
def removeTextLeaf : SearchExpr → Option (Bytes × SearchExpr)
  | .nil => none
  | .node kind text tagType valueString valueUint related left right =>
    match textLeafSearch u (.node kind text tagType valueString valueUint related left right) with
    | some search => some (search,.nil)
    | none =>
      match kind with
      | .and =>
        match removeTextLeaf left with
        | some (search,rest) =>
          if rest = .nil then some (search,right) else some (search,SearchExpr.ofOperator .and rest right)
        | none =>
          match removeTextLeaf right with
          | some (search,rest) =>
            if rest = .nil then some (search,left) else some (search,SearchExpr.ofOperator .and left rest)
          | none => none
      | .andNot =>
        match removeTextLeaf left with
        | some (search,rest) =>
          if rest ≠ .nil then some (search,SearchExpr.ofOperator .andNot rest right) else none
        | none => none
      | _ => none

def hoistTextLeaf (expr : SearchExpr) : Option (Bytes × SearchExpr) :=
  if countTextLeaves expr ≠ 1 then none else removeTextLeaf u expr

/-- The tree the filter is built from; nil when the whole query was the hoisted leaf. -/
def filterExpr (expr : SearchExpr) : SearchExpr :=
  match hoistTextLeaf u expr with
  | some (_,rest) => rest
  | none => expr

/-- The stages of a search; none when the query is dropped. -/
def mongoSearchPipeline (expr : SearchExpr) : Option (List MongoStage) :=
  if searchNeedsScan u expr mongoMinTokenSize then none
  else
    let hoisted := hoistTextLeaf u expr
    let full := if filterExpr u expr ≠ .nil then mongoFilter u (filterExpr u expr) else (none,false)
    if filterExpr u expr ≠ .nil ∧ full.1 = none then none
    else if hoisted = none ∧ full.1 = none then none
    else
      let text := match hoisted with
        | some (search,_) => [.textSearch search,.addTextScore]
        | none => []
      let pushed := (mongoSourceConjunctFilter u (filterExpr u expr)).toList.map .matching
      let filter := full.1.toList.map .matching
      let order := if hoisted.isSome then MongoStage.sortScore else .sortSources
      let limit := MongoStage.limit maxSearchResults
      if full.2 then
        some (text ++ pushed ++ mongoFileJoin "$file_hash" "$file_size" ++ filter ++
          [.group hoisted.isSome true,order,limit])
      else if hoisted.isSome then
        some (text ++ pushed ++ filter ++ [.group true false,.sortScore,limit] ++ mongoFileCounterStages)
      else
        some (text ++ pushed ++ filter ++ [.group false false] ++ mongoFileCounterStages ++
          [.sortSources,limit])

def hoistedLeaf : SearchExpr → SearchExpr
  | .nil => .nil
  | .node .and _ _ _ _ _ left right =>
    if (removeTextLeaf u left).isSome then hoistedLeaf left else hoistedLeaf right
  | .node .andNot _ _ _ _ _ left _ => hoistedLeaf left
  | leaf => leaf

/-- The negated operands that go with the last constraint of their positive side. -/
def lostNegations : SearchExpr → List SearchExpr
  | .nil => []
  | .node .and _ _ _ _ _ left right =>
    if (removeTextLeaf u left).isSome then lostNegations left else lostNegations right
  | .node .andNot _ _ _ _ _ left right =>
    match removeTextLeaf u left with
    | some (_,rest) => lostNegations left ++ if searchPrunes u rest then [right] else []
    | none => []
  | _ => []

/-- Whether a document passes the stages; `text` is the answer of the $text stage. The
stages after `group` see files, and no further filter stands among them. -/
def stagesAccept (server : MongoServer) (source file : MongoDoc) (text : Bool) :
    Bool → List MongoStage → Bool
  | _, [] => true
  | joined, .textSearch _ :: stages => text && stagesAccept server source file text joined stages
  | joined, .matching f :: stages =>
    f.accepts server (if joined then joinedDoc source file else source) &&
      stagesAccept server source file text joined stages
  | _, .lookupFile _ _ :: stages => stagesAccept server source file text true stages
  | _, .group _ _ :: _ => true
  | joined, _ :: stages => stagesAccept server source file text joined stages

/-- Whether the tree without its pruned nodes accepts a document. -/
def treeAccepts (server : MongoServer) (doc : MongoDoc) (expr : SearchExpr) : Bool :=
  verdict u (fun _ leaf => docTruth u server doc leaf) expr

/-- The stages accept what the tree accepts, and only a pruned tree is dropped. -/
def HoistPreserves (server : MongoServer) (source file : MongoDoc) (expr : SearchExpr) : Prop :=
  match mongoSearchPipeline u expr with
  | none => searchPrunes u expr = true
  | some stages =>
    stagesAccept server source file
        (docTruth u server (joinedDoc source file) (hoistedLeaf u expr)) false stages =
      treeAccepts u server (joinedDoc source file) expr

instance (server : MongoServer) (source file : MongoDoc) (expr : SearchExpr) :
    Decidable (HoistPreserves u server source file expr) :=
  match built : mongoSearchPipeline u expr with
  | none => decidable_of_iff (searchPrunes u expr = true) (by simp [HoistPreserves,built])
  | some stages =>
    decidable_of_iff (stagesAccept server source file
        (docTruth u server (joinedDoc source file) (hoistedLeaf u expr)) false stages =
      treeAccepts u server (joinedDoc source file) expr) (by simp [HoistPreserves,built])

section
variable (t : SearchExpr → Bool)

/-- The matcher with one truth value for each leaf, wherever it occurs. -/
def weigh (expr : SearchExpr) : Bool × Bool := matchNodeWith u (fun _ leaf => t leaf) [] expr

theorem weigh_path (expr : SearchExpr) (path : Path) :
    matchNodeWith u (fun _ leaf => t leaf) path expr = weigh u t expr := by
  unfold weigh
  generalize ([] : Path) = other
  induction expr generalizing path other with
  | nil => rfl
  | node kind text _ _ _ related _ _ ihl ihr =>
    by_cases childless : kind ≠ .and ∧ kind ≠ .or ∧ kind ≠ .andNot
    · rw [matchNodeWith_reduce,matchNodeWith_reduce,
        reduce_childless u path childless,reduce_childless u other childless]
      unfold reduceLeaf
      repeat' split
      all_goals rfl
    · cases kind with
      | and | or | andNot =>
        simp only [matchNodeWith,ihl (path ++ [false]) (other ++ [false]),ihr (path ++ [true]) (other ++ [true])]
      | text | string | uint32 | uint64 | hash | related | other => simp at childless

theorem weigh_prune (expr : SearchExpr) :
    (weigh u t expr).2 = searchPrunes u expr ∧ (searchPrunes u expr = true → (weigh u t expr).1 = false) := by
  rw [searchPrunes_reduce u expr [],weigh,matchNodeWith_reduce]
  cases reduce u [] expr <;> simp [Reduced.outcome,Reduced.isPruned]

theorem weigh_operator (text : Bytes) (tagType : Nat) (value : Bytes) (number : Nat)
    (related : List FileKey) (left right : SearchExpr) :
    let e := fun kind => SearchExpr.node kind text tagType value number related left right
    (searchPrunes u (e .and) = (searchPrunes u left && searchPrunes u right) ∧
      (searchPrunes u (e .and) || (weigh u t (e .and)).1) =
        ((searchPrunes u left || (weigh u t left).1) && (searchPrunes u right || (weigh u t right).1))) ∧
    searchPrunes u (e .andNot) = searchPrunes u left ∧
      (weigh u t (e .andNot)).1 = ((weigh u t left).1 && !(weigh u t right).1) := by
  intro e
  obtain ⟨prunel,_⟩ := weigh_prune u t left
  obtain ⟨pruner,_⟩ := weigh_prune u t right
  have both : weigh u t (e .and) = if (weigh u t left).2 then weigh u t right
      else if (weigh u t right).2 then ((weigh u t left).1,false)
      else ((weigh u t left).1 && (weigh u t right).1,false) := by
    conv_lhs => rw [weigh]
    simp [e,matchNodeWith,weigh_path]
  have negated : weigh u t (e .andNot) = if (weigh u t right).2 then weigh u t left
      else if (weigh u t left).2 then (false,true)
      else ((weigh u t left).1 && !(weigh u t right).1,false) := by
    conv_lhs => rw [weigh]
    simp [e,matchNodeWith,weigh_path]
  simp only [← (weigh_prune u t (e _)).1,both,negated,prunel,pruner]
  cases hl : searchPrunes u left <;> cases hr : searchPrunes u right <;> simp_all

theorem rawTextSearch_terms (h : rawTextSearch u raw = some search) : (splitTerms u raw).isEmpty = false := by
  unfold rawTextSearch at h
  split at h
  · simp at h
  next occupied => simpa using occupied

theorem textLeafSearch_leaf (h : textLeafSearch u expr = some search) :
    weigh u t expr = (t expr,false) ∧ hoistedLeaf u expr = expr ∧ lostNegations u expr = [] := by
  cases expr with
  | nil => simp [textLeafSearch] at h
  | node kind text _ _ _ related _ _ =>
    cases kind with
    | text =>
      have terms := rawTextSearch_terms u h
      simp [weigh,matchNodeWith,reduceLeaf,hoistedLeaf,lostNegations,terms]
    | string =>
      simp only [textLeafSearch,ne_eq,ite_not] at h
      split at h
      next isText =>
        have terms := rawTextSearch_terms u h
        simp [weigh,matchNodeWith,reduceLeaf,hoistedLeaf,lostNegations,terms,isText]
      · simp at h
    | and | or | andNot | uint32 | uint64 | hash | related | other => simp [textLeafSearch] at h

/-- What `removeTextLeaf` did at a node it succeeds on. -/
theorem removeTextLeaf_cases
    (h : removeTextLeaf u expr = some (search,rest)) : (textLeafSearch u expr = some search ∧ rest = .nil) ∨
    (∃ text tagType value number related left right inner,
      expr = .node .and text tagType value number related left right ∧
      removeTextLeaf u left = some (search,inner) ∧
      rest = if inner = .nil then right else SearchExpr.ofOperator .and inner right) ∨
    (∃ text tagType value number related left right inner,
      expr = .node .and text tagType value number related left right ∧
      removeTextLeaf u left = none ∧ removeTextLeaf u right = some (search,inner) ∧
      rest = if inner = .nil then left else SearchExpr.ofOperator .and left inner) ∨
    (∃ text tagType value number related left right inner,
      expr = .node .andNot text tagType value number related left right ∧
      removeTextLeaf u left = some (search,inner) ∧ inner ≠ .nil ∧
      rest = SearchExpr.ofOperator .andNot inner right) := by
  cases expr with
  | nil => simp [removeTextLeaf] at h
  | node kind text tagType value number related left right =>
    simp only [removeTextLeaf] at h
    split at h
    next found =>
      simp only [Option.some.injEq,Prod.mk.injEq] at h
      exact .inl ⟨by rw [← h.1]; exact found,h.2.symm⟩
    · cases kind with
      | and =>
        simp only at h
        split at h
        next inner found =>
          refine .inr (.inl ⟨text,tagType,value,number,related,left,right,inner,rfl,?_⟩)
          split at h <;> simp_all
        next absent =>
          split at h
          next inner found =>
            refine .inr (.inr (.inl ⟨text,tagType,value,number,related,left,right,inner,rfl,absent,?_⟩))
            split at h <;> simp_all
          · simp at h
      | andNot =>
        simp only at h
        split at h
        next inner found =>
          refine .inr (.inr (.inr ⟨text,tagType,value,number,related,left,right,inner,rfl,?_⟩))
          split at h <;> simp_all
        · simp at h
      | text | string | or | uint32 | uint64 | hash | related | other => simp at h

/-- An operand that is dropped from an operator lets everything through. -/
def lets (expr : SearchExpr) : Bool := searchPrunes u expr || (weigh u t expr).1

theorem lets_nil : lets u t .nil = true := rfl

theorem lets_of_kept (kept : searchPrunes u expr = false) :
    lets u t expr = (weigh u t expr).1 := by
  simp [lets,kept]

theorem lets_and (left right : SearchExpr) :
    lets u t (SearchExpr.ofOperator .and left right) = (lets u t left && lets u t right) :=
  (weigh_operator u t [] 0 [] 0 [] left right).1.2

theorem lets_andNot (left right : SearchExpr) : lets u t (SearchExpr.ofOperator .andNot left right) =
      (lets u t left && (searchPrunes u left || !(weigh u t right).1)) := by
  obtain ⟨_,prune,value⟩ := weigh_operator u t [] 0 [] 0 [] left right
  simp only [lets,SearchExpr.ofOperator,prune,value]
  cases searchPrunes u left <;> simp

theorem lets_rest (whole : lets u t node = (lets u t rest && lets u t other)) :
    lets u t (if rest = .nil then other else node) = (lets u t rest && lets u t other) := by
  split
  next empty => rw [empty,lets_nil]; simp
  · exact whole

/-- The tree is the hoisted leaf, the rest, and the negations that the rest lost. -/
theorem removeTextLeaf_weigh (expr : SearchExpr) (search : Bytes) (rest : SearchExpr)
    (h : removeTextLeaf u expr = some (search,rest)) : searchPrunes u expr = false ∧
    (weigh u t expr).1 = (t (hoistedLeaf u expr) && lets u t rest &&
      (lostNegations u expr).all (fun n => !(weigh u t n).1)) ∧ (rest = .nil → lostNegations u expr = []) := by
  induction expr generalizing search rest with
  | nil => simp [removeTextLeaf] at h
  | node kind text tagType sought number related left right ihl ihr =>
    rcases removeTextLeaf_cases u h with
      ⟨leaf,rfl⟩ | ⟨_,_,_,_,_,l,r,inner,shape,found,rfl⟩ |
      ⟨_,_,_,_,_,l,r,inner,shape,absent,found,rfl⟩ | ⟨_,_,_,_,_,l,r,inner,shape,found,positive,rfl⟩
    · obtain ⟨value,same,none⟩ := textLeafSearch_leaf u t leaf
      have prune := (weigh_prune u t (.node kind text tagType sought number related left right)).1
      rw [value] at prune
      refine ⟨prune.symm,?_,fun _ => none⟩
      rw [value,same,none,lets_nil]
      simp
    · cases shape
      obtain ⟨kept,value,none⟩ := ihl search inner found
      obtain ⟨⟨prune,both⟩,_⟩ := weigh_operator u t text tagType sought number related left right
      have whole : searchPrunes u (.node .and text tagType sought number related left right) = false := by
        rw [prune,kept]; rfl
      refine ⟨whole,?_,?_⟩
      · rw [whole,kept] at both
        simp only [Bool.false_or] at both
        rw [both,value,lets_rest u t (lets_and u t inner right)]
        simp only [hoistedLeaf,lostNegations,found,Option.isSome_some,if_true,lets]
        ac_rfl
      · simp only [lostNegations,found,Option.isSome_some,if_true]
        split
        next empty => exact fun _ => none empty
        · simp [SearchExpr.ofOperator]
    · cases shape
      obtain ⟨kept,value,none⟩ := ihr search inner found
      obtain ⟨⟨prune,both⟩,_⟩ := weigh_operator u t text tagType sought number related left right
      have whole : searchPrunes u (.node .and text tagType sought number related left right) = false := by
        rw [prune,kept]; simp
      refine ⟨whole,?_,?_⟩
      · rw [whole,kept] at both
        simp only [Bool.false_or] at both
        rw [both,value,lets_rest u t ((lets_and u t left inner).trans (Bool.and_comm ..))]
        simp only [hoistedLeaf,lostNegations,absent,Option.isSome_none,lets]
        simp only [Bool.false_eq_true,if_false]
        ac_rfl
      · simp only [lostNegations,absent,Option.isSome_none]
        split
        next empty => exact fun _ => none empty
        · simp [SearchExpr.ofOperator]
    · cases shape
      obtain ⟨kept,value,_⟩ := ihl search inner found
      obtain ⟨_,prune,both⟩ := weigh_operator u t text tagType sought number related left right
      refine ⟨by rw [prune,kept],?_,by simp [SearchExpr.ofOperator]⟩
      rw [both,value,lets_andNot]
      simp only [hoistedLeaf,lostNegations,found,List.all_append]
      cases searchPrunes u inner <;> simp <;> ac_rfl

end

section
variable (server : MongoServer) (source file : MongoDoc)

theorem treeAccepts_weigh (doc : MongoDoc) (expr : SearchExpr) :
    treeAccepts u server doc expr = (weigh u (docTruth u server doc) expr).1 := by
  obtain ⟨prune,miss⟩ := weigh_prune u (docTruth u server doc) expr
  simp only [treeAccepts,verdict]
  split
  next pruned => exact (miss (prune ▸ pruned)).symm
  · rfl

theorem mongoFilter_kept (kept : searchPrunes u expr = false) :
    ∃ f, mongoFilter u expr = (some f,(mongoFilterNode u expr).needsFile) ∧
      (mongoFilterNode u expr).filter = some f ∧ (mongoFilterNode u expr).prune = false := by
  rw [searchPrunes_reduce u expr [],← (mongoFilterNode_shows u expr []).prune] at kept
  obtain ⟨f,filter⟩ := mongoFilterNode_present u expr kept
  exact ⟨f,by simp [mongoFilter,kept,filter],filter,kept⟩

theorem mongoFilter_pruned (pruned : searchPrunes u expr = true) :
    mongoFilter u expr = (none,false) := by
  rw [searchPrunes_reduce u expr [],← (mongoFilterNode_shows u expr []).prune] at pruned
  simp [mongoFilter,pruned]

theorem mongoFilterNode_accepts (doc : MongoDoc)
    (filter : (mongoFilterNode u expr).filter = some f) : f.accepts server doc = treeAccepts u server doc expr := by
  rw [treeAccepts,verdict_reduce]
  rw [(mongoFilterNode_shows u expr []).filter] at filter
  cases r : reduce u [] expr with
  | pruned => simp [r,Reduced.mongoFilter] at filter
  | never =>
    simp only [r,Reduced.mongoFilter] at filter
    cases filter
    simp [mongoMatchNothing,MongoFilter.accepts,MongoCond.holds,Reduced.accepts]
  | holds c =>
    simp only [r,Reduced.mongoFilter] at filter
    cases filter
    exact c.mongoFilter_accepts u server doc

/-- The two filter stages accept what the filtered expression accepts, joined or not. -/
theorem filter_stages
    (filter : (mongoFilterNode u expr).filter = some f) (kept : (mongoFilterNode u expr).prune = false) :
    ((mongoSourceConjunctFilter u expr).all (fun s => s.accepts server source) &&
      f.accepts server (if (mongoFilterNode u expr).needsFile then joinedDoc source file else source)) =
    treeAccepts u server (joinedDoc source file) expr := by
  have place : f.accepts server
      (if (mongoFilterNode u expr).needsFile then joinedDoc source file else source) =
      f.accepts server (joinedDoc source file) := by
    split
    · rfl
    next unmarked =>
      exact (mongoFilterNode_local u expr f filter (by simpa using unmarked) server source file).symm
  rw [place,← mongoFilterNode_accepts u server (joinedDoc source file) filter]
  cases pushed : mongoSourceConjunctFilter u expr with
  | none => simp
  | some s =>
    cases accepted : f.accepts server (joinedDoc source file) with
    | false => simp
    | true => simp [mongoSourceConjunctFilter_implied u server source file expr f s pushed filter kept accepted]

theorem mongoSearchPipeline_none (expr : SearchExpr) (scan : searchNeedsScan u expr mongoMinTokenSize = false) :
    mongoSearchPipeline u expr = none ↔ searchPrunes u (filterExpr u expr) = true ∧
        (hoistTextLeaf u expr = none ∨ filterExpr u expr ≠ .nil) := by
  simp only [mongoSearchPipeline,scan]
  by_cases empty : filterExpr u expr = .nil
  · rw [empty]
    cases hoistTextLeaf u expr <;> simp [searchPrunes,matchNode]
  cases pruned : searchPrunes u (filterExpr u expr) with
  | true => simp [empty,mongoFilter_pruned u pruned]
  | false =>
    obtain ⟨_,full,_⟩ := mongoFilter_kept u pruned
    simp only [full]
    repeat' split
    all_goals simp_all

theorem mongoSearchPipeline_accepts (expr : SearchExpr) (text : Bool) (stages : List MongoStage)
    (built : mongoSearchPipeline u expr = some stages) : stagesAccept server source file text false stages =
      (((hoistTextLeaf u expr).isNone || text) &&
        lets u (docTruth u server (joinedDoc source file)) (filterExpr u expr)) := by
  have scan : searchNeedsScan u expr mongoMinTokenSize = false := by
    by_contra scans
    simp [mongoSearchPipeline,scans] at built
  by_cases empty : filterExpr u expr = .nil
  · cases hoisted : hoistTextLeaf u expr with
    | none => simp [mongoSearchPipeline,scan,empty,hoisted] at built
    | some _ =>
      simp only [mongoSearchPipeline,scan,empty,hoisted,mongoSourceConjunctFilter] at built
      cases built
      simp [stagesAccept,empty,lets_nil]
  · cases pruned : searchPrunes u (filterExpr u expr) with
    | true => simp [(mongoSearchPipeline_none u expr scan).mpr ⟨pruned,.inr empty⟩] at built
    | false =>
      obtain ⟨_,full,filter,kept⟩ := mongoFilter_kept u pruned
      rw [lets_of_kept u _ pruned,← treeAccepts_weigh,
        ← filter_stages u server source file filter kept]
      simp only [mongoSearchPipeline,scan,full] at built
      cases hoisted : hoistTextLeaf u expr <;>
        cases pushed : mongoSourceConjunctFilter u (filterExpr u expr) <;>
        cases needs : (mongoFilterNode u (filterExpr u expr)).needsFile <;>
        simp [empty,hoisted,pushed,needs,mongoFileJoin] at built <;> subst built <;>
        simp [stagesAccept]

theorem filterExpr_hoisted (hoisted : hoistTextLeaf u expr = some (search,rest)) :
    filterExpr u expr = rest ∧ removeTextLeaf u expr = some (search,rest) := by
  refine ⟨by simp [filterExpr,hoisted],?_⟩
  unfold hoistTextLeaf at hoisted
  split at hoisted
  · simp at hoisted
  · exact hoisted

/-- Hoisting preserves a search exactly when the tree left for the filter still has a
constraint, if there is one, and the document meets none of the negations it lost. -/
theorem hoist_preserves_iff (expr : SearchExpr)
    (scan : searchNeedsScan u expr mongoMinTokenSize = false) :
    HoistPreserves u server source file expr ↔
      ∀ search rest, hoistTextLeaf u expr = some (search,rest) → rest ≠ .nil →
        searchPrunes u rest = false ∧
        (docTruth u server (joinedDoc source file) (hoistedLeaf u expr) = true →
          treeAccepts u server (joinedDoc source file) rest = true →
          ∀ negated ∈ lostNegations u expr, treeAccepts u server (joinedDoc source file) negated = false) := by
  have none := mongoSearchPipeline_none u expr scan
  have accepts := mongoSearchPipeline_accepts u server source file expr
    (docTruth u server (joinedDoc source file) (hoistedLeaf u expr))
  simp only [HoistPreserves,treeAccepts_weigh]
  generalize truths : docTruth u server (joinedDoc source file) = t at *
  cases hoisted : hoistTextLeaf u expr with
  | none =>
    have same : filterExpr u expr = expr := by simp [filterExpr,hoisted]
    rw [same] at none accepts
    simp only [reduceCtorEq,false_implies,implies_true,iff_true]
    cases built : mongoSearchPipeline u expr with
    | none => exact (none.mp built).1
    | some stages =>
      have kept : searchPrunes u expr = false := by
        by_contra pruned
        simp [none.mpr ⟨by simpa using pruned,.inl hoisted⟩] at built
      simp [accepts stages built,hoisted,lets_of_kept u t kept]
  | some found =>
    obtain ⟨search,rest⟩ := found
    obtain ⟨same,removed⟩ := filterExpr_hoisted u hoisted
    obtain ⟨kept,value,spare⟩ := removeTextLeaf_weigh u t expr search rest removed
    rw [same] at none accepts
    simp only [Option.some.injEq,Prod.mk.injEq]
    by_cases empty : rest = .nil
    · have dropped : mongoSearchPipeline u expr ≠ .none := by simp [none,hoisted,empty]
      obtain ⟨stages,built⟩ := Option.ne_none_iff_exists'.mp dropped
      rw [built]
      simp [accepts stages built,hoisted,value,spare empty,empty]
    cases pruned : searchPrunes u rest with
    | true =>
      rw [none.mpr ⟨pruned,.inr empty⟩]
      simp only [kept,Bool.false_eq_true,false_iff]
      exact fun all => by simpa [pruned] using (all search rest ⟨rfl,rfl⟩ empty).1
    | false =>
      have dropped : mongoSearchPipeline u expr ≠ .none := by simp [none,pruned]
      obtain ⟨stages,built⟩ := Option.ne_none_iff_exists'.mp dropped
      rw [built]
      simp only [accepts stages built,hoisted,value,lets_of_kept u t pruned]
      have met : (lostNegations u expr).all (fun n => !(weigh u t n).1) = true ↔
          ∀ n ∈ lostNegations u expr, (weigh u t n).1 = false := by simp
      constructor
      · rintro equal _ _ ⟨rfl,rfl⟩ _
        refine ⟨pruned,fun text others => met.mp ?_⟩
        simpa [text,others] using equal.symm
      · intro condition
        have lost := (condition search rest ⟨rfl,rfl⟩ empty).2
        rw [← met] at lost
        cases text : t (hoistedLeaf u expr) <;> cases others : (weigh u t rest).1 <;> simp_all

end

end

/-- The tag type of a constraint on the file rating, which no engine stores. -/
def ratingAtLeast : Nat := 0xf7000103

/-- `foo` with an extension constraint keeps both: the filter is built from the constraint. -/
theorem hoist_preserves_beside_extension :
    let expr := SearchExpr.ofOperator .and (.ofText (lit "foo")) (.ofString searchTypeExt (lit "avi"))
    hoistTextLeaf .ascii expr ≠ none ∧
      HoistPreserves .ascii (fun value _ => value.isSome) (fun _ => none) (fun _ => none) expr := by
  refine ⟨by decide,(hoist_preserves_iff .ascii _ _ _ _ (by decide)).mpr ?_⟩
  intro _ _ hoisted _
  have shape : hoistTextLeaf .ascii
      (.ofOperator .and (.ofText (lit "foo")) (.ofString searchTypeExt (lit "avi"))) =
      some (lit "\"foo\"",.ofString searchTypeExt (lit "avi")) := by decide
  rw [shape] at hoisted
  cases hoisted
  refine ⟨by decide,fun _ _ _ member => ?_⟩
  have none : lostNegations .ascii
      (.ofOperator .and (.ofText (lit "foo")) (.ofString searchTypeExt (lit "avi"))) = [] := by decide
  simp [none] at member

/-- `foo` with a rating constraint is dropped, though the tree still asks for `foo`; and
`(foo with a rating, but no txt) with codec x` is answered with the txt files in it. -/
theorem hoist_fails_beside_unsupported :
    let foo := SearchExpr.ofText (lit "foo")
    let rating := SearchExpr.ofUint32 ratingAtLeast 4
    let txt := SearchExpr.ofString searchTypeExt (lit "txt")
    let codec := SearchExpr.ofString searchTypeCodec (lit "x")
    let dropped := SearchExpr.ofOperator .and foo rating
    let widened := SearchExpr.ofOperator .and
      (.ofOperator .andNot (.ofOperator .and foo rating) txt) codec
    (searchNeedsScan .ascii dropped mongoMinTokenSize = false ∧ searchPrunes .ascii dropped = false ∧
      mongoSearchPipeline .ascii dropped = none) ∧
    (searchNeedsScan .ascii widened mongoMinTokenSize = false ∧
      ¬ HoistPreserves .ascii (fun _ _ => true) (fun _ => none) (fun _ => none) widened) := by
  refine ⟨⟨by decide,by decide,by decide⟩,by decide,by decide⟩

end ENode.Storage
