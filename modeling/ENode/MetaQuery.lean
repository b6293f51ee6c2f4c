import ENode.SearchScan

/-! What a search tree forwards to a daemon: the keywords every result must contain and the
constraints a request can express, collected along the AND nodes from the root. -/
namespace ENode.Meta

open GoText Storage List

structure Query where
  terms : List Bytes := []
  exclude : List Bytes := []
  fileType : Bytes := []
  minSize : Nat := 0
  maxSize : Nat := 0
  minSources : Nat := 0

structure SearchRequest where
  query : Bytes
  exclude : List Bytes
  minSize : Nat
  maxSize : Nat
  type : Bytes
  minSeeders : Nat
  limit : Nat

namespace Query

def raiseMin (q : Query) (min : Nat) : Query := if min > q.minSize then { q with minSize := min } else q

/-- 0 means no bound, so a bound of 0 is dropped. -/
def lowerMax (q : Query) (max : Nat) : Query :=
  if max > 0 ∧ (q.maxSize = 0 ∨ max < q.maxSize) then { q with maxSize := max } else q

/-- `floor` is 32 bits wide once it is cut. -/
def raiseSources (q : Query) (floor : Nat) : Query :=
  if min floor (2^32 - 1) > q.minSources then { q with minSources := min floor (2^32 - 1) } else q

def sourcesFloor (q : Query) (op v : Nat) : Query :=
  if op = searchOpGreater then q.raiseSources ((v + 1) % 2^64)
  else if op = searchOpGreaterEqual ∨ op = searchOpEqual then q.raiseSources v
  else q

/-- The strict forms are shifted by one. -/
def sizeBound (q : Query) (op v : Nat) : Query :=
  if op = searchOpGreater then q.raiseMin ((v + 1) % 2^64)
  else if op = searchOpGreaterEqual then q.raiseMin v
  else if op = searchOpLess then if v > 0 then q.lowerMax (v - 1) else q
  else if op = searchOpLessEqual then q.lowerMax v
  else if op = searchOpEqual then (q.raiseMin v).lowerMax v
  else q

def bound (q : Query) (constraint : Option (Nat × Nat)) (v : Nat) : Query :=
  match constraint with
  | none => q
  | some (tag,op) =>
    if tag = searchTagSources then q.sourcesFloor op v
    else if tag ≠ searchTagSize then q
    else q.sizeBound op v

end Query

section
variable (u : Unicode)

def singleTerm (text : Bytes) : Option (List Bytes) :=
  if (splitTerms u text).length ≠ 1 then none else some (splitTerms u text)

/-- The words whose presence alone drops a result: a single word, or an OR of them. -/
def excludeTerms : SearchExpr → Option (List Bytes)
  | .nil => none
  | .node kind text tagType valueString _ _ left right =>
    match kind with
    | .text => singleTerm u text
    | .string => if tagType = searchTypeText then singleTerm u valueString else none
    | .or =>
      match excludeTerms left, excludeTerms right with
      | some l, some r => some (l ++ r)
      | _, _ => none
    | _ => none

def Query.walk (q : Query) : SearchExpr → Query
  | .nil => q
  | .node kind text tagType valueString valueUint _ left right =>
    match kind with
    | .text => { q with terms := q.terms ++ splitTerms u text }
    | .string =>
      if tagType = searchTypeText then { q with terms := q.terms ++ splitTerms u valueString }
      else if tagType = searchTypeFileType then { q with fileType := valueString }
      else q
    | .uint32 | .uint64 => q.bound (numericConstraint kind tagType) valueUint
    | .and => (q.walk left).walk right
    | .andNot =>
      let q := q.walk left
      match excludeTerms u right with
      | some terms => { q with exclude := q.exclude ++ terms }
      | none => q
    | _ => q

/-- One iteration of `dedupeFold`: the words seen in lower case and what is kept. -/
def dedupeStep (state : List Bytes × List Bytes) (s : Bytes) : List Bytes × List Bytes :=
  if state.1.contains (toLower u s) then state else (toLower u s :: state.1,state.2 ++ [s])

def dedupeFold (words : List Bytes) : List Bytes := (words.foldl (dedupeStep u) ([],[])).2

/-- The query, and whether a keyword survives. -/
def buildQuery (expr : SearchExpr) : Query × Bool :=
  let q := ({} : Query).walk u expr
  let q := { q with terms := dedupeFold u q.terms, exclude := dedupeFold u q.exclude }
  (q,decide (q.terms.length > 0))

end

def Query.request (q : Query) (limit : Nat) : SearchRequest :=
  { query := (lit " ").intercalate q.terms, exclude := q.exclude, minSize := q.minSize, maxSize := q.maxSize, type := q.fileType
    minSeeders := q.minSources, limit := limit % 2^32 }

theorem splitTerms_term (isTerm : term ∈ splitTerms u text) : splitTerms u term = [term] := by
  obtain ⟨some_,solid⟩ := field_solid u isTerm
  rw [splitTerms,trimSpace_solid u solid,fields_solid u some_ solid]

theorem termRuns_some (term : Bytes) : termRuns u term ≠ [] := by
  unfold termRuns
  split_ifs with found
  · exact ne_nil_of_length_pos found
  · exact cons_ne_nil _ _

theorem matchText_term (isTerm : splitTerms u term = [term]) (lowerName : Bytes) :
    matchText u term lowerName = (termRuns u (toLower u term)).all (contains lowerName) := by
  have runs : textRuns u term = termRuns u (toLower u term) := by rw [textRuns,isTerm,flatMap_singleton]
  rw [matchText,runs,isEmpty_eq_false_iff.mpr (termRuns_some _)]
  rfl

theorem matchText_terms (hit : matchText u text lowerName = true)
    (isTerm : term ∈ splitTerms u text) : matchText u term lowerName = true := by
  rw [matchText_term (splitTerms_term isTerm),all_eq_true]
  intro run isRun
  exact all_eq_true.mp (Bool.and_eq_true_iff.mp hit).2 run (mem_flatMap.mpr ⟨term,isTerm,isRun⟩)

theorem matchText_single (only : splitTerms u text = [term]) (lowerName : Bytes) :
    matchText u text lowerName = matchText u term lowerName := by
  have isTerm : term ∈ splitTerms u text := by
    rw [only]
    exact mem_singleton_self term
  rw [matchText,matchText,textRuns,textRuns,only,splitTerms_term isTerm]

theorem matchSearchExpr_text (text : Bytes) (file : File) :
    matchSearchExpr u (.ofText text) file = matchText u text (toLower u file.name) := by
  rw [matchSearchExpr,if_neg (by simp [SearchExpr.ofText])]
  rfl

/-- What the loop of `dedupeFold` has seen is what it has kept. -/
theorem dedupeStep_spec (words : List Bytes) (state : List Bytes × List Bytes)
    (same : ∀ low, low ∈ state.1 ↔ low ∈ state.2.map (toLower u)) :
    (∀ w ∈ (words.foldl (dedupeStep u) state).2, w ∈ state.2 ∨ w ∈ words) ∧
    ∀ w, (w ∈ state.2 ∨ w ∈ words) → ∃ w' ∈ (words.foldl (dedupeStep u) state).2, toLower u w' = toLower u w := by
  induction words generalizing state with
  | nil => exact ⟨fun w kept => .inl kept,fun w from_ => ⟨w,from_.resolve_right not_mem_nil,rfl⟩⟩
  | cons s _ ih =>
    rw [foldl_cons]
    by_cases seen : toLower u s ∈ state.1
    · rw [show dedupeStep u state s = state from if_pos (contains_iff_mem.mpr seen)]
      obtain ⟨from_,kept⟩ := ih state same
      refine ⟨fun w member => (from_ w member).imp_right (.tail s),fun w member => ?_⟩
      rcases member with old | new
      · exact kept w (.inl old)
      · rcases mem_cons.mp new with rfl | later
        · obtain ⟨w',first,equal⟩ := mem_map.mp ((same _).mp seen)
          obtain ⟨w'',inside,equal'⟩ := kept w' (.inl first)
          exact ⟨w'',inside,equal'.trans equal⟩
        · exact kept w (.inr later)
    · rw [show dedupeStep u state s = (toLower u s :: state.1,state.2 ++ [s]) from
        if_neg fun found => seen (contains_iff_mem.mp found)]
      obtain ⟨from_,kept⟩ := ih (toLower u s :: state.1,state.2 ++ [s]) (by
        intro low
        rw [map_append,mem_append,mem_cons,same low,map_singleton,mem_singleton,or_comm])
      refine ⟨fun w member => ?_,fun w member => kept w ?_⟩
      · rcases from_ w member with old | later
        · rcases mem_append.mp old with older | one
          · exact .inl older
          · exact .inr (mem_cons.mpr (.inl (mem_singleton.mp one)))
        · exact .inr (.tail _ later)
      · rcases member with old | new
        · exact .inl (mem_append_left _ old)
        · rcases mem_cons.mp new with rfl | later
          · exact .inl (mem_append_right _ (mem_singleton_self _))
          · exact .inr later

theorem dedupeFold_sub (kept : w ∈ dedupeFold u words) : w ∈ words :=
  ((dedupeStep_spec words ([],[]) (by simp)).1 w kept).resolve_left not_mem_nil

theorem dedupeFold_covers (member : w ∈ words) :
    ∃ w' ∈ dedupeFold u words, toLower u w' = toLower u w :=
  (dedupeStep_spec words ([],[]) (by simp)).2 w (.inr member)

end ENode.Meta
