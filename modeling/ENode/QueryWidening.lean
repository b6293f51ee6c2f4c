import ENode.MetaQuery

/-! A request asks for no less than its search tree: what a daemon is told to leave out, the tree
would leave out as well. The exceptions are an AND NOT that the matcher drops for want of a left
side and whose words are forwarded all the same, and a row whose type the matcher takes for the
one forwarded though it is spelled otherwise. -/
namespace ENode.Meta

open GoText Storage List

section
variable (u : Unicode)

/-- What the matcher has checked of a query; the words a row may not have are apart. -/
structure Query.Required (q : Query) (file : File) : Prop where
  terms : ∀ term ∈ q.terms, matchSearchExpr u (.ofText term) file = true
  minSize : q.minSize ≤ file.size
  maxSize : q.maxSize = 0 ∨ file.size ≤ q.maxSize
  alike : q.fileType = [] ∨ matchSearchExpr u (.ofString searchTypeFileType q.fileType) file = true
  sources : q.minSources ≤ file.sources

def Absent (file : File) (words : List Bytes) : Prop := ∀ w ∈ words, matchSearchExpr u (.ofText w) file = false

/-- The row satisfies every constraint of the request, whose text is the words joined. -/
structure SearchRequest.Admits (r : SearchRequest) (words : List Bytes) (file : File) : Prop where
  query : r.query = (lit " ").intercalate words
  words : ∀ w ∈ words, matchSearchExpr u (.ofText w) file = true
  exclude : Absent u file r.exclude
  minSize : r.minSize ≤ file.size
  maxSize : r.maxSize = 0 ∨ file.size ≤ r.maxSize
  type : r.type = [] ∨ file.type = r.type
  minSeeders : r.minSeeders ≤ file.sources

/-- The words forwarded from an AND NOT whose left side the matcher removes. -/
def droppedExclusions : SearchExpr → List Bytes
  | .nil => []
  | .node kind _ _ _ _ _ left right =>
    match kind with
    | .and => droppedExclusions left ++ droppedExclusions right
    | .andNot => droppedExclusions left ++ if searchPrunes u left then (excludeTerms u right).getD [] else []
    | _ => []

end

section
variable {u : Unicode} {file : File} {q : Query}

namespace Query.Required

section
variable (required : q.Required u file)
include required

theorem raiseMin {min : Nat} (large : min ≤ file.size) : (q.raiseMin min).Required u file := by
  unfold Query.raiseMin
  split_ifs
  · exact { required with minSize := large }
  · exact required

theorem lowerMax {max : Nat} (small : file.size ≤ max) : (q.lowerMax max).Required u file := by
  unfold Query.lowerMax
  split_ifs
  · exact { required with maxSize := .inr small }
  · exact required

theorem raiseSources (enough : floor ≤ file.sources) : (q.raiseSources floor).Required u file := by
  unfold Query.raiseSources
  split_ifs
  · exact { required with sources := (Nat.min_le_left ..).trans enough }
  · exact required

theorem sizeBound (hit : compareSearchValue op file.size v = true) :
    (q.sizeBound op v).Required u file := by
  unfold Query.sizeBound
  unfold compareSearchValue at hit
  split_ifs with greater greaterEqual less positive lessEqual equal
  · have wraps := Nat.mod_le (v + 1) (2^64)
    refine required.raiseMin ?_
    simp [greater,searchOpGreater,searchOpEqual] at hit
    omega
  · refine required.raiseMin ?_
    simpa [greaterEqual,searchOpGreater,searchOpEqual,searchOpLess,searchOpGreaterEqual] using hit
  · refine required.lowerMax ?_
    simp [less,searchOpGreater,searchOpEqual,searchOpLess] at hit
    omega
  · exact required
  · refine required.lowerMax ?_
    simpa [lessEqual,searchOpGreater,searchOpEqual,searchOpLess,searchOpGreaterEqual,searchOpLessEqual] using hit
  · have same : file.size = v := by simpa [equal,searchOpEqual] using hit
    exact (required.raiseMin (Nat.le_of_eq same.symm)).lowerMax (Nat.le_of_eq same)
  · exact required

theorem sourcesFloor (hit : compareSearchValue op file.sources v = true) :
    (q.sourcesFloor op v).Required u file := by
  unfold Query.sourcesFloor
  unfold compareSearchValue at hit
  split_ifs with greater other
  · have wraps := Nat.mod_le (v + 1) (2^64)
    refine required.raiseSources ?_
    simp [greater,searchOpGreater,searchOpEqual] at hit
    omega
  · refine required.raiseSources ?_
    rcases other with rfl | rfl
    · simpa [searchOpGreater,searchOpEqual,searchOpLess,searchOpGreaterEqual] using hit
    · have same : file.sources = v := by simpa [searchOpEqual] using hit
      exact Nat.le_of_eq same.symm
  · exact required

theorem addTerms (hit : matchText u text (toLower u file.name) = true) :
    ({ q with terms := q.terms ++ splitTerms u text } : Query).Required u file := by
  refine { required with terms := fun term member => ?_ }
  rcases mem_append.mp member with old | new
  · exact required.terms term old
  · rw [matchSearchExpr_text]
    exact matchText_terms hit new

end

end Query.Required

/-- A node passes when the matcher removes it or it matches. -/
def Passes (u : Unicode) (file : File) (expr : SearchExpr) : Prop := searchPrunes u expr = true ∨ searchMatch u expr file = true

theorem passes_and (passes : Passes u file (.node .and text tagType value number related left right)) :
    Passes u file left ∧ Passes u file right := by
  have pruned : searchPrunes u (.node .and text tagType value number related left right) =
      (searchPrunes u left && searchPrunes u right) :=
    (matchNode_operator u {} [] text tagType value number related left right).1.1
  unfold Passes at passes ⊢
  rw [pruned,searchMatch_and] at passes
  cases l : searchPrunes u left <;> cases r : searchPrunes u right <;> simp_all

theorem passes_andNot (passes : Passes u file (.node .andNot text tagType value number related left right)) :
    Passes u file left ∧ (searchPrunes u left = true ∨ searchPrunes u right = true ∨ searchMatch u right file = false) := by
  have pruned : searchPrunes u (.node .andNot text tagType value number related left right) =
      searchPrunes u left := (matchNode_operator u {} [] text tagType value number related left right).2.2.1
  unfold Passes at passes ⊢
  rw [pruned,searchMatch_andNot] at passes
  cases l : searchPrunes u left <;> cases r : searchPrunes u right <;> simp_all

theorem passes_numeric (numeric : kind = .uint32 ∨ kind = .uint64)
    (found : numericConstraint kind tagType = some (tag,op))
    (passes : Passes u file (.node kind text tagType value number related left right)) :
    (tag = searchTagSize → compareSearchValue op file.size number = true) ∧
    (tag = searchTagSources → compareSearchValue op file.sources number = true) := by
  rcases numeric with rfl | rfl <;>
  · constructor
    · rintro rfl
      simpa [Passes,searchPrunes,searchMatch,matchNode,found] using passes
    · rintro rfl
      simpa [Passes,searchPrunes,searchMatch,matchNode,found,searchTagSources,searchTagSize] using passes

variable (expr : SearchExpr)

/-- What is collected from a tree holds of every row the tree lets pass. -/
theorem required_walk (passes : Passes u file expr) (required : q.Required u file) :
    (q.walk u expr).Required u file := by
  induction expr generalizing q with
  | nil => exact required
  | node kind text tagType _ number related _ right left_ih right_ih =>
    have numeric (isNumeric : kind = .uint32 ∨ kind = .uint64) :
        (q.bound (numericConstraint kind tagType) number).Required u file := by
      cases found : numericConstraint kind tagType with
      | none => exact required
      | some _ =>
        obtain ⟨size,sources⟩ := passes_numeric isNumeric found passes
        unfold Query.bound
        dsimp only
        split_ifs with isSources notSize
        · exact required.sourcesFloor (sources isSources)
        · exact required
        · exact required.sizeBound (size (not_not.mp notSize))
    cases kind with
    | text => exact required.addTerms (by simpa [Passes,searchPrunes,searchMatch,matchNode] using passes)
    | string =>
      simp only [Query.walk]
      split_ifs with isText isType
      · exact required.addTerms (by simpa [Passes,searchPrunes,searchMatch,matchNode,isText] using passes)
      · refine { required with alike := .inr ?_ }
        rw [matchSearchExpr,if_neg (by simp [SearchExpr.ofString])]
        subst isType
        simpa [Passes,searchPrunes,searchMatch,matchNode,SearchExpr.ofString,searchTypeFileType,searchTypeText] using passes
      · exact required
    | uint32 => exact numeric (.inl rfl)
    | uint64 => exact numeric (.inr rfl)
    | and =>
      obtain ⟨l,r⟩ := passes_and passes
      exact right_ih r (left_ih l required)
    | andNot =>
      have walked := left_ih (passes_andNot passes).1 required
      simp only [Query.walk]
      cases excludeTerms u right with
      | none => exact walked
      | some _ => exact { walked with }
    | or | hash | related | other => exact required

theorem singleTerm_some (found : singleTerm u text = some words) :
    ∃ term, splitTerms u text = [term] ∧ words = [term] := by
  unfold singleTerm at found
  split_ifs at found with single
  cases found
  obtain ⟨term,only⟩ := length_eq_one_iff.mp (not_not.mp single)
  exact ⟨term,only,only⟩

/-- Words that may be left out one by one are terms, and the tree matches when one of them does. -/
theorem excludeTerms_spec (file : File) (expr : SearchExpr) (found : excludeTerms u expr = some words) :
    searchPrunes u expr = false ∧ (∀ w ∈ words, splitTerms u w = [w]) ∧
    (searchMatch u expr file = false ↔ Absent u file words) := by
  have leaf : ∀ {text : Bytes} {words : List Bytes}, singleTerm u text = some words → (∀ w ∈ words, splitTerms u w = [w]) ∧
      (matchText u text (toLower u file.name) = false ↔ Absent u file words) := by
    intro text words single
    obtain ⟨term,only,rfl⟩ := singleTerm_some single
    have isTerm : splitTerms u term = [term] := splitTerms_term (by rw [only]; exact mem_singleton_self term)
    refine ⟨fun w member => by rw [mem_singleton.mp member,isTerm],?_⟩
    rw [Absent,forall_mem_singleton,matchSearchExpr_text,matchText_single only]
  induction expr generalizing words with
  | nil => cases found
  | node kind text tagType value number related left right left_ih right_ih =>
    cases kind with
    | text =>
      obtain ⟨terms,absent⟩ := leaf found
      exact ⟨rfl,terms,absent⟩
    | string =>
      simp only [excludeTerms] at found
      split_ifs at found with isText
      obtain ⟨terms,absent⟩ := leaf found
      refine ⟨by simp [searchPrunes,matchNode,isText],terms,?_⟩
      rw [← absent]
      simp [searchMatch,matchNode,isText]
    | or =>
      simp only [excludeTerms] at found
      cases l : excludeTerms u left with
      | none => simp [l] at found
      | some _ =>
        cases r : excludeTerms u right with
        | none => simp [l,r] at found
        | some _ =>
          simp only [l,r,Option.some.injEq] at found
          subst found
          obtain ⟨keptL,termsL,absentL⟩ := left_ih l
          obtain ⟨keptR,termsR,absentR⟩ := right_ih r
          refine ⟨?_,fun w member => (mem_append.mp member).elim (termsL w) (termsR w),?_⟩
          · have pruned := (matchNode_operator u {} [] text tagType value number related left right).2.1.1
            exact pruned.trans (by rw [show (matchNode u {} [] left).2 = false from keptL]; rfl)
          · rw [searchMatch_or,keptL,keptR,if_neg Bool.false_ne_true,if_neg Bool.false_ne_true,Bool.or_eq_false_iff,absentL,absentR]
            exact forall_mem_append.symm
    | and | andNot | uint32 | uint64 | hash | related | other => cases found

theorem absent_append (first second : List Bytes) :
    Absent u file (first ++ second) ↔ Absent u file first ∧ Absent u file second := forall_mem_append

theorem absent_nil : Absent u file [] := fun _ member => by cases member

theorem bound_words (constraint : Option (Nat × Nat)) (v : Nat) :
    (q.bound constraint v).exclude = q.exclude ∧ (q.bound constraint v).terms = q.terms := by
  unfold Query.bound Query.sourcesFloor Query.sizeBound Query.lowerMax Query.raiseMin Query.raiseSources
  split
  · exact ⟨rfl,rfl⟩
  · split_ifs <;> exact ⟨rfl,rfl⟩

/-- The words left out, in a row the tree lets pass: those of an AND NOT that the matcher keeps are
absent. -/
theorem exclude_walk (passes : Passes u file expr) :
    Absent u file (q.walk u expr).exclude ↔ Absent u file q.exclude ∧ Absent u file (droppedExclusions u expr) := by
  induction expr generalizing q with
  | nil => exact (and_iff_left absent_nil).symm
  | node kind text tagType value number related left right left_ih right_ih =>
    have leaf {q' : Query} (same : q'.exclude = q.exclude) :
        Absent u file q'.exclude ↔ Absent u file q.exclude ∧ Absent u file [] := by
      rw [same]
      exact (and_iff_left absent_nil).symm
    cases kind with
    | and =>
      obtain ⟨l,r⟩ := passes_and passes
      rw [show q.walk u (.node .and text tagType value number related left right) = (q.walk u left).walk u right from rfl,
        right_ih r,left_ih l,and_assoc,← absent_append]
      exact Iff.rfl
    | andNot =>
      obtain ⟨l,r⟩ := passes_andNot passes
      simp only [Query.walk,droppedExclusions]
      rw [absent_append,← and_assoc,← left_ih l]
      cases found : excludeTerms u right with
      | none =>
        refine (and_iff_left ?_).symm
        split_ifs <;> exact absent_nil
      | some _ =>
        obtain ⟨kept,_,absent⟩ := excludeTerms_spec file right found
        rw [absent_append]
        refine and_congr_right fun _ => ?_
        split_ifs with dropped
        · exact Iff.rfl
        · have unmatched := (r.resolve_left dropped).resolve_left (by rw [kept]; exact Bool.false_ne_true)
          exact iff_of_true (absent.mp unmatched) absent_nil
    | string =>
      refine leaf ?_
      simp only [Query.walk]
      split_ifs <;> rfl
    | uint32 | uint64 => exact leaf (bound_words _ number).1
    | text | or | hash | related | other => exact leaf rfl

/-- The words collected are terms. -/
theorem walk_terms (terms : ∀ w ∈ q.terms, splitTerms u w = [w]) (exclude : ∀ w ∈ q.exclude, splitTerms u w = [w]) :
    (∀ w ∈ (q.walk u expr).terms, splitTerms u w = [w]) ∧ ∀ w ∈ (q.walk u expr).exclude, splitTerms u w = [w] := by
  induction expr generalizing q with
  | nil => exact ⟨terms,exclude⟩
  | node kind text _ value _ related _ right left_ih right_ih =>
    have more (text : Bytes) : ∀ w ∈ q.terms ++ splitTerms u text, splitTerms u w = [w] :=
      forall_mem_append.mpr ⟨terms,fun _ => splitTerms_term⟩
    cases kind with
    | text => exact ⟨more text,exclude⟩
    | string =>
      simp only [Query.walk]
      split_ifs
      · exact ⟨more value,exclude⟩
      · exact ⟨terms,exclude⟩
      · exact ⟨terms,exclude⟩
    | uint32 | uint64 =>
      simp only [Query.walk]
      rw [(bound_words ..).1,(bound_words ..).2]
      exact ⟨terms,exclude⟩
    | and =>
      obtain ⟨first,second⟩ := left_ih terms exclude
      exact right_ih first second
    | andNot =>
      obtain ⟨first,second⟩ := left_ih terms exclude
      simp only [Query.walk]
      cases found : excludeTerms u right with
      | none => exact ⟨first,second⟩
      | some _ => exact ⟨first,forall_mem_append.mpr ⟨second,(excludeTerms_spec {} right found).2.1⟩⟩
    | or | hash | related | other => exact ⟨terms,exclude⟩

theorem absent_dedupeFold (terms : ∀ w ∈ words, splitTerms u w = [w]) :
    Absent u file (dedupeFold u words) ↔ Absent u file words := by
  constructor
  · intro absent w member
    obtain ⟨w',kept,same⟩ := dedupeFold_covers (u := u) member
    have no := absent w' kept
    rw [matchSearchExpr_text,matchText_term (terms w' (dedupeFold_sub kept)),same] at no
    rwa [matchSearchExpr_text,matchText_term (terms w member)]
  · exact fun absent w kept => absent w (dedupeFold_sub kept)

theorem passes_accepted {expr : SearchExpr} (accepted : matchSearchExpr u expr file = true) : Passes u file expr := by
  unfold matchSearchExpr at accepted
  split_ifs at accepted
  exact .inr accepted

theorem buildQuery_terms : ∀ w ∈ (buildQuery u expr).1.terms, splitTerms u w = [w] := by
  intro w kept
  refine (walk_terms expr ?_ ?_).1 w (dedupeFold_sub kept) <;> exact fun _ member => absurd member not_mem_nil

theorem buildQuery_required {expr : SearchExpr} (accepted : matchSearchExpr u expr file = true) :
    (buildQuery u expr).1.Required u file := by
  have start : ({} : Query).Required u file :=
    ⟨fun term member => absurd member not_mem_nil,Nat.zero_le _,.inl rfl,.inl rfl,Nat.zero_le _⟩
  have walked := required_walk expr (passes_accepted accepted) start
  exact { walked with terms := fun term kept => walked.terms term (dedupeFold_sub kept) }

/-- A row that the tree accepts satisfies the whole request exactly when its type is spelled as the one
forwarded and it has none of the words that are forwarded from an AND NOT the matcher drops. Otherwise its
type still is one that a leaf with the type forwarded takes. -/
theorem query_widens_iff (u : Unicode) (expr : SearchExpr) (file : File) (accepted : matchSearchExpr u expr file = true)
    (limit : Nat) :
    let q := (buildQuery u expr).1
    ((q.request limit).Admits u q.terms file ↔ (q.fileType = [] ∨ file.type = q.fileType) ∧
      ∀ w ∈ droppedExclusions u expr, matchSearchExpr u (.ofText w) file = false) ∧
      (q.fileType = [] ∨ matchSearchExpr u (.ofString searchTypeFileType q.fileType) file = true) := by
  have required := buildQuery_required accepted
  have terms : ∀ w ∈ (({} : Query).walk u expr).exclude, splitTerms u w = [w] :=
    (walk_terms expr (fun w member => absurd member not_mem_nil) fun _ member => absurd member not_mem_nil).2
  have exclude : Absent u file (buildQuery u expr).1.exclude ↔ Absent u file (droppedExclusions u expr) :=
    (absent_dedupeFold terms).trans ((exclude_walk expr (passes_accepted accepted)).trans (and_iff_right absent_nil))
  refine ⟨⟨fun admits => ⟨admits.type,exclude.mp admits.exclude⟩,?_⟩,required.alike⟩
  rintro ⟨spelled,absent⟩
  exact ⟨rfl,required.terms,exclude.mpr absent,required.minSize,required.maxSize,spelled,required.sources⟩

end

/-- `a AND (<a tag no engine knows> AND NOT b)`. -/
def ratedSearch : SearchExpr :=
  .ofOperator .and (.ofText (lit "a")) (.ofOperator .andNot (.ofString 0xf70001 (lit "5")) (.ofText (lit "b")))

theorem query_widens_iff_rated : let q := (buildQuery Unicode.ascii ratedSearch).1
    (q.request 50).Admits Unicode.ascii q.terms { name := lit "a c" } :=
  (query_widens_iff Unicode.ascii ratedSearch { name := lit "a c" } (by decide +kernel) 50).1.mpr
    ⟨.inl (by decide +kernel),by decide +kernel⟩

/-- `a AND <type Pro>`. -/
def packedSearch : SearchExpr := .ofOperator .and (.ofText (lit "a")) (.ofString searchTypeFileType (lit "Pro"))

/-- The matcher drops the AND NOT and takes a row with `b` in it, which the request leaves out. It takes
an archive for a program, which the request does not. -/
theorem dropped_exclusion_forwarded :
    let rated := (buildQuery Unicode.ascii ratedSearch).1
    let packed := (buildQuery Unicode.ascii packedSearch).1
    (matchSearchExpr Unicode.ascii ratedSearch { name := lit "a b" } = true ∧
      ¬(rated.request 50).Admits Unicode.ascii rated.terms { name := lit "a b" }) ∧
    matchSearchExpr Unicode.ascii packedSearch { name := lit "a", type := lit "Arc" } = true ∧
      ¬(packed.request 50).Admits Unicode.ascii packed.terms { name := lit "a", type := lit "Arc" } := by
  refine ⟨⟨by decide +kernel,fun admits => ?_⟩,by decide +kernel,fun admits => ?_⟩
  · exact absurd (admits.exclude (lit "b") (by decide +kernel)) (by decide +kernel)
  · exact absurd admits.type (by decide +kernel)

end ENode.Meta
