import ENode.ManticoreParts
import ENode.SearchScan

/-! What a Manticore query means. Its parts, read back with the precedence of their own language and put
together, accept a row exactly when the tree does. -/
namespace ENode.Storage

open GoText FullText List

section
variable {u : Unicode} {script : Char → Bool} {l r : MNode}

variable (u script) in
/-- How a node renders what the expression reduces to. -/
def Renders (n : MNode) : Reduced → Prop
  | .pruned => n = mPruned
  | .never => n = mContradiction
  | .holds c => n = mUnsupported ∨ ∃ m f, Parts u script n c m f

def Reduced.isNever (a : Reduced) : Bool := a matches .never

variable {expr : SearchExpr}

namespace Renders

variable {a b : Reduced}

theorem flags (h : Renders u script l a) : l.prune = a.isPruned ∧ l.contradiction = a.isNever := by
  cases a with
  | pruned =>
    rw [show l = mPruned from h]
    exact ⟨rfl,rfl⟩
  | never =>
    rw [show l = mContradiction from h]
    exact ⟨rfl,rfl⟩
  | holds =>
    rcases h with rfl | ⟨_,_,parts⟩
    · exact ⟨rfl,rfl⟩
    · exact ⟨parts.kept,parts.possible⟩

/-- What neither side refuses is combined part by part. -/
theorem combined (left : Renders u script l (.holds cl))
    (right : Renders u script r (.holds cr)) (both : ∀ m f m' f', Parts u script l cl m f →
      Parts u script r cr m' f' → Renders u script n (.holds c)) :
    Renders u script (if l.unsupported || r.unsupported then mUnsupported else n) (.holds c) := by
  rcases left with rfl | ⟨m,f,left⟩
  · exact .inl rfl
  rcases right with rfl | ⟨m',f',right⟩
  · exact .inl (if_pos (Bool.or_true _))
  · rw [left.supported,right.supported]
    exact both m f m' f' left right

section
variable (left : Renders u script l a) (right : Renders u script r b)
include left right

theorem and : Renders u script (combineManticoreNodes .and l r) (a.and b) := by
  rw [combineManticoreNodes,left.flags.1,left.flags.2,right.flags.1,right.flags.2]
  rcases a with _ | _ | _ <;> rcases b with _ | _ | _
  case holds.holds => exact left.combined right fun _ _ _ _ first second => .inr ⟨_,_,first.and second⟩
  all_goals first | rfl | exact left | exact right

theorem or : Renders u script (combineManticoreNodes .or l r) (a.or b) := by
  rw [combineManticoreNodes,left.flags.1,left.flags.2,right.flags.1,right.flags.2]
  rcases a with _ | _ | _ <;> rcases b with _ | _ | _
  case holds.holds => exact left.combined right fun _ _ _ _ first second => first.or second
  all_goals first | rfl | exact left | exact right

theorem andNot : Renders u script (combineManticoreNodes .andNot l r) (a.andNot b) := by
  rw [combineManticoreNodes,left.flags.1,left.flags.2,right.flags.1,right.flags.2]
  rcases a with _ | _ | _ <;> rcases b with _ | _ | _
  case holds.holds => exact left.combined right fun _ _ _ _ first second => first.andNot second
  all_goals first | rfl | exact left

end

theorem textLeaf (letters : QueryLetters u) (path : Path)
    (asked : expr.fullText = some (field,sought)) (plain : ∀ c ∈ field.toList, c ∉ [' ','(',')','|','-']) :
    Renders u script (manticoreTextLeaf u script field sought)
      (if (splitTerms u sought).isEmpty then .never else .holds (.leaf path expr)) := by
  rcases manticoreTextLeaf_cases script letters field sought with
    ⟨rendered,blank⟩ | ⟨rendered,terms⟩ | ⟨rendered,terms,occupied⟩ <;> rw [rendered]
  · rw [blank]
    rfl
  · rw [if_neg (by simpa using terms)]
    exact .inl rfl
  · rw [if_neg (by simpa using terms)]
    exact .inr ⟨_,_,.text letters asked plain occupied⟩

omit u in
theorem mediaField_plain (media : mediaStringField tagType = some field) :
    ∀ c ∈ field.toList, c ∉ [' ','(',')','|','-'] := by
  unfold mediaStringField at media
  split_ifs at media <;> cases media <;> simp

end Renders

namespace ManticoreRow

/-- Clamping a bound changes no comparison with a value below the clamp. -/
theorem compare_clamp (known : op ≤ searchOpNotEqual) (small : have_ < 2^63 - 1) :
    compare (sqlOperators.getD op "") have_ (clampInt64 value) = compareSearchValue op have_ value := by
  unfold searchOpNotEqual at known
  have clamp : clampInt64 value = value ∨ have_ < clampInt64 value ∧ have_ < value := by
    unfold clampInt64
    omega
  generalize clampInt64 value = bound at clamp
  rcases clamp with rfl | ⟨below,below'⟩
  · interval_cases op <;> rfl
  · have order : ∀ b, have_ < b → (have_ == b) = false ∧ decide (have_ > b) = false ∧ decide (have_ < b) = true ∧
        decide (have_ ≥ b) = false ∧ decide (have_ ≤ b) = true ∧ (have_ != b) = true := by
      intro _ _
      simp only [beq_eq_false_iff_ne,bne_iff_ne,decide_eq_false_iff_not,decide_eq_true_eq]
      omega
    obtain ⟨e,g,l,ge,le,ne⟩ := order bound below
    obtain ⟨e',g',l',ge',le',ne'⟩ := order value below'
    interval_cases op
    · exact e.trans e'.symm
    · exact g.trans g'.symm
    · exact l.trans l'.symm
    · exact ge.trans ge'.symm
    · exact le.trans le'.symm
    · exact ne.trans ne'.symm

end ManticoreRow

theorem word_column (known : column ∈ ["type","ext","codec","size","bitrate","length"]) :
    ConditionReading.Word column.toList := by
  simp only [mem_cons,not_mem_nil,or_false] at known
  rcases known with rfl | rfl | rfl | rfl | rfl | rfl <;> exact ⟨by simp,rfl⟩

theorem word_operator (known : op ≤ searchOpNotEqual) :
    ConditionReading.Word (sqlOperators.getD op "").toList := by
  unfold searchOpNotEqual at known
  interval_cases op <;> exact ⟨by simp [sqlOperators],rfl⟩

section
variable (path : Path) (sought : Bytes) (tagType : Nat) (content : Bytes) (number : Nat) (related : List FileKey)
  (left right : SearchExpr)

theorem string_condition (column : String) (known : column ∈ ["type","ext","codec"])
    (notText : expr.fullText = none)
    (truth : ∀ same row, rowTruth u same row expr = same (row.string column) value) :
    Renders u script { filter := column ++ " = ?", args := [.text value] } (.holds (.leaf path expr)) := by
  have written : column ++ " = ?" = column ++ " " ++ "=" ++ " ?" := by
    rw [String.append_assoc,String.append_assoc]
    rfl
  rw [written]
  refine .inr ⟨_,_,.condition notText column "=" (.text value) (word_column ?_) ⟨by simp,rfl⟩ fun _ _ _ => ?_⟩
  · simp only [mem_cons,not_mem_nil,or_false] at known ⊢
    tauto
  · simp [truth,ManticoreRow.test]

theorem string_renders (letters : QueryLetters u) : Renders u script
    (manticoreNode u script (.node .string sought tagType content number related left right))
    (reduceLeaf u path .string sought tagType content
      (.node .string sought tagType content number related left right)) := by
  by_cases isText : tagType = searchTypeText
  · simp only [manticoreNode,reduceLeaf,if_pos isText]
    exact .textLeaf letters path (by simp [SearchExpr.fullText,isText]) (by simp)
  by_cases isType : tagType = searchTypeFileType
  · subst isType
    exact string_condition path "type" (by simp) rfl fun _ _ => rfl
  by_cases isExt : tagType = searchTypeExt
  · subst isExt
    exact string_condition path "ext" (by simp) rfl fun _ _ => rfl
  by_cases isCodec : tagType = searchTypeCodec
  · subst isCodec
    exact string_condition path "codec" (by simp) rfl fun _ _ => rfl
  simp only [manticoreNode,reduceLeaf,if_neg isText,if_neg isType,if_neg isExt,if_neg isCodec]
  have known := mediaStringField_isSome tagType
  cases media : mediaStringField tagType with
  | none =>
    rw [media] at known
    rw [if_neg (by simp_all)]
    rfl
  | some field =>
    rw [media] at known
    rw [if_pos (by simp_all)]
    dsimp only
    split_ifs with blank
    · exact .inl rfl
    · have terms : splitTerms u content ≠ [] := fields_trimSpace u blank
      have shown : Renders u script (manticoreTextLeaf u script field content)
          (if (splitTerms u content).isEmpty then .never
            else .holds (.leaf path (.node .string sought tagType content number related left right))) :=
        .textLeaf letters path (by simp [SearchExpr.fullText,isText,media]) (Renders.mediaField_plain media)
      rwa [if_neg (by simpa using terms)] at shown

theorem numericAttr_value (attr : manticoreNumericAttr tag = some column) :
    column ∈ ["size","bitrate","length"] ∧ ∀ row : ManticoreRow, row.tagValue tag = some (row.number column) ∧
      (row.Small → row.number column < 2^63 - 1) := by
  unfold manticoreNumericAttr at attr
  split_ifs at attr with isSize isBitrate isLength <;> cases attr
  · exact ⟨by simp,fun row => ⟨by simp [ManticoreRow.tagValue,ManticoreRow.number,isSize],fun small => small.1⟩⟩
  · refine ⟨by simp,fun row => ⟨?_,fun small => small.2.1⟩⟩
    subst isBitrate
    rfl
  · refine ⟨by simp,fun _ => ⟨?_,fun small => small.2.2⟩⟩
    subst isLength
    rfl

theorem counter_value (counter : tag = searchTagSources ∨ tag = searchTagComplete) (row : ManticoreRow) :
    row.tagValue tag = some (if tag = searchTagComplete then row.completed else row.sources) := by
  rcases counter with rfl | rfl <;> rfl

section
variable {expr : SearchExpr} (notText : expr.fullText = none)
  (truth : ∀ same row, rowTruth u same row expr = (row.tagValue tag).elim false (compareSearchValue op · value))

include notText truth

theorem counter_renders (counter : tag = searchTagSources ∨ tag = searchTagComplete) (known : op ≤ searchOpNotEqual) :
    Renders u script { agg := .node .uint64 tag op value .nil .nil } (.holds (.leaf path expr)) := by
  refine .inr ⟨_,_,.counter notText tag op value known fun _ _ => ?_⟩
  rw [truth,counter_value counter]
  rfl

theorem attr_renders (attr : manticoreNumericAttr tag = some column) (known : op ≤ searchOpNotEqual) :
    Renders u script
      { filter := column ++ " " ++ sqlOperators.getD op "" ++ " ?", args := [.number (clampInt64 value)] }
      (.holds (.leaf path expr)) := by
  obtain ⟨named,value_⟩ := numericAttr_value attr
  refine .inr ⟨_,_,.condition notText column _ _ (word_column ?_) (word_operator known) fun _ row small => ?_⟩
  · simp only [mem_cons,not_mem_nil,or_false] at named ⊢
    tauto
  · obtain ⟨stored,below⟩ := value_ row
    rw [truth,stored]
    simp only [ManticoreRow.test,String.ofList_toList]
    exact (ManticoreRow.compare_clamp known (below small)).symm

end

theorem numeric_renders (numeric : kind = .uint32 ∨ kind = .uint64) : Renders u script
    (manticoreNode u script (.node kind sought tagType content number related left right))
    (reduceLeaf u path kind sought tagType content
      (.node kind sought tagType content number related left right)) := by
  rcases numeric with rfl | rfl
  all_goals
    simp only [manticoreNode,reduceLeaf]
    cases constraint : numericConstraint _ tagType with
    | none => rfl
    | some found =>
      obtain ⟨tag,_⟩ := found
      dsimp only
      by_cases counter : tag = searchTagSources ∨ tag = searchTagComplete
      · rw [if_pos counter,if_pos (by tauto)]
        exact counter_renders path rfl (fun same row => by simp [rowTruth,constraint]) counter
          (numericConstraint_op constraint)
      rw [if_neg counter]
      have known := manticoreNumericAttr_isSome tag
      cases attr : manticoreNumericAttr tag with
      | none =>
        rw [attr] at known
        rw [if_neg (by simp_all)]
        rfl
      | some _ =>
        rw [attr] at known
        rw [if_pos (by simp_all)]
        exact attr_renders path rfl (fun _ _ => by simp [rowTruth,constraint]) attr (numericConstraint_op constraint)

end

theorem manticoreNode_renders (letters : QueryLetters u) (expr : SearchExpr) (path : Path) :
    Renders u script (manticoreNode u script expr) (reduce u path expr) := by
  induction expr generalizing path with
  | nil => rfl
  | node kind sought tagType content number related left right ihl ihr =>
    cases kind with
    | and => exact (ihl (path ++ [false])).and (ihr (path ++ [true]))
    | or => exact (ihl (path ++ [false])).or (ihr (path ++ [true]))
    | andNot => exact (ihl (path ++ [false])).andNot (ihr (path ++ [true]))
    | text => exact .textLeaf letters path rfl (by simp)
    | string => exact string_renders path sought tagType content number related left right letters
    | uint32 => exact numeric_renders path sought tagType content number related left right (.inl rfl)
    | uint64 => exact numeric_renders path sought tagType content number related left right (.inr rfl)
    | hash => exact .inl rfl
    | related | other => rfl

/-- A query that is to be run stands for the clause the expression reduces to. -/
theorem run_parts (letters : QueryLetters u)
    (run : buildManticoreQuery u script expr = (query,.run)) : ∃ n c m f, reduce u [] expr = .holds c ∧
      Parts u script n c m f ∧ query = ⟨n.matchExpr,n.filter,n.args,n.agg⟩ := by
  have shown : Renders u script (manticoreNode u script expr) (reduce u [] expr) :=
    manticoreNode_renders letters expr []
  unfold buildManticoreQuery at run
  dsimp only at run
  split_ifs at run with unsupported dead
  · cases run
  · cases run
  · cases run
    cases reduced : reduce u [] expr with
    | pruned =>
      rw [reduced] at shown
      rw [show manticoreNode u script expr = mPruned from shown] at dead
      exact absurd rfl dead
    | never =>
      rw [reduced] at shown
      rw [show manticoreNode u script expr = mContradiction from shown] at dead
      exact absurd rfl dead
    | holds c =>
      rw [reduced] at shown
      rcases shown with refused | ⟨m,f,parts⟩
      · rw [refused] at unsupported
        exact absurd rfl unsupported
      · exact ⟨_,c,m,f,rfl,parts,rfl⟩

end

/-- The full-text part of a query, its words given truth values in the order they are written. -/
def ManticoreQuery.readMatch (query : ManticoreQuery) (values : List Bool) : Option Bool :=
  if query.matchExpr = [] then some true else FullText.read (label (lex (decoded query.matchExpr)) values)

def ManticoreQuery.readFilter (query : ManticoreQuery) (test : List Char → List Char → SqlArg → Bool) : Option Bool :=
  if query.filter = "" then some true
  else ConditionReading.read test (ConditionReading.lex query.filter.toList) query.args

/-- The counters of a query: pushed down where they can be, else checked on the row. -/
def ManticoreQuery.readAgg (query : ManticoreQuery) (row : ManticoreRow) (test : List Char → List Char → SqlArg → Bool) :
    Option Bool :=
  if query.having.1 = "" then some (query.agg.matches row.sources row.completed)
  else ConditionReading.read test (ConditionReading.lex query.having.1.toList) query.having.2

section
variable {u : Unicode} {script : Char → Bool}

theorem leafWords_truth (path : Path) (expr : SearchExpr) (truth : Path → SearchExpr → Bool) :
    ((expr.matchWords u script).map ((path,expr),·)).map (fun word => truth word.1.1 word.1.2) =
      replicate (expr.matchWords u script).length (truth path expr) := by
  rw [map_map]
  show List.map (fun _ => truth path expr) _ = _
  exact map_const'

theorem Clause.matchQuery_terms (c : Clause) (truth : Path → SearchExpr → Bool) :
    ((c.matchQuery u script).terms.map fun word => truth word.1.1 word.1.2) = c.leaves.flatMap fun leaf =>
      replicate (leaf.2.matchWords u script).length (truth leaf.1 leaf.2) := by
  induction c with
  | leaf path expr =>
    rw [matchQuery,Query.terms,leaves,flatMap_singleton]
    exact leafWords_truth path expr truth
  | and left right ihl ihr | or left right ihl ihr | andNot _ _ ihl ihr =>
    simp only [matchQuery,Query.terms,leaves,map_append,flatMap_append,ihl,ihr]

theorem Clause.words_placed (c : Clause) : (c.words u script).placed = c.leaves.flatMap fun leaf =>
    (leaf.2.matchWords u script).map (leaf.2.matchField,·) := by
  unfold words
  induction c with
  | leaf _ _ => simp [matchQuery,Query.map,Query.placed,leaves]
  | and left right ihl ihr | or left right ihl ihr | andNot _ _ ihl ihr =>
    simp only [matchQuery,Query.map,Query.placed,leaves,flatMap_append,ihl,ihr]

theorem Clause.matchQuery_eval (c : Clause) (occupied : (c.matchQuery u script).Occupied)
    (truth : Path → SearchExpr → Bool) :
    ((c.matchQuery u script).map fun word => truth word.1.1 word.1.2).eval = c.eval truth := by
  induction c with
  | leaf _ expr =>
    have some_ : (expr.matchWords u script).length ≠ 0 := by simpa [matchQuery,Query.Occupied] using occupied
    rw [matchQuery,Query.map,Query.eval,leafWords_truth,all_replicate,if_neg some_]
    rfl
  | and left right ihl ihr | or left right ihl ihr | andNot _ _ ihl ihr =>
    simp only [matchQuery,Query.map,Query.eval,eval,ihl occupied.1,ihr occupied.2]

theorem Clause.read_words (c : Clause) (spelled : (c.words u script).Spelled) (truth : Path → SearchExpr → Bool) :
    FullText.read (label (lex (c.words u script).text) (c.leaves.flatMap fun leaf =>
      replicate (leaf.2.matchWords u script).length (truth leaf.1 leaf.2))) = some (c.eval truth) := by
  have occupied : (c.matchQuery u script).Occupied := (Query.occupied_map _ _).mp spelled.occupied
  rw [Query.lex_text _ spelled,← c.matchQuery_terms truth,words,Query.tokens_map,label_map,
    Query.read_label _ occupied,c.matchQuery_eval occupied]

section
variable {n : MNode} {c : Clause} {m : Option Clause} {f : Option (ConditionReading.Condition SqlArg)}
  (parts : Parts u script n c m f)

include parts

theorem Parts.readMatch (truth : Path → SearchExpr → Bool) :
    ManticoreQuery.readMatch ⟨n.matchExpr,n.filter,n.args,n.agg⟩ ((c.leaves.filter fun leaf => leaf.2.fullText.isSome).flatMap
      fun leaf => replicate (leaf.2.matchWords u script).length (truth leaf.1 leaf.2)) =
    some (m.elim true (Clause.eval truth)) := by
  have written := parts.matchExpr
  rw [← parts.leaves]
  cases m with
  | none => exact if_pos written
  | some asked =>
    refine (if_neg ?_).trans ?_
    · exact fun none_ => query_text_ne_nil _ ((encode_eq_nil _).mp (written.symm.trans none_))
    · dsimp only
      rw [written,Option.elim_some,Option.elim_some,decoded_encode]
      exact asked.read_words (parts.words asked rfl) truth

theorem Parts.occurrences : FullText.occurrences [] (lex (decoded n.matchExpr)) =
    (c.leaves.filter fun leaf => leaf.2.fullText.isSome).flatMap fun leaf =>
      (leaf.2.matchWords u script).map (leaf.2.matchField,·) := by
  rw [← parts.leaves,parts.matchExpr]
  cases m with
  | none => rfl
  | some asked =>
    simp only [Option.elim_some]
    have whole := Query.occurrences_tokens (asked.words u script) [] []
    rw [append_nil] at whole
    rw [decoded_encode,Query.lex_text _ (parts.words asked rfl),whole,asked.words_placed]
    exact append_nil _

theorem Parts.readFilter (test : List Char → List Char → SqlArg → Bool) :
    ManticoreQuery.readFilter ⟨n.matchExpr,n.filter,n.args,n.agg⟩ test = some (f.elim true (·.eval test)) := by
  have written := parts.filter
  unfold ManticoreQuery.readFilter
  dsimp only
  rw [written,parts.args]
  cases f with
  | none =>
    rw [if_pos (String.toList_inj.mp written)]
    rfl
  | some condition =>
    rw [if_neg fun none_ => condition_text_ne_nil condition (by rw [none_] at written; exact written.symm)]
    simp only [Option.elim_some]
    rw [ConditionReading.Condition.lex_text _ (parts.columns condition rfl),ConditionReading.Condition.read_tokens]

end

theorem aggColumn_word (tag : Nat) : ConditionReading.Word (aggColumn tag).toList := by
  unfold aggColumn
  split_ifs <;> exact ⟨by simp,rfl⟩

theorem aggColumn_number (tag : Nat) (row : ManticoreRow) :
    row.number (aggColumn tag) = if tag = searchTagComplete then row.completed else row.sources := by
  unfold aggColumn
  split_ifs <;> rfl

/-- Counters that are pushed down are compared as on the row. -/
theorem ManticoreQuery.readAgg_matches {query : ManticoreQuery} (known : query.agg.Known) (same : Bytes → Bytes → Bool)
    {row : ManticoreRow} (sources : row.sources < 2^63 - 1) (completed : row.completed < 2^63 - 1) :
    query.readAgg row (row.test same) = some (query.agg.matches row.sources row.completed) := by
  obtain ⟨_,_,_,agg⟩ := query
  cases agg with
  | nil => rfl
  | node kind tag op value _ _ =>
    cases kind with
    | uint64 =>
      have below : row.number (aggColumn tag) < 2^63 - 1 := by
        rw [aggColumn_number]
        split_ifs <;> assumption
      let condition : ConditionReading.Condition SqlArg :=
        .compare (aggColumn tag).toList (sqlOperators.getD op "").toList (.number (clampInt64 value))
      have written : (aggColumn tag ++ " " ++ sqlOperators.getD op "" ++ " ?").toList = condition.text := by
        simp [condition,ConditionReading.Condition.text]
      refine (if_neg fun none_ => ?_).trans ?_
      · exact condition_text_ne_nil condition (written.symm.trans (String.toList_inj.mpr none_))
      · show ConditionReading.read _ (ConditionReading.lex (_ ++ " ?").toList) _ = _
        rw [written,ConditionReading.Condition.lex_text condition ⟨aggColumn_word tag,word_operator known.1⟩]
        refine condition.read_tokens.trans (congrArg some ?_)
        show ManticoreRow.compare (String.ofList _) (row.number (String.ofList _)) _ = compareSearchValue _ _ _
        rw [String.ofList_toList,String.ofList_toList,ManticoreRow.compare_clamp known.1 below,aggColumn_number]
    | text | string | uint32 | hash | and | or | andNot | related | other => rfl

variable (u script) in
/-- The parts of a query that is run, put together, accept a row exactly when the tree without its
pruned nodes does, whatever the texts match; every word of the query is a word of its leaf, in the
field of its leaf. -/
theorem manticore_means_tree (letters : QueryLetters u) (expr : SearchExpr) (query : ManticoreQuery)
    (run : buildManticoreQuery u script expr = (query,.run)) (same : Bytes → Bytes → Bool) (row : ManticoreRow)
    (small : row.Small) (truth : Path → SearchExpr → Bool) :
    let texts := (reduce u [] expr).leaves.filter fun leaf => leaf.2.fullText.isSome
    occurrences [] (lex (decoded query.matchExpr)) =
      texts.flatMap (fun leaf => (leaf.2.matchWords u script).map (leaf.2.matchField,·)) ∧
    ∃ matched passed,
      query.readMatch (texts.flatMap fun leaf =>
        replicate (leaf.2.matchWords u script).length (truth leaf.1 leaf.2)) = some matched ∧
      query.readFilter (row.test same) = some passed ∧
      (row.sources < 2^63 - 1 → row.completed < 2^63 - 1 →
        query.readAgg row (row.test same) = some (query.agg.matches row.sources row.completed)) ∧
      (matched && passed && query.agg.matches row.sources row.completed) =
        verdict u (leafValue u same row truth) expr := by
  obtain ⟨_,c,_,_,reduced,parts,rfl⟩ := run_parts letters run
  have accepted : verdict u (leafValue u same row truth) expr = c.eval (leafValue u same row truth) := by
    rw [verdict,matchNodeWith_reduce,reduced]
    rfl
  dsimp only
  rw [reduced,accepted]
  exact ⟨parts.occurrences,_,_,parts.readMatch truth,parts.readFilter _,
    ManticoreQuery.readAgg_matches parts.known same,(parts.value same row truth small).symm⟩

end

theorem ascii_queryLetters : QueryLetters .ascii := by
  refine ⟨ascii_cased,fun _ member => ?_⟩
  simp only [mem_cons,not_mem_nil,or_false] at member
  rcases member with rfl | rfl | rfl | rfl | rfl | rfl <;> rfl

/-- Either of two words in the name, and larger than five. -/
def eitherWordTree : SearchExpr :=
  .node .and [] 0 [] 0 []
    (.node .or [] 0 [] 0 [] (.node .text (lit "ab") 0 [] 0 [] .nil .nil) (.node .text (lit "c") 0 [] 0 [] .nil .nil))
    (.node .uint32 [] 0x02000101 [] 5 [] .nil .nil)

def eitherWordQuery : ManticoreQuery :=
  { matchExpr := lit "(((@name *ab*)) | ((@name c)))", filter := "size > ?", args := [.number 5] }

theorem manticore_means_tree_either : let row : ManticoreRow := ⟨9,0,0,1,0,[],[],[]⟩
    ∃ matched passed, eitherWordQuery.readMatch [true,false] = some matched ∧
      eitherWordQuery.readFilter (row.test (· == ·)) = some passed ∧
      (matched && passed && eitherWordQuery.agg.matches row.sources row.completed) =
        verdict .ascii (leafValue .ascii (· == ·) row fun path _ => path == [false,false]) eitherWordTree := by
  have run : buildManticoreQuery .ascii (fun _ => false) eitherWordTree = (eitherWordQuery,.run) := by decide +kernel
  have means := manticore_means_tree .ascii (fun _ => false) ascii_queryLetters eitherWordTree eitherWordQuery run (· == ·)
    ⟨9,0,0,1,0,[],[],[]⟩ ⟨by decide,by decide,by decide⟩ (fun path _ => path == [false,false])
  obtain ⟨_,matched,passed,reads,filters,_,accepts⟩ := means
  exact ⟨matched,passed,reads,filters,accepts⟩

end ENode.Storage
