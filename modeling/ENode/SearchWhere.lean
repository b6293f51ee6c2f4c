import ENode.ClauseReading
import ENode.SearchReduce

/-! The WHERE clause of the SQL engines and the guard that refuses unanchored name scans.
The clause is the reduced expression written out: every leaf it keeps is one bracketed
fragment, and the arguments stand in the order of the fragments. -/
namespace ENode.Storage

open GoText ClauseReading List

/-- Any dialect but MySQL is treated as MariaDB. -/
inductive Dialect where
  | mariaDB | mySQL
  deriving DecidableEq

inductive SqlArg where
  | text (value : Bytes)
  | number (value : Nat)
  | blob (value : Bytes)
  deriving DecidableEq

structure WhereNode where
  sql : String := ""
  args : List SqlArg := []
  prune : Bool := false
  deriving DecidableEq

def WhereNode.contradiction (n : WhereNode) : Bool := !n.prune && n.sql == ""

def prunedNode : WhereNode := { prune := true }
def contradictionNode : WhereNode := {}

/-- Backslash-escapes the backslash, `%` and `_`. -/
def escapeLike (term : Bytes) : Bytes :=
  term.flatMap (fun b => if b = 0x5c ∨ b = 0x25 ∨ b = 0x5f then [0x5c,b] else [b])

def ftMinTokenSize (dialect : Dialect) : Nat := if dialect = .mySQL then 2 else 3

def ftIndexable (run : Bytes) (minTok : Nat) : Bool := decide ((runes run).length ≥ minTok)

def ftPhrase (run : Bytes) (dialect : Dialect) : Bytes :=
  if dialect = .mySQL then lit "+\"" ++ run ++ lit "\"" else lit "+" ++ run ++ lit "*"

def sqlNumericColumn (tag : Nat) : Option String :=
  if tag = searchTagSize then some "f.size"
  else if tag = searchTagSources then some "f.sources"
  else if tag = searchTagComplete then some "f.completed"
  else if tag = searchTagBitrate then some "s.bitrate"
  else if tag = searchTagLength then some "s.length"
  else none

def sqlOperators : List String := ["=",">","<",">=","<=","<>"]

def likeArg (run : Bytes) : SqlArg := .text (lit "%" ++ escapeLike run ++ lit "%")

section
variable (u : Unicode)

/-- The MATCH probe over the runs the index can look up, then a LIKE for every run it does
not settle. A part and its argument are appended together. -/
def ftParts (terms : List Bytes) (dialect : Dialect) : List (String × SqlArg) :=
  let minTok := ftMinTokenSize dialect
  let phrases := ((terms.flatMap (alnumRuns u)).filter (ftIndexable · minTok)).map (ftPhrase · dialect)
  let probe := if phrases.length > 0 then
      [("MATCH(s.name) AGAINST (? IN BOOLEAN MODE)",SqlArg.text ((lit " ").intercalate phrases))] else []
  let likes := terms.flatMap (fun t =>
    let literal := (alnumRuns u t).length == 0
    ((termRuns u t).filter (fun run => dialect == .mySQL || literal || !ftIndexable run minTok)).map
      (fun run => ("s.name LIKE ?",likeArg run)))
  probe ++ likes

def ftLeaf (terms : List Bytes) (dialect : Dialect) : WhereNode :=
  let parts := ftParts u terms dialect
  { sql := "(" ++ " AND ".intercalate (parts.map Prod.fst) ++ ")", args := parts.map Prod.snd }

def joinWhereNodes (left right : WhereNode) (op : String) : WhereNode :=
  { sql := "(" ++ left.sql ++ op ++ right.sql ++ ")", args := left.args ++ right.args }

def combineWhereNodes (kind : SearchKind) (left right : WhereNode) : WhereNode :=
  if kind = .andNot then
    if right.prune || right.contradiction then left
    else if left.prune then prunedNode
    else if left.contradiction then contradictionNode
    else joinWhereNodes left right " AND NOT "
  else if left.prune then right
  else if right.prune then left
  else if kind = .or then
    if left.contradiction then right
    else if right.contradiction then left
    else joinWhereNodes left right " OR "
  else if left.contradiction || right.contradiction then contradictionNode
  else joinWhereNodes left right " AND "

/-- A text leaf; an all-whitespace one is a constraint that nothing meets. -/
def buildTextNode (text : Bytes) (dialect : Dialect) : WhereNode :=
  if (splitTerms u text).length = 0 then contradictionNode else ftLeaf u (splitTerms u text) dialect

def buildSearchNode (dialect : Dialect) : SearchExpr → WhereNode
  | .nil => prunedNode
  | .node kind text tagType valueString valueUint _ left right =>
    match kind with
    | .text => buildTextNode u text dialect
    | .string =>
      if tagType = searchTypeText then buildTextNode u valueString dialect
      else if tagType = searchTypeFileType then
        { sql := "(s.type = ?)", args := [.text (normalizeSearchFileType u valueString)] }
      else if tagType = searchTypeExt then { sql := "(s.ext = ?)", args := [.text valueString] }
      else if tagType = searchTypeCodec then { sql := "(s.codec = ?)", args := [.text valueString] }
      else match mediaStringField tagType with
        | some col => { sql := "(s." ++ col ++ " LIKE ?)", args := [likeArg valueString] }
        | none => prunedNode
    | .uint32 | .uint64 =>
      match numericConstraint kind tagType with
      | none => prunedNode
      | some (tag,op) =>
        match sqlNumericColumn tag with
        | none => prunedNode
        | some col =>
          { sql := "(" ++ col ++ " " ++ sqlOperators.getD op "" ++ " ?)", args := [.number valueUint] }
    | .hash =>
      if valueUint = 0 then { sql := "(f.hash = ?)", args := [.blob valueString] }
      else { sql := "(f.hash = ? AND f.size = ?)", args := [.blob valueString,.number valueUint] }
    | .and | .or | .andNot =>
      combineWhereNodes kind (buildSearchNode dialect left) (buildSearchNode dialect right)
    | .related | .other _ => prunedNode

def buildSearchWhere (expr : SearchExpr) (dialect : Dialect) : String × List SqlArg :=
  let node := buildSearchNode u dialect expr
  if node.prune then ("",[]) else (node.sql,node.args)

def hasIndexableRun (terms : List Bytes) (minTok : Nat) : Bool :=
  terms.any (fun t => (alnumRuns u t).any (ftIndexable · minTok))

/-- How a node is reached. Non-name leaves are neither anchored nor scanning. -/
structure Anchor where
  anchored : Bool
  scan : Bool
  prune : Bool
  deriving DecidableEq

def textAnchor (text : Bytes) (minTok : Nat) : Anchor :=
  let terms := splitTerms u text
  if terms.length = 0 then ⟨true,false,false⟩
  else if hasIndexableRun u terms minTok then ⟨true,false,false⟩
  else ⟨false,true,false⟩

def searchAnchor (minTok : Nat) : SearchExpr → Anchor
  | .nil => ⟨false,false,true⟩
  | .node kind text tagType valueString _ _ left right =>
    match kind with
    | .text => textAnchor u text minTok
    | .string =>
      if tagType = searchTypeText then textAnchor u valueString minTok
      else if tagType = searchTypeFileType ∨ tagType = searchTypeExt ∨ tagType = searchTypeCodec then
        ⟨false,false,false⟩
      else if (mediaStringField tagType).isSome then ⟨false,false,false⟩
      else ⟨false,false,true⟩
    | .uint32 | .uint64 =>
      match numericConstraint kind tagType with
      | none => ⟨false,false,true⟩
      | some (tag,_) =>
        if (sqlNumericColumn tag).isNone then ⟨false,false,true⟩ else ⟨false,false,false⟩
    | .hash => ⟨true,false,false⟩
    | .and | .or | .andNot =>
      let l := searchAnchor minTok left
      let r := searchAnchor minTok right
      if kind = .andNot then
        if r.prune then l
        else if l.prune then ⟨false,false,true⟩
        else ⟨l.anchored,!l.anchored && (l.scan || r.scan),false⟩
      else if l.prune then r
      else if r.prune then ⟨l.anchored,l.scan,false⟩
      else if kind = .or then ⟨l.anchored && r.anchored,l.scan || r.scan,false⟩
      else ⟨l.anchored || r.anchored,!(l.anchored || r.anchored) && (l.scan || r.scan),false⟩
    | .related | .other _ => ⟨false,false,true⟩

def searchNeedsScan (expr : SearchExpr) (minTok : Nat) : Bool := (searchAnchor u minTok expr).scan

end

/-- A node that is neither dropped nor empty, and whose text is one fragment. -/
structure WhereNode.Leaf (n : WhereNode) : Prop where
  kept : n.prune = false
  fragment : Fragment n.sql.toList
  bound : placeholders n.sql.toList = n.args.length

def Clause.whereNode (u : Unicode) (dialect : Dialect) : Clause → WhereNode
  | leaf _ expr => buildSearchNode u dialect expr
  | and l r => joinWhereNodes (l.whereNode u dialect) (r.whereNode u dialect) " AND "
  | or l r => joinWhereNodes (l.whereNode u dialect) (r.whereNode u dialect) " OR "
  | andNot l r => joinWhereNodes (l.whereNode u dialect) (r.whereNode u dialect) " AND NOT "

def Reduced.whereNode (u : Unicode) (dialect : Dialect) : Reduced → WhereNode
  | pruned => prunedNode
  | never => contradictionNode
  | holds c => c.whereNode u dialect

/-- A condition of a leaf: text with one placeholder that no bracket opens. -/
structure Condition (text : String) : Prop where
  balanced : Balanced text.toList
  first : text.toList.head? ≠ some '('
  bound : placeholders text.toList = 1

/-- A leaf's conditions are joined inside one pair of brackets. -/
theorem leaf_of_conditions (parts : List (String × SqlArg)) (each : ∀ part ∈ parts, Condition part.1) :
    WhereNode.Leaf ⟨"(" ++ " AND ".intercalate (parts.map Prod.fst) ++ ")",parts.map Prod.snd,false⟩ := by
  let texts := parts.map (fun part => part.1.toList)
  have text : ("(" ++ " AND ".intercalate (parts.map Prod.fst) ++ ")").toList =
      '(' :: (" AND ".toList.intercalate texts ++ [')']) := by
    simp [texts,String.toList_intercalate,Function.comp_def]
  have conditions : ∀ t ∈ texts, ∃ s : String, t = s.toList ∧ Condition s := by
    simp only [texts,mem_map]
    rintro t ⟨part,member,rfl⟩
    exact ⟨part.1,rfl,each part member⟩
  have inner : Balanced (" AND ".toList.intercalate texts) := by
    apply Balanced.intercalate
    · exact balanced_of_closes _ (by decide)
    · intro t member
      obtain ⟨s,rfl,h⟩ := conditions t member
      exact h.balanced
  have first : (" AND ".toList.intercalate texts).head? ≠ some '(' := by
    apply head_intercalate
    intro t member
    obtain ⟨s,rfl,h⟩ := conditions t member
    refine ⟨fun empty => ?_,h.first⟩
    simpa [empty,placeholders] using h.bound
  have count : placeholders (" AND ".toList.intercalate texts) = texts.length := by
    apply placeholders_intercalate _ (by decide)
    intro t member
    obtain ⟨_,rfl,h⟩ := conditions t member
    exact h.bound
  refine ⟨rfl,text ▸ inner.fragment first,?_⟩
  rw [text]
  simp only [placeholders] at count
  rw [placeholders,count_cons_of_ne (by decide),count_append,count]
  simp [texts]

def isCondition (text : String) : Bool :=
  closes text.toList 0 && text.toList.head? != some '(' && placeholders text.toList == 1

theorem condition_of_check (text : String) (h : isCondition text = true) : Condition text := by
  simp only [isCondition,Bool.and_eq_true,bne_iff_ne,beq_iff_eq] at h
  exact ⟨balanced_of_closes _ h.1.1,h.1.2,h.2⟩

theorem ftLeaf_leaf (u : Unicode) (terms : List Bytes) (dialect : Dialect) : (ftLeaf u terms dialect).Leaf := by
  apply leaf_of_conditions
  intro _ member
  simp only [ftParts,mem_append,mem_flatMap,mem_map] at member
  rcases member with probe | ⟨_,_,_,_,rfl⟩
  · split at probe
    · rw [mem_singleton.mp probe]
      exact condition_of_check "MATCH(s.name) AGAINST (? IN BOOLEAN MODE)" (by decide)
    · simp at probe
  · exact condition_of_check "s.name LIKE ?" (by decide)

theorem leaf_of_condition (sql text : String) (arg : SqlArg)
    (shape : sql.toList = '(' :: (text.toList ++ [')'])) (h : isCondition text = true) :
    WhereNode.Leaf ⟨sql,[arg],false⟩ := by
  have leaf := leaf_of_conditions [(text,arg)] (by simpa using condition_of_check text h)
  have same : sql = "(" ++ text ++ ")" := by
    apply String.toList_inj.mp
    simp [shape]
  simpa [same] using leaf

theorem sqlNumeric_condition (column : sqlNumericColumn tag = some col)
    (known : op ≤ searchOpNotEqual) : isCondition (col ++ " " ++ sqlOperators.getD op "" ++ " ?") := by
  have columns : col ∈ ["f.size","f.sources","f.completed","s.bitrate","s.length"] := by
    unfold sqlNumericColumn at column
    repeat' split at column
    all_goals simp_all
  have operators : ∀ c ∈ ["f.size","f.sources","f.completed","s.bitrate","s.length"],
      ∀ o ∈ sqlOperators, isCondition (c ++ " " ++ o ++ " ?") = true := by
    decide
  apply operators col columns
  have : op < sqlOperators.length := by simpa [sqlOperators,searchOpNotEqual] using Nat.lt_succ_of_le known
  rw [getD_eq_getElem _ _ this]
  exact getElem_mem this

theorem numericConstraint_op (h : numericConstraint kind tagType = some (tag,op)) : op ≤ searchOpNotEqual := by
  unfold numericConstraint at h
  repeat' split at h
  all_goals simp_all

theorem sqlNumericColumn_isSome (tag : Nat) : (sqlNumericColumn tag).isSome ↔
    tag = searchTagSize ∨ tag = searchTagSources ∨ tag = searchTagComplete ∨ tag = searchTagBitrate ∨
      tag = searchTagLength := by
  unfold sqlNumericColumn
  repeat' split
  all_goals simp_all

theorem mediaStringField_isSome (tagType : Nat) : (mediaStringField tagType).isSome ↔
    tagType = searchTypeArtist ∨ tagType = searchTypeAlbum ∨ tagType = searchTypeTitle := by
  unfold mediaStringField
  repeat' split
  all_goals simp_all

theorem media_condition (field : mediaStringField tagType = some col) :
    isCondition ("s." ++ col ++ " LIKE ?") = true := by
  have columns : col = "artist" ∨ col = "album" ∨ col = "title" := by
    unfold mediaStringField at field
    repeat' split at field
    all_goals simp_all
  rcases columns with rfl | rfl | rfl <;> decide

theorem buildTextNode_leaf (dialect : Dialect)
    (terms : (splitTerms u text).isEmpty = false) : (buildTextNode u text dialect).Leaf := by
  have occupied : ¬ (splitTerms u text).length = 0 := by simpa using terms
  rw [buildTextNode,if_neg occupied]
  exact ftLeaf_leaf u _ dialect

/-- Every leaf that is kept renders to one fragment with its own arguments. -/
theorem supported_leaf (u : Unicode) (dialect : Dialect) (expr : SearchExpr)
    (supported : Supported u expr) : (buildSearchNode u dialect expr).Leaf := by
  cases expr with
  | nil => exact absurd (supported []) (by simp [reduce])
  | node kind text tagType value number related _ _ =>
    have childless := supported_childless u supported
    have kept := supported []
    rw [reduce_childless u [] childless] at kept
    cases kind with
    | and | or | andNot => simp at childless
    | related | other => simp [reduceLeaf] at kept
    | text =>
      apply buildTextNode_leaf
      simp_all [reduceLeaf]
    | string =>
      simp only [buildSearchNode]
      split
      · apply buildTextNode_leaf
        simp_all [reduceLeaf]
      split
      · exact leaf_of_condition _ "s.type = ?" _ (by decide) (by decide)
      split
      · exact leaf_of_condition _ "s.ext = ?" _ (by decide) (by decide)
      split
      · exact leaf_of_condition _ "s.codec = ?" _ (by decide) (by decide)
      have media := mediaStringField_isSome tagType
      cases field : mediaStringField tagType with
      | some col =>
        exact leaf_of_condition _ ("s." ++ col ++ " LIKE ?") _ (by simp)
          (media_condition field)
      | none => simp_all [reduceLeaf]
    | uint32 | uint64 =>
      simp only [buildSearchNode]
      cases constraint : numericConstraint _ tagType with
      | none => simp [reduceLeaf,constraint] at kept
      | some found =>
        obtain ⟨tag,op⟩ := found
        have known := sqlNumericColumn_isSome tag
        simp only
        cases column : sqlNumericColumn tag with
        | none => simp_all [reduceLeaf]
        | some col =>
          exact leaf_of_condition _ (col ++ " " ++ sqlOperators.getD op "" ++ " ?") _
            (by simp)
            (sqlNumeric_condition column (numericConstraint_op constraint))
    | hash =>
      simp only [buildSearchNode]
      split
      · exact leaf_of_condition _ "f.hash = ?" _ (by decide) (by decide)
      exact leaf_of_conditions [("f.hash = ?",.blob value),("f.size = ?",.number number)]
        (by simp [condition_of_check "f.hash = ?" (by decide),condition_of_check "f.size = ?" (by decide)])

section
variable (u : Unicode) (dialect : Dialect)

/-- A leaf occurrence as the reader of the clause meets it. -/
def leafPiece (truth : Path → SearchExpr → Bool) (leaf : Path × SearchExpr) : Piece SqlArg :=
  ⟨(buildSearchNode u dialect leaf.2).sql.toList,(buildSearchNode u dialect leaf.2).args,truth leaf.1 leaf.2⟩

theorem reads_joinWhereNodes (c : Connective) (op : String) (written : op.toList = c.text)
    (l r : WhereNode) (hl : Reads l.sql.toList l.args ps a) (hr : Reads r.sql.toList r.args qs b) :
    Reads (joinWhereNodes l r op).sql.toList (joinWhereNodes l r op).args (ps ++ qs) (c.apply a b) := by
  have text : (joinWhereNodes l r op).sql.toList = join c l.sql.toList r.sql.toList := by
    simp [joinWhereNodes,join,written]
  rw [text]
  exact Reads.join c hl hr

/-- A clause of supported leaves is read back as itself. -/
theorem Clause.reads (truth : Path → SearchExpr → Bool) (c : Clause)
    (supported : ∀ leaf ∈ c.leaves, Supported u leaf.2) :
    Reads (c.whereNode u dialect).sql.toList (c.whereNode u dialect).args
      (c.leaves.map (leafPiece u dialect truth)) (c.eval truth) := by
  induction c with
  | leaf path expr =>
    have node := supported_leaf u dialect expr (supported (path,expr) (by simp [leaves]))
    exact Reads.leaf (leafPiece u dialect truth (path,expr)) node.fragment node.bound
  | and l r ihl ihr =>
    simp only [leaves,mem_append] at supported
    rw [leaves,map_append]
    exact reads_joinWhereNodes .and _ rfl _ _ (ihl fun x h => supported x (.inl h))
      (ihr fun x h => supported x (.inr h))
  | or l r ihl ihr =>
    simp only [leaves,mem_append] at supported
    rw [leaves,map_append]
    exact reads_joinWhereNodes .or _ rfl _ _ (ihl fun x h => supported x (.inl h))
      (ihr fun x h => supported x (.inr h))
  | andNot _ _ ihl ihr =>
    simp only [leaves,mem_append] at supported
    rw [leaves,map_append]
    exact reads_joinWhereNodes .andNot _ rfl _ _ (ihl fun x h => supported x (.inl h))
      (ihr fun x h => supported x (.inr h))

theorem Clause.whereNode_kept (c : Clause) (supported : ∀ leaf ∈ c.leaves, Supported u leaf.2) :
    (c.whereNode u dialect).prune = false ∧ (c.whereNode u dialect).sql ≠ "" := by
  constructor
  · cases c with
    | leaf path expr => exact (supported_leaf u dialect expr (supported (path,expr) (by simp [leaves]))).kept
    | and | or | andNot => rfl
  · intro empty
    obtain ⟨_,opens⟩ := (c.reads u dialect (fun _ _ => true) supported).opens
    simp [empty] at opens

theorem Reduced.whereNode_flags (r : Reduced) (supported : ∀ leaf ∈ r.leaves, Supported u leaf.2) :
    (r.whereNode u dialect).prune = r.isPruned ∧ ((r.whereNode u dialect).contradiction = true ↔ r = .never) := by
  cases r with
  | pruned => simp [whereNode,prunedNode,isPruned,WhereNode.contradiction]
  | never => simp [whereNode,contradictionNode,isPruned,WhereNode.contradiction]
  | holds c =>
    obtain ⟨kept,written⟩ := c.whereNode_kept u dialect supported
    simp [whereNode,isPruned,WhereNode.contradiction,kept,written]

theorem buildSearchNode_leaf (path : Path) (childless : kind ≠ .and ∧ kind ≠ .or ∧ kind ≠ .andNot) :
    buildSearchNode u dialect (.node kind text tagType value number related left right) =
      (reduceLeaf u path kind text tagType value
        (.node kind text tagType value number related left right)).whereNode u dialect := by
  have media := mediaStringField_isSome tagType
  cases kind with
  | and | or | andNot => simp at childless
  | text =>
    simp only [reduceLeaf]
    split <;> simp_all [Reduced.whereNode,Clause.whereNode,buildSearchNode,buildTextNode]
  | string =>
    simp only [reduceLeaf]
    repeat' split
    all_goals simp_all [Reduced.whereNode,Clause.whereNode,buildSearchNode,buildTextNode]
  | uint32 | uint64 =>
    simp only [reduceLeaf]
    cases constraint : numericConstraint _ tagType with
    | none => simp [Reduced.whereNode,buildSearchNode,constraint]
    | some found =>
      have known := sqlNumericColumn_isSome found.1
      split
      · simp_all
      · split <;> simp_all [Reduced.whereNode,Clause.whereNode,buildSearchNode]
  | hash => simp [reduceLeaf,Reduced.whereNode,Clause.whereNode]
  | related | other => simp [reduceLeaf,Reduced.whereNode,buildSearchNode]

/-- The builder writes out the reduced expression. -/
theorem buildSearchNode_reduce (expr : SearchExpr) (path : Path) :
    buildSearchNode u dialect expr = (reduce u path expr).whereNode u dialect := by
  induction expr generalizing path with
  | nil => rfl
  | node kind text _ _ _ related left right ihl ihr =>
    by_cases childless : kind ≠ .and ∧ kind ≠ .or ∧ kind ≠ .andNot
    · rw [reduce_childless u path childless]
      exact buildSearchNode_leaf u dialect path childless
    have onLeft := Reduced.whereNode_flags u dialect (reduce u (path ++ [false]) left)
      (fun leaf h => (reduce_leaves u _ _ h).2)
    have onRight := Reduced.whereNode_flags u dialect (reduce u (path ++ [true]) right)
      (fun _ h => (reduce_leaves u _ _ h).2)
    cases kind with
    | and | or | andNot =>
      simp only [buildSearchNode,combineWhereNodes,reduce,ihl (path ++ [false]),ihr (path ++ [true])]
      generalize reduce u (path ++ [false]) left = l at *
      generalize reduce u (path ++ [true]) right = r at *
      cases l <;> cases r <;> simp_all [Reduced.and,Reduced.or,Reduced.andNot,Reduced.isPruned,
        Reduced.whereNode,Clause.whereNode]
    | text | string | uint32 | uint64 | hash | related | other => simp at childless

/-- The scan guard drops the nodes the reduction drops, whatever the index can look up. -/
theorem searchAnchor_prune (minTok : Nat) (expr : SearchExpr) (path : Path) :
    (searchAnchor u minTok expr).prune = (reduce u path expr).isPruned := by
  induction expr generalizing path with
  | nil => rfl
  | node kind text tagType _ _ related left right ihl ihr =>
    have textual : ∀ t, (textAnchor u t minTok).prune = false := by
      intro _
      simp only [textAnchor]
      repeat' split
      all_goals rfl
    have media := mediaStringField_isSome tagType
    by_cases childless : kind ≠ .and ∧ kind ≠ .or ∧ kind ≠ .andNot
    · rw [reduce_childless u path childless,reduceLeaf_isPruned]
      cases kind with
      | and | or | andNot => simp at childless
      | text => exact textual text
      | string =>
        simp only [searchAnchor,prunesLeaf]
        repeat' split
        all_goals simp_all
        tauto
      | uint32 | uint64 =>
        simp only [searchAnchor,prunesLeaf]
        cases constraint : numericConstraint _ tagType with
        | none => rfl
        | some found =>
          have known := sqlNumericColumn_isSome found.1
          rw [Option.isSome_iff_ne_none] at known
          simp only [← known]
          split <;> simp_all
      | hash | related | other => rfl
    cases kind with
    | and | or =>
      simp only [searchAnchor,reduce,Reduced.isPruned_and,Reduced.isPruned_or,← ihl,← ihr]
      rcases searchAnchor u minTok left with ⟨_,_,_ | _⟩ <;>
        rcases searchAnchor u minTok right with ⟨_,_,_ | _⟩ <;> rfl
    | andNot =>
      simp only [searchAnchor,reduce,Reduced.isPruned_andNot,← ihl]
      rcases searchAnchor u minTok left with ⟨_,_,_ | _⟩ <;>
        rcases searchAnchor u minTok right with ⟨_,_,_ | _⟩ <;> rfl
    | text | string | uint32 | uint64 | hash | related | other => simp at childless

end

end ENode.Storage
