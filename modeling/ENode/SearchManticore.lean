import ENode.SearchWhere

/-! The Manticore query of a search expression: a MATCH expression, a WHERE expression and
a tree over a file's grouped counters. A node that Manticore cannot run is unsupported,
which is neither pruned nor contradictory. -/
namespace ENode.Storage

open GoText

def manticoreMinInfix : Nat := 2

/-- A constraint over the grouped counters; `nil` is the nil pointer. -/
inductive AggNode where
  | nil
  | node (kind : SearchKind) (tag op value : Nat) (left right : AggNode)
  deriving DecidableEq

structure MNode where
  prune : Bool := false
  contradiction : Bool := false
  unsupported : Bool := false
  matchExpr : Bytes := []
  filter : String := ""
  args : List SqlArg := []
  agg : AggNode := .nil
  deriving DecidableEq

def mPruned : MNode := { prune := true }
def mContradiction : MNode := { contradiction := true }
def mUnsupported : MNode := { unsupported := true }

structure ManticoreQuery where
  matchExpr : Bytes := []
  filter : String := ""
  args : List SqlArg := []
  agg : AggNode := .nil
  deriving DecidableEq

inductive ManticoreOutcome where
  | run | empty | unsupported
  deriving DecidableEq

/-- Which parts a node carries. -/
structure PartKinds where
  matchPart : Bool
  filterPart : Bool
  aggPart : Bool
  deriving DecidableEq

def partMatch : PartKinds := ⟨true,false,false⟩
def partFilter : PartKinds := ⟨false,true,false⟩
def partAgg : PartKinds := ⟨false,false,true⟩

def MNode.kinds (n : MNode) : PartKinds := ⟨n.matchExpr != [],n.filter != "",n.agg != .nil⟩

def bitsSet (k : PartKinds) : Nat := k.matchPart.toNat + k.filterPart.toNat + k.aggPart.toNat

/-- MATCH terms stand side by side, so their separator brackets nothing. -/
def joinMatch (left right : Bytes) : Bytes :=
  if left = [] then right else if right = [] then left else left ++ lit " " ++ right

def joinFilter (left right : String) : String :=
  if left = "" then right else if right = "" then left else "(" ++ left ++ " AND " ++ right ++ ")"

def joinAgg (kind : SearchKind) : AggNode → AggNode → AggNode
  | .nil, right => right
  | left, .nil => left
  | left, right => .node kind 0 0 0 left right

/-- The left side of a negation that stands alone: sources ≥ 0. -/
def aggTrue : AggNode := .node .uint64 searchTagSources searchOpGreaterEqual 0 .nil .nil

def andManticoreNodes (left right : MNode) : MNode :=
  { matchExpr := joinMatch left.matchExpr right.matchExpr, filter := joinFilter left.filter right.filter,
    args := left.args ++ right.args, agg := joinAgg .and left.agg right.agg }

/-- A keyword cannot be OR-ed with an attribute: MATCH and WHERE are both conjuncts. -/
def orManticoreNodes (left right : MNode) : MNode :=
  if left.kinds ≠ right.kinds ∨ bitsSet left.kinds ≠ 1 then mUnsupported
  else if left.kinds = partMatch then
    { matchExpr := lit "((" ++ left.matchExpr ++ lit ") | (" ++ right.matchExpr ++ lit "))" }
  else if left.kinds = partFilter then
    { filter := "(" ++ left.filter ++ " OR " ++ right.filter ++ ")", args := left.args ++ right.args }
  else { agg := joinAgg .or left.agg right.agg }

/-- A keyword can only be subtracted from a MATCH that has a keyword of its own. -/
def andNotManticoreNodes (left right : MNode) : MNode :=
  if right.kinds = partMatch then
    if left.matchExpr = [] then mUnsupported
    else { left with matchExpr := left.matchExpr ++ lit " -(" ++ right.matchExpr ++ lit ")" }
  else if right.kinds = partFilter then
    { left with filter := joinFilter left.filter ("NOT (" ++ right.filter ++ ")"),
                args := left.args ++ right.args }
  else if right.kinds = partAgg then
    { left with agg := .node .andNot 0 0 0 (if left.agg = .nil then aggTrue else left.agg) right.agg }
  else mUnsupported

def combineManticoreNodes (kind : SearchKind) (left right : MNode) : MNode :=
  if kind = .andNot then
    if right.prune || right.contradiction then left
    else if left.prune then mPruned
    else if left.contradiction then mContradiction
    else if left.unsupported || right.unsupported then mUnsupported
    else andNotManticoreNodes left right
  else if left.prune then right
  else if right.prune then left
  else if kind = .or then
    if left.contradiction then right
    else if right.contradiction then left
    else if left.unsupported || right.unsupported then mUnsupported
    else orManticoreNodes left right
  else if left.contradiction || right.contradiction then mContradiction
  else if left.unsupported || right.unsupported then mUnsupported
  else andManticoreNodes left right

def manticoreNumericAttr (tag : Nat) : Option String :=
  if tag = searchTagSize then some "size"
  else if tag = searchTagBitrate then some "bitrate"
  else if tag = searchTagLength then some "length"
  else none

def clampInt64 (v : Nat) : Nat := min v (2^63 - 1)

section
variable (u : Unicode) (isContinuousScript : Char → Bool)

/-- A segment of one script: a phrase, a whole word when too short, else an infix. -/
def manticoreSegment (cont : Bool) (seg : Bytes) : List Bytes :=
  if seg.length = 0 then []
  else if cont then [lit "\"" ++ seg ++ lit "\""]
  else if (runes seg).length < manticoreMinInfix then [seg]
  else [lit "*" ++ seg ++ lit "*"]

/-- The terms so far, the builder, and whether it holds an unspaced script. -/
def manticoreRunStep (state : List Bytes × Bytes × Bool) (r : Char × Bytes) : List Bytes × Bytes × Bool :=
  if isContinuousScript r.1 ≠ state.2.2 then
    (state.1 ++ manticoreSegment state.2.2 state.2.1,String.utf8EncodeChar r.1,isContinuousScript r.1)
  else (state.1,state.2.1 ++ String.utf8EncodeChar r.1,state.2.2)

def manticoreRunTerms (run : Bytes) : List Bytes :=
  let state := (runes run).foldl (manticoreRunStep isContinuousScript) ([],[],false)
  state.1 ++ manticoreSegment state.2.2 state.2.1

def manticoreTextLeaf (field : String) (text : Bytes) : MNode :=
  let terms := splitTerms u text
  if terms.length = 0 then mContradiction
  else if terms.any (fun term => (alnumRuns u term).length == 0) then mUnsupported
  else
    let parts := terms.flatMap (fun term =>
      (alnumRuns u term).flatMap (fun run => manticoreRunTerms isContinuousScript (toLower u run)))
    { matchExpr := lit ("(@" ++ field ++ " ") ++ (lit " ").intercalate parts ++ lit ")" }

def manticoreNode : SearchExpr → MNode
  | .nil => mPruned
  | .node kind text tagType valueString valueUint _ left right =>
    match kind with
    | .text => manticoreTextLeaf u isContinuousScript "name" text
    | .string =>
      if tagType = searchTypeText then manticoreTextLeaf u isContinuousScript "name" valueString
      else if tagType = searchTypeFileType then
        { filter := "type = ?", args := [.text (normalizeSearchFileType u valueString)] }
      else if tagType = searchTypeExt then { filter := "ext = ?", args := [.text valueString] }
      else if tagType = searchTypeCodec then { filter := "codec = ?", args := [.text valueString] }
      else match mediaStringField tagType with
        | some field =>
          if trimSpace u valueString = [] then mUnsupported
          else manticoreTextLeaf u isContinuousScript field valueString
        | none => mPruned
    | .uint32 | .uint64 =>
      match numericConstraint kind tagType with
      | none => mPruned
      | some (tag,op) =>
        if tag = searchTagSources ∨ tag = searchTagComplete then
          { agg := .node .uint64 tag op valueUint .nil .nil }
        else match manticoreNumericAttr tag with
          | none => mPruned
          | some attr =>
            { filter := attr ++ " " ++ sqlOperators.getD op "" ++ " ?", args := [.number (clampInt64 valueUint)] }
    | .hash => mUnsupported
    | .and | .or | .andNot => combineManticoreNodes kind (manticoreNode left) (manticoreNode right)
    | .related | .other _ => mPruned

def buildManticoreQuery (expr : SearchExpr) : ManticoreQuery × ManticoreOutcome :=
  let node := manticoreNode u isContinuousScript expr
  if node.unsupported then ({},.unsupported)
  else if node.prune || node.contradiction then ({},.empty)
  else (⟨node.matchExpr,node.filter,node.args,node.agg⟩,.run)

omit u isContinuousScript in
theorem manticoreNumericAttr_isSome (tag : Nat) : (manticoreNumericAttr tag).isSome ↔
    tag = searchTagSize ∨ tag = searchTagBitrate ∨ tag = searchTagLength := by
  unfold manticoreNumericAttr
  repeat' split
  all_goals simp_all

theorem manticoreTextLeaf_prune (field : String) (text : Bytes) :
    (manticoreTextLeaf u isContinuousScript field text).prune = false := by
  simp only [manticoreTextLeaf]
  repeat' split
  all_goals rfl

omit u isContinuousScript in
theorem andNotManticoreNodes_prune (left right : MNode) (kept : left.prune = false) :
    (andNotManticoreNodes left right).prune = false := by
  unfold andNotManticoreNodes
  repeat' split
  all_goals first | rfl | exact kept

omit u isContinuousScript in
theorem orManticoreNodes_prune (left right : MNode) : (orManticoreNodes left right).prune = false := by
  unfold orManticoreNodes
  repeat' split
  all_goals rfl

omit u isContinuousScript in
/-- A negation is dropped with its positive side, any other operator with both sides. -/
theorem combineManticoreNodes_prune (kind : SearchKind) (left right : MNode) :
    (combineManticoreNodes kind left right).prune =
      if kind = .andNot then left.prune else left.prune && right.prune := by
  unfold combineManticoreNodes
  split
  · split
    · rfl
    split
    next pruned => rw [pruned]; rfl
    next present =>
      have kept : left.prune = false := by simpa using present
      rw [kept]
      repeat' split
      all_goals first | rfl | exact andNotManticoreNodes_prune left right kept
  · split
    next pruned => simp [pruned]
    next present =>
      have kept : left.prune = false := by simpa using present
      split
      next pruned => simp [pruned]
      next other =>
        have keptRight : right.prune = false := by simpa using other
        rw [kept]
        repeat' split
        all_goals first | rfl | exact kept | exact keptRight | exact orManticoreNodes_prune left right

/-- Manticore drops the nodes the reduction drops. -/
theorem manticoreNode_prune (expr : SearchExpr) (path : Path) :
    (manticoreNode u isContinuousScript expr).prune = (reduce u path expr).isPruned := by
  induction expr generalizing path with
  | nil => rfl
  | node kind text tagType _ _ related _ _ ihl ihr =>
    by_cases childless : kind ≠ .and ∧ kind ≠ .or ∧ kind ≠ .andNot
    · rw [reduce_childless u path childless,reduceLeaf_isPruned]
      cases kind with
      | and | or | andNot => simp at childless
      | text => exact manticoreTextLeaf_prune u isContinuousScript _ _
      | string =>
        have media := mediaStringField_isSome tagType
        simp only [manticoreNode,prunesLeaf]
        repeat' split
        all_goals simp_all [manticoreTextLeaf_prune,mPruned,mUnsupported]
      | uint32 | uint64 =>
        simp only [manticoreNode,prunesLeaf]
        cases numericConstraint _ tagType with
        | none => rfl
        | some found =>
          have attr := manticoreNumericAttr_isSome found.1
          simp only
          split
          next counter => rcases counter with h | h <;> simp [h]
          split
          all_goals simp_all [mPruned]
      | hash | related | other => rfl
    cases kind with
    | and | or | andNot =>
      simp [manticoreNode,combineManticoreNodes_prune,reduce,ihl (path ++ [false]),ihr (path ++ [true])]
    | text | string | uint32 | uint64 | hash | related | other => simp at childless

end

end ENode.Storage
