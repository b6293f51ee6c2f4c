import ENode.SearchWhere
import ENode.NameIndexSearch
import ENode.RuneSplits

/-! The scan guard. A search that no index lookup narrows would read every name, so the guard looks
for a name leaf that the index cannot look up and above which nothing else narrows the search. What
it reports is compared with what the matcher accepts. -/
namespace ENode.Storage

open GoText List

/-- The operands of an operator; the other kinds do not look at theirs. -/
def SearchExpr.operand (right : Bool) : SearchExpr → Option SearchExpr
  | .node kind _ _ _ _ _ l r =>
    if kind = .and ∨ kind = .or ∨ kind = .andNot then some (if right then r else l) else none
  | .nil => none

/-- The node a path from the root ends at. -/
def SearchExpr.walk : Path → SearchExpr → Option SearchExpr
  | [], expr => some expr
  | side :: path, expr => (expr.operand side).bind (walk path)

/-- The text of a leaf that is matched against names. -/
def SearchExpr.nameText : SearchExpr → Option Bytes
  | .node .text text _ _ _ _ _ _ => some text
  | .node .string _ tagType valueString _ _ _ _ => if tagType = searchTypeText then some valueString else none
  | _ => none

def SearchExpr.hashValue : SearchExpr → Option Bytes
  | .node .hash _ _ valueString _ _ _ _ => some valueString
  | _ => none

variable (u : Unicode)

/-- A node of the tree that is not removed, nor any above it. -/
def SearchExpr.Survives (expr : SearchExpr) (path : Path) (node : SearchExpr) : Prop :=
  expr.walk path = some node ∧
    ∀ above between, above <+: path → expr.walk above = some between → searchPrunes u between = false

/-- A name holds a run of the text that the index can look up. -/
def HoldsRun (minTok : Nat) (text name : Bytes) : Prop :=
  ∃ term ∈ splitTerms u text, ∃ run ∈ alnumRuns u term, ftIndexable run minTok = true ∧ containsFold u name run = true

/-- What the matcher accepts can be looked up, by a run of a name leaf or by the hash of a hash leaf. -/
def Narrowed (minTok : Nat) (node : SearchExpr) : Prop :=
  ∀ file, searchMatch u node file = true →
    (∃ path leaf text, node.Survives u path leaf ∧ leaf.nameText = some text ∧ HoldsRun u minTok text file.name) ∨
    ∃ path leaf, node.Survives u path leaf ∧ leaf.hashValue = some file.hash

/-- A name leaf that the index cannot look up. -/
def Unindexed (minTok : Nat) (leaf : SearchExpr) : Prop :=
  ∃ text, leaf.nameText = some text ∧ hasIndexableRun u (splitTerms u text) minTok = false

namespace Anchor

def and (l r : Anchor) : Anchor :=
  if l.prune then r
  else if r.prune then ⟨l.anchored,l.scan,false⟩
  else ⟨l.anchored || r.anchored,!(l.anchored || r.anchored) && (l.scan || r.scan),false⟩

def or (l r : Anchor) : Anchor :=
  if l.prune then r
  else if r.prune then ⟨l.anchored,l.scan,false⟩
  else ⟨l.anchored && r.anchored,l.scan || r.scan,false⟩

def andNot (l r : Anchor) : Anchor :=
  if r.prune then l
  else if l.prune then ⟨false,false,true⟩
  else ⟨l.anchored,!l.anchored && (l.scan || r.scan),false⟩

/-- A removed node reports nothing, and one that is anchored does not scan. -/
def Consistent (a : Anchor) : Prop :=
  (a.prune = true → a.anchored = false ∧ a.scan = false) ∧ (a.anchored = true → a.scan = false)

/-- How an operator's report follows from its operands': a scan comes from one of them, and where there
is none the operator is anchored or neither operand scans. -/
structure Joins (a l r : Anchor) : Prop where
  consistent : a.Consistent
  scans : a.scan = true → l.scan = true ∨ r.scan = true
  quiet : a.prune = false → a.scan = false → a.anchored = true ∨ l.scan = false ∧ r.scan = false

variable {l r : Anchor}

theorem Joins.right (left : l.Consistent) (right : r.Consistent) (gone : l.prune = true) : r.Joins l r :=
  ⟨right,.inr,fun _ quiet => .inr ⟨(left.1 gone).2,quiet⟩⟩

theorem Joins.left (left : l.Consistent) (right : r.Consistent) (gone : r.prune = true) : l.Joins l r :=
  ⟨left,.inl,fun _ quiet => .inr ⟨quiet,(right.1 gone).2⟩⟩

theorem Joins.guarded (l r : Anchor) (anchored : Bool) : (⟨anchored,!anchored && (l.scan || r.scan),false⟩ : Anchor).Joins l r := by
  cases anchored with
  | true => exact ⟨⟨nofun,fun _ => rfl⟩,nofun,fun _ _ => .inl rfl⟩
  | false =>
    exact ⟨⟨nofun,nofun⟩,Bool.or_eq_true_iff.mp,
      fun _ quiet => .inr (Bool.or_eq_false_iff.mp quiet)⟩

theorem and_joins (left : l.Consistent) (right : r.Consistent) : (l.and r).Joins l r := by
  unfold and
  split_ifs with lp rp
  · exact .right left right lp
  · rw [← Bool.eq_false_iff.mpr lp]
    exact .left left right rp
  · exact .guarded l r _

theorem or_joins (left : l.Consistent) (right : r.Consistent) : (l.or r).Joins l r := by
  unfold or
  split_ifs with lp rp
  · exact .right left right lp
  · rw [← Bool.eq_false_iff.mpr lp]
    exact .left left right rp
  · refine ⟨⟨nofun,fun anchored => ?_⟩,Bool.or_eq_true_iff.mp,
      fun _ quiet => .inr (Bool.or_eq_false_iff.mp quiet)⟩
    obtain ⟨la,ra⟩ := Bool.and_eq_true_iff.mp anchored
    exact Bool.or_eq_false_iff.mpr ⟨left.2 la,right.2 ra⟩

theorem andNot_joins (left : l.Consistent) (right : r.Consistent) : (l.andNot r).Joins l r := by
  unfold andNot
  split_ifs with rp lp
  · exact .left left right rp
  · exact ⟨⟨fun _ => ⟨rfl,rfl⟩,nofun⟩,nofun,nofun⟩
  · exact .guarded l r _

end Anchor

section
variable {u : Unicode} {minTok : Nat}

theorem anchor_prune (minTok : Nat) (expr : SearchExpr) :
    (searchAnchor u minTok expr).prune = searchPrunes u expr := by
  rw [searchAnchor_prune u minTok expr [],searchPrunes_reduce u expr []]

theorem matchNode_prune (file : File) (lowerName : Bytes) (expr : SearchExpr) :
    (matchNode u file lowerName expr).2 = searchPrunes u expr := by
  rw [searchPrunes_reduce u expr [],matchNode_reduce u file lowerName expr [],outcome_pruned]

section
variable {text : Bytes} {tagType : Nat} {left right : SearchExpr}

theorem searchMatch_and (file : File) :
    searchMatch u (.node .and text tagType value number related left right) file =
      if searchPrunes u left then searchMatch u right file
      else if searchPrunes u right then searchMatch u left file
      else searchMatch u left file && searchMatch u right file := by
  simp only [searchMatch,matchNode,matchNode_prune,reduceCtorEq,if_false]
  split_ifs <;> simp_all [matchNode_prune]

theorem searchMatch_or (file : File) :
    searchMatch u (.node .or text tagType value number related left right) file =
      if searchPrunes u left then searchMatch u right file
      else if searchPrunes u right then searchMatch u left file
      else searchMatch u left file || searchMatch u right file := by
  simp only [searchMatch,matchNode,matchNode_prune,reduceCtorEq,if_false,if_true]
  split_ifs <;> simp_all [matchNode_prune]

theorem searchMatch_andNot (file : File) :
    searchMatch u (.node .andNot text tagType value number related left right) file =
      if searchPrunes u right then searchMatch u left file
      else if searchPrunes u left then false
      else searchMatch u left file && !searchMatch u right file := by
  simp only [searchMatch,matchNode,matchNode_prune,if_true]
  split_ifs <;> simp_all [matchNode_prune]

end

/-- An operator of the tree with its two operands. -/
inductive Operator : SearchExpr → SearchExpr → SearchExpr → Prop where
  | and (text : Bytes) (tagType : Nat) (valueString : Bytes) (valueUint : Nat) (related : List FileKey)
      (left right : SearchExpr) : Operator (.node .and text tagType valueString valueUint related left right) left right
  | or (text : Bytes) (tagType : Nat) (valueString : Bytes) (valueUint : Nat) (related : List FileKey)
      (left right : SearchExpr) : Operator (.node .or text tagType valueString valueUint related left right) left right
  | andNot (text : Bytes) (tagType : Nat) (valueString : Bytes) (valueUint : Nat) (related : List FileKey)
      (left right : SearchExpr) : Operator (.node .andNot text tagType valueString valueUint related left right) left right

namespace Operator

variable {expr left right : SearchExpr}

theorem operand (op : Operator expr left right) (side : Bool) :
    expr.operand side = some (if side then right else left) := by
  cases op <;> rfl

theorem joins (op : Operator expr left right) (minTok : Nat) (leftOk : (searchAnchor u minTok left).Consistent)
    (rightOk : (searchAnchor u minTok right).Consistent) :
    (searchAnchor u minTok expr).Joins (searchAnchor u minTok left) (searchAnchor u minTok right) := by
  cases op with
  | and => exact Anchor.and_joins leftOk rightOk
  | or => exact Anchor.or_joins leftOk rightOk
  | andNot => exact Anchor.andNot_joins leftOk rightOk

/-- A file that an anchored operator accepts is accepted by an anchored operand. -/
theorem accepted (op : Operator expr left right) (anchored : (searchAnchor u minTok expr).anchored = true)
    (hit : searchMatch u expr file = true) : ∃ side : Bool,
      (searchAnchor u minTok (if side then right else left)).anchored = true ∧
      searchMatch u (if side then right else left) file = true := by
  suffices (searchAnchor u minTok left).anchored = true ∧ searchMatch u left file = true ∨
      (searchAnchor u minTok right).anchored = true ∧ searchMatch u right file = true by
    rcases this with inLeft | inRight
    · exact ⟨false,inLeft⟩
    · exact ⟨true,inRight⟩
  have leftPrune := anchor_prune (u := u) minTok left
  have rightPrune := anchor_prune (u := u) minTok right
  cases op with
  | and =>
    rw [searchMatch_and] at hit
    change ((searchAnchor u minTok left).and (searchAnchor u minTok right)).anchored = true at anchored
    rw [Anchor.and,leftPrune,rightPrune] at anchored
    split_ifs at anchored hit
    · exact .inr ⟨anchored,hit⟩
    · exact .inl ⟨anchored,hit⟩
    · obtain ⟨inLeft,inRight⟩ := Bool.and_eq_true_iff.mp hit
      exact (Bool.or_eq_true_iff.mp anchored).imp (⟨·,inLeft⟩) (⟨·,inRight⟩)
  | or =>
    rw [searchMatch_or] at hit
    change ((searchAnchor u minTok left).or (searchAnchor u minTok right)).anchored = true at anchored
    rw [Anchor.or,leftPrune,rightPrune] at anchored
    split_ifs at anchored hit
    · exact .inr ⟨anchored,hit⟩
    · exact .inl ⟨anchored,hit⟩
    · obtain ⟨la,ra⟩ := Bool.and_eq_true_iff.mp anchored
      exact (Bool.or_eq_true_iff.mp hit).imp (⟨la,·⟩) (⟨ra,·⟩)
  | andNot =>
    rw [searchMatch_andNot] at hit
    change ((searchAnchor u minTok left).andNot (searchAnchor u minTok right)).anchored = true at anchored
    rw [Anchor.andNot,leftPrune,rightPrune] at anchored
    split_ifs at anchored hit
    · exact .inl ⟨anchored,hit⟩
    · exact .inl ⟨anchored,(Bool.and_eq_true_iff.mp hit).1⟩

end Operator

/-- Trees are operators over smaller trees, and leaves. -/
theorem SearchExpr.operator_induction {motive : SearchExpr → Prop}
    (leaf : ∀ expr, (∀ side, expr.operand side = none) → motive expr)
    (operator : ∀ expr left right, Operator expr left right →
      (∀ side : Bool, motive (if side then right else left)) → motive expr)
    (expr : SearchExpr) : motive expr := by
  induction expr with
  | nil => exact leaf _ fun _ => rfl
  | node kind text _ _ _ related left right ihl ihr =>
    have operands : ∀ side : Bool, motive (if side then right else left) := by
      intro side
      cases side
      · exact ihl
      · exact ihr
    cases kind with
    | and => exact operator _ _ _ (.and ..) operands
    | or => exact operator _ _ _ (.or ..) operands
    | andNot => exact operator _ _ _ (.andNot ..) operands
    | text | string | uint32 | uint64 | hash | related | other => exact leaf _ fun _ => rfl

variable {expr : SearchExpr}

/-- What the guard reports of a leaf. -/
theorem leaf_anchor (leaf : ∀ side, expr.operand side = none) (minTok : Nat) :
    (searchAnchor u minTok expr).anchored = false ∧ (searchAnchor u minTok expr).scan = false ∧ expr.nameText = none ∨
    (∃ hash, expr.hashValue = some hash ∧ searchAnchor u minTok expr = ⟨true,false,false⟩ ∧ expr.nameText = none) ∨
    ∃ text, expr.nameText = some text ∧ searchAnchor u minTok expr = textAnchor u text minTok := by
  cases expr with
  | nil => exact .inl ⟨rfl,rfl,rfl⟩
  | node kind text tagType value _ related _ _ =>
    cases kind with
    | and | or | andNot => exact absurd (leaf false) (Option.some_ne_none _)
    | text => exact .inr (.inr ⟨text,rfl,rfl⟩)
    | hash => exact .inr (.inl ⟨value,rfl,rfl,rfl⟩)
    | related | other => exact .inl ⟨rfl,rfl,rfl⟩
    | string =>
      by_cases name : tagType = searchTypeText
      · exact .inr (.inr ⟨value,if_pos name,if_pos name⟩)
      · refine .inl ?_
        simp only [searchAnchor,SearchExpr.nameText,if_neg name]
        split_ifs <;> simp
    | uint32 | uint64 =>
      refine .inl ?_
      simp only [searchAnchor,SearchExpr.nameText]
      split
      · simp
      · split_ifs <;> simp

theorem textAnchor_cases (text : Bytes) (minTok : Nat) : textAnchor u text minTok = ⟨true,false,false⟩ ∧
      (splitTerms u text = [] ∨ hasIndexableRun u (splitTerms u text) minTok = true) ∨
    textAnchor u text minTok = ⟨false,true,false⟩ ∧ hasIndexableRun u (splitTerms u text) minTok = false := by
  unfold textAnchor
  dsimp only
  split_ifs with blank runs
  · exact .inl ⟨rfl,.inl (length_eq_zero_iff.mp blank)⟩
  · exact .inl ⟨rfl,.inr runs⟩
  · exact .inr ⟨rfl,Bool.eq_false_iff.mpr runs⟩

theorem anchor_consistent (minTok : Nat) (expr : SearchExpr) : (searchAnchor u minTok expr).Consistent := by
  induction expr using SearchExpr.operator_induction with
  | leaf expr leaf =>
    rcases leaf_anchor (u := u) leaf minTok with ⟨anchored,scan,_⟩ | ⟨_,_,report,_⟩ | ⟨text,_,report⟩
    · exact ⟨fun _ => ⟨anchored,scan⟩,fun _ => scan⟩
    · rw [report]
      exact ⟨nofun,fun _ => rfl⟩
    · rw [report]
      rcases textAnchor_cases (u := u) text minTok with ⟨found,_⟩ | ⟨found,_⟩
      · rw [found]
        exact ⟨nofun,fun _ => rfl⟩
      · rw [found]
        exact ⟨nofun,nofun⟩
  | operator _ _ _ op ih => exact (op.joins minTok (ih false) (ih true)).consistent

/-- A name that a text leaf matches holds each run of the text. Lower case may join a run to what
surrounds it but not split it. -/
theorem matchText_run (cased : ∀ c, u.alnum c = true → u.alnum (u.toLower c) = true) {text name : Bytes}
    (hit : matchText u text (toLower u name) = true) (isTerm : term ∈ splitTerms u text)
    (isRun : run ∈ alnumRuns u term) : containsFold u name run = true := by
  rw [alnumRuns_eq,mem_map] at isRun
  obtain ⟨chars,isRun,rfl⟩ := isRun
  obtain ⟨nonempty,letters⟩ := runsFrom_spec u.alnum [] _ (by simp) chars isRun
  have piece : chars.map u.toLower <:+: lowered u term := by
    have within := (runsFrom_within u.alnum [] _ chars isRun).map u.toLower
    rwa [nil_append,map_map] at within
  have stillLetters : ∀ c ∈ chars.map u.toLower, u.alnum c = true := by
    intro c member
    obtain ⟨d,inside,rfl⟩ := mem_map.mp member
    exact cased d (letters d inside)
  obtain ⟨word,isWord,within⟩ := infix_maximalRuns u.alnum _ _ (by simpa using nonempty) stillLetters piece
  have listed : encode word ∈ alnumRuns u (toLower u term) := by
    rw [alnumRuns_eq,toLower,runes_encode,map_map]
    refine mem_map_of_mem ?_
    rw [show Prod.fst ∘ (fun c => (c,String.utf8EncodeChar c)) = id from rfl,map_id]
    exact isWord
  have asked : encode word ∈ textRuns u text := by
    refine mem_flatMap.mpr ⟨term,isTerm,?_⟩
    rw [termRuns,if_pos (length_pos_of_mem listed)]
    exact listed
  have named := all_eq_true.mp (Bool.and_eq_true_iff.mp hit).2 _ asked
  rw [containsFold,GoText.contains,decide_eq_true_eq,toLower,toLower,lowered,runes_encode,map_map]
  exact ( encode_infix _ _ within).trans (of_decide_eq_true named)

variable {expr left right : SearchExpr}

theorem walk_operator (op : Operator expr left right) (side : Bool) (path : Path) :
    expr.walk (side :: path) = (if side then right else left).walk path := by
  rw [SearchExpr.walk,op.operand]
  rfl

variable {path : Path}

theorem SearchExpr.Survives.lift (op : Operator expr left right)
    (kept : searchPrunes u expr = false) {node : SearchExpr}
    (survives : (if side then right else left).Survives u path node) : expr.Survives u (side :: path) node := by
  refine ⟨(walk_operator op side path).trans survives.1,fun above between shorter found => ?_⟩
  cases above with
  | nil =>
    cases found
    exact kept
  | cons _ above =>
    obtain ⟨rfl,within⟩ := cons_prefix_cons.mp shorter
    rw [walk_operator op] at found
    exact survives.2 above between within found

theorem SearchExpr.Survives.lower (op : Operator expr left right)
    {node : SearchExpr} (survives : expr.Survives u (side :: path) node) :
    (if side then right else left).Survives u path node := by
  refine ⟨(walk_operator op side path).symm.trans survives.1,fun above between shorter found => ?_⟩
  exact survives.2 (side :: above) between (cons_prefix_cons.mpr ⟨rfl,shorter⟩)
    ((walk_operator op side above).trans found)

theorem SearchExpr.Survives.self (kept : searchPrunes u expr = false) : expr.Survives u [] expr := by
  refine ⟨rfl,fun _ _ shorter found => ?_⟩
  rw [prefix_nil.mp shorter] at found
  cases found
  exact kept

theorem anchored_kept (anchored : (searchAnchor u minTok expr).anchored = true) : searchPrunes u expr = false := by
  rw [← anchor_prune minTok,Bool.eq_false_iff]
  intro gone
  rw [((anchor_consistent minTok expr).1 gone).1] at anchored
  cases anchored

theorem nameLeaf_match (name : expr.nameText = some text) (file : File) :
    searchMatch u expr file = matchText u text (toLower u file.name) := by
  cases expr with
  | nil => cases name
  | node kind _ _ _ _ related _ _ =>
    cases kind with
    | text =>
      cases name
      simp [searchMatch,matchNode]
    | string =>
      obtain ⟨isText,same⟩ := Option.ite_none_right_eq_some.mp name
      cases same
      simp [searchMatch,matchNode,isText]
    | and | or | andNot | uint32 | uint64 | hash | related | other => cases name

theorem hashLeaf_match {hash : Bytes} (isHash : expr.hashValue = some hash)
    (hit : searchMatch u expr file = true) : file.hash = hash := by
  cases expr with
  | nil => cases isHash
  | node kind text _ _ number related _ _ =>
    cases kind with
    | hash =>
      cases isHash
      by_contra other
      change matchHashLeaf hash number file = true at hit
      rw [matchHashLeaf,if_pos other] at hit
      cases hit
    | and | or | andNot | text | string | uint32 | uint64 | related | other => cases isHash

/-- What the guard calls anchored is narrowed. -/
theorem anchored_narrowed (cased : ∀ c, u.alnum c = true → u.alnum (u.toLower c) = true)
    (anchored : (searchAnchor u minTok expr).anchored = true) : Narrowed u minTok expr := by
  induction expr using SearchExpr.operator_induction with
  | leaf expr leaf =>
    have self := SearchExpr.Survives.self (anchored_kept anchored)
    intro file hit
    rcases leaf_anchor (u := u) leaf minTok with ⟨no,_⟩ | ⟨hash,isHash,_⟩ | ⟨text,isName,report⟩
    · rw [no] at anchored
      cases anchored
    · rw [← hashLeaf_match isHash hit] at isHash
      exact .inr ⟨[],expr,self,isHash⟩
    · rw [nameLeaf_match isName] at hit
      rw [report] at anchored
      rcases textAnchor_cases (u := u) text minTok with ⟨_,blank | runs⟩ | ⟨no,_⟩
      · -- a text without a term matches nothing
        rw [matchText_blank u text _ (isEmpty_iff.mpr blank)] at hit
        cases hit
      · obtain ⟨term,isTerm,runs⟩ := any_eq_true.mp runs
        obtain ⟨run,isRun,indexable⟩ := any_eq_true.mp runs
        exact .inl ⟨[],expr,text,self,isName,term,isTerm,run,isRun,indexable,matchText_run cased hit isTerm isRun⟩
      · rw [no] at anchored
        cases anchored
  | operator _ _ _ op ih =>
    have kept := anchored_kept anchored
    intro file hit
    obtain ⟨side,below,hit⟩ := op.accepted anchored hit
    rcases ih side below file hit with ⟨path,leaf,text,survives,found⟩ | ⟨path,leaf,survives,found⟩
    · exact .inl ⟨side :: path,leaf,text,.lift op kept survives,found⟩
    · exact .inr ⟨side :: path,leaf,.lift op kept survives,found⟩

/-- Without a scan every name leaf that cannot be looked up has an anchored node at or above it. -/
theorem quiet_anchored (quiet : (searchAnchor u minTok expr).scan = false)
    {leaf : SearchExpr} (survives : expr.Survives u path leaf) (unindexed : Unindexed u minTok leaf) :
    ∃ above node, above <+: path ∧ expr.walk above = some node ∧ (searchAnchor u minTok node).anchored = true := by
  induction expr using SearchExpr.operator_induction generalizing path with
  | leaf expr childless =>
    have here : expr = leaf := by
      cases path with
      | nil => exact Option.some.inj survives.1
      | cons side path =>
        have found := survives.1
        rw [SearchExpr.walk,childless] at found
        cases found
    subst here
    obtain ⟨text,isName,_⟩ := unindexed
    refine ⟨[],expr, nil_prefix,rfl,?_⟩
    rcases leaf_anchor (u := u) childless minTok with ⟨_,_,none_⟩ | ⟨_,_,_,none_⟩ | ⟨text',isName',report⟩
    · rw [none_] at isName
      cases isName
    · rw [none_] at isName
      cases isName
    · rw [report] at quiet ⊢
      rcases textAnchor_cases (u := u) text' minTok with ⟨found,_⟩ | ⟨found,_⟩
      · rw [found]
      · rw [found] at quiet
        cases quiet
  | operator expr left right op ih =>
    have joins := op.joins minTok (anchor_consistent (u := u) minTok left) (anchor_consistent minTok right)
    have kept : (searchAnchor u minTok expr).prune = false := by
      rw [anchor_prune]
      exact survives.2 [] expr nil_prefix rfl
    rcases joins.quiet kept quiet with anchored | ⟨quietLeft,quietRight⟩
    · exact ⟨[],expr, nil_prefix,rfl,anchored⟩
    · cases path with
      | nil =>
        -- an operator is not a name leaf
        cases survives.1
        obtain ⟨_,isName,_⟩ := unindexed
        cases op <;> cases isName
      | cons side _ =>
        have below : (searchAnchor u minTok (if side then right else left)).scan = false := by
          cases side
          · exact quietLeft
          · exact quietRight
        obtain ⟨above,node,within,found,anchored⟩ := ih side below (survives.lower op)
        exact ⟨side :: above,node,cons_prefix_cons.mpr ⟨rfl,within⟩,(walk_operator op ..).trans found,anchored⟩

theorem scan_not_anchored (scan : (searchAnchor u minTok expr).scan = true) :
    (searchAnchor u minTok expr).anchored = false ∧ searchPrunes u expr = false := by
  have consistent := anchor_consistent (u := u) minTok expr
  rw [← anchor_prune minTok]
  refine ⟨Bool.eq_false_iff.mpr fun anchored => ?_,Bool.eq_false_iff.mpr fun gone => ?_⟩
  · rw [consistent.2 anchored] at scan
    cases scan
  · rw [(consistent.1 gone).2] at scan
    cases scan

/-- A scan is the fault of a name leaf that cannot be looked up and is under nothing anchored. -/
theorem scan_unanchored (scan : (searchAnchor u minTok expr).scan = true) :
    ∃ path leaf, expr.Survives u path leaf ∧ Unindexed u minTok leaf ∧ ∀ above node, above <+: path →
      expr.walk above = some node → (searchAnchor u minTok node).anchored = false := by
  obtain ⟨unanchored,kept⟩ := scan_not_anchored scan
  induction expr using SearchExpr.operator_induction with
  | leaf expr childless =>
    refine ⟨[],expr,.self kept,?_,fun above node within found => ?_⟩
    · rcases leaf_anchor (u := u) childless minTok with ⟨_,quiet,_⟩ | ⟨_,_,report,_⟩ | ⟨text,isName,report⟩
      · rw [quiet] at scan
        cases scan
      · rw [report] at scan
        cases scan
      · rw [report] at scan
        rcases textAnchor_cases (u := u) text minTok with ⟨quiet,_⟩ | ⟨_,runs⟩
        · rw [quiet] at scan
          cases scan
        · exact ⟨text,isName,runs⟩
    · rw [prefix_nil.mp within] at found
      cases found
      exact unanchored
  | operator _ left right op ih =>
    have joins := op.joins minTok (anchor_consistent (u := u) minTok left) (anchor_consistent minTok right)
    obtain ⟨side,below⟩ : ∃ side : Bool, (searchAnchor u minTok (if side then right else left)).scan = true := by
      rcases joins.scans scan with inLeft | inRight
      · exact ⟨false,inLeft⟩
      · exact ⟨true,inRight⟩
    obtain ⟨unanchored',kept'⟩ := scan_not_anchored below
    obtain ⟨path,leaf,survives,unindexed,free⟩ := ih side below unanchored' kept'
    refine ⟨side :: path,leaf,.lift op kept survives,unindexed,fun above node within found => ?_⟩
    cases above with
    | nil =>
      cases found
      exact unanchored
    | cons _ above =>
      obtain ⟨rfl,within'⟩ := cons_prefix_cons.mp within
      rw [walk_operator op] at found
      exact free above node within' found

end

/-- The scan guard is exact. The tables are asked for one thing: what is a letter or a digit still is
one in lower case. -/
theorem scan_guard_exact (u : Unicode) (cased : ∀ c, u.alnum c = true → u.alnum (u.toLower c) = true)
    (expr : SearchExpr) (minTok : Nat) :
    (searchNeedsScan u expr minTok = false → ∀ path leaf, expr.Survives u path leaf → Unindexed u minTok leaf →
      ∃ above node, above <+: path ∧ expr.walk above = some node ∧ Narrowed u minTok node) ∧
    (searchNeedsScan u expr minTok = true → ∃ path leaf, expr.Survives u path leaf ∧ Unindexed u minTok leaf ∧
      ∀ above node, above <+: path → expr.walk above = some node → (searchAnchor u minTok node).anchored = false) := by
  refine ⟨fun quiet _ _ survives unindexed => ?_,scan_unanchored⟩
  obtain ⟨above,node,within,found,anchored⟩ := quiet_anchored quiet survives unindexed
  exact ⟨above,node,within,found,anchored_narrowed cased anchored⟩

theorem ascii_cased (c : Char) (letter : Unicode.ascii.alnum c = true) :
    Unicode.ascii.alnum (Unicode.ascii.toLower c) = true := by
  rcases Bool.or_eq_true_iff.mp letter with alpha | digit
  · exact Bool.or_eq_true_iff.mpr (.inl ((Char.isAlpha_toLower_eq_isAlpha c).trans alpha))
  · have same : Unicode.ascii.toLower c = c := by
      refine Char.toLower_eq_of_not_isUpper (fun upper => ?_)
      simp [Unicode.ascii,Char.isDigit,Char.isUpper,UInt32.le_iff_toNat_le] at digit upper
      omega
    rw [same]
    exact letter

/-- `x men` needs no scan for its first word: the second narrows the search. -/
theorem scan_guard_exact_pair :
    let expr := SearchExpr.ofOperator .and (.ofText (lit "x")) (.ofText (lit "men"))
    searchNeedsScan Unicode.ascii expr 3 = false ∧
    ∃ above node, above <+: [false] ∧ expr.walk above = some node ∧ Narrowed Unicode.ascii 3 node := by
  intro expr
  have quiet : searchNeedsScan Unicode.ascii expr 3 = false := by decide +kernel
  refine ⟨quiet,(scan_guard_exact Unicode.ascii ascii_cased expr 3).1 quiet [false] (.ofText (lit "x")) ?_ ?_⟩
  · refine .lift (.and ..) (by decide +kernel) (.self (by decide +kernel))
  · exact ⟨lit "x",rfl,by decide +kernel⟩

end ENode.Storage
