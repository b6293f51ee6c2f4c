import ENode.SearchExpr

/-! What a search expression means once its unsupported nodes are removed. Removing a
node is not giving it a truth value: `pruned` has no constraint, `never` has one that
nothing meets, and only `holds` is a clause to evaluate. Each engine's translation is
compared with this one. -/
namespace ENode.Storage

open GoText List

/-- A leaf occurrence: the turns from the root, right being `true`. -/
abbrev Path := List Bool

inductive Clause where
  | leaf (path : Path) (expr : SearchExpr)
  | and (left right : Clause)
  | or (left right : Clause)
  | andNot (left right : Clause)

inductive Reduced where
  | pruned
  | never
  | holds (clause : Clause)

namespace Clause

/-- Occurrences in the order a translation writes them. -/
def leaves : Clause → List (Path × SearchExpr)
  | leaf path expr => [(path,expr)]
  | and left right | or left right | andNot left right => left.leaves ++ right.leaves

def eval (truth : Path → SearchExpr → Bool) : Clause → Bool
  | leaf path expr => truth path expr
  | and left right => left.eval truth && right.eval truth
  | or left right => left.eval truth || right.eval truth
  | andNot left right => left.eval truth && !right.eval truth

theorem eval_congr (c : Clause) (f g : Path → SearchExpr → Bool)
    (agree : ∀ leaf ∈ c.leaves, f leaf.1 leaf.2 = g leaf.1 leaf.2) : c.eval f = c.eval g := by
  induction c with
  | leaf path expr => exact agree (path,expr) (by simp [leaves])
  | and l r ihl ihr | or l r ihl ihr | andNot _ _ ihl ihr =>
    simp only [leaves,mem_append] at agree
    simp only [eval,ihl (fun x h => agree x (.inl h)),ihr (fun x h => agree x (.inr h))]

end Clause

namespace Reduced

/-- Whether the reduced expression accepts; a pruned one matches nothing. -/
def accepts (truth : Path → SearchExpr → Bool) : Reduced → Bool
  | holds c => c.eval truth
  | _ => false

def leaves : Reduced → List (Path × SearchExpr)
  | holds c => c.leaves
  | _ => []

def isPruned : Reduced → Bool
  | pruned => true
  | _ => false

def andNot : Reduced → Reduced → Reduced
  | left, pruned | left, never => left
  | pruned, _ => pruned
  | never, _ => never
  | holds l, holds r => holds (.andNot l r)

def or : Reduced → Reduced → Reduced
  | pruned, right => right
  | left, pruned => left
  | never, right => right
  | left, never => left
  | holds l, holds r => holds (.or l r)

def and : Reduced → Reduced → Reduced
  | pruned, right => right
  | left, pruned => left
  | never, _ | _, never => never
  | holds l, holds r => holds (.and l r)

theorem and_holds {l r : Reduced} (h : l.and r = holds c) :
    l = holds c ∨ r = holds c ∨ ∃ cl cr, l = holds cl ∧ r = holds cr ∧ c = .and cl cr := by
  cases l <;> cases r <;> simp_all [and]

theorem or_holds {l r : Reduced} (h : l.or r = holds c) :
    l = holds c ∨ r = holds c ∨ ∃ cl cr, l = holds cl ∧ r = holds cr ∧ c = .or cl cr := by
  cases l <;> cases r <;> simp_all [or]

theorem andNot_holds {l r : Reduced} (h : l.andNot r = holds c) :
    l = holds c ∨ ∃ cl cr, l = holds cl ∧ r = holds cr ∧ c = .andNot cl cr := by
  cases l <;> cases r <;> simp_all [andNot]

@[simp] theorem isPruned_and (l r : Reduced) : (l.and r).isPruned = (l.isPruned && r.isPruned) := by
  cases l <;> cases r <;> rfl

@[simp] theorem isPruned_or (l r : Reduced) : (l.or r).isPruned = (l.isPruned && r.isPruned) := by
  cases l <;> cases r <;> rfl

@[simp] theorem isPruned_andNot (l r : Reduced) : (l.andNot r).isPruned = l.isPruned := by
  cases l <;> cases r <;> rfl

theorem leaves_and (l r : Reduced) : (l.and r).leaves ⊆ l.leaves ++ r.leaves := by
  cases l <;> cases r <;> simp [and,leaves,Clause.leaves]

theorem leaves_or (l r : Reduced) : (l.or r).leaves ⊆ l.leaves ++ r.leaves := by
  cases l <;> cases r <;> simp [or,leaves,Clause.leaves]

theorem leaves_andNot (l r : Reduced) : (l.andNot r).leaves ⊆ l.leaves ++ r.leaves := by
  cases l <;> cases r <;> simp [andNot,leaves,Clause.leaves]

end Reduced

section
variable (u : Unicode)

/-- What a childless node reduces to at an occurrence. -/
def reduceLeaf (path : Path) (kind : SearchKind) (text : Bytes) (tagType : Nat)
    (valueString : Bytes) (expr : SearchExpr) : Reduced :=
  match kind with
  | .text => if (splitTerms u text).isEmpty then .never else .holds (.leaf path expr)
  | .string =>
    if tagType = searchTypeText then
      if (splitTerms u valueString).isEmpty then .never else .holds (.leaf path expr)
    else if tagType = searchTypeFileType ∨ tagType = searchTypeExt ∨ tagType = searchTypeCodec ∨
        tagType = searchTypeArtist ∨ tagType = searchTypeAlbum ∨ tagType = searchTypeTitle
    then .holds (.leaf path expr) else .pruned
  | .uint32 | .uint64 =>
    match numericConstraint kind tagType with
    | none => .pruned
    | some (tag,_) =>
      if tag = searchTagSize ∨ tag = searchTagSources ∨ tag = searchTagComplete ∨
          tag = searchTagBitrate ∨ tag = searchTagLength
      then .holds (.leaf path expr) else .pruned
  | .hash => .holds (.leaf path expr)
  | _ => .pruned

def reduce (path : Path) : SearchExpr → Reduced
  | .nil => .pruned
  | .node kind text tagType valueString valueUint related left right =>
    match kind with
    | .and => (reduce (path ++ [false]) left).and (reduce (path ++ [true]) right)
    | .or => (reduce (path ++ [false]) left).or (reduce (path ++ [true]) right)
    | .andNot => (reduce (path ++ [false]) left).andNot (reduce (path ++ [true]) right)
    | _ => reduceLeaf u path kind text tagType valueString
        (.node kind text tagType valueString valueUint related left right)

/-- The matcher with the truth of its supported leaves supplied from outside. -/
def matchNodeWith (truth : Path → SearchExpr → Bool) (path : Path) : SearchExpr → Bool × Bool
  | .nil => (false,true)
  | .node kind text tagType valueString valueUint related left right =>
    match kind with
    | .and | .or | .andNot =>
      let l := matchNodeWith truth (path ++ [false]) left
      let r := matchNodeWith truth (path ++ [true]) right
      if kind = .andNot then
        if r.2 then l
        else if l.2 then (false,true)
        else (l.1 && !r.1,false)
      else if l.2 then r
      else if r.2 then (l.1,false)
      else if kind = .or then (l.1 || r.1,false)
      else (l.1 && r.1,false)
    | _ =>
      match reduceLeaf u path kind text tagType valueString
          (.node kind text tagType valueString valueUint related left right) with
      | .pruned => (false,true)
      | .never => (false,false)
      | .holds _ => (truth path (.node kind text tagType valueString valueUint related left right),false)

def verdict (truth : Path → SearchExpr → Bool) (expr : SearchExpr) : Bool :=
  let result := matchNodeWith u truth [] expr
  if result.2 then false else result.1

end

def Reduced.outcome (truth : Path → SearchExpr → Bool) : Reduced → Bool × Bool
  | .pruned => (false,true)
  | .never => (false,false)
  | .holds c => (c.eval truth,false)

variable (u : Unicode)

variable (path : Path)

theorem reduceLeaf_cases (kind : SearchKind) (text : Bytes) (tagType : Nat)
    (value : Bytes) (expr : SearchExpr) : reduceLeaf u path kind text tagType value expr = .pruned ∨
    reduceLeaf u path kind text tagType value expr = .never ∨
    reduceLeaf u path kind text tagType value expr = .holds (.leaf path expr) := by
  unfold reduceLeaf
  repeat' split
  all_goals simp

/-- Which childless nodes carry no constraint. -/
def prunesLeaf (kind : SearchKind) (tagType : Nat) : Bool :=
  match kind with
  | .text | .hash => false
  | .string => decide (¬ (tagType = searchTypeText ∨ tagType = searchTypeFileType ∨ tagType = searchTypeExt ∨
      tagType = searchTypeCodec ∨ tagType = searchTypeArtist ∨ tagType = searchTypeAlbum ∨
      tagType = searchTypeTitle))
  | .uint32 | .uint64 =>
    match numericConstraint kind tagType with
    | none => true
    | some (tag,_) => decide (¬ (tag = searchTagSize ∨ tag = searchTagSources ∨ tag = searchTagComplete ∨
        tag = searchTagBitrate ∨ tag = searchTagLength))
  | _ => true

theorem reduceLeaf_isPruned (kind : SearchKind) (text : Bytes) (tagType : Nat)
    (value : Bytes) (expr : SearchExpr) :
    (reduceLeaf u path kind text tagType value expr).isPruned = prunesLeaf kind tagType := by
  unfold reduceLeaf prunesLeaf
  cases kind with
  | text => dsimp only; split <;> rfl
  | string | uint32 | uint64 =>
    dsimp only
    repeat' split
    all_goals simp_all [Reduced.isPruned]
  | and | or | andNot | hash | related | other => rfl

theorem reduce_childless (childless : kind ≠ .and ∧ kind ≠ .or ∧ kind ≠ .andNot) :
    reduce u path (.node kind text tagType value number related left right) =
      reduceLeaf u path kind text tagType value
        (.node kind text tagType value number related left right) := by
  cases kind with
  | and | or | andNot => simp at childless
  | text | string | uint32 | uint64 | hash | related | other => rfl

section
variable (truth : Path → SearchExpr → Bool)

theorem andNot_outcome (l r : Reduced) : (l.andNot r).outcome truth =
      if (r.outcome truth).2 then l.outcome truth
      else if (l.outcome truth).2 then (false,true)
      else ((l.outcome truth).1 && !(r.outcome truth).1,false) := by
  cases l <;> cases r <;> simp [Reduced.andNot,Reduced.outcome,Clause.eval]

theorem or_outcome (l r : Reduced) : (l.or r).outcome truth =
      if (l.outcome truth).2 then r.outcome truth
      else if (r.outcome truth).2 then ((l.outcome truth).1,false)
      else ((l.outcome truth).1 || (r.outcome truth).1,false) := by
  cases l <;> cases r <;> simp [Reduced.or,Reduced.outcome,Clause.eval]

theorem and_outcome (l r : Reduced) : (l.and r).outcome truth =
      if (l.outcome truth).2 then r.outcome truth
      else if (r.outcome truth).2 then ((l.outcome truth).1,false)
      else ((l.outcome truth).1 && (r.outcome truth).1,false) := by
  cases l <;> cases r <;> simp [Reduced.and,Reduced.outcome,Clause.eval]

theorem reduceLeaf_outcome (path : Path) (kind : SearchKind)
    (text : Bytes) (tagType : Nat) (value : Bytes) (expr : SearchExpr) :
    (match reduceLeaf u path kind text tagType value expr with
      | .pruned => (false,true)
      | .never => (false,false)
      | .holds _ => (truth path expr,false)) =
    (reduceLeaf u path kind text tagType value expr).outcome truth := by
  rcases reduceLeaf_cases u path kind text tagType value expr with h | h | h <;>
    simp [h,Reduced.outcome,Clause.eval]

theorem matchNodeWith_reduce (expr : SearchExpr) (path : Path) :
    matchNodeWith u truth path expr = (reduce u path expr).outcome truth := by
  induction expr generalizing path with
  | nil => rfl
  | node kind text tagType value _ related _ _ ihl ihr =>
    cases kind with
    | and => simp [matchNodeWith,reduce,and_outcome,ihl,ihr]
    | or => simp [matchNodeWith,reduce,or_outcome,ihl,ihr]
    | andNot => simp [matchNodeWith,reduce,andNot_outcome,ihl,ihr]
    | text | string | uint32 | uint64 => exact reduceLeaf_outcome u truth path _ text tagType value _
    | hash | related | other => simp [matchNodeWith,reduce,reduceLeaf,Reduced.outcome,Clause.eval]

end

def leafTruth (file : File) (lowerName : Bytes) (leaf : SearchExpr) : Bool :=
  (matchNode u file lowerName leaf).1

theorem matchText_blank (text lowerName : Bytes) (blank : (splitTerms u text).isEmpty = true) :
    matchText u text lowerName = false := by
  simp only [List.isEmpty_iff] at blank
  simp [matchText,textRuns,blank]

theorem matchNode_leaf (file : File) (lowerName : Bytes) (path : Path)
    (childless : kind ≠ .and ∧ kind ≠ .or ∧ kind ≠ .andNot) :
    matchNode u file lowerName (.node kind text tagType value number related left right) =
      (reduceLeaf u path kind text tagType value
        (.node kind text tagType value number related left right)).outcome
        (fun _ leaf => leafTruth u file lowerName leaf) := by
  cases kind with
  | and | or | andNot => simp at childless
  | text =>
    simp only [reduceLeaf]
    split
    next blank => simp [matchNode,Reduced.outcome,matchText_blank u text lowerName blank]
    · simp [matchNode,Reduced.outcome,Clause.eval,leafTruth]
  | string =>
    simp only [reduceLeaf]
    repeat' split
    all_goals simp_all [matchNode,Reduced.outcome,Clause.eval,leafTruth,matchText_blank]
    all_goals (repeat' split) <;> simp_all
  | uint32 | uint64 =>
    simp only [reduceLeaf]
    repeat' split
    all_goals simp_all [matchNode,Reduced.outcome,Clause.eval,leafTruth]
    all_goals (repeat' split) <;> simp_all
  | hash => simp [matchNode,reduceLeaf,Reduced.outcome,Clause.eval,leafTruth]
  | related | other => simp [matchNode,reduceLeaf,Reduced.outcome]

/-- Matching one file is evaluating the reduced expression at the truth the file gives. -/
theorem matchNode_reduce (file : File) (lowerName : Bytes) (expr : SearchExpr) (path : Path) :
    matchNode u file lowerName expr =
      (reduce u path expr).outcome (fun _ leaf => leafTruth u file lowerName leaf) := by
  induction expr generalizing path with
  | nil => rfl
  | node kind text _ _ _ related _ _ ihl ihr =>
    cases kind with
    | and => simp [matchNode,reduce,and_outcome,ihl (path ++ [false]),ihr (path ++ [true])]
    | or => simp [matchNode,reduce,or_outcome,ihl (path ++ [false]),ihr (path ++ [true])]
    | andNot => simp [matchNode,reduce,andNot_outcome,ihl (path ++ [false]),ihr (path ++ [true])]
    | text | string | uint32 | uint64 | hash | related | other =>
      exact matchNode_leaf u file lowerName path (by simp)

theorem outcome_pruned (truth : Path → SearchExpr → Bool) (r : Reduced) : (r.outcome truth).2 = r.isPruned := by
  cases r <;> rfl

variable (expr : SearchExpr)

theorem searchPrunes_reduce (path : Path) : searchPrunes u expr = (reduce u path expr).isPruned := by
  rw [searchPrunes,matchNode_reduce u {} [] expr path,outcome_pruned]

theorem verdict_reduce (truth : Path → SearchExpr → Bool) (expr : SearchExpr) :
    verdict u truth expr = (reduce u [] expr).accepts truth := by
  simp only [verdict,matchNodeWith_reduce]
  cases reduce u [] expr <;> rfl

theorem searchMatch_reduce (file : File) : searchMatch u expr file =
      (reduce u [] expr).accepts (fun _ leaf => leafTruth u file (toLower u file.name) leaf) := by
  simp only [searchMatch,matchNode_reduce u file _ expr []]
  cases reduce u [] expr <;> rfl

/-- A leaf that is left in the clause wherever it occurs. -/
def Supported (expr : SearchExpr) : Prop := ∀ path, reduce u path expr = .holds (.leaf path expr)

theorem reduceLeaf_supported (childless : kind ≠ .and ∧ kind ≠ .or ∧ kind ≠ .andNot)
    (member : leaf ∈ (reduceLeaf u path kind text tagType value
      (.node kind text tagType value number related left right)).leaves) :
    path <+: leaf.1 ∧ Supported u leaf.2 := by
  rcases reduceLeaf_cases u path kind text tagType value
    (.node kind text tagType value number related left right) with h | h | h
  · simp [h,Reduced.leaves] at member
  · simp [h,Reduced.leaves] at member
  · simp only [h,Reduced.leaves,Clause.leaves,mem_singleton] at member
    subst member
    refine ⟨prefix_refl path,fun other => ?_⟩
    have moved : reduceLeaf u other kind text tagType value
        (.node kind text tagType value number related left right) =
        .holds (.leaf other (.node kind text tagType value number related left right)) := by
      revert h
      unfold reduceLeaf
      repeat' split
      all_goals simp
    rw [reduce_childless u other childless,moved]

/-- Every leaf kept is supported and lies below the node it is kept for. -/
theorem reduce_leaves (path : Path)
    (member : leaf ∈ (reduce u path expr).leaves) : path <+: leaf.1 ∧ Supported u leaf.2 := by
  induction expr generalizing path with
  | nil => simp [reduce,Reduced.leaves] at member
  | node kind text _ _ _ related left right ihl ihr =>
    have below : leaf ∈ (reduce u (path ++ [false]) left).leaves ++
        (reduce u (path ++ [true]) right).leaves → path <+: leaf.1 ∧ Supported u leaf.2 := by
      intro either
      rcases mem_append.mp either with h | h
      · exact ⟨(prefix_append _ _).trans (ihl _ h).1,(ihl _ h).2⟩
      · exact ⟨(prefix_append _ _).trans (ihr _ h).1,(ihr _ h).2⟩
    cases kind with
    | and => exact below (Reduced.leaves_and _ _ member)
    | or => exact below (Reduced.leaves_or _ _ member)
    | andNot => exact below (Reduced.leaves_andNot _ _ member)
    | text | string | uint32 | uint64 | hash | related | other =>
      rw [reduce_childless u path (by simp)] at member
      exact reduceLeaf_supported u path (by simp) member

/-- A supported leaf is no operator node. -/
theorem supported_childless (supported : Supported u (.node kind text tagType value number related left right)) :
    kind ≠ .and ∧ kind ≠ .or ∧ kind ≠ .andNot := by
  have kept := supported []
  have member : (([] : Path),SearchExpr.node kind text tagType value number related left right) ∈
      (reduce u [] (.node kind text tagType value number related left right)).leaves := by
    rw [kept]
    simp [Reduced.leaves,Clause.leaves]
  -- a leaf kept from below an operator lies strictly below it
  have below : ([],SearchExpr.node kind text tagType value number related left right) ∉
      (reduce u [false] left).leaves ++ (reduce u [true] right).leaves := by
    intro either
    rcases mem_append.mp either with h | h <;> simpa using (reduce_leaves u _ _ h).1
  refine ⟨?_,?_,?_⟩ <;> rintro rfl
  · exact below (Reduced.leaves_and _ _ member)
  · exact below (Reduced.leaves_or _ _ member)
  · exact below (Reduced.leaves_andNot _ _ member)

theorem reduce_apart (left right : SearchExpr) (path : Path) (f g : Path → SearchExpr → Bool) :
    ∃ truth : Path → SearchExpr → Bool,
      (∀ leaf ∈ (reduce u (path ++ [false]) left).leaves, truth leaf.1 leaf.2 = f leaf.1 leaf.2) ∧
      ∀ leaf ∈ (reduce u (path ++ [true]) right).leaves, truth leaf.1 leaf.2 = g leaf.1 leaf.2 := by
  refine ⟨fun p e => if (path ++ [true]).isPrefixOf p then g p e else f p e,?_,?_⟩
  · intro leaf h
    have left := (reduce_leaves u _ _ h).1
    have apart : ¬ path ++ [true] <+: leaf.1 := by
      intro right
      have same := prefix_of_prefix_length_le left right (by simp)
      simpa using prefix_append_right_inj path |>.mp same
    simp [apart]
  · intro _ h
    simp [(reduce_leaves u _ _ h).1]

/-- A clause that is kept can be true and can be false. -/
theorem reduce_undecided (path : Path) (c : Clause)
    (h : reduce u path expr = .holds c) (b : Bool) : ∃ truth, c.eval truth = b := by
  induction expr generalizing path c b with
  | nil => simp [reduce] at h
  | node kind text tagType value number related left right ihl ihr =>
    have both : ∀ cl cr, reduce u (path ++ [false]) left = .holds cl →
        reduce u (path ++ [true]) right = .holds cr → ∀ x y : Bool,
        ∃ truth, cl.eval truth = x ∧ cr.eval truth = y := by
      intro cl cr hl hr x y
      obtain ⟨f,rfl⟩ := ihl _ cl hl x
      obtain ⟨g,rfl⟩ := ihr _ cr hr y
      obtain ⟨truth,onLeft,onRight⟩ := reduce_apart u left right path f g
      rw [hl] at onLeft
      rw [hr] at onRight
      exact ⟨truth,cl.eval_congr _ _ onLeft,cr.eval_congr _ _ onRight⟩
    by_cases childless : kind ≠ .and ∧ kind ≠ .or ∧ kind ≠ .andNot
    · rw [reduce_childless u path childless] at h
      rcases reduceLeaf_cases u path kind text tagType value
        (.node kind text tagType value number related left right) with shape | shape | shape <;>
        rw [shape] at h <;> cases h
      exact ⟨fun _ _ => b,rfl⟩
    cases kind with
    | and =>
      rcases Reduced.and_holds h with hl | hr | ⟨cl,cr,hl,hr,rfl⟩
      · exact ihl _ c hl b
      · exact ihr _ c hr b
      · obtain ⟨truth,onLeft,onRight⟩ := both cl cr hl hr b b
        exact ⟨truth,by simp [Clause.eval,onLeft,onRight]⟩
    | or =>
      rcases Reduced.or_holds h with hl | hr | ⟨cl,cr,hl,hr,rfl⟩
      · exact ihl _ c hl b
      · exact ihr _ c hr b
      · obtain ⟨truth,onLeft,onRight⟩ := both cl cr hl hr b b
        exact ⟨truth,by simp [Clause.eval,onLeft,onRight]⟩
    | andNot =>
      rcases Reduced.andNot_holds h with hl | ⟨cl,cr,hl,hr,rfl⟩
      · exact ihl _ c hl b
      · obtain ⟨truth,onLeft,onRight⟩ := both cl cr hl hr b !b
        exact ⟨truth,by simp [Clause.eval,onLeft,onRight]⟩
    | text | string | uint32 | uint64 | hash | related | other => simp at childless

end ENode.Storage
