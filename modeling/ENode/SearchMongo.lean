import ENode.SearchWhere

/-! The match filter of the MongoDB engine. How the server evaluates one condition on one
field is left open; a filter combines such answers, and a filter that does not need the
joined files document gives the same answer before the join. -/
namespace ENode.Storage

open GoText

inductive MongoValue where
  | text (value : Bytes)
  | number (value : Nat)
  | blob (value : Bytes)
  deriving DecidableEq

/-- A condition on one field; `inNothing` is `$in` of the empty array. -/
inductive MongoCond where
  | equals (value : MongoValue)
  | regex (pattern options : Bytes)
  | compare (op : String) (value : Nat)
  | inNothing
  deriving DecidableEq

/-- `fields` asks for all its conditions, `allOf` for all its one-condition documents. -/
inductive MongoFilter where
  | fields (conds : List (String × MongoCond))
  | allOf (parts : List (String × MongoCond))
  | and (left right : MongoFilter)
  | or (left right : MongoFilter)
  | nor (operand : MongoFilter)
  deriving DecidableEq

/-- A document as the value at each field path, and the server's answer to a condition. -/
abbrev MongoDoc := String → Option MongoValue
abbrev MongoServer := Option MongoValue → MongoCond → Bool

def MongoCond.holds (server : MongoServer) (doc : MongoDoc) (part : String × MongoCond) : Bool :=
  if part.2 = .inNothing then false else server (doc part.1) part.2

def MongoFilter.accepts (server : MongoServer) (doc : MongoDoc) : MongoFilter → Bool
  | fields conds | allOf conds => conds.all (MongoCond.holds server doc)
  | and left right => left.accepts server doc && right.accepts server doc
  | or left right => left.accepts server doc || right.accepts server doc
  | nor operand => !operand.accepts server doc

/-- The result of `mongoFilterNode`; a nil filter is none. -/
structure MongoNode where
  filter : Option MongoFilter := none
  needsFile : Bool := false
  prune : Bool := false
  deriving DecidableEq

def mongoMatchNothing : MongoFilter := .fields [("_id",.inNothing)]

def isMongoMatchNothing : Option MongoFilter → Bool
  | some (.fields conds) => conds.lookup "_id" == some .inNothing
  | _ => false

def mongoOperators : List String := ["$eq","$gt","$lt","$gte","$lte","$ne"]

/-- The field a numeric leaf's tag constrains, and whether it lives on the joined file. -/
def mongoNumericField (tag : Nat) : Option (String × Bool) :=
  if tag = searchTagSize then some ("file_size",false)
  else if tag = searchTagSources then some ("file.sources",true)
  else if tag = searchTagComplete then some ("file.completed",true)
  else if tag = searchTagBitrate then some ("bitrate",false)
  else if tag = searchTagLength then some ("length",false)
  else none

/-- Backslash-escapes the bytes a regular expression gives a meaning to. -/
def quoteMeta (s : Bytes) : Bytes :=
  s.flatMap (fun b => if b ∈ lit "\\.+*?()|[]\x7b\x7d^$" then [0x5c,b] else [b])

def regexCond (s : Bytes) : MongoCond := .regex (quoteMeta s) (lit "i")

/-- The operator case of `mongoFilterNode`. -/
def combineMongoNodes (kind : SearchKind) (l r : MongoNode) : MongoNode :=
  let needsFile := l.needsFile || r.needsFile
  if kind = .andNot then
    if r.prune || isMongoMatchNothing r.filter then l
    else if l.prune then { prune := true }
    else if isMongoMatchNothing l.filter then ⟨l.filter,l.needsFile,false⟩
    else ⟨do return .and (← l.filter) (.nor (← r.filter)),needsFile,false⟩
  else if l.prune then r
  else if r.prune then ⟨l.filter,l.needsFile,false⟩
  else if kind = .or then
    if isMongoMatchNothing l.filter then ⟨r.filter,r.needsFile,false⟩
    else if isMongoMatchNothing r.filter then ⟨l.filter,l.needsFile,false⟩
    else ⟨do return .or (← l.filter) (← r.filter),needsFile,false⟩
  else if isMongoMatchNothing l.filter || isMongoMatchNothing r.filter then
    ⟨some mongoMatchNothing,needsFile,false⟩
  else ⟨do return .and (← l.filter) (← r.filter),needsFile,false⟩

section
variable (u : Unicode)

def mongoNameRegexFilter (terms : List Bytes) : MongoFilter :=
  let parts := terms.flatMap (fun t => (termRuns u t).map (fun run => ("name",regexCond run)))
  if parts.length = 1 then .fields parts else .allOf parts

def mongoTextNode (text : Bytes) : MongoNode :=
  if (splitTerms u text).length = 0 then { filter := some mongoMatchNothing }
  else { filter := some (mongoNameRegexFilter u (splitTerms u text)) }

def mongoFilterNode : SearchExpr → MongoNode
  | .nil => { prune := true }
  | .node kind text tagType valueString valueUint _ left right =>
    match kind with
    | .text => mongoTextNode u text
    | .string =>
      if tagType = searchTypeText then mongoTextNode u valueString
      else if tagType = searchTypeFileType then
        { filter := some (.fields [("type",.equals (.text (normalizeSearchFileType u valueString)))]) }
      else if tagType = searchTypeExt then
        { filter := some (.fields [("ext",.equals (.text valueString))]) }
      else if tagType = searchTypeCodec then
        { filter := some (.fields [("codec",.equals (.text valueString))]) }
      else match mediaStringField tagType with
        | some field => { filter := some (.fields [(field,regexCond valueString)]) }
        | none => { prune := true }
    | .uint32 | .uint64 =>
      match numericConstraint kind tagType with
      | none => { prune := true }
      | some (tag,op) =>
        match mongoNumericField tag with
        | none => { prune := true }
        | some (field,needsFile) =>
          { filter := some (.fields [(field,.compare (mongoOperators.getD op "") valueUint)]),
            needsFile := needsFile }
    | .hash =>
      if valueUint = 0 then { filter := some (.fields [("file_hash",.equals (.blob valueString))]) }
      else { filter := some (.fields [("file_hash",.equals (.blob valueString)),
              ("file_size",.equals (.number valueUint))]) }
    | .and | .or | .andNot => combineMongoNodes kind (mongoFilterNode left) (mongoFilterNode right)
    | .related | .other _ => { prune := true }

def mongoFilter (expr : SearchExpr) : Option MongoFilter × Bool :=
  let node := mongoFilterNode u expr
  if node.prune then (none,false) else (node.filter,node.needsFile)

/-- The filter that can run before the join: only conjuncts on the source itself. -/
def mongoSourceConjunctFilter : SearchExpr → Option MongoFilter
  | .nil => none
  | .node .and _ _ _ _ _ left right =>
    match mongoSourceConjunctFilter left, mongoSourceConjunctFilter right with
    | none, r => r
    | l, none => l
    | some l, some r => some (.and l r)
  | .node .or .. | .node .andNot .. => none
  | expr =>
    let (f,needsFile) := mongoFilter u expr
    if f.isNone || needsFile then none else f

def leafFilter (expr : SearchExpr) : MongoFilter := (mongoFilterNode u expr).filter.getD mongoMatchNothing

def Clause.mongoFilter : Clause → MongoFilter
  | leaf _ expr => leafFilter u expr
  | and l r => .and l.mongoFilter r.mongoFilter
  | or l r => .or l.mongoFilter r.mongoFilter
  | andNot l r => .and l.mongoFilter (.nor r.mongoFilter)

def Reduced.mongoFilter : Reduced → Option MongoFilter
  | pruned => none
  | never => some mongoMatchNothing
  | holds c => some (c.mongoFilter u)

/-- The truth a document gives to a leaf: its own filter's answer. -/
def docTruth (server : MongoServer) (doc : MongoDoc) (leaf : SearchExpr) : Bool :=
  (leafFilter u leaf).accepts server doc

theorem Clause.mongoFilter_accepts (server : MongoServer) (doc : MongoDoc) (c : Clause) :
    (c.mongoFilter u).accepts server doc = c.eval (fun _ leaf => docTruth u server doc leaf) := by
  induction c with
  | leaf _ _ => rfl
  | and l r ihl ihr | or l r ihl ihr | andNot _ _ ihl ihr => simp [mongoFilter,MongoFilter.accepts,eval,ihl,ihr]

theorem mongoNumericField_isSome (tag : Nat) : (mongoNumericField tag).isSome ↔
    tag = searchTagSize ∨ tag = searchTagSources ∨ tag = searchTagComplete ∨ tag = searchTagBitrate ∨
      tag = searchTagLength := by
  unfold mongoNumericField
  repeat' split
  all_goals simp_all

/-- The fields of a source document, and those the joined files document adds. -/
def sourceFields : List String :=
  ["name","type","ext","codec","artist","album","title","file_hash","file_size","bitrate","length"]
def joinedFields : List String := ["file.sources","file.completed"]

/-- A filter of field conditions on the side of the join it is marked for. -/
structure FieldsNode (node : MongoNode) (conds : List (String × MongoCond)) : Prop where
  filter : node.filter = some (.fields conds) ∨ node.filter = some (.allOf conds)
  kept : node.prune = false
  fields : ∀ c ∈ conds, c.1 ∈ if node.needsFile then joinedFields else sourceFields

/-- What the combining rules can meet at a childless node. -/
inductive LeafNode (path : Path) (expr : SearchExpr) : MongoNode → Reduced → Prop where
  | pruned : LeafNode path expr { prune := true } .pruned
  | never : LeafNode path expr { filter := some mongoMatchNothing } .never
  | holds (h : FieldsNode node conds) : LeafNode path expr node (.holds (.leaf path expr))

variable (path : Path)

theorem mongoTextNode_leaf (text : Bytes) (expr : SearchExpr) : LeafNode path expr (mongoTextNode u text)
      (if (splitTerms u text).isEmpty then .never else .holds (.leaf path expr)) := by
  split
  next blank =>
    rw [mongoTextNode,if_pos (by simpa using blank)]
    exact .never
  next occupied =>
    rw [mongoTextNode,if_neg (by simpa using occupied)]
    have names : ∀ c ∈ (splitTerms u text).flatMap
        (fun t => (termRuns u t).map (fun run => ("name",regexCond run))), c.1 ∈ sourceFields := by
      simp only [List.mem_flatMap,List.mem_map]
      rintro _ ⟨_,_,_,_,rfl⟩
      simp [sourceFields]
    refine .holds ⟨?_,rfl,names⟩
    simp only [mongoNameRegexFilter]
    split
    · exact .inl rfl
    · exact .inr rfl

theorem one_field (expr : SearchExpr) (cond : MongoCond)
    (known : field ∈ if needsFile then joinedFields else sourceFields) :
    LeafNode path expr ⟨some (.fields [(field,cond)]),needsFile,false⟩ (.holds (.leaf path expr)) :=
  .holds ⟨.inl rfl,rfl,by simpa using known⟩

theorem mongoNumericField_known (h : mongoNumericField tag = some (field,needsFile)) :
    field ∈ if needsFile then joinedFields else sourceFields := by
  unfold mongoNumericField at h
  repeat' split at h
  all_goals simp_all [joinedFields,sourceFields]

theorem mongoFilterNode_leaf (childless : kind ≠ .and ∧ kind ≠ .or ∧ kind ≠ .andNot) :
    LeafNode path (.node kind text tagType value number related left right)
      (mongoFilterNode u (.node kind text tagType value number related left right))
      (reduceLeaf u path kind text tagType value
        (.node kind text tagType value number related left right)) := by
  cases kind with
  | and | or | andNot => simp at childless
  | text => exact mongoTextNode_leaf u path text _
  | string =>
    simp only [mongoFilterNode,reduceLeaf]
    by_cases isText : tagType = searchTypeText
    · rw [if_pos isText,if_pos isText]
      exact mongoTextNode_leaf u path value _
    rw [if_neg isText,if_neg isText]
    split
    next typ => rw [if_pos (by simp [typ])]; exact one_field path _ _ (by decide)
    split
    next ext => rw [if_pos (by simp [ext])]; exact one_field path _ _ (by decide)
    split
    next codec => rw [if_pos (by simp [codec])]; exact one_field path _ _ (by decide)
    have media := mediaStringField_isSome tagType
    cases field : mediaStringField tagType with
    | none =>
      rw [if_neg (by simp_all)]
      exact .pruned
    | some name =>
      rw [if_pos (by simp_all)]
      have known : name ∈ sourceFields := by
        unfold mediaStringField at field
        repeat' split at field
        all_goals simp_all [sourceFields]
      exact one_field path _ _ known
  | uint32 | uint64 =>
    simp only [mongoFilterNode,reduceLeaf]
    cases numericConstraint _ tagType with
    | none => exact .pruned
    | some found =>
      obtain ⟨tag,_⟩ := found
      have known := mongoNumericField_isSome tag
      simp only
      cases column : mongoNumericField tag with
      | none =>
        rw [if_neg (by simp_all)]
        exact .pruned
      | some _ =>
        rw [if_pos (by simp_all)]
        exact one_field path _ _ (mongoNumericField_known column)
  | hash =>
    simp only [mongoFilterNode,reduceLeaf]
    split
    · exact one_field path _ _ (by decide)
    · exact .holds ⟨.inl rfl,rfl,by simp [sourceFields]⟩
  | related | other => exact .pruned

/-- What the combining rules read off a node, in terms of its reduction. -/
structure MongoNode.Shows (node : MongoNode) (r : Reduced) : Prop where
  filter : node.filter = r.mongoFilter u
  prune : node.prune = r.isPruned
  nothing : isMongoMatchNothing node.filter = true ↔ r = .never

theorem fields_not_nothing (h : FieldsNode node conds) : isMongoMatchNothing node.filter = false := by
  have known : ∀ c ∈ conds, c.1 ≠ "_id" := by
    intro c member same
    have field := h.fields c member
    rw [same] at field
    split at field <;> simp [joinedFields,sourceFields] at field
  rcases h.filter with shape | shape
  · have absent : conds.lookup "_id" = none := by
      rw [List.lookup_eq_none_iff]
      intro c member
      simpa using (known c member).symm
    simp [shape,isMongoMatchNothing,absent]
  · simp [shape,isMongoMatchNothing]

theorem shows_of_leaf (expr : SearchExpr) (r : Reduced)
    (h : LeafNode path expr (mongoFilterNode u expr) r) : (mongoFilterNode u expr).Shows u r := by
  generalize shape : mongoFilterNode u expr = node at h
  cases h with
  | pruned => exact ⟨rfl,rfl,by simp [isMongoMatchNothing]⟩
  | never => exact ⟨rfl,rfl,by simp [isMongoMatchNothing,mongoMatchNothing,List.lookup]⟩
  | holds fields =>
    have present : ∃ f, node.filter = some f := by
      rcases fields.filter with filter | filter <;> exact ⟨_,filter⟩
    obtain ⟨_,filter⟩ := present
    refine ⟨?_,by simp [fields.kept,Reduced.isPruned],by simp [fields_not_nothing fields]⟩
    simp [Reduced.mongoFilter,Clause.mongoFilter,leafFilter,shape,filter]

variable (expr : SearchExpr)

/-- The filter is the reduced expression, and it is pruned where the reduction is. -/
theorem mongoFilterNode_shows (path : Path) : (mongoFilterNode u expr).Shows u (reduce u path expr) := by
  induction expr generalizing path with
  | nil => exact ⟨rfl,rfl,by simp [mongoFilterNode,isMongoMatchNothing,reduce]⟩
  | node kind text _ _ _ related left right ihl ihr =>
    by_cases childless : kind ≠ .and ∧ kind ≠ .or ∧ kind ≠ .andNot
    · rw [reduce_childless u path childless]
      apply shows_of_leaf u path
      exact mongoFilterNode_leaf u path childless
    obtain ⟨_,_,_⟩ := ihl (path ++ [false])
    obtain ⟨_,_,_⟩ := ihr (path ++ [true])
    cases kind with
    | and | or | andNot =>
      simp only [mongoFilterNode,combineMongoNodes,reduce]
      generalize reduce u (path ++ [false]) left = l at *
      generalize reduce u (path ++ [true]) right = r at *
      cases l <;> cases r <;> constructor <;>
        simp_all [Reduced.and,Reduced.or,Reduced.andNot,Reduced.isPruned,Reduced.mongoFilter,
          Clause.mongoFilter,isMongoMatchNothing,mongoMatchNothing,List.lookup]
    | text | string | uint32 | uint64 | hash | related | other => simp at childless

/-- A source document with its files document joined in as `file`. -/
def joinedDoc (source file : MongoDoc) : MongoDoc := fun path =>
  if "file.".toList.isPrefixOf path.toList then file (String.ofList (path.toList.drop 5)) else source path

/-- A filter that answers alike before and after the join. -/
def MongoFilter.Local (f : MongoFilter) : Prop :=
  ∀ server source file, f.accepts server (joinedDoc source file) = f.accepts server source

theorem sourceField_local (source file : MongoDoc) (known : field ∈ sourceFields) :
    joinedDoc source file field = source field := by
  have plain : ∀ name ∈ sourceFields, "file.".toList.isPrefixOf name.toList = false := by decide
  simp only [joinedDoc,plain field known]
  rfl

theorem matchNothing_local : mongoMatchNothing.Local := by
  intro _ _ _
  simp [mongoMatchNothing,MongoFilter.accepts,MongoCond.holds]

theorem fieldsNode_local (h : FieldsNode node conds) (unmarked : node.needsFile = false)
    (filter : node.filter = some f) : f.Local := by
  have fields := h.fields
  rw [unmarked] at fields
  intro server source file
  have same : ∀ c ∈ conds, MongoCond.holds server (joinedDoc source file) c =
      MongoCond.holds server source c := by
    intro c member
    simp only [MongoCond.holds,sourceField_local source file (fields c member)]
  have all : conds.all (MongoCond.holds server (joinedDoc source file)) =
      conds.all (MongoCond.holds server source) := by
    rw [Bool.eq_iff_iff,List.all_eq_true,List.all_eq_true]
    exact forall₂_congr (fun c member => by rw [same c member])
  rcases h.filter with shape | shape <;> rw [shape] at filter <;> cases filter <;> exact all

theorem combineMongoNodes_local {l r : MongoNode}
    (locall : ∀ f, l.filter = some f → l.needsFile = false → f.Local)
    (localr : ∀ f, r.filter = some f → r.needsFile = false → f.Local)
    (filter : (combineMongoNodes kind l r).filter = some f)
    (unmarked : (combineMongoNodes kind l r).needsFile = false) : f.Local := by
  have joined : ∀ a b, l.filter = some a → r.filter = some b →
      (l.needsFile || r.needsFile) = false → a.Local ∧ b.Local := by
    intro a b hl hr both
    simp only [Bool.or_eq_false_iff] at both
    exact ⟨locall a hl both.1,localr b hr both.2⟩
  generalize combined : combineMongoNodes kind l r = node at filter unmarked
  unfold combineMongoNodes at combined
  repeat' split at combined
  all_goals subst combined
  all_goals first
    | exact locall f filter unmarked
    | exact localr f filter unmarked
    | (simp at filter; done)
    | (cases filter; exact matchNothing_local)
    | (simp only [bind,pure,Option.bind_eq_some_iff,Option.some.injEq] at filter
       obtain ⟨a,hl,b,hr,rfl⟩ := filter
       obtain ⟨la,lb⟩ := joined a b hl hr unmarked
       intro server source file
       simp [MongoFilter.accepts,la server source file,lb server source file])

theorem mongoFilterNode_local (f : MongoFilter) (filter : (mongoFilterNode u expr).filter = some f)
    (unmarked : (mongoFilterNode u expr).needsFile = false) : f.Local := by
  induction expr generalizing f with
  | nil => simp [mongoFilterNode] at filter
  | node kind text tagType value number related left right ihl ihr =>
    by_cases childless : kind ≠ .and ∧ kind ≠ .or ∧ kind ≠ .andNot
    · have leaf : LeafNode [] _ (mongoFilterNode u (.node kind text tagType value number related left right)) _ :=
        mongoFilterNode_leaf u [] childless
      generalize mongoFilterNode u (.node kind text tagType value number related left right) = node
        at leaf filter unmarked
      generalize reduceLeaf u [] kind text tagType value
        (.node kind text tagType value number related left right) = r at leaf
      cases leaf with
      | pruned => simp at filter
      | never =>
        cases filter
        exact matchNothing_local
      | holds fields => exact fieldsNode_local fields unmarked filter
    · have node : mongoFilterNode u (.node kind text tagType value number related left right) =
          combineMongoNodes kind (mongoFilterNode u left) (mongoFilterNode u right) := by
        cases kind <;> first | rfl | simp at childless
      rw [node] at filter unmarked
      exact combineMongoNodes_local ihl ihr filter unmarked

theorem mongoFilterNode_present (kept : (mongoFilterNode u expr).prune = false) :
    ∃ f, (mongoFilterNode u expr).filter = some f := by
  have shows := mongoFilterNode_shows u expr []
  rw [shows.prune] at kept
  rw [shows.filter]
  cases r : reduce u [] expr <;> simp_all [Reduced.isPruned,Reduced.mongoFilter]

theorem mongoSourceConjunctFilter_childless (childless : kind ≠ .and ∧ kind ≠ .or ∧ kind ≠ .andNot) :
    mongoSourceConjunctFilter u (.node kind text tagType value number related left right) =
      let found := mongoFilter u (.node kind text tagType value number related left right)
      if found.1.isNone || found.2 then none else found.1 := by
  cases kind with
  | and | or | andNot => simp at childless
  | text | string | uint32 | uint64 | hash | related | other => rfl

theorem mongoSourceConjunctFilter_pruned (pruned : (mongoFilterNode u expr).prune = true) :
    mongoSourceConjunctFilter u expr = none := by
  induction expr with
  | nil => rfl
  | node kind text _ _ _ related left right ihl ihr =>
    by_cases childless : kind ≠ .and ∧ kind ≠ .or ∧ kind ≠ .andNot
    · rw [mongoSourceConjunctFilter_childless u childless]
      simp [mongoFilter,pruned]
    cases kind with
    | and =>
      rw [(mongoFilterNode_shows u _ []).prune] at pruned
      simp only [reduce,Reduced.isPruned_and,Bool.and_eq_true] at pruned
      rw [← (mongoFilterNode_shows u left _).prune,← (mongoFilterNode_shows u right _).prune] at pruned
      simp [mongoSourceConjunctFilter,ihl pruned.1,ihr pruned.2]
    | or | andNot => rfl
    | text | string | uint32 | uint64 | hash | related | other => simp at childless

/-- Every document the full filter accepts passes the filter pushed before the join. -/
theorem mongoSourceConjunctFilter_implied (server : MongoServer) (source file : MongoDoc)
    (expr : SearchExpr) (f s : MongoFilter) (pushed : mongoSourceConjunctFilter u expr = some s)
    (filter : (mongoFilterNode u expr).filter = some f) (kept : (mongoFilterNode u expr).prune = false)
    (accepted : f.accepts server (joinedDoc source file) = true) : s.accepts server source = true := by
  induction expr generalizing f s with
  | nil => simp [mongoSourceConjunctFilter] at pushed
  | node kind text tagType value number related left right ihl ihr =>
    by_cases childless : kind ≠ .and ∧ kind ≠ .or ∧ kind ≠ .andNot
    · rw [mongoSourceConjunctFilter_childless u childless] at pushed
      simp [mongoFilter,kept,filter] at pushed
      obtain ⟨unmarked,rfl⟩ := pushed
      rwa [← mongoFilterNode_local u _ f filter unmarked server source file]
    cases kind with
    | and =>
      cases prunel : (mongoFilterNode u left).prune with
      | true =>
        have node : mongoFilterNode u (.node .and text tagType value number related left right) =
            mongoFilterNode u right := by simp [mongoFilterNode,combineMongoNodes,prunel]
        rw [node] at filter kept
        simp only [mongoSourceConjunctFilter,mongoSourceConjunctFilter_pruned u left prunel] at pushed
        exact ihr f s pushed filter kept accepted
      | false =>
        obtain ⟨fl,filterl⟩ := mongoFilterNode_present u left prunel
        cases pruner : (mongoFilterNode u right).prune with
        | true =>
          simp only [mongoFilterNode,combineMongoNodes,prunel,pruner] at filter
          simp only [mongoSourceConjunctFilter,mongoSourceConjunctFilter_pruned u right pruner] at pushed
          exact ihl f s (by revert pushed; cases mongoSourceConjunctFilter u left <;> simp)
            (by simpa using filter) prunel accepted
        | false =>
          obtain ⟨fr,filterr⟩ := mongoFilterNode_present u right pruner
          have both : fl.accepts server (joinedDoc source file) = true ∧
              fr.accepts server (joinedDoc source file) = true := by
            simp [mongoFilterNode,combineMongoNodes,prunel,pruner,filterl,filterr] at filter
            split at filter
            · cases filter
              simp [mongoMatchNothing,MongoFilter.accepts,MongoCond.holds] at accepted
            · cases filter
              simpa [MongoFilter.accepts] using accepted
          cases pushedl : mongoSourceConjunctFilter u left <;>
            cases pushedr : mongoSourceConjunctFilter u right <;>
            simp only [mongoSourceConjunctFilter,pushedl,pushedr,Option.some.injEq,reduceCtorEq] at pushed
          · exact ihr fr s (by rw [pushedr,pushed]) filterr pruner both.2
          · exact ihl fl s (by rw [pushedl,pushed]) filterl prunel both.1
          · subst pushed
            simp [MongoFilter.accepts,ihl fl _ pushedl filterl prunel both.1,
              ihr fr _ pushedr filterr pruner both.2]
    | or | andNot => simp [mongoSourceConjunctFilter] at pushed
    | text | string | uint32 | uint64 | hash | related | other => simp at childless

end

end ENode.Storage
