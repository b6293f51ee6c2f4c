import ENode.ConditionReading
import ENode.ManticoreWords

/-! The three parts a tree is split into for Manticore: a full-text query, a condition on the attributes
and a tree over the counters. Each operator is followed on all three, and what it cannot split it
refuses. -/
namespace ENode.Storage

open GoText FullText List

def AggNode.matches (sources completed : Nat) : AggNode → Bool
  | .nil => true
  | .node kind tag op value left right =>
    match kind with
    | .and => left.matches sources completed && right.matches sources completed
    | .or => left.matches sources completed || right.matches sources completed
    | .andNot => left.matches sources completed && !right.matches sources completed
    | _ => compareSearchValue op (if tag = searchTagComplete then completed else sources) value

/-- Every comparison is by an operator that has a text. -/
def AggNode.Known : AggNode → Prop
  | .nil => True
  | .node _ _ op _ left right => op ≤ searchOpNotEqual ∧ left.Known ∧ right.Known

def aggColumn (tag : Nat) : String := if tag = searchTagComplete then "completed" else "sources"

/-- The one condition the counters can be pushed down as; nothing when they are checked afterwards. -/
def ManticoreQuery.having (q : ManticoreQuery) : String × List SqlArg :=
  match q.agg with
  | .node .uint64 tag op value _ _ =>
    (aggColumn tag ++ " " ++ sqlOperators.getD op "" ++ " ?",[.number (clampInt64 value)])
  | _ => ("",[])

/-- A row of the index with the counters of its file. -/
structure ManticoreRow where
  size : Nat
  bitrate : Nat
  length : Nat
  sources : Nat
  completed : Nat
  type : Bytes
  ext : Bytes
  codec : Bytes

namespace ManticoreRow

def number (row : ManticoreRow) (column : String) : Nat :=
  if column = "size" then row.size
  else if column = "bitrate" then row.bitrate
  else if column = "length" then row.length
  else if column = "completed" then row.completed
  else row.sources

def string (row : ManticoreRow) (column : String) : Bytes :=
  if column = "type" then row.type else if column = "ext" then row.ext else row.codec

def tagValue (row : ManticoreRow) (tag : Nat) : Option Nat :=
  if tag = searchTagSize then some row.size
  else if tag = searchTagSources then some row.sources
  else if tag = searchTagComplete then some row.completed
  else if tag = searchTagBitrate then some row.bitrate
  else if tag = searchTagLength then some row.length
  else none

/-- The comparison of two numbers in SQL. -/
def compare (op : String) (a b : Nat) : Bool :=
  if op = "=" then a == b
  else if op = ">" then decide (a > b)
  else if op = "<" then decide (a < b)
  else if op = ">=" then decide (a ≥ b)
  else if op = "<=" then decide (a ≤ b)
  else a != b

/-- A condition on one column; `same` is the collation strings are compared by. -/
def test (same : Bytes → Bytes → Bool) (row : ManticoreRow) (column op : List Char) : SqlArg → Bool
  | .number value => compare (String.ofList op) (row.number (String.ofList column)) value
  | .text value => String.ofList op == "=" && same (row.string (String.ofList column)) value
  | .blob _ => false

/-- Manticore's integers are signed. -/
def Small (row : ManticoreRow) : Prop := row.size < 2^63 - 1 ∧ row.bitrate < 2^63 - 1 ∧ row.length < 2^63 - 1

end ManticoreRow

/-- The field and text of a leaf that is searched for in full text. -/
def SearchExpr.fullText : SearchExpr → Option (String × Bytes)
  | .node .text text _ _ _ _ _ _ => some ("name",text)
  | .node .string _ tagType valueString _ _ _ _ =>
    if tagType = searchTypeText then some ("name",valueString) else (mediaStringField tagType).map (·,valueString)
  | _ => none

section
variable (u : Unicode)

/-- What a row says to a leaf that is not searched for in full text. -/
def rowTruth (same : Bytes → Bytes → Bool) (row : ManticoreRow) : SearchExpr → Bool
  | .nil => false
  | .node kind _ tagType valueString valueUint _ _ _ =>
    match kind with
    | .string =>
      if tagType = searchTypeFileType then same row.type (normalizeSearchFileType u valueString)
      else if tagType = searchTypeExt then same row.ext valueString
      else if tagType = searchTypeCodec then same row.codec valueString
      else false
    | .uint32 | .uint64 =>
      match numericConstraint kind tagType with
      | none => false
      | some (tag,op) => (row.tagValue tag).elim false (compareSearchValue op · valueUint)
    | _ => false

/-- The truth of a leaf: the row's own for its attributes and counters, any for a text. -/
def leafValue (same : Bytes → Bytes → Bool) (row : ManticoreRow) (truth : Path → SearchExpr → Bool) (path : Path)
    (leaf : SearchExpr) : Bool :=
  if leaf.fullText.isSome then truth path leaf else rowTruth u same row leaf

variable (isContinuousScript : Char → Bool)

def SearchExpr.matchField (leaf : SearchExpr) : List Char := (leaf.fullText.elim "" Prod.fst).toList

def SearchExpr.matchWords (leaf : SearchExpr) : List (List Char) :=
  leafWords isContinuousScript u (leaf.fullText.elim [] Prod.snd)

/-- The full-text query of a clause, each word with the leaf it comes from. -/
def Clause.matchQuery : Clause → Query ((Path × SearchExpr) × List Char)
  | .leaf path expr => .group expr.matchField ((expr.matchWords u isContinuousScript).map ((path,expr),·))
  | .and left right => .and left.matchQuery right.matchQuery
  | .or left right => .or left.matchQuery right.matchQuery
  | .andNot left right => .andNot left.matchQuery right.matchQuery

def Clause.words (c : Clause) : Query (List Char) := (c.matchQuery u isContinuousScript).map Prod.snd

/-- How a node's three parts stand for a clause: the full-text part is the clause `m`, the attribute
part the condition `f`, and a part that is missing accepts everything. -/
structure Parts (n : MNode) (c : Clause) (m : Option Clause) (f : Option (ConditionReading.Condition SqlArg)) :
    Prop where
  kept : n.prune = false
  possible : n.contradiction = false
  supported : n.unsupported = false
  known : n.agg.Known
  matchExpr : n.matchExpr = m.elim [] fun c => encode (c.words u isContinuousScript).text
  filter : n.filter.toList = f.elim [] (·.text)
  args : n.args = f.elim [] (·.args)
  words : ∀ c, m = some c → (c.words u isContinuousScript).Spelled
  columns : ∀ c, f = some c → c.Spelled
  leaves : m.elim [] Clause.leaves = c.leaves.filter fun leaf => leaf.2.fullText.isSome
  value : ∀ same row truth, ManticoreRow.Small row → c.eval (leafValue u same row truth) =
    (m.elim true (Clause.eval truth) && f.elim true (·.eval (row.test same)) && n.agg.matches row.sources row.completed)

end

section
variable {u : Unicode} {script : Char → Bool}

theorem query_text_ne_nil (q : Query (List Char)) : q.text ≠ [] := by
  cases q <;> simp [Query.text]

theorem condition_text_ne_nil (c : ConditionReading.Condition α) : c.text ≠ [] := by
  cases c <;> simp [ConditionReading.Condition.text]

theorem joinMatch_merge (m m' : Option Clause) : joinMatch (m.elim [] fun c => encode (c.words u script).text)
      (m'.elim [] fun c => encode (c.words u script).text) =
    (Option.merge .and m m').elim [] fun c => encode (c.words u script).text := by
  have some_ : ∀ c : Clause, encode (c.words u script).text ≠ [] :=
    fun c none_ => query_text_ne_nil _ ((encode_eq_nil _).mp none_)
  unfold joinMatch
  cases m with
  | none => cases m' <;> rfl
  | some c =>
    rw [Option.elim_some,if_neg (some_ c)]
    cases m' with
    | none => rfl
    | some c' =>
      rw [Option.elim_some,if_neg (some_ c')]
      show _ = encode ((c.words u script).text ++ ' ' :: (c'.words u script).text)
      simp [lit]

theorem joinFilter_merge {l r : String} {f f' : Option (ConditionReading.Condition SqlArg)}
    (left : l.toList = f.elim [] (·.text)) (right : r.toList = f'.elim [] (·.text)) :
    (joinFilter l r).toList = (Option.merge .and f f').elim [] (·.text) := by
  have empty : ∀ s : String, s = "" ↔ s.toList = [] := fun _ => by rw [← String.toList_inj]; rfl
  unfold joinFilter
  cases f with
  | none => rw [if_pos ((empty l).mpr left),right]; cases f' <;> rfl
  | some c =>
    rw [if_neg (fun none_ => condition_text_ne_nil c (left.symm.trans ((empty l).mp none_)))]
    cases f' with
    | none => rw [if_pos ((empty r).mpr right),left]; rfl
    | some c' =>
      rw [if_neg (fun none_ => condition_text_ne_nil c' (right.symm.trans ((empty r).mp none_)))]
      show _ = (ConditionReading.Condition.and c c').text
      simp [ConditionReading.Condition.text,left,right]

theorem joinAgg_matches (a b : AggNode) (sources completed : Nat) :
    (joinAgg .and a b).matches sources completed = (a.matches sources completed && b.matches sources completed) := by
  cases a with
  | nil => rfl
  | node => cases b <;> simp [joinAgg,AggNode.matches]

theorem joinAgg_known {a b : AggNode} (left : a.Known) (right : b.Known) : (joinAgg kind a b).Known := by
  cases a with
  | nil => exact right
  | node =>
    cases b with
    | nil => exact left
    | node => exact ⟨Nat.zero_le _,left,right⟩

theorem merge_eval {eval : α → Bool} (both : ∀ a b, eval (op a b) = (eval a && eval b))
    (m m' : Option α) : (Option.merge op m m').elim true eval = (m.elim true eval && m'.elim true eval) := by
  cases m <;> cases m' <;> simp [Option.merge,both]

theorem merge_list {f : α → List β} (both : ∀ a b, f (op a b) = f a ++ f b)
    (m m' : Option α) : (Option.merge op m m').elim [] f = m.elim [] f ++ m'.elim [] f := by
  cases m <;> cases m' <;> simp [Option.merge,both]

theorem merge_some {P : α → Prop} (both : ∀ a b, P a → P b → P (op a b))
    (left : ∀ a, m = some a → P a) (right : ∀ a, m' = some a → P a) : ∀ a, Option.merge op m m' = some a → P a := by
  intro a merged
  cases m with
  | none => cases m' <;> exact right a merged
  | some c =>
    cases m' with
    | none => exact left a merged
    | some c' =>
      cases merged
      exact both c c' (left c rfl) (right c' rfl)

namespace Parts

variable {l r : MNode} {cl cr : Clause} {ml mr : Option Clause} {fl fr : Option (ConditionReading.Condition SqlArg)}

theorem and (left : Parts u script l cl ml fl) (right : Parts u script r cr mr fr) :
    Parts u script (andManticoreNodes l r) (.and cl cr) (Option.merge .and ml mr) (Option.merge .and fl fr) where
  kept := rfl
  possible := rfl
  supported := rfl
  known := joinAgg_known left.known right.known
  matchExpr := by
    rw [← joinMatch_merge,← left.matchExpr,← right.matchExpr]
    rfl
  filter := joinFilter_merge left.filter right.filter
  args := by
    rw [merge_list (fun _ _ => rfl),← left.args,← right.args]
    rfl
  words := merge_some (fun _ _ first second => ⟨first,second⟩) left.words right.words
  columns := merge_some (fun _ _ first second => ⟨first,second⟩) left.columns right.columns
  leaves := by
    rw [merge_list (fun _ _ => rfl),left.leaves,right.leaves,Clause.leaves,filter_append]
  value := by
    intro same row truth small
    rw [merge_eval (fun _ _ => rfl),
      merge_eval (fun _ _ => rfl)]
    show (cl.eval _ && cr.eval _) = _
    rw [left.value same row truth small,right.value same row truth small]
    show _ = (_ && (joinAgg .and l.agg r.agg).matches row.sources row.completed)
    rw [joinAgg_matches]
    ac_rfl

section
variable (parts : Parts u script l cl ml fl)
include parts

theorem kinds : l.kinds = ⟨ml.isSome,fl.isSome,l.agg != .nil⟩ := by
  have written : (l.matchExpr != []) = ml.isSome := by
    rw [parts.matchExpr]
    cases ml with
    | none => rfl
    | some c =>
      rw [bne_iff_ne.mpr]
      · rfl
      · exact fun none_ => query_text_ne_nil _ ((encode_eq_nil _).mp none_)
  have filtered : (l.filter != "") = fl.isSome := by
    cases shape : fl with
    | none =>
      have none_ := parts.filter
      rw [shape] at none_
      have empty : l.filter = "" := String.toList_inj.mp none_
      rw [empty]
      rfl
    | some c =>
      rw [bne_iff_ne.mpr]
      · rfl
      · intro none_
        have text := parts.filter
        rw [shape,none_] at text
        exact condition_text_ne_nil c text.symm
  rw [MNode.kinds,written,filtered]

theorem matchOnly (only : l.kinds = partMatch) : (∃ c, ml = some c) ∧ fl = none ∧ l.agg = .nil := by
  rw [parts.kinds,partMatch,PartKinds.mk.injEq] at only
  exact ⟨Option.isSome_iff_exists.mp only.1,Option.not_isSome_iff_eq_none.mp (by simp [only.2.1]),
    by simpa using only.2.2⟩

theorem filterOnly (only : l.kinds = partFilter) : ml = none ∧ (∃ c, fl = some c) ∧ l.agg = .nil := by
  rw [parts.kinds,partFilter,PartKinds.mk.injEq] at only
  exact ⟨Option.not_isSome_iff_eq_none.mp (by simp [only.1]),Option.isSome_iff_exists.mp only.2.1,
    by simpa using only.2.2⟩

theorem aggOnly (only : l.kinds = partAgg) : ml = none ∧ fl = none ∧ l.agg ≠ .nil := by
  rw [parts.kinds,partAgg,PartKinds.mk.injEq] at only
  exact ⟨Option.not_isSome_iff_eq_none.mp (by simp [only.1]),Option.not_isSome_iff_eq_none.mp (by simp [only.2.1]),
    by simpa using only.2.2⟩

end

section
variable (left : Parts u script l cl ml fl) (right : Parts u script r cr mr fr)
include left right

theorem orMatch (leftOnly : l.kinds = partMatch) (rightOnly : r.kinds = partMatch) : ∃ m f, Parts u script
      { matchExpr := lit "((" ++ l.matchExpr ++ lit ") | (" ++ r.matchExpr ++ lit "))" } (.or cl cr) m f := by
  obtain ⟨⟨c,rfl⟩,rfl,agg⟩ := left.matchOnly leftOnly
  obtain ⟨⟨c',rfl⟩,rfl,agg'⟩ := right.matchOnly rightOnly
  refine ⟨some (.or c c'),none,rfl,rfl,rfl,trivial,?_,rfl,rfl,?_,?_,?_,fun same row truth small => ?_⟩
  · rw [left.matchExpr,right.matchExpr]
    show _ = encode (Query.or (c.words u script) (c'.words u script)).text
    simp [lit,Query.text]
  · rintro _ ⟨⟩
    exact ⟨left.words c rfl,right.words c' rfl⟩
  · rintro _ ⟨⟩
  · show c.leaves ++ c'.leaves = _
    rw [Clause.leaves,filter_append,← left.leaves,← right.leaves]
    rfl
  · show (cl.eval _ || cr.eval _) = (((c.eval truth || c'.eval truth) && true) && true)
    rw [left.value same row truth small,right.value same row truth small,agg,agg']
    simp [AggNode.matches]

theorem orFilter (leftOnly : l.kinds = partFilter) (rightOnly : r.kinds = partFilter) : ∃ m f, Parts u script
      { filter := "(" ++ l.filter ++ " OR " ++ r.filter ++ ")", args := l.args ++ r.args } (.or cl cr) m f := by
  obtain ⟨rfl,⟨c,rfl⟩,agg⟩ := left.filterOnly leftOnly
  obtain ⟨rfl,⟨c',rfl⟩,agg'⟩ := right.filterOnly rightOnly
  refine ⟨none,some (.or c c'),rfl,rfl,rfl,trivial,rfl,?_,?_,?_,?_,?_,fun same row truth small => ?_⟩
  · show _ = (ConditionReading.Condition.or c c').text
    simp [ConditionReading.Condition.text,left.filter,right.filter]
  · rw [left.args,right.args]
    rfl
  · rintro _ ⟨⟩
  · rintro _ ⟨⟩
    exact ⟨left.columns c rfl,right.columns c' rfl⟩
  · rw [Clause.leaves,filter_append,← left.leaves,← right.leaves]
    rfl
  · show (cl.eval _ || cr.eval _) = ((true && (c.eval (row.test same) || c'.eval (row.test same))) && true)
    rw [left.value same row truth small,right.value same row truth small,agg,agg']
    simp [AggNode.matches]

theorem orAgg (leftOnly : l.kinds = partAgg) (rightOnly : r.kinds = partAgg) :
    ∃ m f, Parts u script { agg := joinAgg .or l.agg r.agg } (.or cl cr) m f := by
  obtain ⟨rfl,rfl,agg⟩ := left.aggOnly leftOnly
  obtain ⟨rfl,rfl,agg'⟩ := right.aggOnly rightOnly
  refine ⟨none,none,rfl,rfl,rfl,joinAgg_known left.known right.known,rfl,rfl,rfl,?_,?_,?_,fun same row truth small => ?_⟩
  · rintro _ ⟨⟩
  · rintro _ ⟨⟩
  · rw [Clause.leaves,filter_append,← left.leaves,← right.leaves]
    rfl
  · show (cl.eval _ || cr.eval _) = (true && true && (joinAgg .or l.agg r.agg).matches row.sources row.completed)
    rw [left.value same row truth small,right.value same row truth small]
    cases first : l.agg with
    | nil => exact absurd first agg
    | node =>
      cases second : r.agg with
      | nil => exact absurd second agg'
      | node => simp [joinAgg,AggNode.matches]

theorem or :
    orManticoreNodes l r = mUnsupported ∨ ∃ m f, Parts u script (orManticoreNodes l r) (.or cl cr) m f := by
  unfold orManticoreNodes
  split_ifs with mixed isMatch isFilter
  · exact .inl rfl
  · rw [not_or,not_not,not_not] at mixed
    exact .inr (left.orMatch right isMatch (mixed.1 ▸ isMatch))
  · rw [not_or,not_not,not_not] at mixed
    exact .inr (left.orFilter right isFilter (mixed.1 ▸ isFilter))
  · rw [not_or,not_not,not_not] at mixed
    have isAgg : l.kinds = partAgg := by
      obtain ⟨_,one⟩ := mixed
      generalize l.kinds = k at one isMatch isFilter
      rcases k with ⟨_ | _,_ | _,_ | _⟩ <;> simp_all [bitsSet,partMatch,partFilter,partAgg]
    exact .inr (left.orAgg right isAgg (mixed.1 ▸ isAgg))

theorem subtractMatch (rightOnly : r.kinds = partMatch) (asked : l.matchExpr ≠ []) : ∃ m f, Parts u script
      { l with matchExpr := l.matchExpr ++ lit " -(" ++ r.matchExpr ++ lit ")" } (.andNot cl cr) m f := by
  obtain ⟨⟨c',rfl⟩,rfl,agg⟩ := right.matchOnly rightOnly
  obtain ⟨c,rfl⟩ : ∃ c, ml = some c := by
    cases shape : ml with
    | none =>
      have none_ := left.matchExpr
      rw [shape] at none_
      exact absurd none_ asked
    | some c => exact ⟨c,rfl⟩
  refine ⟨some (.andNot c c'),fl,{ left with matchExpr := ?_, words := ?_, leaves := ?_, value := fun same row truth small => ?_ }⟩
  · show l.matchExpr ++ lit " -(" ++ r.matchExpr ++ lit ")" = _
    rw [left.matchExpr,right.matchExpr]
    show _ = encode (Query.andNot (c.words u script) (c'.words u script)).text
    simp [lit,Query.text]
  · rintro _ ⟨⟩
    exact ⟨left.words c rfl,right.words c' rfl⟩
  · show c.leaves ++ c'.leaves = _
    rw [Clause.leaves,filter_append,← left.leaves,← right.leaves]
    rfl
  · show (cl.eval _ && !cr.eval _) = ((c.eval truth && !c'.eval truth) && fl.elim true _ && l.agg.matches _ _)
    rw [left.value same row truth small,right.value same row truth small,agg]
    simp only [Option.elim_some,Option.elim_none,AggNode.matches,Bool.and_true]
    ac_rfl

theorem subtractFilter (rightOnly : r.kinds = partFilter) : ∃ m f, Parts u script
      { l with filter := joinFilter l.filter ("NOT (" ++ r.filter ++ ")"), args := l.args ++ r.args }
      (.andNot cl cr) m f := by
  obtain ⟨rfl,⟨c',rfl⟩,agg⟩ := right.filterOnly rightOnly
  refine ⟨ml,Option.merge .and fl (some (.not c')),left.kept,left.possible,left.supported,left.known,left.matchExpr,
    ?_,?_,left.words,?_,?_,fun same row truth small => ?_⟩
  · refine joinFilter_merge left.filter ?_
    show _ = (ConditionReading.Condition.not c').text
    simp [ConditionReading.Condition.text,right.filter]
  · rw [merge_list (fun _ _ => rfl),← left.args]
    show l.args ++ r.args = _
    rw [right.args]
    rfl
  · refine merge_some (fun _ _ first second => ⟨first,second⟩) left.columns ?_
    rintro _ ⟨⟩
    exact right.columns c' rfl
  · rw [Clause.leaves,filter_append,← left.leaves,← right.leaves]
    exact (append_nil _).symm
  · rw [merge_eval (fun _ _ => rfl)]
    show (cl.eval _ && !cr.eval _) = (_ && (fl.elim true _ && !c'.eval (row.test same)) && l.agg.matches _ _)
    rw [left.value same row truth small,right.value same row truth small,agg]
    simp only [Option.elim_some,Option.elim_none,AggNode.matches,Bool.and_true,Bool.true_and]
    ac_rfl

end

theorem aggTrue_matches (sources completed : Nat) : aggTrue.matches sources completed = true := by
  simp [aggTrue,AggNode.matches,compareSearchValue,searchOpGreaterEqual,searchOpEqual,searchOpGreater,searchOpLess]

theorem subtractAgg (left : Parts u script l cl ml fl) (right : Parts u script r cr mr fr)
    (rightOnly : r.kinds = partAgg) : ∃ m f, Parts u script
      { l with agg := .node .andNot 0 0 0 (if l.agg = .nil then aggTrue else l.agg) r.agg } (.andNot cl cr) m f := by
  obtain ⟨rfl,rfl,_⟩ := right.aggOnly rightOnly
  refine ⟨ml,fl,left.kept,left.possible,left.supported,⟨Nat.zero_le _,?_,right.known⟩,left.matchExpr,left.filter,left.args,
    left.words,left.columns,?_,fun same row truth small => ?_⟩
  · split_ifs with missing
    · exact ⟨by decide,trivial,trivial⟩
    · exact left.known
  · rw [Clause.leaves,filter_append,← left.leaves,← right.leaves]
    exact (append_nil _).symm
  · have base : (if l.agg = .nil then aggTrue else l.agg).matches row.sources row.completed =
        l.agg.matches row.sources row.completed := by
      split_ifs with missing
      · rw [missing]
        exact aggTrue_matches ..
      · rfl
    show (cl.eval _ && !cr.eval _) = (_ && _ && ((if l.agg = .nil then aggTrue else l.agg).matches _ _ && !r.agg.matches _ _))
    rw [base,left.value same row truth small,right.value same row truth small]
    simp only [Option.elim_none,Bool.true_and]
    ac_rfl

theorem andNot (left : Parts u script l cl ml fl) (right : Parts u script r cr mr fr) :
    andNotManticoreNodes l r = mUnsupported ∨
    ∃ m f, Parts u script (andNotManticoreNodes l r) (.andNot cl cr) m f := by
  unfold andNotManticoreNodes
  by_cases isMatch : r.kinds = partMatch
  · rw [if_pos isMatch]
    split_ifs with alone
    · exact .inl rfl
    · exact .inr (left.subtractMatch right isMatch alone)
  rw [if_neg isMatch]
  by_cases isFilter : r.kinds = partFilter
  · rw [if_pos isFilter]
    exact .inr (left.subtractFilter right isFilter)
  rw [if_neg isFilter]
  by_cases isAgg : r.kinds = partAgg
  · rw [if_pos isAgg]
    exact .inr (left.subtractAgg right isAgg)
  · exact .inl (if_neg isAgg)

theorem text (letters : QueryLetters u)
    (asked : expr.fullText = some (field,sought)) (plain : ∀ c ∈ field.toList, c ∉ [' ','(',')','|','-'])
    (occupied : leafWords script u sought ≠ []) : Parts u script
      { matchExpr := encode (Query.group field.toList (leafWords script u sought)).text }
      (.leaf path expr) (some (.leaf path expr)) none := by
  have isText : expr.fullText.isSome = true := by rw [asked]; rfl
  have words : Clause.words u script (.leaf path expr) =
      .group field.toList (leafWords script u sought) := by
    simp [Clause.words,Clause.matchQuery,Query.map,SearchExpr.matchField,SearchExpr.matchWords,asked]
  refine ⟨rfl,rfl,rfl,trivial,?_,rfl,rfl,?_,?_,?_,fun _ _ _ _ => ?_⟩
  · show _ = encode _
    rw [words]
  · rintro _ ⟨⟩
    rw [words]
    exact ⟨plain,occupied,(leafWords_plain script letters).1⟩
  · rintro _ ⟨⟩
  · simp [Clause.leaves,isText]
  · simp [Clause.eval,leafValue,isText,AggNode.matches]

theorem condition (notText : expr.fullText = none) (column op : String) (arg : SqlArg)
    (columnWord : ConditionReading.Word column.toList) (opWord : ConditionReading.Word op.toList)
    (same_value : ∀ same row, ManticoreRow.Small row →
      rowTruth u same row expr = row.test same column.toList op.toList arg) :
    Parts u script { filter := column ++ " " ++ op ++ " ?", args := [arg] } (.leaf path expr) none
      (some (.compare column.toList op.toList arg)) := by
  refine ⟨rfl,rfl,rfl,trivial,rfl,?_,rfl,?_,?_,?_,fun same row _ small => ?_⟩
  · simp [ConditionReading.Condition.text]
  · rintro _ ⟨⟩
  · rintro _ ⟨⟩
    exact ⟨columnWord,opWord⟩
  · simp [Clause.leaves,notText]
  · simp [Clause.eval,leafValue,notText,AggNode.matches,ConditionReading.Condition.eval,same_value same row small]

theorem counter (notText : expr.fullText = none) (tag op value : Nat) (valid : op ≤ searchOpNotEqual)
    (same_value : ∀ same row, rowTruth u same row expr =
      (AggNode.node .uint64 tag op value .nil .nil).matches row.sources row.completed) :
    Parts u script { agg := .node .uint64 tag op value .nil .nil } (.leaf path expr) none none := by
  refine ⟨rfl,rfl,rfl,⟨valid,trivial,trivial⟩,rfl,rfl,rfl,?_,?_,?_,fun _ _ _ _ => ?_⟩
  · rintro _ ⟨⟩
  · rintro _ ⟨⟩
  · simp [Clause.leaves,notText]
  · simp [Clause.eval,leafValue,notText,same_value]

end Parts

end

end ENode.Storage
