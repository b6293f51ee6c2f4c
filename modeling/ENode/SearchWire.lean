import ENode.KeywordForms
import ENode.MetaQuery
import ENode.SearchAgreement
import ENode.TagsOnTheWire

/-! Search expressions on the wire: operators before their operands, leaves with a tag name of any
length, read with a bound on the nesting and on the number of leaves. -/
namespace ENode.Ed2k

open GoText Storage ByteNumbers List

def maxSearchExprDepth : Nat := 24
def maxSearchExprLeaves : Nat := 64

inductive SearchError where
  | buffer (err : BufferError)
  | tooDeep
  | tooManyLeaves
  | unknownToken (token : UInt8)
  deriving DecidableEq

/-- `deepest` is the deepest level that was called. After an error `rest` says nothing. -/
structure SearchState where
  rest : Bytes
  leaves : Nat := 0
  deepest : Nat := 0

/-- The counter is shared by all levels, so it outlives an error. -/
abbrev SearchParser (α : Type) := ExceptT SearchError (StateM SearchState) α

namespace SearchParser

variable {α β : Type}

def reading (r : Reading α) : SearchParser α := fun s =>
  match r s.rest with
  | .ok (v,rest) => (.ok v,{ s with rest := rest })
  | .error e => (.error (.buffer e),s)

def enter (depth : Nat) : SearchParser Unit := fun s => (.ok (),{ s with deepest := max s.deepest depth })

/-- Counted before the leaf is read. -/
def countLeaf : SearchParser Unit := fun s =>
  (if s.leaves + 1 > maxSearchExprLeaves then .error .tooManyLeaves else .ok (),{ s with leaves := s.leaves + 1 })

end SearchParser

/-- The length of a tag name, and its byte if it has just one. -/
def readSearchTagName : Reading (Nat × Nat) := do
  let nameLen ← getUInt 2
  let name ← getText nameLen
  return (nameLen,if nameLen = 1 then (name.headD 0).toNat else 0)

/-- Operator, name length and tag id as the bytes of one number. -/
def readSearchNumericType : Reading Nat := do
  let op ← getUInt8
  let (nameLen,code) ← readSearchTagName
  return op.toNat + nameLen * 2^8 + code * 2^24

section
variable (u : Unicode)

def specialKeywordLeaf (s : Bytes) : Option SearchExpr :=
  match parseRelatedTerm u s with
  | some seeds => some (.node .related [] 0 [] 0 seeds .nil .nil)
  | none => (parseHashTerm u s).map fun (hash,size) => .node .hash [] 0 hash size [] .nil .nil

def keywordLeaf (s : Bytes) : SearchExpr := (specialKeywordLeaf u s).getD (.ofText s)

/-- A string whose tag says it is a keyword may be a special one. -/
def stringLeaf (typ : Nat) (s : Bytes) : SearchExpr :=
  if typ = searchTypeText then (specialKeywordLeaf u s).getD (.ofString typ s) else .ofString typ s

def readStringLeaf : Reading SearchExpr := do
  let s ← getString
  let (nameLen,code) ← readSearchTagName
  return stringLeaf u (nameLen + code * 2^16) s

def readUint32Leaf : Reading SearchExpr := do
  let v ← getUInt 4
  let typ ← readSearchNumericType
  return .node .uint32 [] typ [] v [] .nil .nil

def readUint64Leaf : Reading SearchExpr := do
  let lo ← getUInt 4
  let hi ← getUInt 4
  let typ ← readSearchNumericType
  return .node .uint64 [] typ [] (lo + hi * 2^32) [] .nil .nil

def parseSearchLeaf (token : UInt8) : SearchParser SearchExpr :=
  if token = 0x01 then .reading (do return keywordLeaf u (← getString))
  else if token = 0x02 then .reading (readStringLeaf u)
  else if token = 0x03 then .reading readUint32Leaf
  else if token = 0x08 then .reading readUint64Leaf
  else throw (.unknownToken token)

def operatorKind (op : UInt8) : SearchKind := if op = 0x01 then .or else if op = 0x02 then .andNot else .and

/-- What a token starts; the operands of an operator are one level deeper. -/
def parseSearchToken (deeper : SearchParser SearchExpr) (token : UInt8) : SearchParser SearchExpr :=
  if token = 0x00 then do
    let op ← .reading getUInt8
    let left ← deeper
    let right ← deeper
    return SearchExpr.ofOperator (operatorKind op) left right
  else do
    .countLeaf
    parseSearchLeaf u token

/-- `parseSearchExpr` with that many levels left before the limit. -/
def parseSearchLevels : Nat → SearchParser SearchExpr
  | 0 => do
    .enter maxSearchExprDepth
    throw .tooDeep
  | levels+1 => do
    .enter (maxSearchExprDepth - (levels + 1))
    parseSearchToken u (parseSearchLevels levels) (← .reading getUInt8)

def parseSearchExpr (b : Bytes) : Except SearchError SearchExpr × SearchState :=
  parseSearchLevels u maxSearchExprDepth { rest := b }

end

/-- An expression as it is written, with its tag names in full. -/
inductive WireExpr where
  | keyword (text : Bytes)
  | string (value name : Bytes)
  | uint32 (value : Nat) (op : UInt8) (name : Bytes)
  | uint64 (value : Nat) (op : UInt8) (name : Bytes)
  | operator (op : UInt8) (left right : WireExpr)

namespace WireExpr

def text (s : Bytes) : Bytes := leBytes 2 s.length ++ s

def encode : WireExpr → Bytes
  | .keyword s => [0x01] ++ text s
  | .string value name => [0x02] ++ (text value ++ text name)
  | .uint32 value op name => [0x03] ++ (leBytes 4 value ++ ([op] ++ text name))
  | .uint64 value op name =>
    [0x08] ++ (leBytes 4 (value % 2^32) ++ (leBytes 4 (value / 2^32) ++ ([op] ++ text name)))
  | .operator op left right => [0x00] ++ ([op] ++ (left.encode ++ right.encode))

def leaves : WireExpr → Nat
  | .operator _ left right => left.leaves + right.leaves
  | _ => 1

def depth : WireExpr → Nat
  | .operator _ left right => max left.depth right.depth + 1
  | _ => 1

/-- The fields of the wire form hold it. -/
def Fits : WireExpr → Prop
  | .keyword s => s.length < 2^16
  | .string value name => value.length < 2^16 ∧ name.length < 2^16
  | .uint32 value _ name => value < 2^32 ∧ name.length < 2^16
  | .uint64 value _ name => value < 2^64 ∧ name.length < 2^16
  | .operator _ left right => left.Fits ∧ right.Fits

def tagName : WireExpr → Option Bytes
  | .string _ name | .uint32 _ _ name | .uint64 _ _ name => some name
  | _ => none

def isString : WireExpr → Bool
  | .string _ _ => true
  | _ => false

/-- The id a one-byte name is. -/
def code (name : Bytes) : Nat := if name.length = 1 then (name.headD 0).toNat else 0

def stringType (name : Bytes) : Nat := name.length + code name * 2^16

def numericType (op : UInt8) (name : Bytes) : Nat := op.toNat + name.length * 2^8 + code name * 2^24

def tree : WireExpr → SearchExpr
  | .keyword s => .ofText s
  | .string value name => .ofString (stringType name) value
  | .uint32 value op name => .node .uint32 [] (numericType op name) [] value [] .nil .nil
  | .uint64 value op name => .node .uint64 [] (numericType op name) [] value [] .nil .nil
  | .operator op left right => .ofOperator (operatorKind op) left.tree right.tree

section
variable (u : Unicode)

/-- The tree that is read, where a special keyword is what it asks for. -/
def expr : WireExpr → SearchExpr
  | .keyword s => keywordLeaf u s
  | .string value name => stringLeaf u (stringType name) value
  | .operator op left right => .ofOperator (operatorKind op) left.expr right.expr
  | .uint32 value op name => (uint32 value op name).tree
  | .uint64 value op name => (uint64 value op name).tree

/-- No keyword is a hash or a related search. -/
def Plain : WireExpr → Prop
  | .keyword s => specialKeywordLeaf u s = none
  | .string value name => stringType name = searchTypeText → specialKeywordLeaf u value = none
  | .operator _ left right => left.Plain ∧ right.Plain
  | _ => True

theorem expr_plain (w : WireExpr) (plain : w.Plain u) : w.expr u = w.tree := by
  induction w with
  | keyword s => simp only [expr,keywordLeaf,show specialKeywordLeaf u s = none from plain,Option.getD_none,tree]
  | string _ _ =>
    simp only [expr,stringLeaf,tree]
    split
    · next typed => rw [plain typed,Option.getD_none]
    · rfl
  | uint32 | uint64 => rfl
  | operator _ _ _ ihl ihr => simp only [expr,tree,ihl plain.1,ihr plain.2]

end

end WireExpr

namespace SearchParser

variable {α β : Type}

theorem bind_ok {f : α → SearchParser β} {s after : SearchState}
    (first : p s = (.ok v,after)) : (p >>= f) s = f v after := by
  change ExceptT.bindCont f (p s).1 (p s).2 = _
  rw [first]
  rfl

theorem bind_error {f : α → SearchParser β} {s after : SearchState}
    (first : p s = (.error e,after)) : (p >>= f) s = (.error e,after) := by
  change ExceptT.bindCont f (p s).1 (p s).2 = _
  rw [first]
  rfl

/-- The bytes stand for the value and hold that many leaves. -/
def Parses (p : SearchParser α) (bytes : Bytes) (v : α) (leaves : Nat) : Prop :=
  ∀ (s : SearchState) (rest : Bytes), s.rest = bytes ++ rest → s.leaves + leaves ≤ maxSearchExprLeaves →
    ∃ deepest, p s = (.ok v,{ rest := rest, leaves := s.leaves + leaves, deepest := deepest })

namespace Parses

theorem pure (v : α) : Parses (Pure.pure v) [] v 0 := by
  rintro ⟨_,_,deepest⟩ _ rfl _
  exact ⟨deepest,rfl⟩

theorem bind (first : Parses p bytes v m) (then' : Parses (f v) more w n) : Parses (p >>= f) (bytes ++ more) w (m + n) := by
  intro s rest before _
  obtain ⟨deepest,middle⟩ := first s (more ++ rest) (by rw [before,append_assoc]) (by omega)
  obtain ⟨after,last⟩ := then' ⟨more ++ rest,s.leaves + m,deepest⟩ rest rfl (by simp only; omega)
  refine ⟨after,?_⟩
  rw [bind_ok middle,last,Nat.add_assoc]

theorem reading (reads : Cursor.Reads r bytes v) : Parses (.reading r) bytes v 0 := by
  rintro ⟨_,_,deepest⟩ rest rfl _
  refine ⟨deepest,?_⟩
  simp only [SearchParser.reading,reads rest,Nat.add_zero]

theorem enter (depth : Nat) : Parses (.enter depth) [] () 0 := by
  rintro ⟨_,_,deepest⟩ _ rfl _
  exact ⟨max deepest depth,rfl⟩

theorem countLeaf : Parses .countLeaf [] () 1 := by
  rintro ⟨_,_,deepest⟩ _ rfl room
  refine ⟨deepest,?_⟩
  simp only [SearchParser.countLeaf,if_neg (Nat.not_lt.mpr room)]

end Parses

/-- What every parse keeps to: the leaf above the limit and the level at it are refused. -/
structure InLimits (out : Except SearchError α × SearchState) : Prop where
  leaves : out.2.leaves ≤ maxSearchExprLeaves ∨
    out.2.leaves = maxSearchExprLeaves + 1 ∧ out.1 = .error .tooManyLeaves
  deepest : out.2.deepest < maxSearchExprDepth ∨ out.2.deepest = maxSearchExprDepth ∧ out.1 = .error .tooDeep

def Bounded (p : SearchParser α) : Prop :=
  ∀ s : SearchState, s.leaves ≤ maxSearchExprLeaves → s.deepest < maxSearchExprDepth → InLimits (p s)

namespace Bounded

theorem pure (v : α) : Bounded (Pure.pure v) := fun _ few shallow => ⟨.inl few,.inl shallow⟩

theorem throw (e : SearchError) : Bounded (MonadExcept.throw e : SearchParser α) := fun _ few shallow => ⟨.inl few,.inl shallow⟩

theorem bind (first : Bounded p) (then' : ∀ v, Bounded (f v)) : Bounded (p >>= f) := by
  intro s few shallow
  have within := first s few shallow
  rcases result : p s with ⟨v | v,after⟩
  · rw [result] at within
    rw [bind_error result]
    exact ⟨within.leaves.imp_right (fun h => ⟨h.1,by cases h.2; rfl⟩),
      within.deepest.imp_right (fun h => ⟨h.1,by cases h.2; rfl⟩)⟩
  · rw [result] at within
    rw [bind_ok result]
    -- a parse that goes on has not been refused
    exact then' v after (within.leaves.resolve_right (fun h => by cases h.2))
      (within.deepest.resolve_right (fun h => by cases h.2))

theorem reading (r : Reading α) : Bounded (.reading r) := by
  intro _ few shallow
  unfold SearchParser.reading
  split <;> exact ⟨.inl few,.inl shallow⟩

theorem enter (shallower : depth < maxSearchExprDepth) : Bounded (.enter depth) :=
  fun _ few shallow => ⟨.inl few,.inl (max_lt shallow shallower)⟩

theorem countLeaf : Bounded .countLeaf := by
  intro s few shallow
  refine ⟨?_,.inl shallow⟩
  by_cases more : s.leaves + 1 > maxSearchExprLeaves
  · refine .inr ⟨?_,?_⟩
    · exact Nat.le_antisymm (Nat.succ_le_succ few) more
    · simp only [SearchParser.countLeaf,if_pos more]
  · exact .inl (Nat.not_lt.mp more)

end Bounded

end SearchParser

section
variable (u : Unicode)

open SearchParser

theorem parseSearchLeaf_bounded (token : UInt8) : Bounded (parseSearchLeaf u token) := by
  unfold parseSearchLeaf
  repeat' split
  all_goals first
    | exact Bounded.reading _
    | exact Bounded.throw _

variable (levels : Nat)

theorem parseSearchLevels_bounded : Bounded (parseSearchLevels u levels) := by
  induction levels with
  | zero => exact fun _ few shallow => ⟨.inl few,.inr ⟨max_eq_right shallow.le,rfl⟩⟩
  | succ _ ih =>
    refine (Bounded.enter (by simp only [maxSearchExprDepth]; omega)).bind fun _ => (Bounded.reading _).bind fun token => ?_
    unfold parseSearchToken
    split
    · exact (Bounded.reading _).bind fun _ => ih.bind fun _ => ih.bind fun _ => Bounded.pure _
    · exact Bounded.countLeaf.bind fun _ => parseSearchLeaf_bounded u token

variable {name : Bytes}

theorem readSearchTagName_reads (short : name.length < 2^16) :
    Cursor.Reads readSearchTagName (WireExpr.text name) (name.length,WireExpr.code name) :=
  (getUInt_reads short).bind ((Cursor.Reads.exactlyAll _ name).andReturn _)

theorem readSearchNumericType_reads (op : UInt8) (short : name.length < 2^16) :
    Cursor.Reads readSearchNumericType ([op] ++ WireExpr.text name) (WireExpr.numericType op name) :=
  (getUInt8_reads op).bind ((readSearchTagName_reads short).andReturn _)

variable {e : SearchExpr}

theorem level_parses (parses : Parses (parseSearchToken u (parseSearchLevels u levels) token) bytes e leaves) :
    Parses (parseSearchLevels u (levels + 1)) ([token] ++ bytes) e leaves := by
  have whole := (Parses.enter (maxSearchExprDepth - (levels + 1))).bind
    (f := fun _ => SearchParser.reading getUInt8 >>= parseSearchToken u (parseSearchLevels u levels))
    ((Parses.reading (getUInt8_reads token)).bind parses)
  rwa [nil_append,Nat.zero_add,Nat.zero_add] at whole

theorem leaf_parses (isLeaf : token ≠ 0)
    (reader : parseSearchLeaf u token = .reading r) (reads : Cursor.Reads r bytes e) :
    Parses (parseSearchLevels u (levels + 1)) ([token] ++ bytes) e 1 := by
  have rest : Parses (parseSearchToken u (parseSearchLevels u levels) token) bytes e 1 := by
    rw [parseSearchToken,if_neg isLeaf,reader]
    exact Parses.countLeaf.bind (f := fun _ => SearchParser.reading r) (Parses.reading reads)
  exact level_parses u levels rest

theorem parseSearchLevels_encode (w : WireExpr) (fits : w.Fits) (levels : Nat) (shallow : w.depth ≤ levels) :
    Parses (parseSearchLevels u levels) w.encode (w.expr u) w.leaves := by
  induction w generalizing levels with
  | keyword _ =>
    obtain ⟨levels,rfl⟩ := Nat.exists_eq_add_of_le' shallow
    exact leaf_parses u levels (by decide) rfl ((getString_reads fits).andReturn _)
  | string value name =>
    obtain ⟨levels,rfl⟩ := Nat.exists_eq_add_of_le' shallow
    exact leaf_parses u levels (by decide) rfl
      ((getString_reads fits.1).bind ((readSearchTagName_reads fits.2).andReturn _))
  | uint32 value op name =>
    obtain ⟨levels,rfl⟩ := Nat.exists_eq_add_of_le' shallow
    exact leaf_parses u levels (by decide) rfl
      ((getUInt_reads fits.1).bind ((readSearchNumericType_reads op fits.2).andReturn _))
  | uint64 value op name =>
    obtain ⟨levels,rfl⟩ := Nat.exists_eq_add_of_le' shallow
    have low : value % 2^32 < 256 ^ 4 := Nat.mod_lt _ (by decide)
    have high : value / 2^32 < 256 ^ 4 := Nat.div_lt_of_lt_mul fits.1
    have whole : value % 2^32 + value / 2^32 * 2^32 = value := Nat.mod_add_div' value (2^32)
    have reads : Cursor.Reads readUint64Leaf
        (leBytes 4 (value % 2^32) ++ (leBytes 4 (value / 2^32) ++ ([op] ++ WireExpr.text name)))
        (.node .uint64 [] (WireExpr.numericType op name) [] (value % 2^32 + value / 2^32 * 2^32) [] .nil .nil) :=
      (getUInt_reads low).bind ((getUInt_reads high).bind ((readSearchNumericType_reads op fits.2).andReturn _))
    rw [whole] at reads
    exact leaf_parses u levels (by decide) rfl reads
  | operator op left right ihl ihr =>
    obtain ⟨levels,rfl⟩ := Nat.exists_eq_add_of_le' (Nat.one_le_of_lt shallow)
    have deep : max left.depth right.depth ≤ levels := Nat.le_of_succ_le_succ shallow
    have first := ihl fits.1 levels (le_trans (le_max_left ..) deep)
    have second := ihr fits.2 levels (le_trans (le_max_right ..) deep)
    have both := first.bind (f := fun l => do return SearchExpr.ofOperator (operatorKind op) l (← parseSearchLevels u levels))
      (second.bind (Parses.pure (SearchExpr.ofOperator (operatorKind op) (left.expr u) (right.expr u))))
    have operands := (Parses.reading (getUInt8_reads op)).bind
      (f := fun op => do return SearchExpr.ofOperator (operatorKind op) (← parseSearchLevels u levels) (← parseSearchLevels u levels))
      both
    rw [append_nil,Nat.zero_add,Nat.add_zero] at operands
    exact level_parses u levels operands

theorem parseSearchExpr_encode {w : WireExpr} (rest : Bytes) (fits : w.Fits) (few : w.leaves ≤ maxSearchExprLeaves)
    (shallow : w.depth ≤ maxSearchExprDepth) :
    (parseSearchExpr u (w.encode ++ rest)).1 = .ok (w.expr u) ∧ (parseSearchExpr u (w.encode ++ rest)).2.rest = rest := by
  obtain ⟨_,parsed⟩ := parseSearchLevels_encode u w fits maxSearchExprDepth shallow
    { rest := w.encode ++ rest } rest rfl (by simpa using few)
  rw [parseSearchExpr,parsed]
  exact ⟨rfl,rfl⟩

/-- No translation has a part for the node, and it is no keyword of any. -/
structure Unsupported (e : SearchExpr) : Prop where
  matcher : ∀ file lowerName, (matchNode u file lowerName e).2 = true
  sql : ∀ dialect, (buildSearchNode u dialect e).prune = true
  mongo : (mongoFilterNode u e).prune = true
  manticore : ∀ isContinuousScript, (manticoreNode u isContinuousScript e).prune = true
  anchor : ∀ minTok, (searchAnchor u minTok e).prune = true
  query : ∀ q : Meta.Query, q.walk u e = q
  excluded : Meta.excludeTerms u e = none
  related : findRelated e = none

theorem unsupported_of_prunes (pruned : searchPrunes u e = true)
    (query : ∀ q : Meta.Query, q.walk u e = q) (excluded : Meta.excludeTerms u e = none)
    (related : findRelated e = none) : Unsupported u e := by
  have reduced := pruned
  rw [searchPrunes_reduce u e []] at reduced
  refine ⟨?_,?_,?_,?_,?_,query,excluded,related⟩
  · intro _ _
    rw [matchNode_prune,pruned]
  · intro dialect
    rw [buildSearchNode_reduce u dialect e [],
      (Reduced.whereNode_flags u dialect _ (fun _ h => (reduce_leaves u _ _ h).2)).1,reduced]
  · rw [(mongoFilterNode_shows u e []).prune,reduced]
  · intro isContinuousScript
    rw [manticoreNode_prune u isContinuousScript e [],reduced]
  · intro _
    rw [anchor_prune,pruned]

theorem numericType_unknown (kind : SearchKind) (op : UInt8) (short : name.length < 2^16)
    (notOne : name.length ≠ 1) : numericConstraint kind (WireExpr.numericType op name) = none := by
  have one := op.toNat_lt
  have length : WireExpr.numericType op name / 2^8 % 2^16 = name.length := by
    simp only [WireExpr.numericType,WireExpr.code,if_neg notOne]
    omega
  unfold numericConstraint
  rw [length,if_pos notOne]
  split <;> rfl

theorem numeric_unsupported (numeric : kind = .uint32 ∨ kind = .uint64) {tagType : Nat}
    (unknown : numericConstraint kind tagType = none) (value : Nat) :
    Unsupported u (.node kind [] tagType [] value [] .nil .nil) := by
  rcases numeric with rfl | rfl
  all_goals
    refine unsupported_of_prunes u ?_ ?_ rfl rfl
    · simp only [searchPrunes,matchNode,unknown]
    · intro _
      simp only [Meta.Query.walk,unknown,Meta.Query.bound]

theorem string_unsupported (small : typ < 2^16) (notText : typ ≠ searchTypeText) (value : Bytes) :
    Unsupported u (.ofString typ value) := by
  have known : ∀ n, 2^16 ≤ n → typ ≠ n := by
    intro _ _
    omega
  refine unsupported_of_prunes u ?_ ?_ ?_ rfl
  · simp only [searchPrunes,matchNode,SearchExpr.ofString,if_neg notText,if_neg (known searchTypeFileType (by decide)),
      if_neg (known searchTypeExt (by decide)),if_neg (known searchTypeCodec (by decide)),
      if_neg (known searchTypeArtist (by decide)),if_neg (known searchTypeAlbum (by decide)),
      if_neg (known searchTypeTitle (by decide))]
  · intro _
    simp only [SearchExpr.ofString,Meta.Query.walk,if_neg notText,if_neg (known searchTypeFileType (by decide))]
  · simp only [SearchExpr.ofString,Meta.excludeTerms,if_neg notText]

theorem text_supported (value : Bytes) : ¬Unsupported u (stringLeaf u searchTypeText value) := by
  intro dropped
  rw [stringLeaf,if_pos rfl,specialKeywordLeaf] at dropped
  split at dropped
  · next seeds special =>
    have none_ : findRelated (.node .related [] 0 [] 0 seeds .nil .nil) = none := dropped.related
    have some_ : seeds.length > 0 := by
      unfold parseRelatedTerm at special
      dsimp only at special
      split at special
      · cases special
      split at special
      · next nonempty =>
        cases special
        exact nonempty
      · cases special
    rw [findRelated,if_pos some_] at none_
    cases none_
  · have kept := dropped.matcher {} []
    cases hash : parseHashTerm u value with
    | some | none =>
      rw [hash] at kept
      cases kept

theorem tagged_unsupported_iff {w : WireExpr} (fits : w.Fits) (named : w.tagName = some name)
    (notOne : name.length ≠ 1) : Unsupported u (w.expr u) ↔ ¬(w.isString = true ∧ name.length = 255) := by
  cases w with
  | keyword | operator => cases named
  | uint32 value op tag =>
    cases named
    exact ⟨fun _ no => (by cases no.1),
      fun _ => numeric_unsupported u (.inl rfl) (numericType_unknown .uint32 op fits.2 notOne) value⟩
  | uint64 value op tag =>
    cases named
    exact ⟨fun _ no => (by cases no.1),
      fun _ => numeric_unsupported u (.inr rfl) (numericType_unknown .uint64 op fits.2 notOne) value⟩
  | string value _ =>
    cases named
    have typ : WireExpr.stringType name = name.length := by
      simp only [WireExpr.stringType,WireExpr.code,if_neg notOne,Nat.zero_mul,Nat.add_zero]
    rw [WireExpr.expr,typ]
    by_cases long : name.length = 255
    · rw [long]
      exact ⟨fun dropped => absurd dropped (text_supported u value),fun no => absurd ⟨rfl,rfl⟩ no⟩
    · rw [stringLeaf,if_neg (show name.length ≠ searchTypeText from long)]
      exact ⟨fun _ no => long no.2,fun _ => string_unsupported u fits.2 long value⟩

/-- Reading inverts writing within the limits, every input is held to the limits, and a leaf whose tag name
is not one byte is dropped by every translation unless it is a string under a name of 255 bytes. -/
theorem search_wire_read_back :
    (∀ (w : WireExpr) (rest : Bytes), w.Fits → w.leaves ≤ maxSearchExprLeaves → w.depth ≤ maxSearchExprDepth →
      w.Plain u → (parseSearchExpr u (w.encode ++ rest)).1 = .ok w.tree ∧
        (parseSearchExpr u (w.encode ++ rest)).2.rest = rest) ∧
    (∀ b, InLimits (parseSearchExpr u b)) ∧
    ∀ (w : WireExpr) (name rest : Bytes), w.Fits → w.tagName = some name → name.length ≠ 1 →
      ∃ e, (parseSearchExpr u (w.encode ++ rest)).1 = .ok e ∧
        (Unsupported u e ↔ ¬(w.isString = true ∧ name.length = 255)) := by
  refine ⟨?_,?_,?_⟩
  · intro w rest fits few shallow plain
    have out := parseSearchExpr_encode u rest fits few shallow
    rwa [w.expr_plain u plain] at out
  · intro b
    exact parseSearchLevels_bounded u maxSearchExprDepth { rest := b } (Nat.zero_le _) (Nat.zero_lt_succ _)
  · intro w _ rest fits named notOne
    have leaf : w.leaves = 1 ∧ w.depth = 1 := by
      cases w <;> first
        | exact ⟨rfl,rfl⟩
        | cases named
    refine ⟨w.expr u,(parseSearchExpr_encode u rest fits ?_ ?_).1,tagged_unsupported_iff u fits named notOne⟩
    · rw [leaf.1]
      decide
    · rw [leaf.2]
      decide

end

/-- The word `a` and a size above 5 read back, and a string under a name of two bytes is dropped. -/
theorem search_wire_read_back_two :
    let w : WireExpr := .operator 0 (.keyword (lit "a")) (.uint32 5 1 [2])
    let odd : WireExpr := .string (lit "b") (lit "xy")
    (parseSearchExpr Unicode.ascii (w.encode ++ [9])).1 = .ok w.tree ∧
      (parseSearchExpr Unicode.ascii (w.encode ++ [9])).2.rest = [9] ∧
      ∃ e, (parseSearchExpr Unicode.ascii (odd.encode ++ [9])).1 = .ok e ∧ Unsupported Unicode.ascii e := by
  intro w odd
  obtain ⟨reads,_,drops⟩ := search_wire_read_back Unicode.ascii
  have fits : w.Fits := ⟨show (lit "a").length < 2^16 by decide,by decide,by decide⟩
  have plain : specialKeywordLeaf Unicode.ascii (lit "a") = none := by decide +kernel
  obtain ⟨parsed,left⟩ := reads w [9] fits (by decide) (by decide) ⟨plain,trivial⟩
  obtain ⟨e,read,iff⟩ := drops odd (lit "xy") [9] ⟨by decide,by decide⟩ rfl (by decide)
  exact ⟨parsed,left,e,read,iff.mpr fun both => absurd both.2 (by decide)⟩

/-- The word `a` under a tag named by 255 bytes is a keyword, and finds a file named `a`. -/
theorem long_name_is_keyword :
    let w := WireExpr.string (lit "a") (replicate 255 0x78)
    w.Fits ∧ w.tagName = some (replicate 255 0x78) ∧
      (parseSearchExpr Unicode.ascii w.encode).1 = .ok (.ofString searchTypeText (lit "a")) ∧
      searchMatch Unicode.ascii (.ofString searchTypeText (lit "a")) { name := lit "a" } = true ∧
      ¬Unsupported Unicode.ascii (.ofString searchTypeText (lit "a")) := by
  intro w
  have fits : w.Fits := by
    constructor
    · decide
    · rw [length_replicate]
      decide
  have plain : specialKeywordLeaf Unicode.ascii (lit "a") = none := by decide +kernel
  have typed : WireExpr.stringType (replicate 255 0x78) = searchTypeText := by
    rw [WireExpr.stringType,WireExpr.code,length_replicate]
    rfl
  have read : w.expr Unicode.ascii = .ofString searchTypeText (lit "a") := by
    rw [w.expr_plain Unicode.ascii (fun _ => plain)]
    exact congrArg (SearchExpr.ofString · (lit "a")) typed
  have parsed := (parseSearchExpr_encode Unicode.ascii [] fits (by decide) (by decide)).1
  rw [append_nil,read] at parsed
  have kept := text_supported Unicode.ascii (lit "a")
  rw [stringLeaf,if_pos rfl,plain] at kept
  exact ⟨fits,rfl,parsed,by decide +kernel,kept⟩

end ENode.Ed2k
