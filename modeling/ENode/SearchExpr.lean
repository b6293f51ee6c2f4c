import ENode.GoText

/-! Files, search expressions and the per-file matcher of the memory engine. A search
expression is a tree of nodes that all carry every field, and a child may be nil. -/
namespace ENode.Storage

open GoText

structure MetaInfo where
  kind : Nat
  version : Nat
  fileIndex : Nat
  filePath : Bytes
  totalSize : Nat
  catalogID : Bytes
  seeders : Nat
  peers : Nat
  ageDays : Nat
  indexer : Bytes
  flags : Nat
  magnet : Bytes
  network : Nat
  deriving DecidableEq, Inhabited

structure File where
  hash : Bytes := []
  name : Bytes := []
  size : Nat := 0
  type : Bytes := []
  sources : Nat := 0
  completed : Nat := 0
  title : Bytes := []
  artist : Bytes := []
  album : Bytes := []
  runtime : Nat := 0
  bitrate : Nat := 0
  codec : Bytes := []
  sourceID : Nat := 0
  sourcePort : Nat := 0
  metaInfo : Option MetaInfo := none
  deriving DecidableEq, Inhabited

/-- A hash and a size; size 0 means any size. -/
structure FileKey where
  hash : Bytes
  size : Nat
  deriving DecidableEq, Inhabited

inductive SearchKind where
  | text | and | or | andNot | string | uint32 | uint64 | hash | related
  | other (value : Nat)
  deriving DecidableEq

/-- `nil` is the nil pointer. -/
inductive SearchExpr where
  | nil
  | node (kind : SearchKind) (text : Bytes) (tagType : Nat) (valueString : Bytes)
      (valueUint : Nat) (related : List FileKey) (left right : SearchExpr)
  deriving DecidableEq

namespace SearchExpr

def ofText (text : Bytes) : SearchExpr := .node .text text 0 [] 0 [] .nil .nil
def ofString (tagType : Nat) (value : Bytes) : SearchExpr := .node .string [] tagType value 0 [] .nil .nil
def ofUint32 (tagType value : Nat) : SearchExpr := .node .uint32 [] tagType [] value [] .nil .nil

/-- A node with a kind and children and every other field zero. -/
def ofOperator (kind : SearchKind) (left right : SearchExpr) : SearchExpr :=
  .node kind [] 0 [] 0 [] left right

end SearchExpr

def maxSearchResults : Nat := 1000

def searchTypeText : Nat := 0x0000ff
def searchTypeFileType : Nat := 0x030001
def searchTypeExt : Nat := 0x040001
def searchTypeArtist : Nat := 0xd00001
def searchTypeAlbum : Nat := 0xd10001
def searchTypeTitle : Nat := 0xd20001
def searchTypeCodec : Nat := 0xd50001

def searchOpEqual : Nat := 0
def searchOpGreater : Nat := 1
def searchOpLess : Nat := 2
def searchOpGreaterEqual : Nat := 3
def searchOpLessEqual : Nat := 4
def searchOpNotEqual : Nat := 5

def searchTagSize : Nat := 0x02
def searchTagSources : Nat := 0x15
def searchTagComplete : Nat := 0x30
def searchTagLength : Nat := 0xd3
def searchTagBitrate : Nat := 0xd4

/-- The tag and operator of a numeric leaf: operator, tag-name length (always 1) and
tag id are the bytes of the little-endian tag type. -/
def numericConstraint (kind : SearchKind) (tagType : Nat) : Option (Nat × Nat) :=
  if kind ≠ .uint32 ∧ kind ≠ .uint64 then none
  else if tagType / 2^8 % 2^16 ≠ 1 then none
  else if tagType % 2^8 > searchOpNotEqual then none
  else some (tagType / 2^24 % 2^8,tagType % 2^8)

def compareSearchValue (op got want : Nat) : Bool :=
  if op = searchOpEqual then got == want
  else if op = searchOpGreater then decide (got > want)
  else if op = searchOpLess then decide (got < want)
  else if op = searchOpGreaterEqual then decide (got ≥ want)
  else if op = searchOpLessEqual then decide (got ≤ want)
  else got != want

/-- The stored field an artist, album or title leaf matches. -/
def mediaStringField (tagType : Nat) : Option String :=
  if tagType = searchTypeArtist then some "artist"
  else if tagType = searchTypeAlbum then some "album"
  else if tagType = searchTypeTitle then some "title"
  else none

section
variable (u : Unicode)

def splitTerms (text : Bytes) : List Bytes := fields u (trimSpace u text)

/-- One iteration of `alnumRuns`: the runs so far and the builder. -/
def alnumStep (state : List Bytes × Bytes) (r : Char × Bytes) : List Bytes × Bytes :=
  if u.alnum r.1 then (state.1,state.2 ++ String.utf8EncodeChar r.1)
  else if state.2.length > 0 then (state.1 ++ [state.2],[])
  else state

def alnumRuns (s : Bytes) : List Bytes :=
  let state := (runes s).foldl (alnumStep u) ([],[])
  if state.2.length > 0 then state.1 ++ [state.2] else state.1

def termRuns (term : Bytes) : List Bytes :=
  if (alnumRuns u term).length > 0 then alnumRuns u term else [term]

/-- The runs a text leaf asks for; none when it holds no term. The source keeps them per
leaf, which changes no answer. -/
def textRuns (text : Bytes) : List Bytes :=
  (splitTerms u text).flatMap (fun t => termRuns u (toLower u t))

def matchText (text lowerName : Bytes) : Bool :=
  !(textRuns u text).isEmpty && (textRuns u text).all (contains lowerName)

def fileExt (name : Bytes) : Bytes :=
  if ext name = [] then [] else toLower u ((ext name).drop 1)

def normalizeSearchFileType (typ : Bytes) : Bytes :=
  if equalFold u typ (lit "Arc") || equalFold u typ (lit "Iso") then lit "Pro" else typ

def containsFold (s needle : Bytes) : Bool := contains (toLower u s) (toLower u needle)

def matchHashLeaf (valueString : Bytes) (valueUint : Nat) (file : File) : Bool :=
  if file.hash ≠ valueString then false else valueUint == 0 || file.size == valueUint

/-- Whether a file matches, and whether the node carries no constraint and is removed. -/
def matchNode (file : File) (lowerName : Bytes) : SearchExpr → Bool × Bool
  | .nil => (false,true)
  | .node kind text tagType valueString valueUint _ left right =>
    match kind with
    | .text => (matchText u text lowerName,false)
    | .string =>
      if tagType = searchTypeText then (matchText u valueString lowerName,false)
      else if tagType = searchTypeFileType then
        (equalFold u (normalizeSearchFileType u file.type) (normalizeSearchFileType u valueString),false)
      else if tagType = searchTypeExt then (equalFold u (fileExt u file.name) valueString,false)
      else if tagType = searchTypeCodec then (equalFold u file.codec valueString,false)
      else if tagType = searchTypeArtist then (containsFold u file.artist valueString,false)
      else if tagType = searchTypeAlbum then (containsFold u file.album valueString,false)
      else if tagType = searchTypeTitle then (containsFold u file.title valueString,false)
      else (false,true)
    | .uint32 | .uint64 =>
      match numericConstraint kind tagType with
      | none => (false,true)
      | some (tag,op) =>
        if tag = searchTagSize then (compareSearchValue op file.size valueUint,false)
        else if tag = searchTagSources then (compareSearchValue op file.sources valueUint,false)
        else if tag = searchTagComplete then (compareSearchValue op file.completed valueUint,false)
        else if tag = searchTagBitrate then (compareSearchValue op file.bitrate valueUint,false)
        else if tag = searchTagLength then (compareSearchValue op file.runtime valueUint,false)
        else (false,true)
    | .hash => (matchHashLeaf valueString valueUint file,false)
    | .and | .or | .andNot =>
      let l := matchNode file lowerName left
      let r := matchNode file lowerName right
      if kind = .andNot then
        if r.2 then l
        else if l.2 then (false,true)
        else (l.1 && !r.1,false)
      else if l.2 then r
      else if r.2 then (l.1,false)
      else if kind = .or then (l.1 || r.1,false)
      else (l.1 && r.1,false)
    | .related | .other _ => (false,true)

/-- A query made of unsupported tags only matches nothing. -/
def searchMatch (expr : SearchExpr) (file : File) : Bool :=
  let result := matchNode u file (toLower u file.name) expr
  if result.2 then false else result.1

def matchSearchExpr (expr : SearchExpr) (file : File) : Bool :=
  if expr = .nil then false else searchMatch u expr file

/-- Pruning is decided by the tree alone, so the empty file decides it. -/
def searchPrunes (expr : SearchExpr) : Bool := (matchNode u {} [] expr).2

end

end ENode.Storage
