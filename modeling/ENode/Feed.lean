import ENode.MetaQuery

/-! One daemon's published set, held in memory and kept current by a stream of messages, and the
search over it. Conversion and validation of a daemon's rows are a parameter. -/
namespace ENode.Meta

open GoText Storage

/-- What the rows are read with: `entryToFile` converts a row or rejects it and always sets `Meta`;
`fileIndexWholeSet32` marks the row that stands for a whole release. -/
structure RowFormat (E : Type) where
  entryToFile : E → Option File
  fileIndexWholeSet32 : Nat

/-- A row's `Meta`, which no row of a feed lacks. -/
def rowInfo (row : File) : MetaInfo := row.metaInfo.getD default

/-- A row with its name in lower case. -/
structure FeedRow (u : Unicode) where
  file : File
  lname : Bytes := toLower u file.name
  lowered : lname = toLower u file.name := by rfl

inductive ChangeOp where
  | unspecified | upsert | delete
  deriving DecidableEq

structure Change (E : Type) where
  catalogId : Bytes
  op : ChangeOp
  entries : List E := []

/-- `SubscribeResponse`; a cursor of 0 is none. -/
structure StreamMessage (E : Type) where
  reset : Bool := false
  changes : List (Change E) := []
  snapshotEnd : Bool := false
  cursor : Nat := 0

/-- `seen` collects the ids a snapshot re-sent, between reset and snapshot end. -/
structure Feed (u : Unicode) where
  maxRows : Nat
  releases : GoMap Bytes (List (FeedRow u)) := ∅
  rows : Int := 0
  cursor : Nat := 0
  seen : Option (List Bytes) := none

section
variable {E : Type} (fmt : RowFormat E)

def isWholeSet (row : File) : Bool := (rowInfo row).fileIndex == fmt.fileIndexWholeSet32

def subFileSeparator : Bytes := lit " - "

/-- The name of a whole-set row, by catalogue id; the last one counts. -/
def releaseRoots (rows : List File) : GoMap Bytes Bytes :=
  rows.foldl (fun roots row => if isWholeSet fmt row then roots.insert (rowInfo row).catalogID row.name else roots) ∅

def nameSubFile (roots : GoMap Bytes Bytes) (row : File) : File :=
  if isWholeSet fmt row then row
  else
    match roots.lookup (rowInfo row).catalogID with
    | none => row
    | some root =>
      { row with name := root ++ subFileSeparator ++ if (rowInfo row).filePath = [] then row.name else (rowInfo row).filePath }

def nameSubFiles (rows : List File) : List File := rows.map (nameSubFile fmt (releaseRoots fmt rows))

variable (u : Unicode)

def matchRelease (expr : SearchExpr) (rows : List File) : List File :=
  match rows.find? (fun row => isWholeSet fmt row && matchSearchExpr u expr row) with
  | some row => [row]
  | none => rows.filter (fun row => !isWholeSet fmt row && matchSearchExpr u expr row)

def containsAll (s : Bytes) (terms : List Bytes) : Bool := terms.all (contains s)

/-- Best-seeded first, then by name. -/
def feedLess (a b : File) : Bool :=
  if (rowInfo a).seeders ≠ (rowInfo b).seeders then decide ((rowInfo a).seeders > (rowInfo b).seeders) else decide (a.name < b.name)

variable {u}

namespace Feed

/-- The rows of a release that pass the prefilter. -/
def candidates (rows : List (FeedRow u)) (lower : List Bytes) : List File :=
  (rows.filter (fun row => containsAll row.lname lower)).map FeedRow.file

/-- What `Match` finds before it sorts and cuts; `order` is the order the map is visited in. -/
def found (expr : SearchExpr) (terms : List Bytes) (order : List (Bytes × List (FeedRow u))) : List File :=
  order.flatMap fun release =>
    let held := candidates release.2 (terms.map (toLower u))
    if held.length > 0 then matchRelease fmt u expr held else []

/-- `Match`. -/
def matchRows (expr : SearchExpr) (terms : List Bytes) (limit : Int) (order : List (Bytes × List (FeedRow u))) : List File :=
  if limit ≤ 0 then []
  else ((found fmt expr terms order).mergeSort (fun a b => !feedLess b a)).take limit.toNat

def removeLocked (f : Feed u) (id : Bytes) : Feed u :=
  match f.releases.lookup id with
  | some rows => { f with rows := f.rows - rows.length, releases := f.releases.erase id }
  | none => f

def convert (entries : List E) : List (FeedRow u) :=
  (nameSubFiles fmt (entries.filterMap fmt.entryToFile)).map fun file => { file := file }

def addLocked (f : Feed u) (id : Bytes) (entries : List E) : Feed u :=
  let rows : List (FeedRow u) := convert fmt entries
  if rows.length = 0 then f
  else if f.rows + rows.length > f.maxRows then f
  else { f with releases := f.releases.insert id rows, rows := f.rows + rows.length }

def reset (f : Feed u) : Feed u := { f with releases := ∅, rows := 0, seen := some [] }

def change (f : Feed u) (c : Change E) : Feed u :=
  let f := f.removeLocked c.catalogId
  if c.op ≠ .upsert then f
  else ({ f with seen := f.seen.map (c.catalogId :: ·) } : Feed u).addLocked fmt c.catalogId c.entries

/-- Drops whatever the snapshot did not re-send. -/
def snapshotEnd (f : Feed u) : Feed u :=
  match f.seen with
  | none => f
  | some seen =>
    { (f.releases.keys.foldl (fun f id => if seen.contains id then f else f.removeLocked id) f) with seen := none }

def advance (f : Feed u) (cursor : Nat) : Feed u := if cursor > f.cursor then { f with cursor := cursor } else f

def apply (f : Feed u) (msg : StreamMessage E) : Feed u :=
  let f := if msg.reset then f.reset else f
  let f := msg.changes.foldl (change fmt) f
  let f := if msg.snapshotEnd then f.snapshotEnd else f
  f.advance msg.cursor

def after (f : Feed u) : Nat := if f.seen.isSome then 0 else f.cursor

end Feed

end

end ENode.Meta
