import ENode.FileMeta
import ENode.NameIndexSearch

/-! The memory engine. Records live in a slab and are named by id; `files` holds the first
record of each hash, the other sizes hang off it through `next`, and the sources of a hash,
whatever size they offer, are one list on its first record. -/
namespace ENode.Storage

open GoText

def hashLen : Nat := 16
def maxWireSources : Nat := 255
def disconnectChunk : Nat := 1000

structure ClientInfo where
  id : Nat := 0
  ipv4 : Nat := 0
  port : Nat := 0
  hash : Bytes := []
  lowID : Bool := false
  storeID : Nat := 0
  cryptOptions : Nat := 0
  ipv6 : Bytes := []
  ipv6Reachable : Bool := false
  deriving DecidableEq, Inhabited

structure Source where
  id : Nat
  port : Nat
  userHash : Bytes
  cryptOptions : Nat
  ipv6 : Bytes
  ipv6Reachable : Bool
  deriving DecidableEq

abbrev HashKey := { key : Bytes // key.length = hashLen }

/-- The hash cut or padded with zeros to its fixed length. -/
def hashArray (hash : Bytes) : HashKey :=
  ⟨(hash ++ List.replicate hashLen 0).take hashLen,by simp⟩

abbrev MapKey := HashKey × Nat

def fileMapKey (hash : Bytes) (size : Nat) : MapKey := (hashArray hash,size)

def File.mapKey (f : File) : MapKey := fileMapKey f.hash f.size

structure MemMedia where
  title : Bytes := []
  artist : Bytes := []
  album : Bytes := []
  codec : Bytes := []
  typ : Bytes := []
  runtime : Nat := 0
  bitrate : Nat := 0
  metaInfo : Option MetaInfo := none
  deriving DecidableEq

/-- `shared` marks the identity a session's sources point at; two of them are the same
pointer when their sessions are the same. -/
structure MemPeer where
  storeID : Nat
  hash : Bytes
  ipv6 : Bytes
  shared : Bool := false
  deriving DecidableEq

structure MemSource where
  peer : MemPeer
  size : Nat
  id : Nat
  port : Nat
  crypt : Nat
  complete : Bool
  ipv6Reachable : Bool
  deriving DecidableEq

/-- A slot of the slab. A free slot is the default record. -/
structure MemRec where
  name : Bytes := []
  media : Option MemMedia := none
  first : Option MemSource := none
  size : Nat := 0
  hash : HashKey := hashArray []
  next : Option Nat := none
  typ : Nat := 0
  hashLen : Nat := 0
  live : Bool := false
  more : Bool := false
  sibling : Bool := false
  deriving DecidableEq

def memFileTypes : List Bytes := ["","Image","Audio","Video","Pro","Doc"].map lit
def memTypeOther : Nat := 0xff

structure MemClient where
  info : ClientInfo
  peer : MemPeer
  offered : List Nat := []

structure MemoryEngine where
  nextClientID : Nat := 0
  clients : GoMap Nat MemClient := ∅
  clientsByHash : GoMap Bytes Nat := ∅
  files : GoMap HashKey Nat := ∅
  count : Nat := 0
  recs : List MemRec := []
  more : GoMap Nat (List MemSource) := ∅
  dead : List Nat := []
  free : List Nat := []
  names : NameIndex := {}
  layout : Nat := 0

def newMemPeer (info : ClientInfo) : MemPeer :=
  { storeID := info.storeID, hash := info.hash, ipv6 := info.ipv6 }

namespace MemSource

def source (s : MemSource) : Source :=
  ⟨s.id,s.port,s.peer.hash,s.crypt,s.peer.ipv6,s.ipv6Reachable⟩

/-- A source answers a lookup by size unless both name a size and they differ. -/
def answers (size : Nat) (s : MemSource) : Bool := size == 0 || s.size == 0 || s.size == size

/-- The same session offering again, or another one at the same address. -/
def same (src s : MemSource) : Bool :=
  (src.peer.storeID != 0 && s.peer.storeID == src.peer.storeID) || (s.id == src.id && s.port == src.port)

def ofSession (storeID : Nat) (s : MemSource) : Bool := storeID != 0 && s.peer.storeID == storeID

end MemSource

/-- Writes a file into a record, leaving its sources and its place in the chain alone. -/
def setRecLocked (file : File) (r : MemRec) : MemRec :=
  let typ := (memFileTypes.findIdx? (· == file.type)).getD memTypeOther
  let media : MemMedia :=
    { title := file.title, artist := file.artist, album := file.album, codec := file.codec
      typ := if typ = memTypeOther then file.type else []
      runtime := file.runtime, bitrate := file.bitrate, metaInfo := file.metaInfo }
  { r with
    name := file.name
    size := file.size
    hash := hashArray file.hash
    hashLen := min file.hash.length Storage.hashLen
    live := true
    typ := typ
    media := if media = {} then none else some media }

namespace MemoryEngine

def record (e : MemoryEngine) (id : Nat) : MemRec := e.recs.getD id {}

def modifyRec (e : MemoryEngine) (id : Nat) (f : MemRec → MemRec) : MemoryEngine :=
  { e with recs := e.recs.modify id f }

def modifyClient (e : MemoryEngine) (storeID : Nat) (f : MemClient → MemClient) : MemoryEngine :=
  match e.clients.lookup storeID with
  | none => e
  | some c => { e with clients := e.clients.insert storeID (f c) }

def moreOf (e : MemoryEngine) (head : Nat) : List MemSource := (e.more.lookup head).getD []

/-- The records of a hash in the order its chain links them. -/
def chain (e : MemoryEngine) (key : HashKey) : List Nat :=
  Slab.follow (fun id => (e.record id).next) e.recs.length (e.files.lookup key)

def findLocked (e : MemoryEngine) (key : HashKey) (size : Nat) : Option Nat :=
  (e.chain key).find? (fun id => (e.record id).size == size)

def hashIDsLocked (e : MemoryEngine) : HashLookup := fun hash size =>
  (e.chain (hashArray hash)).filter (fun id => size == 0 || (e.record id).size == size)

/-- The sources of the hash whose first record is `head`, in offer order. -/
def eachSourceLocked (e : MemoryEngine) (head : Nat) : List MemSource :=
  match (e.record head).first with
  | none => []
  | some first => first :: if (e.record head).more then e.moreOf head else []

def headLocked (e : MemoryEngine) (id : Nat) : Nat :=
  if (e.record id).sibling then (e.files.lookup (e.record id).hash).getD 0 else id

def capSourcesLocked (e : MemoryEngine) (head size : Nat) : List Source :=
  let more := if (e.record head).more then e.moreOf head else []
  let newer := (more.reverse.filter (MemSource.answers size)).take maxWireSources
  let oldest := (e.record head).first.toList.filter (fun s =>
    decide (newer.length < maxWireSources) && s.answers size)
  (newer ++ oldest).map MemSource.source

/-- One source counted into a file's live fields. A file stored without a size counts
every source, but is named only one that offered it that way. -/
def countSource (f : File) (s : MemSource) : File :=
  if f.size ≠ 0 ∧ s.size ≠ 0 ∧ s.size ≠ f.size then f
  else
    let f := { f with
      sources := f.sources + 1
      completed := if s.complete then f.completed + 1 else f.completed }
    if s.size = 0 ∨ s.size = f.size then { f with sourceID := s.id, sourcePort := s.port } else f

def liveFieldsLocked (e : MemoryEngine) (f : File) (head : Nat) : File :=
  (e.eachSourceLocked head).foldl countSource
    { f with sources := 0, completed := 0, sourceID := 0, sourcePort := 0 }

def stored (r : MemRec) : File :=
  let md := r.media.getD {}
  { hash := r.hash.1.take r.hashLen
    name := r.name
    size := r.size
    type := if r.typ = memTypeOther then md.typ else memFileTypes.getD r.typ []
    title := md.title, artist := md.artist, album := md.album, codec := md.codec
    runtime := md.runtime, bitrate := md.bitrate, metaInfo := md.metaInfo }

def fileLocked (e : MemoryEngine) (id : Nat) : File :=
  e.liveFieldsLocked (stored (e.record id)) (e.headLocked id)

/-- Any session that holds the id answers when there is no hash to ask for. -/
def isConnected (e : MemoryEngine) (info : ClientInfo) : Bool :=
  if info.hash.length > 0 then (e.clientsByHash.lookup info.hash).isSome
  else (GoMap.pairs e.clients).any (fun c => c.2.info.id == info.id)

def connect (e : MemoryEngine) (info : ClientInfo) : MemoryEngine × Nat :=
  let storeID := e.nextClientID + 1
  let info := { info with storeID := storeID }
  ({ e with
      nextClientID := storeID
      clients := e.clients.insert storeID { info := info, peer := { newMemPeer info with shared := true } }
      clientsByHash := if info.hash.length > 0 then e.clientsByHash.insert info.hash storeID
        else e.clientsByHash },storeID)

/-- The session a caller without a store id means: by user hash, else by the id when
exactly one session holds it. -/
def resolveStoreIDLocked (e : MemoryEngine) (info : ClientInfo) : Nat :=
  if info.hash.length > 0 then (e.clientsByHash.lookup info.hash).getD 0
  else match (GoMap.pairs e.clients).filter (fun c => c.2.info.id == info.id) with
    | [(storeID,_)] => storeID
    | _ => 0

def storeIDOf (e : MemoryEngine) (info : ClientInfo) : Nat :=
  if info.storeID = 0 then e.resolveStoreIDLocked info else info.storeID

def forgetOfferLocked (e : MemoryEngine) (owner taker head : Nat) : MemoryEngine :=
  if owner = 0 ∨ owner = taker then e
  else e.modifyClient owner (fun c => { c with offered := c.offered.erase head })

def setFirst (e : MemoryEngine) (head : Nat) (first : Option MemSource) : MemoryEngine :=
  e.modifyRec head (fun r => { r with first := first })

/-- The sources after the first, in a map entry that exists when there are any. -/
def setMore (e : MemoryEngine) (head : Nat) (more : List MemSource) : MemoryEngine :=
  if more = [] then { e.modifyRec head (fun r => { r with more := false }) with more := e.more.erase head }
  else { e.modifyRec head (fun r => { r with more := true }) with more := e.more.insert head more }

/-- Adds a source in the place of the first one that is the same, if any, and at the end;
true when the session had a source there. -/
def putSourceLocked (e : MemoryEngine) (head : Nat) (src : MemSource) : MemoryEngine × Bool :=
  let own := src.peer.storeID
  match (e.record head).first with
  | none => (e.setFirst head (some src),false)
  | some first =>
    if (e.record head).more = false then
      if src.same first then
        ((e.forgetOfferLocked first.peer.storeID own head).setFirst head (some src),first.ofSession own)
      else (e.setMore head [src],false)
    else
      let more := e.moreOf head
      let had := first.ofSession own || more.any (MemSource.ofSession own)
      if src.same first then
        (((e.forgetOfferLocked first.peer.storeID own head).setFirst head more.head?).setMore head
          (more.tail ++ [src]),had)
      else match more.find? src.same with
        | some taken =>
          ((e.forgetOfferLocked taken.peer.storeID own head).setMore head (more.eraseP src.same ++ [src]),had)
        | none => (e.setMore head (more ++ [src]),had)

def removeSourcesOfLocked (storeID : Nat) (e : MemoryEngine) (head : Nat) : MemoryEngine :=
  match (e.record head).first with
  | none => e
  | some first =>
    let more := if (e.record head).more then
      (e.moreOf head).filter (fun s => s.peer.storeID != storeID) else []
    let gone := first.peer.storeID == storeID
    let e' := e.setFirst head (if gone then more.head? else some first)
    if (e.record head).more then e'.setMore head (if gone then more.tail else more) else e'

def removeAllSourcesOfLocked (e : MemoryEngine) (storeID : Nat) : MemoryEngine :=
  (List.range e.recs.length).foldl (removeSourcesOfLocked storeID) e

/-- Appends with none of the take-over rules, as an import does. -/
def appendSourceLocked (e : MemoryEngine) (head : Nat) (src : MemSource) : MemoryEngine :=
  match (e.record head).first with
  | none => e.setFirst head (some src)
  | some _ => e.setMore head (e.moreOf head ++ [src])

/-- A free id, or a new slot. -/
def allocLocked (e : MemoryEngine) : MemoryEngine × Nat :=
  match e.free.getLast? with
  | some id => ({ e with free := e.free.dropLast },id)
  | none => ({ e with recs := e.recs ++ [{}] },e.recs.length)

/-- Puts a file in its record and returns the first record of its hash. -/
def storeFileLocked (u : Unicode) (e : MemoryEngine) (file : File) : MemoryEngine × Nat :=
  let key := hashArray file.hash
  match e.findLocked key file.size with
  | some id =>
    ({ e.modifyRec id (setRecLocked file) with
        names := e.names.renameFile u id (e.record id).name file.name },(e.files.lookup key).getD 0)
  | none =>
    let (a,id) := e.allocLocked
    let a := { a.modifyRec id (setRecLocked file) with
      count := a.count + 1
      names := a.names.indexName u id file.name }
    match e.files.lookup key with
    | none => ({ a with files := a.files.insert key id },id)
    | some head =>
      let last := (e.chain key).getLast?.getD head
      ((a.modifyRec last (fun r => { r with next := some id })).modifyRec id
        (fun r => { r with sibling := true }),head)

/-- Takes a record out of its chain; its id is dead until the name index lets go of it. -/
def unlinkRec (e : MemoryEngine) (id : Nat) : MemoryEngine :=
  let gone := e.record id
  if (e.files.lookup gone.hash).getD 0 = id then
    match gone.next with
    | some next => { e.modifyRec next (fun r => { r with sibling := false }) with
        files := e.files.insert gone.hash next }
    | none => { e with files := e.files.erase gone.hash }
  else match (e.chain gone.hash).find? (fun prev => (e.record prev).next == some id) with
    | some prev => e.modifyRec prev (fun r => { r with next := gone.next })
    | none => e

def removeRecLocked (u : Unicode) (e : MemoryEngine) (id : Nat) : MemoryEngine :=
  let a := e.unlinkRec id
  { a.modifyRec id (fun _ => {}) with
    names := a.names.removeFile u (e.record id).name
    dead := a.dead ++ [id]
    count := a.count - 1 }

/-- The new id of a record in the dense layout; none for a slot that holds no file. -/
def renumber (e : MemoryEngine) (id : Nat) : Option Nat :=
  if (e.record id).live then some (Slab.rank (·.live) e.recs id) else none

/-- `renumber[id] - 1` on 32 bits. -/
def renumbered (e : MemoryEngine) (id : Nat) : Nat := (e.renumber id).getD (2^32 - 1)

def rebuildIndexLocked (u : Unicode) (e : MemoryEngine) : MemoryEngine :=
  let recs := (e.recs.filter (·.live)).map (fun r => { r with next := r.next.bind e.renumber })
  { e with
    recs := recs
    names := recs.zipIdx.foldl (fun x r => x.indexName u r.2 r.1.name) {}
    files := e.files.mapVals e.renumbered
    more := e.more.rekey e.renumbered
    clients := e.clients.mapVals (fun c => { c with offered := c.offered.filterMap e.renumber })
    dead := []
    free := []
    layout := e.layout + 1 }

def maintainIndexLocked (u : Unicode) (e : MemoryEngine) : MemoryEngine :=
  let e := if e.dead.length > 0 then
    { e with
      names := e.names.purge (fun id => !(e.record id).live)
      free := e.free ++ e.dead
      dead := [] } else e
  if e.names.needsRebuild then e.rebuildIndexLocked u else e

/-- Replaces every file by the given ones, in the order a map visit yields them. -/
def installFilesLocked (u : Unicode) (e : MemoryEngine) (files : List File) : MemoryEngine :=
  files.foldl (fun e file => (e.storeFileLocked u file).1)
    { e with
      files := ∅, more := ∅, recs := [], names := {}, dead := [], free := [], count := 0
      layout := e.layout + 1
      clients := e.clients.mapVals (fun c => { c with offered := [] }) }

/-- The source an offer adds. It points at the session's identity unless the offer names
another hash or address than the session connected with. -/
def offeredSource (client : Option MemClient) (info : ClientInfo) (storeID : Nat) (file : File) : MemSource :=
  let own := newMemPeer { info with storeID := storeID }
  { peer := match client with
      | some c => if c.peer.hash = info.hash ∧ c.peer.ipv6 = info.ipv6 then c.peer else own
      | none => own
    size := file.size
    id := info.id
    port := info.port
    crypt := info.cryptOptions
    complete := decide (file.completed > 0)
    ipv6Reachable := info.ipv6Reachable }

/-- An offer of a session that is gone is refused. -/
def addFileLocked (u : Unicode) (info : ClientInfo) (e : MemoryEngine) (file : File) : MemoryEngine :=
  let storeID := e.storeIDOf info
  let client := e.clients.lookup storeID
  if client.isNone ∧ info.storeID ≠ 0 then e
  else
    let file := normalizeFile u file
    let (a,head) := e.storeFileLocked u file
    let (b,had) := a.putSourceLocked head (offeredSource client info storeID file)
    if !had && client.isSome then
      b.modifyClient storeID (fun c => { c with offered := c.offered ++ [head] })
    else b

/-- The lock is taken per batch; a batch is a run of `addFileLocked`. -/
def addFiles (u : Unicode) (e : MemoryEngine) (files : List File) (info : ClientInfo) : MemoryEngine :=
  files.foldl (addFileLocked u info) e

inductive CleanupError where
  | maxAgeNotPositive (got : Int)
  deriving DecidableEq

/-- One turn of the sweep: a live record goes when its hash has no source. -/
def cleanupSlot (u : Unicode) (state : MemoryEngine × Nat) (id : Nat) : MemoryEngine × Nat :=
  let e := state.1
  if (e.record id).live then
    if (e.record (e.headLocked id)).first.isNone then (e.removeRecLocked u id,state.2 + 1) else state
  else state

def cleanupStale (u : Unicode) (e : MemoryEngine) (maxAge : Int) (keepZeroSourceFiles : Bool) :
    MemoryEngine × Except CleanupError Nat :=
  if maxAge ≤ 0 then (e,.error (.maxAgeNotPositive maxAge))
  else
    let swept := if keepZeroSourceFiles then (e,0)
      else (List.range e.recs.length).foldl (cleanupSlot u) (e,0)
    (swept.1.maintainIndexLocked u,.ok swept.2)

/-- What is left of a `Disconnect` that has released the lock. -/
structure Pending where
  storeID : Nat
  rest : List Nat
  layout : Nat

/-- Removes the sources of one chunk; none when the list is done. -/
def removeChunk (e : MemoryEngine) (p : Pending) : MemoryEngine × Option Pending :=
  ((p.rest.take disconnectChunk).foldl (removeSourcesOfLocked p.storeID) e,
    if p.rest.drop disconnectChunk = [] then none else some { p with rest := p.rest.drop disconnectChunk })

/-- The session goes with the first chunk. Its entry in the hash index goes if it still
points at it. -/
def startDisconnect (e : MemoryEngine) (info : ClientInfo) : MemoryEngine × Option Pending :=
  let storeID := e.storeIDOf info
  if storeID = 0 then (e,none)
  else match e.clients.lookup storeID with
    | none => (e,none)
    | some client =>
      let listed := client.info.hash.length > 0 ∧ e.clientsByHash.lookup client.info.hash = some storeID
      let e := { e with
        clientsByHash := if listed then e.clientsByHash.erase client.info.hash else e.clientsByHash
        clients := e.clients.erase storeID }
      e.removeChunk ⟨storeID,client.offered,e.layout⟩

/-- Ids of another layout no longer say where the sources are, so every record is visited. -/
def resumeDisconnect (e : MemoryEngine) (p : Pending) : MemoryEngine × Option Pending :=
  if e.layout ≠ p.layout then (e.removeAllSourcesOfLocked p.storeID,none) else e.removeChunk p

def finishDisconnect : Nat → MemoryEngine × Option Pending → MemoryEngine
  | fuel+1, (e,some p) => finishDisconnect fuel (e.resumeDisconnect p)
  | _, (e,_) => e

/-- A `Disconnect` with nothing else running in between; each chunk takes at least one entry. -/
def disconnect (e : MemoryEngine) (info : ClientInfo) : MemoryEngine :=
  let started := e.startDisconnect info
  finishDisconnect (started.2.elim 0 (fun p => p.rest.length)) started

def offeredCount (e : MemoryEngine) (info : ClientInfo) : Nat :=
  match e.clients.lookup (e.storeIDOf info) with
  | some client => client.offered.length
  | none => 0

def hasOffered (e : MemoryEngine) (info : ClientInfo) (files : List File) : List Bool :=
  let storeID := e.storeIDOf info
  let mine (s : MemSource) : Bool := s.peer.storeID == storeID
  files.map (fun f =>
    if (e.clients.lookup storeID).isNone then false
    else match e.files.lookup (hashArray f.hash) with
      | none => false
      | some head => (e.record head).first.any mine || ((e.record head).more && (e.moreOf head).any mine))

def getSources (e : MemoryEngine) (fileHash : Bytes) (fileSize : Nat) : Option (List Source) :=
  match e.findLocked (hashArray fileHash) fileSize with
  | none => none
  | some _ => some (e.capSourcesLocked ((e.files.lookup (hashArray fileHash)).getD 0) fileSize)

def getSourcesByHash (e : MemoryEngine) (fileHash : Bytes) : List Source :=
  match e.files.lookup (hashArray fileHash) with
  | none => []
  | some head => e.capSourcesLocked head 0

end MemoryEngine

end ENode.Storage
