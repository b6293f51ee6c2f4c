import ENode.Cursor
import ENode.SearchExpr
import ENode.TcpSession

/-! Packets and file records on the wire: a packet is a list of items whose sizes are added up
first and which are then put into a buffer of that size; the reader of a file list takes a wider
grammar of tags than the writer uses. -/
namespace ENode.Ed2k

open GoText ByteNumbers Cursor Storage

def opSearchResult : UInt8 := 0x33
def opGlobSearchRes : UInt8 := 0x99

def typeHash : UInt8 := 0x01
def typeString : UInt8 := 0x02
def typeUint32 : UInt8 := 0x03
def typeFloat : UInt8 := 0x04
def typeBool : UInt8 := 0x05
def typeBoolArray : UInt8 := 0x06
def typeBlob : UInt8 := 0x07
def typeUint16 : UInt8 := 0x08
def typeUint8 : UInt8 := 0x09
def typeBsob : UInt8 := 0x0a
def typeUint64 : UInt8 := 0x0b
def typeTags : UInt8 := 0x0f
def itemTagsU8 : UInt8 := 0xfe

def tagCodeName : UInt8 := 0x01
def tagSize : UInt8 := 0x02
def tagType : UInt8 := 0x03
def tagSources : UInt8 := 0x15
def tagCompleteSources : UInt8 := 0x30
def tagSizeHi : UInt8 := 0x3a
def tagMediaArtist : UInt8 := 0xd0
def tagMediaAlbum : UInt8 := 0xd1
def tagMediaTitle : UInt8 := 0xd2
def tagMediaLength : UInt8 := 0xd3
def tagMediaBitrate : UInt8 := 0xd4
def tagMediaCodec : UInt8 := 0xd5
def tagMetaKind : UInt8 := 0x60
def tagMetaVersion : UInt8 := 0x61
def tagMetaFileIndex : UInt8 := 0x62
def tagMetaFilePath : UInt8 := 0x63
def tagMetaTotalSize : UInt8 := 0x64
def tagMetaID : UInt8 := 0x65
def tagMetaSeeders : UInt8 := 0x67
def tagMetaPeers : UInt8 := 0x68
def tagMetaAge : UInt8 := 0x69
def tagMetaIndexer : UInt8 := 0x6a
def tagMetaFlags : UInt8 := 0x6b
def tagMetaMagnet : UInt8 := 0x6c
def tagMetaNetwork : UInt8 := 0x6d

def metaKindED2K : Nat := 4
def metaNetworkKad : Nat := 3
def metaNetworkWeb : Nat := 5

/-- Where in a tag its reading failed. -/
inductive TagStage where
  | shortCode | shortString | nameLen | nameCode | nameString | value
  deriving DecidableEq

inductive BufferError where
  | outOfBounds
  | invalidHashLength
  | unsupportedTag
  | unsupportedType (type : UInt8)
  | wireCount (what : String) (count remaining : Nat)
  | tagDecode (stage : TagStage) (type code : UInt8) (err : BufferError)
  | inTags (idx : Nat) (err : BufferError)
  | inFileList (idx : Nat) (hash : Bytes) (id port : Nat) (err : BufferError)
  deriving DecidableEq

/-- The Go values that go into a tag or an item. -/
inductive Value where
  | uint8 (n : Nat)
  | uint16 (n : Nat)
  | uint32 (n : Nat)
  | uint64 (n : Nat)
  | int (n : Int)
  | string (s : Bytes)
  | bytes (b : Bytes)
  deriving DecidableEq

structure Tag where
  type : UInt8
  code : UInt8
  data : Value
  deriving DecidableEq

inductive ItemValue where
  | plain (v : Value)
  | tags (ts : List Tag)
  deriving DecidableEq

structure PacketItem where
  type : UInt8
  value : ItemValue
  deriving DecidableEq

/-- `PutUInt8`, `PutUInt16LE`, `PutUInt32LE` and `PutUInt64LE`, by their width. -/
def putUInt (width n : Nat) : Filler BufferError Unit := put .outOfBounds (leBytes width n)

/-- An `int` is narrowed to the width it is put in. -/
def putInt (width : Nat) (n : Int) : Filler BufferError Unit := putUInt width (n % 256 ^ width).toNat

def putString (s : Bytes) : Filler BufferError Unit := do
  putUInt 2 s.length
  put .outOfBounds s

def putHash (hash : Bytes) : Filler BufferError Unit :=
  if hash.length ≠ 16 then throw .invalidHashLength else putSome hash

def tagLength (t : Tag) : Except BufferError Nat :=
  if t.type = typeString then
    match t.data with
    | .string s => .ok (4 + (2 + s.length))
    | _ => .error .unsupportedTag
  else if t.type = typeHash then .ok (4 + 16)
  else if t.type = typeUint8 then .ok (4 + 1)
  else if t.type = typeUint16 then .ok (4 + 2)
  else if t.type = typeUint32 then .ok (4 + 4)
  else if t.type = typeUint64 then .ok (4 + 8)
  else .error (.unsupportedType t.type)

def tagsLength (ts : List Tag) : Except BufferError Nat :=
  ts.foldlM (fun length t => do pure (length + (← tagLength t))) 4

def putTagData (type : UInt8) (data : Value) : Filler BufferError Unit :=
  if type = typeString then
    match data with
    | .string s => putString s
    | _ => throw .unsupportedTag
  else if type = typeHash then
    match data with
    | .bytes b => putHash b
    | _ => throw .unsupportedTag
  else if type = typeUint8 then
    match data with
    | .uint8 n => putUInt 1 n
    | .int n => putInt 1 n
    | _ => throw .unsupportedTag
  else if type = typeUint16 then
    match data with
    | .uint16 n => putUInt 2 n
    | .int n => putInt 2 n
    | _ => throw .unsupportedTag
  else if type = typeUint32 then
    match data with
    | .uint32 n => putUInt 4 n
    | .int n => putInt 4 n
    | _ => throw .unsupportedTag
  else if type = typeUint64 then
    match data with
    | .uint64 n => putUInt 8 n
    | .int n => putInt 8 n
    | _ => throw .unsupportedTag
  else throw (.unsupportedType type)

def putTag (t : Tag) : Filler BufferError Unit := do
  put .outOfBounds [t.type]
  putUInt 2 1
  put .outOfBounds [t.code]
  putTagData t.type t.data

def putTags (ts : List Tag) : Filler BufferError Unit := do
  putUInt 4 ts.length
  ts.forM putTag

def itemSize (item : PacketItem) : Except BufferError Nat :=
  if item.type = typeUint8 then .ok 1
  else if item.type = typeUint16 then .ok 2
  else if item.type = typeUint32 then .ok 4
  else if item.type = typeString then
    match item.value with
    | .plain (.string s) => .ok (2 + s.length)
    | _ => .error .unsupportedTag
  else if item.type = typeHash then .ok 16
  else if item.type = typeTags then
    match item.value with
    | .tags ts => tagsLength ts
    | _ => .error .unsupportedTag
  else if item.type = itemTagsU8 then
    match item.value with
    | .tags ts => do pure ((← tagsLength ts) - 3)
    | _ => .error .unsupportedTag
  else .error (.unsupportedType item.type)

def putItem (item : PacketItem) : Filler BufferError Unit :=
  if item.type = typeUint8 then
    match item.value with
    | .plain (.uint8 n) => putUInt 1 n
    | .plain (.int n) => putInt 1 n
    | _ => throw .unsupportedTag
  else if item.type = typeUint16 then
    match item.value with
    | .plain (.uint16 n) => putUInt 2 n
    | .plain (.int n) => putInt 2 n
    | _ => throw .unsupportedTag
  else if item.type = typeUint32 then
    match item.value with
    | .plain (.uint32 n) => putUInt 4 n
    | .plain (.int n) => putInt 4 n
    | _ => throw .unsupportedTag
  else if item.type = typeString then
    match item.value with
    | .plain (.string s) => putString s
    | _ => throw .unsupportedTag
  else if item.type = typeHash then
    match item.value with
    | .plain (.bytes b) => putHash b
    | _ => throw .unsupportedTag
  else if item.type = typeTags then
    match item.value with
    | .tags ts => putTags ts
    | _ => throw .unsupportedTag
  else if item.type = itemTagsU8 then
    match item.value with
    | .tags ts => do
      putUInt 1 ts.length
      ts.forM putTag
    | _ => throw .unsupportedTag
  else throw .unsupportedTag

def itemsSize (items : List PacketItem) : Except BufferError Nat :=
  items.foldlM (fun size item => do pure (size + (← itemSize item))) 0

/-- The header's size is a `uint32`. -/
def makePacket (protocol : UInt8) (items : List PacketItem) : Except BufferError Bytes := do
  let size ← itemsSize items
  let fill : Filler BufferError Unit := do
    put .outOfBounds [protocol]
    putUInt 4 size
    items.forM putItem
  let (_,buf) ← fill.run ⟨5 + size,[]⟩
  pure buf.contents

def makeUDPPacket (protocol : UInt8) (items : List PacketItem) : Except BufferError Bytes := do
  let size ← itemsSize items
  let fill : Filler BufferError Unit := do
    put .outOfBounds [protocol]
    items.forM putItem
  let (_,buf) ← fill.run ⟨1 + size,[]⟩
  pure buf.contents

/-- A lossless compressor. -/
structure Zlib where
  deflate : Bytes → Bytes
  inflate : Bytes → Option Bytes
  inflate_deflate : ∀ payload, inflate (deflate payload) = some payload

def minZlibPayloadOnSend : Nat := 128

def maybeCompressTCPPacket (z : Zlib) (packet : Bytes) (minPayloadLen : Nat) : Bytes :=
  match packet with
  | proto :: _ :: _ :: _ :: _ :: opcode :: payload =>
    if proto ≠ prED2K ∧ proto ≠ prEMule then packet
    else if payload.length < minPayloadLen then packet
    else
      let compressed := z.deflate payload
      if compressed.length ≥ payload.length then packet
      else prZlib :: (leBytes 4 (compressed.length + 1) ++ opcode :: compressed)
  | _ => packet

/-- `Native`: a real eD2K file that was found on another network. -/
def native (m : MetaInfo) : Bool := m.kind = metaKindED2K

def metaNetworkOf (m : MetaInfo) : Nat := if m.network = metaNetworkWeb then metaNetworkWeb else metaNetworkKad

def stringTag (code : UInt8) (s : Bytes) : Tag := ⟨typeString,code,.string s⟩
def uint32Tag (code : UInt8) (n : Nat) : Tag := ⟨typeUint32,code,.uint32 n⟩
def uint8Tag (code : UInt8) (n : Nat) : Tag := ⟨typeUint8,code,.uint8 n⟩

def stringIfAny (code : UInt8) (s : Bytes) : List Tag := if s = [] then [] else [stringTag code s]

def uint32IfAny (code : UInt8) (n : Nat) : List Tag := if n > 0 then [uint32Tag code n] else []

/-- `appendMetaTags`. -/
def releaseTags (m : MetaInfo) : List Tag :=
  [uint8Tag tagMetaKind m.kind,uint8Tag tagMetaVersion m.version,uint32Tag tagMetaFileIndex m.fileIndex]
    ++ stringIfAny tagMetaFilePath m.filePath
    ++ (if m.totalSize > 0 then [⟨typeUint64,tagMetaTotalSize,.uint64 m.totalSize⟩] else [])
    ++ [stringTag tagMetaID m.catalogID,uint32Tag tagMetaSeeders m.seeders,uint32Tag tagMetaPeers m.peers,
      uint32Tag tagMetaAge m.ageDays]
    ++ stringIfAny tagMetaIndexer m.indexer
    ++ [uint32Tag tagMetaFlags m.flags]
    ++ stringIfAny tagMetaMagnet m.magnet

def metaTags : Option MetaInfo → List Tag
  | none => []
  | some m => if native m then [uint8Tag tagMetaNetwork (metaNetworkOf m)] else releaseTags m

def fileTags (file : File) : List Tag :=
  [stringTag tagCodeName file.name,uint32Tag tagSize (file.size % 2 ^ 32),stringTag tagType file.type,
      uint32Tag tagSources file.sources,uint32Tag tagCompleteSources file.completed]
    ++ (if file.size ≥ 2 ^ 32 then [uint32Tag tagSizeHi (file.size / 2 ^ 32)] else [])
    ++ stringIfAny tagMediaTitle file.title
    ++ stringIfAny tagMediaArtist file.artist
    ++ stringIfAny tagMediaAlbum file.album
    ++ uint32IfAny tagMediaLength file.runtime
    ++ uint32IfAny tagMediaBitrate file.bitrate
    ++ stringIfAny tagMediaCodec file.codec
    ++ metaTags file.metaInfo

def addFile (pack : List PacketItem) (file : File) : List PacketItem :=
  pack ++ [⟨typeHash,.plain (.bytes file.hash)⟩,⟨typeUint32,.plain (.uint32 file.sourceID)⟩,
    ⟨typeUint16,.plain (.uint16 file.sourcePort)⟩,⟨typeTags,.tags (fileTags file)⟩]

def moreByte (moreAvailable : Bool) : Nat := if moreAvailable then 1 else 0

def searchResultItems (files : List File) (moreAvailable : Bool) : List PacketItem :=
  files.foldl addFile [⟨typeUint8,.plain (.uint8 opSearchResult.toNat)⟩,
      ⟨typeUint32,.plain (.uint32 (files.length % 2 ^ 32))⟩]
    ++ [⟨typeUint8,.plain (.uint8 (moreByte moreAvailable))⟩]

def buildSearchResultPacket (z : Zlib) (files : List File) (moreAvailable : Bool) : Except BufferError Bytes := do
  let packet ← makePacket prED2K (searchResultItems files moreAvailable)
  pure (maybeCompressTCPPacket z packet minZlibPayloadOnSend)

def udpSearchDatagramBudget : Nat := 1300

/-- Datagrams that are full, and the bytes of the next one. -/
def packRecord (full : List Bytes × Bytes) (record : Bytes) : List Bytes × Bytes :=
  if full.2.length > 0 ∧ full.2.length + record.length > udpSearchDatagramBudget then
    (full.1 ++ [full.2],record)
  else (full.1,full.2 ++ record)

def buildGlobSearchResPackets (files : List File) : Except BufferError (List Bytes) := do
  let (out,pending) ← files.foldlM (fun full file => do
    let record ← makeUDPPacket prED2K (addFile [⟨typeUint8,.plain (.uint8 opGlobSearchRes.toNat)⟩] file)
    pure (packRecord full record)) (([],[]) : List Bytes × Bytes)
  pure (if pending.length > 0 then out ++ [pending] else out)

/-- What a tag's value is decoded to; a float is kept as its bits. -/
inductive TagValue where
  | string (s : Bytes)
  | uint64 (n : Nat)
  | bytes (b : Bytes)
  | float (bits : Nat)
  | bool (b : Bool)
  | nil
  deriving DecidableEq

structure NamedTag where
  name : Bytes
  value : TagValue
  type : UInt8
  deriving DecidableEq

abbrev Reading (α : Type) := Reader BufferError α

def getUInt8 : Reading UInt8
  | [] => .error .outOfBounds
  | b :: rest => .ok (b,rest)

def getUInt (width : Nat) : Reading Nat := number .outOfBounds width

/-- Two halves of four bytes. -/
def getUInt64LE : Reading Nat := do
  let low ← exactly .outOfBounds 8
  pure (leValue (low.take 4) + leValue (low.drop 4) * 2 ^ 32)

def getText (length : Nat) : Reading Bytes := exactly .outOfBounds length

def getString : Reading Bytes := do getText (← getUInt 2)

def getTagValue (type : UInt8) : Reading TagValue :=
  if type = typeString then do pure (.string (← getString))
  else if type = typeUint8 then do pure (.uint64 (← getUInt8).toNat)
  else if type = typeUint16 then do pure (.uint64 (← getUInt 2))
  else if type = typeUint32 then do pure (.uint64 (← getUInt 4))
  else if type = typeUint64 then do pure (.uint64 (← getUInt64LE))
  else if type = typeHash then do pure (.bytes (← getText 16))
  else if type = typeFloat then do pure (.float (← getUInt 4))
  else if type = typeBool then do pure (.bool ((← getUInt8) ≠ 0))
  else if type = typeBlob then do pure (.bytes (← getText (← getUInt 4)))
  else if type = typeBsob then do pure (.bytes (← getText (← getUInt8).toNat))
  else if type = typeBoolArray then do
    let _ ← getText ((← getUInt 2) / 8 + 1)
    pure .nil
  else if 0x11 ≤ type ∧ type ≤ 0x20 then do pure (.string (← getText (type - 0x10).toNat))
  else throw (.unsupportedType type)

def tagNames : List (UInt8 × String) :=
  [(0x01,"name"),(0x02,"size"),(0x3a,"sizehi"),(0x03,"type"),(0x04,"format"),(0x0b,"description"),
    (0x11,"version"),(0x0f,"port2"),(0x15,"sources"),(0xfb,"muleversion"),(0x55,"modversion"),(0x20,"flags"),
    (0xf7,"rating"),(0xd0,"artist"),(0xd1,"album"),(0xd2,"title"),(0xd3,"length"),(0xd4,"bitrate"),
    (0xd5,"codec"),(0x0e,"searchtree"),(0xf9,"udpports"),(0xfa,"options1"),(0xfe,"options2"),(0xae,"ipv6"),
    (0xaf,"svripv6"),(0x9d,"natport"),(0xad,"yourip"),(0xab,"ipv6status"),(0x9e,"metaapi"),
    (0x9f,"metaapiver"),(0x9c,"metaapifp"),(0xe3,"ed3k")]

def hexDigit (n : Nat) : UInt8 := UInt8.ofNat (if n < 10 then 48 + n else 87 + n)

/-- `%x` of a byte. -/
def hexByte (b : UInt8) : Bytes :=
  if b.toNat < 16 then [hexDigit b.toNat] else [hexDigit (b.toNat / 16),hexDigit (b.toNat % 16)]

def tagName (code : UInt8) : Bytes :=
  match tagNames.lookup code with
  | some name => lit name
  | none => lit "0x" ++ hexByte code

def stage (at' : TagStage) (type code : UInt8) (r : Reading α) : Reading α := relabel (.tagDecode at' type code) r

/-- STR1 to STR16 are reported as strings. -/
def reportedType (type : UInt8) : UInt8 := if 0x11 ≤ type ∧ type ≤ 0x20 then typeString else type

/-- A tag is named by a code, after a flag bit or after a name length of one, or by a text. -/
def getTag : Reading NamedTag := do
  let type ← getUInt8
  if type &&& 0x80 ≠ 0 then
    let code ← stage .shortCode type 0 getUInt8
    let narrow := type &&& 0x7f
    if narrow ≥ 0x10 then
      let s ← stage .shortString type code (getText (narrow - 0x10).toNat)
      pure ⟨tagName code,.string s,typeString⟩
    else
      let v ← stage .value type code (getTagValue narrow)
      pure ⟨tagName code,v,reportedType narrow⟩
  else
    let length ← stage .nameLen type 0 (getUInt 2)
    if length = 1 then
      let code ← stage .nameCode type 0 getUInt8
      let v ← stage .value type code (getTagValue type)
      pure ⟨tagName code,v,reportedType type⟩
    else
      let name ← stage .nameString type 0 (getText length)
      let v ← stage .value type 0 (getTagValue type)
      pure ⟨name,v,reportedType type⟩

/-- A record of a file list; `rawLo` and `rawHi` are the two size tags as sent. -/
structure FileRecord where
  hash : Bytes
  complete : Bool
  id : Nat
  port : Nat
  sizeLo : Nat := 0
  sizeHi : Nat := 0
  size : Nat := 0
  name : Bytes := []
  type : Bytes := []
  sources : Nat := 0
  title : Bytes := []
  artist : Bytes := []
  album : Bytes := []
  length : Nat := 0
  bitrate : Nat := 0
  codec : Bytes := []
  extra : List NamedTag := []
  rawLo : Nat := 0
  rawHi : Nat := 0
  deriving DecidableEq

inductive RecordField where
  | name | type | title | artist | album | codec | sources | length | bitrate | size | sizehi
  deriving DecidableEq

def recordFields : List (String × RecordField) :=
  [("name",.name),("type",.type),("title",.title),("artist",.artist),("album",.album),("codec",.codec),
    ("sources",.sources),("length",.length),("bitrate",.bitrate),("size",.size),("sizehi",.sizehi)]

def fieldNamed (name : Bytes) : Option RecordField :=
  (recordFields.map (fun f => (lit f.1,f.2))).lookup name

def TagValue.asString : TagValue → Bytes
  | .string s => s
  | _ => []

def TagValue.asUint64 : TagValue → Nat
  | .uint64 n => n
  | _ => 0

/-- Saturates. -/
def tagUint32 (v : TagValue) : Nat := min v.asUint64 (2 ^ 32 - 1)

def FileRecord.setField (r : FileRecord) (v : TagValue) : RecordField → FileRecord
  | .name => { r with name := v.asString }
  | .type => { r with type := v.asString }
  | .title => { r with title := v.asString }
  | .artist => { r with artist := v.asString }
  | .album => { r with album := v.asString }
  | .codec => { r with codec := v.asString }
  | .sources => { r with sources := tagUint32 v }
  | .length => { r with length := tagUint32 v }
  | .bitrate => { r with bitrate := tagUint32 v }
  | .size => { r with rawLo := v.asUint64,sizeLo := v.asUint64 % 2 ^ 32,
                      size := (v.asUint64 + r.rawHi * 2 ^ 32) % 2 ^ 64 }
  | .sizehi => { r with rawHi := v.asUint64,sizeHi := v.asUint64 % 2 ^ 32,
                        size := (r.rawLo + v.asUint64 * 2 ^ 32) % 2 ^ 64 }

/-- `SetTag`, and what is kept of a tag without a field. -/
def FileRecord.setTag (keepExtra : Bool) (r : FileRecord) (t : NamedTag) : FileRecord :=
  match fieldNamed t.name with
  | some field => r.setField t.value field
  | none => if keepExtra then { r with extra := r.extra ++ [t] } else r

def checkWireCount (count : Nat) (minBytesEach : Nat) (what : String) : Reading Unit := do
  let left ← remaining
  if count > left / minBytesEach then throw (.wireCount what count left) else pure ()

def minTagBytes : Nat := 2
def minFileRecordBytes : Nat := 26

def getFileTags (keepExtra : Bool) (record : FileRecord) : Reading FileRecord := do
  let count ← getUInt 4
  checkWireCount count minTagBytes "tags"
  loop (fun i r => do pure (r.setTag keepExtra (← relabel (.inTags i) getTag))) count 0 record

def valPartialID : Nat := 0xfcfcfcfc
def valPartialPort : Nat := 0xfcfc

def getFileRecord (keepExtra : Bool) (i : Nat) : Reading FileRecord := do
  let hash ← upTo 16
  if hash.length ≠ 16 then throw .outOfBounds
  else
    let id ← getUInt 4
    let port ← getUInt 2
    relabel (.inFileList i hash id port)
      (getFileTags keepExtra { hash := hash,complete := !(id == valPartialID && port == valPartialPort),
                               id := id,port := port })

def getFileList (keepExtra : Bool) : Reading (List FileRecord) := do
  let count ← getUInt 4
  checkWireCount count minFileRecordBytes "file records"
  loop (fun i files => do pure (files ++ [← getFileRecord keepExtra i])) count 0 []

end ENode.Ed2k
