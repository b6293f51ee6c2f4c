import ENode.FileTags
import Mathlib.Data.Fintype.BigOperators

/-! A page of search results crosses the wire, in one packet over TCP and in datagrams over UDP.
The size in a packet's header has four bytes, so a page of four gigabytes is the limit. -/
namespace ENode.Ed2k

open GoText ByteNumbers Cursor Storage List

namespace PacketItem

/-- An item of one of the types a packet can hold. -/
def Fits (item : PacketItem) : Prop :=
  match item.value with
  | .plain v => v.FitsAs item.type ∧ item.type ≠ typeUint64
  | .tags ts => item.type = typeTags ∧ ∀ t ∈ ts, t.Fits

def wire (item : PacketItem) : Bytes :=
  match item.value with
  | .plain v => v.wire
  | .tags ts => tagsWire ts

end PacketItem

theorem itemSize_fits {item : PacketItem} (fits : item.Fits) : itemSize item = .ok item.wire.length := by
  obtain ⟨_,value⟩ := item
  cases value with
  | tags _ =>
    obtain ⟨rfl,fit⟩ := fits
    exact tagsLength_fits fit
  | plain v =>
    obtain ⟨fits,short⟩ := fits
    cases v with
    | int n => exact fits.elim
    | uint64 n => exact (short fits.1).elim
    | string _ =>
      obtain ⟨rfl,-⟩ := fits
      simp [itemSize,PacketItem.wire,Value.wire,typeUint8,typeUint16,typeUint32,typeString]
    | bytes _ =>
      obtain ⟨rfl,whole⟩ := fits
      simp [itemSize,PacketItem.wire,Value.wire,whole,typeUint8,typeUint16,typeUint32,typeString,typeHash]
    | uint8 n | uint16 n | uint32 _ =>
      obtain ⟨rfl,-⟩ := fits
      simp [itemSize,PacketItem.wire,Value.wire,typeUint8,typeUint16,typeUint32]

theorem putItem_writes {item : PacketItem} (fits : item.Fits) : Writes (putItem item) item.wire := by
  obtain ⟨_,value⟩ := item
  cases value with
  | tags _ =>
    obtain ⟨rfl,fit⟩ := fits
    exact putTags_writes fit
  | plain v =>
    obtain ⟨fits,short⟩ := fits
    cases v with
    | int n => exact fits.elim
    | uint64 n => exact (short fits.1).elim
    | string s =>
      obtain ⟨rfl,-⟩ := fits
      exact putString_writes s
    | bytes _ =>
      obtain ⟨rfl,whole⟩ := fits
      exact putHash_writes whole
    | uint8 n | uint16 n | uint32 _ =>
      obtain ⟨rfl,-⟩ := fits
      exact putUInt_writes _ _

/-- The items are put in the bytes, and as many were counted for them. -/
structure Sends (items : List PacketItem) (bytes : Bytes) : Prop where
  size : ∀ n, items.foldlM (fun size item => do pure (size + (← itemSize item))) n = .ok (n + bytes.length)
  writes : Writes (items.forM putItem) bytes

namespace Sends

theorem each (size : ∀ item ∈ items, itemSize item = .ok (wire item).length)
    (writes : ∀ item ∈ items, Writes (putItem item) (wire item)) : Sends items (items.flatMap wire) :=
  ⟨sizes_add_up items size,Writes.each items writes⟩

theorem ofFits (fit : ∀ item ∈ items, item.Fits) : Sends items (items.flatMap PacketItem.wire) :=
  each (fun item there => itemSize_fits (fit item there)) (fun item there => putItem_writes (fit item there))

theorem contents {fill : Filler BufferError Unit} (writes : Writes fill bytes) (size : bytes.length = n) :
    (do let (_,buf) ← fill.run ⟨n,[]⟩; pure buf.contents) = Except.ok bytes :=
  (congrArg (fun r : Except BufferError (Unit × Buffer) => r >>= fun p => pure p.2.contents) (writes.fills size)).trans
    (congrArg Except.ok (Buffer.contents_full size))

theorem makePacket (sends : Sends items bytes) (protocol : UInt8) :
    makePacket protocol items = .ok ([protocol] ++ (leBytes 4 bytes.length ++ bytes)) := by
  have sized : itemsSize items = .ok bytes.length := by rw [itemsSize,sends.size,Nat.zero_add]
  have writes := (Writes.put BufferError.outOfBounds [protocol]).andThen (f := fun _ => do
      putUInt 4 bytes.length
      items.forM putItem)
    ((putUInt_writes 4 _).andThen sends.writes)
  have size : ([protocol] ++ (leBytes 4 bytes.length ++ bytes)).length = 5 + bytes.length := by simp; omega
  rw [Ed2k.makePacket,sized]
  exact contents writes size

theorem makeUDPPacket (sends : Sends items bytes) (protocol : UInt8) :
    makeUDPPacket protocol items = .ok ([protocol] ++ bytes) := by
  have sized : itemsSize items = .ok bytes.length := by rw [itemsSize,sends.size,Nat.zero_add]
  have writes := (Writes.put BufferError.outOfBounds [protocol]).andThen (f := fun _ => items.forM putItem) sends.writes
  have size : ([protocol] ++ bytes).length = 1 + bytes.length := by simp; omega
  rw [Ed2k.makeUDPPacket,sized]
  exact contents writes size

end Sends

/-- A file's record: its hash, its source and its tags. -/
def recordWire (f : File) : Bytes :=
  f.hash ++ (leBytes 4 f.sourceID ++ (leBytes 2 f.sourcePort ++ tagsWire (fileTags f)))

theorem addFile_wire (pack : List PacketItem) (f : File) :
    (addFile pack f).flatMap PacketItem.wire = pack.flatMap PacketItem.wire ++ recordWire f := by
  simp [addFile,PacketItem.wire,Value.wire,recordWire]

variable {f : File}

theorem addFile_fit (fit : ∀ item ∈ pack, item.Fits) (fits : FileFits f) :
    ∀ item ∈ addFile pack f, item.Fits := by
  simp only [addFile,forall_mem_append,forall_mem_cons]
  exact ⟨fit,⟨⟨rfl,fits.hash⟩,(by decide : typeHash ≠ typeUint64)⟩,
    ⟨⟨rfl,fits.sourceID⟩,(by decide : typeUint32 ≠ typeUint64)⟩,
    ⟨⟨rfl,fits.sourcePort⟩,(by decide : typeUint16 ≠ typeUint64)⟩,⟨rfl,fileTags_fit fits⟩,by simp⟩

/-- What follows the opcode in a page of results. -/
def pageWire (files : List File) (more : Bool) : Bytes :=
  leBytes 4 (files.length % 2 ^ 32) ++ (files.flatMap recordWire ++ [UInt8.ofNat (moreByte more)])

theorem addFiles_wire (files : List File) (pack : List PacketItem) :
    (files.foldl addFile pack).flatMap PacketItem.wire = pack.flatMap PacketItem.wire ++ files.flatMap recordWire := by
  induction files generalizing pack with
  | nil => simp
  | cons _ _ ih => rw [foldl_cons,ih,addFile_wire,flatMap_cons,append_assoc]

variable {files : List File}

theorem addFiles_fit (fits : ∀ f ∈ files, FileFits f)
    (fit : ∀ item ∈ pack, item.Fits) : ∀ item ∈ files.foldl addFile pack, item.Fits := by
  induction files generalizing pack with
  | nil => exact fit
  | cons f _ ih => exact ih (fun g there => fits g (.tail _ there)) (addFile_fit fit (fits f (.head _)))

theorem searchResultItems_wire (files : List File) (more : Bool) :
    (searchResultItems files more).flatMap PacketItem.wire = opSearchResult :: pageWire files more := by
  rw [searchResultItems,flatMap_append,addFiles_wire]
  simp [PacketItem.wire,Value.wire,pageWire,leBytes]

theorem searchResultItems_fit (fits : ∀ f ∈ files, FileFits f) :
    ∀ item ∈ searchResultItems files more, item.Fits := by
  have flag : moreByte more < 2 ^ 8 := by cases more <;> decide
  have head : ∀ item ∈ [⟨typeUint8,.plain (.uint8 opSearchResult.toNat)⟩,
      (⟨typeUint32,.plain (.uint32 (files.length % 2 ^ 32))⟩ : PacketItem)], item.Fits := by
    simp only [forall_mem_cons]
    exact ⟨⟨⟨rfl,by decide⟩,by decide⟩,
      ⟨⟨rfl,Nat.mod_lt _ (by decide)⟩,(by decide : typeUint32 ≠ typeUint64)⟩,by simp⟩
  simp only [searchResultItems,forall_mem_append]
  exact ⟨addFiles_fit fits head,
    forall_mem_singleton.mpr ⟨⟨rfl,flag⟩,(by decide : typeUint8 ≠ typeUint64)⟩⟩

theorem makePacket_page (fits : ∀ f ∈ files, FileFits f) (more : Bool) :
    makePacket prED2K (searchResultItems files more) =
      .ok (prED2K :: (leBytes 4 ((pageWire files more).length + 1) ++ opSearchResult :: pageWire files more)) := by
  rw [(Sends.ofFits (searchResultItems_fit fits)).makePacket,searchResultItems_wire]
  rfl

theorem getFileRecord_reads (fits : FileFits f) (i : Nat) :
    Reads (getFileRecord true i) (recordWire f) (recordOf f) := by
  have hash : Reads (upTo 16 : Reading Bytes) f.hash f.hash := by
    have reads := Reads.upToAll (ε := BufferError) f.hash
    rwa [fits.hash] at reads
  have few : (fileTags f).length < 2 ^ 32 := Nat.lt_of_le_of_lt (fileTags_length f) (by decide)
  have tags := getFileTags_reads (fileTags_fit fits) few true
    { hash := f.hash,complete := !(f.sourceID == valPartialID && f.sourcePort == valPartialPort),
      id := f.sourceID,port := f.sourcePort }
  have record := fileTags_read fits
  unfold intoRecord at record
  rw [record] at tags
  refine hash.bind ?_
  rw [if_neg (not_not.mpr fits.hash)]
  exact (getUInt_reads fits.sourceID).bind ((getUInt_reads fits.sourcePort).bind (tags.relabelled _))

theorem recordWire_length (fits : FileFits f) : minFileRecordBytes ≤ (recordWire f).length := by
  simp only [recordWire,tagsWire,length_append,leBytes_length,fits.hash,minFileRecordBytes]
  omega

section
variable (fits : ∀ f ∈ files, FileFits f)
include fits

theorem records_length : files.length * minFileRecordBytes ≤ (files.flatMap recordWire).length := by
  induction files with
  | nil => exact Nat.zero_le _
  | cons f _ ih =>
    have one := recordWire_length (fits f (.head _))
    have rest := ih (fun g there => fits g (.tail _ there))
    rw [flatMap_cons,length_append,length_cons,Nat.add_mul]
    omega

theorem getFileList_reads (few : files.length < 2 ^ 32) :
    Reads (getFileList true) (leBytes 4 files.length ++ files.flatMap recordWire) (files.map recordOf) := by
  refine (getUInt_reads few).bind (checkWireCount_reads (records_length fits) (by decide) ?_)
  exact Reads.collect recordWire recordOf files (fun i f there => getFileRecord_reads (fits f there) i) 0

theorem page_reads (few : files.length < 2 ^ 32) (more : Bool) :
    getFileList true (pageWire files more) = .ok (files.map recordOf,[UInt8.ofNat (moreByte more)]) := by
  rw [pageWire,Nat.mod_eq_of_lt few,← append_assoc]
  exact getFileList_reads fits few _

end

def declaredSize (packet : Bytes) : Nat := leValue ((packet.drop 1).take 4)

/-- What follows the opcode, decompressed if it has to be. -/
def payloadOf (z : Zlib) (packet : Bytes) : Option Bytes :=
  if packet.head? = some prZlib then z.inflate (packet.drop 6) else some (packet.drop 6)

theorem declaredSize_header (protocol : UInt8) (size : Nat) (rest : Bytes) :
    declaredSize (protocol :: (leBytes 4 size ++ rest)) = size % 2 ^ 32 := by
  rw [declaredSize,drop_one,tail_cons,take_left' (leBytes_length 4 size),leValue_leBytes]
  rfl

theorem compress_cases (z : Zlib) (size : Nat) (opcode : UInt8) (payload : Bytes) (least : Nat) :
    let plain := prED2K :: (leBytes 4 size ++ opcode :: payload)
    maybeCompressTCPPacket z plain least = plain ∨
      ((z.deflate payload).length < payload.length ∧ maybeCompressTCPPacket z plain least =
        prZlib :: (leBytes 4 ((z.deflate payload).length + 1) ++ opcode :: z.deflate payload)) := by
  simp only [leBytes,cons_append,nil_append,maybeCompressTCPPacket]
  split
  · exact .inl rfl
  split
  · exact .inl rfl
  split
  · exact .inl rfl
  next shorter => exact .inr ⟨Nat.not_le.mp shorter,rfl⟩

theorem packet_crosses (z : Zlib) (opcode : UInt8) {payload : Bytes} (small : payload.length + 1 < 2 ^ 32) (least : Nat) :
    let packet := maybeCompressTCPPacket z (prED2K :: (leBytes 4 (payload.length + 1) ++ opcode :: payload)) least
    declaredSize packet = (packet.drop 5).length ∧ packet[5]? = some opcode ∧ payloadOf z packet = some payload := by
  have sized : ∀ (protocol : UInt8) (sent : Bytes), sent.length + 1 < 2 ^ 32 →
      declaredSize (protocol :: (leBytes 4 (sent.length + 1) ++ opcode :: sent)) = sent.length + 1 := by
    intro _ _ small
    rw [declaredSize_header,Nat.mod_eq_of_lt small]
  obtain plain | ⟨_,compressed⟩ := compress_cases z (payload.length + 1) opcode payload least
  · simp only [plain,sized _ _ small]
    exact ⟨rfl,rfl,rfl⟩
  · simp only [compressed,sized _ _ (show (z.deflate payload).length + 1 < 2 ^ 32 by omega)]
    exact ⟨rfl,rfl,z.inflate_deflate _⟩

theorem page_crosses (z : Zlib) (fits : ∀ f ∈ files, FileFits f)
    (small : (pageWire files more).length + 1 < 2 ^ 32) :
    ∃ packet, buildSearchResultPacket z files more = .ok packet ∧ declaredSize packet = (packet.drop 5).length ∧
      payloadOf z packet = some (pageWire files more) := by
  obtain ⟨sized,-,payload⟩ := packet_crosses z opSearchResult small minZlibPayloadOnSend
  refine ⟨_,?_,sized,payload⟩
  rw [buildSearchResultPacket,makePacket_page fits more]
  rfl

def datagramRecord (f : File) : Bytes := [prED2K] ++ opGlobSearchRes :: recordWire f

theorem makeUDPPacket_record (fits : FileFits f) :
    makeUDPPacket prED2K (addFile [⟨typeUint8,.plain (.uint8 opGlobSearchRes.toNat)⟩] f) = .ok (datagramRecord f) := by
  have opcode : ∀ item ∈ [(⟨typeUint8,.plain (.uint8 opGlobSearchRes.toNat)⟩ : PacketItem)], item.Fits :=
    forall_mem_singleton.mpr ⟨⟨rfl,by decide⟩,by decide⟩
  rw [(Sends.ofFits (addFile_fit opcode fits)).makeUDPPacket,addFile_wire]
  rfl

/-- Within the budget, or a single record. -/
def Within (group : List File) : Prop :=
  (group.flatMap datagramRecord).length ≤ udpSearchDatagramBudget ∨ group.length = 1

/-- The files so far in groups, of which the last is still open. -/
structure Packed (files : List File) (full : List Bytes × Bytes) (groups : List (List File)) (last : List File) :
    Prop where
  files : groups.flatten ++ last = files
  full : full = (groups.map (·.flatMap datagramRecord),last.flatMap datagramRecord)
  within : ∀ group ∈ groups, Within group
  open_ : last = [] ∨ Within last

theorem pending_empty {last : List File} : (last.flatMap datagramRecord).length > 0 ↔ last ≠ [] := by
  cases last with
  | nil => simp
  | cons _ _ => simp [datagramRecord]

theorem packRecord_packed (packed : Packed files full groups last) (f : File) :
    ∃ groups last, Packed (files ++ [f]) (packRecord full (datagramRecord f)) groups last := by
  obtain ⟨rfl,rfl,within,opened⟩ := packed
  unfold packRecord
  split
  next flushed =>
    obtain ⟨pending,-⟩ := flushed
    have closed : Within last := opened.resolve_left (pending_empty.mp pending)
    exact ⟨groups ++ [last],[f],by simp,by simp,
      forall_mem_append.mpr ⟨within,forall_mem_singleton.mpr closed⟩,.inr (.inr rfl)⟩
  next kept =>
    refine ⟨groups,last ++ [f],by simp,by simp,within,.inr ?_⟩
    by_cases empty : last = []
    · exact .inr (by simp [empty])
    · refine .inl ?_
      have room : ¬(last.flatMap datagramRecord).length + (datagramRecord f).length > udpSearchDatagramBudget :=
        fun more => kept ⟨pending_empty.mpr empty,more⟩
      rw [flatMap_append,length_append,flatMap_singleton]
      omega

theorem packed_along (files done last : List File)
    (packed : Packed done full groups last) : ∃ groups last, Packed (done ++ files)
      (files.foldl (fun full f => packRecord full (datagramRecord f)) full) groups last := by
  induction files generalizing done last full groups with
  | nil => exact ⟨groups,last,by simpa using packed⟩
  | cons f _ ih =>
    obtain ⟨groups,last,packed⟩ := packRecord_packed packed f
    obtain ⟨groups,last,packed⟩ := ih (done ++ [f]) last packed
    exact ⟨groups,last,by simpa using packed⟩

theorem datagrams_packed (fits : ∀ f ∈ files, FileFits f) : ∃ groups : List (List File),
    groups.flatten = files ∧ buildGlobSearchResPackets files = .ok (groups.map (·.flatMap datagramRecord)) ∧
      ∀ group ∈ groups, Within group := by
  have fold : ∀ full, files.foldlM (fun full file => do
      let record ← makeUDPPacket prED2K (addFile [⟨typeUint8,.plain (.uint8 opGlobSearchRes.toNat)⟩] file)
      pure (packRecord full record)) full
        = (.ok (files.foldl (fun full f => packRecord full (datagramRecord f)) full) : Except BufferError _) := by
    induction files with
    | nil => exact fun full => rfl
    | cons f files ih =>
      intro full
      rw [foldlM_cons,makeUDPPacket_record (fits f (.head _)),foldl_cons]
      exact ih (fun g there => fits g (.tail _ there)) _
  have start : Packed [] ([],[]) [] [] := ⟨rfl,rfl,by simp,.inl rfl⟩
  obtain ⟨groups,last,parts,full,within,opened⟩ := packed_along files [] [] start
  rw [nil_append] at parts
  have built : buildGlobSearchResPackets files = .ok (if (last.flatMap datagramRecord).length > 0
      then groups.map (·.flatMap datagramRecord) ++ [last.flatMap datagramRecord]
      else groups.map (·.flatMap datagramRecord)) := by
    rw [buildGlobSearchResPackets,fold,full]
    rfl
  by_cases empty : last = []
  · refine ⟨groups,by simpa [empty] using parts,?_,within⟩
    rw [built,if_neg (fun pending => pending_empty.mp pending empty)]
  · refine ⟨groups ++ [last],by simpa using parts,?_,
      forall_mem_append.mpr ⟨within,forall_mem_singleton.mpr (opened.resolve_left empty)⟩⟩
    rw [built,if_pos (pending_empty.mpr empty),map_append]
    rfl

/-- Files cross the wire: a page of fewer than four gigabytes is sent with its size and read back whole,
and datagrams carry its records in order, each within the budget or with one record only. -/
theorem search_results_cross (z : Zlib) (files : List File) (more : Bool) (fits : ∀ f ∈ files, FileFits f) :
    ((files.flatMap recordWire).length + 6 < 2 ^ 32 →
      ∃ packet payload, buildSearchResultPacket z files more = .ok packet ∧
        declaredSize packet = (packet.drop 5).length ∧ payloadOf z packet = some payload ∧
        payload = leBytes 4 files.length ++ (files.flatMap recordWire ++ [UInt8.ofNat (moreByte more)]) ∧
        getFileList true payload = .ok (files.map recordOf,[UInt8.ofNat (moreByte more)])) ∧
    ∃ groups : List (List File), groups.flatten = files ∧
      buildGlobSearchResPackets files =
        .ok (groups.map (·.flatMap (fun f => prED2K :: opGlobSearchRes :: recordWire f))) ∧
      ∀ group ∈ groups, (group.flatMap (fun f => prED2K :: opGlobSearchRes :: recordWire f)).length
        ≤ udpSearchDatagramBudget ∨ group.length = 1 := by
  refine ⟨fun _ => ?_,datagrams_packed fits⟩
  have few : files.length < 2 ^ 32 := by
    have each := records_length fits
    simp only [minFileRecordBytes] at each
    omega
  have short : (pageWire files more).length + 1 < 2 ^ 32 := by
    simp only [pageWire,length_append,leBytes_length,length_singleton]
    omega
  obtain ⟨packet,built,sized,payload⟩ := page_crosses z fits short
  refine ⟨packet,pageWire files more,built,sized,payload,?_,page_reads fits few more⟩
  rw [pageWire,Nat.mod_eq_of_lt few]

def plainFile : File := { hash := replicate 16 7,name := lit "a.mkv",size := 2 ^ 33 + 5,sourceID := 1,sourcePort := 4662 }

def songFile : File :=
  { hash := replicate 16 8, name := lit "beta.mp3", size := 5, type := lit "Audio", sources := 1, completed := 1
    title := lit "t", artist := lit "r", album := lit "l", runtime := 180, bitrate := 320, codec := lit "c", sourceID := 1
    sourcePort := 2, metaInfo := some ⟨1,1,0,lit "p",9,lit "i",4,6,2,lit "x",0,lit "m",0⟩ }

def storing : Zlib where
  deflate payload := payload
  inflate payload := some payload
  inflate_deflate _ := rfl

theorem songFile_fits : ∀ f ∈ [songFile,plainFile], FileFits f := by
  simp only [forall_mem_cons,not_mem_nil,false_imp_iff,implies_true,and_true]
  constructor
  · constructor
    case metaInfo =>
      rintro m ⟨rfl⟩
      constructor <;> decide +kernel
    all_goals decide +kernel
  · constructor
    case metaInfo => exact fun _ there => by cases there
    all_goals decide +kernel

/-- A file with every tag and one with none cross in a page and in one datagram. -/
theorem search_results_cross_two : let files := [songFile,plainFile]
    (∀ f ∈ files, FileFits f) ∧ (files.flatMap recordWire).length + 6 < 2 ^ 32 ∧
    (∃ packet payload, buildSearchResultPacket storing files true = .ok packet ∧
      declaredSize packet = (packet.drop 5).length ∧ payloadOf storing packet = some payload ∧
      payload = leBytes 4 files.length ++ (files.flatMap recordWire ++ [UInt8.ofNat (moreByte true)]) ∧
      getFileList true payload = .ok (files.map recordOf,[UInt8.ofNat (moreByte true)])) ∧
    ∃ groups : List (List File), groups.flatten = files ∧ buildGlobSearchResPackets files =
      .ok (groups.map (·.flatMap (fun f => prED2K :: opGlobSearchRes :: recordWire f))) := by
  intro files
  have small : (files.flatMap recordWire).length + 6 < 2 ^ 32 := by decide +kernel
  obtain ⟨page,groups,flat,built,-⟩ := search_results_cross storing files true songFile_fits
  exact ⟨songFile_fits,small,page small,groups,flat,built⟩

theorem exists_long_code [Fintype α] {code : α → Bytes} (lossless : Function.Injective code)
    (many : k * 256 ^ k < Fintype.card α) : ∃ x, k ≤ (code x).length := by
  by_contra short
  push Not at short
  let place : α → Fin k × (Fin k → Fin 256) :=
    fun x => (⟨(code x).length,short x⟩,fun i => ⟨((code x)[i.val]?.getD 0).toNat,UInt8.toNat_lt _⟩)
  have injective : Function.Injective place := by
    intro x y same
    have lengths : (code x).length = (code y).length := congrArg (fun p => p.1.val) same
    refine lossless (ext_getElem lengths fun i inX inY => ?_)
    have entries := congrArg (fun p => (p.2 ⟨i,Nat.lt_trans inX (short x)⟩).val) same
    simp only [place,getElem?_eq_getElem inX,getElem?_eq_getElem inY,Option.getD_some] at entries
    exact UInt8.toNat_inj.mp entries
  have card := Fintype.card_le_of_injective place injective
  simp only [Fintype.card_prod,Fintype.card_fin,Fintype.card_fun] at card
  omega

def bareFile (hash : Fin 16 → Fin 256) : File := { hash := ofFn fun i => UInt8.ofNat (hash i).val }

theorem bareFile_fits (hash : Fin 16 → Fin 256) : FileFits (bareFile hash) := by
  constructor <;> simp [bareFile]

theorem bareFiles_fit (hashes : Fin n → Fin 16 → Fin 256) :
    ∀ f ∈ ofFn (fun i => bareFile (hashes i)), FileFits f := by
  simp only [forall_mem_ofFn_iff]
  exact fun i => bareFile_fits (hashes i)

theorem bareFiles_injective (few : n < 2 ^ 32) : Function.Injective
    (fun hashes : Fin n → Fin 16 → Fin 256 => pageWire (ofFn fun i => bareFile (hashes i)) false) := by
  intro a b same
  have readA := page_reads (bareFiles_fit a) (by simpa using few) false
  have readB := page_reads (bareFiles_fit b) (by simpa using few) false
  change pageWire _ _ = pageWire _ _ at same
  rw [same,readB] at readA
  have records := congrArg Prod.fst (Except.ok.inj readA)
  simp only [map_ofFn] at records
  funext i j
  have record := congrFun (ofFn_injective records) i
  have hash : ofFn (fun j => UInt8.ofNat (b i j).val) = ofFn (fun j => UInt8.ofNat (a i j).val) :=
    congrArg FileRecord.hash record
  have byte := congrFun (ofFn_injective hash) j
  have number := congrArg UInt8.toNat byte
  rw [UInt8.toNat_ofNat_of_lt' (b i j).isLt,UInt8.toNat_ofNat_of_lt' (a i j).isLt] at number
  exact Fin.ext number.symm

theorem card_hashes (k : Nat) : 8 * k * 256 ^ (8 * k) < Fintype.card (Fin k → Fin 16 → Fin 256) := by
  have count : Fintype.card (Fin k → Fin 16 → Fin 256) = 256 ^ (8 * k) * 256 ^ (8 * k) := by
    simp only [Fintype.card_fun,Fintype.card_fin]
    rw [← Nat.pow_mul,← Nat.pow_add]
    congr 1
    omega
  rw [count]
  exact Nat.mul_lt_mul_of_pos_right (Nat.lt_pow_self (by decide)) (Nat.pow_pos (by decide))

/-- Whatever compressor is used, some page is sent with a size that is not its own. -/
theorem page_size_wraps : ¬∃ z : Zlib, ∀ files : List File, (∀ f ∈ files, FileFits f) →
    ∃ packet, buildSearchResultPacket z files false = .ok packet ∧ declaredSize packet = (packet.drop 5).length := by
  rintro ⟨z,sized⟩
  obtain ⟨k,eighth⟩ : ∃ k, 8 * k = 2 ^ 32 := ⟨2 ^ 29,by norm_num⟩
  have deflates : Function.Injective z.deflate := by
    intro a b same
    have back := z.inflate_deflate a
    rw [same,z.inflate_deflate b] at back
    exact (Option.some.inj back).symm
  obtain ⟨hashes,long⟩ := exists_long_code (deflates.comp (bareFiles_injective (n := k) (by omega)))
    (card_hashes k)
  have fits := bareFiles_fit hashes
  obtain ⟨packet,built,exact⟩ := sized _ fits
  have plainLong : 2 ^ 32 ≤ (pageWire (ofFn fun i => bareFile (hashes i)) false).length := by
    have each := records_length fits
    simp only [length_ofFn,minFileRecordBytes] at each
    simp only [pageWire,length_append,leBytes_length,length_singleton]
    omega
  rw [buildSearchResultPacket,makePacket_page fits false] at built
  have packetIs : maybeCompressTCPPacket z _ minZlibPayloadOnSend = packet := Except.ok.inj built
  have wrong : ∀ (protocol : UInt8) (payload : Bytes), 2 ^ 32 ≤ payload.length →
      declaredSize (protocol :: (leBytes 4 (payload.length + 1) ++ opSearchResult :: payload)) ≠ payload.length + 1 := by
    intro _ _ _
    rw [declaredSize_header]
    omega
  obtain plain | ⟨-,compressed⟩ := compress_cases z _ opSearchResult
    (pageWire (ofFn fun i => bareFile (hashes i)) false) minZlibPayloadOnSend
  · rw [← packetIs,plain] at exact
    exact wrong _ _ plainLong exact
  · rw [← packetIs,compressed] at exact
    rw [eighth] at long
    exact wrong _ _ long exact

end ENode.Ed2k
