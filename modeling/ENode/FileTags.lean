import ENode.TagsOnTheWire

/-! The tags a file is sent with, and the record that reading them makes. -/
namespace ENode.Ed2k

open GoText ByteNumbers Cursor Storage List

/-- The ranges of the field types, and strings whose length fits its two bytes. -/
structure MetaFits (m : MetaInfo) : Prop where
  kind : m.kind < 2 ^ 8
  version : m.version < 2 ^ 8
  fileIndex : m.fileIndex < 2 ^ 32
  filePath : m.filePath.length < 2 ^ 16
  totalSize : m.totalSize < 2 ^ 64
  catalogID : m.catalogID.length < 2 ^ 16
  seeders : m.seeders < 2 ^ 32
  peers : m.peers < 2 ^ 32
  ageDays : m.ageDays < 2 ^ 32
  indexer : m.indexer.length < 2 ^ 16
  flags : m.flags < 2 ^ 32
  magnet : m.magnet.length < 2 ^ 16

structure FileFits (f : File) : Prop where
  hash : f.hash.length = 16
  name : f.name.length < 2 ^ 16
  size : f.size < 2 ^ 64
  type : f.type.length < 2 ^ 16
  sources : f.sources < 2 ^ 32
  completed : f.completed < 2 ^ 32
  title : f.title.length < 2 ^ 16
  artist : f.artist.length < 2 ^ 16
  album : f.album.length < 2 ^ 16
  runtime : f.runtime < 2 ^ 32
  bitrate : f.bitrate < 2 ^ 32
  codec : f.codec.length < 2 ^ 16
  sourceID : f.sourceID < 2 ^ 32
  sourcePort : f.sourcePort < 2 ^ 16
  metaInfo : ∀ m ∈ f.metaInfo, MetaFits m

/-- The record a file is read back as; the tags without a field are kept in their order. -/
def recordOf (f : File) : FileRecord where
  hash := f.hash
  complete := !(f.sourceID == valPartialID && f.sourcePort == valPartialPort)
  id := f.sourceID
  port := f.sourcePort
  sizeLo := f.size % 2 ^ 32
  sizeHi := f.size / 2 ^ 32
  size := f.size
  name := f.name
  type := f.type
  sources := f.sources
  title := f.title
  artist := f.artist
  album := f.album
  length := f.runtime
  bitrate := f.bitrate
  codec := f.codec
  extra := (uint32Tag tagCompleteSources f.completed :: metaTags f.metaInfo).map Tag.named
  rawLo := f.size % 2 ^ 32
  rawHi := f.size / 2 ^ 32

variable {code : UInt8}

theorem stringTag_fits {s : Bytes} (short : s.length < 2 ^ 16) : (stringTag code s).Fits :=
  ⟨rfl,short⟩

theorem uint32Tag_fits (small : n < 2 ^ 32) : (uint32Tag code n).Fits := ⟨rfl,small⟩

theorem uint8Tag_fits (small : n < 2 ^ 8) : (uint8Tag code n).Fits := ⟨rfl,small⟩

theorem stringIfAny_fits {s : Bytes} (short : s.length < 2 ^ 16) : ∀ t ∈ stringIfAny code s, t.Fits := by
  unfold stringIfAny
  split
  · simp
  · exact forall_mem_singleton.mpr (stringTag_fits short)

theorem uint32IfAny_fits (small : n < 2 ^ 32) : ∀ t ∈ uint32IfAny code n, t.Fits := by
  unfold uint32IfAny
  split
  · exact forall_mem_singleton.mpr (uint32Tag_fits small)
  · simp

theorem releaseTags_fit (fits : MetaFits m) : ∀ t ∈ releaseTags m, t.Fits := by
  have whole : ∀ t ∈ (if m.totalSize > 0 then [⟨typeUint64,tagMetaTotalSize,.uint64 m.totalSize⟩] else [] : List Tag),
      t.Fits := by
    split
    · exact forall_mem_singleton.mpr ⟨rfl,fits.totalSize⟩
    · simp
  simp only [releaseTags,forall_mem_append,forall_mem_cons]
  exact ⟨⟨⟨⟨⟨⟨⟨uint8Tag_fits fits.kind,uint8Tag_fits fits.version,uint32Tag_fits fits.fileIndex,by simp⟩,
    stringIfAny_fits fits.filePath⟩,whole⟩,
    stringTag_fits fits.catalogID,uint32Tag_fits fits.seeders,uint32Tag_fits fits.peers,uint32Tag_fits fits.ageDays,
      by simp⟩,
    stringIfAny_fits fits.indexer⟩,uint32Tag_fits fits.flags,by simp⟩,stringIfAny_fits fits.magnet⟩

theorem metaTags_fit (fits : ∀ m ∈ info, MetaFits m) : ∀ t ∈ metaTags info, t.Fits := by
  cases info with
  | none => simp [metaTags]
  | some m =>
    rw [metaTags]
    split
    · have small : metaNetworkOf m < 2 ^ 8 := by unfold metaNetworkOf; split <;> decide
      exact forall_mem_singleton.mpr (uint8Tag_fits small)
    · exact releaseTags_fit (fits m rfl)

theorem sizeHi_ifAny (size : Nat) :
    (if size ≥ 2 ^ 32 then [uint32Tag tagSizeHi (size / 2 ^ 32)] else []) = uint32IfAny tagSizeHi (size / 2 ^ 32) := by
  unfold uint32IfAny
  have same : size ≥ 2 ^ 32 ↔ size / 2 ^ 32 > 0 := by omega
  simp only [same]

theorem fileTags_fit (fits : FileFits f) : ∀ t ∈ fileTags f, t.Fits := by
  have upper : f.size / 2 ^ 32 < 2 ^ 32 := by have := fits.size; omega
  simp only [fileTags,sizeHi_ifAny,forall_mem_append,forall_mem_cons]
  exact ⟨⟨⟨⟨⟨⟨⟨⟨⟨stringTag_fits fits.name,uint32Tag_fits (Nat.mod_lt _ (by decide)),stringTag_fits fits.type,
    uint32Tag_fits fits.sources,uint32Tag_fits fits.completed,by simp⟩,
    uint32IfAny_fits upper⟩,stringIfAny_fits fits.title⟩,stringIfAny_fits fits.artist⟩,
    stringIfAny_fits fits.album⟩,uint32IfAny_fits fits.runtime⟩,uint32IfAny_fits fits.bitrate⟩,
    stringIfAny_fits fits.codec⟩,metaTags_fit fits.metaInfo⟩

theorem ifAny_length (code : UInt8) (s : Bytes) (n : Nat) :
    (stringIfAny code s).length ≤ 1 ∧ (uint32IfAny code n).length ≤ 1 := by
  unfold stringIfAny uint32IfAny
  constructor <;> split <;> simp

theorem metaTags_length (info : Option MetaInfo) : (metaTags info).length ≤ 12 := by
  cases info with
  | none => simp [metaTags]
  | some m =>
    have path := (ifAny_length tagMetaFilePath m.filePath 0).1
    have indexer := (ifAny_length tagMetaIndexer m.indexer 0).1
    have magnet := (ifAny_length tagMetaMagnet m.magnet 0).1
    have total : (if m.totalSize > 0 then [⟨typeUint64,tagMetaTotalSize,.uint64 m.totalSize⟩] else [] :
        List Tag).length ≤ 1 := by split <;> simp
    rw [metaTags]
    split
    · simp
    simp only [releaseTags,length_append,length_cons,length_nil]
    omega

theorem fileTags_length (f : File) : (fileTags f).length ≤ 24 := by
  have hi := (ifAny_length tagSizeHi [] (f.size / 2 ^ 32)).2
  have title := (ifAny_length tagMediaTitle f.title 0).1
  have artist := (ifAny_length tagMediaArtist f.artist 0).1
  have album := (ifAny_length tagMediaAlbum f.album 0).1
  have runtime := (ifAny_length tagMediaLength [] f.runtime).2
  have bitrate := (ifAny_length tagMediaBitrate [] f.bitrate).2
  have codec := (ifAny_length tagMediaCodec f.codec 0).1
  have release := metaTags_length f.metaInfo
  simp only [fileTags,sizeHi_ifAny,length_append,length_cons,length_nil]
  omega

def intoRecord (r : FileRecord) (t : Tag) : FileRecord := r.setTag true t.named

theorem stringTag_read (named : fieldNamed (tagName code) = some field)
    (s : Bytes) (r : FileRecord) : intoRecord r (stringTag code s) = r.setField (.string s) field := by
  simp [intoRecord,FileRecord.setTag,Tag.named,stringTag,Value.read,named]

theorem uint32Tag_read (named : fieldNamed (tagName code) = some field)
    (n : Nat) (r : FileRecord) : intoRecord r (uint32Tag code n) = r.setField (.uint64 n) field := by
  simp [intoRecord,FileRecord.setTag,Tag.named,uint32Tag,Value.read,named]

def Fieldless (code : UInt8) : Prop := fieldNamed (tagName code) = none

theorem extra_read {t : Tag} (fieldless : Fieldless t.code) (r : FileRecord) :
    intoRecord r t = { r with extra := r.extra ++ [t.named] } := by
  rw [Fieldless] at fieldless
  simp [intoRecord,FileRecord.setTag,Tag.named,fieldless]

theorem stringIfAny_read (named : fieldNamed (tagName code) = some field)
    (s : Bytes) {r : FileRecord} (unset : r.setField (.string []) field = r) :
    (stringIfAny code s).foldl intoRecord r = r.setField (.string s) field := by
  unfold stringIfAny
  split
  next empty => rw [empty,unset,foldl_nil]
  · exact stringTag_read named s r

theorem uint32IfAny_read (named : fieldNamed (tagName code) = some field)
    (n : Nat) {r : FileRecord} (unset : r.setField (.uint64 0) field = r) :
    (uint32IfAny code n).foldl intoRecord r = r.setField (.uint64 n) field := by
  unfold uint32IfAny
  split
  · exact uint32Tag_read named n r
  next zero =>
    have none : n = 0 := by omega
    rw [none,unset,foldl_nil]

theorem extras_read {ts : List Tag} (fieldless : ∀ t ∈ ts, Fieldless t.code) (r : FileRecord) :
    ts.foldl intoRecord r = { r with extra := r.extra ++ ts.map Tag.named } := by
  induction ts generalizing r with
  | nil => simp
  | cons t _ ih =>
    rw [foldl_cons,extra_read (fieldless t (.head _)),
      ih (fun u there => fieldless u (.tail _ there))]
    simp

theorem meta_fieldless : ∀ code ∈ [tagMetaKind,tagMetaVersion,tagMetaFileIndex,tagMetaFilePath,tagMetaTotalSize,
    tagMetaID,tagMetaSeeders,tagMetaPeers,tagMetaAge,tagMetaIndexer,tagMetaFlags,tagMetaMagnet,tagMetaNetwork,
    tagCompleteSources], Fieldless code := by
  unfold Fieldless
  decide +kernel

theorem stringIfAny_fieldless (s : Bytes) (fieldless : Fieldless code) :
    ∀ t ∈ stringIfAny code s, Fieldless t.code := by
  unfold stringIfAny
  split
  · simp
  · exact forall_mem_singleton.mpr fieldless

theorem metaTags_fieldless (info : Option MetaInfo) : ∀ t ∈ metaTags info, Fieldless t.code := by
  have known := meta_fieldless
  simp only [forall_mem_cons] at known
  obtain ⟨kind,version,fileIndex,filePath,totalSize,catalogID,seeders,peers,age,indexer,flags,magnet,network,-⟩ := known
  cases info with
  | none => simp [metaTags]
  | some m =>
    have whole : ∀ t ∈ (if m.totalSize > 0 then [⟨typeUint64,tagMetaTotalSize,.uint64 m.totalSize⟩] else [] : List Tag),
        Fieldless t.code := by
      split
      · exact forall_mem_singleton.mpr totalSize
      · simp
    rw [metaTags]
    split
    · exact forall_mem_singleton.mpr network
    simp only [releaseTags,forall_mem_append,forall_mem_cons]
    exact ⟨⟨⟨⟨⟨⟨⟨kind,version,fileIndex,by simp⟩,stringIfAny_fieldless _ filePath⟩,whole⟩,
      catalogID,seeders,peers,age,by simp⟩,stringIfAny_fieldless _ indexer⟩,flags,by simp⟩,
      stringIfAny_fieldless _ magnet⟩

/-- The tags of a file, read into a record that has only its hash and its source. -/
theorem fileTags_read {f : File} (fits : FileFits f) : (fileTags f).foldl intoRecord
    { hash := f.hash,complete := !(f.sourceID == valPartialID && f.sourcePort == valPartialPort),
      id := f.sourceID,port := f.sourcePort } = recordOf f := by
  have name : fieldNamed (tagName tagCodeName) = some .name := by decide +kernel
  have size : fieldNamed (tagName tagSize) = some .size := by decide +kernel
  have type : fieldNamed (tagName tagType) = some .type := by decide +kernel
  have sources : fieldNamed (tagName tagSources) = some .sources := by decide +kernel
  have completed : Fieldless (uint32Tag tagCompleteSources f.completed).code := meta_fieldless _ (by simp [uint32Tag])
  have sizehi : fieldNamed (tagName tagSizeHi) = some .sizehi := by decide +kernel
  have title : fieldNamed (tagName tagMediaTitle) = some .title := by decide +kernel
  have artist : fieldNamed (tagName tagMediaArtist) = some .artist := by decide +kernel
  have album : fieldNamed (tagName tagMediaAlbum) = some .album := by decide +kernel
  have length : fieldNamed (tagName tagMediaLength) = some .length := by decide +kernel
  have bitrate : fieldNamed (tagName tagMediaBitrate) = some .bitrate := by decide +kernel
  have codec : fieldNamed (tagName tagMediaCodec) = some .codec := by decide +kernel
  have low : f.size % 2 ^ 32 % 2 ^ 32 = f.size % 2 ^ 32 := Nat.mod_mod _ _
  have high : f.size / 2 ^ 32 % 2 ^ 32 = f.size / 2 ^ 32 := by have := fits.size; omega
  have whole : (f.size % 2 ^ 32 + f.size / 2 ^ 32 * 2 ^ 32) % 2 ^ 64 = f.size := by have := fits.size; omega
  have capped : ∀ n, n < 2 ^ 32 → min n (2 ^ 32 - 1) = n := fun _ _ => by omega
  rw [fileTags,sizeHi_ifAny]
  simp only [foldl_append]
  rw [foldl_cons,foldl_cons,foldl_cons,foldl_cons,foldl_cons,foldl_nil,
    stringTag_read name,uint32Tag_read size,stringTag_read type,uint32Tag_read sources,
    extra_read completed,uint32IfAny_read sizehi,stringIfAny_read title,stringIfAny_read artist,
    stringIfAny_read album,uint32IfAny_read length,uint32IfAny_read bitrate,stringIfAny_read codec,
    extras_read (metaTags_fieldless f.metaInfo)]
  · simp only [FileRecord.setField,TagValue.asString,TagValue.asUint64,tagUint32,capped _ fits.sources,
      capped _ fits.runtime,capped _ fits.bitrate,low,high,whole]
    rfl
  all_goals simp [FileRecord.setField,TagValue.asString,TagValue.asUint64,tagUint32]

end ENode.Ed2k
