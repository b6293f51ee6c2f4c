import ENode.Metered
import ENode.FileRecords

/-! The decoders of tags and of file lists with their positions and their allocations. A count on
the wire is refused when the bytes left could not hold as many elements; each check can be left
out here, to compare with the decoder that does without it. -/
namespace ENode.Ed2k.Buffer

open GoText ByteNumbers Metered

abbrev Decoding (α : Type) := Program BufferError α

/-- A bound on an error value with its text, and the sizes of what is allocated. -/
def errorBytes : Nat := 512
def stringBytes : Nat := 16
def sliceBytes : Nat := 24
def namedTagBytes : Nat := 40
def fileRecordBytes : Nat := 208

def maxTagPrealloc : Nat := 64
def maxFileRecordPrealloc : Nat := 256

def require (n : Nat) : Decoding Unit := do
  let b ← readMem
  if b.pointer + n > b.data.length then fail .outOfBounds else pure ()

def remaining : Decoding Nat := do
  let b ← readMem
  pure (b.data.length - b.pointer)

def fetch (width : Nat) : Decoding Bytes := do
  require width
  let b ← readMem
  let v ← slice b.pointer (b.pointer + width)
  moveTo (b.pointer + width)
  pure v

def getUInt8 : Decoding UInt8 := do pure ((← fetch 1).headD 0)

def getUInt (width : Nat) : Decoding Nat := do pure (leValue (← fetch width))

def getUInt64LE : Decoding Nat := do
  let v ← fetch 8
  pure (leValue (v.take 4) + leValue (v.drop 4) * 2 ^ 32)

/-- What there is, if it is less. -/
def get (length : Nat) : Decoding Bytes :=
  if length = 0 then pure []
  else do
    let b ← readMem
    let stop := min (b.pointer + length) b.data.length
    let out ← slice b.pointer stop
    moveTo stop
    pure out

def getExactly (length : Nat) : Decoding Bytes := do
  if (← remaining) < length then fail .outOfBounds else get length

/-- The bytes are copied. -/
def getText (length : Nat) : Decoding Bytes := do
  let s ← getExactly length
  charge length
  pure s

def getString : Decoding Bytes := do getText (← getUInt 2)

/-- A value put into an interface. -/
def boxed (bytes : Nat) (x : Decoding α) (f : α → TagValue) : Decoding TagValue := do
  let v ← x
  charge bytes
  pure (f v)

def getTagValue (type : UInt8) : Decoding TagValue :=
  if type = typeString then boxed stringBytes getString .string
  else if type = typeUint8 then boxed 8 getUInt8 (fun v => .uint64 v.toNat)
  else if type = typeUint16 then boxed 8 (getUInt 2) .uint64
  else if type = typeUint32 then boxed 8 (getUInt 4) .uint64
  else if type = typeUint64 then boxed 8 getUInt64LE .uint64
  else if type = typeHash then boxed sliceBytes (getText 16) .bytes
  else if type = typeFloat then boxed 4 (getExactly 4) (fun v => .float (leValue v))
  else if type = typeBool then boxed 0 getUInt8 (fun v => .bool (v ≠ 0))
  else if type = typeBlob then boxed sliceBytes (do getText (← getUInt 4)) .bytes
  else if type = typeBsob then boxed sliceBytes (do getText (← getUInt8).toNat) .bytes
  else if type = typeBoolArray then boxed 0 (do getExactly ((← getUInt 2) / 8 + 1)) (fun _ => .nil)
  else if 0x11 ≤ type ∧ type ≤ 0x20 then boxed stringBytes (getText (type - 0x10).toNat) .string
  else do
    charge errorBytes
    fail (.unsupportedType type)

/-- A code without a name of its own is printed. -/
def named (code : UInt8) : Decoding Bytes := do
  charge (if (tagNames.lookup code).isSome then 0 else (tagName code).length)
  pure (tagName code)

def stage (at' : TagStage) (type code : UInt8) (x : Decoding α) : Decoding α :=
  wrap (.tagDecode at' type code) errorBytes x

def valueOf (type code narrow : UInt8) : Decoding NamedTag := do
  let v ← stage .value type code (getTagValue narrow)
  pure ⟨← named code,v,reportedType narrow⟩

/-- Bit 7 was set: a code follows, and a short string's length is in the type. -/
def getShortTag (type : UInt8) : Decoding NamedTag := do
  let code ← stage .shortCode type 0 getUInt8
  let narrow := type &&& 0x7f
  if narrow ≥ 0x10 then
    let s ← stage .shortString type code (getText (narrow - 0x10).toNat)
    charge stringBytes
    pure ⟨← named code,.string s,typeString⟩
  else valueOf type code narrow

def getLongTag (type : UInt8) : Decoding NamedTag := do
  let length ← stage .nameLen type 0 (getUInt 2)
  if length = 1 then
    let code ← stage .nameCode type 0 getUInt8
    valueOf type code type
  else
    let name ← stage .nameString type 0 (getText length)
    let v ← stage .value type 0 (getTagValue type)
    pure ⟨name,v,reportedType type⟩

def getTag : Decoding NamedTag := do
  let type ← getUInt8
  if type &&& 0x80 ≠ 0 then getShortTag type else getLongTag type

def checkWireCount (checked : Bool) (count minBytesEach : Nat) (what : String) : Decoding Unit := do
  let left ← remaining
  if checked ∧ count > left / minBytesEach then
    charge errorBytes
    fail (.wireCount what count left)
  else pure ()

/-- A count, its check, and what follows. -/
def counted (checked : Bool) (minBytesEach : Nat) (what : String) (body : Nat → Decoding α) : Decoding α := do
  let count ← getUInt 4
  checkWireCount checked count minBytesEach what
  body count

def tagAt (i : Nat) : Decoding NamedTag := wrap (.inTags i) errorBytes getTag

def getTags (checked : Bool) : Decoding (List NamedTag) :=
  counted checked minTagBytes "tags" (collect namedTagBytes maxTagPrealloc tagAt)

/-- `SetTag`, and the append to `Extra`, whose capacity goes with the record. -/
def storeTag (keepExtra : Bool) (s : FileRecord × Nat) (t : NamedTag) : Decoding (FileRecord × Nat) :=
  match fieldNamed t.name with
  | some field => pure (s.1.setField t.value field,s.2)
  | none =>
    if keepExtra then do
      let extra ← append namedTagBytes ⟨s.1.extra,s.2⟩ t
      pure ({ s.1 with extra := extra.items },extra.cap)
    else pure s

def readFileTags (keepExtra : Bool) (record : FileRecord) (count : Nat) : Decoding FileRecord := do
  let s ← loop (fun i s => do storeTag keepExtra s (← tagAt i)) count 0 (record,0)
  pure s.1

def getFileTags (checked keepExtra : Bool) (record : FileRecord) : Decoding FileRecord :=
  counted checked minTagBytes "tags" (readFileTags keepExtra record)

def getHash : Decoding Bytes := do
  let hash ← get 16
  charge hash.length
  if hash.length ≠ 16 then fail .outOfBounds else pure hash

def getFileRecord (checked keepExtra : Bool) (i : Nat) : Decoding FileRecord := do
  let hash ← getHash
  let id ← getUInt 4
  let port ← getUInt 2
  wrap (.inFileList i hash id port) errorBytes
    (getFileTags checked keepExtra { hash := hash,complete := !(id == valPartialID && port == valPartialPort),
                                     id := id,port := port })

/-- One flag for the check of the records' count, one for the checks of their tags' counts. -/
def getFileList (checked checkedTags keepExtra : Bool) : Decoding (List FileRecord) :=
  counted checked minFileRecordBytes "file records"
    (collect fileRecordBytes maxFileRecordPrealloc (getFileRecord checkedTags keepExtra))

theorem exec_fetch (width : Nat) (m : Mem) : exec (fetch width) m =
    if m.pointer + width > m.data.length then (.error (.failed .outOfBounds),m)
    else (.ok ((m.data.drop m.pointer).take width),{ m with pointer := m.pointer + width }) := by
  rw [fetch,exec_bind]
  change andThen _ (exec (if m.pointer + width > m.data.length then _ else _) m) = _
  split
  · rfl
  change exec (slice m.pointer (m.pointer + width) >>= _) m = _
  rw [exec_bind_ok (exec_slice (by omega) (by omega)),List.drop_take,Nat.add_sub_cancel_left]
  rfl

variable (length : Nat)

theorem exec_get (m : Mem) (valid : m.pointer ≤ m.data.length) : exec (get length) m =
    (.ok ((m.data.drop m.pointer).take length),{ m with pointer := min (m.pointer + length) m.data.length }) := by
  rw [get]
  split
  · rename_i none
    rw [none,Nat.add_zero,Nat.min_eq_left valid]
    rfl
  · change exec (slice m.pointer (min (m.pointer + length) m.data.length) >>= _) m = _
    have cut : (m.data.drop m.pointer).take (min (m.pointer + length) m.data.length - m.pointer) =
        (m.data.drop m.pointer).take length :=
      List.take_eq_take_iff.mpr (by rw [List.length_drop]; omega)
    rw [exec_bind_ok (exec_slice (by omega) (by omega)),List.drop_take,cut]
    rfl

theorem exec_getExactly (m : Mem) (valid : m.pointer ≤ m.data.length) :
    exec (getExactly length) m = if m.data.length - m.pointer < length then (.error (.failed .outOfBounds),m)
    else (.ok ((m.data.drop m.pointer).take length),{ m with pointer := m.pointer + length }) := by
  rw [getExactly,exec_bind]
  change exec (if m.data.length - m.pointer < length then _ else _) m = _
  split
  · rfl
  · rw [exec_get length m valid,Nat.min_eq_left (by omega)]

theorem fetch_priced (width : Nat) : Priced 1 0 width 0 (fetch width) := by
  intro _ valid
  rw [exec_fetch]
  split
  · exact ⟨rfl,le_rfl,valid,by omega⟩
  · exact ⟨rfl,le_rfl,by simp only; omega,by simp only; omega⟩

theorem getExactly_priced : Priced 0 0 0 0 (getExactly length) := by
  intro m valid
  rw [exec_getExactly length m valid]
  split
  · exact ⟨rfl,le_rfl,valid,by omega⟩
  · exact ⟨rfl,Nat.le_add_right _ _,by simp only; omega,by simp only; omega⟩

theorem getText_priced : Priced 1 0 0 0 (getText length) := by
  intro m valid
  rw [getText,exec_bind,exec_getExactly length m valid]
  split
  · exact ⟨rfl,le_rfl,valid,by omega⟩
  · exact ⟨rfl,Nat.le_add_right _ _,by simp only; omega,by simp only; omega⟩

theorem getUInt8_priced : Priced 1 0 1 0 getUInt8 := (fetch_priced 1).bind fun _ => .pure _

theorem getUInt_priced (width : Nat) : Priced 1 0 width 0 (getUInt width) := (fetch_priced width).bind fun _ => .pure _

theorem boxed_priced {x : Decoding α} (priced : Priced 1 0 least 0 x) (f : α → TagValue)
    (small : bytes ≤ 24) : Priced 1 errorBytes 0 24 (boxed bytes x f) :=
  (priced.bind fun v => (Priced.charge bytes).bind fun _ => .pure (f v)).weaken le_rfl
    (by rw [errorBytes]; omega) (Nat.zero_le _) (by omega)

variable (type : UInt8)

theorem getTagValue_priced : Priced 1 errorBytes 0 24 (getTagValue type) := by
  have sized (width : Nat) : Priced 1 0 width 0 (do getText (← getUInt width)) :=
    (getUInt_priced width).bind fun n => getText_priced n
  have bits (n : Nat) : Priced 1 0 0 0 (getExactly n) :=
    (getExactly_priced n).weaken (by decide) le_rfl le_rfl le_rfl
  rw [getTagValue]
  refine .ite (fun _ => boxed_priced (sized 2) _ (by decide)) fun _ => ?_
  refine .ite (fun _ => boxed_priced getUInt8_priced _ (by decide)) fun _ => ?_
  refine .ite (fun _ => boxed_priced (getUInt_priced 2) _ (by decide)) fun _ => ?_
  refine .ite (fun _ => boxed_priced (getUInt_priced 4) _ (by decide)) fun _ => ?_
  refine .ite (fun _ => boxed_priced ((fetch_priced 8).bind fun _ => .pure _) _ (by decide)) fun _ => ?_
  refine .ite (fun _ => boxed_priced (getText_priced 16) _ (by decide)) fun _ => ?_
  refine .ite (fun _ => boxed_priced (bits 4) _ (by decide)) fun _ => ?_
  refine .ite (fun _ => boxed_priced getUInt8_priced _ (by decide)) fun _ => ?_
  refine .ite (fun _ => boxed_priced (sized 4) _ (by decide)) fun _ => ?_
  refine .ite (fun _ => boxed_priced (getUInt8_priced.bind fun n => getText_priced n.toNat) _ (by decide)) fun _ => ?_
  refine .ite (fun _ => boxed_priced ((getUInt_priced 2).bind fun n => bits (n / 8 + 1)) _ (by decide)) fun _ => ?_
  refine .ite (fun _ => boxed_priced (getText_priced _) _ (by decide)) fun _ => ?_
  exact .refuse errorBytes _

theorem tagName_short (code : UInt8) (unknown : ¬(tagNames.lookup code).isSome) : (tagName code).length ≤ 4 := by
  rw [Option.not_isSome_iff_eq_none] at unknown
  rw [tagName,unknown]
  simp only [List.length_append,hexByte]
  have text : (lit "0x").length = 2 := by decide
  split <;> simp [text]

theorem named_priced (code : UInt8) : Priced 1 4 0 4 (named code) := by
  have short : (if (tagNames.lookup code).isSome then 0 else (tagName code).length) ≤ 4 := by
    split
    · exact Nat.zero_le _
    · exact tagName_short code ‹_›
  exact ((Priced.charge _).bind fun _ => .pure _).weaken le_rfl (by omega) le_rfl (by omega)

theorem stage_priced (priced : Priced rate debt least extra x)
    (at' : TagStage) (type code : UInt8) : Priced rate (debt + errorBytes) least extra (stage at' type code x) :=
  priced.wrap _ _

theorem valueOf_priced (type code narrow : UInt8) : Priced 1 1100 0 28 (valueOf type code narrow) :=
  ((stage_priced (getTagValue_priced narrow) .value type code).bind fun _ =>
    (named_priced code).bind fun _ => .pure _).weaken le_rfl (by decide) le_rfl le_rfl

theorem getShortTag_priced : Priced 1 1100 1 28 (getShortTag type) := by
  have text (code : UInt8) (length : Nat) : Priced 1 1100 0 28 (do
      let s ← stage .shortString type code (getText length)
      charge stringBytes
      pure (⟨← named code,.string s,typeString⟩ : NamedTag)) :=
    ((stage_priced (getText_priced _) _ _ _).bind fun _ => (Priced.charge _).bind fun _ =>
      (named_priced code).bind fun _ => .pure _).weaken le_rfl (by decide) le_rfl (by decide)
  exact ((stage_priced getUInt8_priced _ _ _).bind fun code =>
    .ite (fun _ => text code _) fun _ => valueOf_priced _ _ _).weaken
    le_rfl (by decide) le_rfl le_rfl

theorem getLongTag_priced : Priced 1 1100 1 28 (getLongTag type) := by
  have coded : Priced 1 1100 0 28 (do
      let code ← stage .nameCode type 0 getUInt8
      valueOf type code type) :=
    ((stage_priced getUInt8_priced _ _ _).bind fun _ => valueOf_priced _ _ _).weaken
      le_rfl (by decide) (by decide) le_rfl
  have texted (length : Nat) : Priced 1 1100 0 28 (do
      let name ← stage .nameString type 0 (getText length)
      let v ← stage .value type 0 (getTagValue type)
      pure (⟨name,v,reportedType type⟩ : NamedTag)) :=
    ((stage_priced (getText_priced _) _ _ _).bind fun _ =>
      (stage_priced (getTagValue_priced _) _ _ _).bind fun _ => .pure _).weaken
      le_rfl (by decide) le_rfl (by decide)
  exact ((stage_priced (getUInt_priced 2) _ _ _).bind fun length =>
    .ite (fun _ => coded) fun _ => texted length).weaken le_rfl (by decide) (by decide) le_rfl

theorem getTag_priced : Priced 15 1100 minTagBytes 0 getTag :=
  (getUInt8_priced.bind fun type =>
    .ite (fun _ => getShortTag_priced type) fun _ => getLongTag_priced type).settle 14 (by decide)

theorem tagAt_priced (i : Nat) : Priced 15 1612 minTagBytes 0 (tagAt i) := getTag_priced.wrap _ _

variable (checked : Bool)

theorem exec_checkWireCount (count least : Nat) (what : String) (m : Mem) :
    exec (checkWireCount checked count least what) m =
      if checked ∧ count > (m.data.length - m.pointer) / least then
        (.error (.failed (.wireCount what count (m.data.length - m.pointer))),
          { m with allocated := m.allocated + errorBytes })
      else (.ok (),m) := by
  rw [checkWireCount,exec_bind]
  change exec (if checked ∧ count > (m.data.length - m.pointer) / least then _ else _) m = _
  split <;> rfl

/-- A declared count that passes its check is one the bytes left have room for. -/
theorem counted_priced {rate debt least : Nat} (what : String) (rated : 1 ≤ rate)
    (runs : ∀ count m, m.pointer ≤ m.data.length → (checked = true → m.pointer + least * count ≤ m.data.length) →
      Runs rate debt (least * count) 0 m (exec (body count) m)) :
    Priced rate (debt + errorBytes) 4 0 (counted checked least what body) := by
  have rest (count : Nat) : Priced rate (debt + errorBytes) 0 0
      (checkWireCount checked count least what >>= fun _ => body count) := by
    intro m valid
    rw [exec_bind,exec_checkWireCount]
    split
    · have scaled := Nat.mul_le_mul_left rate valid
      refine ⟨rfl,le_rfl,valid,?_⟩
      change m.allocated + errorBytes + rate * m.pointer ≤ _
      omega
    · rename_i passes
      refine (runs count m valid fun on => ?_).weaken valid le_rfl (Nat.le_add_right _ _) (Nat.zero_le _)
        le_rfl
      have few := Nat.le_of_not_lt fun more => passes ⟨on,more⟩
      have := Nat.mul_le_mul_left least few
      have := Nat.mul_div_le (m.data.length - m.pointer) least
      omega
  exact (((getUInt_priced 4).weaken rated le_rfl le_rfl le_rfl).bind rest).weaken
    le_rfl (by omega) le_rfl le_rfl

theorem counted_accepts (checked checked' : Bool)
    (what : String) (positive : 0 < least)
    (runs : ∀ count m, m.pointer ≤ m.data.length → Runs rate debt (least * count) 0 m (exec (body count) m))
    (accepts : ∀ count, Accepts (body count) (body' count)) :
    Accepts (counted checked least what body) (counted checked' least what body') := by
  refine (Accepts.refl (getUInt_priced 4)).bind fun count m v m' valid ok => ?_
  obtain ⟨_,_,passed,rest⟩ := exec_bind_inv ok
  rw [exec_checkWireCount] at passed
  split at passed
  · cases passed
  cases passed
  obtain ⟨valid',same⟩ := accepts count m v m' valid rest
  have long := runs count m valid
  rw [rest] at long
  have enough : count ≤ (m.data.length - m.pointer) / least := by
    rw [Nat.le_div_iff_mul_le positive,Nat.mul_comm]
    have := long.2.1
    have := long.2.2.1
    omega
  refine ⟨valid',?_⟩
  rw [exec_bind,exec_checkWireCount,if_neg (fun no => Nat.not_lt.mpr enough no.2)]
  exact same

theorem reserved {checked : Bool} {count limit least slot : Nat} {m : Mem}
    (room : checked = true → m.pointer + least * count ≤ m.data.length) :
    m.pointer + least * min count limit ≤ m.data.length ∨
      slot * min count limit ≤ if checked then 0 else slot * limit := by
  cases checked with
  | true =>
    have := room rfl
    have := Nat.mul_le_mul_left least (Nat.min_le_left count limit)
    exact .inl (by omega)
  | false => exact .inr (Nat.mul_le_mul_left slot (Nat.min_le_right count limit))

theorem getTags_priced :
    Priced 215 (2124 + if checked then 0 else namedTagBytes * maxTagPrealloc) 4 0 (getTags checked) :=
  (counted_priced checked "tags" (by decide) fun count m valid room =>
    collect_runs tagAt_priced 200 (by decide) count m valid _ (reserved room)).weaken le_rfl
    (by rw [errorBytes]; omega) le_rfl le_rfl

theorem storeTag_stores (keepExtra : Bool) (s : FileRecord × Nat) (t : NamedTag)
    (fits : (⟨s.1.extra,s.2⟩ : Slice NamedTag).Fits) :
    Stores namedTagBytes ⟨s.1.extra,s.2⟩ (fun s => ⟨s.1.extra,s.2⟩) (storeTag keepExtra s t) := by
  rw [storeTag]
  split
  · rename_i field _
    exact .none fits (by cases field <;> rfl)
  · split
    · intro m
      obtain ⟨_,more,stored,grows,paid⟩ := (Stores.append namedTagBytes fits t : Stores _ _ _ (append _ _ _ : Decoding _)) m
      exact ⟨_,more,exec_bind_ok stored _,grows,paid⟩
    · exact .none fits rfl

theorem readFileTags_runs (keepExtra : Bool) {record : FileRecord} (fresh : record.extra = []) (count : Nat) (m : Mem)
    (valid : m.pointer ≤ m.data.length) :
    Runs 215 1612 (minTagBytes * count) 0 m (exec (readFileTags keepExtra record count) m) := by
  rw [readFileTags,exec_bind]
  have filled := gathers tagAt_priced (storeTag_stores keepExtra) count 0 (record,0) (by rw [fresh]; exact Nat.zero_le _)
    m valid
  simp only [fresh] at filled
  have priced := Gathers.runs filled (Nat.zero_le _) valid 200 (by decide) 0 (.inl valid)
  exact (priced.andThen fun s m' _ valid' => Priced.pure s.1 m' valid').weaken valid le_rfl (by omega)
    le_rfl le_rfl

theorem getFileTags_priced (checked keepExtra : Bool) {record : FileRecord} (fresh : record.extra = []) :
    Priced 215 2124 4 0 (getFileTags checked keepExtra record) :=
  counted_priced checked "tags" (by decide) fun count m valid _ => readFileTags_runs keepExtra fresh count m valid

theorem getHash_priced : Priced 1 0 16 0 getHash := by
  intro m valid
  rw [getHash,exec_bind,exec_get 16 m valid]
  change Runs _ _ _ _ m (exec (if ((m.data.drop m.pointer).take 16).length ≠ 16 then _ else _) _)
  have length : ((m.data.drop m.pointer).take 16).length = min 16 (m.data.length - m.pointer) := by simp
  split
  · refine ⟨rfl,?_,?_,?_⟩
    · change m.pointer ≤ min _ _
      omega
    · exact Nat.min_le_right _ _
    · change m.allocated + ((m.data.drop m.pointer).take 16).length + _ ≤ _
      omega
  · refine ⟨rfl,?_,Nat.min_le_right _ _,?_⟩
    · change m.pointer + 16 ≤ min _ _
      omega
    · change m.allocated + ((m.data.drop m.pointer).take 16).length + _ ≤ m.allocated + 1 * min _ _ + _
      omega

theorem getFileRecord_priced (checked keepExtra : Bool) (i : Nat) :
    Priced 215 2636 minFileRecordBytes 0 (getFileRecord checked keepExtra i) := by
  have dear {α : Type} {x : Decoding α} {least : Nat} (priced : Priced 1 0 least 0 x) : Priced 215 0 least 0 x :=
    priced.weaken (by decide) le_rfl le_rfl le_rfl
  exact (dear getHash_priced).bind fun _ => (dear (getUInt_priced 4)).bind fun _ =>
    (dear (getUInt_priced 2)).bind fun _ => (getFileTags_priced checked keepExtra (by rfl)).wrap _ _

theorem getFileList_priced (checked checkedTags keepExtra : Bool) :
    Priced 295 (3148 + if checked then 0 else fileRecordBytes * maxFileRecordPrealloc) 4 0
      (getFileList checked checkedTags keepExtra) :=
  (counted_priced checked "file records" (by decide) fun count m valid room =>
    collect_runs (getFileRecord_priced checkedTags keepExtra) 80 (by decide) count m valid _ (reserved room)).weaken
    le_rfl (by rw [errorBytes]; omega) le_rfl le_rfl

end ENode.Ed2k.Buffer
