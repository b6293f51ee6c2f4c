import ENode.FileRecords

/-! Tags that fit their type are put in as many bytes as were counted for them, and read back. -/
namespace ENode.Ed2k

open GoText ByteNumbers Cursor

def Value.wire : Value → Bytes
  | .uint8 n => leBytes 1 n
  | .uint16 n => leBytes 2 n
  | .uint32 n => leBytes 4 n
  | .uint64 n => leBytes 8 n
  | .int _ => []
  | .string s => leBytes 2 s.length ++ s
  | .bytes b => b

/-- What a value is read back as: integers of every width are one type. -/
def Value.read : Value → TagValue
  | .uint8 n => .uint64 n
  | .uint16 n => .uint64 n
  | .uint32 n => .uint64 n
  | .uint64 n => .uint64 n
  | .int n => .uint64 n.toNat
  | .string s => .string s
  | .bytes b => .bytes b

/-- The data is of the tag's type and in the range of that type. -/
def Value.FitsAs : Value → UInt8 → Prop
  | .uint8 n, type => type = typeUint8 ∧ n < 2 ^ 8
  | .uint16 n, type => type = typeUint16 ∧ n < 2 ^ 16
  | .uint32 n, type => type = typeUint32 ∧ n < 2 ^ 32
  | .uint64 n, type => type = typeUint64 ∧ n < 2 ^ 64
  | .int _, _ => False
  | .string s, type => type = typeString ∧ s.length < 2 ^ 16
  | .bytes b, type => type = typeHash ∧ b.length = 16

namespace Tag

def Fits (t : Tag) : Prop := t.data.FitsAs t.type

def wire (t : Tag) : Bytes := [t.type] ++ (leBytes 2 1 ++ ([t.code] ++ t.data.wire))

def named (t : Tag) : NamedTag := ⟨tagName t.code,t.data.read,t.type⟩

theorem wire_length (t : Tag) : t.wire.length = 4 + t.data.wire.length := by
  simp [wire]
  omega

end Tag

theorem tagLength_fits {t : Tag} (fits : t.Fits) : tagLength t = .ok t.wire.length := by
  obtain ⟨_,_,data⟩ := t
  rw [Tag.wire_length]
  cases data with
  | int n => exact fits.elim
  | string _ =>
    obtain ⟨rfl,-⟩ := fits
    simp [tagLength,Value.wire]
  | bytes _ =>
    obtain ⟨rfl,whole⟩ := fits
    simp [tagLength,Value.wire,whole,typeHash,typeString]
  | uint8 n | uint16 n | uint32 n | uint64 _ =>
    obtain ⟨rfl,-⟩ := fits
    simp [tagLength,Value.wire,typeHash,typeString,typeUint8,typeUint16,typeUint32,typeUint64]

theorem putUInt_writes (width n : Nat) : Writes (putUInt width n) (leBytes width n) := Writes.put _ _

theorem putString_writes (s : Bytes) : Writes (putString s) (leBytes 2 s.length ++ s) :=
  (putUInt_writes 2 s.length).andThen (Writes.put _ _)

theorem putHash_writes {hash : Bytes} (whole : hash.length = 16) : Writes (putHash hash) hash := by
  rw [putHash,if_neg (not_not.mpr whole)]
  exact Writes.putSome hash

variable {data : Value}

theorem putTagData_writes (fits : data.FitsAs type) : Writes (putTagData type data) data.wire := by
  cases data with
  | int n => exact fits.elim
  | string s =>
    obtain ⟨rfl,-⟩ := fits
    exact putString_writes s
  | bytes _ =>
    obtain ⟨rfl,whole⟩ := fits
    exact putHash_writes whole
  | uint8 n | uint16 n | uint32 n | uint64 _ =>
    obtain ⟨rfl,-⟩ := fits
    exact putUInt_writes _ _

theorem putTag_writes {t : Tag} (fits : t.Fits) : Writes (putTag t) t.wire :=
  (Writes.put _ _).andThen ((putUInt_writes 2 1).andThen ((Writes.put _ _).andThen (putTagData_writes fits)))

def tagsWire (ts : List Tag) : Bytes := leBytes 4 ts.length ++ ts.flatMap Tag.wire

theorem tagsLength_fits (fit : ∀ t ∈ ts, t.Fits) : tagsLength ts = .ok (tagsWire ts).length := by
  rw [tagsLength,sizes_add_up ts (fun t there => tagLength_fits (fit t there)),tagsWire,List.length_append,
    leBytes_length]

theorem putTags_writes (fit : ∀ t ∈ ts, t.Fits) : Writes (putTags ts) (tagsWire ts) :=
  (putUInt_writes 4 ts.length).andThen (Writes.each ts (fun t there => putTag_writes (fit t there)))

theorem getUInt_reads (small : n < 256 ^ width) : Reads (getUInt width) (leBytes width n) n :=
  Reads.numberOf _ width n small

theorem getUInt8_reads (b : UInt8) : Reads getUInt8 [b] b := fun _ => rfl

theorem getText_reads {length : Nat} {s : Bytes} (exact : s.length = length) : Reads (getText length) s s := by
  rw [← exact]
  exact Reads.exactlyAll _ s

theorem getString_reads {s : Bytes} (short : s.length < 2 ^ 16) : Reads getString (leBytes 2 s.length ++ s) s :=
  (getUInt_reads short).bind (getText_reads rfl)

theorem halves (l : Bytes) (eight : l.length = 8) :
    leValue (l.take 4) + leValue (l.drop 4) * 2 ^ 32 = leValue l := by
  match l, eight with
  | [a,b,c,d,e,f,g,h], _ =>
    simp only [List.take,List.drop,leValue]
    omega

theorem getUInt64LE_reads (small : n < 2 ^ 64) : Reads getUInt64LE (leBytes 8 n) n := by
  have reads := (getText_reads (leBytes_length 8 n)).andReturn
    (fun low => leValue (low.take 4) + leValue (low.drop 4) * 2 ^ 32)
  have back : n % 256 ^ 8 = n := Nat.mod_eq_of_lt small
  rwa [halves _ (leBytes_length 8 n),leValue_leBytes,back] at reads

theorem getTagValue_reads (fits : data.FitsAs type) : Reads (getTagValue type) data.wire data.read := by
  cases data with
  | int n => exact fits.elim
  | string _ =>
    obtain ⟨rfl,short⟩ := fits
    exact (getString_reads short).andReturn _
  | bytes b =>
    obtain ⟨rfl,whole⟩ := fits
    exact (getText_reads whole).andReturn _
  | uint8 n =>
    obtain ⟨rfl,small⟩ := fits
    have back : (UInt8.ofNat n).toNat = n := UInt8.toNat_ofNat_of_lt' small
    have reads := (getUInt8_reads (UInt8.ofNat n)).andReturn (fun b => TagValue.uint64 b.toNat)
    rw [back] at reads
    exact reads
  | uint16 n | uint32 n =>
    obtain ⟨rfl,small⟩ := fits
    exact (getUInt_reads small).andReturn _
  | uint64 _ =>
    obtain ⟨rfl,small⟩ := fits
    exact (getUInt64LE_reads small).andReturn _

theorem Value.FitsAs.plain (fits : data.FitsAs type) : type &&& 0x80 = 0 ∧ reportedType type = type := by
  cases data with
  | int _ => exact fits.elim
  | string | bytes | uint8 | uint16 | uint32 | uint64 =>
    obtain ⟨rfl,-⟩ := fits
    decide

theorem getTag_reads {t : Tag} (fits : t.Fits) : Reads getTag t.wire t.named := by
  obtain ⟨long,reported⟩ := Value.FitsAs.plain fits
  have value := ((getTagValue_reads fits).relabelled (.tagDecode .value t.type t.code)).andReturn
    (fun v => (⟨tagName t.code,v,reportedType t.type⟩ : NamedTag))
  have read : (⟨tagName t.code,t.data.read,reportedType t.type⟩ : NamedTag) = t.named := by rw [reported]; rfl
  rw [read] at value
  refine (getUInt8_reads t.type).bind ?_
  rw [if_neg (not_not.mpr long)]
  refine ((getUInt_reads (by decide)).relabelled _).bind ?_
  exact ((getUInt8_reads t.code).relabelled _).bind value

theorem checkWireCount_reads {bytes : Bytes}
    (enough : count * each ≤ bytes.length) (positive : 0 < each) (reads : Reads (f ()) bytes v) :
    Reads (checkWireCount count each what >>= f) bytes v := by
  intro rest
  have fits : ¬count > (bytes ++ rest).length / each := by
    rw [Nat.not_lt,Nat.le_div_iff_mul_le positive,List.length_append]
    omega
  have passes : checkWireCount count each what (bytes ++ rest) = .ok ((),bytes ++ rest) := by
    change (if count > (bytes ++ rest).length / each then throw _ else pure () : Reading Unit) _ = _
    rw [if_neg fits]
    rfl
  change (checkWireCount count each what (bytes ++ rest) >>= fun p => f p.1 p.2) = _
  rw [passes]
  exact reads rest

theorem flatMap_wire_length (ts : List Tag) : ts.length * minTagBytes ≤ (ts.flatMap Tag.wire).length := by
  induction ts with
  | nil => exact Nat.zero_le _
  | cons t _ ih =>
    have one := t.wire_length
    rw [List.flatMap_cons,List.length_append,List.length_cons]
    simp only [minTagBytes] at ih ⊢
    omega

theorem getFileTags_reads (fit : ∀ t ∈ ts, t.Fits) (few : ts.length < 2 ^ 32) (keepExtra : Bool)
    (record : FileRecord) : Reads (getFileTags keepExtra record) (tagsWire ts)
      (ts.foldl (fun r t => r.setTag keepExtra t.named) record) := by
  refine (getUInt_reads few).bind (checkWireCount_reads (flatMap_wire_length ts) (by decide) ?_)
  exact Reads.each Tag.wire _ ts (fun _ _ t there => ((getTag_reads (fit t there)).relabelled _).andReturn _) 0 record

end ENode.Ed2k
