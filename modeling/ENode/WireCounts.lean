import ENode.WireMemory

/-! The checks of declared counts against the decoders that do without them, and the decoders with
positions and prices against those that read off the front of a list. A count is refused only if the
bytes there are could not have held as many elements, so no list that could be decoded is lost. -/
namespace ENode.Ed2k.Buffer

open GoText ByteNumbers Metered List

theorem getTags_accepts (checked checked' : Bool) : Accepts (getTags checked) (getTags checked') :=
  counted_accepts checked checked' "tags" (by decide)
    (fun count m valid => collect_runs tagAt_priced 200 (by decide) count m valid _
      (.inr (Nat.mul_le_mul_left _ (Nat.min_le_right _ _))))
    fun count => Accepts.collect (fun i => .refl (tagAt_priced i)) count

theorem getFileTags_accepts (checked checked' keepExtra : Bool) {record : FileRecord} (fresh : record.extra = []) :
    Accepts (getFileTags checked keepExtra record) (getFileTags checked' keepExtra record) :=
  counted_accepts checked checked' "tags" (by decide)
    (fun count m valid => readFileTags_runs keepExtra fresh count m valid)
    fun count m _ _ valid ok => by
      have runs := readFileTags_runs keepExtra fresh count m valid
      rw [ok] at runs
      exact ⟨runs.1 ▸ runs.2.2.1,ok⟩

theorem getFileRecord_accepts (checked checked' keepExtra : Bool) (i : Nat) :
    Accepts (getFileRecord checked keepExtra i) (getFileRecord checked' keepExtra i) :=
  (Accepts.refl getHash_priced).bind fun _ => (Accepts.refl (getUInt_priced 4)).bind fun _ =>
    (Accepts.refl (getUInt_priced 2)).bind fun _ =>
      (getFileTags_accepts checked checked' keepExtra (by rfl)).wrap _ _

theorem getFileList_accepts (checked checked' checkedTags checkedTags' keepExtra : Bool) :
    Accepts (getFileList checked checkedTags keepExtra) (getFileList checked' checkedTags' keepExtra) :=
  counted_accepts checked checked' "file records" (by decide)
    (fun count m valid => collect_runs (getFileRecord_priced checkedTags keepExtra) 80 (by decide) count m valid _
      (.inr (Nat.mul_le_mul_left _ (Nat.min_le_right _ _))))
    fun count => Accepts.collect (getFileRecord_accepts checkedTags checkedTags' keepExtra) count

theorem left_short {m : Mem} (valid : m.pointer ≤ m.data.length) :
    (m.data.drop m.pointer).length < n ↔ m.pointer + n > m.data.length := by
  rw [length_drop]
  omega

theorem fetch_refines (width : Nat) : Refines id (fetch width) (Cursor.exactly .outOfBounds width) := by
  intro _ valid
  rw [exec_fetch,Cursor.exactly]
  simp only [left_short valid]
  split
  · rfl
  · exact ⟨by simp only; omega,by simp only [drop_drop]; rfl⟩

theorem getExactly_refines (length : Nat) : Refines id (getExactly length) (Ed2k.getText length) := by
  intro m valid
  rw [exec_getExactly length m valid,Ed2k.getText,Cursor.exactly,length_drop]
  split
  · rfl
  · exact ⟨by simp only; omega,by simp only [drop_drop]; rfl⟩

theorem getText_refines (length : Nat) : Refines id (getText length) (Ed2k.getText length) := by
  have copied : Refines id (getText length) (Ed2k.getText length >>= pure) :=
    (getExactly_refines length).bind fun s => .charged (.result s)
  rwa [bind_pure] at copied

theorem getUInt8_refines : Refines id getUInt8 Ed2k.getUInt8 := by
  have same : Ed2k.getUInt8 = Cursor.exactly .outOfBounds 1 >>= fun v => pure (v.headD 0) := by
    funext b
    cases b <;> rfl
  rw [same]
  exact (fetch_refines 1).bind fun v => .result (v.headD 0)

theorem getUInt_eq (width : Nat) :
    Ed2k.getUInt width = Cursor.exactly .outOfBounds width >>= fun v => pure (leValue v) := by
  funext b
  change Cursor.number BufferError.outOfBounds width b = Except.bind (Cursor.exactly BufferError.outOfBounds width b) _
  rw [Cursor.number,Cursor.exactly]
  split <;> rfl

theorem getUInt_refines (width : Nat) : Refines id (getUInt width) (Ed2k.getUInt width) := by
  rw [getUInt_eq]
  exact (fetch_refines width).bind fun v => .result (leValue v)

theorem getUInt64LE_refines : Refines id getUInt64LE Ed2k.getUInt64LE :=
  (fetch_refines 8).bind fun v => .result (leValue (v.take 4) + leValue (v.drop 4) * 2 ^ 32)

theorem boxed_refines {r : Reading α} (refines : Refines id x r) (bytes : Nat) (f : α → TagValue) :
    Refines id (boxed bytes x f) (do pure (f (← r))) :=
  refines.bind fun v => .charged (.result (f v))

theorem getTagValue_refines (type : UInt8) : Refines id (getTagValue type) (Ed2k.getTagValue type) := by
  rw [getTagValue,Ed2k.getTagValue]
  refine .ite (fun _ => boxed_refines ((getUInt_refines 2).bind getText_refines) _ _) fun _ => ?_
  refine .ite (fun _ => boxed_refines getUInt8_refines _ _) fun _ => ?_
  refine .ite (fun _ => boxed_refines (getUInt_refines 2) _ _) fun _ => ?_
  refine .ite (fun _ => boxed_refines (getUInt_refines 4) _ _) fun _ => ?_
  refine .ite (fun _ => boxed_refines getUInt64LE_refines _ _) fun _ => ?_
  refine .ite (fun _ => boxed_refines (getText_refines 16) _ _) fun _ => ?_
  refine .ite (fun _ => ?_) fun _ => ?_
  · rw [getUInt_eq,bind_assoc]
    simp only [pure_bind]
    exact boxed_refines (getExactly_refines 4) _ _
  refine .ite (fun _ => boxed_refines getUInt8_refines _ _) fun _ => ?_
  refine .ite (fun _ => ?_) fun _ => ?_
  · rw [← bind_assoc]
    exact boxed_refines ((getUInt_refines 4).bind getText_refines) _ _
  refine .ite (fun _ => ?_) fun _ => ?_
  · rw [← bind_assoc]
    exact boxed_refines (getUInt8_refines.bind fun n => getText_refines n.toNat) _ _
  refine .ite (fun _ => ?_) fun _ => ?_
  · rw [← bind_assoc]
    exact boxed_refines ((getUInt_refines 2).bind fun n => getExactly_refines (n / 8 + 1)) _ _
  refine .ite (fun _ => boxed_refines (getText_refines _) _ _) fun _ => ?_
  exact .charged (.fail id _)

theorem named_refines (rest : Refines id (f (tagName code)) r) :
    Refines id (named code >>= f) r := fun m valid =>
  rest { m with allocated := m.allocated + _ } valid

theorem valueOf_refines (type code narrow : UInt8) : Refines id (valueOf type code narrow) (do
      let v ← Ed2k.stage .value type code (Ed2k.getTagValue narrow)
      pure ⟨Ed2k.tagName code,v,reportedType narrow⟩) :=
  ((getTagValue_refines narrow).wrap _ _).bind fun _ => named_refines (.result _)

theorem getTag_refines : Refines id getTag Ed2k.getTag := by
  refine getUInt8_refines.bind fun _ => .ite (fun _ => ?_) fun _ => ?_
  · refine (getUInt8_refines.wrap _ _).bind fun code => .ite (fun _ => ?_) fun _ => valueOf_refines _ _ _
    exact ((getText_refines _).wrap _ _).bind fun _ => .charged (named_refines (.result _))
  · refine ((getUInt_refines 2).wrap _ _).bind fun _ => .ite (fun _ => ?_) fun _ => ?_
    · exact (getUInt8_refines.wrap _ _).bind fun _ => valueOf_refines _ _ _
    · exact ((getText_refines _).wrap _ _).bind fun _ => ((getTagValue_refines _).wrap _ _).bind fun _ => .result _

theorem checkWireCount_refines (count least : Nat) (what : String) :
    Refines id (checkWireCount true count least what) (Ed2k.checkWireCount count least what) := by
  intro m valid
  have same : Ed2k.checkWireCount count least what (m.data.drop m.pointer) =
      if count > (m.data.length - m.pointer) / least
      then .error (.wireCount what count (m.data.length - m.pointer))
      else .ok ((),m.data.drop m.pointer) := by
    rw [← length_drop]
    change (if _ then _ else _ : Reading Unit) (m.data.drop m.pointer) = _
    split <;> rfl
  rw [exec_checkWireCount,same]
  simp only [true_and]
  split
  · rfl
  · exact ⟨valid,rfl⟩

theorem storeTag_refines (keepExtra : Bool) (s : FileRecord × Nat) (t : NamedTag) :
    Refines Prod.fst (storeTag keepExtra s t) (pure (s.1.setTag keepExtra t)) := by
  rw [storeTag,FileRecord.setTag]
  rcases fieldNamed t.name with _ | field
  · cases keepExtra with
    | false => exact .pure Prod.fst s
    | true =>
      exact (Refines.append namedTagBytes ⟨s.1.extra,s.2⟩ t).bind (g := fun items => pure { s.1 with extra := items })
        fun extra => .pure Prod.fst ({ s.1 with extra := extra.items },extra.cap)
  · exact .pure Prod.fst (s.1.setField t.value field,s.2)

theorem getFileTags_refines (keepExtra : Bool) (record : FileRecord) :
    Refines id (getFileTags true keepExtra record) (Ed2k.getFileTags keepExtra record) := by
  refine (getUInt_refines 4).bind fun count => (checkWireCount_refines count _ _).bind fun _ => ?_
  have looped : Refines Prod.fst (loop (fun i s => do storeTag keepExtra s (← tagAt i)) count 0 (record,0))
      (Cursor.loop (fun i r => do pure (r.setTag keepExtra (← Cursor.relabel (.inTags i) Ed2k.getTag))) count 0 record) :=
    .loop (fun _ s => (getTag_refines.wrap _ _).bind fun t => storeTag_refines keepExtra s t) count 0 (record,0)
  have first := looped.bind (g := pure) fun s => Refines.result s.1
  rwa [bind_pure] at first

def hashOnly : Reading Bytes := do
  let hash ← Cursor.upTo 16
  if hash.length ≠ 16 then throw .outOfBounds else pure hash

theorem getHash_refines : Refines id getHash hashOnly := by
  intro m valid
  rw [getHash,exec_bind,exec_get 16 m valid]
  change Shows id ((if ((m.data.drop m.pointer).take 16).length ≠ 16 then _ else _ : Reading Bytes) _)
    (exec (if ((m.data.drop m.pointer).take 16).length ≠ 16 then _ else _) _)
  split
  · rfl
  rename_i whole
  rw [length_take,length_drop] at whole
  have stop : min (m.pointer + 16) m.data.length = m.pointer + 16 := by omega
  refine ⟨Nat.min_le_right _ _,?_⟩
  change _ = Except.ok (_,m.data.drop (min (m.pointer + 16) m.data.length))
  rw [stop,← drop_drop]
  rfl

theorem getFileRecord_refines (keepExtra : Bool) (i : Nat) :
    Refines id (getFileRecord true keepExtra i) (Ed2k.getFileRecord keepExtra i) := by
  have same : Ed2k.getFileRecord keepExtra i = hashOnly >>= fun hash =>
      Ed2k.getUInt 4 >>= fun id => Ed2k.getUInt 2 >>= fun port =>
        Cursor.relabel (.inFileList i hash id port)
          (Ed2k.getFileTags keepExtra { hash := hash,complete := !(id == valPartialID && port == valPartialPort),
                                        id := id,port := port }) := by
    rw [hashOnly,bind_assoc]
    refine congrArg _ (funext fun hash => ?_)
    split <;> rfl
  rw [same]
  exact getHash_refines.bind fun _ => (getUInt_refines 4).bind fun _ => (getUInt_refines 2).bind fun _ =>
    (getFileTags_refines keepExtra _).wrap _ _

/-- Positions, capacities and prices taken away, the decoder is the one that reads off the front of a list. -/
theorem getFileList_refines (keepExtra : Bool) :
    Refines id (getFileList true true keepExtra) (Ed2k.getFileList keepExtra) :=
  (getUInt_refines 4).bind fun count => (checkWireCount_refines count _ _).bind fun _ =>
    .collect (getFileRecord_refines keepExtra) count

/-- A buffer over the bytes, set to a position: one beyond the end becomes the end. -/
def opened (data : Bytes) (position : Nat) : Mem := ⟨data,min position data.length,0⟩

/-- What a decoder that checks its counts does to a buffer, beside what it does without the checks. -/
structure Bounded (perByte : Nat) (decode unchecked : Decoding α) (m : Mem) : Prop where
  calm : (exec decode m).1 ≠ .error .panic
  inside : m.pointer ≤ (exec decode m).2.pointer ∧ (exec decode m).2.pointer ≤ m.data.length
  allocated : (exec decode m).2.allocated ≤ m.allocated + perByte * (m.data.length - m.pointer)
  accepts : ∀ v m', exec unchecked m = (.ok v,m') → exec decode m = (.ok v,m')

theorem counted_at_end (checked : Bool) (least : Nat) (what : String) {m : Mem}
    (done : m.pointer = m.data.length) :
    exec (counted checked least what body) m = (.error (.failed .outOfBounds),m) := by
  rw [counted,exec_bind,getUInt,exec_bind,exec_fetch,if_pos (by omega)]
  rfl

theorem Bounded.of_priced (priced : Priced rate debt 4 0 (counted true least what body))
    (accepts : Accepts unchecked (counted true least what body)) {m : Mem} (valid : m.pointer ≤ m.data.length) :
    Bounded (rate + debt) (counted true least what body) unchecked m := by
  have ended (done : m.pointer = m.data.length) :
      (exec (counted true least what body) m).2.allocated = m.allocated := by
    rw [counted_at_end true least what done]
  obtain ⟨calm,inside,allocated⟩ := (priced m valid).total valid ended
  exact ⟨calm,inside,allocated,fun v m' ok => (accepts m v m' valid ok).2⟩

/-- Whatever the bytes and wherever decoding starts. Each check can be left out on its own in the decoder that is
compared with. -/
theorem declared_counts_bounded (data : Bytes) (position : Nat) (keepExtra checked checkedTags : Bool) :
    Bounded 2339 (getTags true) (getTags checked) (opened data position) ∧
      Bounded 3443 (getFileList true true keepExtra) (getFileList checked checkedTags keepExtra)
        (opened data position) := by
  have valid : (opened data position).pointer ≤ (opened data position).data.length := Nat.min_le_right _ _
  exact ⟨.of_priced (getTags_priced true) (getTags_accepts checked true) valid,
    .of_priced (getFileList_priced true true keepExtra) (getFileList_accepts checked true checkedTags true keepExtra) valid⟩

end ENode.Ed2k.Buffer
