import ENode.ByteNumbers

/-! Readers that take a value off the front of a byte string, and writers that fill a buffer
whose size was fixed beforehand. `Reads` and `Writes` say which bytes stand for which value, and
they compose as the programs do. -/
namespace ENode.Cursor

open ByteNumbers List

variable {ε α β σ : Type}

/-- The state is what is left to read. -/
abbrev Reader (ε α : Type) := StateT (List UInt8) (Except ε) α

/-- The bytes, in front of any others, are read as the value, and the others are left. -/
def Reads (r : Reader ε α) (bytes : List UInt8) (value : α) : Prop :=
  ∀ rest, r (bytes ++ rest) = .ok (value,rest)

def remaining : Reader ε Nat := fun b => .ok (b.length,b)

/-- A number of fixed width, lowest byte first. -/
def number (short : ε) (width : Nat) : Reader ε Nat := fun b =>
  if b.length < width then .error short else .ok (leValue (b.take width),b.drop width)

def exactly (short : ε) (count : Nat) : Reader ε (List UInt8) := fun b =>
  if b.length < count then .error short else .ok (b.take count,b.drop count)

def upTo (count : Nat) : Reader ε (List UInt8) := fun b => .ok (b.take count,b.drop count)

def relabel (f : ε → ε) (r : Reader ε α) : Reader ε α := fun b => (r b).mapError f

/-- A loop of a given number of rounds, each told its index. -/
def loop (round : Nat → σ → Reader ε σ) : Nat → Nat → σ → Reader ε σ
  | 0, _, s => pure s
  | rounds+1, i, s => do loop round rounds (i + 1) (← round i s)

variable {ι : Type}

namespace Reads

theorem pure (v : α) : Reads (Pure.pure v : Reader ε α) [] v := fun _ => rfl

theorem bind (first : Reads r bytes v) (then' : Reads (f v) more w) : Reads (r >>= f) (bytes ++ more) w := by
  intro rest
  change (r (bytes ++ more ++ rest) >>= fun p => f p.1 p.2) = _
  rw [append_assoc,first]
  exact then' rest

theorem andReturn (first : Reads r bytes v) (g : α → β) : Reads (r >>= fun a => Pure.pure (g a)) bytes (g v) := by
  have whole := bind (f := fun a => Pure.pure (g a)) first (pure (g v))
  rwa [append_nil] at whole

theorem relabelled (reads : Reads r bytes v) (label : ε → ε) : Reads (relabel label r) bytes v := by
  intro _
  rw [relabel,reads]
  rfl

theorem numberOf (short : ε) (width n : Nat) (small : n < 256 ^ width) :
    Reads (number short width) (leBytes width n) n := by
  intro rest
  have long : ¬(leBytes width n ++ rest).length < width := by simp
  rw [number,if_neg long,take_left' (leBytes_length width n),drop_left' (leBytes_length width n),
    leValue_leBytes,Nat.mod_eq_of_lt small]

theorem exactlyAll (short : ε) (bytes : List UInt8) : Reads (exactly short bytes.length) bytes bytes := by
  intro rest
  have long : ¬(bytes ++ rest).length < bytes.length := by simp
  rw [exactly,if_neg long,take_left,drop_left]

theorem upToAll (bytes : List UInt8) : Reads (upTo bytes.length : Reader ε _) bytes bytes := by
  intro _
  rw [upTo,take_left,drop_left]

theorem each {round : Nat → σ → Reader ε σ} (bytes : ι → List UInt8) (next : σ → ι → σ)
    (items : List ι) (one : ∀ i s, ∀ x ∈ items, Reads (round i s) (bytes x) (next s x)) (i : Nat) (s : σ) :
    Reads (loop round items.length i s) (items.flatMap bytes) (items.foldl next s) := by
  induction items generalizing i s with
  | nil => exact pure s
  | cons x _ ih =>
    exact (one i s x (.head _)).bind
      (ih (fun i s y there => one i s y (.tail _ there)) (i + 1) (next s x))

theorem collect {round : Nat → Reader ε β} (bytes : ι → List UInt8) (value : ι → β) (items : List ι)
    (one : ∀ i, ∀ x ∈ items, Reads (round i) (bytes x) (value x)) (i : Nat) :
    Reads (loop (fun i read => do Pure.pure (read ++ [← round i])) items.length i []) (items.flatMap bytes)
      (items.map value) := by
  have listed : ∀ (items : List ι) (read : List β),
      items.foldl (fun read x => read ++ [value x]) read = read ++ items.map value := by
    intro items
    induction items with
    | nil => simp
    | cons x items ih =>
      intro read
      rw [foldl_cons,ih,map_cons,append_assoc,singleton_append]
  have whole := each bytes (fun read x => read ++ [value x]) items
    (fun i read x there => (one i x there).andReturn (fun v => read ++ [v])) i []
  rwa [listed,nil_append] at whole

end Reads

/-- What was written so far into a buffer that holds zeros beyond it. -/
structure Buffer where
  size : Nat
  written : List UInt8 := []

def Buffer.contents (b : Buffer) : List UInt8 := b.written ++ replicate (b.size - b.written.length) 0

abbrev Filler (ε α : Type) := StateT Buffer (Except ε) α

/-- Into a buffer with room for them, the bytes are written without error. -/
def Writes (w : Filler ε Unit) (bytes : List UInt8) : Prop :=
  ∀ b, b.written.length + bytes.length ≤ b.size → w b = .ok ((),{ b with written := b.written ++ bytes })

/-- Written whole or not at all. -/
def put (short : ε) (bytes : List UInt8) : Filler ε Unit := fun b =>
  if b.written.length + bytes.length > b.size then .error short
  else .ok ((),{ b with written := b.written ++ bytes })

/-- As much of it as there is room for. -/
def putSome (bytes : List UInt8) : Filler ε Unit := fun b =>
  .ok ((),{ b with written := b.written ++ bytes.take (b.size - b.written.length) })

namespace Writes

theorem put (short : ε) (bytes : List UInt8) : Writes (Cursor.put short bytes) bytes := by
  intro _ room
  rw [Cursor.put,if_neg (Nat.not_lt.mpr room)]

theorem putSome (bytes : List UInt8) : Writes (Cursor.putSome bytes : Filler ε Unit) bytes := by
  intro _ _
  rw [Cursor.putSome,take_of_length_le (by omega)]

theorem andThen (first : Writes w bytes) (then' : Writes (f ()) more) :
    Writes (w >>= f) (bytes ++ more) := by
  intro b room
  rw [length_append] at room
  change (w b >>= fun p => f p.1 p.2) = _
  rw [first b (by omega)]
  refine (then' _ ?_).trans ?_
  · simp only [length_append]
    omega
  · simp

theorem each {bytes : ι → List UInt8} (items : List ι)
    (one : ∀ x ∈ items, Writes (write x) (bytes x)) : Writes (items.forM write) (items.flatMap bytes) := by
  induction items with
  | nil =>
    intro _ _
    rw [flatMap_nil,append_nil]
    rfl
  | cons x _ ih =>
    rw [flatMap_cons]
    exact andThen (one x (.head _)) (ih (fun y there => one y (.tail _ there)))

theorem fills (writes : Writes w bytes) (exact : bytes.length = size) :
    w ⟨size,[]⟩ = .ok ((),⟨size,bytes⟩) := by
  rw [writes ⟨size,[]⟩ (by simp [exact]),nil_append]

end Writes

theorem sizes_add_up {size : ι → Except ε Nat} {bytes : ι → List UInt8} (items : List ι)
    (one : ∀ x ∈ items, size x = .ok (bytes x).length) (n : Nat) :
    items.foldlM (fun total x => do pure (total + (← size x))) n = .ok (n + (items.flatMap bytes).length) := by
  induction items generalizing n with
  | nil => rfl
  | cons x _ ih =>
    rw [foldlM_cons,one x (.head _),flatMap_cons,length_append,← Nat.add_assoc]
    exact ih (fun y there => one y (.tail _ there)) _

theorem Buffer.contents_full {size : Nat} {bytes : List UInt8} (exact : bytes.length = size) :
    Buffer.contents ⟨size,bytes⟩ = bytes := by
  simp [Buffer.contents,exact]

end ENode.Cursor
