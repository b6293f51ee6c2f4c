import ENode.Cursor

/-! Programs that read a buffer by position and pay for the memory they take. An access outside
the buffer is a panic, not an error, and what a failed program allocated stays counted. `Priced`
prices a program by the bytes it reads, and the rules follow the program. -/
namespace ENode.Metered

variable {ε α β σ τ : Type}

/-- A buffer, the position of the next read, and the bytes allocated so far. -/
structure Mem where
  data : List UInt8
  pointer : Nat := 0
  allocated : Nat := 0
  deriving DecidableEq

inductive Fault (ε : Type) where
  | panic
  | failed (e : ε)
  deriving DecidableEq

abbrev Program (ε α : Type) := ExceptT (Fault ε) (StateM Mem) α

abbrev Outcome (ε α : Type) := Except (Fault ε) α × Mem

def exec (x : Program ε α) (m : Mem) : Outcome ε α := x.run.run m

def andThen (f : α → Program ε β) : Outcome ε α → Outcome ε β
  | (.ok a,m) => exec (f a) m
  | (.error e,m) => (.error e,m)

theorem exec_bind (x : Program ε α) (f : α → Program ε β) (m : Mem) : exec (x >>= f) m = andThen f (exec x m) := by
  change (ExceptT.bindCont (m := StateM Mem) f (exec x m).1) (exec x m).2 = _
  rcases exec x m with ⟨_ | _,_⟩ <;> rfl

theorem exec_bind_ok (ok : exec x m = (.ok v,m')) (f : α → Program ε β) :
    exec (x >>= f) m = exec (f v) m' := by
  rw [exec_bind,ok]
  rfl

def fail (e : ε) : Program ε α := throw (.failed e)

def readMem : Program ε Mem := fun m => (.ok m,m)

def charge (bytes : Nat) : Program ε Unit := fun m => (.ok (),{ m with allocated := m.allocated + bytes })

def moveTo (position : Nat) : Program ε Unit := fun m => (.ok (),{ m with pointer := position })

/-- `data[lo:hi]`. -/
def slice (lo hi : Nat) : Program ε (List UInt8) := fun m =>
  if lo ≤ hi ∧ hi ≤ m.data.length then (.ok ((m.data.take hi).drop lo),m) else (.error .panic,m)

theorem exec_slice {m : Mem} (ordered : lo ≤ hi) (inside : hi ≤ m.data.length) :
    exec (slice lo hi : Program ε _) m = (.ok ((m.data.take hi).drop lo),m) := if_pos ⟨ordered,inside⟩

def labelled (f : ε → ε) (bytes : Nat) : Outcome ε α → Outcome ε α
  | (.ok v,m) => (.ok v,m)
  | (.error .panic,m) => (.error .panic,m)
  | (.error (.failed e),m) => (.error (.failed (f e)),{ m with allocated := m.allocated + bytes })

/-- An error is put into another one, which is allocated. -/
def wrap (f : ε → ε) (bytes : Nat) (x : Program ε α) : Program ε α := fun m => labelled f bytes (exec x m)

def loop (round : Nat → σ → Program ε σ) : Nat → Nat → σ → Program ε σ
  | 0, _, s => pure s
  | rounds+1, i, s => do loop round rounds (i + 1) (← round i s)

/-- No panic and no position outside the buffer. A success went past `least` bytes, and paid `rate` for each
and `extra`; a failure paid at most `rate` for each byte there was and `debt`. -/
def Runs (rate debt least extra : Nat) (m : Mem) : Outcome ε α → Prop
  | (.ok _,m') => m'.data = m.data ∧ m.pointer + least ≤ m'.pointer ∧ m'.pointer ≤ m.data.length ∧
      m'.allocated + rate * m.pointer ≤ m.allocated + rate * m'.pointer + extra
  | (.error (.failed _),m') => m'.data = m.data ∧ m.pointer ≤ m'.pointer ∧ m'.pointer ≤ m.data.length ∧
      m'.allocated + rate * m.pointer ≤ m.allocated + rate * m.data.length + debt
  | (.error .panic,_) => False

def Priced (rate debt least extra : Nat) (x : Program ε α) : Prop :=
  ∀ m, m.pointer ≤ m.data.length → Runs rate debt least extra m (exec x m)

theorem rate_mono {rate rate' p q : Nat} (more : rate ≤ rate') (forward : p ≤ q) :
    rate * q + rate' * p ≤ rate * p + rate' * q := by
  obtain ⟨d,rfl⟩ := Nat.exists_eq_add_of_le more
  have scaled := Nat.mul_le_mul_left d forward
  rw [Nat.add_mul,Nat.add_mul]
  omega

variable {f : α → Program ε β}

namespace Runs

theorem weaken {rate' debt' least' extra' : Nat} (valid : m.pointer ≤ m.data.length)
    (runs : Runs rate debt least extra m r)
    (dearer : rate ≤ rate') (owed : debt ≤ debt') (fewer : least' ≤ least) (more : extra ≤ extra') :
    Runs rate' debt' least' extra' m r := by
  rcases r with ⟨(_ | _) | v,m'⟩
  · exact runs
  · obtain ⟨same,forward,inside,cost⟩ := runs
    have scaled := rate_mono dearer valid
    exact ⟨same,forward,inside,by omega⟩
  · obtain ⟨same,_,inside,_⟩ := runs
    have scaled := rate_mono dearer (show m.pointer ≤ m'.pointer by omega)
    exact ⟨same,by omega,inside,by omega⟩

theorem andThen (runs : Runs rate debt least extra m r)
    (rest : ∀ v m', r = (.ok v,m') → m'.pointer ≤ m'.data.length → Runs rate debt' least' extra' m' (exec (f v) m')) :
    Runs rate (max debt (extra + debt')) (least + least') (extra + extra') m (Metered.andThen f r) := by
  rcases r with ⟨(_ | e) | v,m'⟩
  · exact runs
  · obtain ⟨same,forward,inside,cost⟩ := runs
    exact ⟨same,forward,inside,by omega⟩
  · obtain ⟨same,_,inside,_⟩ := runs
    have next := rest v m' rfl (same ▸ inside)
    change Runs _ _ _ _ m (exec (f v) m')
    generalize exec (f v) m' = r at next ⊢
    rcases r with ⟨(_ | _) | w,m''⟩
    · exact next
    · obtain ⟨same',forward',inside',cost'⟩ := next
      rw [same] at inside' cost'
      exact ⟨same'.trans same,by omega,inside',by omega⟩
    · obtain ⟨same',_,inside',_⟩ := next
      rw [same] at inside'
      exact ⟨same'.trans same,by omega,inside',by omega⟩

/-- In all no more than so much for each byte there was, if nothing is paid where there was none. -/
theorem total (runs : Runs rate debt least 0 m r) (valid : m.pointer ≤ m.data.length)
    (ended : m.pointer = m.data.length → r.2.allocated = m.allocated) :
    r.1 ≠ .error .panic ∧ (m.pointer ≤ r.2.pointer ∧ r.2.pointer ≤ m.data.length) ∧
      r.2.allocated ≤ m.allocated + (rate + debt) * (m.data.length - m.pointer) := by
  obtain ⟨n,left⟩ := Nat.exists_eq_add_of_le valid
  rw [left,Nat.add_sub_cancel_left,Nat.add_mul]
  rcases r with ⟨(_ | _) | v,m'⟩
  · exact runs.elim
  · obtain ⟨_,forward,inside,cost⟩ := runs
    refine ⟨(by intro no; cases no),⟨forward,left ▸ inside⟩,?_⟩
    rcases Nat.eq_zero_or_pos n with _ | some
    · have := ended (by omega)
      omega
    · have := Nat.le_mul_of_pos_right debt some
      rw [left,Nat.mul_add] at cost
      change m'.allocated ≤ _
      omega
  · obtain ⟨_,_,inside,_⟩ := runs
    refine ⟨(by intro no; cases no),⟨by change _ ≤ m'.pointer; omega,left ▸ inside⟩,?_⟩
    have := Nat.mul_le_mul_left rate inside
    rw [left,Nat.mul_add] at this
    change m'.allocated ≤ _
    omega

end Runs

namespace Priced

theorem weaken (priced : Priced rate debt least extra x)
    (dearer : rate ≤ rate') (owed : debt ≤ debt') (fewer : least' ≤ least) (more : extra ≤ extra') :
    Priced rate' debt' least' extra' x := fun m valid =>
  (priced m valid).weaken valid dearer owed fewer more

theorem pure (v : α) : Priced rate 0 0 0 (Pure.pure v : Program ε α) := fun _ valid =>
  ⟨rfl,le_rfl,valid,le_rfl⟩

theorem charge (bytes : Nat) : Priced rate 0 0 bytes (Metered.charge bytes : Program ε Unit) := fun _ valid =>
  ⟨rfl,le_rfl,valid,Nat.le_of_eq (Nat.add_right_comm ..)⟩

theorem refuse (bytes : Nat) (e : ε) :
    Priced rate bytes least extra (Metered.charge bytes >>= fun _ => Metered.fail e : Program ε α) := by
  intro m valid
  have scaled := Nat.mul_le_mul_left rate valid
  refine ⟨rfl,le_rfl,valid,?_⟩
  change m.allocated + bytes + rate * m.pointer ≤ _
  omega

theorem ite [Decidable c] (yes : c → Priced rate debt least extra x)
    (no : ¬c → Priced rate debt least extra y) : Priced rate debt least extra (if c then x else y) := by
  split
  · exact yes ‹c›
  · exact no ‹¬c›

theorem bind (first : Priced rate debt least extra x)
    (rest : ∀ v, Priced rate debt' least' extra' (f v)) :
    Priced rate (max debt (extra + debt')) (least + least') (extra + extra') (x >>= f) := by
  intro m valid
  rw [exec_bind]
  exact (first m valid).andThen fun v m' _ valid' => rest v m' valid'

theorem wrap (priced : Priced rate debt least extra x) (label : ε → ε) (bytes : Nat) :
    Priced rate (debt + bytes) least extra (Metered.wrap label bytes x) := by
  intro m valid
  have runs := priced m valid
  change Runs _ _ _ _ m (labelled label bytes (exec x m))
  generalize exec x m = r at runs ⊢
  rcases r with ⟨(_ | _) | v,m'⟩
  · exact runs
  · obtain ⟨same,forward,inside,_⟩ := runs
    exact ⟨same,forward,inside,by change m'.allocated + bytes + _ ≤ _; omega⟩
  · exact runs

theorem settle (priced : Priced rate debt least extra x) (share : Nat) (covers : extra ≤ share * least) :
    Priced (rate + share) debt least 0 x := by
  intro m valid
  have runs := priced m valid
  generalize exec x m = r at runs ⊢
  rcases r with ⟨(_ | _) | v,m'⟩
  · exact runs
  · obtain ⟨same,forward,inside,cost⟩ := runs
    have scaled := Nat.mul_le_mul_left share valid
    exact ⟨same,forward,inside,by rw [Nat.add_mul,Nat.add_mul]; omega⟩
  · obtain ⟨same,forward,inside,_⟩ := runs
    have scaled := Nat.mul_le_mul_left share forward
    rw [Nat.mul_add] at scaled
    exact ⟨same,forward,inside,by rw [Nat.add_mul,Nat.add_mul]; omega⟩

end Priced

structure Slice (α : Type) where
  items : List α := []
  cap : Nat := 0

def Slice.Fits (s : Slice α) : Prop := s.items.length ≤ s.cap

/-- How `append` grows a full slice. -/
def nextCap (cap : Nat) : Nat :=
  if cap = 0 then 1 else if cap < 256 then 2 * cap else cap + (cap + 768) / 4

def make (slot cap : Nat) : Program ε (Slice α) := do
  charge (slot * cap)
  pure ⟨[],cap⟩

def append (slot : Nat) (s : Slice α) (x : α) : Program ε (Slice α) :=
  if s.items.length < s.cap then pure ⟨s.items ++ [x],s.cap⟩
  else do
    charge (slot * nextCap s.cap)
    pure ⟨s.items ++ [x],nextCap s.cap⟩

theorem nextCap_spec (cap : Nat) :
    cap < nextCap cap ∧ nextCap cap ≤ 2 * (cap + 1) ∧ nextCap cap + 5 * cap ≤ 5 * nextCap cap := by
  rw [nextCap]
  split
  · omega
  · split <;> omega

/-- One element more at most, and the capacity beyond the old one is at most twice what it holds. -/
structure Slice.Grows (s s' : Slice α) : Prop where
  fits : s'.Fits
  length : s'.items.length ≤ s.items.length + 1
  cap : s'.cap ≤ max s.cap (2 * (s.items.length + 1))

/-- A program that reads nothing and adds at most one element to a slice. All that was ever allocated for a
slice is at most five times its capacity, so five times is what a larger capacity is priced at. -/
def Stores (slot : Nat) (s : Slice α) (kept : σ → Slice α) (x : Program ε σ) : Prop :=
  ∀ m, ∃ v more, exec x m = (.ok v,{ m with allocated := m.allocated + more }) ∧ s.Grows (kept v) ∧
    more + 5 * slot * s.cap ≤ 5 * slot * (kept v).cap

variable {kept : σ → Slice α}

theorem Stores.none {s : Slice α} (fits : s.Fits) (same : kept v = s) :
    Stores slot s kept (Pure.pure v : Program ε σ) := fun _ =>
  ⟨v,0,rfl,by rw [same]; exact ⟨fits,by omega,by omega⟩,by rw [same]; omega⟩

theorem Stores.append (slot : Nat) {s : Slice α} (fits : s.Fits) (x : α) :
    Stores slot s id (Metered.append slot s x : Program ε (Slice α)) := by
  intro _
  rw [Metered.append]
  have length : (s.items ++ [x]).length = s.items.length + 1 := List.length_append
  by_cases room : s.items.length < s.cap
  · rw [if_pos room]
    refine ⟨_,0,rfl,⟨?_,?_,?_⟩,?_⟩
    · exact length.trans_le room
    · exact Nat.le_of_eq length
    · exact Nat.le_max_left _ _
    · exact Nat.le_of_eq (Nat.zero_add _)
  · rw [if_neg room]
    have full : s.items.length = s.cap := Nat.le_antisymm fits (Nat.le_of_not_lt room)
    obtain ⟨larger,small,paid⟩ := nextCap_spec s.cap
    refine ⟨_,slot * nextCap s.cap,rfl,⟨?_,?_,?_⟩,?_⟩
    · exact length.trans_le (full ▸ larger)
    · exact Nat.le_of_eq length
    · exact Nat.le_trans (full ▸ small) (Nat.le_max_right _ _)
    · have scaled := Nat.mul_le_mul_left slot paid
      change slot * nextCap s.cap + 5 * slot * s.cap ≤ 5 * slot * nextCap s.cap
      rw [Nat.mul_comm 5 slot,Nat.mul_assoc,Nat.mul_assoc]
      rwa [Nat.mul_add] at scaled

/-- What so many rounds of a loop do that stores into a slice. -/
def Gathers (slot rate debt least rounds : Nat) (s : Slice α) (kept : σ → Slice α) (m : Mem) :
    Outcome ε σ → Prop
  | (.ok v,m') => m'.data = m.data ∧ m.pointer + least * rounds ≤ m'.pointer ∧ m'.pointer ≤ m.data.length ∧
      (kept v).cap ≤ max s.cap (2 * (s.items.length + rounds)) ∧
      m'.allocated + rate * m.pointer + 5 * slot * s.cap ≤
        m.allocated + rate * m'.pointer + 5 * slot * (kept v).cap
  | (.error (.failed _),m') => m'.data = m.data ∧ m.pointer ≤ m'.pointer ∧ m'.pointer ≤ m.data.length ∧
      ∃ done cap, m.pointer + least * done ≤ m.data.length ∧ cap ≤ max s.cap (2 * (s.items.length + done)) ∧
        m'.allocated + rate * m.pointer + 5 * slot * s.cap ≤
          m.allocated + rate * m.data.length + 5 * slot * cap + debt
  | (.error .panic,_) => False

/-- The rounds of a loop, each reading an element and storing it or not. -/
theorem gathers {read : Nat → Program ε β} {store : σ → β → Program ε σ}
    (reads : ∀ i, Priced rate debt least 0 (read i))
    (stores : ∀ s v, (kept s).Fits → Stores slot (kept s) kept (store s v)) (rounds i : Nat) (s : σ)
    (fits : (kept s).Fits) (m : Mem) (valid : m.pointer ≤ m.data.length) :
    Gathers slot rate debt least rounds (kept s) kept m
      (exec (loop (fun i s => do store s (← read i)) rounds i s) m) := by
  induction rounds generalizing i s m with
  | zero => exact ⟨rfl,le_rfl,valid,Nat.le_max_left _ _,le_rfl⟩
  | succ rounds ih =>
    rw [loop,exec_bind,exec_bind]
    have runs := reads i m valid
    generalize exec (read i) m = r at runs ⊢
    rcases r with ⟨(_ | e) | v,m'⟩
    · exact runs
    · obtain ⟨same,forward,inside,cost⟩ := runs
      exact ⟨same,forward,inside,0,(kept s).cap,valid,Nat.le_max_left _ _,by omega⟩
    · obtain ⟨same,_,inside,_⟩ := runs
      obtain ⟨s',more,stored,grows,_⟩ := stores s v fits m'
      change Gathers _ _ _ _ _ _ _ _ (andThen _ (exec (store s v) m'))
      rw [stored]
      have rest := ih (i + 1) s' grows.fits { m' with allocated := m'.allocated + more } (same ▸ inside)
      have := grows.length
      have := grows.cap
      change Gathers _ _ _ _ _ _ _ _ (exec (loop _ rounds (i + 1) s') _)
      generalize exec (loop _ rounds (i + 1) s') _ = r at rest ⊢
      rcases r with ⟨(_ | _) | v,m''⟩
      · exact rest
      · obtain ⟨same',forward',inside',done,cap,long,small,cost'⟩ := rest
        simp only [same] at same' forward' inside' long cost'
        exact ⟨same',by omega,inside',done + 1,cap,by rw [Nat.mul_succ]; omega,by omega,by omega⟩
      · obtain ⟨same',forward',inside',_,cost'⟩ := rest
        simp only [same] at same' forward' inside' cost'
        exact ⟨same',by rw [Nat.mul_succ]; omega,inside',by omega,by omega⟩

/-- A slice made for a declared count and filled: if the first capacity is no more than the bytes there are
could fill, each byte pays its share of the slice. -/
theorem Gathers.runs (gathers : Gathers slot rate debt least rounds (⟨[],cap⟩ : Slice α) kept
      { m with allocated := m.allocated + slot * cap } r)
    (declared : cap ≤ rounds) (valid : m.pointer ≤ m.data.length) (share : Nat) (covers : 10 * slot ≤ share * least)
    (owed : Nat) (reserved : m.pointer + least * cap ≤ m.data.length ∨ slot * cap ≤ owed) :
    Runs (rate + share) (debt + owed) (least * rounds) 0 m r := by
  have twice (n b : Nat) (enough : least * n ≤ b) : 5 * slot * (2 * n) ≤ share * b :=
    calc 5 * slot * (2 * n) = 10 * slot * n := by ring
      _ ≤ share * least * n := Nat.mul_le_mul_right n covers
      _ = share * (least * n) := Nat.mul_assoc ..
      _ ≤ share * b := Nat.mul_le_mul_left share enough
  have five : 5 * slot * cap = slot * cap + 4 * (slot * cap) := by ring
  rcases r with ⟨(_ | _) | v,m'⟩
  · exact gathers
  · obtain ⟨same,forward,inside,done,cap',long,small,cost⟩ := gathers
    obtain ⟨b,left⟩ := Nat.exists_eq_add_of_le valid
    refine ⟨same,forward,inside,?_⟩
    simp only [left,Nat.mul_add,Nat.add_mul] at cost long ⊢
    rcases (Nat.lt_or_ge cap cap').symm with kept | grown
    · have grownBy := Nat.mul_le_mul_left (5 * slot) kept
      rcases reserved with reserved | _
      · have := twice cap b (by omega)
        have : 5 * slot * cap ≤ 5 * slot * (2 * cap) := Nat.mul_le_mul_left _ (by omega)
        omega
      · omega
    · have grownBy : 5 * slot * cap' ≤ 5 * slot * (2 * done) :=
        Nat.mul_le_mul_left _ (by simp only [List.length_nil] at small; omega)
      have := twice done b (by omega)
      omega
  · obtain ⟨same,forward,inside,small,cost⟩ := gathers
    refine ⟨same,forward,inside,?_⟩
    obtain ⟨b,read⟩ := Nat.exists_eq_add_of_le (show m.pointer ≤ m'.pointer from Nat.le_trans (Nat.le_add_right ..) forward)
    have grownBy : 5 * slot * (kept v).cap ≤ 5 * slot * (2 * rounds) :=
      Nat.mul_le_mul_left _ (by simp only [List.length_nil] at small; omega)
    simp only [read,Nat.mul_add,Nat.add_mul] at cost forward ⊢
    have := twice rounds b (by omega)
    omega

/-- A list read element by element into a slice made for its declared count, up to a limit. -/
def collect (slot limit : Nat) (read : Nat → Program ε α) (count : Nat) : Program ε (List α) := do
  let s ← make slot (min count limit)
  let s ← loop (fun i s => do append slot s (← read i)) count 0 s
  pure s.items

theorem collect_runs {read : Nat → Program ε α}
    (reads : ∀ i, Priced rate debt least 0 (read i)) (share : Nat) (covers : 10 * slot ≤ share * least)
    (count : Nat) (m : Mem) (valid : m.pointer ≤ m.data.length) (owed : Nat)
    (reserved : m.pointer + least * min count limit ≤ m.data.length ∨ slot * min count limit ≤ owed) :
    Runs (rate + share) (debt + owed) (least * count) 0 m (exec (collect slot limit read count) m) := by
  change Runs _ _ _ _ m (exec (loop _ count 0 (⟨[],min count limit⟩ : Slice α) >>= _)
    { m with allocated := m.allocated + slot * min count limit })
  rw [exec_bind]
  have filled := (gathers reads (fun s v fits => Stores.append slot fits v) count 0 ⟨[],min count limit⟩
    (Nat.zero_le _) { m with allocated := m.allocated + slot * min count limit } valid).runs
    (Nat.min_le_left ..) valid share covers owed reserved
  exact (filled.andThen fun s m' _ valid' => Priced.pure s.items m' valid').weaken valid le_rfl (by omega)
    le_rfl le_rfl

/-- What the first one makes of the bytes, the second does too. -/
def Accepts (x y : Program ε α) : Prop := ∀ m v m', m.pointer ≤ m.data.length → exec x m = (.ok v,m') →
  m'.pointer ≤ m'.data.length ∧ exec y m = (.ok v,m')

theorem exec_bind_inv (ok : exec (x >>= f) m = (.ok w,m')) :
    ∃ v m₁, exec x m = (.ok v,m₁) ∧ exec (f v) m₁ = (.ok w,m') := by
  rw [exec_bind] at ok
  rcases first : exec x m with ⟨_ | v,m₁⟩
  · rw [first] at ok
    cases ok
  · rw [first] at ok
    exact ⟨v,m₁,rfl,ok⟩

namespace Accepts

theorem refl (priced : Priced rate debt least extra x) : Accepts x x := by
  intro m _ _ valid ok
  have runs := priced m valid
  rw [ok] at runs
  exact ⟨runs.1 ▸ runs.2.2.1,ok⟩

theorem bind (first : Accepts x y) (rest : ∀ v, Accepts (f v) (g v)) : Accepts (x >>= f) (y >>= g) := by
  intro m w m' valid ok
  obtain ⟨v,m₁,read,rest'⟩ := exec_bind_inv ok
  obtain ⟨valid',same⟩ := first m v m₁ valid read
  rw [exec_bind_ok same]
  exact rest v m₁ w m' valid' rest'

theorem wrap (accepts : Accepts x y) (label : ε → ε) (bytes : Nat) :
    Accepts (Metered.wrap label bytes x) (Metered.wrap label bytes y) := by
  intro m v m' valid ok
  change labelled label bytes (exec x m) = _ at ok
  rcases read : exec x m with ⟨(_ | _) | w,m₁⟩
  · rw [read] at ok
    cases ok
  · rw [read] at ok
    cases ok
  · rw [read] at ok
    cases ok
    obtain ⟨valid',same⟩ := accepts m v m' valid read
    refine ⟨valid',?_⟩
    change labelled label bytes (exec y m) = _
    rw [same]
    rfl

theorem loop {round round' : Nat → σ → Program ε σ} (each : ∀ i s, Accepts (round i s) (round' i s))
    (rounds i : Nat) (s : σ) : Accepts (Metered.loop round rounds i s) (Metered.loop round' rounds i s) := by
  induction rounds generalizing i s with
  | zero => exact refl (Priced.pure s : Priced 0 0 0 0 _)
  | succ _ ih => exact (each i s).bind fun v => ih (i + 1) v

theorem collect {slot limit : Nat} {read read' : Nat → Program ε α} (each : ∀ i, Accepts (read i) (read' i))
    (count : Nat) : Accepts (Metered.collect slot limit read count) (Metered.collect slot limit read' count) := by
  have made : Priced 0 _ 0 _ (make slot (min count limit) : Program ε (Slice α)) :=
    (Priced.charge _).bind fun _ => .pure _
  have stored (s : Slice α) (v : α) : Accepts (append slot s v : Program ε _) (append slot s v) := by
    rw [append]
    split
    · exact refl (Priced.pure _ : Priced 0 0 0 0 _)
    · exact refl ((Priced.charge _).bind fun _ => .pure _ : Priced 0 _ _ _ _)
  exact (refl made).bind fun s => (loop (fun i s => (each i).bind fun v => stored s v) count 0 s).bind fun s =>
    refl (Priced.pure s.items : Priced 0 0 0 0 _)

end Accepts

/-- The outcome as a reader of the bytes that are left reports it, the value seen through `view`. -/
def Shows (view : α → β) (expected : Except ε (β × List UInt8)) : Outcome ε α → Prop
  | (.ok v,m') => m'.pointer ≤ m'.data.length ∧ expected = .ok (view v,m'.data.drop m'.pointer)
  | (.error (.failed e),_) => expected = .error e
  | (.error .panic,_) => False

def Refines (view : α → β) (x : Program ε α) (r : Cursor.Reader ε β) : Prop :=
  ∀ m, m.pointer ≤ m.data.length → Shows view (r (m.data.drop m.pointer)) (exec x m)

namespace Refines

theorem pure (view : α → β) (v : α) : Refines view (Pure.pure v : Program ε α) (Pure.pure (view v)) :=
  fun _ valid => ⟨valid,rfl⟩

theorem result (v : α) : Refines id (Pure.pure v : Program ε α) (Pure.pure v) := pure id v

theorem fail (view : α → β) (e : ε) : Refines view (Metered.fail e) (throw e) := fun _ _ => rfl

theorem ite [Decidable c] (yes : c → Refines view x r)
    (no : ¬c → Refines view y r') : Refines view (if c then x else y) (if c then r else r') := by
  split
  · exact yes ‹c›
  · exact no ‹¬c›

theorem bind {f : α → Program ε γ} (first : Refines view x r)
    (rest : ∀ v, Refines view' (f v) (g (view v))) : Refines view' (x >>= f) (r >>= g) := by
  intro m valid
  have shown := first m valid
  change Shows view' (r (m.data.drop m.pointer) >>= fun p => g p.1 p.2) _
  rw [exec_bind]
  generalize exec x m = o at shown ⊢
  rcases o with ⟨(_ | e) | v,m'⟩
  · exact shown
  · rw [show r (m.data.drop m.pointer) = .error e from shown]
    rfl
  · rw [shown.2]
    exact rest v m' shown.1

theorem charged {f : Unit → Program ε α} (rest : Refines view (f ()) r) :
    Refines view (charge bytes >>= f) r := fun m valid =>
  rest { m with allocated := m.allocated + bytes } valid

theorem wrap (refines : Refines view x r) (label : ε → ε) (bytes : Nat) :
    Refines view (Metered.wrap label bytes x) (Cursor.relabel label r) := by
  intro m valid
  have shown := refines m valid
  change Shows view ((r (m.data.drop m.pointer)).mapError label) (labelled label bytes (exec x m))
  generalize exec x m = o at shown ⊢
  rcases o with ⟨(_ | e) | v,m'⟩
  · exact shown
  · rw [show r (m.data.drop m.pointer) = .error e from shown]
    rfl
  · rw [shown.2]
    exact ⟨shown.1,rfl⟩

theorem loop {view : σ → τ} {round : Nat → σ → Program ε σ}
    (each : ∀ i s, Refines view (round i s) (round' i (view s))) (rounds i : Nat) (s : σ) :
    Refines view (Metered.loop round rounds i s) (Cursor.loop round' rounds i (view s)) := by
  induction rounds generalizing i s with
  | zero => exact pure view s
  | succ _ ih => exact (each i s).bind fun v => ih (i + 1) v

theorem append (slot : Nat) (s : Slice α) (v : α) :
    Refines Slice.items (Metered.append slot s v : Program ε _) (Pure.pure (s.items ++ [v])) := by
  rw [Metered.append]
  split
  · exact pure Slice.items _
  · exact charged (pure Slice.items _)

theorem collect {slot limit : Nat} {read : Nat → Program ε α} {read' : Nat → Cursor.Reader ε α}
    (each : ∀ i, Refines id (read i) (read' i)) (count : Nat) : Refines id (Metered.collect slot limit read count)
      (Cursor.loop (fun i items => do Pure.pure (items ++ [← read' i])) count 0 []) := by
  have looped : Refines Slice.items
      (Metered.loop (fun i s => read i >>= fun v => Metered.append slot s v) count 0 ⟨[],min count limit⟩)
      (Cursor.loop (fun i items => read' i >>= fun v => Pure.pure (items ++ [v])) count 0 []) :=
    loop (fun i s => (each i).bind fun v => append slot s v) count 0 _
  intro m valid
  have shown := looped { m with allocated := m.allocated + slot * min count limit } valid
  change Shows id _ (exec (Metered.loop _ count 0 (⟨[],min count limit⟩ : Slice α) >>= _)
    { m with allocated := m.allocated + slot * min count limit })
  rw [exec_bind]
  generalize exec (Metered.loop _ count 0 (⟨[],min count limit⟩ : Slice α)) _ = o at shown ⊢
  rcases o with ⟨(_ | _) | s,m'⟩
  · exact shown
  · exact shown
  · exact shown

end Refines

end ENode.Metered
