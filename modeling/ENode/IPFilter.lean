import ENode.ByteNumbers
import ENode.PublisherBans
import ENode.SortedLists

/-! The IP filter: the line grammars of `ipfilter.dat` and `ipfilter.srv`, the merge of the ranges of
a file and the search for an address. Merged ranges are apart, so the search looks at the only one
that can hold the address. -/
namespace ENode.NetFilter

open GoText ByteNumbers SortedLists ContentFilter List

def defaultMinLevel : Int := 100

structure IPRange where
  lo : UInt32
  hi : UInt32
  desc : Bytes := []
  deriving DecidableEq

structure IPFilter where
  ranges : List IPRange
  parsed : Nat
  blocking : Nat
  skipped : Nat
  deriving DecidableEq

def isDigit (b : UInt8) : Bool := 48 ≤ b && b ≤ 57

def digitsValue (s : Bytes) : Nat := s.foldl (fun n b => 10 * n + (b.toNat - 48)) 0

/-- `strconv.Atoi`. -/
def atoi (s : Bytes) : Option Int :=
  let digits := if s.head? = some 45 ∨ s.head? = some 43 then s.tail else s
  let n := digitsValue digits
  if digits = [] ∨ digits.all isDigit = false then none
  else if s.head? = some 45 then (if n ≤ 2 ^ 63 then some (-n) else none)
  else if n < 2 ^ 63 then some n else none

/-- `strings.Cut` at one byte. -/
def cut (s : Bytes) (sep : UInt8) : Option (Bytes × Bytes) :=
  if s.contains sep then some (s.takeWhile (· != sep),(s.dropWhile (· != sep)).tail) else none

/-- `binary.BigEndian.Uint32`. -/
def beUint32 (octets : Bytes) : UInt32 := UInt32.ofNat (beValue octets)

def parseOctet (p : Bytes) : Option UInt8 :=
  if p = [] ∨ p.length > 3 ∨ p.all isDigit = false ∨ digitsValue p > 255 then none
  else some (UInt8.ofNat (digitsValue p))

def parseV4 (s : Bytes) : Option UInt32 :=
  let parts := s.splitOn 46
  if parts.length ≠ 4 then none else (parts.mapM parseOctet).map beUint32

section
variable (u : Unicode)

/-- The mask of a netmask or a prefix length. -/
def parseMask (suffix : Bytes) : Option UInt32 :=
  if suffix.contains 46 then parseV4 suffix
  else match atoi suffix with
    | some bits =>
      if bits < 0 ∨ bits > 32 then none
      else if bits > 0 then some (0xffffffff <<< UInt32.ofNat (32 - bits.toNat)) else some 0
    | none => none

def parseRangeField (field : Bytes) : Option (UInt32 × UInt32) :=
  if field = [] then none
  else match cut field 45 with
    | some (loStr,hiStr) =>
      match parseV4 (trimSpace u loStr), parseV4 (trimSpace u hiStr) with
      | some l, some h => some (if l > h then (h,l) else (l,h))
      | _, _ => none
    | none =>
      match cut field 47 with
      | some (baseStr,suffixStr) =>
        match parseV4 (trimSpace u baseStr), parseMask (trimSpace u suffixStr) with
        | some n, some mask => some (n &&& mask,n &&& mask ||| ~~~mask)
        | _, _ => none
      | none => (parseV4 field).map fun n => (n,n)

/-- The fields before the first numeric one after the first field, that one, and the rest. -/
def splitWhitespaceForm (line : Bytes) : Bytes × Bytes × Bytes :=
  let all := fields u line
  match (range' 1 (all.length - 1)).find? (fun i => (atoi (all.getD i [])).isSome) with
  | some i => ([32].intercalate (all.take i),all.getD i [],[32].intercalate (all.drop (i + 1)))
  | none => (line,[],[])

def splitLine (line : Bytes) : Bytes × Bytes × Bytes :=
  match cut line 44 with
  | some (before,rest) =>
    if (parseRangeField u (trimSpace u before)).isSome then
      let (level,desc) := (cut rest 44).getD (rest,[])
      (trimSpace u before,trimSpace u level,trimSpace u desc)
    else splitWhitespaceForm u line
  | none => splitWhitespaceForm u line

def parseIPFilterLine (line : Bytes) : Option (IPRange × Int) :=
  let marks (b : UInt8) : Bool := b == 35 || b == 59
  let line := if line.any marks then trimSpace u (line.takeWhile (!marks ·)) else line
  if line = [] then none
  else
    let (addrField,levelField,descField) := splitLine u line
    match parseRangeField u addrField with
    | none => none
    | some (lo,hi) =>
      if levelField = [] then some (⟨lo,hi,descField⟩,0)
      else (atoi levelField).map fun level => (⟨lo,hi,descField⟩,level)

/-- The scanner's lines; none when one does not fit into its buffer. -/
def scanLines (file : Bytes) : Option (List Bytes) :=
  let parts := file.splitOn 10
  let parts := if parts.getLast? = some [] then parts.dropLast else parts
  if parts.all (fun l => decide (l.length < 1024 * 1024)) then
    some (parts.map fun l => if l.getLast? = some 13 then l.dropLast else l)
  else none

/-- The lines that are neither empty nor comments. -/
def content (lines : List Bytes) : List Bytes :=
  (lines.map (trimSpace u)).filter fun line =>
    !(line.isEmpty || line.head? == some 35 || line.head? == some 59 || line.take 2 == [47,47])

end

def mergeFrom : IPRange → List IPRange → List IPRange
  | cur, [] => [cur]
  | cur, rng :: rest =>
    if rng.lo ≤ cur.hi ∨ (cur.hi < 0xffffffff ∧ rng.lo = cur.hi + 1) then
      mergeFrom (if rng.hi > cur.hi then { cur with hi := rng.hi } else cur) rest
    else cur :: mergeFrom rng rest

def mergeRanges (sorter : SliceSort) (ranges : List IPRange) : List IPRange :=
  match sorter.run (fun r => r.lo.toNat * 2 ^ 32 + r.hi.toNat) ranges with
  | [] => []
  | first :: rest => mergeFrom first rest

def minimum (minLevel : Int) : Int := if minLevel ≤ 0 then defaultMinLevel else minLevel

def parseIPFilter (u : Unicode) (sorter : SliceSort) (file : Bytes) (minLevel : Int) : Option IPFilter :=
  (scanLines file).map fun lines =>
    let parsed := (content u lines).filterMap (parseIPFilterLine u)
    let blocking := (parsed.filter fun p => decide (p.2 < minimum minLevel)).map Prod.fst
    ⟨mergeRanges sorter blocking,parsed.length,blocking.length,(content u lines).length - parsed.length⟩

/-- `sort.Search`. -/
def searchWithin (p : Nat → Bool) : Nat → Nat → Nat → Nat
  | 0, i, _ => i
  | fuel+1, i, j =>
    let h := (i + j) / 2
    if i < j then if p h then searchWithin p fuel i h else searchWithin p fuel (h + 1) j else i

/-- The range an address is blocked for. -/
def IPFilter.blocked (f : IPFilter) (ip : Bytes) : Option IPRange :=
  match to4 ip with
  | none => none
  | some v4 =>
    let beyond (k : Nat) : Bool := decide ((f.ranges.map IPRange.lo).getD k 0 > beUint32 v4)
    let i := searchWithin beyond f.ranges.length 0 f.ranges.length
    if i = 0 then none else (f.ranges[i - 1]?).filter fun rng => !decide (rng.hi < beUint32 v4)

def IPRange.Has (r : IPRange) (a : UInt32) : Prop := r.lo ≤ a ∧ a ≤ r.hi

def Apart (ranges : List IPRange) : Prop := ranges.Pairwise fun a b => a.hi.toNat + 1 < b.lo.toNat

theorem parseRangeField_ordered (parsed : parseRangeField u field = some (lo,hi)) : lo ≤ hi := by
  unfold parseRangeField at parsed
  split at parsed
  · cases parsed
  split at parsed
  · split at parsed
    next l h _ _ =>
      split at parsed <;> cases parsed
      next swapped => exact UInt32.le_of_lt swapped
      next kept => exact UInt32.not_lt.mp kept
    · cases parsed
  · split at parsed
    · split at parsed
      next n mask _ _ =>
        cases parsed
        rw [UInt32.le_iff_toNat_le,UInt32.toNat_or]
        exact Nat.left_le_or
      · cases parsed
    · obtain ⟨_,-,same⟩ := Option.map_eq_some_iff.mp parsed
      cases same
      exact UInt32.le_refl _

theorem parseIPFilterLine_ordered (parsed : parseIPFilterLine u line = some entry) : entry.1.lo ≤ entry.1.hi := by
  unfold parseIPFilterLine at parsed
  extract_lets marks line at parsed
  split at parsed
  · cases parsed
  dsimp only at parsed
  split at parsed
  · cases parsed
  next lo hi range =>
    have ordered := parseRangeField_ordered range
    split at parsed
    · cases parsed
      exact ordered
    · obtain ⟨_,-,rfl⟩ := Option.map_eq_some_iff.mp parsed
      exact ordered

/-- The merged ranges hold what the given ones hold, and are apart. -/
theorem mergeFrom_spec (rest : List IPRange) (cur : IPRange) (valid : ∀ r ∈ cur :: rest, r.lo ≤ r.hi)
    (sorted : (cur :: rest).Pairwise fun a b => a.lo ≤ b.lo) :
    (∀ a, (∃ r ∈ mergeFrom cur rest, r.Has a) ↔ ∃ r ∈ cur :: rest, r.Has a) ∧ Apart (mergeFrom cur rest) ∧
      ∀ r ∈ mergeFrom cur rest, cur.lo ≤ r.lo ∧ r.lo ≤ r.hi := by
  induction rest generalizing cur with
  | nil => exact ⟨fun _ => Iff.rfl,pairwise_singleton ..,by simpa [mergeFrom] using valid⟩
  | cons rng rest ih =>
    obtain ⟨first,sorted⟩ := pairwise_cons.mp sorted
    obtain ⟨validCur,validRng,validRest⟩ : cur.lo ≤ cur.hi ∧ rng.lo ≤ rng.hi ∧ ∀ r ∈ rest, r.lo ≤ r.hi := by
      simpa using valid
    obtain ⟨_,sortedRest⟩ := pairwise_cons.mp sorted
    have after := first rng (.head _)
    have top := cur.hi.toNat_lt
    have next : rng.lo = cur.hi + 1 ∧ cur.hi < 0xffffffff ↔ rng.lo.toNat = cur.hi.toNat + 1 := by
      have small := rng.lo.toNat_lt
      rw [UInt32.lt_iff_toNat_lt,← UInt32.toNat_inj,UInt32.toNat_add,UInt32.toNat_one]
      have most : (0xffffffff : UInt32).toNat = 2 ^ 32 - 1 := rfl
      omega
    rw [mergeFrom]
    split
    next joins =>
      have near : rng.lo.toNat ≤ cur.hi.toNat + 1 := by
        rcases joins with inside | adjacent
        · rw [UInt32.le_iff_toNat_le] at inside
          omega
        · exact (next.mp adjacent.symm).le
      generalize joined : (if rng.hi > cur.hi then { cur with hi := rng.hi } else cur) = both
      have low : both.lo = cur.lo := by rw [← joined]; split <;> rfl
      have high : both.hi.toNat = max cur.hi.toNat rng.hi.toNat := by
        rw [← joined]
        split
        next more => exact (max_eq_right (UInt32.lt_iff_toNat_lt.mp more).le).symm
        next less => exact (max_eq_left (UInt32.le_iff_toNat_le.mp (UInt32.not_lt.mp less))).symm
      obtain ⟨same,apart,within⟩ := ih both (by
        refine forall_mem_cons.mpr ⟨?_,validRest⟩
        rw [UInt32.le_iff_toNat_le] at validCur ⊢
        rw [low,high]
        omega) (pairwise_cons.mpr ⟨fun r inside => low ▸ first r (.tail _ inside),sortedRest⟩)
      refine ⟨fun a => (same a).trans ?_,apart,fun r inside => low ▸ within r inside⟩
      have either : both.Has a ↔ cur.Has a ∨ rng.Has a := by
        simp only [IPRange.Has,UInt32.le_iff_toNat_le] at validCur validRng after ⊢
        rw [low,high]
        omega
      simp [either,or_assoc]
    next separate =>
      obtain ⟨same,apart,within⟩ := ih rng (forall_mem_cons.mpr ⟨validRng,validRest⟩) sorted
      refine ⟨fun _ => ?_,pairwise_cons.mpr ⟨fun r inside => ?_,apart⟩,forall_mem_cons.mpr
        ⟨⟨UInt32.le_refl _,validCur⟩,fun r inside => ⟨UInt32.le_trans after (within r inside).1,(within r inside).2⟩⟩⟩
      · rw [exists_mem_cons_iff,same,exists_mem_cons_iff (l := rng :: rest)]
      · have later := UInt32.le_iff_toNat_le.mp (within r inside).1
        have beyond := UInt32.lt_iff_toNat_lt.mp (UInt32.not_le.mp fun inside => separate (.inl inside))
        have gap : ¬rng.lo.toNat = cur.hi.toNat + 1 := fun adjacent => separate (.inr (next.mpr adjacent).symm)
        omega

theorem mergeRanges_spec (sorter : SliceSort) (ranges : List IPRange) (valid : ∀ r ∈ ranges, r.lo ≤ r.hi) :
    (∀ a, (∃ r ∈ mergeRanges sorter ranges, r.Has a) ↔ ∃ r ∈ ranges, r.Has a) ∧ Apart (mergeRanges sorter ranges) ∧
      ∀ r ∈ mergeRanges sorter ranges, r.lo ≤ r.hi := by
  have perm := sorter.perm (fun r : IPRange => r.lo.toNat * 2 ^ 32 + r.hi.toNat) ranges
  have sorted := sorter.ordered (fun r : IPRange => r.lo.toNat * 2 ^ 32 + r.hi.toNat) ranges
  unfold mergeRanges
  generalize sorter.run (fun r : IPRange => r.lo.toNat * 2 ^ 32 + r.hi.toNat) ranges = l at perm sorted
  cases l with
  | nil =>
    obtain rfl := perm.nil_eq
    simp [Apart]
  | cons first rest =>
    have starts : (first :: rest).Pairwise fun a b => a.lo ≤ b.lo := sorted.imp fun {a b} le => by
      have := a.hi.toNat_lt
      have := b.hi.toNat_lt
      rw [UInt32.le_iff_toNat_le]
      omega
    obtain ⟨same,apart,within⟩ := mergeFrom_spec rest first (fun r inside => valid r (perm.mem_iff.mp inside)) starts
    exact ⟨fun a => (same a).trans (by simp only [perm.mem_iff]),apart,fun r inside => (within r inside).2⟩

/-- The search ends between a place that fails the test and one that passes it. -/
theorem searchWithin_spec (p : Nat → Bool) (fuel n i j : Nat) (enough : j - i ≤ fuel) (le : i ≤ j) (bound : j ≤ n)
    (below : ∀ k, k + 1 = i → p k = false) (above : j < n → p j = true) :
    let found := searchWithin p fuel i j
    found ≤ n ∧ (∀ k, k + 1 = found → p k = false) ∧ (found < n → p found = true) := by
  induction fuel generalizing i j with
  | zero =>
    obtain rfl : i = j := by omega
    exact ⟨bound,below,above⟩
  | succ _ ih =>
    rw [searchWithin]
    split
    next more =>
      split
      next passes => exact ih i _ (by omega) (by omega) (by omega) below fun _ => passes
      next fails =>
        refine ih _ j (by omega) (by omega) bound (fun k _ => ?_) above
        obtain rfl : k = (i + j) / 2 := by omega
        simpa using fails
    next done =>
      obtain rfl : i = j := by omega
      exact ⟨bound,below,above⟩

theorem blocked_ranges {f : IPFilter} (apart : Apart f.ranges) (valid : ∀ r ∈ f.ranges, r.lo ≤ r.hi)
    (is : to4 ip = some v4) : (f.blocked ip).isSome = true ↔ ∃ r ∈ f.ranges, r.Has (beUint32 v4) := by
  generalize address : beUint32 v4 = addr
  have spec := searchWithin_spec (fun k => decide ((f.ranges.map IPRange.lo).getD k 0 > addr)) f.ranges.length
    f.ranges.length 0 f.ranges.length (by omega) (by omega) le_rfl (by omega) (by omega)
  rw [IPFilter.blocked,is]
  dsimp only
  rw [address]
  generalize searchWithin _ f.ranges.length 0 f.ranges.length = i at spec
  obtain ⟨_,below,above⟩ := spec
  have starts : ∀ k (inside : k < f.ranges.length), (f.ranges.map IPRange.lo).getD k 0 = f.ranges[k].lo := by
    intro k inside
    simp [inside]
  have order := pairwise_iff_getElem.mp apart
  -- a range that holds the address is the one before the place found
  have only : ∀ k (inside : k < f.ranges.length), f.ranges[k].Has addr → k + 1 = i := by
    intro k inside has
    simp only [IPRange.Has,UInt32.le_iff_toNat_le] at has
    rcases Nat.lt_trichotomy (k + 1) i with early | here | late
    · have fails := below (i - 1) (by omega)
      rw [starts _ (by omega)] at fails
      have reached := UInt32.le_iff_toNat_le.mp (UInt32.not_lt.mp (of_decide_eq_false fails))
      have gap := order k (i - 1) inside (by omega) (by omega)
      omega
    · exact here
    · have passes := above (by omega)
      rw [starts _ (by omega)] at passes
      have beyond := UInt32.lt_iff_toNat_lt.mp (of_decide_eq_true passes)
      rcases Nat.lt_or_eq_of_le (Nat.lt_succ_iff.mp late) with before | rfl
      · have gap := order i k (by omega) inside before
        have low := UInt32.le_iff_toNat_le.mp (valid _ (getElem_mem (show i < f.ranges.length by omega)))
        omega
      · omega
  split
  next zero =>
    refine ⟨fun no => by simp at no,?_⟩
    rintro ⟨r,member,has⟩
    obtain ⟨k,inside,rfl⟩ := mem_iff_getElem.mp member
    have := only k inside has
    omega
  next nonzero =>
    have inside : i - 1 < f.ranges.length := by omega
    have fails := below (i - 1) (by omega)
    rw [starts _ inside] at fails
    have reached : f.ranges[i - 1].lo ≤ addr := UInt32.not_lt.mp (of_decide_eq_false fails)
    rw [getElem?_eq_getElem inside]
    constructor
    · intro found
      refine ⟨_,getElem_mem inside,reached,?_⟩
      simpa using found
    · rintro ⟨_,member,has⟩
      obtain ⟨k,within,rfl⟩ := mem_iff_getElem.mp member
      obtain rfl : k = i - 1 := by have := only k within has; omega
      simpa using has.2

/-- The filter blocks the addresses of the parsed lines below the minimum level, and its ranges are
sorted with a gap between any two. -/
theorem filter_blocks (u : Unicode) (sorter : SliceSort) (file : Bytes) (minLevel : Int) (f : IPFilter)
    (lines : List Bytes) (scanned : scanLines file = some lines) (loaded : parseIPFilter u sorter file minLevel = some f) :
    (∀ ip v4, to4 ip = some v4 → ((f.blocked ip).isSome = true ↔
      ∃ line ∈ content u lines, ∃ entry, parseIPFilterLine u line = some entry ∧ entry.2 < minimum minLevel ∧
        entry.1.Has (beUint32 v4))) ∧
    Apart f.ranges ∧ ∀ r ∈ f.ranges, r.lo ≤ r.hi := by
  rw [parseIPFilter,scanned,Option.map_some,Option.some.injEq] at loaded
  subst loaded
  obtain ⟨same,apart,valid⟩ := mergeRanges_spec sorter
    ((((content u lines).filterMap (parseIPFilterLine u)).filter fun p => decide (p.2 < minimum minLevel)).map Prod.fst) (by
      intro r inside
      obtain ⟨entry,kept,rfl⟩ := mem_map.mp inside
      obtain ⟨line,-,parsed⟩ := mem_filterMap.mp (mem_of_mem_filter kept)
      exact parseIPFilterLine_ordered parsed)
  refine ⟨fun _ _ is => (blocked_ranges apart valid is).trans ((same _).trans ?_),apart,valid⟩
  constructor
  · rintro ⟨_,inside,has⟩
    obtain ⟨entry,kept,rfl⟩ := mem_map.mp inside
    obtain ⟨listed,low⟩ := mem_filter.mp kept
    obtain ⟨line,member,parsed⟩ := mem_filterMap.mp listed
    exact ⟨line,member,entry,parsed,of_decide_eq_true low,has⟩
  · rintro ⟨line,member,entry,parsed,low,has⟩
    exact ⟨entry.1,mem_map.mpr ⟨entry,mem_filter.mpr ⟨mem_filterMap.mpr ⟨line,member,parsed⟩,
      decide_eq_true low⟩,rfl⟩,has⟩

theorem filter_blocks_adjacent : (⟨[⟨16909056,16909066,[]⟩],2,2,0⟩ : IPFilter).blocked [1,2,3,10] =
    some ⟨16909056,16909066,[]⟩ ∧ Apart [⟨16909056,16909066,[]⟩] :=
  ⟨by decide +kernel,(filter_blocks .ascii .stable (lit "1.2.3.9 - 1.2.3.0 , 50\n1.2.3.10/32\n") 0
    ⟨[⟨16909056,16909066,[]⟩],2,2,0⟩ [lit "1.2.3.9 - 1.2.3.0 , 50",lit "1.2.3.10/32"] (by decide +kernel)
    (by decide +kernel)).2.1⟩

end ENode.NetFilter
