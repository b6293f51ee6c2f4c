import ENode.GoMap
import ENode.LruList

/-! The cache of search results: a linked list in the order of use and a map into it. The map, the
list and the byte count are kept in step by hand; together they are an LRU map with expiry. -/
namespace ENode.Meta
open List

structure CacheLimits where
  maxEntries : Nat
  maxBytes : Int := 0

/-- `trim` is the identity and `size` missing where the source has nil. -/
structure CacheConfig (V : Type) where
  limits : CacheLimits
  trim : V → V := id
  size : Option (V → Nat) := none
  ttl : Int

structure CacheEntry (K V : Type) where
  key : K
  value : V
  bytes : Int
  expires : Int
  deriving DecidableEq

/-- An element of the list; `id` is its address. -/
structure Element (K V : Type) where
  id : Nat
  entry : CacheEntry K V
  deriving DecidableEq

structure Cache (K V : Type) where
  bytes : Int := 0
  order : List (Element K V) := []
  entries : GoMap K (Element K V) := ∅
  allocated : Nat := 0

def overLimits (limits : CacheLimits) (count : Nat) (bytes : Int) : Bool :=
  decide (count > limits.maxEntries) || (decide (limits.maxBytes > 0) && decide (bytes > limits.maxBytes))

/-- What `Shed` aims for: bytes where values are sized, else a count; `share` is the multiplication by
`keep` and the rounding. -/
def shedOver (sized : Bool) (share : Int → Int) (before : Int) (kept count : Nat) (bytes : Int) : Bool :=
  if sized then decide (bytes > share before) && decide (count > 0) else decide (count > (share kept).toNat)

namespace Cache

section
variable {K V : Type} [DecidableEq K]

def removeLocked (c : Cache K V) (el : Element K V) : Cache K V :=
  { c with
    order := c.order.filter (fun x => x.id ≠ el.id)
    entries := c.entries.erase el.entry.key
    bytes := c.bytes - el.entry.bytes }

def removeBack (c : Cache K V) : Cache K V :=
  match c.order.getLast? with
  | some el => c.removeLocked el
  | none => c

/-- The loops that remove the last element while something is exceeded. -/
def removeWhile (exceeds : Nat → Int → Bool) : Nat → Cache K V → Cache K V
  | 0, c => c
  | fuel+1, c => if exceeds c.order.length c.bytes then removeWhile exceeds fuel c.removeBack else c

def moveToFront (c : Cache K V) (el : Element K V) : Cache K V :=
  { c with order := el :: c.order.filter (fun x => x.id ≠ el.id) }

def lookupLocked (now : Int) (key : K) (c : Cache K V) : Cache K V × Option (CacheEntry K V) :=
  match c.entries.lookup key with
  | none => (c,none)
  | some el => if el.entry.expires ≤ now then (c.removeLocked el,none) else (c.moveToFront el,some el.entry)

def pushFront (c : Cache K V) (entry : CacheEntry K V) : Cache K V :=
  let el : Element K V := ⟨c.allocated,entry⟩
  { order := el :: c.order, entries := c.entries.insert entry.key el, bytes := c.bytes + entry.bytes
    allocated := c.allocated + 1 }

/-- The entry a new one takes the place of goes first. -/
def removeKey (key : K) (c : Cache K V) : Cache K V :=
  match c.entries.lookup key with
  | some el => c.removeLocked el
  | none => c

def storeLocked (cfg : CacheConfig V) (now : Int) (key : K) (value : V) (size : Int) (c : Cache K V) : Cache K V :=
  let c := c.removeKey key
  if cfg.limits.maxBytes > 0 ∧ size > cfg.limits.maxBytes then c
  else
    let c := c.pushFront { key := key, value := value, bytes := size, expires := now + cfg.ttl }
    c.removeWhile (overLimits cfg.limits) c.order.length

def dropExpired (now : Int) (c : Cache K V) : Cache K V :=
  c.order.reverse.foldl (fun c el => if el.entry.expires ≤ now then c.removeLocked el else c) c

/-- The bytes dropped are the second component. -/
def shed (cfg : CacheConfig V) (now : Int) (share : Int → Int) (c : Cache K V) : Cache K V × Int :=
  let live := c.dropExpired now
  let after := live.removeWhile (shedOver cfg.size.isSome share c.bytes live.order.length) live.order.length
  (after,c.bytes - after.bytes)

end

end Cache

/-- An LRU map with expiry: the entries, the most recently used first. -/
abbrev LruMap (K V : Type) := List (CacheEntry K V)

namespace LruMap

section
variable {K V : Type} [DecidableEq K]

def lookup (now : Int) (key : K) (m : LruMap K V) : LruMap K V × Option (CacheEntry K V) :=
  match m.find? (fun e => e.key = key) with
  | none => (m,none)
  | some e =>
    if e.expires ≤ now then (Lru.without CacheEntry.key m key,none)
    else (e :: Lru.without CacheEntry.key m key,some e)

def store (cfg : CacheConfig V) (now : Int) (key : K) (value : V) (size : Int) (m : LruMap K V) : LruMap K V :=
  let m := Lru.without CacheEntry.key m key
  if cfg.limits.maxBytes > 0 ∧ size > cfg.limits.maxBytes then m
  else Lru.trim CacheEntry.bytes (overLimits cfg.limits)
    ({ key := key, value := value, bytes := size, expires := now + cfg.ttl } :: m)

def shed (cfg : CacheConfig V) (now : Int) (share : Int → Int) (m : LruMap K V) : LruMap K V :=
  let live := m.filter (fun e => now < e.expires)
  Lru.trim CacheEntry.bytes (shedOver cfg.size.isSome share (Lru.total CacheEntry.bytes m) live.length) live

/-- Within the limits, no entry counting for less than nothing. -/
structure Bounded (cfg : CacheConfig V) (m : LruMap K V) : Prop where
  fits : overLimits cfg.limits m.length (Lru.total CacheEntry.bytes m) = false
  weighed : ∀ e ∈ m, 0 ≤ e.bytes

end

end LruMap

/-- How the list, the map and the byte count stand for an LRU map. -/
structure Cache.Holds {K V : Type} [DecidableEq K] (c : Cache K V) (m : LruMap K V) : Prop where
  order : c.order.map Element.entry = m
  keys : (m.map CacheEntry.key).Nodup
  ids : (c.order.map Element.id).Nodup
  fresh : ∀ el ∈ c.order, el.id < c.allocated
  entries : ∀ key el, c.entries.lookup key = some el ↔ el ∈ c.order ∧ el.entry.key = key
  bytes : c.bytes = Lru.total CacheEntry.bytes m

namespace Cache.Holds

section
variable {K V : Type} [DecidableEq K] {c : Cache K V} {m : LruMap K V}

theorem empty : ({} : Cache K V).Holds [] := ⟨rfl,nodup_nil,nodup_nil,by simp,by simp,rfl⟩

/-- An element is known by its address and by its key. -/
theorem same_iff (held : c.Holds m) (inside : x ∈ c.order) (member : el ∈ c.order) :
    x.id = el.id ↔ x.entry.key = el.entry.key := by
  have keys : (c.order.map fun x => x.entry.key).Nodup := by
    have distinct := held.keys
    rwa [← held.order,map_map] at distinct
  constructor
  · intro same
    rw [inj_on_of_nodup_map held.ids inside member same]
  · intro same
    rw [inj_on_of_nodup_map keys inside member same]

section
variable (held : c.Holds m)
include held

theorem filter_id (member : el ∈ c.order) :
    (c.order.filter (fun x => x.id ≠ el.id)).map Element.entry = Lru.without CacheEntry.key m el.entry.key := by
  rw [← held.order,Lru.without,filter_map]
  refine congrArg _ (filter_congr fun _ inside => ?_)
  exact decide_eq_decide.mpr (not_congr (held.same_iff inside member))

theorem mem_filter_id (member : el ∈ c.order) :
    x ∈ c.order.filter (fun x => x.id ≠ el.id) ↔ x ∈ c.order ∧ x.entry.key ≠ el.entry.key := by
  rw [mem_filter,decide_eq_true_iff]
  exact and_congr_right fun inside => not_congr (held.same_iff inside member)

theorem mem_entry (member : el ∈ c.order) : el.entry ∈ m := by
  rw [← held.order]
  exact mem_map_of_mem member

theorem removeLocked (member : el ∈ c.order) :
    (c.removeLocked el).Holds (Lru.without CacheEntry.key m el.entry.key) := by
  refine ⟨held.filter_id member,((Lru.without_sublist m _).map _).nodup held.keys,
    (filter_sublist.map _).nodup held.ids,fun x inside => held.fresh x (mem_filter.mp inside).1,fun key x => ?_,?_⟩
  · show (c.entries.erase el.entry.key).lookup key = some x ↔ x ∈ c.order.filter _ ∧ _
    rw [GoMap.lookup_erase_ite,held.mem_filter_id member]
    split_ifs with same
    · constructor
      · exact nofun
      · rintro ⟨⟨_,other⟩,isKey⟩
        exact absurd (isKey.trans same) other
    · rw [held.entries]
      constructor
      · rintro ⟨inside,isKey⟩
        exact ⟨⟨inside,fun equal => same (isKey.symm.trans equal)⟩,isKey⟩
      · rintro ⟨⟨inside,_⟩,isKey⟩
        exact ⟨inside,isKey⟩
  · show c.bytes - el.entry.bytes = _
    rw [Lru.total_without CacheEntry.bytes held.keys (held.mem_entry member),held.bytes]

theorem find (key : K) : m.find? (fun e => e.key = key) = (c.entries.lookup key).map Element.entry := by
  cases found : c.entries.lookup key with
  | none =>
    refine find?_eq_none.mpr fun e inside isKey => ?_
    rw [← held.order,mem_map] at inside
    obtain ⟨el,member,rfl⟩ := inside
    have known := (held.entries key el).mpr ⟨member,of_decide_eq_true isKey⟩
    rw [found] at known
    cases known
  | some el =>
    obtain ⟨member,isKey⟩ := (held.entries key el).mp found
    obtain ⟨e,first⟩ : ∃ e, m.find? (fun e => decide (e.key = key)) = some e :=
      Option.isSome_iff_exists.mp (find?_isSome.mpr ⟨el.entry,held.mem_entry member,decide_eq_true isKey⟩)
    rw [first]
    refine congrArg some (inj_on_of_nodup_map held.keys (mem_of_find?_eq_some first) (held.mem_entry member) ?_)
    rw [isKey]
    have isFound := find?_some first
    exact of_decide_eq_true isFound

theorem moveToFront (member : el ∈ c.order) :
    (c.moveToFront el).Holds (el.entry :: Lru.without CacheEntry.key m el.entry.key) := by
  have others := fun x => held.mem_filter_id (x := x) member
  refine ⟨congrArg (el.entry :: ·) (held.filter_id member),Lru.keys_cons held.keys el.entry,?_,?_,fun key x => ?_,?_⟩
  · refine nodup_cons.mpr ⟨?_,(filter_sublist.map _).nodup held.ids⟩
    simp
  · rintro x (_ | ⟨_,inside⟩)
    · exact held.fresh el member
    · exact held.fresh x (mem_filter.mp inside).1
  · show c.entries.lookup key = some x ↔ x ∈ el :: c.order.filter _ ∧ _
    rw [held.entries,mem_cons,others]
    constructor
    · rintro ⟨inside,isKey⟩
      by_cases same : x.entry.key = el.entry.key
      · refine ⟨.inl (inj_on_of_nodup_map held.ids inside member ((held.same_iff inside member).mpr same)),isKey⟩
      · exact ⟨.inr ⟨inside,same⟩,isKey⟩
    · rintro ⟨rfl | ⟨inside,_⟩,isKey⟩
      · exact ⟨member,isKey⟩
      · exact ⟨inside,isKey⟩
  · show c.bytes = Lru.total CacheEntry.bytes (el.entry :: _)
    have rest := Lru.total_without CacheEntry.bytes held.keys (held.mem_entry member)
    have whole : Lru.total CacheEntry.bytes (el.entry :: Lru.without CacheEntry.key m el.entry.key) =
        el.entry.bytes + Lru.total CacheEntry.bytes (Lru.without CacheEntry.key m el.entry.key) := sum_cons
    rw [whole,rest,held.bytes]
    omega

theorem lookupLocked (now : Int) (key : K) :
    (c.lookupLocked now key).1.Holds (m.lookup now key).1 ∧ (c.lookupLocked now key).2 = (m.lookup now key).2 := by
  unfold Cache.lookupLocked LruMap.lookup
  rw [held.find key]
  cases found : c.entries.lookup key with
  | none => exact ⟨held,rfl⟩
  | some el =>
    obtain ⟨member,rfl⟩ := (held.entries key el).mp found
    dsimp only [Option.map_some]
    split_ifs
    · exact ⟨held.removeLocked member,rfl⟩
    · exact ⟨held.moveToFront member,rfl⟩

theorem pushFront (entry : CacheEntry K V) (new : c.entries.lookup entry.key = none) :
    (c.pushFront entry).Holds (entry :: m) := by
  have unknown : ∀ el ∈ c.order, el.entry.key ≠ entry.key := by
    intro el inside same
    have known := (held.entries entry.key el).mpr ⟨inside,same⟩
    rw [new] at known
    cases known
  refine ⟨congrArg (entry :: ·) held.order,nodup_cons.mpr ⟨?_,held.keys⟩,nodup_cons.mpr ⟨?_,held.ids⟩,?_,
    fun key x => ?_,?_⟩
  · rw [← held.order,map_map,mem_map]
    rintro ⟨el,inside,same⟩
    exact unknown el inside same
  · rw [mem_map]
    rintro ⟨el,inside,same⟩
    exact absurd (held.fresh el inside) (by rw [same]; exact Nat.lt_irrefl _)
  · rintro x (_ | ⟨_,inside⟩)
    · exact Nat.lt_succ_self _
    · exact Nat.lt_succ_of_lt (held.fresh x inside)
  · show (c.entries.insert entry.key ⟨c.allocated,entry⟩).lookup key = some x ↔ x ∈ _ :: c.order ∧ _
    rw [GoMap.lookup_insert_ite,mem_cons]
    split_ifs with same
    · constructor
      · rintro ⟨⟩
        exact ⟨.inl rfl,same.symm⟩
      · rintro ⟨rfl | inside,isKey⟩
        · rfl
        · exact absurd (isKey.trans same) (unknown x inside)
    · rw [held.entries]
      constructor
      · rintro ⟨inside,isKey⟩
        exact ⟨.inr inside,isKey⟩
      · rintro ⟨rfl | inside,isKey⟩
        · exact absurd isKey.symm same
        · exact ⟨inside,isKey⟩
  · show c.bytes + entry.bytes = Lru.total CacheEntry.bytes (entry :: m)
    rw [held.bytes]
    exact (Int.add_comm _ _).trans sum_cons.symm

theorem removeBack : c.removeBack.Holds m.dropLast := by
  unfold Cache.removeBack
  cases last : c.order.getLast? with
  | none =>
    have empty := getLast?_eq_none_iff.mp last
    have none_ : m = [] := by rw [← held.order,empty]; rfl
    rw [none_]
    rwa [none_] at held
  | some el =>
    obtain ⟨front,shape⟩ := getLast?_eq_some_iff.mp last
    have member : el ∈ c.order := by rw [shape]; exact mem_append_right _ (mem_singleton.mpr rfl)
    have whole : m = front.map Element.entry ++ [el.entry] := by rw [← held.order,shape,map_append]; rfl
    have distinct := held.keys
    rw [whole,map_append,nodup_append] at distinct
    have rest : m.dropLast = Lru.without CacheEntry.key m el.entry.key := by
      rw [whole,dropLast_concat,Lru.without,filter_append,filter_eq_self.mpr]
      · simp
      · intro _ inside
        exact decide_eq_true fun same => distinct.2.2 _ (mem_map_of_mem inside) _ (mem_singleton.mpr rfl) same
    rw [rest]
    exact held.removeLocked member

theorem removeWhile (exceeds : Nat → Int → Bool) (fuel : Nat) :
    (c.removeWhile exceeds fuel).Holds (Lru.shrink CacheEntry.bytes exceeds fuel m) := by
  induction fuel generalizing c m with
  | zero => exact held
  | succ _ ih =>
    have length : c.order.length = m.length := by rw [← held.order,length_map]
    unfold Cache.removeWhile Lru.shrink
    rw [length,held.bytes]
    split_ifs
    · exact ih held.removeBack
    · exact held

theorem removeKey (key : K) :
    (c.removeKey key).Holds (Lru.without CacheEntry.key m key) ∧ (c.removeKey key).entries.lookup key = none := by
  unfold Cache.removeKey
  cases found : c.entries.lookup key with
  | none =>
    have nothing := held.find key
    rw [found,Option.map_none,find?_eq_none] at nothing
    have same : Lru.without CacheEntry.key m key = m := by
      refine filter_eq_self.mpr fun e inside => decide_eq_true fun isKey => ?_
      exact nothing e inside (decide_eq_true isKey)
    rw [same]
    exact ⟨held,found⟩
  | some el =>
    obtain ⟨member,rfl⟩ := (held.entries key el).mp found
    refine ⟨held.removeLocked member,?_⟩
    show (c.entries.erase el.entry.key).lookup el.entry.key = none
    rw [GoMap.lookup_erase_ite,if_pos rfl]

theorem storeLocked (cfg : CacheConfig V) (now : Int) (key : K) (value : V) (size : Int) :
    (c.storeLocked cfg now key value size).Holds (m.store cfg now key value size) := by
  obtain ⟨cleared,new⟩ := held.removeKey key
  unfold Cache.storeLocked LruMap.store
  dsimp only
  split_ifs with large
  · exact cleared
  · let entry : CacheEntry K V := { key := key, value := value, bytes := size, expires := now + cfg.ttl }
    have pushed := cleared.pushFront entry new
    have length : ((c.removeKey key).pushFront entry).order.length = (entry :: Lru.without CacheEntry.key m key).length := by
      rw [← pushed.order,length_map]
    rw [length]
    exact pushed.removeWhile (overLimits cfg.limits) _

end

/-- The sweep over the elements visits each once, so what it removes is what has expired. -/
theorem dropThese (now : Int) (rest : List (Element K V)) (held : c.Holds m) (inside : ∀ el ∈ rest, el ∈ c.order)
    (once : (rest.map Element.id).Nodup) :
    (rest.foldl (fun c el => if el.entry.expires ≤ now then c.removeLocked el else c) c).Holds
      (m.filter fun e => decide (now < e.expires ∨ e.key ∉ rest.map fun el => el.entry.key)) := by
  induction rest generalizing c m with
  | nil =>
    have all : m.filter (fun e => decide (now < e.expires ∨ e.key ∉ ([] : List (Element K V)).map fun el => el.entry.key)) = m :=
      filter_eq_self.mpr fun e _ => decide_eq_true (.inr (by simp))
    rw [all]
    exact held
  | cons el rest ih =>
    obtain ⟨first,others⟩ := forall_mem_cons.mp inside
    obtain ⟨apart,once⟩ := nodup_cons.mp once
    have keyed : ∀ e ∈ m, e.key = el.entry.key → e = el.entry := fun e member same =>
      inj_on_of_nodup_map held.keys member (held.mem_entry first) same
    rw [foldl_cons]
    split_ifs with expired
    · have later : ∀ x ∈ rest, x ∈ (c.removeLocked el).order := by
        intro x member
        refine mem_filter.mpr ⟨others x member,decide_eq_true fun same => apart ?_⟩
        rw [← same]
        exact mem_map_of_mem member
      have swept := ih (held.removeLocked first) later once
      rw [Lru.without,filter_filter] at swept
      have same : m.filter (fun e => decide (now < e.expires ∨ e.key ∉ (el :: rest).map fun x => x.entry.key)) =
          m.filter fun e => decide (now < e.expires ∨ e.key ∉ rest.map fun x => x.entry.key) && decide (e.key ≠ el.entry.key) := by
        refine filter_congr fun e member => ?_
        rw [← Bool.decide_and]
        refine decide_eq_decide.mpr ?_
        rw [map_cons,mem_cons]
        constructor
        · rintro (alive | outside)
          · refine ⟨.inl alive,fun isKey => ?_⟩
            rw [keyed e member isKey] at alive
            omega
          · exact ⟨.inr fun in_ => outside (.inr in_),fun isKey => outside (.inl isKey)⟩
        · rintro ⟨alive | outside,other⟩
          · exact .inl alive
          · exact .inr fun in_ => in_.elim other outside
      rw [same]
      exact swept
    · have swept := ih held others once
      have same : m.filter (fun e => decide (now < e.expires ∨ e.key ∉ (el :: rest).map fun x => x.entry.key)) =
          m.filter fun e => decide (now < e.expires ∨ e.key ∉ rest.map fun x => x.entry.key) := by
        refine filter_congr fun e member => decide_eq_decide.mpr ?_
        rw [map_cons,mem_cons]
        constructor
        · rintro (alive | outside)
          · exact .inl alive
          · exact .inr fun in_ => outside (.inr in_)
        · rintro (alive | outside)
          · exact .inl alive
          · by_cases isKey : e.key = el.entry.key
            · rw [keyed e member isKey]
              exact .inl (by omega)
            · exact .inr fun in_ => in_.elim isKey outside
      rw [same]
      exact swept

theorem dropExpired (held : c.Holds m) (now : Int) :
    (c.dropExpired now).Holds (m.filter fun e => decide (now < e.expires)) := by
  have swept := held.dropThese now c.order.reverse (fun el inside => mem_reverse.mp inside)
    (by rw [map_reverse]; exact nodup_reverse.mpr held.ids)
  have same : m.filter (fun e => decide (now < e.expires)) =
      m.filter fun e => decide (now < e.expires ∨ e.key ∉ c.order.reverse.map fun el => el.entry.key) := by
    refine filter_congr fun _ member => decide_eq_decide.mpr ⟨.inl,fun alive => alive.resolve_right ?_⟩
    rw [← held.order] at member
    obtain ⟨el,inside,rfl⟩ := mem_map.mp member
    exact not_not.mpr (mem_map.mpr ⟨el,mem_reverse.mpr inside,rfl⟩)
  rw [same]
  exact swept

theorem shed (held : c.Holds m) (cfg : CacheConfig V) (now : Int) (share : Int → Int) :
    (c.shed cfg now share).1.Holds (m.shed cfg now share) := by
  have live := held.dropExpired now
  have length : (c.dropExpired now).order.length = (m.filter fun e => decide (now < e.expires)).length := by
    rw [← live.order,length_map]
  unfold Cache.shed LruMap.shed
  dsimp only
  rw [length,held.bytes]
  exact live.removeWhile _ _

end

end Cache.Holds

namespace LruMap

section
variable {K V : Type} {m : LruMap K V}

theorem overLimits_iff (limits : CacheLimits) (count : Nat) (bytes : Int) :
    overLimits limits count bytes = false ↔ count ≤ limits.maxEntries ∧ (0 < limits.maxBytes → bytes ≤ limits.maxBytes) := by
  simp only [overLimits,Bool.or_eq_false_iff,Bool.and_eq_false_iff,decide_eq_false_iff_not]
  constructor
  · rintro ⟨few,free | light⟩
    · exact ⟨by omega,fun bounded => absurd bounded free⟩
    · exact ⟨by omega,fun _ => by omega⟩
  · rintro ⟨_,light⟩
    refine ⟨by omega,?_⟩
    by_cases bounded : limits.maxBytes > 0
    · exact .inr (by have := light bounded; omega)
    · exact .inl bounded

theorem overLimits_empty (limits : CacheLimits) : overLimits limits 0 0 = false :=
  (overLimits_iff limits 0 0).mpr ⟨Nat.zero_le _,fun _ => by omega⟩

theorem bounded_empty : Bounded cfg ([] : LruMap K V) := ⟨overLimits_empty _,by simp⟩

variable {l : LruMap K V}

theorem total_sublist (weighed : ∀ e ∈ m, 0 ≤ e.bytes) (sub : l.Sublist m) :
    Lru.total CacheEntry.bytes l ≤ Lru.total CacheEntry.bytes m := by
  refine (sub.map CacheEntry.bytes).sum_le_sum fun _ member => ?_
  obtain ⟨e,inside,rfl⟩ := mem_map.mp member
  exact weighed e inside

theorem Bounded.sublist (bounded : Bounded cfg m) (sub : l.Sublist m) : Bounded cfg l := by
  obtain ⟨few,light⟩ := (overLimits_iff ..).mp bounded.fits
  refine ⟨(overLimits_iff ..).mpr ⟨sub.length_le.trans few,fun limited => ?_⟩,fun e inside => bounded.weighed e (sub.subset inside)⟩
  exact (total_sublist bounded.weighed sub).trans (light limited)

theorem Bounded.perm (bounded : Bounded cfg m) (perm : l.Perm m) : Bounded cfg l := by
  refine ⟨?_,fun e inside => bounded.weighed e (perm.subset inside)⟩
  rw [perm.length_eq,Lru.total,(perm.map CacheEntry.bytes).sum_eq]
  exact bounded.fits

theorem shed_sublist (m : LruMap K V) (cfg : CacheConfig V) (now : Int) (share : Int → Int) :
    (m.shed cfg now share).Sublist m :=
  (Lru.trim_isPrefix CacheEntry.bytes _ _).sublist.trans filter_sublist

variable [DecidableEq K]

theorem find_key {m : LruMap K V} (found : m.find? (fun e => e.key = key) = some e) :
    e ∈ m ∧ e.key = key := by
  have isFound := find?_some found
  exact ⟨mem_of_find?_eq_some found,of_decide_eq_true isFound⟩

theorem lookup_cases (m : LruMap K V) (now : Int) (key : K) : m.lookup now key = (m,none) ∨
    (∃ e ∈ m, e.key = key ∧ e.expires ≤ now ∧ m.lookup now key = (Lru.without CacheEntry.key m key,none)) ∨
    ∃ e ∈ m, e.key = key ∧ now < e.expires ∧ m.lookup now key = (e :: Lru.without CacheEntry.key m key,some e) := by
  unfold lookup
  cases found : m.find? (fun e => e.key = key) with
  | none => exact .inl rfl
  | some e =>
    obtain ⟨inside,isKey⟩ := find_key found
    dsimp only
    split_ifs with expired
    · exact .inr (.inl ⟨e,inside,isKey,expired,rfl⟩)
    · exact .inr (.inr ⟨e,inside,isKey,by omega,rfl⟩)

theorem front_perm (distinct : (m.map CacheEntry.key).Nodup) (inside : e ∈ m) :
    (e :: Lru.without CacheEntry.key m e.key).Perm m := by
  classical
  rw [Lru.without_eq_erase distinct inside]
  exact (perm_cons_erase inside).symm

theorem Bounded.lookup (bounded : Bounded cfg m) (distinct : (m.map CacheEntry.key).Nodup) (now : Int) (key : K) :
    Bounded cfg (m.lookup now key).1 := by
  rcases m.lookup_cases now key with same | ⟨e,inside,rfl,_,same⟩ | ⟨_,inside,rfl,_,same⟩ <;> rw [same]
  · exact bounded
  · exact bounded.sublist (Lru.without_sublist m _)
  · exact bounded.perm (front_perm distinct inside)

theorem Bounded.store (bounded : Bounded cfg m) (now : Int) (key : K) (value : V) (sized : 0 ≤ size) :
    Bounded cfg (m.store cfg now key value size) := by
  unfold LruMap.store
  dsimp only
  split_ifs with large
  · exact bounded.sublist (Lru.without_sublist m _)
  · refine ⟨Lru.trim_fits CacheEntry.bytes (overLimits_empty _) _,fun e inside => ?_⟩
    rcases mem_cons.mp ((Lru.trim_isPrefix CacheEntry.bytes _ _).subset inside) with rfl | rest
    · exact sized
    · exact bounded.weighed e ((Lru.without_sublist m _).subset rest)

end

end LruMap

end ENode.Meta
