import ENode.MemorySearch

/-! The mirror of other servers' catalogues. A file is held once, with a reference per
origin that reported it; a reference carries the walk that last saw the file, and a file
leaves with its last reference. A slot of the slab is free when its hash is empty. -/
namespace ENode.Storage

open GoText Slab SortedLists List

/-- One origin's claim on a file. -/
structure MirrorRef where
  origin : Nat
  walk : Nat
  sources : Nat
  completed : Nat
  deriving DecidableEq

structure Mirror where
  maxFiles : Int
  files : GoMap MapKey Nat := ∅
  byHash : GoMap HashKey (List Nat) := ∅
  recs : List File := []
  refs : List (List MirrorRef) := []
  names : NameIndex := {}
  free : List Nat := []
  count : Nat := 0

namespace Mirror

def record (m : Mirror) (id : Nat) : File := m.recs.getD id {}
def refsOf (m : Mirror) (id : Nat) : List MirrorRef := m.refs.getD id []

def allocLocked (m : Mirror) : Mirror × Nat :=
  match m.free.getLast? with
  | some id => ({ m with free := m.free.dropLast },id)
  | none => ({ m with refs := m.refs ++ [[]], recs := m.recs ++ [{}] },m.recs.length)

/-- The reference of the same origin is replaced in its place. -/
def setRef (ref : MirrorRef) : List MirrorRef → List MirrorRef
  | [] => [ref]
  | r :: rest => if r.origin = ref.origin then ref :: rest else r :: setRef ref rest

def setRefLocked (m : Mirror) (id : Nat) (ref : MirrorRef) : Mirror :=
  { m with refs := m.refs.modify id (setRef ref) }

def largest (field : MirrorRef → Nat) (refs : List MirrorRef) : Nat := refs.foldl (fun n r => max n (field r)) 0

/-- The file with the largest counts its references give. -/
def withCounts (refs : List MirrorRef) (f : File) : File :=
  { f with sources := largest (·.sources) refs, completed := largest (·.completed) refs }

def countLocked (m : Mirror) (id : Nat) : Mirror := { m with recs := m.recs.modify id (withCounts (m.refsOf id)) }

def addLocked (u : Unicode) (m : Mirror) (ref : MirrorRef) (f : File) : Mirror :=
  let (a,id) := m.allocLocked
  { a with
    files := a.files.insert f.mapKey id
    byHash := a.byHash.insert (hashArray f.hash) ((a.byHash.lookup (hashArray f.hash)).getD [] ++ [id])
    count := a.count + 1
    recs := a.recs.modify id (fun _ => f)
    names := a.names.indexName u id f.name
    refs := a.refs.modify id (fun _ => [ref]) }

/-- The new description of a file the mirror holds; the record keeps its own copy of the hash. -/
def describeLocked (u : Unicode) (m : Mirror) (id : Nat) (f : File) : Mirror :=
  { m with
    names := if (m.record id).name ≠ f.name then m.names.renameFile u id (m.record id).name f.name else m.names
    recs := m.recs.modify id (fun r => { f with hash := r.hash }) }

def renewLocked (u : Unicode) (m : Mirror) (id : Nat) (ref : MirrorRef) (f : File) : Mirror :=
  ((m.setRefLocked id ref).describeLocked u id f).countLocked id

/-- Only what describes a file is kept. -/
def description (f : File) : File := { f with sourceID := 0, sourcePort := 0, metaInfo := none }

/-- The count is that of the files taken. -/
def putFile (u : Unicode) (origin walk : Nat) (state : Mirror × Nat) (file : File) : Mirror × Nat :=
  let (m,taken) := state
  if file.hash.length ≠ hashLen ∨ file.name = [] then (m,taken)
  else
    let f := description file
    let ref : MirrorRef := ⟨origin,walk,f.sources,f.completed⟩
    match m.files.lookup (fileMapKey f.hash f.size) with
    | none => if (m.count : Int) ≥ m.maxFiles then (m,taken) else (m.addLocked u ref f,taken + 1)
    | some id => (m.renewLocked u id ref f,taken + 1)

def put (u : Unicode) (m : Mirror) (origin walk : Nat) (files : List File) : Mirror × Nat :=
  files.foldl (putFile u origin walk) (m,0)

def unlinkHashLocked (m : Mirror) (hash : Bytes) (id : Nat) : GoMap HashKey (List Nat) :=
  let ids := ((m.byHash.lookup (hashArray hash)).getD []).filter (fun x => x != id)
  if ids = [] then m.byHash.erase (hashArray hash) else m.byHash.insert (hashArray hash) ids

/-- A file without a reference goes. -/
def removeLocked (u : Unicode) (m : Mirror) (id : Nat) : Mirror :=
  { m with
    files := m.files.erase (fileMapKey (m.record id).hash (m.record id).size)
    byHash := m.unlinkHashLocked (m.record id).hash id
    names := m.names.removeFile u (m.record id).name
    recs := m.recs.modify id (fun _ => {})
    refs := m.refs.modify id (fun _ => [])
    count := m.count - 1 }

/-- One turn of the sweep, with the ids removed so far. -/
def dropSlot (u : Unicode) (gone : MirrorRef → Bool) (state : Mirror × List Nat) (id : Nat) : Mirror × List Nat :=
  let (m,dead) := state
  if (m.record id).hash = [] then (m,dead)
  else
    let kept := (m.refsOf id).filter (fun r => !gone r)
    if kept.length = (m.refsOf id).length then (m,dead)
    else
      let a := { m with refs := m.refs.modify id (fun _ => kept) }
      if kept.length > 0 then (a.countLocked id,dead) else (a.removeLocked u id,dead ++ [id])

def reindexLocked (u : Unicode) (m : Mirror) : Mirror :=
  { m with names := m.recs.zipIdx.foldl (fun x f => if f.1.hash ≠ [] then x.indexName u f.2 f.1.name else x) {} }

/-- The dead ids leave the index before they are reused. -/
def releaseLocked (u : Unicode) (m : Mirror) (dead : List Nat) : Mirror :=
  let a := { m with names := m.names.purge (fun id => decide (id ∈ dead)), free := m.free ++ dead }
  if a.names.needsRebuild then a.reindexLocked u else a

def dropRefs (u : Unicode) (m : Mirror) (gone : MirrorRef → Bool) : Mirror × Nat :=
  let (m,dead) := (List.range m.recs.length).foldl (dropSlot u gone) (m,[])
  if dead.length = 0 then (m,0) else (m.releaseLocked u dead,dead.length)

def sweep (u : Unicode) (m : Mirror) (origin walk : Nat) : Mirror × Nat :=
  m.dropRefs u (fun r => r.origin == origin && r.walk != walk)

def drop (u : Unicode) (m : Mirror) (origin : Nat) : Mirror × Nat := m.dropRefs u (fun r => r.origin == origin)

def hashIDsLocked (m : Mirror) : HashLookup := fun hash size =>
  ((m.byHash.lookup (hashArray hash)).getD []).filter (fun id => size == 0 || (m.record id).size == size)

/-- The matches among the ids until there are enough. -/
def searchIDs (u : Unicode) (m : Mirror) (expr : SearchExpr) (limit : Int) : List File → List Nat → List File
  | out, [] => out
  | out, id :: rest =>
    let f := m.record id
    let out := if f.hash ≠ [] ∧ matchSearchExpr u expr f = true then out ++ [f] else out
    if (out.length : Int) ≥ limit then out else searchIDs u m expr limit out rest

def search (u : Unicode) (sorter : SliceSort) (m : Mirror) (expr : SearchExpr) (limit : Int) : List File :=
  if expr = .nil ∨ limit ≤ 0 ∨ searchPrunes u expr = true then []
  else
    let (ids,all) := m.names.candidates sorter u (max candidateFloor (m.count / 8)) (some m.hashIDsLocked) expr
    m.searchIDs u expr limit [] (if all then List.range m.recs.length else ids)

def Live (m : Mirror) (id : Nat) : Prop := (m.record id).hash ≠ []

/-- A slot holds a file with its references and the largest counts they give, or nothing. -/
structure Slot (f : File) (refs : List MirrorRef) : Prop where
  shape : f.hash ≠ [] → f.hash.length = hashLen ∧ description f = f
  referenced : f.hash ≠ [] ↔ refs ≠ []
  origins : (refs.map (·.origin)).Nodup
  counted : f.hash ≠ [] → f.sources = largest (·.sources) refs ∧ f.completed = largest (·.completed) refs

/-- What every operation keeps. During a sweep the ids removed so far are neither in use nor free. -/
structure Valid (u : Unicode) (m : Mirror) (dead : List Nat) : Prop where
  paired : m.refs.length = m.recs.length
  keyed : ∀ key id, m.files.lookup key = some id ↔ m.Live id ∧ (m.record id).mapKey = key
  hashed : ∀ key id, id ∈ (m.byHash.lookup key).getD [] ↔ m.Live id ∧ hashArray (m.record id).hash = key
  slots : ∀ id, Slot (m.record id) (m.refsOf id)
  vacant : ∀ id ∈ m.free ++ dead, id < m.recs.length ∧ ¬m.Live id
  distinct : (m.free ++ dead).Nodup
  listed : m.names.Covers (fun w id => m.Live id ∧ w ∈ nameWords u (m.record id).name)
  total : m.count = (GoMap.pairs m.files).length
  bounded : (m.count : Int) ≤ max 0 m.maxFiles

section
variable {u : Unicode} {m : Mirror} {dead : List Nat}

theorem empty_slot : Slot {} [] :=
  ⟨fun filled => absurd rfl filled,iff_of_false (fun h => h rfl) (fun h => h rfl),nodup_nil,
    fun filled => absurd rfl filled⟩

theorem new_valid (u : Unicode) (maxFiles : Int) : Valid u { maxFiles := maxFiles } [] := by
  have vacant : ∀ id, ¬({ maxFiles := maxFiles } : Mirror).Live id := fun id live => live rfl
  refine ⟨rfl,fun key id => ?_,fun _ id => ?_,fun id => empty_slot,by simp,nodup_nil,
    NameIndex.empty_covers.mono (fun _ id h => vacant id h.1),rfl,by simp⟩
  · exact iff_of_false (by simp) (fun h => vacant id h.1)
  · exact iff_of_false (by simp) (fun h => vacant id h.1)

variable {id : Nat}

theorem live_bound (live : m.Live id) : id < m.recs.length := by
  by_contra outside
  apply live
  rw [record,getD_eq_getElem?_getD,getElem?_eq_none (Nat.le_of_not_lt outside)]
  rfl

/-- A slot to write to: nothing else changes. -/
theorem alloc_spec (valid : m.Valid u []) : ∃ recs refs free id,
    m.allocLocked = ({ m with recs := recs, refs := refs, free := free },id) ∧
    refs.length = recs.length ∧ id < recs.length ∧ ¬m.Live id ∧
    (∀ j, recs.getD j {} = m.record j) ∧ (∀ j, refs.getD j [] = m.refsOf j) ∧
    (id :: free).Nodup ∧ ∀ j ∈ free, j < recs.length ∧ ¬m.Live j := by
  unfold allocLocked
  have vacant := valid.vacant
  have distinct := valid.distinct
  rw [append_nil] at vacant distinct
  cases last : m.free.getLast? with
  | some id =>
    obtain ⟨init,split⟩ := getLast?_eq_some_iff.mp last
    rw [split] at vacant distinct
    refine ⟨m.recs,m.refs,m.free.dropLast,id,rfl,valid.paired,(vacant id (by simp)).1,(vacant id (by simp)).2,
      fun _ => rfl,fun _ => rfl,?_,fun j member => vacant j ?_⟩
    · rw [split,dropLast_concat]
      exact (perm_append_singleton id init).nodup_iff.mp distinct
    · rw [split,dropLast_concat] at member
      exact mem_append_left _ member
  | none =>
    have empty := getLast?_eq_none_iff.mp last
    have beyond : ¬m.Live m.recs.length := fun live => Nat.lt_irrefl _ (live_bound live)
    refine ⟨m.recs ++ [({} : File)],m.refs ++ [[]],m.free,m.recs.length,rfl,by simp [valid.paired],by simp,beyond,
      fun j => ?_,fun j => ?_,by simp [empty],by simp [empty]⟩
    · exact getD_concat m.recs {} j
    · exact getD_concat m.refs [] j

/-- A mirror in which one slot was written: it held and holds no file or one of the key. -/
structure Writes (m : Mirror) (id : Nat) (key : MapKey) (f : File) (refs : List MirrorRef) (m' : Mirror) : Prop where
  record : ∀ j, m'.record j = if j = id then f else m.record j
  refsOf : ∀ j, m'.refsOf j = if j = id then refs else m.refsOf j
  paired : m'.refs.length = m'.recs.length
  room : m'.maxFiles = m.maxFiles
  own : ∀ j, m.files.lookup key = some j → j = id
  was : m.Live id → (m.record id).mapKey = key
  is_ : f.hash ≠ [] → f.mapKey = key
  files : ∀ k, m'.files.lookup k = if k = key then (if f.hash = [] then none else some id) else m.files.lookup k
  hashed : ∀ k j, j ∈ (m'.byHash.lookup k).getD [] ↔
    (j ≠ id ∧ j ∈ (m.byHash.lookup k).getD []) ∨ (j = id ∧ f.hash ≠ [] ∧ hashArray f.hash = k)

variable {key : MapKey} {f : File} {refs : List MirrorRef} {m' : Mirror}

theorem Writes.live (writes : Writes m id key f refs m') (j : Nat) :
    m'.Live j ↔ if j = id then f.hash ≠ [] else m.Live j := by
  rw [Live,writes.record]
  split <;> rfl

theorem Writes.vacant (writes : Writes m id key f refs m') (valid : m.Valid u dead) (live : m.Live id)
    (recs : m'.recs.length = m.recs.length) (free : m'.free = m.free) :
    ∀ j ∈ m'.free ++ dead, j < m'.recs.length ∧ ¬m'.Live j := by
  intro j member
  rw [free] at member
  obtain ⟨bound,unused⟩ := valid.vacant j member
  have other : j ≠ id := by
    rintro rfl
    exact unused live
  rw [recs,writes.live,if_neg other]
  exact ⟨bound,unused⟩

theorem slot_withCounts (shape : f.hash ≠ [] → f.hash.length = hashLen ∧ description f = f)
    (referenced : f.hash ≠ [] ↔ refs ≠ [])
    (origins : (refs.map (·.origin)).Nodup) : Slot (withCounts refs f) refs :=
  ⟨fun filled => ⟨(shape filled).1,congrArg (withCounts refs) (shape filled).2⟩,referenced,origins,
    fun _ => ⟨rfl,rfl⟩⟩

theorem Writes.valid {dead' : List Nat} {listed : Bytes → Nat → Prop} (writes : Writes m id key f refs m') (valid : m.Valid u dead)
    (slot : Slot f refs)
    (vacant : ∀ j ∈ m'.free ++ dead', j < m'.recs.length ∧ ¬m'.Live j) (distinct : (m'.free ++ dead').Nodup)
    (names : m'.names.Covers listed) (others : ∀ w j, m.Live j → w ∈ nameWords u (m.record j).name → listed w j)
    (own : f.hash ≠ [] → ∀ w ∈ nameWords u f.name, listed w id)
    (total : m'.count = (GoMap.pairs m'.files).length) (bounded : (m'.count : Int) ≤ max 0 m.maxFiles) :
    m'.Valid u dead' := by
  have live := writes.live
  refine ⟨writes.paired,fun k j => ?_,fun k j => ?_,fun j => ?_,vacant,distinct,
    names.mono ?_,total,writes.room ▸ bounded⟩
  · rw [live,writes.record,writes.files]
    by_cases here : j = id
    · subst here
      by_cases mine : k = key
      · subst mine
        by_cases empty : f.hash = []
        · simp [empty]
        · simp [empty,writes.is_ empty]
      · have before : m.files.lookup k ≠ some j := by
          intro known
          obtain ⟨lives,keyed⟩ := (valid.keyed k j).mp known
          exact mine (keyed.symm.trans (writes.was lives))
        have after : ¬(f.hash ≠ [] ∧ f.mapKey = k) := fun h => mine (h.2.symm.trans (writes.is_ h.1))
        simpa [mine,before] using after
    · rw [if_neg here,if_neg here]
      by_cases mine : k = key
      · subst mine
        have before : ¬(m.Live j ∧ (m.record j).mapKey = k) := by
          rw [← valid.keyed]
          exact fun known => here (writes.own j known)
        rw [if_pos rfl]
        refine iff_of_false ?_ before
        split
        · simp
        · simpa using Ne.symm here
      · rw [if_neg mine,valid.keyed]
  · rw [writes.hashed,live,writes.record,valid.hashed]
    by_cases here : j = id
    · simp [here]
    · simp [here]
  · rw [writes.record,writes.refsOf]
    split
    · exact slot
    · exact valid.slots j
  · rintro w j ⟨lives,word⟩
    rw [live] at lives
    rw [writes.record] at word
    by_cases here : j = id
    · subst here
      rw [if_pos rfl] at lives word
      exact own lives w word
    · rw [if_neg here] at lives word
      exact others w j lives word

theorem add_valid (valid : m.Valid u []) (ref : MirrorRef) (long : f.hash.length = hashLen)
    (plain : description f = f) (counts : ref.sources = f.sources ∧ ref.completed = f.completed)
    (fresh : m.files.lookup f.mapKey = none) (room : (m.count : Int) < m.maxFiles) :
    ∃ id, ¬m.Live id ∧ Writes m id f.mapKey f [ref] (m.addLocked u ref f) ∧
      (m.addLocked u ref f).Valid u [] := by
  obtain ⟨recs,refs,free,id,alloc,paired,bound,unused,records,references,distinct,vacant⟩ := alloc_spec valid
  have added : m.addLocked u ref f = { m with
      files := m.files.insert f.mapKey id
      byHash := m.byHash.insert (hashArray f.hash) ((m.byHash.lookup (hashArray f.hash)).getD [] ++ [id])
      recs := recs.modify id (fun _ => f)
      refs := refs.modify id (fun _ => [ref])
      names := m.names.indexName u id f.name
      free := free
      count := m.count + 1 } := by
    unfold addLocked
    rw [alloc]
  have filled : f.hash ≠ [] := fun empty => by rw [empty] at long; cases long
  have writes : Writes m id f.mapKey f [ref] (m.addLocked u ref f) := by
    rw [added]
    refine ⟨fun j => ?_,fun j => ?_,by simp [paired],rfl,fun j known => ?_,fun live => absurd live unused,fun _ => rfl,
      fun k => ?_,fun k j => ?_⟩
    · exact (getD_modify recs id j _ {} bound).trans (by rw [records])
    · exact (getD_modify refs id j _ [] (paired ▸ bound)).trans (by rw [references])
    · rw [fresh] at known
      cases known
    · rw [GoMap.lookup_insert_ite,if_neg filled]
    · have apart : j ∈ (m.byHash.lookup k).getD [] → j ≠ id := by
        rintro member rfl
        exact unused ((valid.hashed k j).mp member).1
      dsimp only
      rw [GoMap.lookup_insert_ite]
      by_cases here : k = hashArray f.hash
      · subst here
        rw [if_pos rfl,Option.getD_some,mem_append,mem_singleton]
        exact or_congr ⟨fun member => ⟨apart member,member⟩,And.right⟩ ⟨fun h => ⟨h,filled,rfl⟩,And.left⟩
      · rw [if_neg here]
        refine ⟨fun member => .inl ⟨apart member,member⟩,?_⟩
        rintro (old | ⟨_,_,rfl⟩)
        · exact old.2
        · exact absurd rfl here
  have names : (m.addLocked u ref f).names = m.names.indexName u id f.name := by rw [added]
  refine ⟨id,unused,writes,writes.valid valid ?_ ?_ ?_ (names ▸ valid.listed.indexName u id f.name)
    (fun w j live word => .inl ⟨live,word⟩) (fun _ _ word => .inr ⟨word,rfl⟩) ?_ ?_⟩
  · refine ⟨fun _ => ⟨long,plain⟩,iff_of_true filled (by simp),by simp,fun _ => ?_⟩
    simp [largest,counts]
  · intro j member
    rw [writes.live]
    rw [added] at member ⊢
    simp only [append_nil] at member
    have other : j ≠ id := by
      rintro rfl
      exact (nodup_cons.mp distinct).1 member
    simpa [other] using vacant j member
  · rw [added]
    simpa using (nodup_cons.mp distinct).2
  all_goals rw [added]
  · dsimp only
    rw [GoMap.pairs_insert_fresh _ _ _ fresh,valid.total]
    rfl
  · dsimp only
    omega

theorem setRef_origins (ref : MirrorRef) (l : List MirrorRef) : (setRef ref l).map (·.origin) =
    if ref.origin ∈ l.map (·.origin) then l.map (·.origin) else l.map (·.origin) ++ [ref.origin] := by
  induction l with
  | nil => rfl
  | cons r rest ih =>
    rw [setRef]
    by_cases taken : r.origin = ref.origin
    · simp [taken]
    · rw [if_neg taken,map_cons,ih,map_cons]
      have skip : ref.origin ∈ r.origin :: rest.map (·.origin) ↔ ref.origin ∈ rest.map (·.origin) := by
        simp [Ne.symm taken]
      simp only [skip]
      split <;> rfl

theorem setRef_nodup (ref : MirrorRef) (l : List MirrorRef) (distinct : (l.map (·.origin)).Nodup) :
    ((setRef ref l).map (·.origin)).Nodup := by
  rw [setRef_origins]
  split
  · exact distinct
  · next fresh => exact (perm_append_singleton ..).nodup_iff.mpr (nodup_cons.mpr ⟨fresh,distinct⟩)

theorem setRef_ne_nil (ref : MirrorRef) (l : List MirrorRef) : setRef ref l ≠ [] := by
  cases l with
  | nil => simp [setRef]
  | cons _ _ =>
    rw [setRef]
    split <;> simp

theorem find_setRef (ref : MirrorRef) (l : List MirrorRef) (origin : Nat) :
    (setRef ref l).find? (fun r => r.origin == origin) =
      if origin = ref.origin then some ref else l.find? (fun r => r.origin == origin) := by
  induction l with
  | nil =>
    by_cases same : origin = ref.origin
    · simp [setRef,same]
    · simp [setRef,same,Ne.symm same]
  | cons r _ ih =>
    rw [setRef]
    by_cases taken : r.origin = ref.origin
    · rw [if_pos taken]
      by_cases same : origin = ref.origin
      · simp [same]
      · have other : ¬r.origin = origin := fun h => same (h.symm.trans taken)
        simp [same,Ne.symm same,other]
    · rw [if_neg taken]
      by_cases here : r.origin = origin
      · have other : ¬origin = ref.origin := fun h => taken (here.trans h)
        simp [here,other]
      · have skip : (r.origin == origin) = false := by simpa using here
        rw [find?_cons,find?_cons,skip,ih]

theorem hashArray_inj {a b : Bytes} (la : a.length = hashLen) (lb : b.length = hashLen)
    (same : hashArray a = hashArray b) : a = b := by
  have whole : ∀ h : Bytes, h.length = hashLen → (hashArray h).1 = h := by
    intro _ long
    refine (take_append_of_le_length (Nat.le_of_eq long.symm)).trans ?_
    exact take_of_length_le (Nat.le_of_eq long)
  rw [← whole a la,← whole b lb,same]

theorem Valid.rewrite (valid : m.Valid u dead) (known : m.files.lookup key = some id) (keyed : f.mapKey = key)
    (filled : f.hash ≠ [])
    (record : ∀ j, m'.record j = if j = id then f else m.record j)
    (refsOf : ∀ j, m'.refsOf j = if j = id then refs else m.refsOf j) (paired : m'.refs.length = m'.recs.length)
    (room : m'.maxFiles = m.maxFiles) (files : m'.files = m.files) (byHash : m'.byHash = m.byHash) :
    Writes m id key f refs m' := by
  obtain ⟨live,was⟩ := (valid.keyed key id).mp known
  refine ⟨record,refsOf,paired,room,fun j other => ?_,fun _ => was,fun _ => keyed,fun k => ?_,fun _ j => ?_⟩
  · rw [known] at other
    exact (Option.some.inj other).symm
  · rw [files,if_neg filled]
    split
    next same => rw [same,known]
    · rfl
  · rw [byHash]
    by_cases here : j = id
    · subst here
      have hash : hashArray f.hash = hashArray (m.record j).hash := (congrArg Prod.fst (keyed.trans was.symm) :)
      simp [valid.hashed,live,filled,hash]
    · simp [here]

theorem Valid.filled (valid : m.Valid u dead) (live : m.Live id) :
    (m.record id).hash.length = hashLen ∧ id < m.recs.length ∧ id < m.refs.length :=
  ⟨((valid.slots id).shape live).1,live_bound live,valid.paired ▸ live_bound live⟩

theorem countLocked_record (m : Mirror) (bound : id < m.recs.length) (j : Nat) :
    (m.countLocked id).record j = if j = id then withCounts (m.refsOf id) (m.record id) else m.record j :=
  getD_modify m.recs id j _ {} bound

theorem renew_valid (valid : m.Valid u []) (ref : MirrorRef) (long : f.hash.length = hashLen)
    (plain : description f = f) (known : m.files.lookup f.mapKey = some id) :
    Writes m id f.mapKey (withCounts (setRef ref (m.refsOf id)) f) (setRef ref (m.refsOf id)) (m.renewLocked u id ref f) ∧
    (m.renewLocked u id ref f).Valid u [] := by
  obtain ⟨live,keyed⟩ := (valid.keyed _ id).mp known
  obtain ⟨wasLong,bound,bound'⟩ := valid.filled live
  have filled : f.hash ≠ [] := fun empty => by rw [empty] at long; cases long
  have hash : (m.record id).hash = f.hash := hashArray_inj wasLong long (congrArg Prod.fst keyed)
  have refsOf : ∀ j, (m.setRefLocked id ref).refsOf j = if j = id then setRef ref (m.refsOf id) else m.refsOf j :=
    fun j => getD_modify m.refs id j _ [] bound'
  have record : ∀ j, (m.renewLocked u id ref f).record j =
      if j = id then withCounts (setRef ref (m.refsOf id)) f else m.record j := by
    intro j
    have described : ∀ j, ((m.setRefLocked id ref).describeLocked u id f).record j =
        if j = id then f else m.record j := by
      intro j
      refine (getD_modify m.recs id j _ {} bound).trans ?_
      change (if j = id then { f with hash := (m.record id).hash } else m.record j) = _
      rw [hash]
    have own : ((m.setRefLocked id ref).describeLocked u id f).refsOf id = setRef ref (m.refsOf id) :=
      (refsOf id).trans (if_pos rfl)
    refine (countLocked_record _ (by simpa [describeLocked,setRefLocked] using bound) j).trans ?_
    rw [own,described,described,if_pos rfl]
    split <;> rfl
  have writes : Writes m id f.mapKey (withCounts (setRef ref (m.refsOf id)) f) (setRef ref (m.refsOf id))
      (m.renewLocked u id ref f) := by
    refine valid.rewrite known rfl filled record refsOf ?_ rfl rfl rfl
    simp [renewLocked,setRefLocked,describeLocked,countLocked,valid.paired]
  have names : (m.renewLocked u id ref f).names = m.names.renameFile u id (m.record id).name f.name := by
    change (if (m.record id).name ≠ f.name then m.names.renameFile u id (m.record id).name f.name else m.names) = _
    split
    · rfl
    next same => rw [NameIndex.renameFile,if_pos (not_not.mp same)]
  refine ⟨writes,writes.valid valid ?_ (writes.vacant valid live ?_ rfl) valid.distinct
    (names ▸ valid.listed.renameFile u (fun w word => ⟨live,word⟩) f.name) (fun w _ live word => .inl ⟨live,word⟩)
    (fun _ _ word => .inr ⟨word,rfl⟩) valid.total valid.bounded⟩
  · refine slot_withCounts (fun _ => ⟨long,plain⟩) ?_ (setRef_nodup ref _ (valid.slots id).origins)
    exact iff_of_true filled (setRef_ne_nil ref _)
  · simp [renewLocked,setRefLocked,describeLocked,countLocked]

theorem keep_valid (valid : m.Valid u dead) (live : m.Live id) (gone : MirrorRef → Bool)
    (some_ : (m.refsOf id).filter (fun r => !gone r) ≠ []) :
    let kept := (m.refsOf id).filter (fun r => !gone r)
    let m' := ({ m with refs := m.refs.modify id (fun _ => kept) } : Mirror).countLocked id
    Writes m id (m.record id).mapKey (withCounts kept (m.record id)) kept m' ∧ m'.Valid u dead := by
  intro kept m'
  obtain ⟨_,bound,bound'⟩ := valid.filled live
  have refsOf : ∀ j, m'.refsOf j = if j = id then kept else m.refsOf j := fun j => getD_modify m.refs id j _ [] bound'
  have record : ∀ j, m'.record j = if j = id then withCounts kept (m.record id) else m.record j := by
    intro j
    have own : ({ m with refs := m.refs.modify id (fun _ => kept) } : Mirror).refsOf id = kept :=
      (refsOf id).trans (if_pos rfl)
    refine (countLocked_record _ (by exact bound) j).trans ?_
    rw [own]
    rfl
  have writes : Writes m id (m.record id).mapKey (withCounts kept (m.record id)) kept m' := by
    refine valid.rewrite ((valid.keyed _ id).mpr ⟨live,rfl⟩) rfl live record refsOf ?_ rfl rfl rfl
    simp [m',countLocked,valid.paired]
  refine ⟨writes,writes.valid valid ?_ (writes.vacant valid live ?_ rfl) valid.distinct valid.listed
    (fun w _ live word => ⟨live,word⟩) (fun _ _ word => ⟨live,word⟩) valid.total valid.bounded⟩
  · exact slot_withCounts (fun _ => (valid.slots id).shape live) (iff_of_true live some_)
      ((valid.slots id).origins.sublist (filter_sublist.map _))
  · simp [m',countLocked]

theorem unlinkHash_lookup (m : Mirror) (hash : Bytes) (id : Nat) (k : HashKey) :
    ((m.unlinkHashLocked hash id).lookup k).getD [] = if k = hashArray hash
      then ((m.byHash.lookup k).getD []).filter (fun x => x != id) else (m.byHash.lookup k).getD [] := by
  unfold unlinkHashLocked
  dsimp only
  by_cases here : k = hashArray hash
  · subst here
    rw [if_pos rfl]
    split
    next none_ => rw [GoMap.lookup_erase_ite,if_pos rfl,none_]; rfl
    · rw [GoMap.lookup_insert_ite,if_pos rfl]; rfl
  · split
    · rw [GoMap.lookup_erase_ite,if_neg here]
    · rw [GoMap.lookup_insert_ite,if_neg here]

theorem mem_unlinked (valid : m.Valid u dead) (k : HashKey) (j : Nat) :
    j ∈ ((m.unlinkHashLocked (m.record id).hash id).lookup k).getD [] ↔ j ≠ id ∧ j ∈ (m.byHash.lookup k).getD [] := by
  rw [unlinkHash_lookup]
  split
  · simp [mem_filter,and_comm]
  next other =>
    refine ⟨fun member => ⟨?_,member⟩,And.right⟩
    rintro rfl
    exact other ((valid.hashed k j).mp member).2.symm

theorem remove_valid (valid : m.Valid u dead) (live : m.Live id) (refs : List MirrorRef) :
    let m' := ({ m with refs := m.refs.modify id (fun _ => refs) } : Mirror).removeLocked u id
    Writes m id (m.record id).mapKey {} [] m' ∧ m'.Valid u (dead ++ [id]) := by
  intro m'
  obtain ⟨_,bound,bound'⟩ := valid.filled live
  have known := (valid.keyed _ id).mpr ⟨live,rfl⟩
  have writes : Writes m id (m.record id).mapKey {} [] m' := by
    refine ⟨fun j => getD_modify m.recs id j _ {} bound,fun j => ?_,by simp [m',removeLocked,valid.paired],rfl,
      fun j other => ?_,fun _ => rfl,fun filled => absurd rfl filled,fun k => ?_,fun k j => ?_⟩
    · refine (getD_modify _ id j _ [] (by simpa using bound')).trans ?_
      split
      · rfl
      next other => exact (getD_modify m.refs id j _ [] bound').trans (if_neg other)
    · rw [known] at other
      exact (Option.some.inj other).symm
    · exact (GoMap.lookup_erase_ite _ _ k).trans (by rfl)
    · exact (mem_unlinked valid k j).trans (by simp)
  have free : m'.free = m.free := rfl
  have recs : m'.recs.length = m.recs.length := by simp [m',removeLocked]
  refine ⟨writes,writes.valid valid empty_slot (fun j member => ?_) ?_ (valid.listed.counters m.names.entries _)
    (fun _ j live word => ⟨live,word⟩) (fun filled => absurd rfl filled) ?_ ?_⟩
  · rw [← append_assoc] at member
    rcases mem_append.mp member with old | new
    · exact writes.vacant valid live recs free j old
    · obtain rfl := mem_singleton.mp new
      rw [recs,writes.live,if_pos rfl]
      exact ⟨bound,fun filled => filled rfl⟩
  · rw [free,← append_assoc]
    exact (perm_append_singleton ..).nodup_iff.mpr
      (nodup_cons.mpr ⟨fun unused => (valid.vacant id unused).2 live,valid.distinct⟩)
  · change m.count - 1 = (GoMap.pairs (m.files.erase (m.record id).mapKey)).length
    rw [GoMap.pairs_erase_length _ _ known,valid.total]
  · have before := valid.bounded
    change ((m.count - 1 : Nat) : Int) ≤ _
    omega

/-- What a turn of the sweep did: nothing when it dropped no reference. -/
theorem dropSlot_spec (valid : m.Valid u dead) (gone : MirrorRef → Bool) (id : Nat) :
    let kept := (m.refsOf id).filter (fun r => !gone r)
    let out := dropSlot u gone (m,dead) id
    out.1.Valid u out.2 ∧ out.1.recs.length = m.recs.length ∧
    ((out.1 = m ∧ (m.Live id → kept = m.refsOf id)) ∨
      (m.Live id ∧ ∃ f, Writes m id (m.record id).mapKey f kept out.1 ∧
        (f.hash ≠ [] → f = withCounts kept (m.record id)))) := by
  intro kept out
  by_cases empty : (m.record id).hash = []
  · have same : out = (m,dead) := if_pos empty
    rw [same]
    exact ⟨valid,rfl,.inl ⟨rfl,fun live => absurd empty live⟩⟩
  by_cases whole : kept.length = (m.refsOf id).length
  · have same : out = (m,dead) := (if_neg empty).trans (if_pos whole)
    rw [same]
    exact ⟨valid,rfl,.inl ⟨rfl,fun _ => filter_sublist.eq_of_length whole⟩⟩
  by_cases some_ : kept.length > 0
  · have same : out = (({ m with refs := m.refs.modify id (fun _ => kept) } : Mirror).countLocked id,dead) :=
      (if_neg empty).trans ((if_neg whole).trans (if_pos some_))
    obtain ⟨writes,valid'⟩ := keep_valid valid empty gone (ne_nil_of_length_pos some_)
    rw [same]
    exact ⟨valid',by simp [countLocked],.inr ⟨empty,_,writes,fun _ => rfl⟩⟩
  · have same : out = (({ m with refs := m.refs.modify id (fun _ => kept) } : Mirror).removeLocked u id,dead ++ [id]) :=
      (if_neg empty).trans ((if_neg whole).trans (if_neg some_))
    have none_ : kept = [] := length_eq_zero_iff.mp (Nat.eq_zero_of_not_pos some_)
    obtain ⟨writes,valid'⟩ := remove_valid valid empty kept
    rw [same]
    refine ⟨valid',by simp [removeLocked],.inr ⟨empty,{},?_,fun filled => absurd rfl filled⟩⟩
    rw [none_] at writes ⊢
    exact writes

end

end Mirror

end ENode.Storage
