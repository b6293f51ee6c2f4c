import ENode.HandoffTransfer

/-! The snapshot of the memory engine. The keys are captured under one lock and the
records copied batch by batch under others, with any operation in between; a load installs
the files and nothing else. The encoding is taken to be lossless. -/
namespace ENode.Storage

open GoText Slab MemoryEngine List

def snapshotMagic : String := "enode-storage-snapshot"
def snapshotVersion : Nat := 1
def snapshotBatchSize : Nat := 10000
def snapshotHashLen : Nat := hashLen

/-- The counts are those of the engine when the write started. -/
structure SnapshotHeader where
  magic : String := snapshotMagic
  version : Nat := snapshotVersion
  engine : String := "memory"
  files : Nat
  clients : Nat
  sources : Nat
  nextClientID : Nat

structure SnapshotSources where
  fileHash : Bytes
  sources : List Source

structure SnapshotBatch where
  files : List File := []
  sources : List SnapshotSources := []
  clients : List ClientInfo := []

structure SnapshotStats where
  files : Nat := 0
  clients : Nat := 0
  sources : Nat := 0

structure SnapshotStream where
  header : SnapshotHeader
  batches : List SnapshotBatch

inductive SnapshotError where
  | magic (got : String)
  | version (got : Nat)

def SnapshotStats.add (stats : SnapshotStats) (batch : SnapshotBatch) : SnapshotStats where
  files := stats.files + batch.files.length
  clients := stats.clients + batch.clients.length
  sources := stats.sources + (batch.sources.map (·.sources.length)).sum

/-- A `WriteSnapshot` that has released the lock: the keys not yet copied and what is written. -/
structure SnapshotWrite where
  header : SnapshotHeader
  keys : List MapKey
  clients : List ClientInfo
  batches : List SnapshotBatch := []

namespace MemoryEngine

def liveIDs (e : MemoryEngine) : List Nat := (List.range e.recs.length).filter (fun id => (e.record id).live)

/-- The key sweep. The order is that in which the sessions are visited. -/
def startSnapshot (e : MemoryEngine) (clients : List (Nat × MemClient)) : SnapshotWrite where
  header :=
    { files := e.count
      clients := (GoMap.pairs e.clients).length
      sources := ((GoMap.pairs e.more).map (fun m => m.2.length)).sum +
        (GoMap.pairs e.files).countP (fun h => (e.record h.2).first.isSome)
      nextClientID := e.nextClientID }
  keys := e.liveIDs.map (fun id => ((e.record id).hash,(e.record id).size))
  clients := clients.map (fun c => c.2.info)

def fileByKey (e : MemoryEngine) (key : MapKey) : Option File := (e.findLocked key.1 key.2).map e.fileLocked

/-- Adds one key to the batch; the sources of a hash go with the first of its files. -/
def batchKey (e : MemoryEngine) (state : SnapshotBatch × List HashKey) (key : MapKey) : SnapshotBatch × List HashKey :=
  match e.fileByKey key with
  | none => state
  | some file =>
    let batch := { state.1 with files := state.1.files ++ [file] }
    if state.2.contains key.1 then (batch,state.2)
    else
      let cloned := (e.eachSourceLocked ((e.files.lookup key.1).getD 0)).map MemSource.source
      (if cloned.length > 0 then { batch with sources := batch.sources ++ [⟨file.hash,cloned⟩] } else batch,
        key.1 :: state.2)

def batchAt (e : MemoryEngine) (keys : List MapKey) : SnapshotBatch := (keys.foldl e.batchKey ({},[])).1

end MemoryEngine

namespace SnapshotWrite

/-- One batch, under the lock of the engine as it is then. An empty one is not written. -/
def next (w : SnapshotWrite) (e : MemoryEngine) : SnapshotWrite :=
  let batch := e.batchAt (w.keys.take snapshotBatchSize)
  { w with
    keys := w.keys.drop snapshotBatchSize
    batches := if batch.files.length = 0 ∧ batch.sources.length = 0 then w.batches else w.batches ++ [batch] }

def clientBatches : Nat → List ClientInfo → List SnapshotBatch
  | 0, _ => []
  | fuel+1, clients =>
    if clients = [] then []
    else { clients := clients.take snapshotBatchSize } :: clientBatches fuel (clients.drop snapshotBatchSize)

/-- The sessions go last. A stream without a file is never put in the place of an older one. -/
def finish (w : SnapshotWrite) : Option SnapshotStream × SnapshotStats :=
  let batches := w.batches ++ clientBatches w.clients.length w.clients
  let stats := batches.foldl SnapshotStats.add {}
  if stats.files = 0 then (none,{}) else (some ⟨w.header,batches⟩,stats)

end SnapshotWrite

namespace SnapshotStream

def files (stream : SnapshotStream) : List File := stream.batches.flatMap (·.files)

/-- A file whose hash has another length is skipped. -/
def readFile (read : GoMap MapKey File) (file : File) : GoMap MapKey File :=
  if file.hash.length ≠ snapshotHashLen then read else read.insert (fileMapKey file.hash file.size) file

def readFiles (stream : SnapshotStream) : GoMap MapKey File :=
  stream.batches.foldl (fun read batch => batch.files.foldl readFile read) ∅

end SnapshotStream

/-- The order is that in which the files read are visited. -/
def MemoryEngine.loadSnapshot (u : Unicode) (e : MemoryEngine) (stream : SnapshotStream)
    (order : List (MapKey × File)) : Except SnapshotError (MemoryEngine × SnapshotStats) :=
  if stream.header.magic ≠ snapshotMagic then .error (.magic stream.header.magic)
  else if stream.header.version ≠ snapshotVersion then .error (.version stream.header.version)
  else
    let installed := e.installFilesLocked u (order.map Prod.snd)
    let stats := stream.batches.foldl SnapshotStats.add {}
    .ok ({ installed with nextClientID := max e.nextClientID stream.header.nextClientID },
      { stats with files := order.length })

/-- A write from its key sweep on: before each batch the engine serves the operations of one pause. -/
def System.writeSnapshot (u : Unicode) : System → SnapshotWrite → List (List Op) → System × SnapshotWrite
  | s, w, [] => (s,w)
  | s, w, ops :: pauses => writeSnapshot u (s.run u ops) (w.next (s.run u ops).engine) pauses

/-- What holds of the engine at the key sweep and at every batch. -/
def System.Throughout (u : Unicode) (P : MemoryEngine → Prop) : System → List (List Op) → Prop
  | s, [] => P s.engine
  | s, ops :: pauses => P s.engine ∧ Throughout u P (s.run u ops) pauses

namespace SnapshotWrite

/-- The records a write has copied or has still to look for. -/
def covers (w : SnapshotWrite) : List MapKey := (w.batches.flatMap (·.files)).map File.mapKey ++ w.keys

end SnapshotWrite

variable {key : MapKey}

namespace MemoryEngine

section
variable {u : Unicode} {e : MemoryEngine}

theorem startSnapshot_nodup (good : e.Structured) (clients : List (Nat × MemClient)) :
    (e.startSnapshot clients).keys.Nodup := by
  refine List.Nodup.map_on ?_ (nodup_range.filter _)
  intro i first j second same
  have lives := (mem_filter.mp first).2
  have lives' := (mem_filter.mp second).2
  obtain ⟨hash,size⟩ := Prod.mk.inj same
  have inChain := (good.members (e.record j).hash i).mpr ⟨lives,hash⟩
  exact inj_on_of_nodup_map (good.sizes _) inChain ((good.members _ j).mpr ⟨lives',rfl⟩) size

theorem find_live (good : e.Structured) {key : HashKey} {size id : Nat} (found : e.findLocked key size = some id) :
    (e.record id).live = true ∧ (e.record id).hash = key ∧ (e.record id).size = size := by
  obtain ⟨live,hash⟩ := (good.members key id).mp (mem_of_find?_eq_some found)
  exact ⟨live,hash,by simpa using find?_some found⟩

theorem startSnapshot_covers (good : e.Structured) (clients : List (Nat × MemClient))
    (held : (e.findLocked key.1 key.2).isSome = true) : key ∈ (e.startSnapshot clients).keys := by
  obtain ⟨id,found⟩ := Option.isSome_iff_exists.mp held
  obtain ⟨live,hash,size⟩ := find_live good found
  refine mem_map.mpr ⟨id,mem_filter.mpr ⟨mem_range.mpr (e.live_bound live),live⟩,?_⟩
  rw [hash,size]

theorem fileByKey_key (good : e.Structured) (contents : Contents u e) {f : File}
    (found : e.fileByKey key = some f) : f.mapKey = key := by
  obtain ⟨id,at_,rfl⟩ := Option.map_eq_some_iff.mp found
  obtain ⟨live,hash,size⟩ := find_live good at_
  obtain ⟨_,sizes,hashes⟩ := e.fileLocked_fields id
  have member := (mem_recordsOf good key.1 _).mpr ⟨id,live,hash,rfl⟩
  rw [File.mapKey,fileMapKey,sizes,hashes,size,(recordsOf_hash good contents member).1]

theorem batchAt_files (e : MemoryEngine) (keys : List MapKey) : (e.batchAt keys).files = keys.filterMap e.fileByKey := by
  have folded : ∀ (l : List MapKey) (state : SnapshotBatch × List HashKey),
      (l.foldl e.batchKey state).1.files = state.1.files ++ l.filterMap e.fileByKey := by
    intro l
    induction l with
    | nil => simp
    | cons key _ ih =>
      intro state
      have one : (e.batchKey state key).1.files = state.1.files ++ (e.fileByKey key).toList := by
        unfold batchKey
        cases e.fileByKey key with
        | none => simp
        | some _ =>
          dsimp only
          split
          · rfl
          dsimp only
          split <;> rfl
      rw [foldl_cons,ih,one,filterMap_cons,append_assoc]
      cases e.fileByKey key <;> rfl
  exact (folded keys ({},[])).trans (nil_append _)

theorem batchAt_keys (good : e.Structured) (contents : Contents u e) (keys : List MapKey) :
    ((e.batchAt keys).files.map File.mapKey).Sublist keys := by
  rw [batchAt_files]
  induction keys with
  | nil => simp
  | cons key _ ih =>
    cases found : e.fileByKey key with
    | none => rw [filterMap_cons_none found]; exact ih.cons key
    | some _ =>
      rw [filterMap_cons_some found,map_cons,fileByKey_key good contents found]
      exact ih.cons_cons key

theorem batchAt_mem (good : e.Structured) (contents : Contents u e) {keys : List MapKey}
    (member : key ∈ keys) (held : (e.findLocked key.1 key.2).isSome = true) :
    key ∈ (e.batchAt keys).files.map File.mapKey := by
  obtain ⟨id,found⟩ := Option.isSome_iff_exists.mp held
  have copied : e.fileByKey key = some (e.fileLocked id) := by rw [fileByKey,found]; rfl
  rw [batchAt_files]
  exact mem_map.mpr ⟨_,mem_filterMap.mpr ⟨key,member,copied⟩,fileByKey_key good contents copied⟩

end

end MemoryEngine

namespace SnapshotWrite

section
variable {u : Unicode} {e : MemoryEngine} (w : SnapshotWrite)

theorem next_files : (w.next e).batches.flatMap (·.files) =
    w.batches.flatMap (·.files) ++ (e.batchAt (w.keys.take snapshotBatchSize)).files := by
  unfold next
  dsimp only
  split
  next empty => rw [length_eq_zero_iff.mp empty.1,append_nil]
  · simp

theorem next_covers : (w.next e).covers = (w.batches.flatMap (·.files)).map File.mapKey ++
    ((e.batchAt (w.keys.take snapshotBatchSize)).files.map File.mapKey ++ w.keys.drop snapshotBatchSize) := by
  rw [covers,next_files,map_append,append_assoc]
  rfl

theorem next_sublist (good : e.Structured) (contents : Contents u e) : ((w.next e).covers).Sublist w.covers := by
  rw [next_covers,covers]
  refine (List.Sublist.refl _).append ?_
  calc ((e.batchAt (w.keys.take snapshotBatchSize)).files.map File.mapKey ++ w.keys.drop snapshotBatchSize).Sublist
        (w.keys.take snapshotBatchSize ++ w.keys.drop snapshotBatchSize) :=
          (batchAt_keys good contents _).append (List.Sublist.refl _)
    _ = w.keys := take_append_drop ..

theorem next_keeps (good : e.Structured) (contents : Contents u e) (member : key ∈ w.covers)
    (held : (e.findLocked key.1 key.2).isSome = true) : key ∈ (w.next e).covers := by
  rw [next_covers]
  rcases mem_append.mp member with copied | waiting
  · exact mem_append_left _ copied
  · apply mem_append_right
    rw [← take_append_drop snapshotBatchSize w.keys] at waiting
    rcases mem_append.mp waiting with now | later
    · exact mem_append_left _ (batchAt_mem good contents now held)
    · exact mem_append_right _ later

end

end SnapshotWrite

namespace System

variable {u : Unicode}

theorem writeSnapshot_sublist (pauses : List (List Op)) (s : System) (w : SnapshotWrite) (sound : s.engine.Sound)
    (contents : Contents u s.engine) : ((s.writeSnapshot u w pauses).2.covers).Sublist w.covers := by
  induction pauses generalizing s w with
  | nil => exact List.Sublist.refl _
  | cons ops _ ih =>
    obtain ⟨sound₁,contents₁⟩ := run_sound s sound contents ops
    exact (ih _ _ sound₁ contents₁).trans (w.next_sublist sound₁.structured contents₁)

theorem writeSnapshot_keeps (pauses : List (List Op)) (s : System) (w : SnapshotWrite) (sound : s.engine.Sound)
    (contents : Contents u s.engine) (member : key ∈ w.covers)
    (held : s.Throughout u (fun e => (e.findLocked key.1 key.2).isSome = true) pauses) :
    key ∈ (s.writeSnapshot u w pauses).2.covers := by
  induction pauses generalizing s w with
  | nil => exact member
  | cons ops rest ih =>
    obtain ⟨sound₁,contents₁⟩ := run_sound s sound contents ops
    have now : ((s.run u ops).engine.findLocked key.1 key.2).isSome = true := by
      cases rest with
      | nil => exact held.2
      | cons _ _ => exact held.2.1
    exact ih _ _ sound₁ contents₁ (w.next_keeps sound₁.structured contents₁ member now) held.2

theorem writeSnapshot_header (pauses : List (List Op)) (s : System) (w : SnapshotWrite) :
    (s.writeSnapshot u w pauses).2.header = w.header := by
  induction pauses generalizing s w with
  | nil => rfl
  | cons _ _ ih => exact ih _ _

end System

namespace SnapshotWrite

variable (w : SnapshotWrite)

theorem clientBatches_files (fuel : Nat) (clients : List ClientInfo) :
    (clientBatches fuel clients).flatMap (·.files) = [] := by
  induction fuel generalizing clients with
  | zero => rfl
  | succ _ ih =>
    rw [clientBatches]
    split
    · rfl
    rw [flatMap_cons,ih]
    rfl

theorem stats_files (l : List SnapshotBatch) (stats : SnapshotStats) :
    (l.foldl SnapshotStats.add stats).files = stats.files + (l.flatMap (·.files)).length := by
  induction l generalizing stats with
  | nil => rfl
  | cons _ _ ih =>
    rw [foldl_cons,ih,flatMap_cons,length_append,← Nat.add_assoc]
    rfl

theorem finish_eq : w.finish.1 = if w.batches.flatMap (·.files) = [] then none
    else some ⟨w.header,w.batches ++ clientBatches w.clients.length w.clients⟩ := by
  have count : ((w.batches ++ clientBatches w.clients.length w.clients).foldl SnapshotStats.add {}).files = 0 ↔
      w.batches.flatMap (·.files) = [] := by
    rw [stats_files,flatMap_append,clientBatches_files,append_nil,← length_eq_zero_iff]
    exact iff_of_eq (congrArg (· = 0) (Nat.zero_add _))
  unfold finish
  dsimp only
  by_cases none_ : w.batches.flatMap (·.files) = []
  · rw [if_pos (count.mpr none_),if_pos none_]
  · rw [if_neg (mt count.mp none_),if_neg none_]

theorem finish_files (written : w.finish.1 = some stream) :
    stream.files = w.batches.flatMap (·.files) ∧ stream.header = w.header := by
  rw [finish_eq] at written
  split at written
  · cases written
  cases written
  rw [SnapshotStream.files,flatMap_append,clientBatches_files,append_nil]
  exact ⟨rfl,rfl⟩

end SnapshotWrite

namespace SnapshotStream

def loadable (stream : SnapshotStream) : List File := stream.files.filter (fun f => f.hash.length == snapshotHashLen)

theorem readFiles_eq (stream : SnapshotStream) : stream.readFiles = stream.files.foldl readFile ∅ := by
  rw [files,foldl_flatMap]
  rfl

theorem read_pairs (l : List File) (read : GoMap MapKey File)
    (distinct : ((GoMap.pairs read).map Prod.fst ++ l.map File.mapKey).Nodup) :
    (GoMap.pairs (l.foldl readFile read)).Perm
      (GoMap.pairs read ++ (l.filter (fun f => f.hash.length == snapshotHashLen)).map (fun f => (f.mapKey,f))) := by
  induction l generalizing read with
  | nil => simp
  | cons f _ ih =>
    rw [foldl_cons,filter_cons,readFile]
    by_cases long : f.hash.length = snapshotHashLen
    · have fresh : read.lookup f.mapKey = none := by
        rcases Option.eq_none_or_eq_some (read.lookup f.mapKey) with none_ | ⟨g,held⟩
        · exact none_
        · have inside := mem_map_of_mem (f := Prod.fst) ((GoMap.mem_pairs read _ _).mpr held)
          exact absurd rfl ((nodup_append.mp distinct).2.2 _ inside _ (.head _))
      have pairs := GoMap.pairs_insert_fresh read f.mapKey f fresh
      rw [if_neg (not_not.mpr long),if_pos (by simpa using long),map_cons]
      refine (ih _ ?_).trans ?_
      · change ((GoMap.pairs (read.insert f.mapKey f)).map Prod.fst ++ _).Nodup
        rw [pairs]
        exact (perm_middle.nodup_iff).mp distinct
      · change (GoMap.pairs (read.insert f.mapKey f) ++ _).Perm _
        rw [pairs]
        exact perm_middle.symm
    · rw [if_pos long,if_neg (by simpa using long)]
      exact ih read (distinct.sublist ((List.Sublist.refl _).append (sublist_cons_self ..)))

theorem visited_perm (stream : SnapshotStream) (distinct : (stream.files.map File.mapKey).Nodup)
    (visits : stream.readFiles.Visits order) :
    (order.map Prod.snd).Perm stream.loadable := by
  rw [GoMap.Visits,readFiles_eq] at visits
  have read := read_pairs stream.files ∅ (by simpa [GoMap.pairs] using distinct)
  have whole := (visits.trans read).map Prod.snd
  simpa [GoMap.pairs,Function.comp_def,loadable] using whole

end SnapshotStream

namespace MemoryEngine

section
variable {u : Unicode} {e : MemoryEngine}

/-- Files of distinct keys are stored side by side. -/
theorem storeAll_records {files : List File} (sound : e.Sound) {key : HashKey}
    (distinct : (((e.recordsOf key) ++ (files.filter (fun f => hashArray f.hash == key)).map kept).map (·.size)).Nodup) :
    (files.foldl (fun e file => (e.storeFileLocked u file).1) e).recordsOf key =
      e.recordsOf key ++ (files.filter (fun f => hashArray f.hash == key)).map kept := by
  induction files generalizing e with
  | nil => simp
  | cons file _ ih =>
    obtain ⟨_,effect⟩ := store_effect u sound.structured file
    have stored := congrFun (effect.records sound.structured) key
    have sound₁ := (store_sound u sound file).1
    rw [foldl_cons]
    by_cases here : hashArray file.hash = key
    · rw [filter_cons_of_pos (p := fun f : File => hashArray f.hash == key) (beq_iff_eq.mpr here),map_cons] at distinct ⊢
      rw [here,Function.update_self] at stored
      have fresh : upsert (kept file) (e.recordsOf key) = e.recordsOf key ++ [kept file] := by
        refine if_neg ?_
        rintro ⟨_,member,same⟩
        rw [map_append,nodup_append] at distinct
        exact distinct.2.2 _ (mem_map_of_mem member) _ (mem_map_of_mem (.head _)) same
      rw [fresh] at stored
      rw [ih sound₁ (by rw [stored]; simpa using distinct),stored]
      simp
    · rw [filter_cons_of_neg (p := fun f : File => hashArray f.hash == key) (mt beq_iff_eq.mp here)] at distinct ⊢
      rw [Function.update_of_ne (Ne.symm here)] at stored
      rw [ih sound₁ (by rwa [stored]),stored]

theorem install_records {files : List File} (distinct : (files.map File.mapKey).Nodup) (key : HashKey) :
    (e.installFilesLocked u files).recordsOf key = (files.filter (fun f => hashArray f.hash == key)).map kept := by
  refine (storeAll_records e.emptied_sound.1 ?_).trans (nil_append _)
  change (([] ++ _ : List File).map _).Nodup
  rw [nil_append,map_map]
  refine List.Nodup.map_on ?_ (distinct.of_map.filter _)
  intro _ first _ second same
  obtain ⟨inside,hash⟩ := mem_filter.mp first
  obtain ⟨inside',hash'⟩ := mem_filter.mp second
  refine inj_on_of_nodup_map distinct inside inside' (Prod.ext ?_ same)
  exact (beq_iff_eq.mp hash).trans (beq_iff_eq.mp hash').symm

/-- What a load leaves: the files it was given and nothing that belongs to a session. -/
structure Loaded (u : Unicode) (e : MemoryEngine) (files : List File) (counter : Nat) (e' : MemoryEngine) : Prop where
  records : ∀ key, (e'.recordsOf key).Perm ((files.filter (fun f => hashArray f.hash == key)).map kept)
  sources : ∀ key, e'.sourcesOf key = []
  offered : ∀ sid c, e'.clients.lookup sid = some c → c.offered = []
  named : ∀ f ∈ files, ∃ id, (e'.record id).live = true ∧ stored (e'.record id) = kept f ∧
    (e'.names.words.length ≤ 2^32 → ∀ w ∈ nameWords u f.name, e'.names.Lists w id)
  searched : e'.names.words.length ≤ 2^32 → ∀ expr sorter, e'.findBySearch u expr sorter = e'.scanSearch u expr
  counter : e'.nextClientID = max e.nextClientID counter

theorem loadSnapshot_ok (u : Unicode) (e : MemoryEngine) (stream : SnapshotStream) (order : List (MapKey × File))
    (magic : stream.header.magic = snapshotMagic) (version : stream.header.version = snapshotVersion) :
    e.loadSnapshot u stream order =
      .ok ({ e.installFilesLocked u (order.map Prod.snd) with
          nextClientID := max e.nextClientID stream.header.nextClientID },
        { stream.batches.foldl SnapshotStats.add {} with files := order.length }) := by
  unfold loadSnapshot
  rw [if_neg (not_not.mpr magic),if_neg (not_not.mpr version)]

theorem install_loaded (u : Unicode) (e : MemoryEngine) {files given : List File} (same : given.Perm files)
    (distinct : (files.map File.mapKey).Nodup) (counter : Nat) :
    Loaded u e files counter { e.installFilesLocked u given with nextClientID := max e.nextClientID counter } := by
  obtain ⟨sound,keeps⟩ := install_sound u e given
  have contents := install_contents u e given
  have records : ∀ key, ((e.installFilesLocked u given).recordsOf key).Perm
      ((files.filter (fun f => hashArray f.hash == key)).map kept) := by
    intro key
    rw [install_records ((same.map _).nodup_iff.mpr distinct)]
    exact (same.filter _).map _
  refine ⟨records,fun key => ?_,fun sid c held => ?_,fun f member => ?_,fun fits _ sorter => ?_,rfl⟩
  · exact (congrFun keeps.sources key).trans (e.emptied_sound.2 key)
  · have clients : (e.installFilesLocked u given).clients = e.emptied.clients := keeps.clients
    change (e.installFilesLocked u given).clients.lookup sid = some c at held
    rw [clients,emptied,GoMap.lookup_mapVals] at held
    obtain ⟨_,_,rfl⟩ := Option.map_eq_some_iff.mp held
    rfl
  · have inside := (records (hashArray f.hash)).mem_iff.mpr
      (mem_map_of_mem (mem_filter.mpr ⟨member,by simp⟩))
    obtain ⟨id,live,_,read⟩ := (mem_recordsOf sound.structured _ _).mp inside
    refine ⟨id,live,read,fun fits w _ => (contents.named fits).2 w id ⟨live,?_⟩⟩
    rwa [show ((e.installFilesLocked u given).record id).name = f.name from congrArg File.name read]
  · exact findBySearch_eq sorter (sound.of_clients _ _ _ _).structured (contents.of_frame _ _ _) fits

end

end MemoryEngine

/-- Whatever the engine serves between the key sweep and the batches, the stream of a
finished write holds every record live throughout exactly once. A load of it leaves any
engine with exactly the records written under a hash of the fixed length. -/
theorem System.snapshot_complete (u : Unicode) (ops : List Op) (clients : List (Nat × MemClient))
    (pauses : List (List Op)) (t : MemoryEngine) :
    let s := ({} : System).run u ops
    let w := (s.writeSnapshot u (s.engine.startSnapshot clients) pauses).2
    w.keys = [] →
    (∀ key : MapKey, s.Throughout u (fun e => (e.findLocked key.1 key.2).isSome = true) pauses →
      ∃ stream, w.finish.1 = some stream ∧ (stream.files.map File.mapKey).count key = 1) ∧
    ∀ stream, w.finish.1 = some stream → (stream.files.map File.mapKey).Nodup ∧
      ∀ order, stream.readFiles.Visits order → ∃ e' stats, t.loadSnapshot u stream order = .ok (e',stats) ∧
        Loaded u t stream.loadable s.engine.nextClientID e' := by
  intro s w finished
  obtain ⟨sound,contents⟩ := System.reached_sound u ops
  have covered : w.covers = (w.batches.flatMap (·.files)).map File.mapKey := by
    rw [SnapshotWrite.covers,finished,append_nil]
  have distinct : ((w.batches.flatMap (·.files)).map File.mapKey).Nodup := by
    rw [← covered]
    exact (startSnapshot_nodup sound.structured clients).sublist (writeSnapshot_sublist pauses s _ sound contents)
  refine ⟨fun key held => ?_,fun stream written => ?_⟩
  · have start : key ∈ (s.engine.startSnapshot clients).covers := by
      refine startSnapshot_covers sound.structured clients ?_
      cases pauses with
      | nil => exact held
      | cons _ _ => exact held.1
    have inside : key ∈ w.covers := writeSnapshot_keeps pauses s _ sound contents start held
    rw [covered] at inside
    have some_ : w.batches.flatMap (·.files) ≠ [] := fun none_ => by simp [none_] at inside
    have written := w.finish_eq
    rw [if_neg some_] at written
    refine ⟨_,written,?_⟩
    rw [(w.finish_files written).1]
    exact count_eq_one_of_mem distinct inside
  · obtain ⟨files,header⟩ := w.finish_files written
    have header' : stream.header = (s.engine.startSnapshot clients).header :=
      header.trans (writeSnapshot_header pauses s _)
    have apart : (stream.files.map File.mapKey).Nodup := by rwa [files]
    refine ⟨apart,fun order visits => ?_⟩
    have loaded := install_loaded u t (stream.visited_perm apart visits)
      (apart.sublist (filter_sublist.map _)) stream.header.nextClientID
    have accepted := t.loadSnapshot_ok u stream order (by rw [header']; rfl) (by rw [header']; rfl)
    rw [header'] at accepted loaded
    exact ⟨_,_,accepted,loaded⟩

/-- A record whose hash is shorter is written, and not read back. -/
theorem System.snapshot_skips_short_hash :
    let user : ClientInfo := { id := 7, port := 4662 }
    let s := ({} : System).run Unicode.ascii [.connect user,
      .offer [{ hash := [1], name := lit "a", size := 5 }] { user with storeID := 1 }]
    let w := (s.writeSnapshot Unicode.ascii (s.engine.startSnapshot (GoMap.pairs s.engine.clients)) [[]]).2
    w.keys = [] ∧ w.finish.1.map (fun stream => stream.files.length) = some 1 ∧
    w.finish.1.map (fun stream => (({} : MemoryEngine).loadSnapshot Unicode.ascii stream
      (GoMap.pairs stream.readFiles)).toOption.map (fun loaded => loaded.1.count)) = some (some 0) := by
  decide +kernel

/-- A file goes and another is renamed while a snapshot is written; it holds the second. -/
theorem System.snapshot_complete_example :
    let user : ClientInfo := { id := 7, port := 4662 }
    let file : File := { hash := replicate 16 1, name := lit "a", size := 5 }
    let s := ({} : System).run Unicode.ascii [.connect user,.connect user,.offer [{ file with size := 6 }] { user with storeID := 1 },
      .offer [file] { user with id := 8, storeID := 2 }]
    let pauses : List (List Op) := [[.offer [{ file with name := lit "b" }] { user with id := 8, storeID := 2 },
      .disconnect { user with storeID := 1 },.cleanupStale 1 false]]
    let w := (s.writeSnapshot Unicode.ascii (s.engine.startSnapshot []) pauses).2
    ∃ stream, w.finish.1 = some stream ∧ (stream.files.map File.mapKey).count file.mapKey = 1 := by
  intro _ file _ pauses _
  refine (snapshot_complete Unicode.ascii _ [] pauses {} ?_).1 file.mapKey ⟨?_,?_⟩
  · decide +kernel
  all_goals
    show Option.isSome _ = true
    decide +kernel

end ENode.Storage
