import ENode.MemoryDeparture
import ENode.MemorySearch

/-! What a handover carries across. An import does to the view of an engine what reading
the stream hash by hash would do, so batches do not matter, and what it ends with is the
view of the engine that wrote the stream. -/
namespace ENode.Storage

open GoText Slab MemoryEngine List

namespace View

/-- A source of a hash that holds no file is skipped. -/
def importSource (v : View) (hs : HandoffSource) : View :=
  if v.records hs.hash = [] then v
  else
    let src := importedSource ((v.sessions hs.storeID).map (fun s => ⟨s.info,s.peer,[]⟩)) hs
    ({ v with sources := Function.update v.sources hs.hash (v.sources hs.hash ++ [src]) } : View).modifyOffered
      hs.storeID (hs.hash ::ₘ ·)

def importBatch (v : View) (batch : HandoffBatch) : View :=
  batch.sources.foldl importSource (batch.files.foldl store v)

section
variable (v : View)

@[simp] theorem importSource_records (hs : HandoffSource) : (v.importSource hs).records = v.records := by
  unfold importSource
  split <;> rfl

@[simp] theorem importSources_records (l : List HandoffSource) : (l.foldl importSource v).records = v.records := by
  induction l generalizing v with
  | nil => rfl
  | cons _ _ ih => rw [foldl_cons,ih,importSource_records]

theorem store_records (file : File) (other : key ≠ hashArray file.hash) :
    (v.store file).records key = v.records key := Function.update_of_ne other _ _

theorem store_importSource (hs : HandoffSource) (file : File) (other : hs.hash ≠ hashArray file.hash) :
    (v.importSource hs).store file = (v.store file).importSource hs := by
  unfold importSource
  rw [v.store_records file other]
  split <;> rfl

theorem store_importSources (l : List HandoffSource) (file : File) (others : ∀ hs ∈ l, hs.hash ≠ hashArray file.hash) :
    (l.foldl importSource v).store file = l.foldl importSource (v.store file) := by
  induction l generalizing v with
  | nil => rfl
  | cons hs _ ih =>
    rw [foldl_cons,foldl_cons,ih _ (fun t member => others t (.tail _ member)),
      v.store_importSource hs file (others hs (.head _))]

theorem stores_importSources {files : List File} {l : List HandoffSource}
    (others : ∀ hs ∈ l, ∀ f ∈ files, hs.hash ≠ hashArray f.hash) :
    files.foldl store (l.foldl importSource v) = l.foldl importSource (files.foldl store v) := by
  induction files generalizing v with
  | nil => rfl
  | cons file _ ih =>
    rw [foldl_cons,foldl_cons,
      v.store_importSources l file (fun hs member => others hs member file (.head _)),
      ih _ (fun hs member f inside => others hs member f (.tail _ inside))]

theorem importBatch_append {a b : HandoffBatch} (apart : ∀ hs ∈ a.sources, ∀ f ∈ b.files, hs.hash ≠ hashArray f.hash) :
    v.importBatch ⟨a.files ++ b.files,a.sources ++ b.sources⟩ = (v.importBatch a).importBatch b := by
  unfold importBatch
  rw [foldl_append,foldl_append,stores_importSources _ apart]

theorem identity_client (sid : Nat) : (v.sessions sid).map (fun s => (⟨s.info,s.peer,[]⟩ : MemClient)) =
    (v.identity sid).map (fun i => ⟨i.1,i.2,[]⟩) := by
  rw [identity,Option.map_map]
  rfl

theorem importSource_known (hs : HandoffSource) (known : v.records hs.hash ≠ []) : v.importSource hs =
    ({ v with sources := Function.update v.sources hs.hash (v.sources hs.hash ++
        [importedSource ((v.identity hs.storeID).map (fun i => ⟨i.1,i.2,[]⟩)) hs]) } : View).modifyOffered
      hs.storeID (hs.hash ::ₘ ·) := by
  rw [importSource,if_neg known,identity_client]

/-- The sources of a hash that holds files, read one after the other. -/
theorem importSources_effect {l : List HandoffSource} (hashed : ∀ hs ∈ l, hs.hash = key)
    (known : v.records key ≠ []) :
    let w := l.foldl importSource v
    w.byHash = v.byHash ∧ w.sources = Function.update v.sources key (v.sources key ++
      l.map (fun hs => importedSource ((v.identity hs.storeID).map (fun i => ⟨i.1,i.2,[]⟩)) hs)) ∧
    ∀ y, w.sessions y = (v.sessions y).map (fun s => { s with
      offered := s.offered + Multiset.replicate (l.countP (fun hs => hs.storeID == y)) key }) := by
  induction l generalizing v with
  | nil =>
    refine ⟨rfl,by simp,fun y => ?_⟩
    simp only [foldl_nil,countP_nil,Multiset.replicate_zero,add_zero]
    exact Option.map_id'.symm
  | cons hs _ ih =>
    obtain rfl := hashed hs (.head _)
    have first := v.importSource_known hs known
    have identity : (v.importSource hs).identity = v.identity := by
      rw [first,modifyOffered_identity]
      rfl
    have sources : (v.importSource hs).sources = Function.update v.sources hs.hash (v.sources hs.hash ++
        [importedSource ((v.identity hs.storeID).map (fun i => ⟨i.1,i.2,[]⟩)) hs]) := by rw [first]; rfl
    obtain ⟨byHash₂,sources₂,sessions₂⟩ := ih (v.importSource hs)
      (fun t member => hashed t (.tail _ member)) (by rwa [importSource_records])
    refine ⟨byHash₂.trans (by rw [first]; rfl),?_,fun y => ?_⟩
    · rw [foldl_cons,sources₂,sources,identity,Function.update_idem,Function.update_self,map_cons,
        append_assoc]
      rfl
    · rw [foldl_cons,sessions₂,first,countP_cons]
      simp only [modifyOffered]
      by_cases mine : y = hs.storeID
      · rw [if_pos mine,Option.map_map]
        refine Option.map_congr (fun _ _ => ?_)
        simp only [Function.comp_apply,mine,beq_self_eq_true,if_true,Multiset.replicate_succ,
          Multiset.cons_add,Multiset.add_cons]
      · have other : (hs.storeID == y) = false := by simpa using fun same => mine same.symm
        rw [if_neg mine,other]
        rfl

theorem stores_effect (key : HashKey) (files : List File) (hashed : ∀ f ∈ files, hashArray f.hash = key) :
    files.foldl store v = { v with
      records := Function.update v.records key ((files.map kept).foldl (fun l f => upsert f l) (v.records key)) } := by
  induction files generalizing v with
  | nil => simp
  | cons file _ ih =>
    obtain rfl := hashed file (.head _)
    rw [foldl_cons,ih _ (fun f member => hashed f (.tail _ member))]
    simp [store]

end

end View

namespace MemoryEngine

section
variable {u : Unicode} {e : MemoryEngine}

theorem known_iff_records (sound : e.Sound) (key : HashKey) : e.files.lookup key = none ↔ e.recordsOf key = [] := by
  rw [sound.structured.unknown_iff,recordsOf,map_eq_nil_iff]

theorem importSource_view (sound : e.Sound) (headed : e.Headed) (hs : HandoffSource) :
    (e.importSource hs).Sound ∧ (e.importSource hs).Headed ∧ (e.importSource hs).view = e.view.importSource hs := by
  unfold importSource View.importSource
  cases known : e.files.lookup hs.hash with
  | none =>
    have none_ : e.view.records hs.hash = [] := (known_iff_records sound hs.hash).mp known
    rw [if_pos none_]
    exact ⟨sound,headed,rfl⟩
  | some head =>
    have some_ : e.view.records hs.hash ≠ [] := fun empty => by
      rw [(known_iff_records sound hs.hash).mpr empty] at known
      cases known
    rw [if_neg some_]
    have client : importedSource (e.clients.lookup hs.storeID) hs =
        importedSource ((e.view.sessions hs.storeID).map (fun s => ⟨s.info,s.peer,[]⟩)) hs := by
      rw [view_sessions]
      cases e.clients.lookup hs.storeID <;> rfl
    rw [← client]
    generalize importedSource (e.clients.lookup hs.storeID) hs = src
    obtain ⟨set,clients⟩ := appendSource_spec sound.placed (sound.known_bound known) src
    obtain ⟨sound₁,same,sources⟩ := set.sound sound known
    rw [← sourcesOf_known known] at sources
    have headed₁ : (e.appendSourceLocked head src).Headed := by
      intro sid c connected id member
      rw [same.hash,same.files]
      rw [clients] at connected
      exact headed sid c connected id member
    have view₁ : (e.appendSourceLocked head src).view =
        { e.view with sources := Function.update e.view.sources hs.hash (e.view.sources hs.hash ++ [src]) } := by
      simp only [view,View.mk.injEq]
      refine ⟨same.records,sources,?_,by rw [same.clientsByHash]⟩
      rw [same.session,clients]
    obtain ⟨headed₂,view₂⟩ := append_view sound₁ headed₁ (by rw [same.files]; exact known) hs.storeID
    obtain ⟨after,frame⟩ := (e.appendSourceLocked head src).modifyClient_keeps hs.storeID
      (fun c => { c with offered := c.offered ++ [head] })
    refine ⟨?_,headed₂,by rw [view₂,view₁]⟩
    dsimp only
    rw [frame]
    exact sound₁.of_clients after _ _ _

theorem importSources_view (l : List HandoffSource) (sound : e.Sound) (headed : e.Headed) :
    (l.foldl importSource e).Sound ∧ (l.foldl importSource e).Headed ∧
    (l.foldl importSource e).view = l.foldl View.importSource e.view := by
  induction l generalizing e with
  | nil => exact ⟨sound,headed,rfl⟩
  | cons hs _ ih =>
    obtain ⟨sound₁,headed₁,view₁⟩ := importSource_view sound headed hs
    rw [foldl_cons,foldl_cons,← view₁]
    exact ih sound₁ headed₁

theorem storeAll_view (files : List File) (sound : e.Sound) (headed : e.Headed) :
    let after := files.foldl (fun e file => (e.storeFileLocked u file).1) e
    after.Sound ∧ after.Headed ∧ after.view = files.foldl View.store e.view := by
  induction files generalizing e with
  | nil => exact ⟨sound,headed,rfl⟩
  | cons file _ ih =>
    obtain ⟨headed₁,view₁⟩ := store_view u sound headed file
    have sound₁ := (store_sound u sound file).1
    rw [foldl_cons,foldl_cons,← view₁]
    exact ih sound₁ headed₁

theorem importBatches_view (batches : List HandoffBatch) (sound : e.Sound) (headed : e.Headed) :
    let after := batches.foldl (importBatch u) e
    after.Sound ∧ after.Headed ∧ after.view = batches.foldl View.importBatch e.view := by
  induction batches generalizing e with
  | nil => exact ⟨sound,headed,rfl⟩
  | cons batch _ ih =>
    obtain ⟨sound₁,headed₁,view₁⟩ := storeAll_view (u := u) batch.files sound headed
    obtain ⟨sound₂,headed₂,view₂⟩ := importSources_view batch.sources sound₁ headed₁
    have first : (e.importBatch u batch).view = e.view.importBatch batch := by
      rw [importBatch,view₂,view₁]
      rfl
    rw [foldl_cons,foldl_cons,← first]
    exact ih sound₂ headed₂

def entryBatch (e : MemoryEngine) (entry : HashKey × Nat) : HandoffBatch := e.exportHash {} entry

theorem exportHash_eq (batch : HandoffBatch) (entry : HashKey × Nat) : e.exportHash batch entry =
    ⟨batch.files ++ (e.entryBatch entry).files,batch.sources ++ (e.entryBatch entry).sources⟩ := by
  simp [entryBatch,exportHash]

theorem flush_view (batch : HandoffBatch) (written : List HandoffBatch) (v : View) :
    (flushBatch batch written).foldl View.importBatch v = (written.foldl View.importBatch v).importBatch batch := by
  unfold flushBatch
  split
  next empty =>
    have files := length_eq_zero_iff.mp empty.1
    have sources := length_eq_zero_iff.mp empty.2
    simp [View.importBatch,files,sources]
  · simp

theorem entryBatch_hash {entry : HashKey × Nat} (sound : e.Sound) (contents : Contents u e)
    (known : e.files.lookup entry.1 = some entry.2) : (∀ f ∈ (e.entryBatch entry).files, hashArray f.hash = entry.1) ∧
    ∀ hs ∈ (e.entryBatch entry).sources, hs.hash = entry.1 := by
  refine ⟨fun _ member => ?_,fun _ member => ?_⟩
  · simp only [entryBatch,exportHash,nil_append,mem_map] at member
    obtain ⟨id,_,rfl⟩ := member
    have inChain : id ∈ e.chain entry.1 := by rwa [chain,known]
    rw [(e.fileLocked_fields id).2.2]
    exact (recordsOf_hash sound.structured contents (mem_map_of_mem inChain)).1
  · simp only [entryBatch,exportHash,nil_append,mem_map] at member
    obtain ⟨_,_,rfl⟩ := member
    rfl

/-- The batches are read like the hashes they carry, one after the other. -/
theorem exported_view (sound : e.Sound) (contents : Contents u e) (files : List (HashKey × Nat))
    (state : HandoffBatch × List HandoffBatch) (v : View) (distinct : (files.map Prod.fst).Nodup)
    (known : ∀ entry ∈ files, e.files.lookup entry.1 = some entry.2)
    (apart : ∀ hs ∈ state.1.sources, hs.hash ∉ files.map Prod.fst) :
    let after := files.foldl e.exportStep state
    (flushBatch after.1 after.2).foldl View.importBatch v =
      files.foldl (fun v entry => v.importBatch (e.entryBatch entry))
        ((state.2.foldl View.importBatch v).importBatch state.1) := by
  induction files generalizing state with
  | nil => exact flush_view state.1 state.2 v
  | cons entry _ ih =>
    obtain ⟨hashes,sourceHashes⟩ := entryBatch_hash sound contents (known entry (.head _))
    have later := fun x member => known x (.tail _ member)
    rw [map_cons,nodup_cons] at distinct
    have separate : ∀ hs ∈ state.1.sources, ∀ f ∈ (e.entryBatch entry).files, hs.hash ≠ hashArray f.hash := by
      intro hs member f inside same
      rw [hashes f inside] at same
      exact apart hs member (by simp [same])
    have read := View.importBatch_append (state.2.foldl View.importBatch v) separate
    rw [foldl_cons,foldl_cons,← read,← exportHash_eq]
    unfold exportStep
    dsimp only
    split
    · refine (ih ({},_) distinct.2 later (by simp)).trans ?_
      rw [flush_view]
      rfl
    · refine ih (_,state.2) distinct.2 later (fun hs member inside => ?_)
      rw [exportHash_eq] at member
      rcases mem_append.mp member with old | new
      · exact apart hs old (.tail _ inside)
      · exact distinct.1 (sourceHashes hs new ▸ inside)

theorem upserts_fresh (l acc : List File) (distinct : ((acc ++ l).map (·.size)).Nodup) :
    l.foldl (fun acc f => upsert f acc) acc = acc ++ l := by
  induction l generalizing acc with
  | nil => simp
  | cons f _ ih =>
    have fresh : upsert f acc = acc ++ [f] := by
      refine if_neg ?_
      rintro ⟨_,member,same⟩
      rw [map_append,nodup_append] at distinct
      exact distinct.2.2 _ (mem_map_of_mem member) _ (mem_map_of_mem (.head _)) same
    rw [foldl_cons,fresh,ih _ (by simpa using distinct)]
    simp

theorem kept_countSource (f : File) (s : MemSource) : kept (countSource f s) = kept f := by
  unfold countSource
  split
  · rfl
  dsimp only
  split <;> rfl

theorem kept_fileLocked (e : MemoryEngine) (id : Nat) : kept (e.fileLocked id) = kept (stored (e.record id)) := by
  have counted : ∀ (l : List MemSource) (f : File), kept (l.foldl countSource f) = kept f := by
    intro l
    induction l with
    | nil => exact fun f => rfl
    | cons _ _ ih =>
      intro _
      rw [foldl_cons,ih,kept_countSource]
  exact counted _ _

/-- A source as the importing engine rebuilds it, given the sessions it was told of. -/
def carried (e : MemoryEngine) (identity : Nat → Option (ClientInfo × MemPeer)) (key : HashKey) (s : MemSource) :
    MemSource := importedSource ((identity s.owner).map (fun i => ⟨i.1,i.2,[]⟩)) (e.exportSource key s)

def sourceCount (e : MemoryEngine) (key : HashKey) (sid : Nat) : Nat := (e.sourcesOf key).countP (fun s => s.owner == sid)

/-- One hash read into a view that does not hold it. -/
theorem entry_effect {entry : HashKey × Nat} (sound : e.Sound) (contents : Contents u e)
    (known : e.files.lookup entry.1 = some entry.2) {v : View} (records : v.records entry.1 = [])
    (sources : v.sources entry.1 = []) :
    let w := v.importBatch (e.entryBatch entry)
    w.records = Function.update v.records entry.1 (e.recordsOf entry.1) ∧
    w.sources = Function.update v.sources entry.1 ((e.sourcesOf entry.1).map (e.carried v.identity entry.1)) ∧
    w.byHash = v.byHash ∧ ∀ y, w.sessions y = (v.sessions y).map (fun s => { s with
      offered := s.offered + Multiset.replicate (e.sourceCount entry.1 y) entry.1 }) := by
  obtain ⟨hashes,sourceHashes⟩ := entryBatch_hash sound contents known
  have files : ((e.entryBatch entry).files.map kept) = e.recordsOf entry.1 := by
    simp only [entryBatch,exportHash,nil_append,map_map,recordsOf,chain,known]
    refine map_congr_left (fun id _ => ?_)
    have inChain : id ∈ e.chain entry.1 := by rwa [chain,known]
    rw [Function.comp_apply,kept_fileLocked]
    exact (recordsOf_hash sound.structured contents (mem_map_of_mem inChain)).2
  have written : (e.entryBatch entry).sources = (e.sourcesOf entry.1).map (e.exportSource entry.1) := by
    rw [sourcesOf_known known]
    simp [entryBatch,exportHash]
  have stores := v.stores_effect entry.1 (e.entryBatch entry).files hashes
  rw [files,records,upserts_fresh _ _ (by simpa using e.recordsOf_sizes sound.structured entry.1),nil_append]
    at stores
  have some_ : (((e.entryBatch entry).files.foldl View.store v).records entry.1) ≠ [] := by
    rw [stores]
    simp only [Function.update_self]
    intro empty
    rw [(known_iff_records sound entry.1).mpr empty] at known
    cases known
  obtain ⟨byHash,sourceLists,sessions⟩ := View.importSources_effect _
    sourceHashes some_
  unfold View.importBatch
  refine ⟨?_,?_,byHash.trans (by rw [stores]),fun _ => ?_⟩
  · rw [View.importSources_records,stores]
  · rw [sourceLists,written,stores]
    simp only [sources,nil_append,map_map]
    rfl
  · rw [sessions,written,stores,countP_map]
    rfl

/-- Every hash read into a view that holds none of them. -/
theorem entries_effect (files : List (HashKey × Nat)) (sound : e.Sound) (contents : Contents u e)
    (known : ∀ entry ∈ files, e.files.lookup entry.1 = some entry.2) (distinct : (files.map Prod.fst).Nodup)
    (v : View) (fresh : ∀ entry ∈ files, v.records entry.1 = [] ∧ v.sources entry.1 = []) :
    let w := files.foldl (fun v entry => v.importBatch (e.entryBatch entry)) v
    (∀ key, w.records key = if key ∈ files.map Prod.fst then e.recordsOf key else v.records key) ∧
    (∀ key, w.sources key = if key ∈ files.map Prod.fst then (e.sourcesOf key).map (e.carried v.identity key)
      else v.sources key) ∧
    w.byHash = v.byHash ∧ ∀ y, w.sessions y = (v.sessions y).map (fun s => { s with
      offered := s.offered + ((files.map Prod.fst).map (fun key => Multiset.replicate (e.sourceCount key y) key)).sum }) := by
  induction files generalizing v with
  | nil =>
    refine ⟨fun key => by simp,fun key => by simp,rfl,fun y => ?_⟩
    simp only [map_nil,sum_nil,add_zero,foldl_nil]
    exact Option.map_id'.symm
  | cons entry rest ih =>
    obtain ⟨empty,none_⟩ := fresh entry (.head _)
    obtain ⟨records₁,sources₁,byHash₁,sessions₁⟩ := entry_effect sound contents (known entry (.head _)) empty none_
    rw [map_cons,nodup_cons] at distinct
    have away : ∀ x ∈ rest, x.1 ≠ entry.1 := fun x member same => distinct.1 (same ▸ mem_map_of_mem member)
    obtain ⟨records₂,sources₂,byHash₂,sessions₂⟩ := ih (fun x member => known x (.tail _ member))
      distinct.2 (v.importBatch (e.entryBatch entry)) (fun x member => by
        rw [records₁,sources₁,Function.update_of_ne (away x member),Function.update_of_ne (away x member)]
        exact fresh x (.tail _ member))
    have identity : (v.importBatch (e.entryBatch entry)).identity = v.identity := by
      funext y
      rw [View.identity,View.identity,sessions₁,Option.map_map]
      rfl
    refine ⟨fun key => ?_,fun key => ?_,byHash₂.trans byHash₁,fun _ => ?_⟩
    · rw [foldl_cons,records₂,records₁,map_cons,Function.update_apply]
      by_cases here : key = entry.1
      · rw [if_pos here,if_neg (here ▸ distinct.1),if_pos (mem_cons.mpr (.inl here)),here]
      · simp only [mem_cons,here,false_or,if_false]
    · rw [foldl_cons,sources₂,sources₁,identity,map_cons,Function.update_apply]
      by_cases here : key = entry.1
      · rw [if_pos here,if_neg (here ▸ distinct.1),if_pos (mem_cons.mpr (.inl here)),here]
      · simp only [mem_cons,here,false_or,if_false]
    · rw [foldl_cons,sessions₂,sessions₁,Option.map_map]
      refine Option.map_congr (fun _ _ => ?_)
      simp only [Function.comp_apply,map_cons,sum_cons,add_assoc]

theorem importClients_lookup (l : List ClientInfo) (e : MemoryEngine) (sid : Nat) :
    (l.foldl importClient e).clients.lookup sid = ((l.reverse.find? (fun info => info.storeID == sid)).map (fun info =>
      ({ info := info, peer := { newMemPeer info with shared := true } } : MemClient))).or (e.clients.lookup sid) := by
  induction l generalizing e with
  | nil => simp
  | cons info rest ih =>
    have first : (e.importClient info).clients.lookup sid = if sid = info.storeID
        then some { info := info, peer := { newMemPeer info with shared := true } } else e.clients.lookup sid :=
      GoMap.lookup_insert_ite ..
    rw [foldl_cons,ih,first,reverse_cons,find?_append]
    cases found : rest.reverse.find? (fun info => info.storeID == sid) with
    | some _ => simp
    | none =>
      by_cases mine : sid = info.storeID
      · simp [mine]
      · have other : (info.storeID == sid) = false := by simpa using fun same => mine same.symm
        simp [mine,other]

variable {pending : List Pending} {clients : List (Nat × MemClient)}

theorem Owned.infos_find (owned : e.Owned pending) (visits : e.clients.Visits clients) (sid : Nat) :
    (clients.map (fun c => c.2.info)).reverse.find? (fun info => info.storeID == sid) =
      (e.clients.lookup sid).map (·.info) := by
  have listed : ∀ info, info ∈ (clients.map (fun c => c.2.info)).reverse → info.storeID = sid →
      (e.clients.lookup sid).map (·.info) = some info := by
    intro info member mine
    obtain ⟨⟨y,c⟩,inside,rfl⟩ := mem_map.mp (mem_reverse.mp member)
    have found := (visits.mem y c).mp inside
    obtain rfl : y = sid := (owned.keyed y c found).2.2.1.symm.trans mine
    rw [found]
    rfl
  cases found : (clients.map (fun c => c.2.info)).reverse.find? (fun info => info.storeID == sid) with
  | some info => exact (listed info (mem_of_find?_eq_some found) (by simpa using find?_some found)).symm
  | none =>
    cases connected : e.clients.lookup sid with
    | none => rfl
    | some c =>
      have inside := mem_map_of_mem (f := fun c => c.2.info) ((visits.mem sid c).mpr connected)
      have absent := find?_eq_none.mp found _ (mem_reverse.mpr inside)
      exact absurd (owned.keyed sid c connected).2.2.1 (by simpa using absent)

/-- The sessions of the stream, none of them with an offer, and no file. -/
theorem importHeader_view (t : MemoryEngine) (owned : e.Owned pending)
    (visits : e.clients.Visits clients) (stream : HandoffStream)
    (carries : stream.clients = clients.map (fun c => c.2.info)) :
    let h := t.importHeader u stream
    h.Headed ∧ (∀ key, h.view.records key = [] ∧ h.view.sources key = []) ∧
    ∀ y, h.view.sessions y = (e.clients.lookup y).map (fun c => ⟨c.info,c.peer,0⟩) := by
  intro h
  obtain ⟨_,_,frame⟩ := importClients_frame stream.clients
    { t.installFilesLocked u [] with clients := ∅, clientsByHash := ∅ }
  have lookups : ∀ y, h.clients.lookup y = (e.clients.lookup y).map (fun c =>
      ({ info := c.info, peer := { newMemPeer c.info with shared := true } } : MemClient)) := by
    intro y
    have read := importClients_lookup stream.clients
      { t.installFilesLocked u [] with clients := ∅, clientsByHash := ∅ } y
    rw [carries,owned.infos_find visits] at read
    have : h.clients = (stream.clients.foldl importClient
        { t.installFilesLocked u [] with clients := ∅, clientsByHash := ∅ }).clients := rfl
    rw [this,carries]
    refine read.trans ?_
    cases e.clients.lookup y <;> rfl
  have files : h.files = ∅ := by
    show (importHeader u t stream).files = ∅
    simp only [importHeader,frame]
    rfl
  have unknown : ∀ key, h.files.lookup key = none := fun key => by rw [files]; rfl
  refine ⟨fun _ c connected _ member => ?_,fun key => ⟨?_,sourcesOf_unknown (unknown key)⟩,fun y => ?_⟩
  · rw [lookups] at connected
    obtain ⟨_,_,rfl⟩ := Option.map_eq_some_iff.mp connected
    cases member
  · have empty : h.chain key = [] := by
      rw [chain,unknown]
      cases h.recs.length <;> rfl
    show (h.chain key).map _ = []
    rw [empty]
    rfl
  · rw [view_sessions,lookups,Option.map_map]
    refine Option.map_congr (fun c connected => ?_)
    rw [(owned.keyed y c connected).2.2.2]
    rfl

theorem count_replicates [DecidableEq α] {keys : List α} (distinct : keys.Nodup) (n : α → Nat) (k : α) :
    ((keys.map (fun key => Multiset.replicate (n key) key)).sum).count k = if k ∈ keys then n k else 0 := by
  induction keys with
  | nil => simp
  | cons key _ ih =>
    rw [nodup_cons] at distinct
    rw [map_cons,sum_cons,Multiset.count_add,ih distinct.2,Multiset.count_replicate]
    by_cases here : k = key
    · subst here
      simp [distinct.1]
    · simp [here,Ne.symm here]

/-- A session's list names a hash as often as the session has a source of it. -/
theorem Owned.offered_count (sound : e.Sound) (owned : e.Owned pending)
    (connected : e.clients.lookup sid = some c) (key : HashKey) :
    (e.session c).offered.count key = e.sourceCount key sid := by
  obtain ⟨distinct,listed⟩ := owned.listed sid c connected
  have headed := owned.headed sound
  have hashes : (c.offered.map (fun id => (e.record id).hash)).Nodup := by
    refine distinct.map_on (fun i hi j hj same => ?_)
    have isHead := headed sid c connected i hi
    rw [same,headed sid c connected j hj] at isHead
    exact (Option.some.inj isHead).symm
  have member : key ∈ c.offered.map (fun id => (e.record id).hash) ↔ ∃ s ∈ e.sourcesOf key, s.owner = sid := by
    rw [mem_map]
    constructor
    · rintro ⟨id,inside,rfl⟩
      obtain ⟨_,known,own⟩ := (listed id).mp inside
      rwa [sound.structured.hash_of_mem (sound.structured.head_mem known)]
    · rintro ⟨s,inside,own⟩
      obtain ⟨head,known⟩ := known_of_source (ne_nil_of_mem inside)
      exact ⟨head,(listed head).mpr ⟨key,known,s,inside,own⟩,
        sound.structured.hash_of_mem (sound.structured.head_mem known)⟩
  have once : e.sourceCount key sid = ((e.sourcesOf key).map MemSource.owner).count sid := by
    rw [List.count,countP_map]
    rfl
  have owners : sid ∈ (e.sourcesOf key).map MemSource.owner ↔ ∃ s ∈ e.sourcesOf key, s.owner = sid := mem_map
  rw [once]
  by_cases own : ∃ s ∈ e.sourcesOf key, s.owner = sid
  · rw [count_eq_one_of_mem (owned.once key) (owners.mpr own)]
    exact Multiset.count_eq_one_of_mem (Multiset.coe_nodup.mpr hashes) (Multiset.mem_coe.mpr (member.mpr own))
  · rw [count_eq_zero_of_not_mem (fun inside => own (owners.mp inside))]
    exact Multiset.count_eq_zero.mpr (fun inside => own (member.mp (Multiset.mem_coe.mp inside)))

/-- Everything a stream carries from one engine to another. -/
theorem transfer_view (t : MemoryEngine) (sound : e.Sound) (contents : Contents u e)
    (owned : e.Owned pending) {files : List (HashKey × Nat)}
    (clientsVisited : e.clients.Visits clients) (filesVisited : e.files.Visits files) :
    let sent := e.exportHandoff clients files
    let e' := t.importStream u sent
    e'.Sound ∧ e'.Headed ∧ e'.view.records = e.view.records ∧
    (∀ key, e'.view.sources key = (e.sourcesOf key).map (e.carried e.view.identity key)) ∧
    (∀ y, e'.view.sessions y = e.view.sessions y) ∧
    e'.view.byHash = (t.importHeader u sent).view.byHash := by
  intro sent _
  obtain ⟨headed,empty,sessions⟩ := importHeader_view (u := u) t owned clientsVisited sent rfl
  obtain ⟨sound',headed',view'⟩ := importBatches_view (u := u) sent.batches (importHeader_sound u t sent).1 headed
  have known : ∀ entry ∈ files, e.files.lookup entry.1 = some entry.2 := fun entry member =>
    (filesVisited.mem entry.1 entry.2).mp member
  have outside : ∀ key, key ∉ files.map Prod.fst → e.files.lookup key = none := by
    intro key absent
    cases found : e.files.lookup key with
    | none => rfl
    | some head => exact (absent (mem_map_of_mem (f := Prod.fst) ((filesVisited.mem key head).mpr found))).elim
  have exported := exported_view sound contents files ({},[]) (t.importHeader u sent).view
    filesVisited.keys_nodup known (by simp)
  have start : (([] : List HandoffBatch).foldl View.importBatch (t.importHeader u sent).view).importBatch {} =
      (t.importHeader u sent).view := rfl
  rw [start] at exported
  obtain ⟨records,sources,byHash,lists⟩ := entries_effect files sound contents known filesVisited.keys_nodup
    (t.importHeader u sent).view (fun entry _ => empty entry.1)
  rw [← exported] at records sources byHash lists
  have identity : (t.importHeader u sent).view.identity = e.view.identity := by
    funext y
    rw [View.identity,View.identity,sessions,view_sessions,Option.map_map,Option.map_map]
    rfl
  refine ⟨sound',headed',funext fun key => ?_,fun key => ?_,fun y => ?_,?_⟩
  · refine (congrFun (congrArg View.records view') key).trans ((records key).trans ?_)
    split
    · rfl
    next absent =>
      rw [(empty key).1]
      exact ((known_iff_records sound key).mp (outside key absent)).symm
  · refine (congrFun (congrArg View.sources view') key).trans ((sources key).trans ?_)
    rw [identity]
    split
    · rfl
    next absent => rw [(empty key).2,sourcesOf_unknown (outside key absent),map_nil]
  · refine (congrFun (congrArg View.sessions view') y).trans ((lists y).trans ?_)
    rw [sessions,view_sessions,Option.map_map]
    refine Option.map_congr (fun c connected => ?_)
    simp only [Function.comp_apply,zero_add]
    have offered : ((files.map Prod.fst).map (fun key => Multiset.replicate (e.sourceCount key y) key)).sum =
        (e.session c).offered := by
      refine Multiset.ext.mpr (fun key => ?_)
      rw [count_replicates filesVisited.keys_nodup (fun key => e.sourceCount key y) key,
        owned.offered_count sound connected key]
      split
      · rfl
      next absent => rw [sourceCount,sourcesOf_unknown (outside key absent),countP_nil]
    rw [offered]
    rfl
  · exact (congrArg View.byHash view').trans byHash

end

end MemoryEngine

end ENode.Storage
