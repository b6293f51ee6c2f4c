import ENode.MemorySources

/-! Who a source belongs to. Every source belongs to a connected session that lists its
hash, or to one whose `Disconnect` is still on its way and will get to it; a session has
at most one source in a list, at its own address. -/
namespace ENode.Storage

open GoText Slab

namespace MemSource

def owner (s : MemSource) : Nat := s.peer.storeID
def address (s : MemSource) : Nat × Nat := (s.id,s.port)

end MemSource

def ClientInfo.address (info : ClientInfo) : Nat × Nat := (info.id,info.port)

namespace MemoryEngine

structure Sound (e : MemoryEngine) : Prop where
  structured : e.Structured
  placed : e.Placed

/-- The two engines differ in sources and sessions only. -/
structure SameFiles (e e' : MemoryEngine) : Prop where
  bare : ∀ id, (e'.record id).bare = (e.record id).bare
  chain : e'.chain = e.chain
  files : e'.files = e.files
  clientsByHash : e'.clientsByHash = e.clientsByHash
  nextClientID : e'.nextClientID = e.nextClientID
  layout : e'.layout = e.layout
  names : e'.names = e.names
  length : e'.recs.length = e.recs.length

theorem SameFiles.refl (e : MemoryEngine) : SameFiles e e :=
  ⟨fun _ => rfl,rfl,rfl,rfl,rfl,rfl,rfl,rfl⟩

theorem SameFiles.trans (ab : SameFiles a b) (bc : SameFiles b c) : SameFiles a c :=
  ⟨fun id => (bc.bare id).trans (ab.bare id),bc.chain.trans ab.chain,bc.files.trans ab.files,
    bc.clientsByHash.trans ab.clientsByHash,bc.nextClientID.trans ab.nextClientID,bc.layout.trans ab.layout,
    bc.names.trans ab.names,bc.length.trans ab.length⟩

section
variable {e e' : MemoryEngine} {key : HashKey}

theorem Sound.known_bound (sound : e.Sound) {head : Nat} (known : e.files.lookup key = some head) :
    head < e.recs.length := e.live_bound (sound.structured.live_of_mem (sound.structured.head_mem known))

theorem Sound.of_clients (sound : e.Sound) (clients : GoMap Nat MemClient) (byHash : GoMap Bytes Nat)
    (next layout : Nat) : ({ e with clients := clients, clientsByHash := byHash, nextClientID := next, layout := layout } :
      MemoryEngine).Sound := by
  refine ⟨?_,sound.placed.marked,sound.placed.filled,sound.placed.started,sound.placed.heads⟩
  exact sound.structured.congr rfl rfl rfl rfl (List.Perm.refl _) (fun _ => rfl) (fun _ _ => rfl)

theorem SetSources.sound {head : Nat} (set : SetSources e e' head l)
    (sound : e.Sound) (known : e.files.lookup key = some head) :
    e'.Sound ∧ SameFiles e e' ∧ e'.sourcesOf = Function.update e.sourcesOf key l := by
  have member := sound.structured.head_mem known
  have live := sound.structured.live_of_mem member
  have chained := set.chained sound.structured live
  obtain ⟨files,byHash,next,layout,names⟩ := set.fields
  exact ⟨⟨chained.structured,set.placed sound.placed known live (sound.structured.hash_of_mem member)⟩,
    ⟨set.bare,chained.chain_eq,files,byHash,next,layout,names,set.length⟩,set.sources sound.structured known⟩

/-- Removing a session's sources from one record; a record that heads no hash has none. -/
theorem removeSources_sound (sound : e.Sound) (storeID id : Nat) :
    let e' := removeSourcesOfLocked storeID e id
    e'.Sound ∧ SameFiles e e' ∧ e'.clients = e.clients ∧ ∀ key, e'.sourcesOf key =
      if e.files.lookup key = some id then (e.sourcesOf key).filter (fun s => s.owner != storeID)
      else e.sourcesOf key := by
  intro e'
  cases isFirst : (e.record id).first with
  | none =>
    have same : e' = e := by simp [e',removeSourcesOfLocked,isFirst]
    rw [same]
    refine ⟨sound,SameFiles.refl e,rfl,fun key => ?_⟩
    split
    next known => rw [sourcesOf_known known,(e.eachSource_eq_nil id).mpr isFirst,List.filter_nil]
    · rfl
  | some _ =>
    obtain ⟨live,known⟩ := sound.placed.heads id (by rw [isFirst]; rfl)
    obtain ⟨set,clients⟩ := removeSources_spec sound.placed (e.live_bound live) storeID
    obtain ⟨sound',same,sources⟩ := set.sound sound known
    refine ⟨sound',same,clients,fun key => ?_⟩
    rw [sources]
    by_cases here : key = (e.record id).hash
    · rw [here,Function.update_self,if_pos known,sourcesOf_known known]
      rfl
    · rw [Function.update_of_ne here,if_neg]
      intro other
      exact here (sound.structured.head_injective other known)

/-- A run of removals empties the listed records of that session and leaves the others. -/
theorem removeSources_fold (storeID : Nat) (ids : List Nat) (sound : e.Sound) :
    (ids.foldl (removeSourcesOfLocked storeID) e).Sound ∧
    SameFiles e (ids.foldl (removeSourcesOfLocked storeID) e) ∧
    (ids.foldl (removeSourcesOfLocked storeID) e).clients = e.clients ∧
    ∀ key, (ids.foldl (removeSourcesOfLocked storeID) e).sourcesOf key =
      if ∃ id ∈ ids, e.files.lookup key = some id then (e.sourcesOf key).filter (fun s => s.owner != storeID)
      else e.sourcesOf key := by
  induction ids generalizing e with
  | nil => exact ⟨sound,SameFiles.refl e,rfl,fun key => by simp⟩
  | cons id rest ih =>
    obtain ⟨sound₁,same₁,clients₁,sources₁⟩ := removeSources_sound sound storeID id
    obtain ⟨sound₂,same₂,clients₂,sources₂⟩ := ih sound₁
    refine ⟨sound₂,same₁.trans same₂,clients₂.trans clients₁,fun key => ?_⟩
    rw [List.foldl_cons,sources₂,sources₁,same₁.files]
    by_cases now : e.files.lookup key = some id
    · rw [if_pos now,if_pos (⟨id,by simp,now⟩ : ∃ j ∈ id :: rest, e.files.lookup key = some j)]
      split
      · rw [List.filter_filter]; simp
      · rfl
    · rw [if_neg now]
      have iff_ : (∃ j ∈ rest, e.files.lookup key = some j) ↔ ∃ j ∈ id :: rest, e.files.lookup key = some j := by
        simp [now]
      simp only [iff_]

theorem removeAll_sound (sound : e.Sound) (storeID : Nat) :
    let e' := e.removeAllSourcesOfLocked storeID
    e'.Sound ∧ SameFiles e e' ∧ e'.clients = e.clients ∧
      ∀ key, e'.sourcesOf key = (e.sourcesOf key).filter (fun s => s.owner != storeID) := by
  obtain ⟨sound',same,clients,sources⟩ := removeSources_fold storeID (List.range e.recs.length) sound
  refine ⟨sound',same,clients,fun key => (sources key).trans ?_⟩
  cases known : e.files.lookup key with
  | none => rw [if_neg (by simp),sourcesOf_unknown known,List.filter_nil]
  | some head => rw [if_pos ⟨head,List.mem_range.mpr (sound.known_bound known),rfl⟩]

/-- Source lists and sessions are untouched, and a hash with a source keeps its first record. -/
structure KeepsSources (e e' : MemoryEngine) : Prop where
  sources : e'.sourcesOf = e.sourcesOf
  heads : ∀ key, e.sourcesOf key ≠ [] → e'.files.lookup key = e.files.lookup key
  clients : e'.clients = e.clients
  clientsByHash : e'.clientsByHash = e.clientsByHash
  nextClientID : e'.nextClientID = e.nextClientID
  layout : e'.layout = e.layout

theorem KeepsSources.refl (e : MemoryEngine) : KeepsSources e e := ⟨rfl,fun _ _ => rfl,rfl,rfl,rfl,rfl⟩

theorem KeepsSources.trans (ab : KeepsSources a b) (bc : KeepsSources b c) :
    KeepsSources a c := by
  refine ⟨bc.sources.trans ab.sources,fun key some_ => ?_,bc.clients.trans ab.clients,
    bc.clientsByHash.trans ab.clientsByHash,bc.nextClientID.trans ab.nextClientID,bc.layout.trans ab.layout⟩
  rw [bc.heads key (by rwa [ab.sources]),ab.heads key some_]

theorem known_of_source (some_ : e.sourcesOf key ≠ []) : ∃ head, e.files.lookup key = some head := by
  cases known : e.files.lookup key with
  | none => exact absurd (sourcesOf_unknown known) some_
  | some head => exact ⟨head,rfl⟩

theorem store_sound (u : Unicode) (sound : e.Sound) (file : File) :
    (e.storeFileLocked u file).1.Sound ∧ KeepsSources e (e.storeFileLocked u file).1 ∧
    (e.storeFileLocked u file).1.files.lookup (hashArray file.hash) = some (e.storeFileLocked u file).2 := by
  obtain ⟨_,effect⟩ := store_effect u sound.structured file
  refine ⟨⟨effect.chained.structured,effect.placed sound.structured sound.placed⟩,
    ⟨effect.sources sound.structured,fun key some_ => ?_,effect.clients,effect.clientsByHash,effect.nextClientID,
      effect.layout⟩,effect.head⟩
  obtain ⟨head,known⟩ := known_of_source some_
  rw [effect.keeps key head known,known]

theorem remove_sound (u : Unicode) (sound : e.Sound) (id : Nat) (live : (e.record id).live = true)
    (empty : e.sourcesOf (e.record id).hash = []) :
    (e.removeRecLocked u id).Sound ∧ KeepsSources e (e.removeRecLocked u id) := by
  have effect := remove_effect u sound.structured id live
  obtain ⟨sources,placed⟩ := effect.sources sound.structured sound.placed live empty
  refine ⟨⟨effect.chained.structured,placed⟩,sources,fun key some_ => effect.others key ?_,effect.clients,
    effect.clientsByHash,effect.nextClientID,effect.layout⟩
  rintro rfl
  exact some_ empty

theorem cleanupSlot_sound (u : Unicode) (state : MemoryEngine × Nat) (sound : state.1.Sound) (id : Nat) :
    (cleanupSlot u state id).1.Sound ∧ KeepsSources state.1 (cleanupSlot u state id).1 := by
  unfold cleanupSlot
  dsimp only
  split
  next live =>
    split
    next vacant =>
      apply remove_sound u sound id live
      rw [sourcesOf_known (sound.structured.headLocked_eq live),eachSource_eq_nil]
      simpa using vacant
    · exact ⟨sound,KeepsSources.refl _⟩
  · exact ⟨sound,KeepsSources.refl _⟩

theorem cleanup_fold (u : Unicode) (ids : List Nat) (state : MemoryEngine × Nat) (sound : state.1.Sound) :
    (ids.foldl (cleanupSlot u) state).1.Sound ∧ KeepsSources state.1 (ids.foldl (cleanupSlot u) state).1 := by
  induction ids generalizing state with
  | nil => exact ⟨sound,KeepsSources.refl _⟩
  | cons id _ ih =>
    obtain ⟨sound₁,keeps₁⟩ := cleanupSlot_sound u state sound id
    obtain ⟨sound₂,keeps₂⟩ := ih _ sound₁
    exact ⟨sound₂,keeps₁.trans keeps₂⟩

theorem purge_sound (sound : e.Sound) (names : NameIndex) :
    ({ e with names := names, free := e.free ++ e.dead, dead := [] } : MemoryEngine).Sound ∧
    KeepsSources e { e with names := names, free := e.free ++ e.dead, dead := [] } :=
  ⟨⟨(purged_chained sound.structured names).structured,sound.placed.marked,sound.placed.filled,sound.placed.started,
    sound.placed.heads⟩,rfl,fun _ _ => rfl,rfl,rfl,rfl,rfl⟩

theorem rebuild_sound (u : Unicode) (sound : e.Sound) :
    (e.rebuildIndexLocked u).Sound ∧ (e.rebuildIndexLocked u).sourcesOf = e.sourcesOf := by
  obtain ⟨sources,placed⟩ := rebuild_sources u sound.structured sound.placed
  exact ⟨⟨(rebuild_chained u sound.structured).structured,placed⟩,sources⟩

theorem storeAll_sound (u : Unicode) (files : List File) (e : MemoryEngine) (sound : e.Sound) :
    (files.foldl (fun e file => (e.storeFileLocked u file).1) e).Sound ∧
    KeepsSources e (files.foldl (fun e file => (e.storeFileLocked u file).1) e) := by
  induction files generalizing e with
  | nil => exact ⟨sound,KeepsSources.refl e⟩
  | cons file _ ih =>
    obtain ⟨sound₁,keeps₁,_⟩ := store_sound u sound file
    obtain ⟨sound₂,keeps₂⟩ := ih _ sound₁
    exact ⟨sound₂,keeps₁.trans keeps₂⟩

/-- The engine an installation starts from: no file, no source, and sessions that offer nothing. -/
def emptied (e : MemoryEngine) : MemoryEngine :=
  { e with
    files := ∅, more := ∅, recs := [], names := {}, dead := [], free := [], count := 0
    layout := e.layout + 1
    clients := e.clients.mapVals (fun c => { c with offered := [] }) }

theorem emptied_sound (e : MemoryEngine) : e.emptied.Sound ∧ ∀ key, e.emptied.sourcesOf key = [] :=
  ⟨⟨(empty_chained _ rfl rfl rfl rfl rfl).structured,empty_placed rfl rfl⟩,fun _ => rfl⟩

theorem install_sound (u : Unicode) (e : MemoryEngine) (files : List File) :
    (e.installFilesLocked u files).Sound ∧ KeepsSources e.emptied (e.installFilesLocked u files) :=
  storeAll_sound u files e.emptied e.emptied_sound.1

def without (e : MemoryEngine) (storeID : Nat) (c : MemClient) : MemoryEngine :=
  { e with
    clientsByHash := if c.info.hash.length > 0 ∧ e.clientsByHash.lookup c.info.hash = some storeID
      then e.clientsByHash.erase c.info.hash else e.clientsByHash
    clients := e.clients.erase storeID }

theorem start_connected (nonzero : e.storeIDOf info ≠ 0)
    (connected : e.clients.lookup (e.storeIDOf info) = some c) : e.startDisconnect info =
      (e.without (e.storeIDOf info) c).removeChunk ⟨e.storeIDOf info,c.offered,e.layout⟩ := by
  simp only [startDisconnect,connected,if_neg nonzero]
  rfl

theorem start_none (gone : e.storeIDOf info = 0 ∨ e.clients.lookup (e.storeIDOf info) = none) :
    e.startDisconnect info = (e,none) := by
  rcases gone with zero | unknown
  · simp only [startDisconnect,zero,if_pos]
  · simp only [startDisconnect,unknown]
    split <;> rfl

/-- A `Disconnect` does nothing, or takes its session away and starts on the sources. -/
theorem start_cases (e : MemoryEngine) (info : ClientInfo) :
    (e.storeIDOf info = 0 ∨ e.clients.lookup (e.storeIDOf info) = none) ∧ e.startDisconnect info = (e,none) ∨
    ∃ c, e.storeIDOf info ≠ 0 ∧ e.clients.lookup (e.storeIDOf info) = some c ∧ e.startDisconnect info =
      (e.without (e.storeIDOf info) c).removeChunk ⟨e.storeIDOf info,c.offered,e.layout⟩ := by
  by_cases zero : e.storeIDOf info = 0
  · exact .inl ⟨.inl zero,start_none (.inl zero)⟩
  · cases connected : e.clients.lookup (e.storeIDOf info) with
    | none => exact .inl ⟨.inr rfl,start_none (.inr connected)⟩
    | some c => exact .inr ⟨c,zero,rfl,start_connected zero connected⟩

end

end MemoryEngine

end ENode.Storage
