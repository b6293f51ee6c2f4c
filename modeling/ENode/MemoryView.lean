import ENode.MemoryLookups

/-! The memory engine as its callers see it: the files of each hash, its sources in offer
order, and the sessions with the hashes they list. Record ids, chains and the split of a
source list are not part of it, and the engine's operations refine operations on it. -/
namespace ENode.Storage

open GoText Slab MemoryEngine List

structure Session where
  info : ClientInfo
  peer : MemPeer
  offered : Multiset HashKey

structure View where
  records : HashKey → List File
  sources : HashKey → List MemSource
  sessions : Nat → Option Session
  byHash : Bytes → Option Nat

namespace View

def modifyOffered (v : View) (sid : Nat) (f : Multiset HashKey → Multiset HashKey) : View :=
  { v with sessions := fun y =>
      if y = sid then (v.sessions y).map (fun s => { s with offered := f s.offered }) else v.sessions y }

/-- The session whose source is taken over forgets the hash. -/
def forget (v : View) (key : HashKey) (taker : Nat) : Option MemSource → View
  | some taken => if taken.owner = 0 ∨ taken.owner = taker then v else v.modifyOffered taken.owner (·.erase key)
  | none => v

@[simp] theorem forget_records (v : View) (key : HashKey) (taker : Nat) (taken : Option MemSource) :
    (v.forget key taker taken).records = v.records := by
  unfold forget
  split
  · split <;> rfl
  · rfl

@[simp] theorem forget_byHash (v : View) (key : HashKey) (taker : Nat) (taken : Option MemSource) :
    (v.forget key taker taken).byHash = v.byHash := by
  unfold forget
  split
  · split <;> rfl
  · rfl

def put (v : View) (key : HashKey) (src : MemSource) : View :=
  { v.forget key src.owner ((v.sources key).find? src.same) with
    sources := Function.update v.sources key ((v.sources key).eraseP src.same ++ [src]) }

def store (v : View) (file : File) : View :=
  let key := hashArray file.hash
  { v with records := Function.update v.records key (upsert (kept file) (v.records key)) }

/-- One file offered by the session `storeID`, which is zero for a caller nobody knows. -/
def offer (u : Unicode) (v : View) (storeID : Nat) (info : ClientInfo) (file : File) : View :=
  if (v.sessions storeID).isNone ∧ info.storeID ≠ 0 then v
  else
    let file := normalizeFile u file
    let key := hashArray file.hash
    let src := offeredSource ((v.sessions storeID).map (fun s => ⟨s.info,s.peer,[]⟩)) info storeID file
    let after := (v.store file).put key src
    if (v.sources key).any (MemSource.ofSession src.owner) = false ∧ (v.sessions storeID).isSome
    then after.modifyOffered storeID (key ::ₘ ·) else after

def disconnect (v : View) (storeID : Nat) : View :=
  if storeID = 0 then v
  else match v.sessions storeID with
    | none => v
    | some s =>
      { v with
        sessions := Function.update v.sessions storeID none
        byHash := if s.info.hash.length > 0 ∧ v.byHash s.info.hash = some storeID
          then Function.update v.byHash s.info.hash none else v.byHash
        sources := fun key => if key ∈ s.offered then (v.sources key).filter (fun t => t.owner != storeID)
          else v.sources key }

end View

namespace MemoryEngine

def session (e : MemoryEngine) (c : MemClient) : Session :=
  ⟨c.info,c.peer,(c.offered.map (fun id => (e.record id).hash) : List HashKey)⟩

def view (e : MemoryEngine) : View where
  records := e.recordsOf
  sources := e.sourcesOf
  sessions sid := (e.clients.lookup sid).map e.session
  byHash hash := e.clientsByHash.lookup hash

theorem view_sessions (e : MemoryEngine) (sid : Nat) : e.view.sessions sid = (e.clients.lookup sid).map e.session :=
  rfl

/-- Every entry of a session's list is the first record of its hash. -/
def Headed (e : MemoryEngine) : Prop :=
  ∀ sid c, e.clients.lookup sid = some c → ∀ id ∈ c.offered, e.files.lookup (e.record id).hash = some id

section
variable {u : Unicode} {e e' : MemoryEngine}

variable {head : Nat}

theorem Headed.erase (headed : e.Headed) (known : e.files.lookup key = some head)
    (hashed : (e.record head).hash = key) (connected : e.clients.lookup sid = some c) :
    e.session { c with offered := c.offered.erase head } =
      { e.session c with offered := (e.session c).offered.erase key } := by
  simp only [session,Session.mk.injEq,true_and]
  rw [← Multiset.map_coe,← Multiset.map_coe,← Multiset.coe_erase]
  by_cases listed : head ∈ c.offered
  · rw [Multiset.map_erase_of_mem _ _ (Multiset.mem_coe.mpr listed),hashed]
  · rw [Multiset.erase_of_notMem (by simpa using listed),Multiset.erase_of_notMem]
    simp only [Multiset.mem_map,Multiset.mem_coe,not_exists,not_and]
    rintro id member rfl
    have isHead := headed sid c connected id member
    rw [known] at isHead
    exact listed (Option.some.inj isHead ▸ member)

theorem SameFiles.hash (same : SameFiles e e') (id : Nat) : (e'.record id).hash = (e.record id).hash :=
  (congrArg MemRec.hash (same.bare id) :)

theorem SameFiles.session (same : SameFiles e e') : e'.session = e.session := by
  funext c
  simp only [MemoryEngine.session,same.hash]

theorem StoreEffect.hash {id : Nat} (good : e.Structured)
    (effect : StoreEffect u e e.chain file out id) (live : (e.record j).live = true) :
    (out.1.record j).hash = (e.record j).hash := by
  by_cases here : j = id
  · subst here
    obtain ⟨next,_,written⟩ := effect.written
    rcases effect.slot with ⟨inside,_⟩ | ⟨vacant,_⟩
    · rw [written,good.hash_of_mem inside]
      rfl
    · rw [live] at vacant
      cases vacant
  · obtain ⟨_,link⟩ := effect.links j here
    rw [link]

/-- Storing a file changes the files of its hash and nothing else. -/
theorem store_view (u : Unicode) (sound : e.Sound) (headed : e.Headed) (file : File) :
    (e.storeFileLocked u file).1.Headed ∧ (e.storeFileLocked u file).1.view = e.view.store file := by
  obtain ⟨_,effect⟩ := store_effect u sound.structured file
  have hashes : ∀ sid c, e.clients.lookup sid = some c → ∀ j ∈ c.offered,
      ((e.storeFileLocked u file).1.record j).hash = (e.record j).hash := by
    intro sid c connected j member
    have inChain := sound.structured.head_mem (headed sid c connected j member)
    exact effect.hash sound.structured (sound.structured.live_of_mem inChain)
  refine ⟨fun sid c connected j member => ?_,?_⟩
  · rw [effect.clients] at connected
    rw [hashes sid c connected j member]
    exact effect.keeps _ _ (headed sid c connected j member)
  · simp only [view,View.store,View.mk.injEq]
    refine ⟨effect.records sound.structured,effect.sources sound.structured,?_,by rw [effect.clientsByHash]⟩
    funext sid
    rw [effect.clients]
    refine Option.map_congr (fun c connected => ?_)
    simp only [session,Session.mk.injEq,true_and]
    rw [map_congr_left (hashes sid c connected)]

theorem forget_view (headed : e.Headed) (known : e.files.lookup key = some head)
    (hashed : (e.record head).hash = key) (taker : Nat) (taken : Option MemSource) (sid : Nat) :
    ((e.forgetTaken head taker taken).lookup sid).map e.session = (e.view.forget key taker taken).sessions sid := by
  cases taken with
  | none => rfl
  | some t =>
    by_cases exempt : t.owner = 0 ∨ t.owner = taker
    · have kept : e.forgetTaken head taker (some t) = e.clients := congrArg MemoryEngine.clients (if_pos exempt)
      rw [kept,View.forget,if_pos exempt]
      rfl
    · have forgot : e.forgetTaken head taker (some t) =
          (e.modifyClient t.owner (fun c => { c with offered := c.offered.erase head })).clients :=
        congrArg MemoryEngine.clients (if_neg exempt)
      rw [forgot,View.forget,if_neg exempt,lookup_modifyClient]
      simp only [View.modifyOffered,view]
      split
      · rw [Option.map_map,Option.map_map]
        exact Option.map_congr (fun _ connected => headed.erase known hashed connected)
      · rfl

/-- A source put on the list of a hash whose first record is known. -/
theorem put_view (sound : e.Sound) (headed : e.Headed) (known : e.files.lookup key = some head) (src : MemSource) :
    (e.putSourceLocked head src).1.Sound ∧ (e.putSourceLocked head src).1.Headed ∧
    SameFiles e (e.putSourceLocked head src).1 ∧ (e.putSourceLocked head src).1.view = e.view.put key src ∧
    (e.putSourceLocked head src).2 = (e.sourcesOf key).any (MemSource.ofSession src.owner) := by
  have hashed := sound.structured.hash_of_mem (sound.structured.head_mem known)
  obtain ⟨set,had,clients⟩ := putSource_spec sound.placed (sound.known_bound known) src
  obtain ⟨sound',same,sources⟩ := set.sound sound known
  rw [← sourcesOf_known known] at had clients sources
  refine ⟨sound',fun sid c connected id member => ?_,same,?_,had⟩
  · rw [same.hash,same.files]
    rw [clients,lookup_forgetTaken] at connected
    split at connected
    · obtain ⟨before,found,rfl⟩ := Option.map_eq_some_iff.mp connected
      exact headed sid before found id (mem_of_mem_erase member)
    · exact headed sid c connected id member
  · simp only [view,View.put,View.mk.injEq,View.forget_records,View.forget_byHash]
    refine ⟨same.records,sources,?_,by rw [same.clientsByHash]⟩
    funext sid
    rw [same.session,clients]
    exact forget_view headed known hashed _ _ sid

/-- The first record of a hash put on the list of a session. -/
theorem append_view (sound : e.Sound) (headed : e.Headed) (known : e.files.lookup key = some head) (storeID : Nat) :
    let after := e.modifyClient storeID (fun c => { c with offered := c.offered ++ [head] })
    after.Headed ∧ after.view = e.view.modifyOffered storeID (key ::ₘ ·) := by
  intro after
  have hashed := sound.structured.hash_of_mem (sound.structured.head_mem known)
  have lookups := e.lookup_modifyClient storeID
  obtain ⟨clients,frame⟩ := e.modifyClient_keeps storeID (fun c => { c with offered := c.offered ++ [head] })
  have same : SameFiles e after := by
    rw [show after = _ from frame]
    exact e.sameFiles_clients clients
  refine ⟨fun sid c connected id member => ?_,?_⟩
  · rw [same.hash,same.files]
    rw [lookups] at connected
    split at connected
    · obtain ⟨before,found,rfl⟩ := Option.map_eq_some_iff.mp connected
      rcases mem_append.mp member with earlier | new
      · exact headed sid before found id earlier
      · rw [mem_singleton.mp new,hashed,known]
    · exact headed sid c connected id member
  · have sources : after.sourcesOf = e.sourcesOf := by rw [show after = _ from frame]; rfl
    simp only [view,View.modifyOffered,View.mk.injEq]
    refine ⟨same.records,sources,?_,by rw [same.clientsByHash]⟩
    funext sid
    rw [same.session,lookups]
    split
    · rw [Option.map_map,Option.map_map]
      refine Option.map_congr (fun _ _ => ?_)
      simp only [Function.comp_apply,session,map_append,map_cons,map_nil,hashed,Session.mk.injEq,
        true_and]
      rw [Multiset.cons_coe,Multiset.coe_eq_coe]
      exact perm_append_singleton ..
    · rfl

/-- An offer, whoever makes it, does to the view what it says. -/
theorem addFile_view (sound : e.Sound) (headed : e.Headed) (info : ClientInfo) (file : File) :
    (addFileLocked u info e file).Sound ∧ (addFileLocked u info e file).Headed ∧
    (addFileLocked u info e file).view = e.view.offer u (e.storeIDOf info) info file := by
  have client : (e.view.sessions (e.storeIDOf info)).map (fun s => (⟨s.info,s.peer,[]⟩ : MemClient)) =
      (e.clients.lookup (e.storeIDOf info)).map (fun c => ⟨c.info,c.peer,[]⟩) := by
    simp only [view,Option.map_map]
    rfl
  have source : ∀ file, offeredSource (e.clients.lookup (e.storeIDOf info)) info (e.storeIDOf info) file =
      offeredSource ((e.view.sessions (e.storeIDOf info)).map (fun s => ⟨s.info,s.peer,[]⟩)) info
        (e.storeIDOf info) file := by
    intro file
    rw [client]
    cases e.clients.lookup (e.storeIDOf info) <;> rfl
  have absent : (e.view.sessions (e.storeIDOf info)).isNone = (e.clients.lookup (e.storeIDOf info)).isNone := by
    simp [view]
  have present : (e.view.sessions (e.storeIDOf info)).isSome = (e.clients.lookup (e.storeIDOf info)).isSome := by
    simp [view]
  unfold addFileLocked View.offer
  simp only [absent,present,← source]
  by_cases refused : (e.clients.lookup (e.storeIDOf info)).isNone = true ∧ info.storeID ≠ 0
  · rw [if_pos refused,if_pos refused]
    exact ⟨sound,headed,rfl⟩
  · rw [if_neg refused,if_neg refused]
    obtain ⟨headed₁,view₁⟩ := store_view u sound headed (normalizeFile u file)
    obtain ⟨sound₁,keeps,known⟩ := store_sound u sound (normalizeFile u file)
    obtain ⟨sound₂,headed₂,same,view₂,had⟩ := put_view sound₁ headed₁ known
      (offeredSource (e.clients.lookup (e.storeIDOf info)) info (e.storeIDOf info) (normalizeFile u file))
    have known₂ := known
    rw [← same.files] at known₂
    have sources : e.view.sources = (e.storeFileLocked u (normalizeFile u file)).1.sourcesOf := keeps.sources.symm
    rw [had,← view₁,← view₂,sources]
    split
    next listed =>
      obtain ⟨clients,frame⟩ := modifyClient_keeps _ (e.storeIDOf info) _
      obtain ⟨headed₃,view₃⟩ := append_view sound₂ headed₂ known₂ (e.storeIDOf info)
      refine ⟨?_,headed₃,?_⟩
      · rw [frame]
        exact sound₂.of_clients clients _ _ _
      · rw [view₃,if_pos (by simpa using listed)]
    next unlisted =>
      rw [if_neg (by simpa using unlisted)]
      exact ⟨sound₂,headed₂,rfl⟩

/-- With nothing running in between, the chunks are one pass over the list. -/
theorem finish_fold (fuel : Nat) (p : Pending) (sound : e.Sound) (current : e.layout = p.layout)
    (enough : p.rest.length ≤ fuel) :
    finishDisconnect fuel (e,some p) = p.rest.foldl (removeSourcesOfLocked p.storeID) e := by
  induction fuel generalizing e p with
  | zero =>
    rw [length_eq_zero_iff.mp (Nat.le_zero.mp enough)]
    rfl
  | succ fuel ih =>
    obtain ⟨sound',same,_⟩ := removeSources_fold p.storeID (p.rest.take disconnectChunk) sound
    have split : p.rest.foldl (removeSourcesOfLocked p.storeID) e = (p.rest.drop disconnectChunk).foldl
        (removeSourcesOfLocked p.storeID) ((p.rest.take disconnectChunk).foldl (removeSourcesOfLocked p.storeID) e) := by
      rw [← foldl_append,take_append_drop]
    rw [split,finishDisconnect,resumeDisconnect,if_neg (not_not_intro current),removeChunk]
    by_cases done : p.rest.drop disconnectChunk = []
    · rw [if_pos done,done]
      cases fuel <;> rfl
    · rw [if_neg done]
      refine ih _ sound' (same.layout.trans current) ?_
      have positive : 0 < disconnectChunk := by decide
      simp only [length_drop]
      omega

theorem finish_chunk (p : Pending) (sound : e.Sound) (current : e.layout = p.layout) :
    finishDisconnect ((e.removeChunk p).2.elim 0 (fun q => q.rest.length)) (e.removeChunk p) =
      p.rest.foldl (removeSourcesOfLocked p.storeID) e := by
  have whole := finish_fold (p.rest.length + 1) p sound current (Nat.le_succ _)
  rw [finishDisconnect,resumeDisconnect,if_neg (not_not_intro current)] at whole
  rw [← whole]
  obtain ⟨sound',same,_⟩ := removeSources_fold p.storeID (p.rest.take disconnectChunk) sound
  unfold removeChunk
  by_cases done : p.rest.drop disconnectChunk = []
  · rw [if_pos done]
    cases p.rest.length <;> rfl
  · rw [if_neg done]
    dsimp only [Option.elim_some]
    have rest := fun fuel => finish_fold fuel ⟨p.storeID,p.rest.drop disconnectChunk,p.layout⟩ sound'
      (same.layout.trans current)
    rw [rest _ le_rfl,rest _ (by simp)]

theorem without_byHash (e : MemoryEngine) (sid : Nat) (c : MemClient) (hash : Bytes) :
    (e.without sid c).clientsByHash.lookup hash =
      (if (e.session c).info.hash.length > 0 ∧ e.view.byHash (e.session c).info.hash = some sid
        then Function.update e.view.byHash (e.session c).info.hash none else e.view.byHash) hash := by
  by_cases named : (e.session c).info.hash.length > 0 ∧ e.view.byHash (e.session c).info.hash = some sid
  · have erased : (e.without sid c).clientsByHash = e.clientsByHash.erase c.info.hash := if_pos named
    rw [if_pos named,Function.update_apply,erased]
    exact GoMap.lookup_erase_ite ..
  · have kept : (e.without sid c).clientsByHash = e.clientsByHash := if_neg named
    rw [if_neg named,kept]
    rfl

theorem disconnect_fold (sound : e.Sound) (nonzero : e.storeIDOf info ≠ 0)
    (connected : e.clients.lookup (e.storeIDOf info) = some c) : e.disconnect info =
      c.offered.foldl (removeSourcesOfLocked (e.storeIDOf info)) (e.without (e.storeIDOf info) c) := by
  rw [disconnect,start_connected nonzero connected]
  exact finish_chunk _ (sound.of_clients _ _ _ _) rfl

theorem disconnect_none (info : ClientInfo)
    (gone : e.storeIDOf info = 0 ∨ e.clients.lookup (e.storeIDOf info) = none) : e.disconnect info = e := by
  rw [disconnect,start_none gone]
  rfl

/-- A `Disconnect` run to its end does to the view what it says. -/
theorem disconnect_view (sound : e.Sound) (headed : e.Headed) (info : ClientInfo) :
    (e.disconnect info).Sound ∧ (e.disconnect info).Headed ∧
    (e.disconnect info).view = e.view.disconnect (e.storeIDOf info) := by
  unfold View.disconnect
  by_cases nonzero : e.storeIDOf info = 0
  · rw [e.disconnect_none info (.inl nonzero),if_pos nonzero]
    exact ⟨sound,headed,rfl⟩
  · rw [if_neg nonzero]
    cases connected : e.clients.lookup (e.storeIDOf info) with
    | none =>
      have absent : e.view.sessions (e.storeIDOf info) = none := by rw [view_sessions,connected]; rfl
      rw [e.disconnect_none info (.inr connected),absent]
      exact ⟨sound,headed,rfl⟩
    | some c =>
      have present : e.view.sessions (e.storeIDOf info) = some (e.session c) := by
        rw [view_sessions,connected]
        rfl
      rw [present,disconnect_fold sound nonzero connected]
      generalize e.storeIDOf info = sid at connected
      have left : (e.without sid c).Sound := sound.of_clients _ _ _ _
      obtain ⟨sound',same,clients,sources⟩ := removeSources_fold sid c.offered left
      have lookups : ∀ y, (c.offered.foldl (removeSourcesOfLocked sid) (e.without sid c)).clients.lookup y =
          if y = sid then none else e.clients.lookup y := by
        intro y
        rw [clients]
        exact GoMap.lookup_erase_ite ..
      refine ⟨sound',fun y d found id member => ?_,?_⟩
      · rw [lookups] at found
        split at found
        · cases found
        rw [same.hash,same.files]
        exact headed y d found id member
      · simp only [view,View.mk.injEq]
        refine ⟨same.records,funext fun key => ?_,funext fun _ => ?_,funext fun hash => ?_⟩
        · rw [sources]
          have listed : (∃ id ∈ c.offered, e.files.lookup key = some id) ↔ key ∈ (e.session c).offered := by
            simp only [session,Multiset.mem_coe,mem_map]
            constructor
            · rintro ⟨id,member,known⟩
              exact ⟨id,member,sound.structured.hash_of_mem (sound.structured.head_mem known)⟩
            · rintro ⟨id,member,rfl⟩
              exact ⟨id,member,headed sid c connected id member⟩
          by_cases here : key ∈ (e.session c).offered
          · rw [if_pos here]
            exact if_pos (listed.mpr here)
          · rw [if_neg here]
            exact if_neg (fun h => here (listed.mp h))
        · rw [same.session,lookups,Function.update_apply]
          split <;> rfl
        · rw [same.clientsByHash]
          exact e.without_byHash sid c hash

def holders (e : MemoryEngine) (id : Nat) : List Nat :=
  ((GoMap.pairs e.clients).filter (fun c => c.2.info.id == id)).map Prod.fst

theorem mem_holders (e : MemoryEngine) (id sid : Nat) :
    sid ∈ e.holders id ↔ ∃ s, e.view.sessions sid = some s ∧ s.info.id = id := by
  simp only [holders,mem_map,mem_filter,Prod.exists,GoMap.mem_pairs,beq_iff_eq,view_sessions,
    Option.map_eq_some_iff]
  constructor
  · rintro ⟨_,c,⟨found,holds⟩,rfl⟩
    exact ⟨e.session c,⟨c,found,rfl⟩,holds⟩
  · rintro ⟨_,⟨c,found,rfl⟩,holds⟩
    exact ⟨sid,c,⟨found,holds⟩,rfl⟩

theorem holders_perm (same : e'.view = e.view) (id : Nat) : (e'.holders id).Perm (e.holders id) := by
  have nodup : ∀ a : MemoryEngine, (a.holders id).Nodup := fun a =>
    (GoMap.pairs_keys_nodup a.clients).sublist (filter_sublist.map _)
  refine (perm_ext_iff_of_nodup (nodup e') (nodup e)).mpr (fun _ => ?_)
  rw [mem_holders,mem_holders,same]

theorem storeIDOf_view (same : e'.view = e.view) (info : ClientInfo) : e'.storeIDOf info = e.storeIDOf info := by
  have resolved : ∀ a : MemoryEngine, a.resolveStoreIDLocked info =
      if info.hash.length > 0 then (a.view.byHash info.hash).getD 0
      else if (a.holders info.id).length = 1 then (a.holders info.id).sum else 0 := by
    intro a
    rw [resolveStoreIDLocked,holders]
    split
    · rfl
    generalize (GoMap.pairs a.clients).filter (fun c => c.2.info.id == info.id) = l
    rcases l with _ | ⟨_,_ | ⟨_,_⟩⟩ <;> rfl
  have holders := holders_perm same info.id
  rw [storeIDOf,storeIDOf,resolved,resolved,same,holders.length_eq,holders.sum_eq]

theorem isConnected_view (same : e'.view = e.view) (info : ClientInfo) : e'.isConnected info = e.isConnected info := by
  have reads : ∀ a : MemoryEngine, a.isConnected info =
      if info.hash.length > 0 then (a.view.byHash info.hash).isSome else !(a.holders info.id).isEmpty := by
    intro _
    rw [isConnected,holders]
    split
    · rfl
    rw [isEmpty_map,Bool.eq_iff_iff]
    simp
  rw [reads,reads,same,(holders_perm same info.id).isEmpty_eq]

/-- Everything a caller can ask about sources and sessions. -/
structure SameAnswers (e e' : MemoryEngine) : Prop where
  getSources : ∀ hash size, e'.getSources hash size = e.getSources hash size
  getSourcesByHash : ∀ hash, e'.getSourcesByHash hash = e.getSourcesByHash hash
  hasOffered : ∀ info files, e'.hasOffered info files = e.hasOffered info files
  offeredCount : ∀ info, e'.offeredCount info = e.offeredCount info
  isConnected : ∀ info, e'.isConnected info = e.isConnected info

theorem sameAnswers_of_view (sound : e.Sound) (sound' : e'.Sound) (same : e'.view = e.view) : SameAnswers e e' := by
  have records : e'.recordsOf = e.recordsOf := congrArg View.records same
  have sources : e'.sourcesOf = e.sourcesOf := congrArg View.sources same
  have sessions : ∀ sid, (e'.clients.lookup sid).map e'.session = (e.clients.lookup sid).map e.session :=
    congrFun (congrArg View.sessions same)
  refine ⟨fun hash _ => ?_,fun _ => ?_,fun info _ => ?_,fun info => ?_,isConnected_view same⟩
  · rw [getSources_eq sound',getSources_eq sound,records,sources]
  · rw [getSourcesByHash_eq sound'.placed,getSourcesByHash_eq sound.placed,sources]
  · have connected := congrArg Option.isSome (sessions (e.storeIDOf info))
    rw [Option.isSome_map,Option.isSome_map] at connected
    rw [hasOffered_eq sound'.placed,hasOffered_eq sound.placed,storeIDOf_view same,sources,connected]
  · have counts : ∀ a : MemoryEngine, a.offeredCount info =
        ((a.view.sessions (a.storeIDOf info)).map (fun s => s.offered.card)).getD 0 := by
      intro a
      rw [MemoryEngine.offeredCount,view_sessions]
      cases a.clients.lookup (a.storeIDOf info) <;> simp [session]
    rw [counts,counts,storeIDOf_view same,same]

/-- Two engines a caller cannot tell apart. -/
structure Alike (e e' : MemoryEngine) : Prop where
  sound : e.Sound
  headed : e.Headed
  sound' : e'.Sound
  headed' : e'.Headed
  view : e'.view = e.view

theorem Alike.answers (alike : Alike e e') : SameAnswers e e' :=
  sameAnswers_of_view alike.sound alike.sound' alike.view

end

end MemoryEngine

open MemoryEngine

namespace System

variable {s s' : System}

end System

end ENode.Storage
