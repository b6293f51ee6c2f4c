import ENode.MemoryInvariant
import ENode.MemoryView

/-! What a `Disconnect` leaves behind while it does not hold the lock. A session with more
offers than one chunk takes is gone from the session table and still has sources. -/
namespace ENode.Storage

open GoText Slab MemoryEngine List

namespace View

def identity (v : View) (sid : Nat) : Option (ClientInfo × MemPeer) := (v.sessions sid).map (fun s => (s.info,s.peer))

theorem modifyOffered_identity (v : View) (y : Nat) (f : Multiset HashKey → Multiset HashKey) :
    (v.modifyOffered y f).identity = v.identity := by
  funext sid
  simp only [identity,modifyOffered]
  split
  · rw [Option.map_map]
    rfl
  · rfl

/-- A session offers what nobody offers: one source more, and the session lists it. -/
theorem offer_fresh (u : Unicode) {v : View} (info : ClientInfo) {file : File}
    (found : v.sessions storeID = some s) (fresh : v.sources (hashArray file.hash) = []) :
    ∃ src records, v.offer u storeID info file = { v with
      records := Function.update v.records (hashArray file.hash) records
      sources := Function.update v.sources (hashArray file.hash) [src]
      sessions := Function.update v.sessions storeID (some { s with offered := hashArray file.hash ::ₘ s.offered }) } := by
  have put_ : ∀ src, (v.store (normalizeFile u file)).put (hashArray file.hash) src =
      { v.store (normalizeFile u file) with sources := Function.update v.sources (hashArray file.hash) [src] } := by
    intro _
    rw [put,show (v.store (normalizeFile u file)).sources = v.sources from rfl,fresh]
    rfl
  unfold offer
  rw [if_neg (by simp [found])]
  dsimp only
  rw [show hashArray (normalizeFile u file).hash = hashArray file.hash from rfl,put_,
    if_pos (by simp [fresh,found])]
  refine ⟨_,_,congrArg (fun sessions => ({ v.store (normalizeFile u file) with
    sources := Function.update v.sources (hashArray file.hash) [_], sessions := sessions } : View)) (funext fun _ => ?_)⟩
  rw [Function.update_apply]
  split
  next here => rw [here]; simp [store,found]
  · rfl

end View

namespace MemoryEngine

section
variable {u : Unicode} {e : MemoryEngine}

/-- What a session adds to an engine that has none of it. -/
theorem addFiles_fresh (files : List File) {info : ClientInfo} (sound : e.Sound) (headed : e.Headed)
    (nonzero : info.storeID ≠ 0) (found : e.view.sessions info.storeID = some s)
    (distinct : (files.map (fun f => hashArray f.hash)).Nodup) (fresh : ∀ f ∈ files, e.sourcesOf (hashArray f.hash) = []) :
    let after := (e.addFiles u files info).view
    after.sessions = Function.update e.view.sessions info.storeID
      (some { s with offered := (files.map (fun f => hashArray f.hash) : List HashKey) + s.offered }) ∧
    ∀ key ∉ files.map (fun f => hashArray f.hash), after.sources key = e.sourcesOf key ∧ after.records key = e.recordsOf key := by
  unfold addFiles
  induction files generalizing e s with
  | nil => exact ⟨by simp [found],fun _ _ => ⟨rfl,rfl⟩⟩
  | cons file rest ih =>
    obtain ⟨sound₁,headed₁,view₁⟩ := addFile_view (u := u) sound headed info file
    rw [show e.storeIDOf info = info.storeID from if_neg nonzero] at view₁
    obtain ⟨_,records,offered⟩ := View.offer_fresh u info found (fresh file (.head _))
    rw [offered] at view₁
    obtain ⟨apart,distinct⟩ := nodup_cons.mp distinct
    have others : ∀ key ≠ hashArray file.hash, (addFileLocked u info e file).sourcesOf key = e.sourcesOf key ∧
        (addFileLocked u info e file).recordsOf key = e.recordsOf key := by
      intro key other
      have sources := congrFun (congrArg View.sources view₁) key
      have records := congrFun (congrArg View.records view₁) key
      exact ⟨sources.trans (Function.update_of_ne other ..),records.trans (Function.update_of_ne other ..)⟩
    have keys : ∀ f ∈ rest, hashArray f.hash ≠ hashArray file.hash := fun f member same =>
      apart (mem_map.mpr ⟨f,member,same⟩)
    have found₁ : (addFileLocked u info e file).view.sessions info.storeID =
        some { s with offered := hashArray file.hash ::ₘ s.offered } := by
      rw [view₁]
      exact Function.update_self ..
    obtain ⟨sessions,kept⟩ := ih sound₁ headed₁ found₁ distinct
      (fun f member => (others _ (keys f member)).1.trans (fresh f (.tail _ member)))
    refine ⟨?_,fun key outside => ?_⟩
    · rw [foldl_cons,sessions,view₁,Function.update_idem,Multiset.add_cons,← Multiset.cons_add,Multiset.cons_coe,
        map_cons]
    · obtain ⟨here,later⟩ := not_or.mp (mem_cons.not.mp outside)
      exact ⟨(kept key later).1.trans (others key here).1,(kept key later).2.trans (others key here).2⟩

/-- After its first chunk a `Disconnect` of a long list has a source of the list left to remove. -/
theorem start_leaves (sound : e.Sound) (owned : e.Owned []) (info : ClientInfo)
    (nonzero : e.storeIDOf info ≠ 0) (connected : e.clients.lookup (e.storeIDOf info) = some c)
    (long : disconnectChunk < c.offered.length) : ∃ id ∈ c.offered,
      ∃ s ∈ (e.startDisconnect info).1.sourcesOf (e.record id).hash, s.owner = e.storeIDOf info := by
  obtain ⟨distinct,listed⟩ := owned.listed _ c connected
  obtain ⟨key,known,s,member,own⟩ := (listed _).mp (getElem_mem long)
  obtain ⟨_,_,_,sources⟩ := removeSources_fold (e.storeIDOf info) (c.offered.take disconnectChunk)
    (sound.of_clients (e.clients.erase (e.storeIDOf info)) (e.without (e.storeIDOf info) c).clientsByHash
      e.nextClientID e.layout)
  have untouched : (e.startDisconnect info).1.sourcesOf key = e.sourcesOf key := by
    rw [start_connected nonzero connected]
    refine (sources key).trans (if_neg ?_)
    rintro ⟨_,inside,isHead⟩
    obtain ⟨_,bound,rfl⟩ := mem_iff_getElem.mp inside
    rw [known] at isHead
    rw [getElem_take] at isHead
    have := (List.Nodup.getElem_inj_iff distinct).mp (Option.some.inj isHead)
    simp at bound
    omega
  refine ⟨_,getElem_mem long,s,?_,own⟩
  rw [sound.structured.hash_of_mem (sound.structured.head_mem known),untouched]
  exact member

theorem Owned.headed (sound : e.Sound) (owned : e.Owned pending) : e.Headed := by
  intro sid c connected id member
  obtain ⟨_,known,_⟩ := ((owned.listed sid c connected).2 id).mp member
  rwa [sound.structured.hash_of_mem (sound.structured.head_mem known)]

end

end MemoryEngine

def numbered (i : Nat) : Bytes := UInt8.ofNat (i / 256) :: UInt8.ofNat i :: replicate 14 0

def crowd : List File := (List.range (disconnectChunk + 1)).map (fun i => { hash := numbered i, size := 1 })

/-- One hash more than a chunk takes. -/
def crowdKeys : List HashKey := (List.range (disconnectChunk + 1)).map (fun i => hashArray (numbered i))

theorem crowd_keys : crowd.map (fun f => hashArray f.hash) = crowdKeys := by
  rw [crowd,map_map]
  rfl

def leaver : ClientInfo := { storeID := 1, id := 7, port := 4662 }
def stayer : ClientInfo := { storeID := 2, id := 8, port := 4662 }

def joining : List Op :=
  [.connect leaver,.connect stayer,.offer [{ hash := numbered 2000, size := 1 },{ hash := numbered 2001, size := 1 }] stayer]

/-- One session offers two files, another one a crowd of others, and the `Disconnect` of
the latter has done its first chunk. -/
def leaving (files : List File) : List Op := joining ++ [.offer files leaver,.beginDisconnect leaver]

theorem hashArray_numbered (hi : i < 65536) (hj : j < 65536)
    (same : hashArray (numbered i) = hashArray (numbered j)) : i = j := by
  have bytes := congrArg Subtype.val same
  simp only [hashArray,numbered,hashLen,cons_append,take_succ_cons,cons.injEq] at bytes
  obtain ⟨high,low,_⟩ := bytes
  have high := congrArg UInt8.toNat high
  have low := congrArg UInt8.toNat low
  simp only [UInt8.toNat_ofNat'] at high low
  omega

theorem crowdKeys_nodup : crowdKeys.Nodup := by
  refine nodup_range.map_on (fun _ hi _ hj same => ?_)
  have chunk : disconnectChunk = 1000 := rfl
  rw [mem_range] at hi hj
  exact hashArray_numbered (by omega) (by omega) same

theorem notMem_crowdKeys (above : disconnectChunk < i) (small : i < 65536) :
    hashArray (numbered i) ∉ crowdKeys := by
  intro member
  obtain ⟨_,bound,same⟩ := mem_map.mp member
  have := hashArray_numbered (by have := mem_range.mp bound; omega) small same
  have := mem_range.mp bound
  omega

namespace System

def joined : MemoryEngine := (({} : System).run Unicode.ascii joining).engine

theorem joined_sessions : (∀ sid c, joined.clients.lookup sid = some c → sid = 1 ∨ sid = 2) ∧
    (∃ c, joined.clients.lookup 1 = some c ∧ c.info = leaver ∧ c.offered = []) ∧ ∃ c, joined.clients.lookup 2 = some c := by
  have listed : (GoMap.pairs joined.clients).map Prod.fst = [2,1] := by decide +kernel
  have first : (joined.clients.lookup 1).map (fun c => (c.info,c.offered)) = some (leaver,[]) := by decide +kernel
  refine ⟨fun _ c found => ?_,?_,Option.isSome_iff_exists.mp (by decide +kernel)⟩
  · have member := mem_map_of_mem (f := Prod.fst) ((GoMap.mem_pairs _ _ _).mpr found)
    rw [listed] at member
    simpa [or_comm] using member
  · obtain ⟨c,found,same⟩ := Option.map_eq_some_iff.mp first
    exact ⟨c,found,congrArg Prod.fst same,congrArg Prod.snd same⟩

theorem joined_files : joined.sourcesOf (hashArray (numbered 2000)) ≠ [] ∧
    (∀ s ∈ joined.sourcesOf (hashArray (numbered 2000)), s.owner = 2) ∧
    (∃ s, joined.sourcesOf (hashArray (numbered 2001)) = [s] ∧ s.owner = 2 ∧ s.size = 1) ∧
    ∃ f, joined.recordsOf (hashArray (numbered 2001)) = [f] ∧ f.size = 1 := by
  refine ⟨by decide +kernel,by decide +kernel,?_,?_⟩
  · exact ⟨⟨{ newMemPeer stayer with shared := true },1,8,4662,0,false,false⟩,by decide +kernel⟩
  · exact ⟨(joined.recordsOf (hashArray (numbered 2001))).headI,by decide +kernel⟩

theorem joined_unsourced (crowds : key ∈ crowdKeys) : joined.sourcesOf key = [] := by
  have listed : (GoMap.pairs joined.files).map Prod.fst = [hashArray (numbered 2001),hashArray (numbered 2000)] := by
    decide +kernel
  by_contra some_
  obtain ⟨_,known⟩ := known_of_source some_
  have member := mem_map_of_mem (f := Prod.fst) ((GoMap.mem_pairs _ _ _).mpr known)
  rw [listed,mem_pair] at member
  rcases member with rfl | rfl
  · exact notMem_crowdKeys (by decide) (by decide) crowds
  · exact notMem_crowdKeys (by decide) (by decide) crowds

theorem joining_honest : ({} : System).HonestRun Unicode.ascii joining := by
  refine ⟨trivial,trivial,⟨by decide,?_⟩,trivial⟩
  intro _ found
  cases found
  rfl

theorem leaving_honest (files : List File) : ({} : System).HonestRun Unicode.ascii (leaving files) := by
  refine (honestRun_append _ joining _).mpr ⟨joining_honest,⟨by decide,fun _ found => ?_⟩,trivial,trivial⟩
  obtain ⟨_,found',same,-⟩ := joined_sessions.2.1
  cases found'.symm.trans found
  rw [same]

theorem run_offer (u : Unicode) (ops : List Op) (files : List File) (info : ClientInfo) :
    (({} : System).run u (ops ++ [.offer files info])).engine = (({} : System).run u ops).engine.addFiles u files info ∧
    (({} : System).run u (ops ++ [.offer files info])).pending = (({} : System).run u ops).pending := by
  rw [run_append]
  exact ⟨rfl,rfl⟩

theorem run_start (u : Unicode) (ops : List Op) (info : ClientInfo) :
    (({} : System).run u (ops ++ [.beginDisconnect info])).engine =
      ((({} : System).run u ops).engine.startDisconnect info).1 := by
  rw [run_append]
  rfl

def crowded (files : List File) : MemoryEngine := joined.addFiles Unicode.ascii files leaver

def left (files : List File) : MemoryEngine := ((crowded files).startDisconnect leaver).1

theorem leaving_engine (files : List File) :
    (({} : System).run Unicode.ascii (leaving files)).engine = left files := by
  have split : leaving files = (joining ++ [.offer files leaver]) ++ [.beginDisconnect leaver] := by
    rw [leaving,append_assoc]
    rfl
  rw [split,run_start,(run_offer ..).1,left,crowded,joined]

section
variable {files : List File} (crowds : files.map (fun f => hashArray f.hash) = crowdKeys)
include crowds

theorem crowded_effect : (crowded files).Sound ∧ (crowded files).Owned [] ∧
    (∀ sid c, (crowded files).clients.lookup sid = some c → sid = 1 ∨ sid = 2) ∧
    (∃ c, (crowded files).clients.lookup 1 = some c ∧
      (c.offered.map (fun id => ((crowded files).record id).hash)).Perm crowdKeys) ∧
    (∃ c, (crowded files).clients.lookup 2 = some c) ∧
    ∀ key ∉ crowdKeys, (crowded files).sourcesOf key = joined.sourcesOf key ∧
      (crowded files).recordsOf key = joined.recordsOf key := by
  have sound : joined.Sound := (reached_sound Unicode.ascii joining).1
  have owned : joined.Owned [] := reached_owned Unicode.ascii joining joining_honest
  obtain ⟨only,⟨c₁,found₁,-,empty⟩,_,found₂⟩ := joined_sessions
  have nonzero : leaver.storeID ≠ 0 := by decide
  have known : joined.view.sessions leaver.storeID = some (joined.session c₁) := congrArg (Option.map _) found₁
  obtain ⟨sessions,others⟩ := addFiles_fresh (u := Unicode.ascii) files sound (owned.headed sound) nonzero known
    (crowds ▸ crowdKeys_nodup) (fun _ member => joined_unsourced (crowds ▸ mem_map_of_mem member))
  have honest : ({} : System).HonestRun Unicode.ascii (joining ++ [.offer files leaver]) := by
    obtain ⟨first,offer,_⟩ := (honestRun_append _ joining _).mp (leaving_honest files)
    exact (honestRun_append _ joining _).mpr ⟨first,offer,trivial⟩
  have away : ∀ sid, sid ≠ 1 → ((crowded files).clients.lookup sid).map (crowded files).session =
      (joined.clients.lookup sid).map joined.session := fun sid other =>
    (congrFun sessions sid).trans (Function.update_of_ne other ..)
  rw [crowds] at others
  refine ⟨?_,?_,fun sid c found => ?_,?_,?_,others⟩
  · have reached := (reached_sound Unicode.ascii (joining ++ [.offer files leaver])).1
    rwa [(run_offer ..).1] at reached
  · have reached := reached_owned Unicode.ascii _ honest
    rwa [(run_offer ..).1,(run_offer ..).2] at reached
  · by_cases first : sid = 1
    · exact .inl first
    · have same := away sid first
      rw [found] at same
      obtain ⟨d,there,-⟩ := Option.map_eq_some_iff.mp same.symm
      exact only sid d there
  · obtain ⟨c,found,same⟩ := Option.map_eq_some_iff.mp ((congrFun sessions 1).trans (Function.update_self ..))
    have offered := congrArg Session.offered same
    simp only [session,empty,crowds] at offered
    exact ⟨c,found,Multiset.coe_eq_coe.mp (offered.trans (by simp))⟩
  · have same := away 2 (by decide)
    rw [found₂] at same
    obtain ⟨c,found,-⟩ := Option.map_eq_some_iff.mp same
    exact ⟨c,found⟩

/-- The leaver is gone from the session table and still has a source of the crowd; what the stayer
offers is as it was. -/
theorem left_effect : (∀ sid c, (left files).clients.lookup sid = some c → sid = 2) ∧
    (∃ c, (left files).clients.lookup 2 = some c) ∧
    (∃ key ∈ crowdKeys, ∃ t ∈ (left files).sourcesOf key, t.owner = 1) ∧
    (∀ key, ∀ t ∈ (left files).sourcesOf key, t.owner = 1 ∨ t.owner = 2) ∧
    ∀ key ∉ crowdKeys, (∀ t ∈ joined.sourcesOf key, t.owner = 2) →
      (left files).sourcesOf key = joined.sourcesOf key ∧ (left files).recordsOf key = joined.recordsOf key := by
  obtain ⟨sound,owned,sessions,⟨c,found,offered⟩,⟨d,stays⟩,others⟩ := crowded_effect crowds
  have meant : (crowded files).storeIDOf leaver = 1 := rfl
  have clients := (start_clients sound leaver).2
  have only := start_onlyOwn sound leaver
  have long : disconnectChunk < c.offered.length := by
    have length := offered.length_eq
    rw [length_map,crowdKeys,length_map,length_range] at length
    omega
  rw [meant] at clients only
  refine ⟨fun sid d connected => ?_,⟨d,(only.clients 2 (by decide)).trans stays⟩,?_,fun key t member => ?_,
    fun key away mine => ?_⟩
  · rw [left,clients] at connected
    split at connected
    · cases connected
    next here =>
      rcases sessions sid d connected with rfl | second
      · exact (here ⟨rfl,by decide⟩).elim
      · exact second
  · obtain ⟨_,listed,t,member,own⟩ := start_leaves sound owned leaver (by rw [meant]; decide) found long
    exact ⟨_,offered.subset (mem_map_of_mem listed),t,member,own⟩
  · obtain ⟨c,connected⟩ := owned.connected ((only.sublist key).subset member)
    exact sessions _ c connected
  · obtain ⟨sources,records⟩ := others key away
    have stays : ∀ l : List MemSource, (∀ t ∈ l, t.owner = 2) → l.filter (fun s => s.owner != 1) = l := by
      intro _ all
      refine filter_eq_self.mpr (fun t member => ?_)
      rw [all t member]
      rfl
    have before := only.sources key
    rw [sources,stays _ mine] at before
    refine ⟨?_,(congrFun only.records _).trans records⟩
    rw [← before]
    exact (stays _ (fun t member => mine t (sources ▸ (only.sublist _).subset member))).symm
/-- The leaver has a source left between the chunks; once the records have been renumbered,
one more turn finishes its `Disconnect`. -/
theorem left_finishes : let before := joining ++ [.offer files leaver]
    let after := before ++ .beginDisconnect leaver :: [.rebuild,.resumeDisconnect 0]
    (∃ key, ∃ t ∈ (({} : System).run .ascii (leaving files)).engine.sourcesOf key, t.owner = 1) ∧
    ({} : System).HonestRun .ascii after ∧ (({} : System).run .ascii before).engine.clients.lookup 1 ≠ none ∧
    (({} : System).run .ascii before).engine.storeIDOf leaver = 1 ∧
    ∀ p ∈ (({} : System).run .ascii after).pending, p.storeID ≠ 1 := by
  intro before after
  obtain ⟨sound,owned,-,⟨c,found,-⟩,-⟩ := crowded_effect crowds
  obtain ⟨-,-,⟨key,-,remains⟩,-⟩ := left_effect crowds
  obtain ⟨engine,pending⟩ := run_offer .ascii joining files leaver
  refine ⟨⟨key,leaving_engine files ▸ remains⟩,?_,?_,rfl,?_⟩
  · have split : after = leaving files ++ [.rebuild,.resumeDisconnect 0] := by simp [after,before,leaving]
    rw [split]
    exact (honestRun_append ..).mpr ⟨leaving_honest files,trivial,trivial,trivial⟩
  · rw [engine]
    exact found.trans_ne (Option.some_ne_none c)
  · obtain ⟨-,started⟩ := owned.start sound leaver
    change _ = crowded files at engine
    change _ = [] at pending
    have finished : (({} : System).run .ascii after).pending = [] := by
      rw [run_append]
      generalize ({} : System).run .ascii before = s at engine pending
      simp only [run,foldl_cons,foldl_nil,step,engine,pending]
      cases chunk : ((crowded files).startDisconnect leaver).2 with
      | none => rfl
      | some p =>
        have layout := (started.departing p (by simp [chunk])).2.2.2
        have moved : ((((crowded files).startDisconnect leaver).1.rebuildIndexLocked .ascii).resumeDisconnect p).2 = none :=
          congrArg Prod.snd (if_pos (Nat.ne_of_gt (Nat.lt_succ_of_le layout)))
        simp [moved]
    simp [finished]

end

theorem disconnect_interleaved_crowd : ∃ files : List File, files.map (fun f => hashArray f.hash) = crowdKeys ∧
    (∃ key, ∃ t ∈ (({} : System).run .ascii (leaving files)).engine.sourcesOf key, t.owner = 1) ∧
    ∀ key, ∀ t ∈ (({} : System).run .ascii ((joining ++ [.offer files leaver]) ++ .beginDisconnect leaver ::
      [.rebuild,.resumeDisconnect 0])).engine.sourcesOf key, t.owner ≠ 1 := by
  obtain ⟨files,crowds⟩ : ∃ files : List File, files.map (fun f => hashArray f.hash) = crowdKeys := ⟨crowd,crowd_keys⟩
  obtain ⟨remains,honest,connected,meant,finished⟩ := left_finishes crowds
  exact ⟨files,crowds,remains,(disconnect_interleaved .ascii _ _ leaver 1 honest connected meant).1 finished⟩

end System

end ENode.Storage
