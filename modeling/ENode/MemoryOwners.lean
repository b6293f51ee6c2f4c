import ENode.MemorySessions

/-! The bond between sources and sessions, and what every operation of the engine does to
it. A `Disconnect` that has released the lock is one of the parties: its list still leads
to every source it has to remove unless the records were renumbered since. -/
namespace ENode.Storage

open GoText Slab List

namespace MemoryEngine

structure Owned (e : MemoryEngine) (pending : List Pending) : Prop where
  keyed : ∀ sid c, e.clients.lookup sid = some c → sid ≠ 0 ∧ sid ≤ e.nextClientID ∧ c.info.storeID = sid ∧
    c.peer = { newMemPeer c.info with shared := true }
  once : ∀ key, ((e.sourcesOf key).map MemSource.owner).Nodup
  apart : ∀ key, ((e.sourcesOf key).map MemSource.address).Nodup
  located : ∀ key, ∀ s ∈ e.sourcesOf key, ∀ c, e.clients.lookup s.owner = some c →
    s.address = c.info.address ∧ (s.peer.shared = true → s.peer = c.peer)
  listed : ∀ sid c, e.clients.lookup sid = some c → c.offered.Nodup ∧
    ∀ id, id ∈ c.offered ↔ ∃ key, e.files.lookup key = some id ∧ ∃ s ∈ e.sourcesOf key, s.owner = sid
  departing : ∀ p ∈ pending, e.clients.lookup p.storeID = none ∧ p.storeID ≠ 0 ∧
    p.storeID ≤ e.nextClientID ∧ p.layout ≤ e.layout
  present : ∀ key, ∀ s ∈ e.sourcesOf key, (∃ c, e.clients.lookup s.owner = some c) ∨
    ∃ p ∈ pending, p.storeID = s.owner ∧
      (p.layout = e.layout → ∃ head ∈ p.rest, e.files.lookup key = some head)

theorem empty_owned : ({} : MemoryEngine).Owned [] := by
  refine ⟨?_,?_,?_,?_,?_,?_,?_⟩
  all_goals simp [sourcesOf]

variable {e : MemoryEngine}

theorem Owned.owner_bound (owned : e.Owned pending)
    (member : s ∈ e.sourcesOf key) : s.owner ≠ 0 ∧ s.owner ≤ e.nextClientID := by
  rcases owned.present key s member with ⟨c,connected⟩ | ⟨p,inside,same,_⟩
  · exact ⟨(owned.keyed _ c connected).1,(owned.keyed _ c connected).2.1⟩
  · rw [← same]
    exact ⟨(owned.departing p inside).2.1,(owned.departing p inside).2.2.1⟩

/-- Nothing about ownership depends on records without sources. -/
theorem Owned.congr {e e' : MemoryEngine} (owned : e.Owned pending)
    (keeps : KeepsSources e e') : e'.Owned pending := by
  have known : ∀ key id, (e'.files.lookup key = some id ∧ ∃ s ∈ e'.sourcesOf key, True) ↔
      (e.files.lookup key = some id ∧ ∃ s ∈ e.sourcesOf key, True) := by
    intro key id
    rw [keeps.sources]
    refine and_congr_left (fun ⟨s,member,_⟩ => ?_)
    rw [keeps.heads key (ne_nil_of_mem member)]
  refine ⟨?_,?_,?_,?_,fun sid c connected => ?_,?_,fun key s member => ?_⟩
  · rw [keeps.clients,keeps.nextClientID]
    exact owned.keyed
  · rw [keeps.sources]
    exact owned.once
  · rw [keeps.sources]
    exact owned.apart
  · rw [keeps.sources,keeps.clients]
    exact owned.located
  · rw [keeps.clients] at connected
    obtain ⟨distinct,entries⟩ := owned.listed sid c connected
    refine ⟨distinct,fun id => (entries id).trans ?_⟩
    constructor
    · rintro ⟨key,isHead,s,member,own⟩
      exact ⟨key,((known key id).mpr ⟨isHead,s,member,trivial⟩).1,s,keeps.sources ▸ member,own⟩
    · rintro ⟨key,isHead,s,member,own⟩
      exact ⟨key,((known key id).mp ⟨isHead,s,member,trivial⟩).1,s,keeps.sources ▸ member,own⟩
  · rw [keeps.clients,keeps.nextClientID,keeps.layout]
    exact owned.departing
  · rw [keeps.sources] at member
    rw [keeps.clients,keeps.layout,keeps.heads key (ne_nil_of_mem member)]
    exact owned.present key s member

theorem Owned.connect (owned : e.Owned pending) (info : ClientInfo) : (e.connect info).1.Owned pending := by
  have clients : ∀ sid, (e.connect info).1.clients.lookup sid = if sid = e.nextClientID + 1
      then some { info := { info with storeID := e.nextClientID + 1 }
                  peer := { newMemPeer { info with storeID := e.nextClientID + 1 } with shared := true } }
      else e.clients.lookup sid := fun sid => GoMap.lookup_insert_ite ..
  -- the new store id belongs to nobody yet
  have fresh : ∀ key, ∀ s ∈ e.sourcesOf key, s.owner ≠ e.nextClientID + 1 := by
    intro key s member _
    have := (owned.owner_bound member).2
    omega
  refine ⟨fun sid c connected => ?_,owned.once,owned.apart,fun key s member c connected => ?_,
    fun sid c connected => ?_,fun p member => ?_,fun key s member => ?_⟩
  · rw [clients] at connected
    split at connected
    next new =>
      cases connected
      exact ⟨by omega,by rw [new]; exact le_rfl,new.symm,rfl⟩
    · obtain ⟨nonzero,bound,rest⟩ := owned.keyed sid c connected
      exact ⟨nonzero,Nat.le_succ_of_le bound,rest⟩
  · rw [clients,if_neg (fresh key s member)] at connected
    exact owned.located key s member c connected
  · rw [clients] at connected
    split at connected
    next new =>
      cases connected
      refine ⟨nodup_nil,fun _ => ⟨nofun,?_⟩⟩
      rintro ⟨key,_,s,member,own⟩
      exact absurd (own.trans new) (fresh key s member)
    · exact owned.listed sid c connected
  · obtain ⟨gone,nonzero,bound,layout⟩ := owned.departing p member
    refine ⟨?_,nonzero,Nat.le_succ_of_le bound,layout⟩
    rw [clients,if_neg (by omega)]
    exact gone
  · rw [clients,if_neg (fresh key s member)]
    exact owned.present key s member

theorem Owned.rebuild (u : Unicode) (sound : e.Sound)
    (owned : e.Owned pending) : (e.rebuildIndexLocked u).Owned pending := by
  have sources := (rebuild_sound u sound).2
  have files := rebuild_files u sound.structured
  have clients : ∀ sid, (e.rebuildIndexLocked u).clients.lookup sid =
      (e.clients.lookup sid).map (fun c => { c with offered := c.offered.filterMap e.renumber }) :=
    fun sid => GoMap.lookup_mapVals ..
  have session : ∀ sid c', (e.rebuildIndexLocked u).clients.lookup sid = some c' → ∃ c,
      e.clients.lookup sid = some c ∧ c' = { c with offered := c.offered.filterMap e.renumber } := by
    intro sid c' connected
    rw [clients] at connected
    obtain ⟨c,was,same⟩ := Option.map_eq_some_iff.mp connected
    exact ⟨c,was,same.symm⟩
  have headLive : ∀ key id, e.files.lookup key = some id → (e.record id).live = true :=
    fun key id known => sound.structured.live_of_mem (sound.structured.head_mem known)
  refine ⟨fun sid c' connected => ?_,?_,?_,fun key s member c' connected => ?_,fun sid c' connected => ?_,
    fun p member => ?_,fun key s member => ?_⟩
  · obtain ⟨c,was,rfl⟩ := session sid c' connected
    exact owned.keyed sid c was
  · rw [sources]
    exact owned.once
  · rw [sources]
    exact owned.apart
  · rw [sources] at member
    obtain ⟨c,was,rfl⟩ := session s.owner c' connected
    exact owned.located key s member c was
  · obtain ⟨c,was,rfl⟩ := session sid c' connected
    obtain ⟨distinct,entries⟩ := owned.listed sid c was
    have lives : ∀ id ∈ c.offered, (e.record id).live = true := by
      intro id member
      obtain ⟨key,known,_⟩ := (entries id).mp member
      exact headLive key id known
    have moved : c.offered.filterMap e.renumber = c.offered.map e.position := by
      rw [← filterMap_eq_map,filterMap_congr (fun id member => e.renumber_live (lives id member))]
      rfl
    simp only [moved,sources]
    refine ⟨List.Nodup.map_on (fun i hi j hj => e.position_injective (lives i hi) (lives j hj)) distinct,
      fun _ => ?_⟩
    rw [mem_map]
    constructor
    · rintro ⟨id,member,rfl⟩
      obtain ⟨key,known,own⟩ := (entries id).mp member
      exact ⟨key,by rw [files,known,Option.map_some],own⟩
    · rintro ⟨key,isHead,own⟩
      rw [files] at isHead
      obtain ⟨id,known,same⟩ := Option.map_eq_some_iff.mp isHead
      exact ⟨id,(entries id).mpr ⟨key,known,own⟩,same⟩
  · obtain ⟨gone,nonzero,bound,layout⟩ := owned.departing p member
    exact ⟨by rw [clients,gone]; rfl,nonzero,bound,Nat.le_succ_of_le layout⟩
  · rw [sources] at member
    rw [clients]
    rcases owned.present key s member with ⟨_,connected⟩ | ⟨p,inside,same,_⟩
    · exact .inl ⟨_,by rw [connected]; rfl⟩
    · refine .inr ⟨p,inside,same,fun _ => ?_⟩
      have older := (owned.departing p inside).2.2.2
      have newer : (e.rebuildIndexLocked u).layout = e.layout + 1 := rfl
      omega

theorem Owned.emptied (owned : e.Owned pending) : e.emptied.Owned pending := by
  have none_ := e.emptied_sound.2
  have session : ∀ sid c', e.emptied.clients.lookup sid = some c' → ∃ c,
      e.clients.lookup sid = some c ∧ c' = { c with offered := [] } := by
    intro sid c' connected
    obtain ⟨c,was,same⟩ := Option.map_eq_some_iff.mp ((GoMap.lookup_mapVals ..).symm.trans connected)
    exact ⟨c,was,same.symm⟩
  refine ⟨fun sid c' connected => ?_,fun key => ?_,fun key => ?_,fun key s member => ?_,
    fun sid c' connected => ?_,fun p member => ?_,fun _ _ member => ?_⟩
  · obtain ⟨c,was,rfl⟩ := session sid c' connected
    exact owned.keyed sid c was
  · simp [none_]
  · simp [none_]
  · simp [none_] at member
  · obtain ⟨_,_,rfl⟩ := session sid c' connected
    simp [none_]
  · obtain ⟨gone,nonzero,bound,layout⟩ := owned.departing p member
    refine ⟨(GoMap.lookup_mapVals ..).trans ?_,nonzero,bound,Nat.le_succ_of_le layout⟩
    rw [gone]
    rfl
  · simp [none_] at member

section
variable {e : MemoryEngine}

theorem lookup_modifyClient (e : MemoryEngine) (sid y : Nat) (f : MemClient → MemClient) :
    (e.modifyClient sid f).clients.lookup y =
      if y = sid then (e.clients.lookup y).map f else e.clients.lookup y := by
  unfold modifyClient
  cases connected : e.clients.lookup sid with
  | none =>
    dsimp only
    split
    next same => rw [same,connected]; rfl
    · rfl
  | some _ =>
    refine (GoMap.lookup_insert_ite ..).trans ?_
    split
    next same => rw [same,connected]; rfl
    · rfl

theorem modifyClient_keeps (e : MemoryEngine) (sid : Nat) (f : MemClient → MemClient) :
    ∃ clients, e.modifyClient sid f = { e with clients := clients } := by
  unfold modifyClient
  split
  · exact ⟨e.clients,rfl⟩
  · exact ⟨_,rfl⟩

variable {src : MemSource}

/-- A session that is in the list only at its own address takes over what is there. -/
theorem same_iff_address {l : List MemSource} (own : ∀ s ∈ l, s.owner = src.owner → s.address = src.address)
    (member : s ∈ l) : src.same s = true ↔ s.address = src.address := by
  have mine := own s member
  simp only [MemSource.owner,MemSource.address,Prod.mk.injEq] at mine ⊢
  simp only [MemSource.same,Bool.or_eq_true,Bool.and_eq_true,bne_iff_ne,beq_iff_eq]
  tauto

theorem taken_iff {l : List MemSource} (addresses : (l.map MemSource.address).Nodup)
    (own : ∀ s ∈ l, s.owner = src.owner → s.address = src.address) (t : MemSource) :
    l.find? src.same = some t ↔ t ∈ l ∧ t.address = src.address := by
  constructor
  · intro found
    have member := mem_of_find?_eq_some found
    exact ⟨member,(same_iff_address own member).mp (find?_some found)⟩
  · rintro ⟨member,here⟩
    cases found : l.find? src.same with
    | none => exact absurd ((same_iff_address own member).mpr here) (find?_eq_none.mp found t member)
    | some _ =>
      have inside := mem_of_find?_eq_some found
      have there := (same_iff_address own inside).mp (find?_some found)
      rw [inj_on_of_nodup_map addresses inside member (there.trans here.symm)]

/-- In a list with one source per session and address, a session at its own address takes
over at most the source that is there. -/
theorem replaced_list (l : List MemSource) (src : MemSource)
    (owners : (l.map MemSource.owner).Nodup) (addresses : (l.map MemSource.address).Nodup)
    (own : ∀ s ∈ l, s.owner = src.owner → s.address = src.address) :
    ((l.eraseP src.same ++ [src]).map MemSource.owner).Nodup ∧
    ((l.eraseP src.same ++ [src]).map MemSource.address).Nodup ∧
    ∀ s, s ∈ l.eraseP src.same ++ [src] ↔ s = src ∨ (s ∈ l ∧ s.address ≠ src.address) := by
  have same_iff : ∀ s ∈ l, src.same s = true ↔ s.address = src.address := fun s => same_iff_address own
  have members : ∀ s, s ∈ l.eraseP src.same ↔ s ∈ l ∧ s.address ≠ src.address := by
    intro s
    constructor
    · intro kept
      have member := mem_of_mem_eraseP kept
      refine ⟨member,fun here => ?_⟩
      have takes := (same_iff s member).mpr here
      obtain ⟨t,_,_,apart,taken,whole,left⟩ := exists_of_eraseP member takes
      rw [left] at kept
      rcases mem_append.mp kept with early | late
      · exact apart s early takes
      · have there := (same_iff t (by rw [whole]; simp)).mp taken
        rw [whole,map_append,nodup_append,map_cons,nodup_cons,there,← here] at addresses
        exact addresses.2.1.1 (mem_map_of_mem late)
    · rintro ⟨member,other⟩
      exact (mem_eraseP_of_neg (fun takes => other ((same_iff s member).mp takes))).mpr member
  have sublist := eraseP_sublist (p := src.same) (l := l)
  refine ⟨?_,?_,fun s => ?_⟩
  · rw [map_append,map_singleton,← concat_eq_append,nodup_concat]
    refine ⟨fun there => ?_,owners.sublist (sublist.map _)⟩
    obtain ⟨s,inside,equal⟩ := mem_map.mp there
    obtain ⟨member,other⟩ := (members s).mp inside
    exact other (own s member equal)
  · rw [map_append,map_singleton,← concat_eq_append,nodup_concat]
    refine ⟨fun there => ?_,addresses.sublist (sublist.map _)⟩
    obtain ⟨s,inside,equal⟩ := mem_map.mp there
    exact ((members s).mp inside).2 equal
  · rw [mem_append,members,mem_singleton]
    exact or_comm

/-- The sessions after an offer: the one whose source was taken over forgets the hash. -/
theorem lookup_forgetTaken (e : MemoryEngine) (head own : Nat) (taken : Option MemSource) (y : Nat) :
    (e.forgetTaken head own taken).lookup y =
      if (∃ t, taken = some t ∧ t.owner = y) ∧ y ≠ 0 ∧ y ≠ own
      then (e.clients.lookup y).map (fun c => { c with offered := c.offered.erase head })
      else e.clients.lookup y := by
  cases taken with
  | none => simp [forgetTaken]
  | some t =>
    simp only [forgetTaken,forgetOfferLocked,MemSource.owner,Option.some.injEq,exists_eq_left']
    split
    next exempt =>
      rw [if_neg]
      rintro ⟨rfl,nonzero,other⟩
      exact exempt.elim nonzero other
    next subject =>
      rw [lookup_modifyClient]
      by_cases here : t.peer.storeID = y
      · subst here
        rw [if_pos rfl,if_pos ⟨rfl,fun zero => subject (.inl zero),fun same => subject (.inr same)⟩]
      · rw [if_neg (Ne.symm here),if_neg (fun h => here h.1)]

/-- The state after a source of a connected session has been put on a hash and, unless the
session was there already, the hash on the session's list. -/
def offered (e : MemoryEngine) (head : Nat) (src : MemSource) : MemoryEngine :=
  if (e.putSourceLocked head src).2 then (e.putSourceLocked head src).1
  else (e.putSourceLocked head src).1.modifyClient src.owner (fun c => { c with offered := c.offered ++ [head] })

variable {head : Nat}

theorem offered_spec (sound : e.Sound) (known : e.files.lookup key = some head) (src : MemSource) :
    (e.offered head src).Sound ∧ SameFiles e (e.offered head src) ∧ (e.offered head src).sourcesOf =
      Function.update e.sourcesOf key ((e.sourcesOf key).eraseP src.same ++ [src]) ∧
    ∀ y, (e.offered head src).clients.lookup y =
      let forgot := (e.forgetTaken head src.owner ((e.sourcesOf key).find? src.same)).lookup y
      if (e.sourcesOf key).any (MemSource.ofSession src.owner) = false ∧ y = src.owner
      then forgot.map (fun c => { c with offered := c.offered ++ [head] }) else forgot := by
  obtain ⟨set,had,clients⟩ := putSource_spec sound.placed (sound.known_bound known) src
  obtain ⟨sound',same,sources⟩ := set.sound sound known
  rw [← sourcesOf_known known] at had clients sources
  unfold offered
  rw [had]
  cases here : (e.sourcesOf key).any (MemSource.ofSession src.peer.storeID) with
  | true =>
    refine ⟨sound',same,sources,fun y => ?_⟩
    rw [if_pos rfl,clients]
    simp [MemSource.owner,here]
  | false =>
    rw [if_neg (by simp)]
    have lookups := lookup_modifyClient (e.putSourceLocked head src).1 src.owner
    obtain ⟨after,frame⟩ := (e.putSourceLocked head src).1.modifyClient_keeps src.owner
      (fun c => { c with offered := c.offered ++ [head] })
    refine ⟨?_,?_,?_,fun y => ?_⟩
    · rw [frame]
      exact sound'.of_clients after _ _ _
    · rw [frame]
      exact ⟨same.bare,same.chain,same.files,same.clientsByHash,same.nextClientID,same.layout,same.names,same.length⟩
    · rw [frame]
      exact sources
    · rw [lookups,clients]
      by_cases mine : y = src.owner
      · rw [if_pos mine,if_pos ⟨here,mine⟩]
        rfl
      · rw [if_neg mine,if_neg (fun h => mine h.2)]
        rfl

variable {c : MemClient}

/-- A session differs in its list only: it gains the hash, or loses it to the taker. -/
theorem offered_session (sound : e.Sound) (owned : e.Owned pending)
    (known : e.files.lookup key = some head) (connected : e.clients.lookup src.owner = some c)
    (own : ∀ s ∈ e.sourcesOf key, s.owner = src.owner → s.address = src.address) (y : Nat) :
    (e.offered head src).clients.lookup y = (e.clients.lookup y).map (fun old => { old with
      offered := if y = src.owner then
          (if ∃ s ∈ e.sourcesOf key, s.owner = src.owner then old.offered else old.offered ++ [head])
        else if ∃ t ∈ e.sourcesOf key, t.owner = y ∧ t.address = src.address then old.offered.erase head
        else old.offered }) := by
  obtain ⟨_,_,_,clients⟩ := offered_spec sound known src
  have nonzero := (owned.keyed _ c connected).1
  have had : (e.sourcesOf key).any (MemSource.ofSession src.owner) = true ↔
      ∃ s ∈ e.sourcesOf key, s.owner = src.owner := by
    simp only [any_eq_true,MemSource.ofSession,Bool.and_eq_true,bne_iff_ne,beq_iff_eq]
    exact exists_congr fun s => and_congr_right fun _ => ⟨fun h => h.2,fun h => ⟨nonzero,h⟩⟩
  have lost : (∃ t, (e.sourcesOf key).find? src.same = some t ∧ t.owner = y) ↔
      ∃ t ∈ e.sourcesOf key, t.owner = y ∧ t.address = src.address := by
    simp only [taken_iff (owned.apart key) own]
    exact exists_congr fun t => by tauto
  have forgot := e.lookup_forgetTaken head src.owner ((e.sourcesOf key).find? src.same) y
  rw [clients]
  by_cases mine : y = src.owner
  · rw [if_neg (fun h => h.2.2 mine)] at forgot
    rw [forgot,mine,connected]
    by_cases already : ∃ s ∈ e.sourcesOf key, s.owner = src.owner
    · rw [if_neg (fun h => by rw [had.mpr already] at h; cases h.1)]
      simp only [Option.map_some,if_true,if_pos already]
    · rw [if_pos ⟨by rw [← Bool.not_eq_true,had]; exact already,rfl⟩]
      simp only [Option.map_some,if_true,if_neg already]
  · rw [if_neg (fun h => mine h.2),forgot]
    simp only [lost,if_neg mine]
    by_cases taken : ∃ t ∈ e.sourcesOf key, t.owner = y ∧ t.address = src.address
    · by_cases zero : y = 0
      · cases was : e.clients.lookup y with
        | none => simp
        | some old => exact absurd zero (owned.keyed y old was).1
      · rw [if_pos ⟨taken,zero,mine⟩]
        simp only [if_pos taken]
    · rw [if_neg (fun h => taken h.1)]
      simp only [if_neg taken]
      cases e.clients.lookup y <;> rfl

/-- An offer of a connected session at its own address. -/
theorem Owned.offered (sound : e.Sound) (owned : e.Owned pending)
    (known : e.files.lookup key = some head) (connected : e.clients.lookup src.owner = some c)
    (address : src.address = c.info.address) (shared : src.peer.shared = true → src.peer = c.peer) :
    (e.offered head src).Owned pending := by
  obtain ⟨_,same,sources,_⟩ := offered_spec sound known src
  have own : ∀ s ∈ e.sourcesOf key, s.owner = src.owner → s.address = src.address := by
    intro s member mine
    rw [address]
    exact (owned.located key s member c (by rw [mine]; exact connected)).1
  obtain ⟨owners,addresses,members⟩ := replaced_list (e.sourcesOf key) src (owned.once key) (owned.apart key) own
  have listOf : ∀ k, (e.offered head src).sourcesOf k =
      if k = key then (e.sourcesOf key).eraseP src.same ++ [src] else e.sourcesOf k := by
    intro k
    rw [sources]
    exact Function.update_apply ..
  have clients := offered_session sound owned known connected own
  have session : ∀ y c', (e.offered head src).clients.lookup y = some c' → ∃ old, e.clients.lookup y = some old ∧
      c'.info = old.info ∧ c'.peer = old.peer := by
    intro y c' found
    rw [clients] at found
    obtain ⟨old,was,rfl⟩ := Option.map_eq_some_iff.mp found
    exact ⟨old,was,rfl,rfl⟩
  refine ⟨fun y c' found => ?_,fun k => ?_,fun k => ?_,fun k s member c' found => ?_,fun y c' found => ?_,
    fun p member => ?_,fun k s member => ?_⟩
  · obtain ⟨old,was,info,peer⟩ := session y c' found
    rw [info,peer,same.nextClientID]
    exact owned.keyed y old was
  · rw [listOf]
    split
    · exact owners
    · exact owned.once k
  · rw [listOf]
    split
    · exact addresses
    · exact owned.apart k
  · obtain ⟨old,was,info,peer⟩ := session s.owner c' found
    rw [info,peer]
    rw [listOf] at member
    split at member
    · rcases (members s).mp member with rfl | ⟨member,_⟩
      · rw [connected] at was
        cases was
        exact ⟨address,shared⟩
      · exact owned.located key s member old was
    · exact owned.located k s member old was
  · rw [clients] at found
    obtain ⟨old,was,rfl⟩ := Option.map_eq_some_iff.mp found
    obtain ⟨distinct,listed⟩ := owned.listed y old was
    rw [same.files]
    have headListed : head ∈ old.offered ↔ ∃ s ∈ e.sourcesOf key, s.owner = y := by
      rw [listed]
      constructor
      · rintro ⟨k,isHead,theirs⟩
        rwa [sound.structured.head_injective isHead known] at theirs
      · exact fun theirs => ⟨key,known,theirs⟩
    -- elsewhere nothing changed, and `head` is the first record of `key` alone
    have after : ∀ id, (∃ k, e.files.lookup k = some id ∧ ∃ s ∈ (e.offered head src).sourcesOf k, s.owner = y) ↔
        if id = head then y = src.owner ∨ ∃ s ∈ e.sourcesOf key, s.owner = y ∧ s.address ≠ src.address
        else id ∈ old.offered := by
      intro id
      split
      next isHead =>
        subst isHead
        constructor
        · rintro ⟨k,isHead,s,member,mine⟩
          rw [listOf,if_pos (sound.structured.head_injective isHead known)] at member
          rcases (members s).mp member with rfl | ⟨member,away⟩
          · exact .inl mine.symm
          · exact .inr ⟨s,member,mine,away⟩
        · rintro (rfl | ⟨s,member,mine,away⟩)
          · exact ⟨key,known,src,by rw [listOf,if_pos rfl]; exact (members src).mpr (.inl rfl),rfl⟩
          · exact ⟨key,known,s,by rw [listOf,if_pos rfl]; exact (members s).mpr (.inr ⟨member,away⟩),mine⟩
      next other =>
        rw [listed]
        refine exists_congr fun k => and_congr_right fun isHead => ?_
        rw [listOf,if_neg]
        rintro rfl
        exact other (Option.some.inj (isHead.symm.trans known))
    simp only [after]
    split
    next mine =>
      split
      next already =>
        refine ⟨distinct,fun id => ?_⟩
        split
        next isHead =>
          rw [isHead,headListed,mine]
          simp [already]
        · exact Iff.rfl
      next unshared =>
        refine ⟨by rw [← concat_eq_append,nodup_concat,headListed,mine]; exact ⟨unshared,distinct⟩,fun id => ?_⟩
        split <;> simp_all
    next away =>
      split
      next taken =>
        obtain ⟨_,member,theirs,there⟩ := taken
        refine ⟨distinct.erase head,fun id => ?_⟩
        split
        next isHead =>
          rw [isHead]
          refine ⟨fun inside => absurd inside distinct.not_mem_erase,?_⟩
          rintro (mine | ⟨s,inside,also,elsewhere⟩)
          · exact absurd mine away
          · have equal := inj_on_of_nodup_map (owned.once key) inside member (also.trans theirs.symm)
            exact absurd (equal ▸ there) elsewhere
        next other => exact mem_erase_of_ne other
      next untaken =>
        refine ⟨distinct,fun id => ?_⟩
        split
        next isHead =>
          rw [isHead,headListed,or_iff_right away]
          exact ⟨fun ⟨s,member,theirs⟩ => ⟨s,member,theirs,fun equal => untaken ⟨s,member,theirs,equal⟩⟩,
            fun ⟨s,member,theirs,_⟩ => ⟨s,member,theirs⟩⟩
        · exact Iff.rfl
  · obtain ⟨gone,rest⟩ := owned.departing p member
    rw [same.nextClientID,same.layout,clients,gone]
    exact ⟨rfl,rest⟩
  · have connects : ∀ y, (∃ old, e.clients.lookup y = some old) →
        ∃ c', (e.offered head src).clients.lookup y = some c' := by
      rintro _ ⟨_,was⟩
      rw [clients,was]
      exact ⟨_,rfl⟩
    rw [same.files,same.layout]
    rw [listOf] at member
    have before : s = src ∨ s ∈ e.sourcesOf k := by
      split at member
      next here =>
        rcases (members s).mp member with equal | ⟨inside,_⟩
        · exact .inl equal
        · exact .inr (here ▸ inside)
      · exact .inr member
    rcases before with rfl | inside
    · exact .inl (connects _ ⟨c,connected⟩)
    · exact (owned.present k s inside).imp_left (connects _)

/-- An offer under the store id of a session and, if it is connected, from its address. -/
def Honest (e : MemoryEngine) (info : ClientInfo) : Prop :=
  info.storeID ≠ 0 ∧ ∀ c, e.clients.lookup info.storeID = some c → c.info.address = info.address

theorem addFile_connected (u : Unicode) (nonzero : info.storeID ≠ 0)
    (connected : e.clients.lookup info.storeID = some c) (own : c.peer.storeID = info.storeID) (file : File) :
    let store := e.storeFileLocked u (normalizeFile u file)
    let s := offeredSource (some c) info info.storeID (normalizeFile u file)
    addFileLocked u info e file = store.1.offered store.2 s ∧ s.owner = info.storeID := by
  intro store s
  have owner : s.owner = info.storeID := by
    simp only [s,offeredSource,MemSource.owner]
    split
    · exact own
    · rfl
  have resolved : e.storeIDOf info = info.storeID := if_neg nonzero
  have client : e.clients.lookup (e.storeIDOf info) = some c := by
    rw [resolved]
    exact connected
  refine ⟨?_,owner⟩
  simp only [addFileLocked,client,resolved,Option.isNone_some,Bool.false_eq_true,false_and,if_false,
    Option.isSome_some,Bool.and_true,MemoryEngine.offered,owner]
  cases (store.1.putSourceLocked store.2 s).2 <;> rfl

theorem addFile_refused (u : Unicode) (nonzero : info.storeID ≠ 0)
    (gone : e.clients.lookup info.storeID = none) (file : File) : addFileLocked u info e file = e := by
  have client : e.clients.lookup (e.storeIDOf info) = none := by
    rw [show e.storeIDOf info = info.storeID from if_neg nonzero]
    exact gone
  simp [addFileLocked,client,nonzero]

/-- One offered file keeps the bond, and the sessions keep their identities. -/
theorem Owned.addFile (u : Unicode) (sound : e.Sound) (owned : e.Owned pending)
    (honest : e.Honest info) (file : File) :
    (addFileLocked u info e file).Sound ∧ (addFileLocked u info e file).Owned pending ∧
    (addFileLocked u info e file).Honest info := by
  cases connected : e.clients.lookup info.storeID with
  | none =>
    rw [addFile_refused u honest.1 connected]
    exact ⟨sound,owned,honest⟩
  | some c =>
    obtain ⟨_,_,stored,peer⟩ := owned.keyed _ c connected
    have own : c.peer.storeID = info.storeID := by rw [peer]; exact stored
    obtain ⟨shape,owner⟩ := addFile_connected u honest.1 connected own file
    obtain ⟨sound₁,keeps,known⟩ := store_sound u sound (normalizeFile u file)
    have owned₁ := owned.congr keeps
    let source := offeredSource (some c) info info.storeID (normalizeFile u file)
    have connected₁ : (e.storeFileLocked u (normalizeFile u file)).1.clients.lookup source.owner = some c := by
      rw [keeps.clients,owner]
      exact connected
    have address : source.address = c.info.address := (honest.2 c connected).symm
    have shared : source.peer.shared = true → source.peer = c.peer := by
      simp only [source,offeredSource]
      split
      · exact fun _ => rfl
      · exact nofun
    have owned₂ := owned₁.offered sound₁ known connected₁ address shared
    rw [shape]
    refine ⟨(offered_spec sound₁ known _).1,owned₂,honest.1,fun _ found => ?_⟩
    rw [offered_session sound₁ owned₁ known connected₁ ?_ info.storeID,keeps.clients,connected] at found
    · cases found
      exact honest.2 c connected
    · intro s member mine
      rw [address]
      exact (owned₁.located _ s member c (by rw [mine]; exact connected₁)).1

/-- Only sources of one departing session go, and what is left of it can still be found. -/
theorem Owned.release (owned : e.Owned (p :: pending)) (same : SameFiles e e')
    (clients : e'.clients = e.clients) (rest : List Pending)
    (sources : ∀ key, (e'.sourcesOf key).Sublist (e.sourcesOf key) ∧
      ∀ s ∈ e.sourcesOf key, s.owner ≠ p.storeID → s ∈ e'.sourcesOf key)
    (successor : ∀ p' ∈ rest, p'.storeID = p.storeID ∧ p'.layout = p.layout)
    (left : ∀ key, ∀ s ∈ e'.sourcesOf key, s.owner = p.storeID → ∃ p' ∈ rest ++ pending, p'.storeID = s.owner ∧
      (p'.layout = e.layout → ∃ head ∈ p'.rest, e.files.lookup key = some head)) : e'.Owned (rest ++ pending) := by
  refine ⟨?_,fun key => ?_,fun key => ?_,fun key s member => ?_,fun sid c connected => ?_,fun q member => ?_,
    fun key s member => ?_⟩
  · rw [clients,same.nextClientID]
    exact owned.keyed
  · exact (owned.once key).sublist ((sources key).1.map _)
  · exact (owned.apart key).sublist ((sources key).1.map _)
  · rw [clients]
    exact owned.located key s ((sources key).1.subset member)
  · rw [clients] at connected
    obtain ⟨distinct,listed⟩ := owned.listed sid c connected
    have other : sid ≠ p.storeID := by
      rintro rfl
      rw [(owned.departing p (by simp)).1] at connected
      cases connected
    refine ⟨distinct,fun _ => ?_⟩
    rw [listed,same.files]
    refine exists_congr fun key => and_congr_right fun _ => ?_
    constructor
    · rintro ⟨s,member,mine⟩
      exact ⟨s,(sources key).2 s member (mine ▸ other),mine⟩
    · rintro ⟨s,member,mine⟩
      exact ⟨s,(sources key).1.subset member,mine⟩
  · rw [clients,same.nextClientID,same.layout]
    rcases mem_append.mp member with new | old
    · obtain ⟨storeID,layout⟩ := successor q new
      rw [storeID,layout]
      exact owned.departing p (by simp)
    · exact owned.departing q (.tail _ old)
  · rw [clients,same.layout,same.files]
    by_cases mine : s.owner = p.storeID
    · exact .inr (left key s member mine)
    · rcases owned.present key s ((sources key).1.subset member) with connected | ⟨q,inside,storeID,found⟩
      · exact .inl connected
      · rcases mem_cons.mp inside with rfl | old
        · exact absurd storeID.symm mine
        · exact .inr ⟨q,mem_append_right _ old,storeID,found⟩

/-- A chunk of the list: what remains is on the rest of it. -/
theorem Owned.chunk (sound : e.Sound) (owned : e.Owned (p :: pending)) (current : p.layout = e.layout) :
    (e.removeChunk p).1.Sound ∧ (e.removeChunk p).1.Owned ((e.removeChunk p).2.toList ++ pending) := by
  obtain ⟨sound',same,clients,sources⟩ := removeSources_fold p.storeID (p.rest.take disconnectChunk) sound
  refine ⟨sound',owned.release same clients _ (fun key => ?_) (fun _ member => ?_) (fun key s member mine => ?_)⟩
  · rw [sources key]
    split
    · exact ⟨filter_sublist,fun s member other => mem_filter.mpr ⟨member,by simpa using other⟩⟩
    · exact ⟨List.Sublist.refl _,fun s member _ => member⟩
  · simp only [removeChunk] at member
    split at member
    · cases member
    rw [Option.toList_some,mem_singleton] at member
    rw [member]
    exact ⟨rfl,rfl⟩
  · rw [sources key] at member
    split at member
    · have kept := (mem_filter.mp member).2
      rw [mine] at kept
      simp at kept
    next outside =>
      rcases owned.present key s member with ⟨_,connected⟩ | ⟨q,inside,storeID,found⟩
      · rw [mine,(owned.departing p (by simp)).1] at connected
        cases connected
      · rcases mem_cons.mp inside with rfl | old
        · obtain ⟨head,listed,isHead⟩ := found current
          have later : head ∈ q.rest.drop disconnectChunk := by
            rw [← take_append_drop disconnectChunk q.rest,mem_append] at listed
            exact listed.resolve_left (fun now => outside ⟨head,now,isHead⟩)
          refine ⟨{ q with rest := q.rest.drop disconnectChunk },mem_append_left _ ?_,storeID,
            fun _ => ⟨head,later,isHead⟩⟩
          simp only [removeChunk,if_neg (ne_nil_of_mem later),Option.toList_some,mem_singleton]
        · exact ⟨q,mem_append_right _ old,storeID,found⟩

theorem Owned.resume (sound : e.Sound) (owned : e.Owned (p :: pending)) :
    (e.resumeDisconnect p).1.Sound ∧ (e.resumeDisconnect p).1.Owned ((e.resumeDisconnect p).2.toList ++ pending) := by
  unfold resumeDisconnect
  split
  next moved =>
    obtain ⟨sound',same,clients,sources⟩ := removeAll_sound sound p.storeID
    refine ⟨sound',owned.release same clients [] (fun key => ?_) (by simp) (fun key s member mine => ?_)⟩
    · rw [sources key]
      exact ⟨filter_sublist,fun _ member other => mem_filter.mpr ⟨member,by simpa using other⟩⟩
    · rw [sources key] at member
      have kept := (mem_filter.mp member).2
      rw [mine] at kept
      simp at kept
  next current => exact owned.chunk sound (not_not.mp current).symm

/-- The session leaves the tables and its list becomes what the removal still has to visit. -/
theorem Owned.depart (owned : e.Owned pending)
    (connected : e.clients.lookup sid = some client) (byHash : GoMap Bytes Nat) :
    ({ e with clientsByHash := byHash, clients := e.clients.erase sid } : MemoryEngine).Owned
      (⟨sid,client.offered,e.layout⟩ :: pending) := by
  have clients : ∀ y, (e.clients.erase sid).lookup y = if y = sid then none else e.clients.lookup y :=
    fun y => GoMap.lookup_erase_ite ..
  have session : ∀ y c, (e.clients.erase sid).lookup y = some c → y ≠ sid ∧ e.clients.lookup y = some c := by
    intro y c found
    rw [clients] at found
    split at found
    · cases found
    next other => exact ⟨other,found⟩
  obtain ⟨nonzero,bound,_⟩ := owned.keyed sid client connected
  refine ⟨fun y c found => owned.keyed y c (session y c found).2,owned.once,owned.apart,
    fun key s member c found => owned.located key s member c (session _ c found).2,
    fun y c found => owned.listed y c (session y c found).2,fun p member => ?_,fun key s member => ?_⟩
  · rcases mem_cons.mp member with rfl | old
    · refine ⟨?_,nonzero,bound,le_rfl⟩
      exact (clients sid).trans (if_pos rfl)
    · obtain ⟨gone,rest⟩ := owned.departing p old
      refine ⟨(clients _).trans ?_,rest⟩
      split
      · rfl
      · exact gone
  · by_cases mine : s.owner = sid
    · refine .inr ⟨_,.head _,mine.symm,fun _ => ?_⟩
      obtain ⟨head,known⟩ := known_of_source (ne_nil_of_mem member)
      exact ⟨head,((owned.listed sid client connected).2 head).mpr ⟨key,known,s,member,mine⟩,known⟩
    · rcases owned.present key s member with ⟨c,found⟩ | ⟨p,inside,found⟩
      · exact .inl ⟨c,(clients _).trans ((if_neg mine).trans found)⟩
      · exact .inr ⟨p,.tail _ inside,found⟩

theorem Owned.start (sound : e.Sound) (owned : e.Owned pending) (info : ClientInfo) :
    (e.startDisconnect info).1.Sound ∧ (e.startDisconnect info).1.Owned ((e.startDisconnect info).2.toList ++ pending) := by
  rcases e.start_cases info with ⟨-,nothing⟩ | ⟨_,-,connected,started⟩
  · rw [nothing]
    exact ⟨sound,owned⟩
  · rw [started]
    exact (owned.depart connected _).chunk (sound.of_clients _ _ _ _) rfl

end

end MemoryEngine

end ENode.Storage
