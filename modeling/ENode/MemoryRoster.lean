import ENode.MemorySystem

/-! What the operations of the memory engine do to its sessions: one comes with a `Connect` and goes
with a `Disconnect`, all go when the index is released, and nothing else touches them. -/
namespace ENode.Storage

open GoText Slab MemoryEngine

namespace MemoryEngine

def infoOf (e : MemoryEngine) (sid : Nat) : Option ClientInfo := (e.clients.lookup sid).map (·.info)

/-- The two engines have the same sessions, apart from what they list. -/
structure SameSessions (e e' : MemoryEngine) : Prop where
  infos : e'.infoOf = e.infoOf
  byHash : e'.clientsByHash = e.clientsByHash

structure KeepsSessions (e e' : MemoryEngine) : Prop extends SameSessions e e' where
  next : e'.nextClientID = e.nextClientID

section
variable {e : MemoryEngine}

theorem infoOf_eq_none : e.infoOf sid = none ↔ e.clients.lookup sid = none := Option.map_eq_none_iff

theorem KeepsSessions.refl (e : MemoryEngine) : KeepsSessions e e := ⟨⟨rfl,rfl⟩,rfl⟩

theorem KeepsSessions.trans (ab : KeepsSessions a b) (bc : KeepsSessions b c) : KeepsSessions a c :=
  ⟨⟨bc.infos.trans ab.infos,bc.byHash.trans ab.byHash⟩,bc.next.trans ab.next⟩

theorem SameSessions.of_clients (f : MemClient → MemClient) (keeps : ∀ c, (f c).info = c.info)
    (clients : e'.clients = e.clients.mapVals f) (byHash : e'.clientsByHash = e.clientsByHash) : SameSessions e e' := by
  refine ⟨funext fun _ => ?_,byHash⟩
  rw [infoOf,infoOf,clients,GoMap.lookup_mapVals,Option.map_map]
  exact Option.map_congr (fun c _ => keeps c)

theorem KeepsSources.sessions (keeps : KeepsSources e e') : KeepsSessions e e' :=
  ⟨⟨by unfold infoOf; rw [keeps.clients],keeps.clientsByHash⟩,keeps.nextClientID⟩

theorem modifyClient_sessions (e : MemoryEngine) (sid : Nat) (keeps : ∀ c, (f c).info = c.info) :
    KeepsSessions e (e.modifyClient sid f) := by
  obtain ⟨_,frame⟩ := e.modifyClient_keeps sid f
  refine ⟨⟨funext fun _ => ?_,by rw [frame]⟩,by rw [frame]⟩
  rw [infoOf,infoOf,lookup_modifyClient]
  split
  · rw [Option.map_map]
    exact Option.map_congr (fun c _ => keeps c)
  · rfl

theorem addFile_sessions (sound : e.Sound) (info : ClientInfo) (file : File) :
    KeepsSessions e (addFileLocked u info e file) := by
  refine addFile_rule (KeepsSessions e) info file (.refl e) (fun src => ?_)
    (fun a sid _ same => same.trans (a.modifyClient_sessions sid (fun _ => rfl)))
  obtain ⟨sound₁,keeps,known⟩ := store_sound u sound (normalizeFile u file)
  obtain ⟨set,_,clients⟩ := putSource_spec sound₁.placed (sound₁.known_bound known) src
  obtain ⟨_,same,_⟩ := set.sound sound₁ known
  refine keeps.sessions.trans ⟨⟨funext fun _ => ?_,same.clientsByHash⟩,same.nextClientID⟩
  rw [infoOf,infoOf,clients,lookup_forgetTaken]
  split
  · rw [Option.map_map]
    rfl
  · rfl

theorem addFiles_sessions (files : List File) (sound : e.Sound) (contents : Contents u e) (info : ClientInfo) :
    KeepsSessions e (e.addFiles u files info) := by
  refine (addFiles_rule (fun a => (a.Sound ∧ Contents u a) ∧ KeepsSessions e a) info ?_ files ⟨⟨sound,contents⟩,.refl e⟩).2
  exact fun _ file held => ⟨addFile_sound held.1.1 held.1.2 info file,held.2.trans (addFile_sessions held.1.1 info file)⟩

theorem resume_clients (sound : e.Sound) (p : Pending) : (e.resumeDisconnect p).1.clients = e.clients := by
  unfold resumeDisconnect
  split
  · exact (removeAll_sound sound p.storeID).2.2.1
  · exact (removeSources_fold p.storeID (p.rest.take disconnectChunk) sound).2.2.1

theorem resume_sessions (sound : e.Sound) (p : Pending) : KeepsSessions e (e.resumeDisconnect p).1 := by
  obtain ⟨_,same⟩ := resume_sound sound p
  refine ⟨⟨?_,same.clientsByHash⟩,same.nextClientID⟩
  unfold infoOf
  rw [resume_clients sound p]

theorem finish_sessions (fuel : Nat) (state : MemoryEngine × Option Pending) (sound : state.1.Sound) :
    KeepsSessions state.1 (finishDisconnect fuel state) :=
  (finish_rule (fun a => a.Sound ∧ KeepsSessions state.1 a)
    (fun _ p held => ⟨(resume_sound held.1 p).1,held.2.trans (resume_sessions held.1 p)⟩) fuel state ⟨sound,.refl _⟩).2

theorem rebuild_sessions (e : MemoryEngine) : KeepsSessions e (e.rebuildIndexLocked u) :=
  ⟨.of_clients (fun c => { c with offered := c.offered.filterMap e.renumber }) (fun _ => rfl) rfl rfl,rfl⟩

theorem cleanupStale_sessions (sound : e.Sound) (maxAge : Int) (keep : Bool) :
    KeepsSessions e (e.cleanupStale u maxAge keep).1 :=
  cleanupStale_rule (KeepsSessions e) maxAge keep (.refl e) (cleanup_fold u (List.range e.recs.length) (e,0) sound).2.sessions
    (fun _ held => ⟨⟨held.infos,held.byHash⟩,held.next⟩) (fun a held => held.trans a.rebuild_sessions)

theorem install_sessions (u : Unicode) (e : MemoryEngine) (files : List File) :
    KeepsSessions e (e.installFilesLocked u files) := by
  have emptied : KeepsSessions e e.emptied := ⟨.of_clients (fun c => { c with offered := [] }) (fun _ => rfl) rfl rfl,rfl⟩
  exact emptied.trans (install_sound u e files).2.sessions

/-- Whoever is meant, nobody is connected by a `Disconnect`. -/
theorem start_clients (sound : e.Sound) (info : ClientInfo) :
    (e.startDisconnect info).1.nextClientID = e.nextClientID ∧ ∀ y, (e.startDisconnect info).1.clients.lookup y =
      if y = e.storeIDOf info ∧ y ≠ 0 then none else e.clients.lookup y := by
  rcases e.start_cases info with ⟨gone,nothing⟩ | ⟨c,nonzero,_,started⟩
  · rw [nothing]
    refine ⟨rfl,fun y => ?_⟩
    split
    next meant =>
      rw [meant.1]
      exact gone.resolve_left fun zero => meant.2 (meant.1.trans zero)
    · rfl
  · rw [started]
    have left : (e.without (e.storeIDOf info) c).Sound := sound.of_clients _ _ _ _
    have fold := removeSources_fold (e.storeIDOf info) (c.offered.take disconnectChunk) left
    refine ⟨fold.2.1.nextClientID,fun y => ?_⟩
    refine (congrArg (fun m => AList.lookup y m) fold.2.2.1).trans ((GoMap.lookup_erase_ite ..).trans ?_)
    by_cases meant : y = e.storeIDOf info
    · rw [if_pos meant,if_pos ⟨meant,fun zero => nonzero (meant.symm.trans zero)⟩]
    · rw [if_neg meant,if_neg (fun h => meant h.1)]

theorem without_lookup (e : MemoryEngine) (sid : Nat) (c : MemClient) (hash : Bytes) :
    (e.without sid c).clientsByHash.lookup hash =
      if 0 < c.info.hash.length ∧ e.clientsByHash.lookup c.info.hash = some sid ∧ hash = c.info.hash then none
      else e.clientsByHash.lookup hash := by
  by_cases named : 0 < c.info.hash.length ∧ e.clientsByHash.lookup c.info.hash = some sid
  · have erased : (e.without sid c).clientsByHash = e.clientsByHash.erase c.info.hash := if_pos named
    rw [erased]
    refine (GoMap.lookup_erase_ite ..).trans ?_
    by_cases here : hash = c.info.hash
    · rw [if_pos here,if_pos ⟨named.1,named.2,here⟩]
    · rw [if_neg here,if_neg (fun h => here h.2.2)]
  · have kept : (e.without sid c).clientsByHash = e.clientsByHash := if_neg named
    rw [kept,if_neg (fun h => named ⟨h.1,h.2.1⟩)]

theorem connect_lookup (e : MemoryEngine) (info : ClientInfo) : (∀ y, (e.connect info).1.infoOf y =
      if y = e.nextClientID + 1 then some { info with storeID := e.nextClientID + 1 } else e.infoOf y) ∧
    ∀ hash, (e.connect info).1.clientsByHash.lookup hash = if 0 < info.hash.length ∧ hash = info.hash
      then some (e.nextClientID + 1) else e.clientsByHash.lookup hash := by
  refine ⟨fun y => ?_,fun hash => ?_⟩
  · have lookup : (e.connect info).1.clients.lookup y = if y = e.nextClientID + 1 then some _ else e.clients.lookup y :=
      GoMap.lookup_insert_ite ..
    rw [infoOf,infoOf,lookup]
    split <;> rfl
  · by_cases long : info.hash.length > 0
    · have inserted : (e.connect info).1.clientsByHash = e.clientsByHash.insert info.hash (e.nextClientID + 1) :=
        if_pos long
      rw [inserted]
      refine (GoMap.lookup_insert_ite ..).trans ?_
      by_cases here : hash = info.hash
      · rw [if_pos here,if_pos ⟨long,here⟩]
      · rw [if_neg here,if_neg (fun h => here h.2)]
    · have kept : (e.connect info).1.clientsByHash = e.clientsByHash := if_neg long
      rw [kept,if_neg (fun h => long h.1)]

end

/-- What an operation does to the sessions. -/
inductive SessionEffect (e : MemoryEngine) : Op → MemoryEngine → Prop
  | kept {op : Op} {e' : MemoryEngine} (same : SameSessions e e') (next : e.nextClientID ≤ e'.nextClientID) :
    SessionEffect e op e'
  | connected (info : ClientInfo) : SessionEffect e (.connect info) (e.connect info).1
  | left {op : Op} {e' : MemoryEngine} (info : ClientInfo) (c : MemClient)
    (leaves : op = .disconnect info ∨ op = .beginDisconnect info) (found : e.clients.lookup (e.storeIDOf info) = some c)
    (infos : ∀ y, e'.infoOf y = if y = e.storeIDOf info then none else e.infoOf y)
    (byHash : e'.clientsByHash = (e.without (e.storeIDOf info) c).clientsByHash)
    (next : e'.nextClientID = e.nextClientID) : SessionEffect e op e'
  | released {e' : MemoryEngine} (infos : ∀ sid, e'.infoOf sid = none) (byHash : ∀ hash, e'.clientsByHash.lookup hash = none)
    (next : e.nextClientID ≤ e'.nextClientID) : SessionEffect e .releaseIndex e'

section
variable {e : MemoryEngine}

theorem SessionEffect.keeps (kept : KeepsSessions e e') : SessionEffect e op e' :=
  .kept kept.toSameSessions (Nat.le_of_eq kept.next.symm)

theorem SessionEffect.andKeeps (effect : SessionEffect e op e') (kept : KeepsSessions e' e'')
    (leaves : ∃ info, op = .disconnect info ∨ op = .beginDisconnect info) : SessionEffect e op e'' := by
  cases effect with
  | kept same next => exact .kept ⟨kept.infos.trans same.infos,kept.byHash.trans same.byHash⟩ (next.trans_eq kept.next.symm)
  | connected | released => simp at leaves
  | left info c leaves found infos byHash next =>
    exact .left info c leaves found (fun y => (congrFun kept.infos y).trans (infos y)) (kept.byHash.trans byHash)
      (kept.next.trans next)

theorem start_effect (sound : e.Sound) (info : ClientInfo) (leaves : op = .disconnect info ∨ op = .beginDisconnect info) :
    SessionEffect e op (e.startDisconnect info).1 := by
  obtain ⟨next,clients⟩ := start_clients sound info
  rcases e.start_cases info with ⟨-,nothing⟩ | ⟨c,nonzero,connected,started⟩
  · rw [nothing]
    exact .keeps (.refl e)
  · refine .left info c leaves connected (fun y => ?_) ?_ next
    · rw [infoOf,infoOf,clients]
      by_cases mine : y = e.storeIDOf info
      · rw [if_pos mine,if_pos ⟨mine,fun none_ => nonzero (mine.symm.trans none_)⟩]
        rfl
      · rw [if_neg mine,if_neg (fun h => mine h.1)]
    · have left : (e.without (e.storeIDOf info) c).Sound := sound.of_clients _ _ _ _
      rw [started]
      exact (chunk_sound left _).2.clientsByHash

end

end MemoryEngine

theorem System.step_sessions (s : System) (sound : s.engine.Sound) (contents : Contents u s.engine) (op : Op)
    (own : ∀ stream, op ≠ .importHandoff stream) : SessionEffect s.engine op (s.step u op).engine := by
  cases op with
  | connect info => exact .connected info
  | offer files info => exact .keeps (addFiles_sessions files sound contents info)
  | disconnect info =>
    exact (start_effect sound info (.inl rfl)).andKeeps (finish_sessions _ _ (start_sound sound contents info).1)
      ⟨info,.inl rfl⟩
  | beginDisconnect info => exact start_effect sound info (.inr rfl)
  | resumeDisconnect _ =>
    simp only [step]
    split
    · exact .keeps (.refl _)
    · exact .keeps (resume_sessions sound _)
  | cleanupStale maxAge keep => exact .keeps (cleanupStale_sessions sound maxAge keep)
  | rebuild => exact .keeps (rebuild_sessions _)
  | install files _ =>
    have kept := install_sessions u s.engine files
    exact .kept ⟨kept.infos,kept.byHash⟩ (kept.next ▸ Nat.le_max_left ..)
  | releaseIndex => exact .released (fun _ => rfl) (fun _ => rfl) le_rfl
  | importHandoff stream => exact absurd rfl (own stream)

end ENode.Storage
