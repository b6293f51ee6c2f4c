import ENode.MemoryLookups
import ENode.MemoryRoster

/-! What holds of the memory engine over whole runs: the representation invariant when
every `Disconnect` runs to its end, and what a `Disconnect` that gives up the lock does to
its own session and to the others. -/
namespace ENode.Storage

open GoText Slab MemoryEngine List

/-- The sources, the sessions' lists, the count and the chains say the same, and so do the
lookups that read them. -/
structure Represented (e : MemoryEngine) : Prop where
  offered : ∀ sid c, e.clients.lookup sid = some c → c.offered.Nodup ∧
    (c.offered.map (fun id => (e.record id).hash)).Perm (e.sourcedBy sid) ∧
    ∀ id ∈ c.offered, e.files.lookup (e.record id).hash = some id
  sourced : ∀ sid key, key ∈ e.sourcedBy sid ↔ ∃ s ∈ e.sourcesOf key, s.owner = sid
  once : ∀ key sid, ((e.sourcesOf key).filter (fun s => s.owner == sid)).length ≤ 1
  connected : ∀ key, ∀ s ∈ e.sourcesOf key, ∃ c, e.clients.lookup s.owner = some c
  counted : e.count = e.recs.countP (·.live)
  chains : ∀ key, (e.chain key).Nodup ∧
    ∀ id, id ∈ e.chain key ↔ (e.record id).live = true ∧ (e.record id).hash = key
  distinct : ∀ i j, (e.record i).live = true → (e.record j).live = true →
    (e.record i).hash = (e.record j).hash → (e.record i).size = (e.record j).size → i = j
  offeredCount : ∀ info, e.offeredCount info = (e.sourcedBy (e.storeIDOf info)).length
  hasOffered : ∀ info files, e.hasOffered info files = files.map (fun f =>
    decide (hashArray f.hash ∈ e.sourcedBy (e.storeIDOf info)))
  getSourcesByHash : ∀ hash, e.getSourcesByHash hash = shown (e.sourcesOf (hashArray hash)) 0
  getSources : ∀ hash size, e.getSources hash size = if ∃ f ∈ e.recordsOf (hashArray hash), f.size = size
    then some (shown (e.sourcesOf (hashArray hash)) size) else none

theorem Represented.of_owned {e : MemoryEngine} (sound : e.Sound) (owned : e.Owned []) : Represented e := by
  refine ⟨fun sid c found => ?_,fun sid key => e.mem_sourcedBy sid key,fun key sid => ?_,
    fun key s member => owned.connected member,sound.structured.counted,
    fun key => ⟨(sound.structured.linked key).nodup,sound.structured.members key⟩,fun i j hi hj hashed sized => ?_,
    owned.offeredCount sound,fun _ _ => ?_,getSourcesByHash_eq sound.placed,getSources_eq sound⟩
  · obtain ⟨distinct,listed⟩ := owned.listed sid c found
    have heads : ∀ id ∈ c.offered, e.files.lookup (e.record id).hash = some id := by
      intro id member
      obtain ⟨key,known,_⟩ := (listed id).mp member
      rwa [sound.structured.hash_of_mem (sound.structured.head_mem known)]
    refine ⟨distinct,?_,heads⟩
    refine (perm_ext_iff_of_nodup (distinct.map_on (fun i hi j hj same => ?_)) (e.sourcedBy_nodup sid)).mpr
      (fun key => ?_)
    · have here := heads i hi
      rw [same,heads j hj] at here
      exact (Option.some.inj here).symm
    · rw [mem_map,mem_sourcedBy]
      constructor
      · rintro ⟨id,member,rfl⟩
        obtain ⟨key,known,_⟩ := (listed id).mp member
        rwa [sound.structured.hash_of_mem (sound.structured.head_mem known)]
      · rintro ⟨s,member,mine⟩
        obtain ⟨head,known⟩ := known_of_source (ne_nil_of_mem member)
        exact ⟨head,(listed head).mpr ⟨key,known,s,member,mine⟩,
          sound.structured.hash_of_mem (sound.structured.head_mem known)⟩
  · have single := nodup_iff_count_le_one.mp (owned.once key) sid
    rw [count_eq_length_filter,filter_map,length_map] at single
    exact single
  · have inI := (sound.structured.members _ i).mpr ⟨hi,rfl⟩
    have inJ := (sound.structured.members _ j).mpr ⟨hj,hashed.symm⟩
    exact inj_on_of_nodup_map (sound.structured.sizes _) inI inJ sized
  · rw [owned.hasOffered sound]
    refine map_congr_left (fun _ _ => ?_)
    rw [Bool.eq_iff_iff,decide_eq_true_iff,mem_sourcedBy]
    simp

namespace Op

/-- The operation leaves no `Disconnect` on its way. -/
def Whole : Op → Prop
  | .beginDisconnect _ | .resumeDisconnect _ => False
  | _ => True

end Op

namespace System

variable {u : Unicode}

theorem step_whole (s : System) (op : Op) (whole : op.Whole) : (s.step u op).pending = s.pending := by
  cases op with
  | beginDisconnect | resumeDisconnect => exact whole.elim
  | _ => rfl

theorem run_whole (s : System) (ops : List Op) (whole : ∀ op ∈ ops, op.Whole) : (s.run u ops).pending = s.pending := by
  induction ops generalizing s with
  | nil => rfl
  | cons op _ ih =>
    refine (ih (s.step u op) (fun o member => whole o (.tail _ member))).trans ?_
    exact step_whole s op (whole op (.head _))

/-- Any sequence of whole operations, each offer made by its session, ends in a state that
satisfies the representation invariant. -/
theorem run_represented (u : Unicode) (ops : List Op) (whole : ∀ op ∈ ops, op.Whole)
    (honest : ({} : System).HonestRun u ops) : Represented (({} : System).run u ops).engine := by
  have sound := (reached_sound u ops).1
  have owned := reached_owned u ops honest
  rw [run_whole {} ops whole] at owned
  exact Represented.of_owned sound owned

/-- Two sessions offer one file at two sizes, the first leaves and the index is tidied. -/
theorem run_represented_example :
    let file : File := { hash := replicate 16 1, name := lit "a b.mp3", size := 5 }
    let first : ClientInfo := { id := 7, port := 4662 }
    let second : ClientInfo := { id := 8, port := 4662 }
    let ops : List Op := [.connect first,.connect second,.offer [file] { first with storeID := 1 },
      .offer [{ file with size := 6 }] { second with storeID := 2 },.disconnect { first with storeID := 1 },
      .cleanupStale 1 false]
    Represented (({} : System).run Unicode.ascii ops).engine := by
  refine run_represented Unicode.ascii _ (by simp [Op.Whole]) ?_
  refine ⟨trivial,trivial,⟨by decide,?_⟩,⟨by decide,?_⟩,trivial,trivial,trivial⟩
  all_goals
    intro _ found
    cases found
    rfl

end System

namespace MemoryEngine

/-- A store id that was given out and is no longer connected. -/
def Departed (e : MemoryEngine) (sid : Nat) : Prop := sid ≤ e.nextClientID ∧ e.clients.lookup sid = none

section
variable {e : MemoryEngine} {sid : Nat}

/-- Only sources of one session have gone, and nothing else has changed. -/
structure OnlyOwn (sid : Nat) (e e' : MemoryEngine) : Prop where
  sources : ∀ key, (e'.sourcesOf key).filter (fun s => s.owner != sid) =
    (e.sourcesOf key).filter (fun s => s.owner != sid)
  sublist : ∀ key, (e'.sourcesOf key).Sublist (e.sourcesOf key)
  clients : ∀ y, y ≠ sid → e'.clients.lookup y = e.clients.lookup y
  files : e'.files = e.files
  records : e'.recordsOf = e.recordsOf

theorem OnlyOwn.refl (sid : Nat) (e : MemoryEngine) : OnlyOwn sid e e :=
  ⟨fun _ => rfl,fun _ => List.Sublist.refl _,fun _ _ => rfl,rfl,rfl⟩

theorem onlyOwn_of_filter (same : SameFiles e e') (clients : e'.clients = e.clients)
    (sources : ∀ key, e'.sourcesOf key = (e.sourcesOf key).filter (fun s => s.owner != sid) ∨
      e'.sourcesOf key = e.sourcesOf key) : OnlyOwn sid e e' := by
  refine ⟨fun key => ?_,fun key => ?_,fun _ _ => by rw [clients],same.files,same.records⟩
  · rcases sources key with filtered | equal
    · rw [filtered,filter_filter]
      simp
    · rw [equal]
  · rcases sources key with filtered | equal
    · rw [filtered]
      exact filter_sublist
    · rw [equal]

theorem chunk_onlyOwn (sound : e.Sound) (p : Pending) : OnlyOwn p.storeID e (e.removeChunk p).1 := by
  obtain ⟨_,same,clients,sources⟩ := removeSources_fold p.storeID (p.rest.take disconnectChunk) sound
  refine onlyOwn_of_filter same clients (fun key => ?_)
  have read := sources key
  split at read
  · exact .inl read
  · exact .inr read

theorem resume_onlyOwn (sound : e.Sound) (p : Pending) : OnlyOwn p.storeID e (e.resumeDisconnect p).1 := by
  unfold resumeDisconnect
  split
  · obtain ⟨_,same,clients,sources⟩ := removeAll_sound sound p.storeID
    exact onlyOwn_of_filter same clients (fun key => .inl (sources key))
  · exact chunk_onlyOwn sound p

theorem start_onlyOwn (sound : e.Sound) (info : ClientInfo) :
    OnlyOwn (e.storeIDOf info) e (e.startDisconnect info).1 := by
  rcases e.start_cases info with ⟨-,nothing⟩ | ⟨c,-,-,started⟩
  · rw [nothing]
    exact OnlyOwn.refl _ e
  · rw [started]
    have chunk := chunk_onlyOwn (sound.of_clients (e.clients.erase (e.storeIDOf info))
      (e.without (e.storeIDOf info) c).clientsByHash e.nextClientID e.layout) ⟨e.storeIDOf info,c.offered,e.layout⟩
    exact { chunk with clients := fun y other => (chunk.clients y other).trans (AList.lookup_erase_ne other) }

end

end MemoryEngine

namespace System

variable {u : Unicode} {sid : Nat}

variable (s : System)

/-- A store id is never given out again. -/
theorem step_departed (sound : s.engine.Sound) (contents : Contents u s.engine)
    (departed : s.engine.Departed sid) (op : Op) (honest : s.Honest op) : (s.step u op).engine.Departed sid := by
  have effect := step_sessions s sound contents op (fun _ imported => by subst imported; exact honest)
  obtain ⟨given,gone⟩ := departed
  rw [← infoOf_eq_none] at gone
  generalize (s.step u op).engine = after at effect
  refine ⟨?_,infoOf_eq_none.mp ?_⟩
  · cases effect with
    | kept same next => exact given.trans next
    | connected info => exact given.trans (Nat.le_succ _)
    | left info c leaves found infos byHash next => exact given.trans_eq next.symm
    | released infos byHash next => exact given.trans next
  · cases effect with
    | kept same next => rwa [same.infos]
    | connected info => rwa [(s.engine.connect_lookup info).1,if_neg (by omega)]
    | left _ _ _ _ infos byHash next =>
      rw [infos]
      split
      · rfl
      · exact gone
    | released infos _ _ => exact infos sid

theorem run_departed (ops : List Op) (sound : s.engine.Sound) (contents : Contents u s.engine)
    (departed : s.engine.Departed sid) (honest : s.HonestRun u ops) : (s.run u ops).engine.Departed sid :=
  run_rule (fun s => s.engine.Departed sid)
    (fun s op sound contents departed honest => step_departed s sound contents departed op honest) s ops sound contents
    departed honest

theorem run_append (ops more : List Op) : s.run u (ops ++ more) = (s.run u ops).run u more :=
  foldl_append

theorem honestRun_append (ops more : List Op) :
    s.HonestRun u (ops ++ more) ↔ s.HonestRun u ops ∧ (s.run u ops).HonestRun u more := by
  induction ops generalizing s with
  | nil => exact ⟨fun h => ⟨trivial,h⟩,And.right⟩
  | cons op _ ih =>
    refine (and_congr_right fun _ => ih (s.step u op)).trans ?_
    exact and_assoc.symm

/-- A `Disconnect` interleaved with anything: its own steps take nothing but its session's
sources and get shorter, and once it has finished none of them is left. -/
theorem disconnect_interleaved (u : Unicode) (before during : List Op) (info : ClientInfo) (sid : Nat)
    (honest : ({} : System).HonestRun u (before ++ .beginDisconnect info :: during))
    (connected : (({} : System).run u before).engine.clients.lookup sid ≠ none)
    (meant : (({} : System).run u before).engine.storeIDOf info = sid) :
    let start := ({} : System).run u before
    let after := fun soFar : List Op => ({} : System).run u (before ++ .beginDisconnect info :: soFar)
    ((∀ p ∈ (after during).pending, p.storeID ≠ sid) →
      ∀ key, ∀ s ∈ (after during).engine.sourcesOf key, s.owner ≠ sid) ∧
    OnlyOwn sid start.engine (start.step u (.beginDisconnect info)).engine ∧
    ∀ soFar i rest p, during = soFar ++ .resumeDisconnect i :: rest → (after soFar).pending[i]? = some p →
      p.storeID = sid → OnlyOwn sid (after soFar).engine (after (soFar ++ [.resumeDisconnect i])).engine ∧
        ∀ p', ((after soFar).engine.resumeDisconnect p).2 = some p' → p'.rest.length < p.rest.length := by
  obtain ⟨honestBefore,_,honestDuring⟩ := (honestRun_append {} before _).mp honest
  obtain ⟨sound,contents⟩ := reached_sound u before
  have owned := reached_owned u before honestBefore
  refine ⟨fun finished key s member mine => ?_,?_,?_⟩
  · -- the session is neither connected nor on its way out, so nobody answers for its source
    have bound : sid ≠ 0 ∧ sid ≤ (({} : System).run u before).engine.nextClientID := by
      obtain ⟨c,found⟩ := Option.ne_none_iff_exists'.mp connected
      exact ⟨(owned.keyed sid c found).1,(owned.keyed sid c found).2.1⟩
    obtain ⟨next,clients⟩ := start_clients sound info
    have departed : ((({} : System).run u before).step u (.beginDisconnect info)).engine.Departed sid := by
      refine ⟨?_,?_⟩
      · exact Nat.le_trans bound.2 (Nat.le_of_eq next.symm)
      · exact (clients sid).trans (if_pos ⟨meant.symm,bound.1⟩)
    obtain ⟨sound₁,contents₁⟩ := step_sound _ sound contents (.beginDisconnect info)
    have gone := run_departed _ during sound₁ contents₁ departed honestDuring
    have ownedAfter := reached_owned u _ honest
    rcases ownedAfter.present key s member with ⟨_,found⟩ | ⟨p,inside,own,_⟩
    · rw [mine,run_append] at found
      exact absurd (gone.2.symm.trans found) (by simp)
    · exact finished p inside (own.trans mine)
  · rw [← meant]
    exact start_onlyOwn sound info
  · intro soFar i _ p _ atIndex own
    have soundMid := (reached_sound u (before ++ .beginDisconnect info :: soFar)).1
    have shape : ({} : System).run u (before ++ .beginDisconnect info :: (soFar ++ [.resumeDisconnect i])) =
        (({} : System).run u (before ++ .beginDisconnect info :: soFar)).step u (.resumeDisconnect i) := by
      rw [← cons_append,← append_assoc,run_append]
      rfl
    refine ⟨?_,fun _ left => ?_⟩
    · dsimp only
      rw [shape,← own]
      simp only [step,atIndex]
      exact resume_onlyOwn soundMid p
    · simp only [resumeDisconnect] at left
      split at left
      · cases left
      · exact (chunk_rest left).2

/-- A session that offers from another's address is listed twice; who then takes its own
address takes the file off its list, and the `Disconnect` passes the other source by. -/
theorem disconnect_passes_by :
    let file : File := { hash := replicate 16 1, name := lit "a", size := 5 }
    let at_ (address storeID : Nat) : ClientInfo := { id := address, port := 4662, storeID := storeID }
    let after := ({} : System).run Unicode.ascii [.connect (at_ 7 0),.connect (at_ 8 0),.connect (at_ 9 0),
      .offer [file] (at_ 8 2),.offer [file] (at_ 7 1),.offer [file] (at_ 8 1),.offer [file] (at_ 7 3),
      .beginDisconnect (at_ 7 1)]
    after.pending.isEmpty ∧ (after.engine.sourcesOf (hashArray file.hash)).map (·.owner) = [1,3] := by
  decide +kernel

/-- Whoever calls, a live record is found by its key and, while the word ids last, under the
words of its name. -/
theorem any_run_finds (u : Unicode) (ops : List Op) :
    let e := (({} : System).run u ops).engine
    (∀ key n id, e.findLocked key n = some id ↔
      (e.record id).live = true ∧ (e.record id).hash = key ∧ (e.record id).size = n) ∧
    (e.names.words.length ≤ 2^32 →
      ∀ id, (e.record id).live = true → ∀ w ∈ nameWords u (e.record id).name, e.names.Lists w id) ∧
    e.count = e.recs.countP (·.live) := by
  obtain ⟨⟨good,_⟩,contents⟩ := reached_sound u ops
  refine ⟨fun _ _ id => ?_,fun fits id live w word => (contents.named fits).2 w id ⟨live,word⟩,good.counted⟩
  rw [Chained.find_spec good,good.members,and_assoc]

end System

end ENode.Storage
