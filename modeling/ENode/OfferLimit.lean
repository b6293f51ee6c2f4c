import ENode.FileRecords
import ENode.MemoryUserHashes

/-! What a session may publish. A packet of offered files is screened record by record; what is left
goes through the soft limit, which lets a session's own files pass and counts the new ones, and is
then stored in one call. -/
namespace ENode.Ed2k

open GoText ByteNumbers Storage List

/-- What the server refuses to index at the time of a packet. -/
structure OfferFilter where
  rejectOfferedFile : Bytes → Bool
  /-- Refused, for the ban list, for a keyword. -/
  checkOffer : Bytes → Bytes → Bool × Bool × Bool
  banThreshold : Int
  keywordBanThreshold : Int

structure OfferLimits where
  softLimit : Int
  hardLimit : Int

structure OfferSession where
  system : System
  hardLimitHit : Bool := false
  banlistDropped : Bool := false
  softLimitWarned : Bool := false
  banlistHits : List Bytes := []
  keywordHits : List Bytes := []

def noteHit (hits : List Bytes) (hash : Bytes) : List Bytes := if hits.contains hash then hits else hash :: hits

def noteBanlistHit (filter : OfferFilter) (s : OfferSession) (hash : Bytes) : OfferSession × Bool :=
  if filter.banThreshold ≤ 0 ∨ hash.length ≠ 16 then (s,false)
  else
    let hits := noteHit s.banlistHits hash
    ({ s with banlistHits := hits },decide ((hits.length : Int) > filter.banThreshold))

def noteKeywordHit (filter : OfferFilter) (s : OfferSession) (hash : Bytes) : OfferSession × Bool :=
  if filter.keywordBanThreshold ≤ 0 ∨ hash.length ≠ 16 then (s,false)
  else
    let hits := noteHit s.keywordHits hash
    ({ s with keywordHits := hits },decide ((hits.length : Int) ≥ filter.keywordBanThreshold))

variable (u : Unicode)

def fileFromRecord (record : FileRecord) (info : ClientInfo) : File :=
  { hash := record.hash
    name := record.name
    size := record.size
    type := if record.type = [] ∧ record.name ≠ [] then getFileType u record.name else record.type
    sources := record.sources
    completed := if record.complete then 1 else 0
    title := record.title
    artist := record.artist
    album := record.album
    runtime := record.length
    bitrate := record.bitrate
    codec := record.codec
    sourceID := info.id
    sourcePort := info.port }

/-- A refused file, which may be one too many; the second check is made when the first does not decide. -/
def noteRefused (filter : OfferFilter) (s : OfferSession) (hash : Bytes) (banlist keyword : Bool) :
    OfferSession × Bool :=
  let (s,drop) := if banlist then noteBanlistHit filter s hash else (s,false)
  if drop then (s,true) else if keyword then noteKeywordHit filter s hash else (s,false)

/-- The records that are indexed; none when the session is dropped. -/
def screenOffer (filter : OfferFilter) (info : ClientInfo) :
    OfferSession → List FileRecord → OfferSession × Option (List File)
  | s, [] => (s,some [])
  | s, r :: rest =>
    if r.size = 0 ∨ filter.rejectOfferedFile r.hash then screenOffer filter info s rest
    else
      let (refused,banlist,keyword) := filter.checkOffer r.hash r.name
      if refused then
        let (s,drop) := noteRefused filter s r.hash banlist keyword
        if drop then ({ s with banlistDropped := true },none) else screenOffer filter info s rest
      else
        let (s,batch) := screenOffer filter info s rest
        (s,batch.map (fileFromRecord u r info :: ·))

/-- Each file and whether it passes. A file listed twice takes the room of one. -/
def judgeOffer : Int → List MapKey → List (File × Bool) → List (File × Bool)
  | _, _, [] => []
  | room, admitted, (file,known) :: rest =>
    if admitted.contains file.mapKey || known then (file,true) :: judgeOffer room admitted rest
    else if room > 0 then (file,true) :: judgeOffer (room - 1) (file.mapKey :: admitted) rest
    else (file,false) :: judgeOffer room admitted rest

def judgedOffer (e : MemoryEngine) (batch : List File) (info : ClientInfo) (softLimit : Int) : List (File × Bool) :=
  let have' := e.offeredCount info
  if softLimit ≤ 0 ∨ batch = [] ∨ (have' + batch.length : Nat) ≤ softLimit then batch.map (·,true)
  else judgeOffer (softLimit - have') [] (batch.zip (e.hasOffered info batch))

/-- The files that pass, and how many were held back. -/
def withinSoftLimit (e : MemoryEngine) (batch : List File) (info : ClientInfo) (softLimit : Int) : List File × Nat :=
  let judged := judgedOffer e batch info softLimit
  ((judged.filter (·.2)).map (·.1),judged.countP (!·.2))

def declaredFileCount (data : Bytes) : Option Nat := if data.length < 4 then none else some (leValue (data.take 4))

/-- The files of a packet that reach the soft limit. -/
def offeredBatch (limits : OfferLimits) (filter : OfferFilter) (info : ClientInfo) (s : OfferSession) (data : Bytes) :
    OfferSession × List File :=
  if s.hardLimitHit || s.banlistDropped then (s,[])
  -- the limit is narrowed to 32 bits for the comparison
  else if (declaredFileCount data).any (fun declared => limits.hardLimit > 0 ∧ limits.hardLimit % 2 ^ 32 ≤ declared) then
    ({ s with hardLimitHit := true },[])
  else match getFileList false data with
    | .error _ => (s,[])
    | .ok (records,_) =>
      let (s,batch) := screenOffer u filter info s records
      (s,batch.getD [])

def handleOfferFiles (limits : OfferLimits) (info : ClientInfo) (s : OfferSession) (filter : OfferFilter)
    (data : Bytes) : OfferSession :=
  let (s,batch) := offeredBatch u limits filter info s data
  let (kept,skipped) := withinSoftLimit s.system.engine batch info limits.softLimit
  { s with softLimitWarned := s.softLimitWarned || decide (skipped > 0)
           system := s.system.step u (.offer kept info) }

/-- A packet of the session, or what anybody else does to the engine between two of them. -/
inductive OfferEvent where
  | packet (filter : OfferFilter) (data : Bytes)
  | other (op : Op)

def offerStep (limits : OfferLimits) (info : ClientInfo) (s : OfferSession) : OfferEvent → OfferSession
  | .packet filter data => handleOfferFiles u limits info s filter data
  | .other op => { s with system := s.system.step u op }

def offerRun (limits : OfferLimits) (info : ClientInfo) (s : OfferSession) (events : List OfferEvent) : OfferSession :=
  events.foldl (offerStep u limits info) s

/-- The others offer under their own store ids, and the session is not ended. -/
def Apart (sid : Nat) (s : System) (op : Op) : Prop :=
  s.Honest op ∧ (∀ files info, op = .offer files info → info.storeID ≠ sid) ∧
    (s.step u op).engine.clients.lookup sid ≠ none

def Undisturbed (limits : OfferLimits) (info : ClientInfo) (s : OfferSession) (events : List OfferEvent) : Prop :=
  ∀ seen op rest, events = seen ++ .other op :: rest → Apart u info.storeID (offerRun u limits info s seen).system op

variable {file : File}

section
variable {known : File → Bool}

/-- The files that passed and were not there before, each hash and size once. -/
def newFiles (known : File → Bool) (judged : List (File × Bool)) : Finset MapKey :=
  ((judged.filter fun j => j.2 && !known j.1).map fun j => j.1.mapKey).toFinset

theorem newFiles_passed (file : File) (judged : List (File × Bool)) : newFiles known ((file,true) :: judged) =
      if known file then newFiles known judged else insert file.mapKey (newFiles known judged) := by
  rw [newFiles,filter_cons]
  cases known file <;> simp [newFiles]

theorem newFiles_refused (file : File) (judged : List (File × Bool)) :
    newFiles known ((file,false) :: judged) = newFiles known judged := rfl

theorem newFiles_free {admitted : List MapKey} (free : (admitted.contains file.mapKey || known file) = true)
    (judged : List (File × Bool)) :
    newFiles known ((file,true) :: judged) \ admitted.toFinset = newFiles known judged \ admitted.toFinset := by
  rw [newFiles_passed]
  cases own : known file with
  | true => rfl
  | false =>
    rw [own,Bool.or_false,contains_iff_mem] at free
    exact Finset.insert_sdiff_of_mem _ (mem_toFinset.mpr free)

theorem newFiles_taken {admitted : List MapKey} (fresh : ¬(admitted.contains file.mapKey || known file) = true)
    (judged : List (File × Bool)) : (newFiles known ((file,true) :: judged) \ admitted.toFinset).card =
      (newFiles known judged \ (file.mapKey :: admitted).toFinset).card + 1 := by
  rw [Bool.not_eq_true,Bool.or_eq_false_iff] at fresh
  have outside : file.mapKey ∉ admitted.toFinset := by
    rw [mem_toFinset,← contains_iff_mem,fresh.1]
    exact Bool.false_ne_true
  rw [newFiles_passed,if_neg (by rw [fresh.2]; exact Bool.false_ne_true),Finset.insert_sdiff_of_notMem _ outside,
    toFinset_cons,Finset.sdiff_insert,← Finset.erase_insert_eq_erase,
    Finset.card_erase_add_one (Finset.mem_insert_self ..)]

/-- How a batch is judged, file by file, from the room left and what has taken some. -/
inductive Judged (known : File → Bool) : Int → List MapKey → List File → List (File × Bool) → Prop where
  | nil (room : Int) (admitted : List MapKey) : Judged known room admitted [] []
  | free {room : Int} {admitted : List MapKey} {file : File} {batch : List File} {rest : List (File × Bool)}
      (free : (admitted.contains file.mapKey || known file) = true) (later : Judged known room admitted batch rest) :
      Judged known room admitted (file :: batch) ((file,true) :: rest)
  | taken {room : Int} {admitted : List MapKey} {file : File} {batch : List File} {rest : List (File × Bool)}
      (fresh : ¬(admitted.contains file.mapKey || known file) = true) (fits : room > 0)
      (later : Judged known (room - 1) (file.mapKey :: admitted) batch rest) :
      Judged known room admitted (file :: batch) ((file,true) :: rest)
  | refused {room : Int} {admitted : List MapKey} {file : File} {batch : List File} {rest : List (File × Bool)}
      (fresh : ¬(admitted.contains file.mapKey || known file) = true) (full : ¬room > 0)
      (later : Judged known room admitted batch rest) :
      Judged known room admitted (file :: batch) ((file,false) :: rest)

theorem judgeOffer_judged (room : Int) (admitted : List MapKey) (batch : List File) :
    Judged known room admitted batch (judgeOffer room admitted (batch.map fun f => (f,known f))) := by
  induction batch generalizing room admitted with
  | nil => exact .nil room admitted
  | cons _ _ ih =>
    rw [map_cons,judgeOffer]
    split_ifs with free fits
    · exact .free free (ih ..)
    · exact .taken free fits (ih ..)
    · exact .refused free fits (ih ..)

namespace Judged

variable {room : Int} {admitted : List MapKey} {batch : List File} {judged : List (File × Bool)}

section
variable (j : Judged known room admitted batch judged)
include j

theorem files : judged.map Prod.fst = batch := by
  induction j with
  | nil => rfl
  | free _ _ ih => exact congrArg _ ih
  | taken _ _ _ ih => exact congrArg _ ih
  | refused _ _ _ ih => exact congrArg _ ih

theorem known_passes : ∀ verdict ∈ judged, known verdict.1 = true → verdict.2 = true := by
  induction j with
  | nil => exact fun _ none_ => absurd none_ not_mem_nil
  | free _ _ ih => exact forall_mem_cons.mpr ⟨fun _ => rfl,ih⟩
  | taken _ _ _ ih => exact forall_mem_cons.mpr ⟨fun _ => rfl,ih⟩
  | refused fresh _ _ ih =>
    refine forall_mem_cons.mpr ⟨fun own => absurd ?_ fresh,ih⟩
    rw [own,Bool.or_true]

theorem new_le : ((newFiles known judged \ admitted.toFinset).card : Int) ≤ max room 0 := by
  induction j with
  | nil => simp [newFiles]
  | free free _ ih =>
    rw [newFiles_free free]
    exact ih
  | taken fresh _ _ ih =>
    rw [newFiles_taken fresh]
    omega
  | refused _ _ _ ih =>
    rw [newFiles_refused]
    exact ih

theorem refused_full (earlier later : List (File × Bool)) (file : File)
    (shape : judged = earlier ++ (file,false) :: later) :
    room ≤ (newFiles known earlier \ admitted.toFinset).card := by
  induction j generalizing earlier with
  | nil => simp at shape
  | free free _ ih =>
    cases earlier with
    | nil => cases shape
    | cons verdict earlier =>
      obtain ⟨rfl,tail⟩ := cons.inj shape
      rw [newFiles_free free]
      exact ih earlier tail
  | taken fresh _ _ ih =>
    cases earlier with
    | nil => cases shape
    | cons _ earlier =>
      obtain ⟨rfl,tail⟩ := cons.inj shape
      have rest := ih earlier tail
      rw [newFiles_taken fresh]
      omega
  | refused _ _ _ _ => omega

end

end Judged

end

section
open MemoryEngine

/-- Whether a session is a source of a file's hash. It is one at a single size: a file offered again at
another size replaces it. -/
def sourcesHash (e : MemoryEngine) (sid : Nat) (file : File) : Bool :=
  (e.sourcesOf (hashArray file.hash)).any fun s => s.owner == sid

def sourcedFiles (e : MemoryEngine) (sid : Nat) : List MapKey :=
  (e.sourcedBy sid).flatMap fun key => ((e.sourcesOf key).filter fun s => s.owner == sid).map fun s => (key,s.size)

variable {e e' : MemoryEngine} {sid : Nat} {u : Unicode}

theorem sourcedFiles_length (owned : e.Owned pending) (sid : Nat) :
    (sourcedFiles e sid).length = (e.sourcedBy sid).length := by
  have one : ∀ key ∈ e.sourcedBy sid,
      (((e.sourcesOf key).filter fun s => s.owner == sid).map fun s => (key,s.size)).length = 1 := by
    intro key member
    obtain ⟨_,inside,mine⟩ := (e.mem_sourcedBy sid key).mp member
    have count := count_eq_one_of_mem (owned.once key) (mem_map_of_mem inside)
    rw [length_map,← countP_eq_length_filter,← count,List.count,countP_map,mine]
    rfl
  rw [sourcedFiles,length_flatMap,map_congr_left one]
  simp

/-- No hash has become one of the session's. -/
def NoNewSource (sid : Nat) (e e' : MemoryEngine) : Prop :=
  ∀ key, ∀ s ∈ e'.sourcesOf key, s.owner = sid → ∃ t ∈ e.sourcesOf key, t.owner = sid

theorem NoNewSource.of_sublist (fewer : ∀ key, (e'.sourcesOf key).Sublist (e.sourcesOf key)) : NoNewSource sid e e' :=
  fun key s member mine => ⟨s,(fewer key).subset member,mine⟩

theorem NoNewSource.of_eq (same : e'.sourcesOf = e.sourcesOf) : NoNewSource sid e e' :=
  .of_sublist fun _ => by rw [same]

theorem NoNewSource.trans (first : NoNewSource sid e e') (second : NoNewSource sid e' e'') :
    NoNewSource sid e e'' := by
  intro key s member mine
  obtain ⟨t,inside,its⟩ := second key s member mine
  exact first key t inside its

variable {info : ClientInfo}

/-- An offer adds sources to the hashes it names, and only the offering session's. -/
theorem addFile_sources (sound : e.Sound) (owned : e.Owned pending) (honest : e.Honest info)
    (member : s ∈ (addFileLocked u info e file).sourcesOf key) :
    s ∈ e.sourcesOf key ∨ s.owner = info.storeID ∧ key = hashArray file.hash := by
  cases connected : e.clients.lookup info.storeID with
  | none =>
    rw [addFile_refused u honest.1 connected] at member
    exact .inl member
  | some c =>
    obtain ⟨_,_,storeID,peer⟩ := owned.keyed _ c connected
    have own : c.peer.storeID = info.storeID := by rw [peer]; exact storeID
    obtain ⟨shape,owner⟩ := addFile_connected u honest.1 connected own file
    obtain ⟨sound₁,keeps,known⟩ := store_sound u sound (normalizeFile u file)
    rw [shape,(offered_spec sound₁ known _).2.2.1,keeps.sources] at member
    by_cases here : key = hashArray (normalizeFile u file).hash
    · subst here
      rw [Function.update_self] at member
      rcases mem_append.mp member with old | new
      · exact .inl (eraseP_subset old)
      · rw [mem_singleton.mp new]
        exact .inr ⟨owner,rfl⟩
    · rw [Function.update_of_ne here] at member
      exact .inl member

theorem addFiles_sources {files : List File} (sound : e.Sound) (owned : e.Owned pending)
    (honest : e.Honest info) (member : s ∈ (e.addFiles u files info).sourcesOf key) :
    s ∈ e.sourcesOf key ∨ s.owner = info.storeID ∧ ∃ f ∈ files, key = hashArray f.hash := by
  induction files generalizing e with
  | nil => exact .inl member
  | cons file _ ih =>
    obtain ⟨sound₁,owned₁,honest₁⟩ := owned.addFile u sound honest file
    rcases ih sound₁ owned₁ honest₁ member with old | ⟨mine,f,inside,here⟩
    · rcases addFile_sources sound owned honest old with older | ⟨mine,here⟩
      · exact .inl older
      · exact .inr ⟨mine,file,.head _,here⟩
    · exact .inr ⟨mine,f,.tail _ inside,here⟩

theorem NoNewSource.cleanupStale (sound : e.Sound) (maxAge : Int) (keep : Bool) :
    NoNewSource sid e (e.cleanupStale u maxAge keep).1 := by
  refine (cleanupStale_rule (fun a => a.Sound ∧ NoNewSource sid e a) maxAge keep ⟨sound,.of_eq rfl⟩ ?_ ?_ ?_).2
  · obtain ⟨sound₁,keeps⟩ := cleanup_fold u (List.range e.recs.length) (e,0) sound
    exact ⟨sound₁,.of_eq keeps.sources⟩
  · exact fun _ held => ⟨(purge_sound held.1 _).1,held.2.trans (.of_eq rfl)⟩
  · intro _ held
    obtain ⟨sound₁,same⟩ := rebuild_sound u held.1
    exact ⟨sound₁,held.2.trans (.of_eq same)⟩

theorem NoNewSource.finish (fuel : Nat) (state : MemoryEngine × Option Pending) (sound : state.1.Sound) :
    NoNewSource sid state.1 (finishDisconnect fuel state) := by
  refine (finish_rule (fun a => a.Sound ∧ NoNewSource sid state.1 a) (fun _ p held => ?_) fuel state ⟨sound,.of_eq rfl⟩).2
  exact ⟨(resume_sound held.1 p).1,held.2.trans (.of_sublist (resume_onlyOwn held.1 p).sublist)⟩

/-- Whatever the others do, no file becomes the session's. -/
theorem step_noNewSource {s : System} (sound : s.engine.Sound) (contents : Contents u s.engine)
    (owned : s.engine.Owned s.pending) (apart : Apart u sid s op) :
    NoNewSource sid s.engine (s.step u op).engine := by
  obtain ⟨honest,others,_⟩ := apart
  cases op with
  | connect info => exact .of_eq rfl
  | offer files info =>
    intro key t member mine
    rcases addFiles_sources sound owned honest member with old | ⟨theirs,_⟩
    · exact ⟨t,old,mine⟩
    · exact absurd (theirs.symm.trans mine) (others files info rfl)
  | disconnect info =>
    exact (NoNewSource.of_sublist (start_onlyOwn sound info).sublist).trans
      (.finish _ _ (start_sound sound contents info).1)
  | beginDisconnect info => exact .of_sublist (start_onlyOwn sound info).sublist
  | resumeDisconnect _ =>
    simp only [System.step]
    split
    · exact .of_eq rfl
    · exact .of_sublist (resume_onlyOwn sound _).sublist
  | cleanupStale maxAge keep => exact .cleanupStale sound maxAge keep
  | rebuild => exact .of_eq (rebuild_sound u sound).2
  | install files _ =>
    intro key t member _
    have none_ : t ∈ s.engine.emptied.sourcesOf key := by
      rw [← (install_sound u s.engine files).2.sources]
      exact member
    rw [s.engine.emptied_sound.2 key] at none_
    cases none_
  | releaseIndex => exact fun _ _ member _ => absurd member not_mem_nil
  | importHandoff _ => exact honest.elim

theorem sourcesHash_iff (e : MemoryEngine) (sid : Nat) (file : File) :
    sourcesHash e sid file = true ↔ hashArray file.hash ∈ e.sourcedBy sid := by
  rw [mem_sourcedBy,sourcesHash,any_eq_true]
  simp only [beq_iff_eq]

/-- What the judged files add to the session's. -/
theorem sourcedBy_addFiles (sound : e.Sound) (owned : e.Owned pending) (honest : e.Honest info)
    (judged : List (File × Bool)) :
    ((e.addFiles u ((judged.filter (·.2)).map (·.1)) info).sourcedBy info.storeID).length ≤
      (e.sourcedBy info.storeID).length + (newFiles (sourcesHash e info.storeID) judged).card := by
  have grows : ((e.addFiles u ((judged.filter (·.2)).map (·.1)) info).sourcedBy info.storeID).toFinset ⊆
      (e.sourcedBy info.storeID).toFinset ∪ (newFiles (sourcesHash e info.storeID) judged).image Prod.fst := by
    intro _ member
    obtain ⟨s,inside,mine⟩ := (mem_sourcedBy ..).mp (mem_toFinset.mp member)
    rw [Finset.mem_union,mem_toFinset,Finset.mem_image]
    rcases addFiles_sources sound owned honest inside with old | ⟨_,f,passed,here⟩
    · exact .inl ((mem_sourcedBy ..).mpr ⟨s,old,mine⟩)
    · by_cases own : sourcesHash e info.storeID f = true
      · rw [here]
        exact .inl ((sourcesHash_iff ..).mp own)
      · obtain ⟨j,passes,rfl⟩ := mem_map.mp passed
        obtain ⟨verdict,yes⟩ := mem_filter.mp passes
        refine .inr ⟨j.1.mapKey,mem_toFinset.mpr (mem_map.mpr ⟨j,mem_filter.mpr ⟨verdict,?_⟩,rfl⟩),
          here.symm⟩
        rw [yes,Bool.true_and,Bool.eq_false_iff.mpr own]
        rfl
  rw [← toFinset_card_of_nodup (sourcedBy_nodup ..),← toFinset_card_of_nodup (e.sourcedBy_nodup _)]
  exact (Finset.card_le_card grows).trans ((Finset.card_union_le ..).trans
    (Nat.add_le_add_left Finset.card_image_le _))

/-- A session on its way, as its next packet finds it. -/
structure Serving (u : Unicode) (info : ClientInfo) (s : OfferSession) : Prop where
  sound : s.system.engine.Sound
  contents : Contents u s.system.engine
  owned : s.system.engine.Owned s.system.pending
  here : s.system.engine.infoOf info.storeID = some info

namespace Serving

variable {info : ClientInfo} {s : OfferSession}

section
variable (serving : Serving u info s)
include serving

theorem connected : ∃ c, s.system.engine.clients.lookup info.storeID = some c ∧ c.info = info :=
  Option.map_eq_some_iff.mp serving.here

theorem honest : s.system.engine.Honest info := by
  obtain ⟨c,connected,same⟩ := serving.connected
  refine ⟨(serving.owned.keyed _ c connected).1,fun _ found => ?_⟩
  rw [connected] at found
  rw [← Option.some.inj found,same]

theorem storeIDOf : s.system.engine.storeIDOf info = info.storeID :=
  if_neg serving.honest.1

theorem offeredCount : s.system.engine.offeredCount info = (s.system.engine.sourcedBy info.storeID).length := by
  obtain ⟨_,connected,_⟩ := serving.connected
  unfold MemoryEngine.offeredCount
  rw [serving.storeIDOf,connected]
  exact serving.owned.offered_length serving.sound connected

variable (batch : List File)

theorem hasOffered :
    s.system.engine.hasOffered info batch = batch.map (sourcesHash s.system.engine info.storeID) := by
  rw [hasOffered_eq serving.sound.placed,serving.storeIDOf]
  obtain ⟨_,connected,_⟩ := serving.connected
  rw [connected]
  rfl

theorem judgedOffer (softLimit : Int) :
    (softLimit ≤ 0 ∨ ((s.system.engine.sourcedBy info.storeID).length + batch.length : Int) ≤ softLimit) ∧
      judgedOffer s.system.engine batch info softLimit = batch.map (·,true) ∨
    Judged (sourcesHash s.system.engine info.storeID) (softLimit - (s.system.engine.sourcedBy info.storeID).length) []
      batch (judgedOffer s.system.engine batch info softLimit) := by
  unfold Ed2k.judgedOffer
  dsimp only
  have pairs : batch.zip (batch.map (sourcesHash s.system.engine info.storeID)) =
      batch.map fun f => (f,sourcesHash s.system.engine info.storeID f) := by
    simpa using zip_map' (f := id) (g := sourcesHash s.system.engine info.storeID) (l := batch)
  rw [serving.offeredCount,serving.hasOffered,pairs]
  split_ifs with fits
  · rcases fits with off | rfl | fits
    · exact .inl ⟨.inl off,rfl⟩
    · exact .inr (.nil ..)
    · exact .inl ⟨.inr (by exact_mod_cast fits),rfl⟩
  · exact .inr (judgeOffer_judged ..)

theorem judged_files (softLimit : Int) :
    (Ed2k.judgedOffer s.system.engine batch info softLimit).map Prod.fst = batch := by
  rcases serving.judgedOffer batch softLimit with ⟨_,all⟩ | judged
  · rw [all,map_map]
    exact map_id batch
  · exact judged.files

theorem judged_known (softLimit : Int) : ∀ j ∈ Ed2k.judgedOffer s.system.engine batch info softLimit,
      sourcesHash s.system.engine info.storeID j.1 = true → j.2 = true := by
  rcases serving.judgedOffer batch softLimit with ⟨_,all⟩ | judged
  · rw [all]
    intro _ member _
    obtain ⟨_,_,rfl⟩ := mem_map.mp member
    rfl
  · exact judged.known_passes

theorem judged_refused {batch : List File}
    (shape : Ed2k.judgedOffer s.system.engine batch info softLimit = earlier ++ (file,false) :: later) :
    0 < softLimit ∧ softLimit ≤ (s.system.engine.sourcedBy info.storeID).length +
      (newFiles (sourcesHash s.system.engine info.storeID) earlier).card := by
  have not_all : Ed2k.judgedOffer s.system.engine batch info softLimit ≠ batch.map (·,true) := by
    intro all
    have refused : (file,false) ∈ batch.map (·,true) := by
      rw [← all,shape]
      exact mem_append_right _ (.head _)
    obtain ⟨_,_,equal⟩ := mem_map.mp refused
    cases equal
  have limited : 0 < softLimit := not_le.mp fun off => not_all (if_pos (.inl off))
  rcases serving.judgedOffer batch softLimit with ⟨_,all⟩ | judged
  · exact absurd all not_all
  · have full := judged.refused_full earlier later file shape
    rw [toFinset_nil,Finset.sdiff_empty] at full
    exact ⟨limited,by omega⟩

theorem judged_new (limited : 0 < softLimit)
    (before : ((s.system.engine.sourcedBy info.storeID).length : Int) ≤ softLimit) :
    ((s.system.engine.sourcedBy info.storeID).length + (newFiles (sourcesHash s.system.engine info.storeID)
      (Ed2k.judgedOffer s.system.engine batch info softLimit)).card : Int) ≤ softLimit := by
  rcases serving.judgedOffer batch softLimit with ⟨_,all⟩ | judged
  · rw [all]
    have few : (newFiles (sourcesHash s.system.engine info.storeID) (batch.map (·,true))).card ≤ batch.length := by
      refine (toFinset_card_le _).trans ?_
      rw [length_map]
      exact (length_filter_le ..).trans_eq (length_map ..)
    omega
  · have new := judged.new_le
    rw [toFinset_nil,Finset.sdiff_empty] at new
    omega

end

end Serving

section
variable (limits : OfferLimits) (filter : OfferFilter) (info : ClientInfo)

theorem noteRefused_system (s : OfferSession) (hash : Bytes) (banlist keyword : Bool) :
    (noteRefused filter s hash banlist keyword).1.system = s.system := by
  have banned : (noteBanlistHit filter s hash).1.system = s.system := by
    unfold noteBanlistHit
    split <;> rfl
  have worded : ∀ s' : OfferSession, (noteKeywordHit filter s' hash).1.system = s'.system := by
    intro _
    unfold noteKeywordHit
    split <;> rfl
  have first : (if banlist then noteBanlistHit filter s hash else (s,false)).1.system = s.system := by
    split
    · exact banned
    · rfl
  unfold noteRefused
  generalize (if banlist then noteBanlistHit filter s hash else (s,false)) = noted at first ⊢
  dsimp only
  split
  · exact first
  split
  · exact (worded _).trans first
  · exact first

theorem screenOffer_system (s : OfferSession) (records : List FileRecord) :
    (screenOffer u filter info s records).1.system = s.system := by
  induction records generalizing s with
  | nil => rfl
  | cons _ _ ih =>
    unfold screenOffer
    split
    · exact ih s
    dsimp only
    split
    · split
      · exact noteRefused_system ..
      · exact (ih _).trans (noteRefused_system ..)
    · exact ih s

theorem offeredBatch_system (s : OfferSession) (data : Bytes) :
    (offeredBatch u limits filter info s data).1.system = s.system := by
  unfold offeredBatch
  split
  · rfl
  split
  · rfl
  split
  · rfl
  · exact screenOffer_system ..

theorem packet_system (s : OfferSession) (data : Bytes) :
    (handleOfferFiles u limits info s filter data).system = s.system.step u (.offer
      (((Ed2k.judgedOffer s.system.engine (offeredBatch u limits filter info s data).2 info limits.softLimit).filter
        (·.2)).map (·.1)) info) := by
  have same := offeredBatch_system (u := u) limits filter info s data
  unfold handleOfferFiles withinSoftLimit
  dsimp only
  rw [same]

theorem step_info {s : System} (sound : s.engine.Sound) (contents : Contents u s.engine)
    (owned : s.engine.Owned s.pending) (honest : s.Honest op) (was : s.engine.infoOf sid ≠ none) :
    (s.step u op).engine.infoOf sid = s.engine.infoOf sid ∨ (s.step u op).engine.infoOf sid = none := by
  have effect := System.step_sessions s sound contents op (fun _ imported => by subst imported; exact honest)
  generalize (s.step u op).engine = after at effect ⊢
  cases effect with
  | kept same next => exact .inl (congrFun same.infos sid)
  | connected info =>
    obtain ⟨c,connected⟩ := Option.ne_none_iff_exists'.mp (fun gone => was (infoOf_eq_none.mpr gone))
    have old := (owned.keyed sid c connected).2.1
    refine .inl (((s.engine.connect_lookup info).1 sid).trans (if_neg ?_))
    omega
  | left _ _ _ _ infos byHash next =>
    rw [infos]
    split
    · exact .inr rfl
    · exact .inl rfl
  | released infos _ _ => exact .inr (infos sid)

variable {limits filter info}

theorem Serving.other (serving : Serving u info s) (apart : Apart u info.storeID s.system op) :
    Serving u info { s with system := s.system.step u op } := by
  obtain ⟨sound,contents⟩ := System.step_sound s.system serving.sound serving.contents op
  have was : s.system.engine.infoOf info.storeID ≠ none := by
    rw [serving.here]
    exact Option.some_ne_none _
  refine ⟨sound,contents,System.step_owned s.system serving.sound serving.owned op apart.1,?_⟩
  rcases step_info serving.sound serving.contents serving.owned apart.1 was with same | gone
  · exact same.trans serving.here
  · exact absurd (Option.map_eq_none_iff.mp gone) apart.2.2

theorem Serving.packet (serving : Serving u info s) (data : Bytes) :
    Serving u info (handleOfferFiles u limits info s filter data) := by
  have stored := packet_system (u := u) limits filter info s data
  obtain ⟨sound,contents⟩ := System.step_sound s.system serving.sound serving.contents _
  refine ⟨?_,?_,?_,?_⟩
  all_goals rw [stored]
  · exact sound
  · exact contents
  · exact System.step_owned s.system serving.sound serving.owned _ serving.honest
  · exact (congrFun (addFiles_sessions _ serving.sound serving.contents info).infos _).trans serving.here

theorem NoNewSource.length (fewer : NoNewSource sid e e') : (e'.sourcedBy sid).length ≤ (e.sourcedBy sid).length := by
  refine ((e'.sourcedBy_nodup sid).subperm fun key member => ?_).length_le
  obtain ⟨s,inside,mine⟩ := (mem_sourcedBy ..).mp member
  exact (mem_sourcedBy ..).mpr (fewer key s inside mine)

theorem Serving.packet_bounded (serving : Serving u info s) (data : Bytes) (limited : 0 < limits.softLimit)
    (before : ((s.system.engine.sourcedBy info.storeID).length : Int) ≤ limits.softLimit) :
    (((handleOfferFiles u limits info s filter data).system.engine.sourcedBy info.storeID).length : Int) ≤
      limits.softLimit := by
  rw [packet_system (u := u) limits filter info s data]
  have grown := sourcedBy_addFiles (u := u) serving.sound serving.owned serving.honest
    (Ed2k.judgedOffer s.system.engine (offeredBatch u limits filter info s data).2 info limits.softLimit)
  have room := serving.judged_new (offeredBatch u limits filter info s data).2 limited before
  exact (Int.ofNat_le.mpr grown).trans (by exact_mod_cast room)

/-- Over a whole session, with the others at work between its packets. -/
theorem run_serving (serving : Serving u info s)
    (before : 0 < limits.softLimit → ((s.system.engine.sourcedBy info.storeID).length : Int) ≤ limits.softLimit)
    (undisturbed : Undisturbed u limits info s events) :
    Serving u info (offerRun u limits info s events) ∧ (0 < limits.softLimit →
      (((offerRun u limits info s events).system.engine.sourcedBy info.storeID).length : Int) ≤ limits.softLimit) := by
  induction events generalizing s with
  | nil => exact ⟨serving,before⟩
  | cons event events ih =>
    have later : Undisturbed u limits info (offerStep u limits info s event) events :=
      fun seen op rest shape => undisturbed (event :: seen) op rest (congrArg _ shape)
    cases event with
    | packet _ data =>
      exact ih (serving.packet data) (fun limited => serving.packet_bounded data limited (before limited)) later
    | other op =>
      have apart := undisturbed [] op events rfl
      have fewer := step_noNewSource serving.sound serving.contents serving.owned apart
      exact ih (serving.other apart) (fun limited => (Int.ofNat_le.mpr fewer.length).trans (before limited)) later

theorem Serving.packet_spec (serving : Serving u info s) (filter : OfferFilter) (data : Bytes)
    (within : 0 < limits.softLimit → ((s.system.engine.sourcedBy info.storeID).length : Int) ≤ limits.softLimit) :
    let before := s.system.engine
    let after := (handleOfferFiles u limits info s filter data).system.engine
    let batch := (offeredBatch u limits filter info s data).2
    let judged := Ed2k.judgedOffer before batch info limits.softLimit
    (0 < limits.softLimit → ((sourcedFiles after info.storeID).length : Int) ≤ limits.softLimit) ∧
    judged.map Prod.fst = batch ∧
    after = before.addFiles u ((judged.filter (·.2)).map (·.1)) info ∧
    (∀ j ∈ judged, sourcesHash before info.storeID j.1 = true → j.2 = true) ∧
    ∀ earlier file later, judged = earlier ++ (file,false) :: later → 0 < limits.softLimit ∧
      limits.softLimit ≤ (sourcedFiles before info.storeID).length +
        (newFiles (sourcesHash before info.storeID) earlier).card := by
  have served : Serving u info (handleOfferFiles u limits info s filter data) := serving.packet data
  dsimp only
  rw [sourcedFiles_length served.owned,sourcedFiles_length serving.owned]
  refine ⟨fun limited => serving.packet_bounded data limited (within limited),serving.judged_files ..,?_,
    serving.judged_known _ _,fun _ _ _ shape => serving.judged_refused shape⟩
  rw [packet_system]
  rfl

theorem connect_serving {s : System} (sound : s.engine.Sound) (contents : Contents u s.engine)
    (owned : s.engine.Owned s.pending) (info : ClientInfo) :
    Serving u { info with storeID := (s.engine.connect info).2 } { system := s.step u (.connect info) } ∧
    (s.step u (.connect info)).engine.sourcedBy (s.engine.connect info).2 = [] := by
  obtain ⟨sound₁,contents₁⟩ := System.step_sound s sound contents (.connect info)
  refine ⟨⟨sound₁,contents₁,owned.connect info,((s.engine.connect_lookup info).1 _).trans (if_pos rfl)⟩,?_⟩
  refine eq_nil_iff_forall_not_mem.mpr fun key member => ?_
  obtain ⟨t,inside,mine⟩ := (mem_sourcedBy ..).mp member
  have old := (owned.owner_bound (show t ∈ s.engine.sourcesOf key from inside)).2
  have new : t.owner = s.engine.nextClientID + 1 := mine
  omega

end

end

/-- The soft limit over a session's packets: what it sources stays within the limit, its own files always
pass, nothing is reordered, and a file is refused only when the limit is reached. -/
theorem soft_limit_holds (u : Unicode) (limits : OfferLimits) (ops : List Op) (honest : ({} : System).HonestRun u ops)
    (info : ClientInfo) (seen : List OfferEvent) (filter : OfferFilter) (data : Bytes) :
    let start := ({} : System).run u ops
    let me := { info with storeID := (start.engine.connect info).2 }
    let opened : OfferSession := { system := start.step u (.connect info) }
    Undisturbed u limits me opened seen →
    let before := (offerRun u limits me opened seen).system.engine
    let after := (offerRun u limits me opened (seen ++ [.packet filter data])).system.engine
    let batch := (offeredBatch u limits filter me (offerRun u limits me opened seen) data).2
    let judged := judgedOffer before batch me limits.softLimit
    (0 < limits.softLimit → ((sourcedFiles after me.storeID).length : Int) ≤ limits.softLimit) ∧
    judged.map Prod.fst = batch ∧
    after = before.addFiles u ((judged.filter (·.2)).map (·.1)) me ∧
    (∀ j ∈ judged, sourcesHash before me.storeID j.1 = true → j.2 = true) ∧
    ∀ earlier file later, judged = earlier ++ (file,false) :: later → 0 < limits.softLimit ∧
      limits.softLimit ≤ (sourcedFiles before me.storeID).length +
        (newFiles (sourcesHash before me.storeID) earlier).card := by
  intro _ me opened undisturbed
  obtain ⟨sound,contents⟩ := System.reached_sound u ops
  obtain ⟨opens,nothing⟩ := connect_serving sound contents (System.reached_owned u ops honest) info
  have within : 0 < limits.softLimit → ((opened.system.engine.sourcedBy me.storeID).length : Int) ≤ limits.softLimit := by
    intro limited
    rw [nothing]
    exact limited.le
  obtain ⟨serving,bounded⟩ := run_serving opens within undisturbed
  have next : offerRun u limits me opened (seen ++ [.packet filter data]) =
      handleOfferFiles u limits me (offerRun u limits me opened seen) filter data := foldl_append
  rw [next]
  exact serving.packet_spec filter data bounded

/-- A record with a size and nothing else. -/
def sized (letter : UInt8) : Bytes := replicate 16 letter ++ [0,0,0,0,0,0,1,0,0,0,typeUint32 + 0x80,tagSize,5,0,0,0]

/-- Under a limit of one file two new ones are offered; once the index is rebuilt they are offered again in
the other order. The first to come is the session's only file, and it still passes behind the one refused. -/
theorem soft_limit_holds_reoffered :
    let limits : OfferLimits := { softLimit := 1, hardLimit := 0 }
    let me : ClientInfo := { id := 7, storeID := 1 }
    let opened : OfferSession := { system := ({} : System).step Unicode.ascii (.connect { id := 7 }) }
    let filter : OfferFilter := ⟨fun _ => false,fun _ _ => (false,false,false),0,0⟩
    let seen := [.packet filter ([2,0,0,0] ++ sized 1 ++ sized 2),.other .rebuild]
    let data := [2,0,0,0] ++ sized 2 ++ sized 1
    let before := offerRun Unicode.ascii limits me opened seen
    let after := offerRun Unicode.ascii limits me opened (seen ++ [.packet filter data])
    let judged := judgedOffer before.system.engine (offeredBatch Unicode.ascii limits filter me before data).2 me 1
    judged.map (fun j => (j.1.hash,j.2)) = [(replicate 16 2,false),(replicate 16 1,true)] ∧
      sourcesHash before.system.engine 1 { hash := replicate 16 1 } = true ∧
      ((sourcedFiles after.system.engine 1).length : Int) ≤ 1 ∧
      ∀ j ∈ judged, sourcesHash before.system.engine 1 j.1 = true → j.2 = true := by
  intro limits _ _ filter seen data _ _ _
  have spec := soft_limit_holds Unicode.ascii limits [] trivial { id := 7 } seen filter data ?_
  · exact ⟨by decide +kernel,by decide +kernel,spec.1 (by decide),spec.2.2.2.1⟩
  · intro earlier op _ _
    obtain ⟨rfl,rfl⟩ : earlier = [.packet filter ([2,0,0,0] ++ sized 1 ++ sized 2)] ∧ op = .rebuild := by
      rcases earlier with _ | ⟨_,_ | ⟨_,_⟩⟩ <;> simp_all [seen]
    exact ⟨trivial,nofun,by decide +kernel⟩

end ENode.Ed2k
