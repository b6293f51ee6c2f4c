import ENode.MemoryDeparture

/-! Related search on the memory engine: the files that the users sharing the seed files
also share. Fewer users than asked for must not show what they share. -/
namespace ENode.Storage

open GoText Slab List

/-- A candidate with how many of the users share it. -/
structure RelatedFile where
  file : File
  clients : Nat

/-- By weight, then by sources; the hash and the size make the order total, so the order a
map was visited in does not show. -/
def RelatedFile.notAfter (a b : RelatedFile) : Bool :=
  if a.clients ≠ b.clients then decide (b.clients < a.clients)
  else if a.file.sources ≠ b.file.sources then decide (b.file.sources < a.file.sources)
  else if a.file.hash ≠ b.file.hash then decide (a.file.hash < b.file.hash)
  else decide (a.file.size ≤ b.file.size)

def rankRelated (c : List RelatedFile) : List File :=
  ((c.insertionSort (fun a b => a.notAfter b)).take maxSearchResults).map (·.file)

/-- One source of a seed: its session is a user unless there are enough of them. -/
def addUser (maxClients : Int) (seed : FileKey) (users : List Nat) (s : MemSource) : List Nat :=
  if (users.length : Int) ≥ maxClients ∨ (seed.size ≠ 0 ∧ s.size ≠ seed.size) then users
  else if s.peer.storeID ∈ users then users
  else users ++ [s.peer.storeID]

def addWeight (weights : GoMap Nat Nat) (id : Nat) : GoMap Nat Nat :=
  weights.insert id ((weights.lookup id).getD 0 + 1)

namespace MemoryEngine

section
variable (e : MemoryEngine)

def seedUsers (maxClients : Int) (users : List Nat) (seed : FileKey) : List Nat :=
  match e.files.lookup (hashArray seed.hash) with
  | none => users
  | some head => (e.eachSourceLocked head).foldl (addUser maxClients seed) users

def relatedUsers (seeds : List FileKey) (maxClients : Int) : List Nat :=
  seeds.foldl (e.seedUsers maxClients) []

/-- One entry of a user's list. When the hash is held at several sizes the user's own
source says which. -/
def weighHead (seedHashes : List HashKey) (c : MemClient) (weights : GoMap Nat Nat) (head : Nat) : GoMap Nat Nat :=
  let r := e.record head
  if r.live = false then weights
  else if r.hash ∈ seedHashes then weights
  else if r.next.isNone then addWeight weights head
  else (e.eachSourceLocked head).foldl (fun weights s =>
    if s.peer.is c.peer then
      match e.findLocked r.hash s.size with
      | some id => addWeight weights id
      | none => weights
    else weights) weights

def weighUser (seedHashes : List HashKey) (weights : GoMap Nat Nat) (storeID : Nat) : GoMap Nat Nat :=
  match e.clients.lookup storeID with
  | none => weights
  | some c => c.offered.foldl (e.weighHead seedHashes c) weights

/-- What the users share besides the seeds, as far as it has a source. -/
def relatedAmong (seeds : List FileKey) (users : List Nat) : List File :=
  let weights := users.foldl (e.weighUser (seeds.map (fun seed => hashArray seed.hash))) ∅
  rankRelated ((GoMap.pairs weights).filterMap (fun w =>
    if (e.fileLocked w.1).sources > 0 then some ⟨e.fileLocked w.1,w.2⟩ else none))

def relatedFiles (seeds : List FileKey) (minClients maxClients : Int) : List File :=
  if seeds = [] then []
  else
    let users := e.relatedUsers seeds (max (max maxClients minClients) 1)
    if (users.length : Int) < minClients then [] else e.relatedAmong seeds users

/-- The session has a source that makes it a user of one of the seeds. -/
def SharesSeed (seeds : List FileKey) (sid : Nat) : Prop :=
  ∃ seed ∈ seeds, ∃ s ∈ e.sourcesOf (hashArray seed.hash), s.owner = sid ∧ (seed.size = 0 ∨ s.size = seed.size)

/-- The sessions with such a source, in the order of the seeds and of their source lists. -/
def sharers (seeds : List FileKey) : List Nat :=
  (seeds.flatMap (fun seed => ((e.sourcesOf (hashArray seed.hash)).filter
    (fun s => seed.size = 0 ∨ s.size = seed.size)).map (·.owner))).eraseDups

/-- The users whose lists the answer is built from. -/
def shownUsers (seeds : List FileKey) (minClients maxClients : Int) : List Nat :=
  (e.relatedUsers seeds (max (max maxClients minClients) 1)).filter (fun sid => (e.clients.lookup sid).isSome)

/-- An answer is empty or built from the shares of enough connected sessions. -/
def Discreet (seeds : List FileKey) (minClients maxClients : Int) : Prop :=
  e.relatedFiles seeds minClients maxClients = [] ∨
    let users := e.shownUsers seeds minClients maxClients
    minClients ≤ users.length ∧ users.Nodup ∧
    (∀ sid ∈ users, (∃ c, e.clients.lookup sid = some c) ∧ e.SharesSeed seeds sid) ∧
    e.relatedFiles seeds minClients maxClients = e.relatedAmong seeds users

end

section
variable {e : MemoryEngine}

variable (seeds : List FileKey)

theorem mem_sharers (sid : Nat) : sid ∈ e.sharers seeds ↔ e.SharesSeed seeds sid := by
  simp only [sharers,SharesSeed,mem_eraseDups,mem_flatMap,mem_map,mem_filter,decide_eq_true_eq]
  refine exists_congr (fun _ => and_congr_right fun _ => exists_congr fun _ => ?_)
  tauto

/-- Taking what is not there until there is enough leaves the first of the distinct ones. -/
theorem foldl_take {n : Nat} (l : List Nat) (users : List Nat) (room : users.length ≤ n) :
    l.foldl (fun users sid => if users.length ≥ n ∨ sid ∈ users then users else users ++ [sid]) users =
      (users ++ (l.filter (· ∉ users)).eraseDups).take n := by
  induction l generalizing users with
  | nil => simp [take_of_length_le room]
  | cons sid _ ih =>
    rw [foldl_cons]
    by_cases known : sid ∈ users
    · rw [if_pos (.inr known),ih users room,filter_cons_of_neg (by simpa using known)]
    rw [filter_cons_of_pos (by simpa using known),eraseDups_cons]
    by_cases full : users.length ≥ n
    · have whole : ∀ l : List Nat, (users ++ l).take n = users := fun _ => by
        rw [take_append_of_le_length full,take_of_length_le room]
      rw [if_pos (.inl full),ih users room,whole,whole]
    · rw [if_neg (not_or.mpr ⟨full,known⟩),ih _ (by simp; omega),append_assoc,singleton_append,filter_filter]
      congr 4
      refine filter_congr (fun _ _ => ?_)
      rw [Bool.eq_iff_iff]
      simp [and_comm]

theorem relatedUsers_eq {maxClients : Int} (some_ : 0 ≤ maxClients) :
    e.relatedUsers seeds maxClients = (e.sharers seeds).take maxClients.toNat := by
  have step : ∀ seed users, e.seedUsers maxClients users seed = (((e.sourcesOf (hashArray seed.hash)).filter
      (fun s => seed.size = 0 ∨ s.size = seed.size)).map (·.owner)).foldl (fun users sid =>
        if users.length ≥ maxClients.toNat ∨ sid ∈ users then users else users ++ [sid]) users := by
    intro seed users
    have sources : e.seedUsers maxClients users seed =
        (e.sourcesOf (hashArray seed.hash)).foldl (addUser maxClients seed) users := by
      unfold seedUsers
      split
      next unknown => rw [sourcesOf_unknown unknown]; rfl
      next known => rw [sourcesOf_known known]
    rw [sources,foldl_map,foldl_filter]
    refine foldl_ext _ _ _ (fun users s _ => ?_)
    unfold addUser MemSource.owner
    by_cases fits : seed.size = 0 ∨ s.size = seed.size
    · have own : ¬(seed.size ≠ 0 ∧ s.size ≠ seed.size) := by tauto
      have full : (users.length : Int) ≥ maxClients ↔ users.length ≥ maxClients.toNat := by omega
      simp only [own,or_false,fits,decide_true,if_true,full]
      by_cases enough : users.length ≥ maxClients.toNat <;> simp [enough]
    · have other : seed.size ≠ 0 ∧ s.size ≠ seed.size := by tauto
      simp [other]
  unfold relatedUsers sharers
  simp only [funext₂ (fun users seed => step seed users)]
  rw [← foldl_flatMap,foldl_take _ [] (Nat.zero_le _)]
  simp

theorem sharers_nodup : (e.sharers seeds).Nodup := by
  unfold sharers
  generalize seeds.flatMap _ = l
  induction size : l.length using Nat.strong_induction_on generalizing l with
  | _ _ ih =>
    cases l with
    | nil => simp
    | cons a rest =>
      rw [eraseDups_cons,nodup_cons,mem_eraseDups]
      have shorter := length_filter_le (fun b => !b == a) rest
      exact ⟨by simp,ih _ (by simp at size; omega) _ rfl⟩

theorem relatedUsers_spec {maxClients : Int} (some_ : 0 ≤ maxClients) :
    (e.relatedUsers seeds maxClients).Nodup ∧ ∀ sid ∈ e.relatedUsers seeds maxClients, e.SharesSeed seeds sid := by
  rw [relatedUsers_eq seeds some_]
  exact ⟨(sharers_nodup seeds).sublist (take_sublist ..),fun _ member => (mem_sharers ..).mp (mem_of_mem_take member)⟩

theorem relatedAmong_connected (users : List Nat) :
    e.relatedAmong seeds (users.filter (fun sid => (e.clients.lookup sid).isSome)) = e.relatedAmong seeds users := by
  have skipped : ∀ weights, (users.filter (fun sid => (e.clients.lookup sid).isSome)).foldl
      (e.weighUser (seeds.map (fun seed => hashArray seed.hash))) weights =
      users.foldl (e.weighUser (seeds.map (fun seed => hashArray seed.hash))) weights := by
    induction users with
    | nil => exact fun _ => rfl
    | cons sid _ ih =>
      intro _
      cases found : e.clients.lookup sid with
      | none =>
        rw [filter_cons_of_neg (by simp [found]),ih,foldl_cons]
        simp only [weighUser,found]
      | some _ => rw [filter_cons_of_pos (by simp [found]),foldl_cons,foldl_cons,ih]
  simp only [relatedAmong,skipped]

/-- Whether an answer is discreet is a matter of how many of the users counted are connected. -/
theorem discreet_iff (minClients maxClients : Int) : e.Discreet seeds minClients maxClients ↔
    e.relatedFiles seeds minClients maxClients = [] ∨
      minClients ≤ (e.shownUsers seeds minClients maxClients).length := by
  refine or_congr_right' (fun shown => ⟨And.left,fun enough => ⟨enough,?_⟩⟩)
  obtain ⟨distinct,shares⟩ := e.relatedUsers_spec seeds (by omega : 0 ≤ max (max maxClients minClients) 1)
  refine ⟨distinct.filter _,fun sid member => ?_,?_⟩
  · obtain ⟨taken,connected⟩ := mem_filter.mp member
    exact ⟨Option.isSome_iff_exists.mp connected,shares sid taken⟩
  · rw [shownUsers,relatedAmong_connected]
    unfold relatedFiles at shown ⊢
    split at shown
    · exact (shown rfl).elim
    next some_ =>
      dsimp only at shown
      split at shown
      · exact (shown rfl).elim
      next many =>
        rw [if_neg some_]
        exact if_neg many

def Weighed (j : Nat) (weights : GoMap Nat Nat) : Prop := (weights.lookup j).isSome = true

theorem weighed_self (weights : GoMap Nat Nat) (id : Nat) : Weighed id (addWeight weights id) := by
  rw [Weighed,addWeight,GoMap.lookup_insert_ite,if_pos rfl]
  rfl

theorem Weighed.addWeight (weighed : Weighed j weights) (id : Nat) : Weighed j (addWeight weights id) := by
  rw [Weighed,Storage.addWeight,GoMap.lookup_insert_ite]
  split
  · rfl
  · exact weighed

variable (seedHashes : List HashKey)

theorem weighHead_keeps (c : MemClient) (head : Nat) (weighed : Weighed j weights) :
    Weighed j (e.weighHead seedHashes c weights head) := by
  unfold weighHead
  dsimp only
  split
  · exact weighed
  split
  · exact weighed
  split
  · exact weighed.addWeight head
  refine foldlRecOn (motive := Weighed j) _ _ weighed fun weights kept s _ => ?_
  split
  · split
    · exact kept.addWeight _
    · exact kept
  · exact kept

theorem weighHeads_keeps (c : MemClient) (heads : List Nat) (weighed : Weighed j weights) :
    Weighed j (heads.foldl (e.weighHead seedHashes c) weights) :=
  foldlRecOn (motive := Weighed j) heads _ weighed fun _ kept head _ => weighHead_keeps seedHashes c head kept

theorem weighUsers_keeps (users : List Nat) (weighed : Weighed j weights) :
    Weighed j (users.foldl (e.weighUser seedHashes) weights) := by
  refine foldlRecOn (motive := Weighed j) users _ weighed fun weights kept sid _ => ?_
  unfold weighUser
  split
  · exact kept
  · exact weighHeads_keeps seedHashes _ _ kept

/-- A user's file that is no seed, held at one size, is part of the answer. -/
theorem relatedAmong_ne_nil {seeds : List FileKey} {sid head : Nat}
    (user : sid ∈ users) (connected : e.clients.lookup sid = some c) (listed : head ∈ c.offered)
    (live : (e.record head).live = true) (single : (e.record head).next = none)
    (other : (e.record head).hash ∉ seeds.map (fun seed => hashArray seed.hash))
    (sourced : (e.fileLocked head).sources > 0) : e.relatedAmong seeds users ≠ [] := by
  let hashes := seeds.map (fun seed => hashArray seed.hash)
  have mine : ∀ weights, Weighed head (c.offered.foldl (e.weighHead hashes c) weights) := by
    obtain ⟨before,after,split⟩ := append_of_mem listed
    intro weights
    rw [split,foldl_append,foldl_cons]
    refine weighHeads_keeps _ c after ?_
    simp [hashes,weighHead,live,single,other,weighed_self]
  have weighed : ∀ weights, Weighed head (users.foldl (e.weighUser hashes) weights) := by
    obtain ⟨_,after,split⟩ := append_of_mem user
    intro _
    rw [split,foldl_append,foldl_cons]
    refine weighUsers_keeps _ after ?_
    rw [weighUser,connected]
    exact mine _
  obtain ⟨n,found⟩ := Option.isSome_iff_exists.mp (weighed ∅)
  intro empty
  simp only [relatedAmong,rankRelated,map_eq_nil_iff,take_eq_nil_iff] at empty
  rcases empty with zero | sorted
  · exact absurd zero (by decide)
  · have none_ := (sorted ▸ perm_insertionSort _ _ : List.Perm [] _).nil_eq.symm
    have dropped := filterMap_eq_nil_iff.mp none_ (head,n) ((GoMap.mem_pairs _ _ _).mpr found)
    simp [sourced] at dropped

end

end MemoryEngine

open MemoryEngine

namespace System

/-- In every state a run of offers by their sessions can reach, the states between two
chunks of a `Disconnect` included, an answer is discreet exactly when it is empty or, of the
first sessions that share a seed, as many as are counted, enough are not of a `Disconnect`
on its way; so it is when there is none. -/
theorem relatedFiles_discreet (u : Unicode) (ops : List Op) (honest : ({} : System).HonestRun u ops)
    (seeds : List FileKey) (minClients maxClients : Int) :
    let s := ({} : System).run u ops
    (s.engine.Discreet seeds minClients maxClients ↔ s.engine.relatedFiles seeds minClients maxClients = [] ∨
      minClients ≤ (((s.engine.sharers seeds).take (max (max maxClients minClients) 1).toNat).filter
        (fun sid => s.pending.all (fun p => p.storeID != sid))).length) ∧
    (s.pending = [] → s.engine.Discreet seeds minClients maxClients) := by
  intro s
  have owned := reached_owned u ops honest
  have some_ : 0 ≤ max (max maxClients minClients) 1 := by omega
  obtain ⟨_,shares⟩ := s.engine.relatedUsers_spec seeds some_
  rw [← relatedUsers_eq seeds some_]
  have connected : s.engine.shownUsers seeds minClients maxClients =
      (s.engine.relatedUsers seeds (max (max maxClients minClients) 1)).filter
        (fun sid => s.pending.all (fun p => p.storeID != sid)) := by
    refine filter_congr (fun sid member => ?_)
    obtain ⟨_,_,t,source,mine,_⟩ := shares sid member
    rw [Bool.eq_iff_iff,all_eq_true,Option.isSome_iff_exists]
    constructor
    · rintro ⟨c,found⟩ p inside
      have gone := (owned.departing p inside).1
      simp only [bne_iff_ne,ne_eq]
      rintro rfl
      rw [gone] at found
      cases found
    · intro others
      rcases owned.present _ t source with ⟨c,found⟩ | ⟨p,inside,same,_⟩
      · exact ⟨c,mine ▸ found⟩
      · have := others p inside
        simp [same.trans mine] at this
  have counted : s.engine.Discreet seeds minClients maxClients ↔ _ := discreet_iff seeds minClients maxClients
  rw [connected] at counted
  refine ⟨counted,fun none_ => counted.mpr ?_⟩
  rw [none_]
  simp only [all_nil,filter_true]
  by_cases shown : s.engine.relatedFiles seeds minClients maxClients = []
  · exact .inl shown
  · refine .inr (not_lt.mp (fun few => shown ?_))
    unfold relatedFiles
    split
    · rfl
    · exact if_pos few

/-- A file of the stayer and the whole crowd. -/
def crowdSeeds (files : List File) : List FileKey := ⟨numbered 2000,0⟩ :: files.map (fun f => ⟨f.hash,0⟩)

section
variable {files : List File} (crowds : files.map (fun f => hashArray f.hash) = crowdKeys)
include crowds

/-- Both sessions count as users of the seeds. -/
theorem left_users : 2 ≤ ((left files).relatedUsers (crowdSeeds files) 2).length ∧
    2 ∈ (left files).relatedUsers (crowdSeeds files) 2 := by
  obtain ⟨_,_,⟨_,crowded,t,source,own⟩,owners,kept⟩ := left_effect crowds
  obtain ⟨some_,mine,_⟩ := joined_files
  have same := (kept _ (notMem_crowdKeys (by decide) (by decide)) mine).1
  have second : (left files).SharesSeed (crowdSeeds files) 2 := by
    obtain ⟨s,member⟩ := exists_mem_of_ne_nil _ some_
    exact ⟨_,.head _,s,same ▸ member,mine s member,.inl rfl⟩
  have first : (left files).SharesSeed (crowdSeeds files) 1 := by
    rw [← crowds] at crowded
    obtain ⟨_,member,rfl⟩ := mem_map.mp crowded
    exact ⟨_,.tail _ (mem_map_of_mem member),t,source,own,.inl rfl⟩
  have both : [1,2] ⊆ (left files).sharers (crowdSeeds files) := by simp [mem_sharers,first,second]
  have among : (left files).sharers (crowdSeeds files) ⊆ [1,2] := by
    intro _ member
    obtain ⟨_,_,s,source,mine,_⟩ := (mem_sharers ..).mp member
    simpa [mine] using owners _ s source
  have distinct₂ : [1,2].Nodup := by decide
  have least := (distinct₂.subperm both).length_le
  have most := ((sharers_nodup (crowdSeeds files)).subperm among).length_le
  rw [relatedUsers_eq _ (by decide),take_of_length_le (by exact most)]
  exact ⟨least,both (by simp)⟩

/-- The stayer's other file is part of the answer. -/
theorem left_shown : (left files).relatedAmong (crowdSeeds files)
    ((left files).relatedUsers (crowdSeeds files) 2) ≠ [] := by
  obtain ⟨_,⟨c,connected⟩,_,_,kept⟩ := left_effect crowds
  obtain ⟨_,_,⟨s,sources,own,sized⟩,f,records,fsize⟩ := joined_files
  have apart : hashArray (numbered 2001) ∉ crowdKeys := notMem_crowdKeys (by decide) (by decide)
  obtain ⟨same,sameRecords⟩ := kept _ apart (by
    rw [sources]
    simpa using own)
  rw [sources] at same
  rw [records] at sameRecords
  have sound := (reached_sound Unicode.ascii (leaving files)).1
  have owned := reached_owned Unicode.ascii (leaving files) (leaving_honest files)
  rw [leaving_engine] at sound owned
  have member : s ∈ (left files).sourcesOf (hashArray (numbered 2001)) := by simp [same]
  obtain ⟨head,known⟩ := known_of_source (ne_nil_of_mem member)
  have inChain := sound.structured.head_mem known
  have hashed := sound.structured.hash_of_mem inChain
  -- the hash is held at one size
  have single : (left files).chain (hashArray (numbered 2001)) = [head] := by
    have length := congrArg List.length sameRecords
    rw [recordsOf,length_map] at length
    obtain ⟨_,chain⟩ := length_eq_one_iff.mp length
    rw [chain] at inChain ⊢
    rw [mem_singleton.mp inChain]
  have stored_ : stored ((left files).record head) = f := by
    rw [recordsOf,single] at sameRecords
    exact (cons.inj sameRecords).1
  have next : ((left files).record head).next = none := by
    have linked := sound.structured.linked (hashArray (numbered 2001))
    rw [single,known] at linked
    cases linked with
    | cons _ _ tail => exact tail.head.symm
  refine relatedAmong_ne_nil (left_users crowds).2 connected
    (((owned.listed 2 c connected).2 head).mpr ⟨_,known,s,member,own⟩) (sound.structured.live_of_mem inChain) next ?_ ?_
  · rw [hashed]
    intro member
    simp only [crowdSeeds,map_cons,map_map,mem_cons,mem_map,Function.comp_apply] at member
    rcases member with seed | ⟨_,inside,same⟩
    · exact absurd (hashArray_numbered (by decide) (by decide) seed) (by decide)
    · rw [← same,← crowds] at apart
      exact apart (mem_map_of_mem inside)
  · have headed := sound.structured.headLocked_eq (sound.structured.live_of_mem inChain)
    rw [hashed,known] at headed
    have size : (stored ((left files).record head)).size = 1 := by rw [stored_,fsize]
    rw [fileLocked,← Option.some.inj headed,liveFieldsLocked,← sourcesOf_known known,same]
    simp [countSource,sized,size]

theorem left_indiscreet : ¬(left files).Discreet (crowdSeeds files) 2 2 := by
  obtain ⟨connected,_⟩ := left_effect crowds
  obtain ⟨_,_⟩ := left_users crowds
  rw [discreet_iff]
  rintro (empty | enough)
  · rw [relatedFiles,if_neg (by simp [crowdSeeds])] at empty
    dsimp only at empty
    rw [show max (max (2 : Int) 2) 1 = 2 from rfl,if_neg (by omega)] at empty
    exact left_shown crowds empty
  · have only : (left files).shownUsers (crowdSeeds files) 2 2 ⊆ [2] := by
      intro sid member
      obtain ⟨c,found⟩ := Option.isSome_iff_exists.mp (mem_filter.mp member).2
      simp [connected sid c found]
    have distinct := ((left files).relatedUsers_spec (crowdSeeds files) (by decide : (0 : Int) ≤ max (max 2 2) 1)).1.filter
      (fun sid => ((left files).clients.lookup sid).isSome)
    have single := (distinct.subperm only).length_le
    simp only [length_cons,length_nil] at single
    rw [shownUsers] at enough
    omega

end

/-- Between two chunks of a `Disconnect` the answer can show what one session shares where
two were asked for. -/
theorem relatedFiles_indiscreet : ({} : System).HonestRun Unicode.ascii (leaving crowd) ∧
    ¬(({} : System).run Unicode.ascii (leaving crowd)).engine.Discreet (crowdSeeds crowd) 2 2 := by
  refine ⟨leaving_honest crowd,?_⟩
  rw [leaving_engine]
  exact left_indiscreet crowd_keys

/-- Two sessions share a seed and the answer is the other file of one of them. -/
theorem relatedFiles_discreet_example :
    let seed : File := { hash := replicate 16 1, name := lit "a", size := 5 }
    let ops : List Op := [.connect leaver,.connect stayer,.offer [seed] leaver,
      .offer [seed,{ seed with hash := replicate 16 2 }] stayer]
    let s := ({} : System).run Unicode.ascii ops
    s.engine.relatedFiles [⟨seed.hash,0⟩] 2 2 ≠ [] ∧ s.engine.Discreet [⟨seed.hash,0⟩] 2 2 := by
  intro seed ops _
  refine ⟨by decide +kernel,(relatedFiles_discreet Unicode.ascii ops ?_ [⟨seed.hash,0⟩] 2 2).2 rfl⟩
  refine ⟨trivial,trivial,⟨by decide,?_⟩,⟨by decide,?_⟩,trivial⟩
  all_goals
    intro _ found
    cases found
    rfl

end System

end ENode.Storage
