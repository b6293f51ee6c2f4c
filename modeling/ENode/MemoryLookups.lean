import ENode.MemorySystem

/-! The lookups of the memory engine as functions of the source lists, the files of each
hash and the sessions. -/
namespace ENode.Storage

open GoText Slab List

/-- The newest sources of a list that answer a lookup, newest first. -/
def shown (l : List MemSource) (size : Nat) : List Source :=
  ((l.reverse.filter (MemSource.answers size)).take maxWireSources).map MemSource.source

namespace MemoryEngine

variable {e : MemoryEngine}

theorem capSources_eq (e : MemoryEngine) (placed : e.Placed) (head size : Nat) :
    e.capSourcesLocked head size = shown (e.eachSourceLocked head) size := by
  have rest : (if (e.record head).more then e.moreOf head else []) = (e.eachSourceLocked head).tail := by
    unfold eachSourceLocked
    cases isFirst : (e.record head).first with
    | none => simp [single_of_no_first placed isFirst]
    | some first => rfl
  have first : (e.record head).first.toList = (e.eachSourceLocked head).head?.toList := by
    unfold eachSourceLocked
    cases (e.record head).first <;> rfl
  simp only [capSourcesLocked,rest,first,shown]
  cases e.eachSourceLocked head with
  | nil => simp
  | cons s more =>
    simp only [tail_cons,head?_cons,Option.toList_some,reverse_cons,filter_append,
      take_append]
    congr 2
    -- one more fits exactly when the newer ones have not reached the limit
    have fits : ∀ newer : List MemSource, [s].filter (fun t =>
        decide ((newer.take maxWireSources).length < maxWireSources) && t.answers size) =
        ([s].filter (MemSource.answers size)).take (maxWireSources - newer.length) := by
      intro newer
      by_cases answers : s.answers size = true
      · by_cases room : newer.length < maxWireSources
        · have one : [s].length ≤ maxWireSources - newer.length := by simp; omega
          simp [answers,room,take_of_length_le one]
        · have reached : (newer.take maxWireSources).length = maxWireSources := by
            rw [length_take]
            omega
          simp [answers,reached,Nat.sub_eq_zero_of_le (Nat.le_of_not_lt room)]
      · simp [answers]
    exact fits _

theorem getSourcesByHash_eq (placed : e.Placed) (hash : Bytes) :
    e.getSourcesByHash hash = shown (e.sourcesOf (hashArray hash)) 0 := by
  unfold getSourcesByHash
  cases known : e.files.lookup (hashArray hash) with
  | none => rw [sourcesOf_unknown known]; rfl
  | some head => rw [sourcesOf_known known]; exact e.capSources_eq placed head 0

theorem getSources_eq (sound : e.Sound) (hash : Bytes) (size : Nat) :
    e.getSources hash size = if ∃ f ∈ e.recordsOf (hashArray hash), f.size = size
      then some (shown (e.sourcesOf (hashArray hash)) size) else none := by
  have exists_iff := e.find_isSome (hashArray hash) size
  unfold getSources
  cases found : e.findLocked (hashArray hash) size with
  | none =>
    rw [found] at exists_iff
    rw [if_neg (by rw [← exists_iff]; simp)]
  | some _ =>
    rw [found] at exists_iff
    rw [if_pos (exists_iff.mp rfl)]
    obtain ⟨member,_⟩ := sound.structured.find_spec.mp found
    obtain ⟨head,known⟩ := Option.ne_none_iff_exists'.mp
      (fun unknown => ne_nil_of_mem member ((sound.structured.unknown_iff _).mp unknown))
    rw [sourcesOf_known known,← e.capSources_eq sound.placed head size]
    rw [known]
    rfl

theorem hasOffered_eq (placed : e.Placed) (info : ClientInfo) (files : List File) :
    e.hasOffered info files = files.map (fun f => (e.clients.lookup (e.storeIDOf info)).isSome &&
      (e.sourcesOf (hashArray f.hash)).any (fun s => s.owner == e.storeIDOf info)) := by
  unfold hasOffered
  refine map_congr_left (fun f _ => ?_)
  cases e.clients.lookup (e.storeIDOf info) with
  | none => rfl
  | some _ =>
    cases known : e.files.lookup (hashArray f.hash) with
    | none => rw [sourcesOf_unknown known]; rfl
    | some head =>
      rw [sourcesOf_known known]
      unfold eachSourceLocked
      cases isFirst : (e.record head).first with
      | none => simp [isFirst,single_of_no_first placed isFirst]
      | some _ => cases several : (e.record head).more <;> simp [isFirst,several,MemSource.owner]

theorem Owned.connected (owned : e.Owned []) (member : s ∈ e.sourcesOf key) :
    ∃ c, e.clients.lookup s.owner = some c := by
  rcases owned.present key s member with connected | ⟨_,inside,_⟩
  · exact connected
  · cases inside

theorem Owned.hasOffered (sound : e.Sound) (owned : e.Owned []) (info : ClientInfo) (files : List File) :
    e.hasOffered info files = files.map (fun f =>
      (e.sourcesOf (hashArray f.hash)).any (fun s => s.owner == e.storeIDOf info)) := by
  rw [hasOffered_eq sound.placed]
  refine map_congr_left (fun _ _ => ?_)
  cases found : e.clients.lookup (e.storeIDOf info) with
  | some c => rfl
  | none =>
    symm
    simp only [Option.isSome_none,Bool.false_and,any_eq_false,beq_iff_eq]
    intro _ member mine
    obtain ⟨_,connected⟩ := owned.connected member
    rw [mine,found] at connected
    cases connected

/-- The hashes in whose source list a session has a source. -/
def sourcedBy (e : MemoryEngine) (sid : Nat) : List HashKey :=
  ((GoMap.pairs e.files).map Prod.fst).filter (fun key => (e.sourcesOf key).any (fun s => s.owner == sid))

theorem mem_sourcedBy (e : MemoryEngine) (sid : Nat) (key : HashKey) :
    key ∈ e.sourcedBy sid ↔ ∃ s ∈ e.sourcesOf key, s.owner = sid := by
  have listed : (e.sourcesOf key).any (fun s => s.owner == sid) = true ↔ ∃ s ∈ e.sourcesOf key, s.owner = sid := by
    simp
  rw [sourcedBy,mem_filter,listed]
  refine ⟨And.right,fun own => ⟨?_,own⟩⟩
  obtain ⟨_,member,_⟩ := own
  obtain ⟨head,known⟩ := known_of_source (ne_nil_of_mem member)
  exact mem_map.mpr ⟨(key,head),(GoMap.mem_pairs _ _ _).mpr known,rfl⟩

theorem sourcedBy_nodup (e : MemoryEngine) (sid : Nat) : (e.sourcedBy sid).Nodup :=
  (GoMap.pairs_keys_nodup e.files).filter _

theorem Owned.offered_perm (sound : e.Sound) (owned : e.Owned pending)
    (connected : e.clients.lookup sid = some c) :
    c.offered.Perm ((e.sourcedBy sid).filterMap (fun key => e.files.lookup key)) := by
  obtain ⟨distinct,listed⟩ := owned.listed sid c connected
  refine (perm_ext_iff_of_nodup distinct ?_).mpr (fun id => ?_)
  · refine (e.sourcedBy_nodup sid).filterMap (fun _ _ _ ha hb => ?_)
    exact sound.structured.head_injective (Option.mem_def.mp ha) (Option.mem_def.mp hb)
  · rw [listed,mem_filterMap]
    refine exists_congr fun _ => ?_
    rw [mem_sourcedBy]
    exact and_comm

theorem Owned.offered_length (sound : e.Sound) (owned : e.Owned pending)
    (connected : e.clients.lookup sid = some c) : c.offered.length = (e.sourcedBy sid).length := by
  have heads : (e.sourcedBy sid).filterMap (fun key => e.files.lookup key) =
      (e.sourcedBy sid).map (fun key => (e.files.lookup key).getD 0) := by
    rw [← filterMap_eq_map]
    refine filterMap_congr (fun key member => ?_)
    obtain ⟨_,inside,_⟩ := (e.mem_sourcedBy _ key).mp member
    obtain ⟨_,known⟩ := known_of_source (ne_nil_of_mem inside)
    simp [known]
  rw [(owned.offered_perm sound connected).length_eq,heads,length_map]

theorem Owned.offeredCount (sound : e.Sound) (owned : e.Owned []) (info : ClientInfo) :
    e.offeredCount info = (e.sourcedBy (e.storeIDOf info)).length := by
  unfold MemoryEngine.offeredCount
  cases found : e.clients.lookup (e.storeIDOf info) with
  | none =>
    have none_ : e.sourcedBy (e.storeIDOf info) = [] := by
      apply eq_nil_iff_forall_not_mem.mpr
      intro key member
      obtain ⟨_,inside,mine⟩ := (e.mem_sourcedBy _ key).mp member
      obtain ⟨c,connected⟩ := owned.connected inside
      rw [mine,found] at connected
      cases connected
    rw [none_]
    rfl
  | some _ => exact owned.offered_length sound found

end MemoryEngine

end ENode.Storage
