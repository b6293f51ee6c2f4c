import ENode.MemorySessions

/-! What the records hold. A record holds a file exactly as it was stored, the name index
lists it under every word of its name, and seen by hash the engine is a map from hashes to
files of distinct sizes. -/
namespace ENode.Storage

open GoText Slab List

/-- What storing keeps of a file: everything but the live fields, and a hash of the fixed length. -/
def kept (file : File) : File :=
  { file with hash := file.hash.take hashLen, sources := 0, completed := 0, sourceID := 0, sourcePort := 0 }

theorem hashArray_take (hash : Bytes) : hashArray (hash.take hashLen) = hashArray hash := by
  apply Subtype.ext
  simp only [hashArray]
  rcases Nat.le_total hashLen hash.length with long | short
  · rw [take_append_of_le_length (by simp [long]),take_append_of_le_length long,take_take,Nat.min_self]
  · rw [take_of_length_le short]

theorem take_hashArray (hash : Bytes) : (hashArray hash).1.take (min hash.length hashLen) = hash.take hashLen := by
  simp only [hashArray,take_take]
  rcases Nat.le_total hashLen hash.length with long | short
  · rw [Nat.min_eq_right long,Nat.min_self,take_append_of_le_length long]
  · rw [Nat.min_eq_left short,Nat.min_eq_left short,take_append_of_le_length le_rfl,
      take_of_length_le le_rfl,take_of_length_le short]

theorem memFileTypes_getD (typ : Bytes) (i : Nat) (found : memFileTypes.findIdx? (· == typ) = some i) :
    memFileTypes.getD i [] = typ ∧ i ≠ memTypeOther := by
  obtain ⟨bound,equal,_⟩ := findIdx?_eq_some_iff_getElem.mp found
  have short : memFileTypes.length = 6 := by simp [memFileTypes]
  refine ⟨?_,by rw [short] at bound; simp only [memTypeOther]; omega⟩
  rw [getD_eq_getElem?_getD,getElem?_eq_getElem bound,Option.getD_some]
  simpa using equal

namespace MemoryEngine

theorem stored_setRec (file : File) (r : MemRec) : stored (setRecLocked file r) = kept file := by
  have hashes := take_hashArray file.hash
  -- an absent media part stands for one with every field empty
  have media : ∀ md : MemMedia, (if md = {} then none else some md : Option MemMedia).getD {} = md := by
    intro _
    split
    next empty => rw [empty]; rfl
    · rfl
  simp only [stored,setRecLocked,media,hashes,kept]
  cases found : memFileTypes.findIdx? (· == file.type) with
  | none => simp
  | some i =>
    obtain ⟨equal,other⟩ := memFileTypes_getD file.type i found
    simp only [Option.getD_some,if_neg other,equal]

/-- The files of a hash in the order of its chain. -/
def recordsOf (e : MemoryEngine) (key : HashKey) : List File :=
  (e.chain key).map (fun id => stored (e.record id))

/-- A file in the place of the one of its size, or at the end. -/
def upsert (file : File) (l : List File) : List File :=
  if ∃ g ∈ l, g.size = file.size then l.map (fun g => if g.size = file.size then file else g) else l ++ [file]

/-- Every record was written from a file and is listed under its name. -/
structure Contents (u : Unicode) (e : MemoryEngine) : Prop where
  written : ∀ id, (e.record id).live = true → ∃ file, setRecLocked file (e.record id) = e.record id
  named : e.names.Covers (fun w id => (e.record id).live = true ∧ w ∈ nameWords u (e.record id).name)

section
variable {u : Unicode} {e e' : MemoryEngine} {chain : HashKey → List Nat}

variable {file : File} {out : MemoryEngine × Nat} {id : Nat}

theorem StoreEffect.record_eq (effect : StoreEffect u e chain file out id) (j : Nat) :
    stored (out.1.record j) = if j = id then kept file else stored (e.record j) := by
  split
  next here =>
    obtain ⟨next,_,same⟩ := effect.written
    rw [here,same]
    exact stored_setRec file (e.record id)
  next other =>
    obtain ⟨_,same⟩ := effect.links j other
    rw [same]
    rfl

/-- Seen by hash, storing a file is an `upsert`. -/
theorem StoreEffect.records (good : e.Structured) (effect : StoreEffect u e e.chain file out id) :
    out.1.recordsOf = Function.update e.recordsOf (hashArray file.hash)
      (upsert (kept file) (e.recordsOf (hashArray file.hash))) := by
  have chained := effect.chained
  funext key
  rw [recordsOf,chained.chain_eq]
  simp only [effect.record_eq]
  have outside : ∀ j ∈ e.chain key, key ≠ hashArray file.hash → j ≠ id := by
    rintro j member other rfl
    rcases effect.slot with ⟨inside,_⟩ | ⟨vacant,_⟩
    · exact other ((good.hash_of_mem member).symm.trans (good.hash_of_mem inside))
    · rw [good.live_of_mem member] at vacant
      cases vacant
  by_cases here : key = hashArray file.hash
  · subst here
    rw [Function.update_self,Function.update_self]
    rcases effect.slot with ⟨member,sized⟩ | ⟨vacant,fresh⟩
    · have is_ : ∀ j ∈ e.chain (hashArray file.hash), j = id ↔ (e.record j).size = file.size := by
        intro j inside
        refine ⟨fun same => by rw [same,sized],fun same => ?_⟩
        exact inj_on_of_nodup_map (good.sizes _) inside member (same.trans sized.symm)
      rw [if_pos member,upsert,if_pos ⟨_,mem_map_of_mem member,sized⟩,recordsOf,map_map]
      refine map_congr_left (fun j inside => ?_)
      simp only [is_ j inside]
      rfl
    · have away : ∀ j ∈ e.chain (hashArray file.hash), j ≠ id := by
        rintro j inside rfl
        rw [good.live_of_mem inside] at vacant
        cases vacant
      rw [if_neg (fun inside => away id inside rfl),upsert,if_neg,map_append,recordsOf]
      · congr 1
        · exact map_congr_left (fun j inside => if_neg (away j inside))
        · simp
      · rintro ⟨_,inside,sized⟩
        obtain ⟨j,member,rfl⟩ := mem_map.mp inside
        exact fresh j member sized
  · rw [Function.update_of_ne here,Function.update_of_ne here,recordsOf]
    exact map_congr_left (fun j inside => if_neg (outside j inside here))

theorem StoreEffect.contents (effect : StoreEffect u e chain file out id) (contents : Contents u e) :
    Contents u out.1 := by
  have names : out.1.names.Covers (fun w j => ((e.record j).live = true ∧ w ∈ nameWords u (e.record j).name) ∨
      (w ∈ nameWords u file.name ∧ j = id)) := by
    rw [effect.names]
    split
    next live => exact contents.named.renameFile u (fun w word => ⟨live,word⟩) file.name
    · exact contents.named.indexName u id file.name
  refine ⟨fun j live => ?_,names.mono ?_⟩
  · by_cases here : j = id
    · obtain ⟨next,sibling,same⟩ := effect.written
      refine ⟨file,?_⟩
      rw [here,same]
      rfl
    · obtain ⟨next,same⟩ := effect.links j here
      rw [same] at live ⊢
      obtain ⟨g,fixed⟩ := contents.written j live
      exact ⟨g,congrArg (fun r : MemRec => { r with next := next }) fixed⟩
  · rintro _ j ⟨live,word⟩
    by_cases here : j = id
    · obtain ⟨next,_,same⟩ := effect.written
      rw [here,same] at word
      exact .inr ⟨word,here⟩
    · obtain ⟨_,same⟩ := effect.links j here
      rw [same] at live word
      exact .inl ⟨live,word⟩

theorem RemoveEffect.contents (effect : RemoveEffect u e chain id e') (contents : Contents u e) :
    Contents u e' := by
  have fate : ∀ j, (e'.record j).live = true → ∃ next sibling, (e.record j).live = true ∧
      e'.record j = { e.record j with next := next, sibling := sibling } := by
    intro j live
    have other : j ≠ id := by
      rintro rfl
      rw [effect.gone] at live
      cases live
    obtain ⟨next,sibling,same⟩ := effect.links j other
    rw [same] at live
    exact ⟨next,sibling,live,same⟩
  refine ⟨fun j live => ?_,?_⟩
  · obtain ⟨next,sibling,was,same⟩ := fate j live
    obtain ⟨g,fixed⟩ := contents.written j was
    rw [same]
    exact ⟨g,congrArg (fun r : MemRec => { r with next := next, sibling := sibling }) fixed⟩
  · rw [effect.names]
    refine (contents.named.counters e.names.entries _).mono ?_
    rintro _ j ⟨live,word⟩
    obtain ⟨_,_,was,same⟩ := fate j live
    rw [same] at word
    exact ⟨was,word⟩

theorem SameFiles.contents (same : SameFiles e e') (contents : Contents u e) : Contents u e' := by
  have lives : ∀ id, (e'.record id).live = (e.record id).live := fun id => (congrArg MemRec.live (same.bare id) :)
  have names : ∀ id, (e'.record id).name = (e.record id).name := fun id => (congrArg MemRec.name (same.bare id) :)
  refine ⟨fun id live => ?_,?_⟩
  · rw [lives] at live
    obtain ⟨g,fixed⟩ := contents.written id live
    refine ⟨g,?_⟩
    -- writing a file does not look at the sources
    have bare : (setRecLocked g (e'.record id)).bare = (e'.record id).bare := by
      have moves : ∀ r : MemRec, (setRecLocked g r).bare = setRecLocked g r.bare := fun _ => rfl
      rw [moves,same.bare,← moves,fixed]
    have whole := congrArg (fun r : MemRec => { r with first := (e'.record id).first, more := (e'.record id).more }) bare
    exact whole
  · rw [same.names]
    refine contents.named.mono (fun _ _ h => ?_)
    rwa [lives,names] at h

theorem SameFiles.records (same : SameFiles e e') : e'.recordsOf = e.recordsOf := by
  funext key
  rw [recordsOf,recordsOf,same.chain]
  refine map_congr_left (fun id _ => ?_)
  have bare := same.bare id
  have reads : ∀ r : MemRec, stored r = stored r.bare := fun _ => rfl
  rw [reads,bare,← reads]

theorem rebuild_contents (contents : Contents u e) : Contents u (e.rebuildIndexLocked u) := by
  refine ⟨fun n live => ?_,(NameIndex.empty_covers.indexAll u Prod.snd (fun r : MemRec × Nat => r.1.name)
    (e.rebuildIndexLocked u).recs.zipIdx).mono ?_⟩
  · obtain ⟨id,was,rfl⟩ := e.rebuild_origin u ((e.rebuildIndexLocked u).live_bound live)
    obtain ⟨g,fixed⟩ := contents.written id was
    rw [e.rebuild_record u was]
    exact ⟨g,congrArg (fun r : MemRec => { r with next := (e.record id).next.bind e.renumber }) fixed⟩
  · rintro _ n ⟨live,word⟩
    have read := (e.rebuildIndexLocked u).record_getElem ((e.rebuildIndexLocked u).live_bound live)
    exact .inr ⟨((e.rebuildIndexLocked u).record n,n),mem_zipIdx_iff_getElem?.mpr read,word,rfl⟩

theorem purge_contents (contents : Contents u e) : Contents u
    { e with names := e.names.purge (fun id => !(e.record id).live), free := e.free ++ e.dead, dead := [] } := by
  refine ⟨contents.written,(contents.named.purge _).mono ?_⟩
  rintro _ id ⟨live,word⟩
  have alive : (e.record id).live = true := live
  exact ⟨⟨live,word⟩,by rw [alive]; rfl⟩

theorem contents_of_vacant (vacant : ∀ id, e.record id = {}) (names : e.names = {}) : Contents u e := by
  refine ⟨fun id live => ?_,names ▸ NameIndex.empty_covers.mono (fun _ _ h => ?_)⟩
  · rw [vacant] at live
    cases live
  · rw [vacant] at h
    cases h.1

theorem emptied_contents (u : Unicode) (e : MemoryEngine) : Contents u e.emptied :=
  contents_of_vacant (fun _ => rfl) rfl

theorem empty_contents (u : Unicode) : Contents u {} := contents_of_vacant (fun _ => rfl) rfl

theorem mem_recordsOf (good : e.Structured) (key : HashKey) (file : File) :
    file ∈ e.recordsOf key ↔ ∃ id, (e.record id).live = true ∧ (e.record id).hash = key ∧ stored (e.record id) = file := by
  simp only [recordsOf,mem_map,good.members,and_assoc]

theorem recordsOf_hash (good : e.Structured) (contents : Contents u e) {key : HashKey}
    (member : file ∈ e.recordsOf key) : hashArray file.hash = key ∧ kept file = file := by
  obtain ⟨id,live,hashed,rfl⟩ := (mem_recordsOf good key file).mp member
  obtain ⟨g,fixed⟩ := contents.written id live
  have read := stored_setRec g (e.record id)
  have hash : (setRecLocked g (e.record id)).hash = hashArray g.hash := rfl
  rw [fixed] at read hash
  rw [read]
  refine ⟨?_,?_⟩
  · rw [← hashed,hash]
    exact hashArray_take g.hash
  · simp [kept,take_take]

theorem recordsOf_sizes (good : e.Structured) (key : HashKey) : ((e.recordsOf key).map (·.size)).Nodup := by
  rw [recordsOf,map_map]
  exact good.sizes key

theorem find_isSome (e : MemoryEngine) (key : HashKey) (size : Nat) :
    (e.findLocked key size).isSome = true ↔ ∃ f ∈ e.recordsOf key, f.size = size := by
  rw [findLocked,find?_isSome]
  simp [recordsOf,stored]

end

end MemoryEngine

end ENode.Storage
