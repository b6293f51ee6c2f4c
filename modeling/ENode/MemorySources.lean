import ENode.MemoryChains

/-! The source lists of the memory engine. The oldest source of a hash sits in its first
record and the rest in a map entry; the operations on sources are those on one list. -/
namespace ENode.Storage

open GoText Slab List

namespace MemoryEngine

/-- The sources of a hash in offer order. -/
def sourcesOf (e : MemoryEngine) (key : HashKey) : List MemSource :=
  ((e.files.lookup key).map e.eachSourceLocked).getD []

/-- A map entry exists for the records marked to have one, none is empty, and only first
records have sources. -/
structure Placed (e : MemoryEngine) : Prop where
  marked : ∀ id, (e.record id).more = true ↔ (e.more.lookup id).isSome = true
  filled : ∀ id l, e.more.lookup id = some l → l ≠ []
  started : ∀ id, (e.record id).more = true → (e.record id).first.isSome = true
  heads : ∀ id, (e.record id).first.isSome = true →
    (e.record id).live = true ∧ e.files.lookup (e.record id).hash = some id

variable {key : HashKey}

theorem sourcesOf_unknown {e : MemoryEngine} (unknown : e.files.lookup key = none) : e.sourcesOf key = [] := by
  simp [sourcesOf,unknown]

theorem sourcesOf_known {e : MemoryEngine} {head : Nat} (known : e.files.lookup key = some head) :
    e.sourcesOf key = e.eachSourceLocked head := by
  simp [sourcesOf,known]

theorem eachSource_eq_nil (e : MemoryEngine) (head : Nat) :
    e.eachSourceLocked head = [] ↔ (e.record head).first = none := by
  unfold eachSourceLocked
  cases (e.record head).first <;> simp

theorem eachSource_congr {e e' : MemoryEngine} (first : (e'.record j).first = (e.record i).first)
    (more : (e'.record j).more = (e.record i).more) (entry : e'.more.lookup j = e.more.lookup i) :
    e'.eachSourceLocked j = e.eachSourceLocked i := by
  simp only [eachSourceLocked,moreOf,first,more,entry]

section
variable {e e' : MemoryEngine} {chain : HashKey → List Nat}

theorem empty_placed (recs : e.recs = []) (more : e.more = ∅) : e.Placed := by
  have vacant : ∀ id, e.record id = {} := fun id => by simp [record,recs]
  refine ⟨fun id => ?_,fun id _ known => ?_,fun id marked => ?_,fun _ first => ?_⟩
  · simp [vacant,more]
  · rw [more] at known
    cases known
  · rw [vacant] at marked
    cases marked
  · rw [vacant] at first
    cases first

variable {u : Unicode} {file : File} {out : MemoryEngine × Nat} {id : Nat}

theorem StoreEffect.sourceFields (effect : StoreEffect u e chain file out id) (j : Nat) :
    (out.1.record j).first = (e.record j).first ∧ (out.1.record j).more = (e.record j).more := by
  by_cases here : j = id
  · obtain ⟨next,_,same⟩ := effect.written
    rw [here,same]
    exact ⟨rfl,rfl⟩
  · obtain ⟨_,same⟩ := effect.links j here
    rw [same]
    exact ⟨rfl,rfl⟩

theorem StoreEffect.eachSource (effect : StoreEffect u e chain file out id) (j : Nat) :
    out.1.eachSourceLocked j = e.eachSourceLocked j :=
  eachSource_congr (effect.sourceFields j).1 (effect.sourceFields j).2 (by rw [effect.more])

/-- Storing a file touches no source. -/
theorem StoreEffect.sources (chained : e.Chained chain)
    (effect : StoreEffect u e chain file out id) : out.1.sourcesOf = e.sourcesOf := by
  funext key
  cases known : e.files.lookup key with
  | some head => rw [sourcesOf_known known,sourcesOf_known (effect.keeps key head known),effect.eachSource]
  | none =>
    rw [sourcesOf_unknown known]
    by_cases here : key = hashArray file.hash
    · subst here
      have empty := (chained.unknown_iff _).mp known
      -- the new first record is the written slot, which was vacant
      have isSlot : out.2 = id := by
        have first := (effect.chained.linked (hashArray file.hash)).head
        rw [effect.head,Function.update_self,empty] at first
        simpa using first.symm
      have vacant : (e.record id).live = false := by
        rcases effect.slot with ⟨member,_⟩ | ⟨vacant,_⟩
        · rw [empty] at member
          cases member
        · exact vacant
      rw [sourcesOf_known effect.head,isSlot,effect.eachSource,eachSource_eq_nil,chained.cleared id vacant]
    · rw [sourcesOf_unknown ((effect.others key here).trans known)]

theorem StoreEffect.placed (chained : e.Chained chain)
    (placed : e.Placed) (effect : StoreEffect u e chain file out id) : out.1.Placed := by
  refine ⟨fun j => ?_,fun j l => ?_,fun j => ?_,fun j => ?_⟩
  · rw [(effect.sourceFields j).2,effect.more]
    exact placed.marked j
  · rw [effect.more]
    exact placed.filled j l
  · rw [(effect.sourceFields j).1,(effect.sourceFields j).2]
    exact placed.started j
  · rw [(effect.sourceFields j).1]
    intro first
    obtain ⟨live,isHead⟩ := placed.heads j first
    by_cases here : j = id
    · subst here
      obtain ⟨next,_,same⟩ := effect.written
      rcases effect.slot with ⟨member,_⟩ | ⟨vacant,_⟩
      · rw [same]
        refine ⟨rfl,effect.keeps _ j ?_⟩
        rwa [chained.hash_of_mem member] at isHead
      · rw [vacant] at live
        cases live
    · obtain ⟨_,same⟩ := effect.links j here
      rw [same]
      exact ⟨live,effect.keeps _ j isHead⟩

/-- A record whose hash has no source can go without touching any source. -/
theorem RemoveEffect.sources (chained : e.Chained chain) (placed : e.Placed)
    (effect : RemoveEffect u e chain id e') (live : (e.record id).live = true)
    (empty : e.sourcesOf (e.record id).hash = []) : e'.sourcesOf = e.sourcesOf ∧ e'.Placed := by
  -- no record of the hash has a source
  have bare : ∀ j ∈ chain (e.record id).hash, (e.record j).first = none := by
    intro j member
    by_contra some_
    have isHead := (placed.heads j (Option.isSome_iff_ne_none.mpr some_)).2
    rw [chained.hash_of_mem member] at isHead
    rw [sourcesOf_known isHead,eachSource_eq_nil] at empty
    exact some_ empty
  have idBare := bare id ((chained.members _ id).mpr ⟨live,rfl⟩)
  have idSingle : (e.record id).more = false := by
    by_contra marked
    have started := placed.started id (by simpa using marked)
    rw [idBare] at started
    cases started
  have fields : ∀ j, (e'.record j).first = (e.record j).first ∧ (e'.record j).more = (e.record j).more := by
    intro j
    by_cases here : j = id
    · rw [here,effect.gone,idBare,idSingle]
      exact ⟨rfl,rfl⟩
    · obtain ⟨next,sibling,same⟩ := effect.links j here
      rw [same]
      exact ⟨rfl,rfl⟩
  have reads : ∀ j, e'.eachSourceLocked j = e.eachSourceLocked j :=
    fun j => eachSource_congr (fields j).1 (fields j).2 (by rw [effect.more])
  refine ⟨funext fun key => ?_,fun j => ?_,fun j l => ?_,fun j => ?_,fun j => ?_⟩
  · by_cases here : key = (e.record id).hash
    · rw [here,empty]
      cases known : e'.files.lookup (e.record id).hash with
      | none => exact sourcesOf_unknown known
      | some head =>
        have member := effect.chained.head_mem known
        rw [Function.update_self] at member
        rw [sourcesOf_known known,reads,eachSource_eq_nil]
        exact bare head (mem_of_mem_erase member)
    · simp only [sourcesOf,effect.others key here]
      cases e.files.lookup key with
      | none => rfl
      | some head => exact reads head
  · rw [(fields j).2,effect.more]
    exact placed.marked j
  · rw [effect.more]
    exact placed.filled j l
  · rw [(fields j).1,(fields j).2]
    exact placed.started j
  · rw [(fields j).1]
    intro first
    obtain ⟨wasLive,isHead⟩ := placed.heads j first
    have other : j ≠ id := by
      rintro rfl
      rw [idBare] at first
      cases first
    have elsewhere : (e.record j).hash ≠ (e.record id).hash := by
      intro same
      rw [bare j ((chained.members _ j).mpr ⟨wasLive,same⟩)] at first
      cases first
    obtain ⟨_,_,same⟩ := effect.links j other
    rw [same]
    exact ⟨wasLive,(effect.others _ elsewhere).trans isHead⟩

theorem rebuild_sources (u : Unicode) (chained : e.Chained chain) (placed : e.Placed) :
    (e.rebuildIndexLocked u).sourcesOf = e.sourcesOf ∧ (e.rebuildIndexLocked u).Placed := by
  have keyLive : ∀ id, (e.more.lookup id).isSome = true → (e.record id).live = true :=
    fun id some_ => (placed.heads id (placed.started id ((placed.marked id).mpr some_))).1
  have moved : ∀ id, (e.record id).live = true → e.renumbered id = e.position id := by
    intro id live
    rw [renumbered,e.renumber_live live,Option.getD_some]
  have entry : ∀ n l, (e.rebuildIndexLocked u).more.lookup n = some l ↔
      ∃ id, e.more.lookup id = some l ∧ e.renumbered id = n := by
    refine GoMap.lookup_rekey e.renumbered e.more (fun a b ha hb same => ?_)
    rw [moved a (keyLive a ha),moved b (keyLive b hb)] at same
    exact e.position_injective (keyLive a ha) (keyLive b hb) same
  have entries : ∀ id, (e.record id).live = true →
      (e.rebuildIndexLocked u).more.lookup (e.position id) = e.more.lookup id := by
    intro id live
    apply Option.ext
    intro l
    rw [entry]
    constructor
    · rintro ⟨j,known,same⟩
      have jLive := keyLive j (by rw [known]; rfl)
      rw [moved j jLive] at same
      rwa [← e.position_injective jLive live same]
    · exact fun known => ⟨id,known,moved id live⟩
  have files := rebuild_files u chained
  have slots : ∀ n, (∃ id, (e.record id).live = true ∧ n = e.position id) ∨
      ¬n < (e.rebuildIndexLocked u).recs.length ∧ (e.rebuildIndexLocked u).record n = {} := by
    intro n
    by_cases bound : n < (e.rebuildIndexLocked u).recs.length
    · obtain ⟨id,live,rfl⟩ := e.rebuild_origin u bound
      exact .inl ⟨id,live,rfl⟩
    · exact .inr ⟨bound,by rw [record,getD_eq_getElem?_getD,getElem?_eq_none (Nat.le_of_not_lt bound),Option.getD_none]⟩
  refine ⟨funext fun key => ?_,fun n => ?_,fun n l known => ?_,fun n => ?_,fun n => ?_⟩
  · simp only [sourcesOf,files]
    cases known : e.files.lookup key with
    | none => rfl
    | some head =>
      have live := chained.live_of_mem (chained.head_mem known)
      refine eachSource_congr ?_ ?_ (entries head live)
      · rw [e.rebuild_record u live]
      · rw [e.rebuild_record u live]
  · rcases slots n with ⟨id,live,rfl⟩ | ⟨bound,vacant⟩
    · rw [e.rebuild_record u live,entries id live]
      exact placed.marked id
    · rw [vacant]
      refine ⟨fun marked => (by cases marked),fun some_ => ?_⟩
      obtain ⟨l,known⟩ := Option.isSome_iff_exists.mp some_
      obtain ⟨id,old,rfl⟩ := (entry n l).mp known
      have live := keyLive id (by rw [old]; rfl)
      rw [moved id live] at bound
      have inside := List.getElem?_eq_some_iff.mp (e.rebuild_read u live)
      exact absurd inside.1 bound
  · obtain ⟨id,old,_⟩ := (entry n l).mp known
    exact placed.filled id l old
  · rcases slots n with ⟨id,live,rfl⟩ | ⟨bound,vacant⟩
    · rw [e.rebuild_record u live]
      exact placed.started id
    · rw [vacant]
      exact fun marked => (by cases marked)
  · rcases slots n with ⟨id,live,rfl⟩ | ⟨bound,vacant⟩
    · rw [e.rebuild_record u live]
      intro first
      obtain ⟨_,isHead⟩ := placed.heads id first
      exact ⟨live,by rw [files,isHead,Option.map_some]⟩
    · rw [vacant]
      exact fun first => (by cases first)

end

/-- The engine `e'` is `e` with the sources `l` on the record `head`, up to the sessions. -/
structure SetSources (e e' : MemoryEngine) (head : Nat) (l : List MemSource) : Prop where
  bare : ∀ id, (e'.record id).bare = (e.record id).bare
  others : ∀ id, id ≠ head → e'.record id = e.record id ∧ e'.more.lookup id = e.more.lookup id
  first : (e'.record head).first = l.head?
  marked : (e'.record head).more = !l.tail.isEmpty
  entry : e'.more.lookup head = if l.tail = [] then none else some l.tail
  length : e'.recs.length = e.recs.length
  live : e'.recs.countP (·.live) = e.recs.countP (·.live)
  frame : ∃ recs more clients, e' = { e with recs := recs, more := more, clients := clients }

namespace SetSources

variable {e e' : MemoryEngine} {head : Nat} {l : List MemSource}

section
variable (set : SetSources e e' head l)
include set

theorem eachSource : e'.eachSourceLocked head = l := by
  unfold eachSourceLocked
  rw [set.first,set.marked]
  cases l with
  | nil => rfl
  | cons _ rest =>
    simp only [head?_cons,tail_cons,moreOf,set.entry]
    cases rest <;> rfl

theorem fields : e'.files = e.files ∧ e'.clientsByHash = e.clientsByHash ∧
    e'.nextClientID = e.nextClientID ∧ e'.layout = e.layout ∧ e'.names = e.names := by
  obtain ⟨_,_,_,rfl⟩ := set.frame
  exact ⟨rfl,rfl,rfl,rfl,rfl⟩

theorem chained {chain : HashKey → List Nat} (chained : e.Chained chain)
    (live : (e.record head).live = true) : e'.Chained chain := by
  obtain ⟨_,_,_,shape⟩ := set.frame
  refine chained.congr (by rw [shape]) (by rw [shape]) set.live set.length (by rw [shape])
    (fun id => (congrArg MemRec.links (set.bare id) :))
    (fun id vacant => (set.others id ?_).1)
  rintro rfl
  rw [live] at vacant
  cases vacant

theorem placed (placed : e.Placed) (known : e.files.lookup key = some head) (live : (e.record head).live = true)
    (hashed : (e.record head).hash = key) : e'.Placed := by
  have lives : ∀ id, (e'.record id).live = (e.record id).live := fun id => (congrArg MemRec.live (set.bare id) :)
  have hashes : ∀ id, (e'.record id).hash = (e.record id).hash := fun id => (congrArg MemRec.hash (set.bare id) :)
  refine ⟨fun id => ?_,fun id entry found => ?_,fun id => ?_,fun id => ?_⟩
  · by_cases here : id = head
    · subst here
      rw [set.marked,set.entry]
      cases l.tail <;> simp
    · rw [(set.others id here).1,(set.others id here).2]
      exact placed.marked id
  · by_cases here : id = head
    · subst here
      rw [set.entry] at found
      split at found
      · cases found
      next some_ => exact Option.some.inj found ▸ some_
    · rw [(set.others id here).2] at found
      exact placed.filled id entry found
  · by_cases here : id = head
    · subst here
      rw [set.marked,set.first]
      cases l <;> simp
    · rw [(set.others id here).1]
      exact placed.started id
  · rw [set.fields.1,lives,hashes]
    by_cases here : id = head
    · subst here
      intro _
      exact ⟨live,hashed ▸ known⟩
    · rw [(set.others id here).1]
      exact placed.heads id

theorem sources {chain : HashKey → List Nat} (chained : e.Chained chain) (known : e.files.lookup key = some head) :
    e'.sourcesOf = Function.update e.sourcesOf key l := by
  funext k
  by_cases here : k = key
  · subst here
    rw [Function.update_self,sourcesOf_known (by rw [set.fields.1]; exact known),set.eachSource]
  · rw [Function.update_of_ne here]
    simp only [sourcesOf,set.fields.1]
    cases other : e.files.lookup k with
    | none => rfl
    | some head' =>
      have apart : head' ≠ head := by
        rintro rfl
        exact here (chained.head_injective other known)
      have same := set.others head' apart
      exact eachSource_congr (by rw [same.1]) (by rw [same.1]) same.2

end

theorem after_clients {clients : GoMap Nat MemClient}
    (set : SetSources ({ e with clients := clients } : MemoryEngine) e' head l) : SetSources e e' head l := by
  refine { set with frame := ?_ }
  obtain ⟨recs,more,clients',shape⟩ := set.frame
  exact ⟨recs,more,clients',shape⟩

end SetSources

theorem Placed.absent {e : MemoryEngine} {head : Nat} (placed : e.Placed) (single : (e.record head).more = false) :
    e.more.lookup head = none := by
  have unmarked := placed.marked head
  rw [single] at unmarked
  simpa using unmarked

section
variable (e : MemoryEngine) (head : Nat)

theorem record_setFirst (bound : head < e.recs.length) (first : Option MemSource) (j : Nat) :
    (e.setFirst head first).record j = if j = head then { e.record head with first := first } else e.record j :=
  e.record_modifyRec head j _ bound

theorem record_setMore (bound : head < e.recs.length) (more : List MemSource) (j : Nat) :
    (e.setMore head more).record j =
      if j = head then { e.record head with more := !more.isEmpty } else e.record j := by
  unfold setMore
  split
  next empty => rw [empty]; exact e.record_modifyRec head j _ bound
  next some_ =>
    rw [show more.isEmpty = false by simpa using some_]
    exact e.record_modifyRec head j _ bound

variable (more : List MemSource)

theorem lookup_setMore (j : Nat) : (e.setMore head more).more.lookup j =
      if j = head then (if more = [] then none else some more) else e.more.lookup j := by
  unfold setMore
  split
  · exact GoMap.lookup_erase_ite ..
  · exact GoMap.lookup_insert_ite ..

theorem setMore_frame : ∃ recs entries, e.setMore head more = { e with recs := recs, more := entries } := by
  unfold setMore
  split
  all_goals exact ⟨_,_,rfl⟩

@[simp] theorem setMore_clients : (e.setMore head more).clients = e.clients := by
  obtain ⟨_,_,frame⟩ := e.setMore_frame head more
  rw [frame]

theorem live_setFirst (bound : head < e.recs.length) (first : Option MemSource) :
    (e.setFirst head first).recs.countP (·.live) = e.recs.countP (·.live) := e.countP_modifyRec head _ bound rfl

theorem live_setMore (bound : head < e.recs.length) (more : List MemSource) :
    (e.setMore head more).recs.countP (·.live) = e.recs.countP (·.live) := by
  unfold setMore
  split
  all_goals exact e.countP_modifyRec head _ bound rfl

theorem length_setMore : (e.setMore head more).recs.length = e.recs.length := by
  unfold setMore
  split
  all_goals exact length_modify ..

theorem length_setFirst (first : Option MemSource) : (e.setFirst head first).recs.length = e.recs.length :=
  length_modify ..

theorem set_both (bound : head < e.recs.length) (l : List MemSource) :
    SetSources e ((e.setFirst head l.head?).setMore head l.tail) head l := by
  have inner : head < (e.setFirst head l.head?).recs.length := by rwa [length_setFirst]
  have reads := (e.setFirst head l.head?).record_setMore head inner l.tail
  have firsts := e.record_setFirst head bound l.head?
  refine ⟨fun id => ?_,fun _ other => ⟨?_,?_⟩,?_,?_,?_,?_,?_,?_⟩
  · rw [reads]
    split
    next here => rw [firsts,if_pos rfl,here]; rfl
    next other => rw [firsts,if_neg other]
  · rw [reads,if_neg other,firsts,if_neg other]
  · rw [lookup_setMore,if_neg other]
    rfl
  · rw [reads,if_pos rfl,firsts,if_pos rfl]
  · rw [reads,if_pos rfl]
  · rw [lookup_setMore,if_pos rfl]
  · rw [length_setMore,length_setFirst]
  · rw [live_setMore _ _ inner,live_setFirst _ _ bound]
  · obtain ⟨recs,entries,shape⟩ := (e.setFirst head l.head?).setMore_frame head l.tail
    exact ⟨recs,entries,e.clients,shape⟩

theorem set_first (bound : head < e.recs.length) (placed : e.Placed) (single : (e.record head).more = false)
    (first : Option MemSource) : SetSources e (e.setFirst head first) head first.toList := by
  have firsts := e.record_setFirst head bound first
  refine ⟨fun id => ?_,fun _ other => ⟨?_,rfl⟩,?_,?_,?_,length_setFirst ..,live_setFirst _ _ bound _,?_⟩
  · rw [firsts]
    split
    next here => rw [here]; rfl
    · rfl
  · rw [firsts,if_neg other]
  · rw [firsts,if_pos rfl]
    cases first <;> rfl
  · rw [firsts,if_pos rfl,single]
    cases first <;> rfl
  · refine (show e.more.lookup head = _ from placed.absent single).trans ?_
    cases first <;> rfl
  · exact ⟨_,e.more,e.clients,rfl⟩

theorem set_more (bound : head < e.recs.length) (first : MemSource) (isFirst : (e.record head).first = some first)
    (more : List MemSource) : SetSources e (e.setMore head more) head (first :: more) := by
  have reads := e.record_setMore head bound more
  refine ⟨fun id => ?_,fun _ other => ⟨?_,?_⟩,?_,?_,?_,length_setMore ..,live_setMore _ _ bound _,?_⟩
  · rw [reads]
    split
    next here => rw [here]; rfl
    · rfl
  · rw [reads,if_neg other]
  · rw [lookup_setMore,if_neg other]
  · rw [reads,if_pos rfl]
    exact isFirst
  · rw [reads,if_pos rfl]
    rfl
  · rw [lookup_setMore,if_pos rfl]
    rfl
  · obtain ⟨recs,entries,shape⟩ := e.setMore_frame head more
    exact ⟨recs,entries,e.clients,shape⟩

end

theorem forgetOffer_frame (e : MemoryEngine) (owner taker head : Nat) :
    ∃ clients, e.forgetOfferLocked owner taker head = { e with clients := clients } := by
  unfold forgetOfferLocked modifyClient
  split
  · exact ⟨e.clients,rfl⟩
  split
  · exact ⟨e.clients,rfl⟩
  · exact ⟨_,rfl⟩

/-- The sessions after a source has been taken over. -/
def forgetTaken (e : MemoryEngine) (head own : Nat) : Option MemSource → GoMap Nat MemClient
  | some taken => (e.forgetOfferLocked taken.peer.storeID own head).clients
  | none => e.clients

theorem same_of_ofSession (src s : MemSource) (own : s.ofSession src.peer.storeID = true) : src.same s = true := by
  simp only [MemSource.ofSession] at own
  simp [MemSource.same,own]

section
variable {e : MemoryEngine} {head : Nat}

theorem eachSource_of_first (isFirst : (e.record head).first = some first) :
    e.eachSourceLocked head = first :: if (e.record head).more then e.moreOf head else [] := by
  simp [eachSourceLocked,isFirst]

theorem single_of_no_first (placed : e.Placed) (vacant : (e.record head).first = none) :
    (e.record head).more = false := by
  by_contra marked
  have started := placed.started head (by simpa using marked)
  rw [vacant] at started
  cases started

/-- The first source that is the same goes, and the new one comes last. -/
theorem putSource_spec (placed : e.Placed) (bound : head < e.recs.length) (src : MemSource) :
    SetSources e (e.putSourceLocked head src).1 head ((e.eachSourceLocked head).eraseP src.same ++ [src]) ∧
    (e.putSourceLocked head src).2 = (e.eachSourceLocked head).any (MemSource.ofSession src.peer.storeID) ∧
    (e.putSourceLocked head src).1.clients =
      e.forgetTaken head src.peer.storeID ((e.eachSourceLocked head).find? src.same) := by
  unfold putSourceLocked
  cases isFirst : (e.record head).first with
  | none =>
    have empty := (e.eachSource_eq_nil head).mpr isFirst
    rw [empty]
    exact ⟨e.set_first head bound placed (single_of_no_first placed isFirst) (some src),rfl,rfl⟩
  | some first =>
    rw [eachSource_of_first isFirst]
    obtain ⟨clients,forgot⟩ := e.forgetOffer_frame first.peer.storeID src.peer.storeID head
    cases several : (e.record head).more with
    | false =>
      simp only [if_true,Bool.false_eq_true,if_false]
      by_cases takes : src.same first = true
      · rw [if_pos takes]
        refine ⟨?_,by simp,by simp [takes,forgetTaken,setFirst,modifyRec]⟩
        rw [forgot]
        have set := ({ e with clients := clients } : MemoryEngine).set_first head bound
          ⟨placed.marked,placed.filled,placed.started,placed.heads⟩ several (some src)
        simpa [takes] using set.after_clients
      · have other : first.ofSession src.peer.storeID = false := by
          by_contra own
          exact takes (same_of_ofSession src first (by simpa using own))
        rw [if_neg takes]
        refine ⟨?_,by simp [other],?_⟩
        · simpa [takes] using e.set_more head bound first isFirst [src]
        · simp [takes,forgetTaken]
    | true =>
      simp only [Bool.true_eq_false,if_false,if_true]
      by_cases takes : src.same first = true
      · rw [if_pos takes]
        obtain ⟨more,known⟩ := Option.isSome_iff_exists.mp ((placed.marked head).mp several)
        have read : e.moreOf head = more := by simp [moreOf,known]
        obtain ⟨second,rest,shape⟩ := exists_cons_of_ne_nil (placed.filled head more known)
        refine ⟨?_,by simp,?_⟩
        · rw [forgot,read,shape]
          have set := ({ e with clients := clients } : MemoryEngine).set_both head bound (second :: (rest ++ [src]))
          simpa [takes] using set.after_clients
        · simp [takes,forgetTaken,setFirst,modifyRec]
      · rw [if_neg takes]
        cases found : (e.moreOf head).find? src.same with
        | none =>
          have none_ : (e.moreOf head).eraseP src.same = e.moreOf head :=
            eraseP_of_forall_not (by simpa using find?_eq_none.mp found)
          refine ⟨?_,by simp,?_⟩
          · simpa [takes,none_] using e.set_more head bound first isFirst (e.moreOf head ++ [src])
          · simp [takes,found,forgetTaken]
        | some taken =>
          obtain ⟨clients,forgot⟩ := e.forgetOffer_frame taken.peer.storeID src.peer.storeID head
          refine ⟨?_,by simp,?_⟩
          · dsimp only
            rw [forgot]
            have set := ({ e with clients := clients } : MemoryEngine).set_more head bound first isFirst
              ((e.moreOf head).eraseP src.same ++ [src])
            simpa [takes] using set.after_clients
          · simp [takes,found,forgetTaken]

/-- The sources of one session go, wherever they stand in the list. -/
theorem removeSources_spec (placed : e.Placed) (bound : head < e.recs.length) (storeID : Nat) :
    SetSources e (removeSourcesOfLocked storeID e head) head
      ((e.eachSourceLocked head).filter (fun s => s.peer.storeID != storeID)) ∧
    (removeSourcesOfLocked storeID e head).clients = e.clients := by
  unfold removeSourcesOfLocked
  cases isFirst : (e.record head).first with
  | none =>
    have empty := (e.eachSource_eq_nil head).mpr isFirst
    have single := single_of_no_first placed isFirst
    rw [empty]
    exact ⟨⟨fun _ => rfl,fun _ _ => ⟨rfl,rfl⟩,isFirst,single,placed.absent single,rfl,rfl,_,_,_,rfl⟩,rfl⟩
  | some first =>
    rw [eachSource_of_first isFirst]
    cases several : (e.record head).more with
    | false =>
      simp only [Bool.false_eq_true,if_false]
      refine ⟨?_,rfl⟩
      by_cases gone : first.peer.storeID = storeID
      · simpa [gone] using e.set_first head bound placed several none
      · simpa [gone] using e.set_first head bound placed several (some first)
    | true =>
      simp only [if_true]
      refine ⟨?_,?_⟩
      · by_cases gone : first.peer.storeID = storeID
        · simpa [gone] using e.set_both head bound ((e.moreOf head).filter (fun s => s.peer.storeID != storeID))
        · simpa [gone] using e.set_both head bound
            (first :: (e.moreOf head).filter (fun s => s.peer.storeID != storeID))
      · exact setMore_clients ..

theorem appendSource_spec (placed : e.Placed) (bound : head < e.recs.length) (src : MemSource) :
    SetSources e (e.appendSourceLocked head src) head (e.eachSourceLocked head ++ [src]) ∧
    (e.appendSourceLocked head src).clients = e.clients := by
  unfold appendSourceLocked
  cases isFirst : (e.record head).first with
  | none =>
    rw [(e.eachSource_eq_nil head).mpr isFirst]
    exact ⟨e.set_first head bound placed (single_of_no_first placed isFirst) (some src),rfl⟩
  | some first =>
    have whole : e.eachSourceLocked head = first :: e.moreOf head := by
      rw [eachSource_of_first isFirst]
      cases several : (e.record head).more with
      | true => rfl
      | false =>
        have absent := placed.marked head
        rw [several] at absent
        have none_ : e.more.lookup head = none := by simpa using absent
        simp [moreOf,none_]
    obtain ⟨_,_,frame⟩ := e.setMore_frame head (e.moreOf head ++ [src])
    refine ⟨?_,by rw [frame]⟩
    rw [whole]
    exact e.set_more head bound first isFirst (e.moreOf head ++ [src])

end

end MemoryEngine

end ENode.Storage
