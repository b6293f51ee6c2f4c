import ENode.MemoryEngine

/-! The chains of the memory engine. Every chain lists the live records of its hash, each
once and each of another size, and stays so when a file is stored, a record is removed
and the slab is renumbered. -/
namespace ENode.Storage

open GoText Slab List

def MemRec.bare (r : MemRec) : MemRec := { r with first := none, more := false }

/-- What the chains read of a record. -/
def MemRec.links (r : MemRec) : MemRec :=
  { live := r.live, hash := r.hash, size := r.size, next := r.next, sibling := r.sibling }

namespace MemoryEngine

/-- The slab read through the chains `chain`. -/
structure Chained (e : MemoryEngine) (chain : HashKey → List Nat) : Prop where
  linked : ∀ key, Linked (fun id => (e.record id).next) (e.files.lookup key) (chain key)
  members : ∀ key id, id ∈ chain key ↔ (e.record id).live = true ∧ (e.record id).hash = key
  sizes : ∀ key, ((chain key).map (fun id => (e.record id).size)).Nodup
  siblings : ∀ key, ∀ id ∈ chain key, (e.record id).sibling = true ↔ e.files.lookup key ≠ some id
  cleared : ∀ id, (e.record id).live = false → e.record id = {}
  counted : e.count = e.recs.countP (·.live)
  idle : (e.free ++ e.dead).Nodup ∧ ∀ id ∈ e.free ++ e.dead, id < e.recs.length ∧ (e.record id).live = false

/-- The chains the engine itself reads. -/
def Structured (e : MemoryEngine) : Prop := e.Chained e.chain

variable {id : Nat}

variable (e : MemoryEngine)

theorem live_bound (live : (e.record id).live = true) : id < e.recs.length := by
  by_contra outside
  simp only [record,getD_eq_getElem?_getD,getElem?_eq_none (Nat.le_of_not_lt outside)] at live
  cases live

theorem record_getElem (bound : id < e.recs.length) : e.recs[id]? = some (e.record id) := by
  simp [record,bound]

theorem record_modifyRec (i j : Nat) (f : MemRec → MemRec) (bound : i < e.recs.length) :
    (e.modifyRec i f).record j = if j = i then f (e.record i) else e.record j :=
  getD_modify e.recs i j f {} bound

theorem countP_modify (l : List MemRec) (p : MemRec → Bool) (i : Nat) (f : MemRec → MemRec) (a : MemRec)
    (atIndex : l[i]? = some a) :
    (l.modify i f).countP p + (if p a then 1 else 0) = l.countP p + (if p (f a) then 1 else 0) := by
  induction l generalizing i with
  | nil => cases atIndex
  | cons b _ ih =>
    cases i with
    | zero =>
      obtain rfl : b = a := by simpa using atIndex
      simp only [modify_zero_cons,countP_cons]
      omega
    | succ i =>
      have later := ih i (by simpa using atIndex)
      simp only [modify_succ_cons,countP_cons]
      omega

theorem countP_modifyRec (i : Nat) (f : MemRec → MemRec) (bound : i < e.recs.length)
    (same : (f (e.record i)).live = (e.record i).live) :
    (e.modifyRec i f).recs.countP (·.live) = e.recs.countP (·.live) := by
  have counted := countP_modify e.recs (·.live) i f (e.record i) (e.record_getElem bound)
  simp only [same] at counted
  exact Nat.add_right_cancel counted

namespace Chained

variable {e e' : MemoryEngine} {chain : HashKey → List Nat}

theorem chain_eq (chained : e.Chained chain) : e.chain = chain := by
  funext key
  have linked := chained.linked key
  refine linked.follow_eq _ ?_
  have within : chain key ⊆ List.range e.recs.length := by
    intro id member
    exact mem_range.mpr (e.live_bound ((chained.members key id).mp member).1)
  have fits := (linked.nodup.subperm within).length_le
  rwa [length_range] at fits

theorem structured (chained : e.Chained chain) : e.Structured := by
  have same := chained.chain_eq
  rw [Structured,same]
  exact chained

variable {key : HashKey}

section
variable (chained : e.Chained chain)
include chained

theorem live_of_mem (member : id ∈ chain key) : (e.record id).live = true := ((chained.members key id).mp member).1

theorem hash_of_mem (member : id ∈ chain key) : (e.record id).hash = key := ((chained.members key id).mp member).2

theorem head_mem {head : Nat} (known : e.files.lookup key = some head) : head ∈ chain key := by
  have first := (chained.linked key).head
  rw [known] at first
  exact mem_of_head? first

theorem outside (vacant : (e.record id).live = false) (key : HashKey) : id ∉ chain key := by
  intro member
  rw [chained.live_of_mem member] at vacant
  cases vacant

theorem unknown_iff (key : HashKey) : e.files.lookup key = none ↔ chain key = [] := by
  rw [← (chained.linked key).head,head?_eq_none_iff]

theorem head_exists (member : id ∈ chain key) : ∃ head, e.files.lookup key = some head :=
  Option.ne_none_iff_exists'.mp (fun unknown => ne_nil_of_mem member ((chained.unknown_iff key).mp unknown))

theorem last_exists {head : Nat} (known : e.files.lookup key = some head) : ∃ last, (chain key).getLast? = some last :=
  ⟨_,getLast?_eq_some_getLast (ne_nil_of_mem (chained.head_mem known))⟩

theorem head_injective {head : Nat} (known : e.files.lookup key = some head)
    (known' : e.files.lookup key' = some head) : key = key' := by
  rw [← chained.hash_of_mem (chained.head_mem known),chained.hash_of_mem (chained.head_mem known')]

theorem headLocked_eq (live : (e.record id).live = true) :
    e.files.lookup (e.record id).hash = some (e.headLocked id) := by
  have member := (chained.members (e.record id).hash id).mpr ⟨live,rfl⟩
  have flag := chained.siblings _ id member
  unfold headLocked
  cases known : e.files.lookup (e.record id).hash with
  | none =>
    rw [(chained.unknown_iff _).mp known] at member
    cases member
  | some _ =>
    split
    · rfl
    next first =>
      rw [known] at flag
      by_contra other
      exact first (flag.mpr other)

theorem find_spec {size id : Nat} :
    e.findLocked key size = some id ↔ id ∈ chain key ∧ (e.record id).size = size := by
  rw [findLocked,chained.chain_eq]
  constructor
  · intro found
    exact ⟨mem_of_find?_eq_some found,by simpa using find?_some found⟩
  · rintro ⟨member,rfl⟩
    cases found : (chain key).find? (fun j => (e.record j).size == (e.record id).size) with
    | none => simpa using find?_eq_none.mp found id member
    | some j =>
      have sized : (e.record j).size = (e.record id).size := by simpa using find?_some found
      rw [inj_on_of_nodup_map (chained.sizes key) (mem_of_find?_eq_some found) member sized]

/-- What the chains do not read may change. -/
theorem congr (files : e'.files = e.files) (count : e'.count = e.count)
    (live : e'.recs.countP (·.live) = e.recs.countP (·.live)) (length : e'.recs.length = e.recs.length)
    (perm : (e'.free ++ e'.dead).Perm (e.free ++ e.dead)) (links : ∀ id, (e'.record id).links = (e.record id).links)
    (vacant : ∀ id, (e.record id).live = false → e'.record id = e.record id) : e'.Chained chain := by
  have lives : ∀ id, (e'.record id).live = (e.record id).live := fun id => (congrArg MemRec.live (links id) :)
  refine ⟨fun key => ?_,fun key id => ?_,fun key => ?_,fun key id member => ?_,fun id gone => ?_,?_,?_⟩
  · rw [files]
    exact (chained.linked key).congr (fun id _ => (congrArg MemRec.next (links id) :))
  · rw [chained.members,lives,show (e'.record id).hash = (e.record id).hash from (congrArg MemRec.hash (links id) :)]
  · have sizes : ∀ id, (e'.record id).size = (e.record id).size := fun id => (congrArg MemRec.size (links id) :)
    simpa only [sizes] using chained.sizes key
  · rw [files,show (e'.record id).sibling = (e.record id).sibling from (congrArg MemRec.sibling (links id) :)]
    exact chained.siblings key id member
  · rw [lives] at gone
    rw [vacant id gone]
    exact chained.cleared id gone
  · rw [count,live]
    exact chained.counted
  · refine ⟨perm.nodup_iff.mpr chained.idle.1,fun id member => ?_⟩
    rw [length,lives]
    exact chained.idle.2 id (perm.mem_iff.mp member)

end

end Chained

theorem empty_chained (files : e.files = ∅) (recs : e.recs = []) (count : e.count = 0)
    (free : e.free = []) (dead : e.dead = []) : e.Chained (fun _ => []) := by
  have vacant : ∀ id, e.record id = {} := fun id => by simp [record,recs]
  refine ⟨fun _ => ?_,?_,?_,?_,fun id _ => vacant id,?_,?_⟩
  · rw [files]
    exact .nil
  · simp [vacant]
  · simp
  · simp
  · simp [count,recs]
  · simp [free,dead]

/-- What `storeFileLocked` does: one record is written, in place or at the end of the chain
of its hash, and nothing but links changes elsewhere. -/
structure StoreEffect (u : Unicode) (e : MemoryEngine) (chain : HashKey → List Nat) (file : File)
    (out : MemoryEngine × Nat) (id : Nat) : Prop where
  chained : out.1.Chained (Function.update chain (hashArray file.hash)
    (if id ∈ chain (hashArray file.hash) then chain (hashArray file.hash)
      else chain (hashArray file.hash) ++ [id]))
  head : out.1.files.lookup (hashArray file.hash) = some out.2
  keeps : ∀ key head, e.files.lookup key = some head → out.1.files.lookup key = some head
  others : ∀ key, key ≠ hashArray file.hash → out.1.files.lookup key = e.files.lookup key
  slot : id ∈ chain (hashArray file.hash) ∧ (e.record id).size = file.size ∨
    (e.record id).live = false ∧ ∀ j ∈ chain (hashArray file.hash), (e.record j).size ≠ file.size
  written : ∃ next sibling, out.1.record id =
    { setRecLocked file (e.record id) with next := next, sibling := sibling }
  links : ∀ j, j ≠ id → ∃ next, out.1.record j = { e.record j with next := next }
  names : out.1.names = if (e.record id).live then e.names.renameFile u id (e.record id).name file.name
    else e.names.indexName u id file.name
  clients : out.1.clients = e.clients
  clientsByHash : out.1.clientsByHash = e.clientsByHash
  more : out.1.more = e.more
  nextClientID : out.1.nextClientID = e.nextClientID
  layout : out.1.layout = e.layout

variable {e : MemoryEngine} {chain : HashKey → List Nat}

variable (u : Unicode)

/-- A slot that already holds the file. -/
theorem store_known (chained : e.Chained chain)
    {file : File} (found : e.findLocked (hashArray file.hash) file.size = some id) :
    StoreEffect u e chain file (e.storeFileLocked u file) id := by
  obtain ⟨member,sized⟩ := chained.find_spec.mp found
  have live := chained.live_of_mem member
  have hashed := chained.hash_of_mem member
  have bound := e.live_bound live
  simp only [storeFileLocked,found]
  have at_ : ∀ j, (e.modifyRec id (setRecLocked file)).record j =
      if j = id then setRecLocked file (e.record id) else e.record j :=
    fun j => e.record_modifyRec id j _ bound
  have kept : (e.modifyRec id (setRecLocked file)).Chained chain := by
    refine chained.congr rfl rfl (e.countP_modifyRec id _ bound live.symm) (length_modify ..) (List.Perm.refl _)
      (fun j => ?_) (fun j gone => ?_)
    · rw [at_]
      split
      next here => rw [here,MemRec.links,MemRec.links,live,hashed,sized]; rfl
      · rfl
    · rw [at_,if_neg (by rintro rfl; simp [live] at gone)]
  refine ⟨?_,?_,fun _ _ h => h,fun _ _ => rfl,.inl ⟨member,sized⟩,?_,fun j other => ?_,?_,rfl,rfl,rfl,rfl,rfl⟩
  · rw [if_pos member,Function.update_eq_self]
    exact ⟨kept.linked,kept.members,kept.sizes,kept.siblings,kept.cleared,kept.counted,kept.idle⟩
  · obtain ⟨_,isHead⟩ := chained.head_exists member
    show e.files.lookup _ = _
    rw [isHead]
    rfl
  · exact ⟨(e.record id).next,(e.record id).sibling,(at_ id).trans (if_pos rfl)⟩
  · exact ⟨(e.record j).next,(at_ j).trans (if_neg other)⟩
  · rw [if_pos live]

theorem alloc_spec (chained : e.Chained chain) :
    ∃ recs free id, e.allocLocked = ({ e with recs := recs, free := free },id) ∧
      id < recs.length ∧ (∀ j, recs.getD j {} = e.record j) ∧ (e.record id).live = false ∧
      recs.countP (·.live) = e.recs.countP (·.live) ∧ (free ++ e.dead).Nodup ∧ id ∉ free ++ e.dead ∧
      ∀ j ∈ free ++ e.dead, j < recs.length ∧ (e.record j).live = false := by
  unfold allocLocked
  cases last : e.free.getLast? with
  | none =>
    have outside : (e.record e.recs.length).live = false := by simp [record]
    refine ⟨_,_,_,rfl,by simp,fun j => ?_,outside,by simp,chained.idle.1,fun member => ?_,fun j member => ?_⟩
    · exact getD_concat e.recs {} j
    · exact absurd (chained.idle.2 _ member).1 (Nat.lt_irrefl _)
    · have old := chained.idle.2 j member
      exact ⟨by simp; omega,old.2⟩
  | some id =>
    obtain ⟨front,split⟩ : ∃ front, e.free = front ++ [id] := ⟨_,(dropLast_append_getLast? id last).symm⟩
    have shape : e.free.dropLast = front := by simp [split]
    have idle := chained.idle
    have spread : ((front ++ e.dead) ++ [id]).Perm (e.free ++ e.dead) := by
      rw [split,append_assoc,append_assoc]
      exact List.Perm.append_left front perm_append_comm
    have apart := nodup_append.mp (spread.nodup_iff.mpr idle.1)
    have self := idle.2 id (spread.mem_iff.mp (by simp))
    refine ⟨e.recs,front,id,by simp [shape],self.1,fun j => rfl,self.2,rfl,apart.1,fun member => ?_,fun j member => ?_⟩
    · exact apart.2.2 id member id (by simp) rfl
    · exact idle.2 j (spread.mem_iff.mp (mem_append_left _ member))

/-- A vacant slot written and linked after the last record of its hash. -/
theorem Chained.append {e e' : MemoryEngine} (chained : e.Chained chain)
    (file : File) (id : Nat) (vacant : (e.record id).live = false)
    (fresh : ∀ j ∈ chain (hashArray file.hash), (e.record j).size ≠ file.size) (written : e'.record id =
      { setRecLocked file {} with sibling := (e.files.lookup (hashArray file.hash)).isSome })
    (others : ∀ j, j ≠ id → e'.record j = { e.record j with
      next := if (chain (hashArray file.hash)).getLast? = some j then some id else (e.record j).next })
    (files : ∀ k, e'.files.lookup k = if k = hashArray file.hash
      then some ((e.files.lookup (hashArray file.hash)).getD id) else e.files.lookup k)
    (counted : e'.count = e'.recs.countP (·.live))
    (idle : (e'.free ++ e'.dead).Nodup ∧ id ∉ e'.free ++ e'.dead ∧
      ∀ j ∈ e'.free ++ e'.dead, j < e'.recs.length ∧ (e.record j).live = false) :
    e'.Chained (Function.update chain (hashArray file.hash) (chain (hashArray file.hash) ++ [id])) := by
  generalize keyed : hashArray file.hash = key at *
  have outside := chained.outside vacant
  have distinct : ∀ k, ∀ j ∈ chain k, j ≠ id := fun k j member same => outside k (same ▸ member)
  have keeps : ∀ j, j ≠ id → (e'.record j).live = (e.record j).live ∧ (e'.record j).hash = (e.record j).hash ∧
      (e'.record j).size = (e.record j).size ∧ (e'.record j).sibling = (e.record j).sibling := by
    intro j other
    rw [others j other]
    exact ⟨rfl,rfl,rfl,rfl⟩
  have news : (e'.record id).live = true ∧ (e'.record id).hash = key ∧ (e'.record id).size = file.size ∧
      (e'.record id).next = none := by
    rw [written]
    exact ⟨rfl,keyed,rfl,rfl⟩
  refine ⟨fun k => ?_,fun k j => ?_,fun k => ?_,fun k j inside => ?_,fun j gone => ?_,counted,idle.1,?_⟩
  · by_cases here : k = key
    · subst here
      rw [Function.update_self,files,if_pos rfl]
      cases known : e.files.lookup k with
      | none =>
        rw [(chained.unknown_iff k).mp known]
        exact .cons id [] (by rw [news.2.2.2]; exact .nil)
      | some head =>
        have linked := chained.linked k
        rw [known] at linked
        obtain ⟨last,isLast⟩ := chained.last_exists known
        refine linked.concat isLast ?_ news.2.2.2 (fun j inside other => ?_)
        · rw [others last (distinct k last (mem_of_getLast? isLast)),if_pos isLast]
        · rw [others j (distinct k j inside),if_neg (by rw [isLast]; exact fun h => other (Option.some.inj h).symm)]
    · rw [Function.update_of_ne here,files,if_neg here]
      refine (chained.linked k).congr (fun j inside => ?_)
      rw [others j (distinct k j inside),if_neg]
      intro isLast
      exact here ((chained.hash_of_mem inside).symm.trans (chained.hash_of_mem (mem_of_getLast? isLast)))
  · by_cases same : j = id
    · subst same
      by_cases here : k = key
      · subst here
        simp [news.1,news.2.1]
      · rw [Function.update_of_ne here,news.1,news.2.1]
        simp [outside k,Ne.symm here]
    · rw [(keeps j same).1,(keeps j same).2.1,← chained.members]
      by_cases here : k = key
      · subst here
        simp [same]
      · rw [Function.update_of_ne here]
  · by_cases here : k = key
    · subst here
      rw [Function.update_self,map_append,map_congr_left
        (fun j inside => (keeps j (distinct k j inside)).2.2.1)]
      refine nodup_append.mpr ⟨chained.sizes k,by simp,fun _ ha _ hb => ?_⟩
      obtain ⟨j,inside,rfl⟩ := mem_map.mp ha
      rw [map_singleton,mem_singleton,news.2.2.1] at hb
      rw [hb]
      exact fresh j inside
    · rw [Function.update_of_ne here,map_congr_left
        (fun j inside => (keeps j (distinct k j inside)).2.2.1)]
      exact chained.sizes k
  · by_cases here : k = key
    · subst here
      rw [Function.update_self,mem_append,mem_singleton] at inside
      rw [files,if_pos rfl]
      rcases inside with old | rfl
      · obtain ⟨head,known⟩ := chained.head_exists old
        rw [(keeps j (distinct k j old)).2.2.2,chained.siblings k j old,known]
        rfl
      · rw [written]
        cases known : e.files.lookup k with
        | none => simp
        | some head => simpa using distinct k head (chained.head_mem known)
    · rw [Function.update_of_ne here] at inside
      rw [files,if_neg here,(keeps j (distinct k j inside)).2.2.2]
      exact chained.siblings k j inside
  · have other : j ≠ id := by
      rintro rfl
      rw [news.1] at gone
      cases gone
    rw [(keeps j other).1] at gone
    have empty := chained.cleared j gone
    rw [others j other,if_neg]
    · exact empty
    · exact fun isLast => chained.outside gone _ (mem_of_getLast? isLast)
  · intro j member
    have other : j ≠ id := fun same => idle.2.1 (same ▸ member)
    rw [(keeps j other).1]
    exact idle.2.2 j member

/-- A file under a new hash or of a new size. -/
theorem store_new (chained : e.Chained chain)
    {file : File} (absent : e.findLocked (hashArray file.hash) file.size = none) :
    ∃ id, StoreEffect u e chain file (e.storeFileLocked u file) id := by
  obtain ⟨recs,free,id,alloc,bound,reads,vacant,count,apart,notFree,idle⟩ := alloc_spec chained
  have fresh : ∀ j ∈ chain (hashArray file.hash), (e.record j).size ≠ file.size := by
    intro j member sized
    rw [chained.find_spec.mpr ⟨member,sized⟩] at absent
    cases absent
  have outside := chained.outside vacant
  have empty := chained.cleared id vacant
  simp only [storeFileLocked,absent,alloc]
  -- the slot is written in a state `a` whose other slots are still those of `e`
  let a : MemoryEngine := { ({ e with recs := recs, free := free } : MemoryEngine).modifyRec id (setRecLocked file) with
    count := e.count + 1
    names := e.names.indexName u id file.name }
  have reads_a : ∀ j, a.record j = if j = id then setRecLocked file {} else e.record j := by
    intro j
    refine (getD_modify recs id j (setRecLocked file) {} bound).trans ?_
    rw [reads,reads,empty]
  have length_a : a.recs.length = recs.length := length_modify ..
  have counted_a : a.count = a.recs.countP (·.live) := by
    have read : recs[id]? = some {} := by
      have slot := reads id
      rw [empty,getD_eq_getElem?_getD,getElem?_eq_getElem bound] at slot
      rw [getElem?_eq_getElem bound]
      exact congrArg some slot
    have step := countP_modify recs (·.live) id (setRecLocked file) {} read
    have total := chained.counted
    show e.count + 1 = _
    exact (by rw [total,← count]; exact step.symm)
  cases known : e.files.lookup (hashArray file.hash) with
  | none =>
    refine ⟨id,?_,?_,?_,?_,.inr ⟨vacant,fresh⟩,?_,?_,by rw [vacant]; rfl,rfl,rfl,rfl,rfl,rfl⟩
    · rw [if_neg (outside _)]
      refine chained.append file id vacant fresh ?_ ?_ ?_ counted_a ⟨apart,notFree,length_a ▸ idle⟩
      · refine (reads_a id).trans ?_
        rw [if_pos rfl,known]
        rfl
      · intro j other
        refine (reads_a j).trans ?_
        rw [if_neg other,(chained.unknown_iff _).mp known]
        rfl
      · intro k
        rw [known]
        exact GoMap.lookup_insert_ite ..
    · exact AList.lookup_insert ..
    · intro k head wasKnown
      refine (GoMap.lookup_insert_ite ..).trans ?_
      rw [if_neg (by rintro rfl; rw [known] at wasKnown; cases wasKnown)]
      exact wasKnown
    · intro k other
      exact (GoMap.lookup_insert_ite ..).trans (if_neg other)
    · refine ⟨none,false,(reads_a id).trans ?_⟩
      rw [if_pos rfl,empty]
      rfl
    · intro j other
      exact ⟨(e.record j).next,(reads_a j).trans (if_neg other)⟩
  | some head =>
    obtain ⟨last,isLast⟩ := chained.last_exists known
    have lastIn := mem_of_getLast? isLast
    have lastOther : last ≠ id := fun same => outside _ (same ▸ lastIn)
    have lastLive : (a.record last).live = true := by
      rw [reads_a,if_neg lastOther]
      exact chained.live_of_mem lastIn
    have lastEq : (e.chain (hashArray file.hash)).getLast?.getD head = last := by
      rw [chained.chain_eq,isLast,Option.getD_some]
    dsimp only
    rw [lastEq]
    let b := a.modifyRec last (fun r => { r with next := some id })
    have reads_b : ∀ j, b.record j = if j = last then { a.record last with next := some id } else a.record j :=
      fun j => a.record_modifyRec last j _ (a.live_bound lastLive)
    have length_b : b.recs.length = recs.length := (length_modify ..).trans length_a
    let c := b.modifyRec id (fun r => { r with sibling := true })
    have reads_c : ∀ j, c.record j = if j = id then { b.record id with sibling := true } else b.record j :=
      fun j => b.record_modifyRec id j _ (length_b ▸ bound)
    have written_c : c.record id = { setRecLocked file {} with sibling := true } := by
      rw [reads_c,if_pos rfl,reads_b,if_neg (Ne.symm lastOther),reads_a,if_pos rfl]
    have others_c : ∀ j, j ≠ id →
        c.record j = { e.record j with next := if last = j then some id else (e.record j).next } := by
      intro j other
      rw [reads_c,if_neg other,reads_b]
      by_cases here : j = last
      · subst here
        rw [if_pos rfl,if_pos rfl,reads_a,if_neg other]
      · rw [if_neg here,if_neg (Ne.symm here),reads_a,if_neg other]
    refine ⟨id,?_,known,fun _ _ h => h,fun _ _ => rfl,.inr ⟨vacant,fresh⟩,?_,?_,by rw [vacant]; rfl,rfl,rfl,rfl,rfl,rfl⟩
    · rw [if_neg (outside _)]
      refine chained.append file id vacant fresh ?_ ?_ ?_ ?_ ⟨apart,notFree,?_⟩
      · rw [known]
        exact written_c
      · intro j other
        rw [isLast]
        simpa using others_c j other
      · intro _
        rw [known]
        split
        next here => rw [here]; exact known
        · rfl
      · refine counted_a.trans ?_
        rw [countP_modifyRec b id _ (length_b ▸ bound) rfl]
        exact (countP_modifyRec a last _ (a.live_bound lastLive) rfl).symm
      · rw [modifyRec,length_modify,length_b]
        exact idle
    · exact ⟨none,true,by rw [empty]; exact written_c⟩
    · intro j other
      exact ⟨_,others_c j other⟩

theorem store_effect (chained : e.Chained chain)
    (file : File) : ∃ id, StoreEffect u e chain file (e.storeFileLocked u file) id := by
  cases found : e.findLocked (hashArray file.hash) file.size with
  | none => exact store_new u chained found
  | some id => exact ⟨id,store_known u chained found⟩

/-- A record out of its chain and nothing but links changed in the rest of it. -/
structure Unlinked (e : MemoryEngine) (chain : HashKey → List Nat) (id : Nat) (a : MemoryEngine) : Prop where
  linked : Linked (fun j => (a.record j).next) (a.files.lookup (e.record id).hash)
    ((chain (e.record id).hash).erase id)
  siblings : ∀ j ∈ (chain (e.record id).hash).erase id,
    (a.record j).sibling = true ↔ a.files.lookup (e.record id).hash ≠ some j
  others : ∀ key, key ≠ (e.record id).hash → a.files.lookup key = e.files.lookup key
  apart : ∀ j, j ∉ chain (e.record id).hash → a.record j = e.record j
  links : ∀ j, ∃ next sibling, a.record j = { e.record j with next := next, sibling := sibling }
  length : a.recs.length = e.recs.length
  live : a.recs.countP (·.live) = e.recs.countP (·.live)
  frame : ∃ recs files, a = { e with recs := recs, files := files }

theorem unlink_spec (chained : e.Chained chain)
    (live : (e.record id).live = true) : Unlinked e chain id (e.unlinkRec id) := by
  have member := (chained.members _ id).mpr ⟨live,rfl⟩
  obtain ⟨head,known⟩ := chained.head_exists member
  have linked := chained.linked (e.record id).hash
  have distinct := linked.nodup
  rw [known] at linked
  simp only [unlinkRec,known,Option.getD_some]
  by_cases isHead : head = id
  · subst isHead
    rw [if_pos rfl]
    obtain ⟨rest,split⟩ : ∃ rest, chain (e.record head).hash = head :: rest := by
      cases shape : chain (e.record head).hash with
      | nil => rw [shape] at member; cases member
      | cons first rest =>
        have start := linked.head
        rw [shape] at start
        obtain rfl : first = head := by simpa using start
        exact ⟨rest,rfl⟩
    rw [split] at linked distinct
    have fresh := (nodup_cons.mp distinct).1
    have tail : Linked (fun j => (e.record j).next) (e.record head).next rest := by
      cases linked with
      | cons _ _ tail => exact tail
    have later : ∀ j ∈ rest, (e.record j).sibling = true := by
      intro j inside
      rw [chained.siblings _ j (by rw [split]; exact .tail _ inside),known]
      rintro ⟨rfl⟩
      exact fresh inside
    have erased : (chain (e.record head).hash).erase head = rest := by rw [split,erase_cons_head]
    cases second : (e.record head).next with
    | none =>
      rw [second] at tail
      cases tail
      refine ⟨?_,?_,?_,fun _ _ => rfl,fun j => ⟨_,_,rfl⟩,rfl,rfl,_,_,rfl⟩
      · rw [erased]
        rw [AList.lookup_erase]
        exact .nil
      · rw [erased]
        exact nofun
      · intro key other
        exact AList.lookup_erase_ne other
    | some next =>
      rw [second] at tail
      have first : next ∈ rest := mem_of_head? tail.head
      have inChain : next ∈ chain (e.record head).hash := by rw [split]; exact .tail _ first
      have nextLive : (e.record next).live = true := chained.live_of_mem inChain
      have bound := e.live_bound nextLive
      have reads : ∀ j, (e.modifyRec next (fun r => { r with sibling := false })).record j =
          if j = next then { e.record next with sibling := false } else e.record j :=
        fun j => e.record_modifyRec next j _ bound
      have listed : (e.files.insert (e.record head).hash next).lookup (e.record head).hash = some next :=
        AList.lookup_insert ..
      refine ⟨?_,?_,?_,?_,?_,length_modify ..,e.countP_modifyRec next _ bound rfl,_,_,rfl⟩
      · rw [erased]
        rw [listed]
        refine tail.congr (fun j _ => ?_)
        show ((e.modifyRec next _).record j).next = _
        rw [reads]
        split
        next here => rw [here]
        · rfl
      · rw [erased]
        intro j inside
        show ((e.modifyRec next _).record j).sibling = true ↔
          (e.files.insert (e.record head).hash next).lookup (e.record head).hash ≠ some j
        rw [reads,listed]
        split
        next here => simp [here]
        next other => simp [later j inside,Ne.symm other]
      · intro _ other
        exact AList.lookup_insert_ne other
      · intro j outside
        refine (reads j).trans (if_neg ?_)
        rintro rfl
        exact outside (by rw [split]; exact .tail _ first)
      · intro j
        by_cases here : j = next
        · exact ⟨(e.record j).next,false,(reads j).trans (by rw [if_pos here,here])⟩
        · exact ⟨(e.record j).next,(e.record j).sibling,(reads j).trans (if_neg here)⟩
  · rw [if_neg isHead,chained.chain_eq]
    have notFirst : (some head : Option Nat) ≠ some id := fun same => isHead (Option.some.inj same)
    obtain ⟨witness,within,linkTo⟩ := linked.exists_prev member notFirst
    obtain ⟨prev,found⟩ : ∃ prev, (chain (e.record id).hash).find?
        (fun prev => (e.record prev).next == some id) = some prev := by
      apply Option.isSome_iff_exists.mp
      rw [find?_isSome]
      exact ⟨witness,within,by simpa using linkTo⟩
    have prevIn := mem_of_find?_eq_some found
    have link : (e.record prev).next = some id := by simpa using find?_some found
    have bound := e.live_bound (chained.live_of_mem prevIn)
    have reads : ∀ j, (e.modifyRec prev (fun r => { r with next := (e.record id).next })).record j =
        if j = prev then { e.record prev with next := (e.record id).next } else e.record j :=
      fun j => e.record_modifyRec prev j _ bound
    rw [found]
    refine ⟨?_,?_,fun _ _ => rfl,?_,?_,length_modify ..,e.countP_modifyRec prev _ bound rfl,_,_,rfl⟩
    · show Linked _ (e.files.lookup _) _
      rw [known]
      refine linked.bypass member notFirst prevIn link ?_ (fun j _ other _ => ?_)
      · rw [reads,if_pos rfl]
      · rw [reads,if_neg other]
    · intro j inside
      show ((e.modifyRec prev _).record j).sibling = true ↔ e.files.lookup _ ≠ some j
      rw [← chained.siblings _ j (mem_of_mem_erase inside),reads]
      split
      next here => rw [here]
      · rfl
    · intro j outside
      refine (reads j).trans (if_neg ?_)
      rintro rfl
      exact outside prevIn
    · intro j
      by_cases here : j = prev
      · exact ⟨(e.record id).next,(e.record j).sibling,(reads j).trans (by rw [if_pos here,here])⟩
      · exact ⟨(e.record j).next,(e.record j).sibling,(reads j).trans (if_neg here)⟩

/-- What `removeRecLocked` does to a live record. -/
structure RemoveEffect (u : Unicode) (e : MemoryEngine) (chain : HashKey → List Nat) (id : Nat)
    (e' : MemoryEngine) : Prop where
  chained : e'.Chained (Function.update chain (e.record id).hash ((chain (e.record id).hash).erase id))
  others : ∀ key, key ≠ (e.record id).hash → e'.files.lookup key = e.files.lookup key
  gone : e'.record id = {}
  links : ∀ j, j ≠ id → ∃ next sibling, e'.record j = { e.record j with next := next, sibling := sibling }
  names : e'.names = e.names.removeFile u (e.record id).name
  length : e'.recs.length = e.recs.length
  clients : e'.clients = e.clients
  clientsByHash : e'.clientsByHash = e.clientsByHash
  more : e'.more = e.more
  nextClientID : e'.nextClientID = e.nextClientID
  layout : e'.layout = e.layout

theorem remove_effect (chained : e.Chained chain)
    (id : Nat) (live : (e.record id).live = true) : RemoveEffect u e chain id (e.removeRecLocked u id) := by
  have distinct := (chained.linked (e.record id).hash).nodup
  have spec := unlink_spec chained live
  obtain ⟨_,_,shape⟩ := spec.frame
  have bound : id < (e.unlinkRec id).recs.length := spec.length ▸ e.live_bound live
  have reads : ∀ j, (e.removeRecLocked u id).record j = if j = id then {} else (e.unlinkRec id).record j :=
    fun j => (e.unlinkRec id).record_modifyRec id j _ bound
  have outside : ∀ j ∈ (chain (e.record id).hash).erase id, j ≠ id := by
    rintro j inside rfl
    exact distinct.not_mem_erase inside
  have links : ∀ j, j ≠ id → ∃ next sibling,
      (e.removeRecLocked u id).record j = { e.record j with next := next, sibling := sibling } := by
    intro j other
    rw [reads,if_neg other]
    exact spec.links j
  have keeps : ∀ j, j ≠ id → ((e.removeRecLocked u id).record j).live = (e.record j).live ∧
      ((e.removeRecLocked u id).record j).hash = (e.record j).hash ∧
      ((e.removeRecLocked u id).record j).size = (e.record j).size := by
    intro j other
    obtain ⟨next,sibling,same⟩ := links j other
    rw [same]
    exact ⟨rfl,rfl,rfl⟩
  have cleared : (e.removeRecLocked u id).record id = {} := (reads id).trans (if_pos rfl)
  obtain ⟨names,clients,byHash,more,next,layout,free,dead,count⟩ :
      (e.removeRecLocked u id).names = e.names.removeFile u (e.record id).name ∧
      (e.removeRecLocked u id).clients = e.clients ∧ (e.removeRecLocked u id).clientsByHash = e.clientsByHash ∧
      (e.removeRecLocked u id).more = e.more ∧ (e.removeRecLocked u id).nextClientID = e.nextClientID ∧
      (e.removeRecLocked u id).layout = e.layout ∧ (e.removeRecLocked u id).free = e.free ∧
      (e.removeRecLocked u id).dead = e.dead ++ [id] ∧ (e.removeRecLocked u id).count = e.count - 1 := by
    simp [removeRecLocked,modifyRec,shape]
  have total : (e.removeRecLocked u id).recs.length = e.recs.length := (length_modify ..).trans spec.length
  have filesEq : (e.removeRecLocked u id).files = (e.unlinkRec id).files := rfl
  have inChain : ∀ k j, j ∈ Function.update chain (e.record id).hash ((chain (e.record id).hash).erase id) k ↔
      j ≠ id ∧ j ∈ chain k := by
    intro k j
    by_cases here : k = (e.record id).hash
    · rw [here,Function.update_self,distinct.mem_erase_iff]
    · rw [Function.update_of_ne here]
      refine ⟨fun inside => ⟨?_,inside⟩,And.right⟩
      rintro rfl
      exact here (chained.hash_of_mem inside).symm
  refine ⟨?_,fun key other => ?_,cleared,links,names,total,clients,byHash,more,next,layout⟩
  · refine ⟨fun k => ?_,fun k j => ?_,fun k => ?_,fun k j inside => ?_,fun j gone => ?_,?_,?_⟩
    · rw [filesEq]
      by_cases here : k = (e.record id).hash
      · rw [here,Function.update_self]
        refine spec.linked.congr (fun j inside => ?_)
        rw [reads,if_neg (outside j inside)]
      · rw [Function.update_of_ne here,spec.others k here]
        refine (chained.linked k).congr (fun j inside => ?_)
        have elsewhere : (e.record j).hash ≠ (e.record id).hash := by
          rw [chained.hash_of_mem inside]
          exact here
        rw [reads,if_neg (fun same : j = id => elsewhere (by rw [same])),
          spec.apart j (fun other => elsewhere (chained.hash_of_mem other))]
    · rw [inChain]
      by_cases same : j = id
      · subst same
        simp [cleared]
      · rw [(keeps j same).1,(keeps j same).2.1,chained.members]
        simp [same]
    · have sublist : (Function.update chain (e.record id).hash ((chain (e.record id).hash).erase id) k).Sublist
          (chain k) := by
        by_cases here : k = (e.record id).hash
        · rw [here,Function.update_self]
          exact erase_sublist
        · rw [Function.update_of_ne here]
      rw [map_congr_left (fun j inside => (keeps j ((inChain k j).mp inside).1).2.2)]
      exact List.Nodup.sublist (sublist.map _) (chained.sizes k)
    · have old := (inChain k j).mp inside
      rw [filesEq,reads,if_neg old.1]
      by_cases here : k = (e.record id).hash
      · rw [here,Function.update_self] at inside
        rw [here]
        exact spec.siblings j inside
      · rw [spec.others k here,spec.apart j]
        · exact chained.siblings k j old.2
        · intro other
          exact here ((chained.hash_of_mem old.2).symm.trans (chained.hash_of_mem other))
    · by_cases same : j = id
      · rw [same]
        exact cleared
      · rw [(keeps j same).1] at gone
        rw [reads,if_neg same,spec.apart j (chained.outside gone _)]
        exact chained.cleared j gone
    · have wasLive : ((e.unlinkRec id).record id).live = true := by
        obtain ⟨_,_,same⟩ := spec.links id
        rw [same]
        exact live
      have step := countP_modify (e.unlinkRec id).recs (·.live) id (fun _ => {}) _
        ((e.unlinkRec id).record_getElem bound)
      simp only [wasLive,if_true,Bool.false_eq_true,if_false,Nat.add_zero] at step
      have before := spec.live
      have total := chained.counted
      show _ = ((e.unlinkRec id).recs.modify id (fun _ => {})).countP (·.live)
      omega
    · rw [free,dead,← append_assoc]
      refine ⟨nodup_append.mpr ⟨chained.idle.1,by simp,fun a ha _ hb => ?_⟩,fun j inside => ?_⟩
      · rw [mem_singleton.mp hb]
        rintro rfl
        rw [(chained.idle.2 a ha).2] at live
        cases live
      · rw [total]
        rcases mem_append.mp inside with old | new
        · have was := chained.idle.2 j old
          have other : j ≠ id := by
            rintro rfl
            rw [was.2] at live
            cases live
          exact ⟨was.1,(keeps j other).1.trans was.2⟩
        · rw [mem_singleton.mp new,cleared]
          exact ⟨e.live_bound live,rfl⟩
  · exact spec.others key other

/-- The new id of a live record. -/
def position (e : MemoryEngine) (id : Nat) : Nat := rank (·.live) e.recs id

theorem renumber_live (live : (e.record id).live = true) : e.renumber id = some (e.position id) := if_pos live

theorem position_injective (hi : (e.record i).live = true)
    (hj : (e.record j).live = true) (same : e.position i = e.position j) : i = j :=
  rank_injective _ e.recs i j _ _ (e.record_getElem (e.live_bound hi)) (e.record_getElem (e.live_bound hj)) hi hj same

theorem rebuild_read (e : MemoryEngine) (live : (e.record id).live = true) :
    (e.rebuildIndexLocked u).recs[e.position id]? =
      some { e.record id with next := (e.record id).next.bind e.renumber } := by
  have kept := getElem?_filter_rank (·.live) e.recs id _ (e.record_getElem (e.live_bound live)) live
  simp only [rebuildIndexLocked,position,getElem?_map,kept,Option.map_some]

theorem rebuild_record (e : MemoryEngine) (live : (e.record id).live = true) :
    (e.rebuildIndexLocked u).record (e.position id) =
      { e.record id with next := (e.record id).next.bind e.renumber } := by
  rw [record,getD_eq_getElem?_getD,e.rebuild_read u live,Option.getD_some]

theorem rebuild_origin (e : MemoryEngine) (bound : n < (e.rebuildIndexLocked u).recs.length) :
    ∃ id, (e.record id).live = true ∧ e.position id = n := by
  have short : n < (e.recs.filter (·.live)).length := by simpa [rebuildIndexLocked] using bound
  obtain ⟨id,atIndex,live,place⟩ := exists_rank (·.live) e.recs n _ (getElem?_eq_getElem short)
  refine ⟨id,?_,place⟩
  simp only [record,getD_eq_getElem?_getD,atIndex,Option.getD_some]
  exact live

theorem rebuild_files (chained : e.Chained chain) (key : HashKey) :
    (e.rebuildIndexLocked u).files.lookup key = (e.files.lookup key).map e.position := by
  refine (GoMap.lookup_mapVals ..).trans ?_
  cases known : e.files.lookup key with
  | none => rfl
  | some head =>
    simp only [Option.map_some,renumbered,e.renumber_live (chained.live_of_mem (chained.head_mem known)),
      Option.getD_some]

/-- The renumbered slab has the same chains under the new ids. -/
theorem rebuild_chained (chained : e.Chained chain) :
    (e.rebuildIndexLocked u).Chained (fun key => (chain key).map e.position) := by
  have files := rebuild_files u chained
  have places : ∀ key, ∀ id ∈ chain key, (e.rebuildIndexLocked u).record (e.position id) =
      { e.record id with next := (e.record id).next.bind e.renumber } :=
    fun key id member => e.rebuild_record u (chained.live_of_mem member)
  refine ⟨fun key => ?_,fun key n => ?_,fun key => ?_,fun key n member => ?_,fun n gone => ?_,?_,by
    simp [rebuildIndexLocked]⟩
  · rw [files]
    refine (chained.linked key).map e.position (fun id member => ?_)
    obtain ⟨_,within,linked⟩ := (chained.linked key).suffix member
    rw [places key id member]
    cases second : (e.record id).next with
    | none => rfl
    | some next =>
      have first := linked.head
      rw [second] at first
      have inside : next ∈ chain key := within.subset (.tail _ (mem_of_head? first))
      exact e.renumber_live (chained.live_of_mem inside)
  · rw [mem_map]
    constructor
    · rintro ⟨id,member,rfl⟩
      rw [places key id member]
      exact (chained.members key id).mp member
    · rintro ⟨live,hashed⟩
      obtain ⟨id,wasLive,rfl⟩ := e.rebuild_origin u ((e.rebuildIndexLocked u).live_bound live)
      rw [e.rebuild_record u wasLive] at hashed
      exact ⟨id,(chained.members key id).mpr ⟨wasLive,hashed⟩,rfl⟩
  · rw [map_map]
    rw [map_congr_left (fun id member => by
      show ((e.rebuildIndexLocked u).record (e.position id)).size = (e.record id).size
      rw [places key id member])]
    exact chained.sizes key
  · obtain ⟨id,inside,rfl⟩ := mem_map.mp member
    rw [places key id inside,files]
    refine (chained.siblings key id inside).trans ?_
    cases known : e.files.lookup key with
    | none => simp
    | some _ =>
      have headLive := chained.live_of_mem (chained.head_mem known)
      simp only [Option.map_some,ne_eq,Option.some.injEq]
      exact not_congr ⟨fun same => by rw [same],e.position_injective headLive (chained.live_of_mem inside)⟩
  · by_cases bound : n < (e.rebuildIndexLocked u).recs.length
    · obtain ⟨id,live,rfl⟩ := e.rebuild_origin u bound
      rw [e.rebuild_record u live] at gone
      exact absurd live (by rw [show (e.record id).live = false from gone]; simp)
    · rw [record,getD_eq_getElem?_getD,getElem?_eq_none (Nat.le_of_not_lt bound),Option.getD_none]
  · show e.count = ((e.recs.filter MemRec.live).map
      (fun r => { r with next := r.next.bind e.renumber })).countP MemRec.live
    rw [chained.counted,countP_map,countP_eq_length_filter,countP_eq_length.mpr]
    intro _ member
    exact (mem_filter.mp member).2

theorem purged_chained (chained : e.Chained chain) (names : NameIndex) :
    ({ e with names := names, free := e.free ++ e.dead, dead := [] } : MemoryEngine).Chained chain :=
  chained.congr rfl rfl rfl rfl (by simp) (fun _ => rfl) (fun _ _ => rfl)

end MemoryEngine

end ENode.Storage
