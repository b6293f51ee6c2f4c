import ENode.HandoffTransfer
import ENode.MemoryUserHashes

/-! What callers see of a handover: nothing, when no `Disconnect` is on its way and the
index by user hash names every session; and which sources outlive every session. -/
namespace ENode.Storage

open GoText Slab MemoryEngine List

variable {clients : List (Nat × MemClient)}

namespace MemoryEngine

section
variable {u : Unicode} {e e' : MemoryEngine} {pending : List Pending}

theorem carried_peer (key : HashKey) (s : MemSource) : (e.carried e.view.identity key s).peer =
    match (e.clients.lookup s.owner).filter (fun c => c.peer.is s.peer) with
    | some c => c.peer
    | none => { s.peer with shared := false } := by
  rcases Option.eq_none_or_eq_some (e.clients.lookup s.owner) with gone | ⟨c,found⟩
  · have gone' : e.clients.lookup s.peer.storeID = none := gone
    simp only [carried,importedSource,exportSource,View.identity,view_sessions,gone,gone']
    rfl
  · have found' : e.clients.lookup s.peer.storeID = some c := found
    simp only [carried,importedSource,exportSource,View.identity,view_sessions,found,found',Option.map_some,
      Option.all_some]
    cases own : c.peer.is s.peer with
    | true =>
      rw [Option.filter_some_pos (p := fun c : MemClient => c.peer.is s.peer) own]
      rfl
    | false =>
      rw [Option.filter_some_neg (p := fun c : MemClient => c.peer.is s.peer) own]
      rfl

theorem Owned.carried_owner (owned : e.Owned pending) (key : HashKey) (s : MemSource) :
    (e.carried e.view.identity key s).owner = s.owner := by
  rw [MemSource.owner,carried_peer]
  split
  next c found =>
    have keyed := owned.keyed _ c (Option.filter_eq_some_iff.mp found).1
    rw [keyed.2.2.2]
    exact keyed.2.2.1
  · rfl

variable (t : MemoryEngine)

def disconnectAll (e : MemoryEngine) (clients : List (Nat × MemClient)) : MemoryEngine :=
  clients.foldl (fun e c => e.disconnect c.2.info) e

end

end MemoryEngine

namespace View

/-- The sessions list exactly the hashes they have a source of. -/
def Listed (v : View) : Prop :=
  ∀ y s, v.sessions y = some s → ∀ key, key ∈ s.offered ↔ ∃ t ∈ v.sources key, t.owner = y

/-- When a session lists all its sources its `Disconnect` removes all of them. -/
theorem disconnect_listed {v : View} (listed : v.Listed) (nonzero : sid ≠ 0)
    (connected : v.sessions sid = some s) : (v.disconnect sid).Listed ∧
    (∀ key, (v.disconnect sid).sources key = (v.sources key).filter (fun t => t.owner != sid)) ∧
    (v.disconnect sid).sessions = Function.update v.sessions sid none := by
  have sources : ∀ key, (v.disconnect sid).sources key = (v.sources key).filter (fun t => t.owner != sid) := by
    intro key
    simp only [disconnect,if_neg nonzero,connected]
    split
    · rfl
    next absent =>
      refine (filter_eq_self.mpr (fun t member => ?_)).symm
      simp only [bne_iff_ne,ne_eq]
      exact fun own => absent ((listed sid s connected key).mpr ⟨t,member,own⟩)
  have sessions : (v.disconnect sid).sessions = Function.update v.sessions sid none := by
    simp only [disconnect,if_neg nonzero,connected]
  refine ⟨fun y other found key => ?_,sources,sessions⟩
  rw [sessions,Function.update_apply] at found
  split at found
  · cases found
  next apart =>
    rw [listed y other found key,sources]
    simp only [mem_filter,bne_iff_ne,ne_eq]
    constructor
    · rintro ⟨t,member,own⟩
      exact ⟨t,⟨member,fun same => apart (own.symm.trans same)⟩,own⟩
    · rintro ⟨t,⟨member,_⟩,own⟩
      exact ⟨t,member,own⟩

end View

namespace MemoryEngine

section
variable {u : Unicode} {e : MemoryEngine} {pending : List Pending}

theorem disconnectAll_sources {clients : List (Nat × MemClient)} (sound : e.Sound) (headed : e.Headed)
    (listed : e.view.Listed) (distinct : (clients.map Prod.fst).Nodup)
    (connected : ∀ c ∈ clients, c.1 ≠ 0 ∧ c.2.info.storeID = c.1 ∧ ∃ s, e.view.sessions c.1 = some s) (key : HashKey) :
    (e.disconnectAll clients).sourcesOf key =
      (e.sourcesOf key).filter (fun t => decide (t.owner ∉ clients.map Prod.fst)) := by
  unfold disconnectAll
  induction clients generalizing e with
  | nil => simp
  | cons c rest ih =>
    obtain ⟨nonzero,stored,s,found⟩ := connected c (.head _)
    have meant : e.storeIDOf c.2.info = c.1 := by rw [storeIDOf,stored,if_neg nonzero]
    obtain ⟨sound₁,headed₁,view₁⟩ := disconnect_view sound headed c.2.info
    obtain ⟨listed₁,sources₁,sessions₁⟩ := View.disconnect_listed listed nonzero found
    rw [meant] at view₁
    rw [← view₁] at listed₁ sources₁ sessions₁
    rw [map_cons,nodup_cons] at distinct
    have later : ∀ d ∈ rest, d.1 ≠ 0 ∧ d.2.info.storeID = d.1 ∧
        ∃ s, (e.disconnect c.2.info).view.sessions d.1 = some s := by
      intro d member
      obtain ⟨nonzero',stored',s',found'⟩ := connected d (.tail _ member)
      refine ⟨nonzero',stored',s',?_⟩
      have apart : d.1 ≠ c.1 := fun same => distinct.1 (same ▸ mem_map_of_mem member)
      rw [sessions₁,Function.update_of_ne apart,found']
    rw [foldl_cons,ih sound₁ headed₁ listed₁ distinct.2 later]
    have read : (e.disconnect c.2.info).sourcesOf key = (e.sourcesOf key).filter (fun t => t.owner != c.1) := sources₁ key
    rw [read,filter_filter]
    refine filter_congr (fun _ _ => ?_)
    rw [Bool.eq_iff_iff]
    simp [and_comm]

/-- What is left in an imported engine once all its sessions have gone. -/
theorem transfer_leftover {t : MemoryEngine} (sound : e.Sound) (contents : Contents u e) (owned : e.Owned pending)
    {files : List (HashKey × Nat)} (clientsVisited : e.clients.Visits clients)
    (filesVisited : e.files.Visits files)
    (visited : (t.importStream u (e.exportHandoff clients files)).clients.Visits order) (key : HashKey) :
    ((t.importStream u (e.exportHandoff clients files)).disconnectAll order).sourcesOf key =
      ((e.sourcesOf key).map (e.carried e.view.identity key)).filter
        (fun s => (e.clients.lookup s.owner).isNone) := by
  obtain ⟨sound',headed',_,sources,sessions,_⟩ := transfer_view t sound contents owned clientsVisited filesVisited
  generalize t.importStream u (e.exportHandoff clients files) = e' at visited sound' headed' sources sessions ⊢
  have present : ∀ sid, (∃ c, e'.clients.lookup sid = some c) ↔ ∃ c, e.clients.lookup sid = some c := by
    intro sid
    have same := congrArg Option.isSome (sessions sid)
    rw [view_sessions,view_sessions,Option.isSome_map,Option.isSome_map,Bool.eq_iff_iff] at same
    simpa [Option.isSome_iff_exists] using same
  have listed : e'.view.Listed := by
    intro _ s found k
    rw [sessions,view_sessions] at found
    obtain ⟨c,connected,rfl⟩ := Option.map_eq_some_iff.mp found
    rw [← Multiset.one_le_count_iff_mem,owned.offered_count sound connected k,sourceCount,Nat.one_le_iff_ne_zero,
      ← Nat.pos_iff_ne_zero,countP_pos_iff,sources]
    simp only [beq_iff_eq,mem_map]
    constructor
    · rintro ⟨s,member,own⟩
      exact ⟨_,⟨s,member,rfl⟩,(owned.carried_owner k s).trans own⟩
    · rintro ⟨_,⟨s,member,rfl⟩,own⟩
      exact ⟨s,member,(owned.carried_owner k s).symm.trans own⟩
  have all : ∀ c ∈ order, c.1 ≠ 0 ∧ c.2.info.storeID = c.1 ∧ ∃ s, e'.view.sessions c.1 = some s := by
    intro c member
    have here := (visited.mem c.1 c.2).mp member
    have seen := sessions c.1
    rw [view_sessions,here] at seen
    obtain ⟨d,connected,equal⟩ := Option.map_eq_some_iff.mp seen.symm
    obtain ⟨nonzero,_,stored,_⟩ := owned.keyed c.1 d connected
    have info : c.2.info = d.info := (congrArg Session.info equal).symm
    exact ⟨nonzero,info ▸ stored,_,by rw [view_sessions,here]; rfl⟩
  rw [disconnectAll_sources sound' headed' listed visited.keys_nodup all]
  have read : e'.sourcesOf key = (e.sourcesOf key).map (e.carried e.view.identity key) := sources key
  rw [read]
  refine filter_congr (fun s _ => ?_)
  rw [Bool.eq_iff_iff,decide_eq_true_iff,Option.isNone_iff_eq_none]
  have members : s.owner ∈ order.map Prod.fst ↔ ∃ c, e'.clients.lookup s.owner = some c := by
    simp only [mem_map,Prod.exists,exists_and_right,exists_eq_right,visited.mem]
  rw [members,present,← Option.isSome_iff_exists,Bool.not_eq_true,Option.isSome_eq_false_iff,Option.isNone_iff_eq_none]

end

end MemoryEngine

namespace System

variable {u : Unicode}

/-- In every state of an honest run, once every session of an imported engine has gone no
source is left exactly when every source of the exporting engine belonged to a connected
session, as it does with no `Disconnect` on its way. -/
theorem handover_mortal_iff (u : Unicode) (ops : List Op) (honest : ({} : System).HonestRun u ops)
    (t : MemoryEngine) (clients : List (Nat × MemClient)) (files : List (HashKey × Nat)) (order : List (Nat × MemClient))
    (clientsVisited : (({} : System).run u ops).engine.clients.Visits clients)
    (filesVisited : (({} : System).run u ops).engine.files.Visits files)
    (visited : (t.importStream u ((({} : System).run u ops).engine.exportHandoff clients files)).clients.Visits order) :
    let s := ({} : System).run u ops
    let e' := t.importStream u (s.engine.exportHandoff clients files)
    ((∀ key, (e'.disconnectAll order).sourcesOf key = []) ↔
      ∀ key, ∀ src ∈ s.engine.sourcesOf key, ∃ c, s.engine.clients.lookup src.owner = some c) ∧
    (s.pending = [] → ∀ key, (e'.disconnectAll order).sourcesOf key = []) := by
  intro s e'
  obtain ⟨sound,contents⟩ := reached_sound u ops
  have owned := reached_owned u ops honest
  have left := fun key => transfer_leftover sound contents owned clientsVisited filesVisited visited key
  have iff_ : (∀ key, (e'.disconnectAll order).sourcesOf key = []) ↔
      ∀ key, ∀ src ∈ s.engine.sourcesOf key, ∃ c, s.engine.clients.lookup src.owner = some c := by
    refine forall_congr' (fun key => ?_)
    rw [left key,filter_eq_nil_iff]
    simp only [mem_map,forall_exists_index,and_imp,forall_apply_eq_imp_iff₂]
    refine forall_congr' (fun src => imp_congr_right (fun _ => ?_))
    rw [owned.carried_owner,Option.isNone_iff_eq_none,← ne_eq,Option.ne_none_iff_exists']
  refine ⟨iff_,fun settled => iff_.mpr (fun _ _ member => ?_)⟩
  rw [show (({} : System).run u ops).pending = [] from settled] at owned
  exact owned.connected member

theorem handover_mortal_example :
    let file : File := { hash := replicate 16 1, name := lit "a", size := 5 }
    let ops : List Op := [.connect leaver,.offer [file] leaver]
    let e := (({} : System).run Unicode.ascii ops).engine
    let e' := ({} : MemoryEngine).importStream Unicode.ascii (e.exportHandoff (GoMap.pairs e.clients) (GoMap.pairs e.files))
    ∀ key, (e'.disconnectAll (GoMap.pairs e'.clients)).sourcesOf key = [] := by
  intro _ ops _ _
  refine (handover_mortal_iff Unicode.ascii ops ⟨trivial,⟨by decide,fun _ found => ?_⟩,trivial⟩ {} _ _ _
    (List.Perm.refl _) (List.Perm.refl _) (List.Perm.refl _)).2 rfl
  cases found
  rfl

theorem left_immortal {files : List File} (crowds : files.map (fun f => hashArray f.hash) = crowdKeys) :
    let e := (({} : System).run Unicode.ascii (leaving files)).engine
    let e' := ({} : MemoryEngine).importStream Unicode.ascii (e.exportHandoff (GoMap.pairs e.clients) (GoMap.pairs e.files))
    ∃ key, (e'.disconnectAll (GoMap.pairs e'.clients)).sourcesOf key ≠ [] := by
  obtain ⟨sound,contents⟩ := reached_sound Unicode.ascii (leaving files)
  have owned := reached_owned Unicode.ascii (leaving files) (leaving_honest files)
  have effect := left_effect crowds
  rw [← leaving_engine] at effect
  obtain ⟨connected,_,⟨key,_,_,member,own⟩,_⟩ := effect
  intro _ _
  refine ⟨key,?_⟩
  rw [transfer_leftover sound contents owned (List.Perm.refl _) (List.Perm.refl _) (List.Perm.refl _)]
  refine ne_nil_of_mem (mem_filter.mpr ⟨mem_map_of_mem member,?_⟩)
  rw [owned.carried_owner,own,Option.isNone_iff_eq_none]
  cases found : (({} : System).run Unicode.ascii (leaving files)).engine.clients.lookup 1 with
  | none => rfl
  | some c => exact absurd (connected 1 c found) (by decide)

theorem handover_immortal :
    let e := (({} : System).run Unicode.ascii (leaving crowd)).engine
    let e' := ({} : MemoryEngine).importStream Unicode.ascii (e.exportHandoff (GoMap.pairs e.clients) (GoMap.pairs e.files))
    ({} : System).HonestRun Unicode.ascii (leaving crowd) ∧
    ∃ key, (e'.disconnectAll (GoMap.pairs e'.clients)).sourcesOf key ≠ [] :=
  ⟨leaving_honest crowd,left_immortal crowd_keys⟩

end System

end ENode.Storage
