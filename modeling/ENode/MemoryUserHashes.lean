import ENode.MemoryInvariant
import ENode.MemoryView

/-! The memory engine's index by user hash. It names connected sessions under their own
hash over every run; it names all of them as long as no session connects under the hash of
one that is connected. -/
namespace ENode.Storage

open GoText Slab MemoryEngine

namespace MemoryEngine

/-- Whatever the index names is a connected session under its own hash. -/
def NamesConnected (e : MemoryEngine) : Prop :=
  ∀ hash sid, e.clientsByHash.lookup hash = some sid →
    0 < hash.length ∧ ∃ info, e.infoOf sid = some info ∧ info.hash = hash

/-- The index names the session of every connected user hash. -/
def HashIndexed (e : MemoryEngine) : Prop :=
  ∀ sid info, e.infoOf sid = some info → 0 < info.hash.length → e.clientsByHash.lookup info.hash = some sid

section
variable {u : Unicode} {e e' : MemoryEngine}

theorem SameSessions.named (same : SameSessions e e') (named : e.NamesConnected) : e'.NamesConnected := by
  intro hash sid found
  rw [same.byHash] at found
  rw [same.infos]
  exact named hash sid found

theorem SameSessions.indexed (same : SameSessions e e') (indexed : e.HashIndexed) : e'.HashIndexed := by
  intro sid info found long
  rw [same.infos] at found
  rw [same.byHash]
  exact indexed sid info found long

theorem left_named (named : e.NamesConnected) (found : e.clients.lookup sid = some c)
    (infos : ∀ y, e'.infoOf y = if y = sid then none else e.infoOf y)
    (byHash : e'.clientsByHash = (e.without sid c).clientsByHash) : e'.NamesConnected := by
  intro hash other named'
  rw [byHash,without_lookup] at named'
  split at named'
  · cases named'
  next kept =>
    obtain ⟨long,info',here,hashed⟩ := named hash other named'
    refine ⟨long,info',?_,hashed⟩
    rw [infos,if_neg]
    · exact here
    · rintro rfl
      have own : e.infoOf other = some c.info := by rw [infoOf,found]; rfl
      rw [own] at here
      obtain rfl := Option.some.inj here
      subst hashed
      exact kept ⟨long,named',rfl⟩

theorem left_indexed (indexed : e.HashIndexed)
    (infos : ∀ y, e'.infoOf y = if y = sid then none else e.infoOf y)
    (byHash : e'.clientsByHash = (e.without sid c).clientsByHash) : e'.HashIndexed := by
  intro other info' found long
  rw [infos] at found
  split at found
  · cases found
  next apart =>
    have before := indexed other info' found long
    rw [byHash,without_lookup,if_neg]
    · exact before
    · rintro ⟨_,named,same⟩
      rw [same,named] at before
      exact apart (Option.some.inj before).symm

theorem connect_named (named : e.NamesConnected) (bounded : ∀ sid info, e.infoOf sid = some info → sid ≤ e.nextClientID)
    (info : ClientInfo) : (e.connect info).1.NamesConnected := by
  obtain ⟨infos,byHash⟩ := e.connect_lookup info
  intro hash sid found
  rw [byHash] at found
  rw [infos]
  split at found
  next new =>
    obtain rfl := Option.some.inj found
    exact ⟨new.2 ▸ new.1,_,if_pos rfl,new.2.symm⟩
  · obtain ⟨long,info',here,hashed⟩ := named hash sid found
    have below := bounded sid info' here
    exact ⟨long,info',by rw [if_neg (by omega)]; exact here,hashed⟩

theorem connect_indexed (indexed : e.HashIndexed) (info : ClientInfo)
    (free : info.hash = [] ∨ ∀ sid other, e.infoOf sid = some other → other.hash ≠ info.hash) :
    (e.connect info).1.HashIndexed := by
  obtain ⟨infos,byHash⟩ := e.connect_lookup info
  intro sid info' found long
  rw [infos] at found
  rw [byHash]
  split at found
  next new =>
    obtain rfl := Option.some.inj found
    rw [if_pos ⟨long,rfl⟩,new]
  · rw [if_neg]
    · exact indexed sid info' found long
    · rintro ⟨some_,same⟩
      rcases free with empty | others
      · rw [empty] at some_
        exact absurd some_ (by decide)
      · exact others sid info' found same

end

end MemoryEngine

namespace System

variable {u : Unicode}

theorem step_named (s : System) (sound : s.engine.Sound) (contents : Contents u s.engine)
    (owned : s.engine.Owned s.pending) (op : Op) (honest : s.Honest op) (named : s.engine.NamesConnected) :
    (s.step u op).engine.NamesConnected := by
  have effect := step_sessions s sound contents op (fun _ imported => by subst imported; exact honest)
  generalize (s.step u op).engine = after at effect ⊢
  cases effect with
  | kept same next => exact same.named named
  | connected info =>
    refine connect_named named (fun sid _ found => ?_) info
    obtain ⟨c,connected,_⟩ := Option.map_eq_some_iff.mp found
    exact (owned.keyed sid c connected).2.1
  | left _ _ _ found infos byHash next => exact left_named named found infos byHash
  | released _ byHash _ =>
    intro _ _ found
    rw [byHash] at found
    cases found

/-- No session connects under the user hash of a connected one. -/
def OwnHash (s : System) : Op → Prop
  | .connect info => info.hash = [] ∨ ∀ sid other, s.engine.infoOf sid = some other → other.hash ≠ info.hash
  | .importHandoff _ => False
  | _ => True

theorem step_indexed (s : System) (sound : s.engine.Sound) (contents : Contents u s.engine) (op : Op)
    (own : s.OwnHash op) (indexed : s.engine.HashIndexed) : (s.step u op).engine.HashIndexed := by
  have effect := step_sessions s sound contents op (fun _ imported => by subst imported; exact own)
  generalize (s.step u op).engine = after at effect ⊢
  cases effect with
  | kept same next => exact same.indexed indexed
  | connected info => exact connect_indexed indexed info own
  | left info _ _ found infos byHash next => exact left_indexed indexed infos byHash
  | released infos _ _ =>
    intro _ _ found
    rw [infos] at found
    cases found

end System

end ENode.Storage
