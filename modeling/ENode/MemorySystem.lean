import ENode.Handoff

/-! The memory engine as a system: the operations its callers interleave at the points
where the lock is free, with every `Disconnect` that has released the lock as part of the
state. -/
namespace ENode.Storage

open GoText Slab MemoryEngine

/-- An operation under one acquisition of the lock. `disconnect` is a `Disconnect` that
runs to its end; the other two are its first chunk and the resumption of one on its way. -/
inductive Op where
  | connect (info : ClientInfo)
  | offer (files : List File) (info : ClientInfo)
  | disconnect (info : ClientInfo)
  | beginDisconnect (info : ClientInfo)
  | resumeDisconnect (i : Nat)
  | cleanupStale (maxAge : Int) (keepZeroSourceFiles : Bool)
  | rebuild
  | install (files : List File) (counter : Nat)
  | releaseIndex
  | importHandoff (stream : HandoffStream)

structure System where
  engine : MemoryEngine := {}
  pending : List Pending := []

namespace System

variable (u : Unicode)

def step (s : System) : Op → System
  | .connect info => { s with engine := (s.engine.connect info).1 }
  | .offer files info => { s with engine := s.engine.addFiles u files info }
  | .disconnect info => { s with engine := s.engine.disconnect info }
  | .beginDisconnect info =>
    let (e,p) := s.engine.startDisconnect info
    ⟨e,p.toList ++ s.pending⟩
  | .resumeDisconnect i =>
    match s.pending[i]? with
    | none => s
    | some p =>
      let (e,p') := s.engine.resumeDisconnect p
      ⟨e,p'.toList ++ s.pending.eraseIdx i⟩
  | .cleanupStale maxAge keep => { s with engine := (s.engine.cleanupStale u maxAge keep).1 }
  | .rebuild => { s with engine := s.engine.rebuildIndexLocked u }
  | .install files counter =>
    let e := s.engine.installFilesLocked u files
    { s with engine := { e with nextClientID := max e.nextClientID counter } }
  | .releaseIndex => { s with engine := s.engine.releaseIndex u }
  | .importHandoff stream => { s with engine := s.engine.importStream u stream }

def run (s : System) (ops : List Op) : System := ops.foldl (step u) s

/-- Every offer is made under a store id that `Connect` returned and, while the session
is connected, from its address; no foreign state is imported. -/
def Honest (s : System) : Op → Prop
  | .offer _ info => s.engine.Honest info
  | .importHandoff _ => False
  | _ => True

def HonestRun (s : System) : List Op → Prop
  | [] => True
  | op :: ops => s.Honest op ∧ (s.step u op).HonestRun ops

end System

namespace MemoryEngine

section
variable {u : Unicode} {e : MemoryEngine}

section
variable (P : MemoryEngine → Prop)

/-- What an offer does, whoever makes it: nothing, or it stores the file, puts a source on
its hash and may add to a session's list. -/
theorem addFile_rule (info : ClientInfo) (file : File) (refused : P e)
    (put : ∀ src, P ((e.storeFileLocked u (normalizeFile u file)).1.putSourceLocked
      (e.storeFileLocked u (normalizeFile u file)).2 src).1)
    (listed : ∀ a sid head, P a → P (modifyClient a sid (fun c => { c with offered := c.offered ++ [head] }))) :
    P (addFileLocked u info e file) := by
  unfold addFileLocked
  dsimp only
  split
  · exact refused
  split
  · exact listed _ _ _ (put _)
  · exact put _

/-- What every turn of a loop or of an operation keeps, the whole keeps. -/
theorem addFiles_rule (info : ClientInfo)
    (turn : ∀ a file, P a → P (addFileLocked u info a file)) (files : List File) (start : P e) : P (e.addFiles u files info) := by
  unfold addFiles
  exact List.foldlRecOn files _ start fun a held file _ => turn a file held

theorem finish_rule (resumed : ∀ a p, P a → P (a.resumeDisconnect p).1) (fuel : Nat)
    (state : MemoryEngine × Option Pending) (start : P state.1) : P (finishDisconnect fuel state) := by
  induction fuel generalizing state with
  | zero => exact start
  | succ _ ih =>
    obtain ⟨e,left⟩ := state
    cases left with
    | none => exact start
    | some p => exact ih _ (resumed e p start)

theorem cleanupStale_rule (maxAge : Int) (keep : Bool) (start : P e)
    (swept : P ((List.range e.recs.length).foldl (cleanupSlot u) (e,0)).1)
    (purged : ∀ a, P a → P { a with
      names := a.names.purge (fun id => !(a.record id).live), free := a.free ++ a.dead, dead := [] })
    (rebuilt : ∀ a, P a → P (a.rebuildIndexLocked u)) : P (e.cleanupStale u maxAge keep).1 := by
  have tidied : ∀ a, P a → P (if a.names.needsRebuild then a.rebuildIndexLocked u else a) := by
    intro a held
    split
    · exact rebuilt a held
    · exact held
  have maintained : ∀ a, P a → P (a.maintainIndexLocked u) := by
    intro a held
    unfold maintainIndexLocked
    split
    · exact tidied _ (purged a held)
    · exact tidied a held
  unfold cleanupStale
  split
  · exact start
  cases keep with
  | true => exact maintained e start
  | false => exact maintained _ swept

end

theorem addFile_sound (sound : e.Sound) (contents : Contents u e) (info : ClientInfo) (file : File) :
    (addFileLocked u info e file).Sound ∧ Contents u (addFileLocked u info e file) := by
  refine addFile_rule (fun a => a.Sound ∧ Contents u a) info file ⟨sound,contents⟩ (fun src => ?_) ?_
  · obtain ⟨_,effect⟩ := store_effect u sound.structured (normalizeFile u file)
    obtain ⟨sound₁,_,known⟩ := store_sound u sound (normalizeFile u file)
    obtain ⟨set,_⟩ := putSource_spec sound₁.placed (sound₁.known_bound known) src
    obtain ⟨sound₂,same,_⟩ := set.sound sound₁ known
    exact ⟨sound₂,same.contents (effect.contents contents)⟩
  · rintro a sid head ⟨sound,contents⟩
    obtain ⟨clients,frame⟩ := a.modifyClient_keeps sid (fun c => { c with offered := c.offered ++ [head] })
    rw [frame]
    exact ⟨sound.of_clients clients _ _ _,(sameFiles_clients a clients).contents contents⟩

theorem addFiles_sound (files : List File) (sound : e.Sound) (contents : Contents u e) (info : ClientInfo) :
    (e.addFiles u files info).Sound ∧ Contents u (e.addFiles u files info) :=
  addFiles_rule (fun a => a.Sound ∧ Contents u a) info (fun _ file held => addFile_sound held.1 held.2 info file) files
    ⟨sound,contents⟩

theorem chunk_sound (sound : e.Sound) (p : Pending) : (e.removeChunk p).1.Sound ∧ SameFiles e (e.removeChunk p).1 := by
  obtain ⟨sound',same,_⟩ := removeSources_fold p.storeID (p.rest.take disconnectChunk) sound
  exact ⟨sound',same⟩

theorem resume_sound (sound : e.Sound) (p : Pending) :
    (e.resumeDisconnect p).1.Sound ∧ SameFiles e (e.resumeDisconnect p).1 := by
  unfold resumeDisconnect
  split
  · obtain ⟨sound',same,_⟩ := removeAll_sound sound p.storeID
    exact ⟨sound',same⟩
  · exact chunk_sound sound p

theorem start_sound (sound : e.Sound) (contents : Contents u e) (info : ClientInfo) :
    (e.startDisconnect info).1.Sound ∧ Contents u (e.startDisconnect info).1 := by
  rcases e.start_cases info with ⟨-,nothing⟩ | ⟨c,-,-,started⟩
  · rw [nothing]
    exact ⟨sound,contents⟩
  · rw [started]
    obtain ⟨sound',same⟩ := chunk_sound (sound.of_clients (e.clients.erase (e.storeIDOf info))
      (e.without (e.storeIDOf info) c).clientsByHash e.nextClientID e.layout) ⟨e.storeIDOf info,c.offered,e.layout⟩
    exact ⟨sound',same.contents (contents.of_frame _ _ _)⟩

theorem finish_sound (fuel : Nat) {state : MemoryEngine × Option Pending} (sound : state.1.Sound)
    (contents : Contents u state.1) :
    (finishDisconnect fuel state).Sound ∧ Contents u (finishDisconnect fuel state) := by
  refine finish_rule (fun a => a.Sound ∧ Contents u a) (fun _ p held => ?_) fuel state ⟨sound,contents⟩
  obtain ⟨sound',same⟩ := resume_sound held.1 p
  exact ⟨sound',same.contents held.2⟩

theorem cleanup_contents (ids : List Nat) (state : MemoryEngine × Nat) (sound : state.1.Sound)
    (contents : Contents u state.1) : Contents u (ids.foldl (cleanupSlot u) state).1 := by
  induction ids generalizing state with
  | nil => exact contents
  | cons id _ ih =>
    refine ih _ (cleanupSlot_sound u state sound id).1 ?_
    unfold cleanupSlot
    dsimp only
    split
    next live =>
      split
      · exact (remove_effect u sound.structured id live).contents contents
      · exact contents
    · exact contents

theorem cleanupStale_sound (sound : e.Sound) (contents : Contents u e) (maxAge : Int) (keep : Bool) :
    (e.cleanupStale u maxAge keep).1.Sound ∧ Contents u (e.cleanupStale u maxAge keep).1 :=
  cleanupStale_rule (fun a => a.Sound ∧ Contents u a) maxAge keep ⟨sound,contents⟩
    ⟨(cleanup_fold u _ (e,0) sound).1,cleanup_contents _ (e,0) sound contents⟩
    (fun _ held => ⟨(purge_sound held.1 _).1,purge_contents held.2⟩)
    (fun _ held => ⟨(rebuild_sound u held.1).1,rebuild_contents held.2⟩)

end

end MemoryEngine

namespace System

variable {u : Unicode}

/-- No operation, whoever calls it, breaks the slab, the source lists or the name index. -/
theorem step_sound (s : System) (sound : s.engine.Sound) (contents : Contents u s.engine) (op : Op) :
    (s.step u op).engine.Sound ∧ Contents u (s.step u op).engine := by
  cases op with
  | connect info => exact ⟨sound.of_clients _ _ _ _,contents.of_frame _ _ _⟩
  | offer files info => exact addFiles_sound files sound contents info
  | disconnect info =>
    obtain ⟨sound₁,contents₁⟩ := start_sound sound contents info
    exact finish_sound _ sound₁ contents₁
  | beginDisconnect info => exact start_sound sound contents info
  | resumeDisconnect _ =>
    simp only [step]
    split
    · exact ⟨sound,contents⟩
    next p _ =>
    obtain ⟨sound₁,same⟩ := resume_sound sound p
    exact ⟨sound₁,same.contents contents⟩
  | cleanupStale maxAge keep => exact cleanupStale_sound sound contents maxAge keep
  | rebuild => exact ⟨(rebuild_sound u sound).1,rebuild_contents contents⟩
  | install files _ =>
    exact ⟨(install_sound u s.engine files).1.of_clients _ _ _ _,(install_contents u s.engine files).of_frame _ _ _⟩
  | releaseIndex =>
    exact ⟨(install_sound u s.engine []).1.of_clients _ _ _ _,(install_contents u s.engine []).of_frame _ _ _⟩
  | importHandoff stream => exact importStream_sound u s.engine stream

theorem run_sound (s : System) (sound : s.engine.Sound) (contents : Contents u s.engine) (ops : List Op) :
    (s.run u ops).engine.Sound ∧ Contents u (s.run u ops).engine := by
  induction ops generalizing s with
  | nil => exact ⟨sound,contents⟩
  | cons op _ ih =>
    obtain ⟨sound₁,contents₁⟩ := step_sound s sound contents op
    exact ih _ sound₁ contents₁

/-- What every honest operation keeps holds after every honest run. -/
theorem run_rule (P : System → Prop)
    (turn : ∀ s op, s.engine.Sound → Contents u s.engine → P s → s.Honest op → P (s.step u op)) (s : System) (ops : List Op)
    (sound : s.engine.Sound) (contents : Contents u s.engine) (start : P s) (honest : s.HonestRun u ops) : P (s.run u ops) := by
  induction ops generalizing s with
  | nil => exact start
  | cons op _ ih =>
    obtain ⟨sound₁,contents₁⟩ := step_sound s sound contents op
    exact ih _ sound₁ contents₁ (turn s op sound contents start honest.1) honest.2

/-- Every state a new engine can be brought to is well formed. -/
theorem reached_sound (u : Unicode) (ops : List Op) :
    (({} : System).run u ops).engine.Sound ∧ Contents u (({} : System).run u ops).engine :=
  run_sound {} ⟨(empty_chained _ rfl rfl rfl rfl rfl).structured,empty_placed rfl rfl⟩ (empty_contents u) ops

end System

namespace MemoryEngine

section
variable {u : Unicode} {e : MemoryEngine}

theorem Owned.perm {pending' : List Pending} (owned : e.Owned pending) (perm : pending'.Perm pending) :
    e.Owned pending' := by
  refine { owned with departing := fun p member => owned.departing p (perm.mem_iff.mp member), present := fun key s member => ?_ }
  rcases owned.present key s member with connected | ⟨p,inside,found⟩
  · exact .inl connected
  · exact .inr ⟨p,perm.mem_iff.mpr inside,found⟩

theorem Owned.addFiles (files : List File) (sound : e.Sound) (owned : e.Owned pending)
    (honest : e.Honest info) : (e.addFiles u files info).Owned pending :=
  (addFiles_rule (fun a => a.Sound ∧ a.Owned pending ∧ a.Honest info) info
    (fun _ file held => held.2.1.addFile u held.1 held.2.2 file) files ⟨sound,owned,honest⟩).2.1

theorem Owned.cleanupStale (sound : e.Sound) (owned : e.Owned pending) (maxAge : Int) (keep : Bool) :
    (e.cleanupStale u maxAge keep).1.Owned pending := by
  refine (cleanupStale_rule (fun a => a.Sound ∧ a.Owned pending) maxAge keep ⟨sound,owned⟩ ?_ ?_ ?_).2
  · obtain ⟨sound₁,keeps⟩ := cleanup_fold u (List.range e.recs.length) (e,0) sound
    exact ⟨sound₁,owned.congr keeps⟩
  · rintro a ⟨sound,owned⟩
    obtain ⟨sound₁,keeps⟩ := purge_sound sound (a.names.purge (fun id => !(a.record id).live))
    exact ⟨sound₁,owned.congr keeps⟩
  · exact fun _ held => ⟨(rebuild_sound u held.1).1,held.2.rebuild u held.1⟩

theorem chunk_rest (left : (e.removeChunk p).2 = some p') :
    p'.rest ≠ [] ∧ p'.rest.length < p.rest.length := by
  simp only [removeChunk] at left
  split at left
  · cases left
  next more =>
  cases left
  refine ⟨more,?_⟩
  have some_ := List.length_pos_iff.mpr more
  simp only [List.length_drop] at some_ ⊢
  simp only [disconnectChunk] at some_ ⊢
  omega

theorem finish_owned (fuel : Nat) (state : MemoryEngine × Option Pending) (sound : state.1.Sound)
    (owned : state.1.Owned (state.2.toList ++ pending))
    (enough : ∀ p, state.2 = some p → p.rest ≠ [] ∧ p.rest.length ≤ fuel) :
    (finishDisconnect fuel state).Owned pending := by
  induction fuel generalizing state with
  | zero =>
    obtain ⟨e,left⟩ := state
    cases left with
    | none => exact owned
    | some p =>
      obtain ⟨some_,none_⟩ := enough p rfl
      exact absurd (List.length_eq_zero_iff.mp (Nat.le_zero.mp none_)) some_
  | succ _ ih =>
    obtain ⟨_,left⟩ := state
    cases left with
    | none => exact owned
    | some p =>
      obtain ⟨sound₁,owned₁⟩ := owned.resume sound
      refine ih _ sound₁ owned₁ (fun _ left => ?_)
      simp only [resumeDisconnect] at left
      split at left
      · cases left
      obtain ⟨some_,_⟩ := chunk_rest left
      have bound := (enough p rfl).2
      exact ⟨some_,by omega⟩

theorem start_rest (left : (e.startDisconnect info).2 = some p) : p.rest ≠ [] := by
  rcases e.start_cases info with ⟨-,nothing⟩ | ⟨_,-,-,started⟩
  · rw [nothing] at left
    cases left
  · rw [started] at left
    exact (chunk_rest left).1

theorem Owned.disconnect (sound : e.Sound) (owned : e.Owned pending) (info : ClientInfo) :
    (e.disconnect info).Owned pending := by
  obtain ⟨sound₁,owned₁⟩ := owned.start sound info
  refine finish_owned _ _ sound₁ owned₁ (fun _ left => ⟨start_rest left,?_⟩)
  rw [left]
  exact le_rfl

theorem Owned.counter (owned : e.Owned pending) (counter : Nat) :
    ({ e with nextClientID := max e.nextClientID counter } : MemoryEngine).Owned pending := by
  refine { owned with keyed := fun sid c found => ?_, departing := fun p member => ?_ }
  · obtain ⟨nonzero,bound,rest⟩ := owned.keyed sid c found
    exact ⟨nonzero,Nat.le_trans bound (Nat.le_max_left ..),rest⟩
  · obtain ⟨gone,nonzero,bound,layout⟩ := owned.departing p member
    exact ⟨gone,nonzero,Nat.le_trans bound (Nat.le_max_left ..),layout⟩

theorem Owned.install (owned : e.Owned pending) (files : List File) :
    (e.installFilesLocked u files).Owned pending := owned.emptied.congr (install_sound u e files).2

theorem Owned.releaseIndex (owned : e.Owned pending) : (e.releaseIndex u).Owned pending := by
  have none_ : ∀ key, (e.releaseIndex u).sourcesOf key = [] := fun _ => rfl
  refine ⟨nofun,fun key => ?_,fun key => ?_,fun key s member => ?_,
    nofun,fun p member => ?_,fun _ _ member => ?_⟩
  · simp [none_]
  · simp [none_]
  · simp [none_] at member
  · obtain ⟨_,nonzero,bound,layout⟩ := owned.departing p member
    exact ⟨rfl,nonzero,bound,Nat.le_succ_of_le layout⟩
  · simp [none_] at member

end

end MemoryEngine

namespace System

variable {u : Unicode}

/-- Honest operations keep the bond between sources and sessions in every interleaving. -/
theorem step_owned (s : System) (sound : s.engine.Sound) (owned : s.engine.Owned s.pending) (op : Op)
    (honest : s.Honest op) : (s.step u op).engine.Owned (s.step u op).pending := by
  cases op with
  | connect info => exact owned.connect info
  | offer files info => exact owned.addFiles files sound honest
  | disconnect info => exact owned.disconnect sound info
  | beginDisconnect info => exact (owned.start sound info).2
  | resumeDisconnect _ =>
    simp only [step]
    split
    · exact owned
    next p atIndex =>
    obtain ⟨bound,rfl⟩ := List.getElem?_eq_some_iff.mp atIndex
    exact ((owned.perm (List.getElem_cons_eraseIdx_perm bound)).resume sound).2
  | cleanupStale maxAge keep => exact owned.cleanupStale sound maxAge keep
  | rebuild => exact owned.rebuild u sound
  | install files counter => exact (owned.install files).counter counter
  | releaseIndex => exact owned.releaseIndex
  | importHandoff _ => exact honest.elim

theorem run_owned {s : System} (sound : s.engine.Sound) (contents : Contents u s.engine)
    (owned : s.engine.Owned s.pending) (honest : s.HonestRun u ops) :
    (s.run u ops).engine.Owned (s.run u ops).pending :=
  run_rule (fun s => s.engine.Owned s.pending) (fun s op sound _ owned honest => step_owned s sound owned op honest) s ops
    sound contents owned honest

theorem reached_owned (u : Unicode) (ops : List Op) (honest : ({} : System).HonestRun u ops) :
    (({} : System).run u ops).engine.Owned (({} : System).run u ops).pending :=
  run_owned (reached_sound u []).1 (reached_sound u []).2 empty_owned honest

end System

end ENode.Storage
