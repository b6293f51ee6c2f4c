import ENode.SessionRuntime

/-! The storage rows of sessions. The number of a row is given to one session and never again;
what storage does for the others leaves a row as it is or takes it away whole. -/
namespace ENode.Storage

open GoText

variable {op : Op} {sid : Nat}

namespace MemoryEngine

variable {u : Unicode} {e : MemoryEngine}

theorem start_pending (left : (e.startDisconnect info).2 = some p) :
    e.infoOf p.storeID ≠ none := by
  rcases e.start_cases info with ⟨-,nothing⟩ | ⟨_,-,connected,started⟩
  · rw [nothing] at left
    cases left
  · rw [started] at left
    simp only [removeChunk] at left
    split at left
    · cases left
    cases left
    rw [infoOf,connected]
    exact Option.some_ne_none _

theorem resume_pending (left : (e.resumeDisconnect p).2 = some p') : p'.storeID = p.storeID := by
  unfold resumeDisconnect at left
  split at left
  · cases left
  simp only [removeChunk] at left
  split at left
  · cases left
  cases left
  rfl

end MemoryEngine

/-- The operations that the sessions of a server interleave. -/
def Op.Interleaved : Op → Prop
  | .connect _ => True
  | .offer _ _ => True
  | .beginDisconnect _ => True
  | .resumeDisconnect _ => True
  | .cleanupStale _ _ => True
  | _ => False

namespace System

/-- What a later state says about the rows of an earlier one: they are as they were or gone,
and gone for good once nothing of them is left to do. -/
structure Later (a b : System) : Prop where
  next : a.engine.nextClientID ≤ b.engine.nextClientID
  rows : ∀ sid info, sid ≤ a.engine.nextClientID → b.engine.infoOf sid = some info → a.engine.infoOf sid = some info
  finished : ∀ sid, a.engine.infoOf sid = none → (∀ p ∈ a.pending, p.storeID ≠ sid) → ∀ p ∈ b.pending, p.storeID ≠ sid

variable {u : Unicode}

theorem Later.refl (s : System) : Later s s := ⟨le_rfl,fun _ _ _ => id,fun _ _ => id⟩

theorem Later.gone (later : Later a b) (given : sid ≤ a.engine.nextClientID)
    (gone : a.engine.infoOf sid = none) : b.engine.infoOf sid = none := by
  refine Option.eq_none_iff_forall_ne_some.mpr (fun info here => ?_)
  rw [later.rows sid info given here] at gone
  cases gone

theorem step_effect (s : System) (sound : s.engine.Sound) (contents : MemoryEngine.Contents u s.engine)
    (used : op.Interleaved) : MemoryEngine.SessionEffect s.engine op (s.step u op).engine :=
  step_sessions s sound contents op (fun _ imported => by subst imported; exact used)

theorem step_later (s : System) (sound : s.engine.Sound) (contents : MemoryEngine.Contents u s.engine)
    (used : op.Interleaved) : Later s (s.step u op) := by
  have effect := step_effect s sound contents used
  have rows : s.engine.nextClientID ≤ (s.step u op).engine.nextClientID ∧ ∀ sid info, sid ≤ s.engine.nextClientID →
      (s.step u op).engine.infoOf sid = some info → s.engine.infoOf sid = some info := by
    generalize (s.step u op).engine = after at effect ⊢
    cases effect with
    | kept same next => exact ⟨next,fun sid info _ here => by rwa [same.infos] at here⟩
    | connected info =>
      refine ⟨Nat.le_succ _,fun sid other _ here => ?_⟩
      rw [(s.engine.connect_lookup info).1,if_neg (by omega)] at here
      exact here
    | left info _ _ _ infos _ next =>
      refine ⟨Nat.le_of_eq next.symm,fun sid _ _ here => ?_⟩
      rw [infos] at here
      split at here
      · cases here
      · exact here
    | released => exact used.elim
  refine ⟨rows.1,rows.2,fun _ gone none p left => ?_⟩
  cases op with
  | beginDisconnect _ =>
    rcases List.mem_append.mp left with new | old
    · rintro rfl
      exact MemoryEngine.start_pending (Option.mem_toList.mp new) gone
    · exact none p old
  | resumeDisconnect _ =>
    rw [System.step] at left
    split at left
    · exact none p left
    next q atIndex =>
      rcases List.mem_append.mp left with new | old
      · rw [MemoryEngine.resume_pending (Option.mem_toList.mp new)]
        exact none q (List.mem_of_getElem? atIndex)
      · exact none p (List.mem_of_mem_eraseIdx old)
  | connect | offer | cleanupStale => exact none p left
  | _ => exact used.elim

theorem step_byHash (s : System) (sound : s.engine.Sound) (contents : MemoryEngine.Contents u s.engine)
    (used : op.Interleaved) (hash : Bytes) :
    (s.engine.clientsByHash.lookup hash = none → (s.step u op).engine.clientsByHash.lookup hash = none) ∨
      ∃ info, op = .connect info ∧ info.hash = hash := by
  have effect := step_effect s sound contents used
  generalize (s.step u op).engine = after at effect ⊢
  cases effect with
  | kept same next => exact .inl (by rw [same.byHash]; exact id)
  | connected info =>
    by_cases here : info.hash = hash
    · exact .inr ⟨info,rfl,here⟩
    · left
      intro free
      rw [(s.engine.connect_lookup info).2,if_neg (fun both => here both.2.symm)]
      exact free
  | left _ _ _ _ _ byHash _ =>
    left
    intro free
    rw [byHash,MemoryEngine.without_lookup]
    split
    · rfl
    · exact free
  | released => exact used.elim

theorem step_row (s : System) (sound : s.engine.Sound) (contents : MemoryEngine.Contents u s.engine)
    (used : op.Interleaved) (given : sid ≤ s.engine.nextClientID)
    (here : s.engine.infoOf sid = some info) (kept : ∀ other, op = .beginDisconnect other → s.engine.storeIDOf other ≠ sid) :
    (s.step u op).engine.infoOf sid = some info := by
  have effect := step_effect s sound contents used
  generalize (s.step u op).engine = after at effect ⊢
  cases effect with
  | kept same next => rwa [same.infos]
  | connected other => rwa [(s.engine.connect_lookup other).1,if_neg (by omega)]
  | left other _ leaves _ infos _ _ =>
    rcases leaves with rfl | rfl
    · exact used.elim
    · rwa [infos,if_neg (kept other rfl).symm]
  | released => exact used.elim

end System

end ENode.Storage

namespace ENode.Ed2k

open GoText Storage

/-- Past the point where the release marks the session. -/
def Release.marked : Release → Bool
  | .unregister _ => true
  | .disconnect _ => true
  | .disconnecting _ => true
  | .done => true
  | _ => false

/-- The release has not taken the session out of the index by user hash. -/
def Release.beforeUnregister : Release → Bool
  | .disconnect _ => false
  | .disconnecting _ => false
  | .done => false
  | _ => true

/-- Where only a session that is logged in stands. -/
def Doing.loggedOnly : Doing → Bool
  | .register => true
  | .offering _ _ => true
  | _ => false

/-- The row `Connect` gave the session. -/
def ClientSession.row (x : ClientSession) : Option Nat :=
  match x.doing with
  | .logIn storeID => some storeID
  | _ => if x.logged then some x.info.storeID else none

/-- What a session's fields say, whatever the others do. -/
structure Course (x : ClientSession) : Prop where
  logged : x.logged = true → x.doing.loggingIn = true → x.doing = .register
  register : x.doing = .register → x.logged = true
  unlogged : x.logged = false → x.info.storeID = 0
  offering : ∀ info files, x.doing = .offering info files → info = x.info ∧ x.logged = true
  hash : x.doing.recorded = true ∨ x.logged = true → x.info.hash.length = hashLen
  released : x.released = x.release.marked

theorem ClientSession.row_of {x : ClientSession} (other : ∀ storeID, x.doing ≠ .logIn storeID) :
    x.row = if x.logged then some x.info.storeID else none := by
  unfold row
  split
  next storeID here => exact absurd here (other storeID)
  · rfl

theorem ClientSession.beginRelease_fields (x : ClientSession) : x.beginRelease.row = x.row ∧ x.beginRelease.info = x.info ∧
    x.beginRelease.doing = x.doing ∧ x.beginRelease.logged = x.logged ∧ x.beginRelease.released = x.released := by
  unfold beginRelease
  split <;> exact ⟨rfl,rfl,rfl,rfl,rfl⟩

namespace Course

variable {x y : ClientSession}

section
variable (course : Course x)
include course

theorem unlogged_of (starts : x.doing.loggingIn = true) (before : x.doing.loggedOnly = false) :
    x.logged = false := by
  cases logged : x.logged with
  | false => rfl
  | true =>
    rw [course.logged logged starts] at before
    cases before

theorem elsewhere (logged : y.logged = x.logged) (info : y.info.storeID = x.info.storeID)
    (released : y.released = x.released) (release : y.release = x.release) (before : y.doing.loggedOnly = false)
    (loggingIn : y.doing.loggingIn = true → x.logged = false)
    (hash : y.doing.recorded = true ∨ y.logged = true → y.info.hash.length = hashLen) : Course y := by
  refine ⟨fun yes starts => ?_,fun here => ?_,fun no => ?_,fun info _ here => ?_,hash,?_⟩
  · exact absurd ((loggingIn starts).symm.trans (logged.symm.trans yes)) Bool.false_ne_true
  · rw [here] at before
    cases before
  · exact info.trans (course.unlogged (logged.symm.trans no))
  · rw [here] at before
    cases before
  · rw [released,release]
    exact course.released

theorem login (starts : x.doing.loggingIn = true) (at_ : x.doing.loggedOnly = false)
    (logged : y.logged = x.logged) (info : y.info.storeID = x.info.storeID) (released : y.released = x.released)
    (release : y.release = x.release) (before : y.doing.loggedOnly = false)
    (hash : y.doing.recorded = true → y.info.hash.length = hashLen) : Course y := by
  have out := course.unlogged_of starts at_
  refine course.elsewhere logged info released release before (fun _ => out) ?_
  rintro (here | yes)
  · exact hash here
  · exact absurd (out.symm.trans (logged.symm.trans yes)) Bool.false_ne_true

theorem back {next : Doing} (before : next.loggedOnly = false) (out : next.loggingIn = false)
    (recorded : next.recorded = true → x.info.hash.length = hashLen) : Course { x with doing := next } := by
  refine course.elsewhere rfl rfl rfl rfl before (fun starts => absurd (out.symm.trans starts) Bool.false_ne_true) ?_
  rintro (here | yes)
  · exact recorded here
  · exact course.hash (.inr yes)

theorem row (logged : x.logged = true) : x.row = some x.info.storeID := by
  rw [ClientSession.row_of,if_pos logged]
  intro _ doing
  have register := course.logged logged (by rw [doing]; rfl)
  rw [doing] at register
  cases register

theorem beginRelease : Course x.beginRelease := by
  unfold ClientSession.beginRelease
  split
  next idle =>
    refine { course with released := ?_ }
    have marked := course.released
    rw [idle] at marked
    exact marked
  · exact course

end

end Course

namespace Runtime

variable {cfg : RuntimeConfig} {s : Runtime} {c : Nat} {x : ClientSession} {yes : Bool} {op : Op} {sid : Nat}

/-- A goroutine keeps the course of its session. -/
theorem own_course (course : Course x) : Course (own cfg s c x yes).self := by
  by_cases reads : x.doing.works = false
  · rw [own_decides cfg s c yes reads]
    have walk := decides_walk s c yes reads
    have before : (s.decides c x yes x.doing).1.loggedOnly = false := by
      have works := walk.works
      revert works
      cases (s.decides c x yes x.doing).1 <;> intro works <;> first | rfl | cases works rfl
    refine course.elsewhere rfl rfl rfl rfl before (fun starts => ?_)
      (fun here => course.hash (here.imp_left walk.recorded))
    refine course.unlogged_of (walk.loggingIn starts) ?_
    cases doing : x.doing <;> first | rfl | (rw [doing] at reads; cases reads)
  · have login := @course.login
    have hash := fun recorded => course.hash (.inl recorded)
    unfold own
    cases doing : x.doing <;> rw [doing] at reads login hash
    case freeOrphan req => exact login _ rfl rfl rfl rfl rfl rfl rfl nofun
    case record req => exact login _ rfl rfl rfl rfl rfl rfl rfl (fun _ => req.hash.2)
    case firewall | connect =>
      dsimp only
      split <;> exact login _ rfl rfl rfl rfl rfl rfl rfl (fun _ => hash rfl)
    case allocate =>
      dsimp only
      split
      · exact login _ rfl rfl rfl rfl rfl rfl rfl nofun
      · exact login _ rfl rfl rfl rfl rfl rfl rfl (fun _ => hash rfl)
    case assign | verdict | beginHandshake => exact login _ rfl rfl rfl rfl rfl rfl rfl (fun _ => hash rfl)
    case logIn storeID =>
      refine ⟨fun _ _ => rfl,fun _ => rfl,fun no => ?_,fun info files no => ?_,fun _ => hash rfl,course.released⟩ <;> cases no
    case register => exact course.back rfl rfl (fun _ => hash rfl)
    case endHandshake => exact course.back rfl rfl nofun
    case offering info files =>
      dsimp only
      split
      · exact course
      · exact course.back rfl rfl nofun
    case leaving =>
      dsimp only
      split
      · exact course.back rfl rfl nofun
      · exact course.beginRelease
    all_goals exact absurd rfl reads

theorem release_course (t : Tables) (course : Course x) : Course (releaseStep cfg t c x).1 := by
  have moved : ∀ {released : Bool} {next : Release}, released = next.marked →
      Course { x with released := released, release := next } :=
    fun same => { course with released := same }
  have marked := course.released
  unfold releaseStep
  cases release : x.release with
  | idle | done => exact course
  | lock wasLogged _ =>
    refine moved ?_
    cases wasLogged <;> rfl
  | disconnecting _ =>
    refine moved ?_
    rw [marked,release]
    split <;> rfl
  | _ =>
    refine moved (marked.trans ?_)
    rw [release]
    rfl

/-- What the next step of a goroutine asks of storage. -/
def Asks (x : ClientSession) (yes : Bool) : Op → Prop
  | .connect info => x.doing = .connect ∧ yes = true ∧ info = x.info
  | .beginDisconnect info => ∃ req, x.doing = .freeOrphan req ∧ info = { hash := req.hash }
  | .offer files info => x.doing = .offering info files ∧ x.released = false
  | _ => False

theorem Asks.interleaved (asks : Asks x yes op) : op.Interleaved := by
  cases op <;> trivial

/-- The next step of a goroutine leaves storage alone or asks something of it. -/
theorem own_storage (cfg : RuntimeConfig) (s : Runtime) (c : Nat) (x : ClientSession) (yes : Bool) :
    (own cfg s c x yes).tables.storage = s.storage ∨
    ∃ op, Asks x yes op ∧ (own cfg s c x yes).tables.storage = s.storage.step cfg.unicode op := by
  by_cases reads : x.doing.works = false
  · rw [own_decides cfg s c yes reads]
    exact .inl rfl
  · unfold own
    cases doing : x.doing <;> rw [doing] at reads
    case freeOrphan req => exact .inr ⟨.beginDisconnect _,⟨req,doing,rfl⟩,rfl⟩
    case allocate =>
      dsimp only
      split <;> exact .inl rfl
    case beginHandshake => exact .inl (s.beginHandshake_keeps x.info.hash).2.2
    case connect =>
      cases yes with
      | true => exact .inr ⟨.connect x.info,⟨doing,rfl,rfl⟩,rfl⟩
      | false => exact .inl rfl
    case register =>
      dsimp only [Tables.registerSession]
      split <;> exact .inl rfl
    case endHandshake => exact .inl (s.endHandshake_keeps x.info.hash).2.2
    case offering info files =>
      dsimp only
      split
      · exact .inl rfl
      cases released : x.released with
      | true => exact .inl rfl
      | false => exact .inr ⟨.offer files info,⟨doing,released⟩,rfl⟩
    all_goals first | exact absurd rfl reads | exact .inl rfl

/-- A session's row is the one it had, or the one a `Connect` has just given it. -/
theorem own_row (course : Course x) (here : (own cfg s c x yes).self.row = some sid) :
    (x.row = some sid ∧ (own cfg s c x yes).self.info.address = x.info.address ∧
        (own cfg s c x yes).self.info.hash = x.info.hash) ∨
      x.doing = .connect ∧ yes = true ∧ sid = s.storage.engine.nextClientID + 1 ∧ (own cfg s c x yes).self.info = x.info ∧
        (own cfg s c x yes).tables.storage = s.storage.step cfg.unicode (.connect x.info) := by
  have walk : (∀ storeID, x.doing ≠ .logIn storeID) → ∀ {next : Doing}, (∀ storeID, next ≠ .logIn storeID) →
      ({ x with doing := next } : ClientSession).row = some sid → x.row = some sid := by
    intro before next there here
    rw [ClientSession.row_of there] at here
    rw [ClientSession.row_of before]
    exact here
  -- in a login that is not done there is no row
  have none : x.doing.loggingIn = true → x.doing.loggedOnly = false → ∀ y : ClientSession, y.logged = x.logged →
      (∀ storeID, y.doing ≠ .logIn storeID) → y.row ≠ some sid := by
    intro starts before _ logged there here
    rw [ClientSession.row_of there,logged,course.unlogged_of starts before] at here
    cases here
  by_cases reads : x.doing.works = false
  · rw [own_decides cfg s c yes reads] at here ⊢
    refine .inl ⟨walk (fun storeID same => ?_) (fun storeID same => ?_) here,rfl,rfl⟩
    · rw [same] at reads
      cases reads
    · have no := (decides_walk s c yes reads).handshakes
      rw [same] at no
      cases no
  · unfold own at here ⊢
    cases doing : x.doing <;> rw [doing] at reads none walk here
    case freeOrphan | record | assign | verdict | beginHandshake => exact absurd here (none rfl rfl _ rfl nofun)
    case firewall | allocate =>
      dsimp only at here
      split at here <;> exact absurd here (none rfl rfl _ rfl nofun)
    case connect =>
      cases yes with
      | true =>
        cases here
        exact .inr ⟨rfl,rfl,rfl,rfl,rfl⟩
      | false => exact absurd here (none rfl rfl _ rfl nofun)
    case logIn storeID =>
      refine .inl ⟨?_,rfl,rfl⟩
      unfold ClientSession.row at here ⊢
      rw [doing]
      exact here
    case register | endHandshake => exact .inl ⟨walk nofun (fun _ => Doing.noConfusion) here,rfl,rfl⟩
    case offering info files =>
      left
      dsimp only at here ⊢
      split at here
      next held => exact ⟨here,by rw [if_pos held],by rw [if_pos held]⟩
      next held => exact ⟨walk nofun (fun _ => Doing.noConfusion) here,by rw [if_neg held],by rw [if_neg held]⟩
    case leaving =>
      left
      dsimp only at here ⊢
      split at here
      next done => exact ⟨walk nofun (fun _ => Doing.noConfusion) here,by rw [if_pos done],by rw [if_pos done]⟩
      next done =>
        obtain ⟨row,info,-⟩ := x.beginRelease_fields
        rw [if_neg done,info]
        exact ⟨row.symm.trans here,rfl,rfl⟩
    all_goals exact absurd rfl reads

theorem release_storage (cfg : RuntimeConfig) (t : Tables) (c : Nat) (x : ClientSession) :
    (releaseStep cfg t c x).2.storage = t.storage ∨ ∃ info, x.release = .disconnect info ∧
      (releaseStep cfg t c x).2.storage = t.storage.step cfg.unicode (.beginDisconnect info) := by
  unfold releaseStep
  cases release : x.release with
  | snapshot hadLowID _ info => cases hadLowID <;> exact .inl rfl
  | unregister info =>
    dsimp only [Tables.unregisterSession]
    split <;> exact .inl rfl
  | disconnect info => exact .inr ⟨info,rfl,rfl⟩
  | _ => exact .inl rfl

theorem release_fields (cfg : RuntimeConfig) (t : Tables) (c : Nat) (x : ClientSession) :
    (releaseStep cfg t c x).1.row = x.row ∧ (releaseStep cfg t c x).1.info = x.info ∧
    (releaseStep cfg t c x).1.doing = x.doing ∧ (releaseStep cfg t c x).1.logged = x.logged ∧
    (releaseStep cfg t c x).1.hasLowID = x.hasLowID := by
  unfold releaseStep
  cases x.release <;> exact ⟨rfl,rfl,rfl,rfl,rfl⟩

/-- What an event does to storage: a goroutine or a release asks for it, or it is upkeep. -/
def Performs (s : Runtime) (e : Event) (op : Op) : Prop :=
  (∃ c x yes, e = .own c yes ∧ s.sessions[c]? = some x ∧ Asks x yes op) ∨
    (∃ c x info, e = .release c ∧ s.sessions[c]? = some x ∧ x.release = .disconnect info ∧ op = .beginDisconnect info) ∨
    s.Upkeep op

theorem Performs.interleaved (performs : s.Performs e op) : op.Interleaved := by
  rcases performs with ⟨c,x,_,-,-,asks⟩ | ⟨_,_,_,-,-,-,rfl⟩ | _
  · exact asks.interleaved
  · trivial
  · cases op <;> trivial

/-- A step of the server is at most one operation on its storage. -/
theorem step_storage (cfg : RuntimeConfig) (s : Runtime) (e : Event) : (step cfg s e).storage = s.storage ∨
    ∃ op, s.Performs e op ∧ (step cfg s e).storage = s.storage.step cfg.unicode op := by
  cases e with
  | own c yes =>
    rw [Runtime.step]
    cases known : s.sessions[c]? with
    | none => exact .inl rfl
    | some x =>
      rcases own_storage cfg s c x yes with same | ⟨op,asks,done⟩
      · exact .inl same
      · exact .inr ⟨op,.inl ⟨c,x,yes,rfl,known,asks⟩,done⟩
  | release c =>
    rw [Runtime.step]
    cases known : s.sessions[c]? with
    | none => exact .inl rfl
    | some x =>
      rcases release_storage cfg s.toTables c x with same | ⟨info,here,done⟩
      · exact .inl same
      · exact .inr ⟨.beginDisconnect info,.inr (.inl ⟨c,x,info,rfl,known,here,rfl⟩),done⟩
  | resumeDisconnect i => exact .inr ⟨.resumeDisconnect i,.inr (.inr trivial),rfl⟩
  | cleanupStale maxAge keep => exact .inr ⟨.cleanupStale maxAge keep,.inr (.inr trivial),rfl⟩
  | sweepCheck i =>
    rw [Runtime.step]
    cases s.online[i]? <;> exact .inl rfl
  | sweepDisconnect i =>
    rw [Runtime.step]
    cases found : s.unheld[i]? with
    | none => exact .inl rfl
    | some info => exact .inr ⟨.beginDisconnect info,.inr (.inr (List.mem_of_getElem? found)),rfl⟩
  | _ => exact .inl rfl

theorem packet_row (reading : x.isReading = true) (there : ∀ storeID, next ≠ .logIn storeID) :
    ({ x with doing := next } : ClientSession).row = x.row := by
  have before : ∀ storeID, x.doing ≠ .logIn storeID := by
    intro _ same
    unfold ClientSession.isReading at reading
    rw [same] at reading
    cases reading
  rw [ClientSession.row_of before]
  exact ClientSession.row_of there

/-- A row given to a session is numbered, and while it is there says what the session does. -/
def RowOf (t : Tables) (_ : Nat) (x : ClientSession) : Prop :=
  ∀ sid, x.row = some sid → sid ≠ 0 ∧ sid ≤ t.storage.engine.nextClientID ∧
    ∀ info, t.storage.engine.infoOf sid = some info → info.address = x.info.address ∧ info.hash = x.info.hash

/-- The storage of a server is well formed, and each session has at most one row, its own. -/
structure Rowed (u : Unicode) (s : Runtime) : Prop where
  sound : s.storage.engine.Sound
  contents : MemoryEngine.Contents u s.storage.engine
  owned : s.storage.engine.Owned s.storage.pending
  course : Each (fun _ _ => Course) s
  rows : Each RowOf s
  apart : ∀ (c d : Nat) (x y : ClientSession) sid, s.sessions[c]? = some x → s.sessions[d]? = some y →
    x.row = some sid → y.row = some sid → c = d

namespace Rowed

variable (rowed : Rowed cfg.unicode s)
include rowed

theorem honest (known : s.sessions[c]? = some x) (asks : Asks x yes op) : s.storage.Honest op := by
  cases op with
  | offer files info =>
    obtain ⟨rfl,logged⟩ := (rowed.course c x known).offering info files asks.1
    obtain ⟨some,-,tells⟩ := rowed.rows c x known _ ((rowed.course c x known).row logged)
    refine ⟨some,fun client connected => (tells client.info ?_).1⟩
    rw [MemoryEngine.infoOf,connected]
    rfl
  | importHandoff _ => exact asks
  | _ => trivial

theorem performs_honest (performs : s.Performs e op) : s.storage.Honest op := by
  rcases performs with ⟨c,x,_,-,known,asks⟩ | ⟨_,_,_,-,-,-,rfl⟩ | _
  · exact rowed.honest known asks
  · trivial
  · cases op <;> trivial

theorem step_later (e : Event) : s.storage.Later (step cfg s e).storage := by
  rcases step_storage cfg s e with same | ⟨_,performs,done⟩
  · rw [same]
    exact System.Later.refl _
  · rw [done]
    exact System.step_later _ rowed.sound rowed.contents performs.interleaved

theorem own_later (known : s.sessions[c]? = some x) : s.storage.Later (own cfg s c x yes).tables.storage := by
  have later := rowed.step_later (.own c yes)
  rw [Runtime.step,known] at later
  exact later

theorem release_later (known : s.sessions[c]? = some x) : s.storage.Later (releaseStep cfg s.toTables c x).2.storage := by
  have later := rowed.step_later (.release c)
  rw [Runtime.step,known] at later
  exact later

theorem step_course (e : Event) : Each (fun _ _ => Course) (step cfg s e) := by
  refine rowed.course.step e (fun c _ _ => ?_) ?_ (fun c x _ _ course => course.beginRelease)
    (fun c x _ _ _ course => ⟨own_course course,fun _ _ _ => id⟩)
    (fun c x _ _ course => ⟨release_course s.toTables course,fun _ _ _ => id⟩) (fun _ _ _ _ => id)
  · refine ⟨fun no => ?_,fun no => ?_,fun _ => rfl,fun info files no => ?_,fun no => ?_,rfl⟩
    · cases no
    · cases no
    · cases no
    · rcases no with no | no <;> cases no
  · rintro _ _ _ - course _ - (rfl | ⟨_,rfl,out⟩ | ⟨_,rfl,logged⟩)
    · exact course.back rfl rfl nofun
    · refine course.elsewhere rfl rfl rfl rfl rfl (fun _ => out) (fun here => ?_)
      rcases here with no | logged
      · cases no
      · exact course.hash (.inr logged)
    · refine ⟨fun _ no => ?_,fun no => ?_,course.unlogged,fun _ _ same => ?_,fun _ => ?_,course.released⟩
      · cases no
      · cases no
      · cases same
        exact ⟨rfl,logged⟩
      · exact course.hash (.inr logged)

/-- After a step a session has the row it had, or the one a `Connect` has just given it. -/
theorem step_row (e : Event) (known : (step cfg s e).sessions[d]? = some y)
    (row : y.row = some sid) :
    (∃ z, s.sessions[d]? = some z ∧ z.row = some sid ∧ y.info.address = z.info.address ∧ y.info.hash = z.info.hash) ∨
      ∃ z, e = .own d true ∧ s.sessions[d]? = some z ∧ z.doing = .connect ∧ y.info = z.info ∧
        sid = s.storage.engine.nextClientID + 1 ∧ (step cfg s e).storage = s.storage.step cfg.unicode (.connect z.info) := by
  -- the same of a session in the middle of the step
  let P : Tables → Nat → ClientSession → Prop := fun _ d y => ∀ sid, y.row = some sid →
    (∃ z, s.sessions[d]? = some z ∧ z.row = some sid ∧ y.info.address = z.info.address ∧ y.info.hash = z.info.hash) ∨
      ∃ z, e = .own d true ∧ s.sessions[d]? = some z ∧ z.doing = .connect ∧ y.info = z.info ∧
        sid = s.storage.engine.nextClientID + 1 ∧ (step cfg s e).storage = s.storage.step cfg.unicode (.connect z.info)
  have kept : ∀ {d : Nat} {x y : ClientSession}, y.row = x.row → y.info = x.info → P s.toTables d x → P s.toTables d y := by
    intro d x y row info holds sid here
    rw [info]
    exact holds sid (row.symm.trans here)
  have start : Each P s := fun d z known sid row => .inl ⟨z,known,row,rfl,rfl⟩
  refine start.step e (fun c _ _ sid no => ?_) ?_ ?_ ?_ ?_ (fun _ _ _ _ => id) d y known sid row
  · cases no
  · rintro c x _ - holds reading - (rfl | ⟨_,rfl,-⟩ | ⟨_,rfl,-⟩)
    all_goals exact kept (packet_row reading nofun) rfl holds
  · intro c x _ _ holds
    obtain ⟨row,info,-⟩ := x.beginRelease_fields
    exact kept row info holds
  · rintro c x _ here known holds
    refine ⟨fun _ row => ?_,fun _ _ _ => id⟩
    rcases own_row (rowed.course c x known) row with ⟨row,address,hash⟩ | ⟨doing,rfl,number,info,storage⟩
    · exact .inl ⟨x,known,row,address,hash⟩
    · refine .inr ⟨x,here,known,doing,info,number,?_⟩
      rw [here,Runtime.step,known]
      exact storage
  · rintro c x - _ holds
    obtain ⟨row,info,-⟩ := release_fields cfg s.toTables c x
    exact ⟨kept row info holds,fun _ _ _ => id⟩

/-- Every step keeps the rows apart and the storage well formed. -/
theorem step (e : Event) : Rowed cfg.unicode (step cfg s e) := by
  have later := rowed.step_later e
  obtain ⟨sound,contents,owned⟩ : (Runtime.step cfg s e).storage.engine.Sound ∧
      MemoryEngine.Contents cfg.unicode (Runtime.step cfg s e).storage.engine ∧
      (Runtime.step cfg s e).storage.engine.Owned (Runtime.step cfg s e).storage.pending := by
    rcases step_storage cfg s e with same | ⟨op,performs,done⟩
    · rw [same]
      exact ⟨rowed.sound,rowed.contents,rowed.owned⟩
    · rw [done]
      obtain ⟨sound,contents⟩ := System.step_sound _ rowed.sound rowed.contents op
      exact ⟨sound,contents,System.step_owned _ rowed.sound rowed.owned op (rowed.performs_honest performs)⟩
  refine ⟨sound,contents,owned,rowed.step_course e,fun d y known sid row => ?_,fun c d _ _ sid first second mine yours => ?_⟩
  · rcases rowed.step_row e known row with ⟨z,was,before,address,hash⟩ | ⟨z,rfl,was,-,info,rfl,storage⟩
    · obtain ⟨some,given,tells⟩ := rowed.rows d z was sid before
      refine ⟨some,Nat.le_trans given later.next,fun info here => ?_⟩
      rw [address,hash]
      exact tells info (later.rows sid info given here)
    · refine ⟨Nat.succ_ne_zero _,?_,fun other here => ?_⟩
      · rw [storage]
        exact le_rfl
      · rw [storage,System.step,(s.storage.engine.connect_lookup z.info).1,if_pos rfl] at here
        cases here
        rw [info]
        exact ⟨rfl,rfl⟩
  · -- a new row has a number above all the others
    have fresh : ∀ (d : Nat) (z : ClientSession), s.sessions[d]? = some z → z.row ≠ some (s.storage.engine.nextClientID + 1) := by
      intro d z was row
      have given := (rowed.rows d z was _ row).2.1
      omega
    rcases rowed.step_row e first mine with ⟨z,was,before,-⟩ | ⟨z,here,-,-,-,rfl,-⟩ <;>
      rcases rowed.step_row e second yours with ⟨w,other,held,-⟩ | ⟨w,there,-,-,-,number,-⟩
    · exact rowed.apart c d z w sid was other before held
    · exact absurd (number ▸ before) (fresh c z was)
    · exact absurd held (fresh d w other)
    · cases here.symm.trans there
      rfl

end Rowed

theorem start_rowed (u : Unicode) (lowIDs : LowIDClients Nat) : Rowed u { lowIDs := lowIDs } := by
  obtain ⟨sound,contents⟩ := System.reached_sound u []
  refine ⟨sound,contents,MemoryEngine.empty_owned,?_,?_,?_⟩
  · intro c x no
    cases no
  · intro c x no
    cases no
  · intro _ _ _ _ _ no
    cases no

end Runtime

end ENode.Ed2k
