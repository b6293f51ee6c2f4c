import ENode.SessionLowIDs
import ENode.SessionRows

/-! A release gives up what the session had when it read the session. It leaves nothing behind
unless the session's login was still under way then, or had been given a LowID before. -/
namespace ENode.Ed2k

open GoText Storage List

namespace Release

def beforeDisconnect : Release → Bool
  | .disconnecting _ => false
  | .done => false
  | _ => true

/-- What the release has read of the session is still so. -/
def Captures (x : ClientSession) : Release → Prop
  | .flags hadLowID wasLogged => hadLowID = x.hasLowID ∧ wasLogged = x.logged
  | .snapshot hadLowID wasLogged info => hadLowID = x.hasLowID ∧ wasLogged = x.logged ∧ info = x.info
  | .lock wasLogged info => wasLogged = x.logged ∧ info = x.info
  | .unregister info => x.logged = true ∧ info = x.info
  | .disconnect info => x.logged = true ∧ info = x.info
  | .disconnecting storeID => x.logged = true ∧ storeID = x.info.storeID
  | _ => True

end Release

/-- The session has been given a LowID that its release will find. -/
def ClientSession.Holds (x : ClientSession) (id : Nat) : Prop :=
  x.doing.early = false ∧ x.doing.given.elim (x.hasLowID = true ∧ x.info.id = id) (· = id)

namespace Runtime

/-- Whatever refers to a session is still ahead of its release. -/
structure Tidy (t : Tables) (c : Nat) (x : ClientSession) : Prop where
  undisturbed : x.release ≠ .idle → x.doing.loggingIn = false
  captured : x.release.Captures x
  firewalled : ∀ id, x.doing = .allocate ∨ x.doing = .assign id → x.hasLowID = true
  lowID : ∀ id, t.lowIDs.clients.lookup id = some c → x.release.beforeRemove = true ∧ x.Holds id
  byHash : ∀ hash, t.sessionsByHash.lookup hash = some c → x.release.beforeUnregister = true ∧ x.logged = true ∧
    x.doing.loggingIn = false ∧ x.info.hash = hash
  given : x.logged = true → x.info.storeID ≤ t.storage.engine.nextClientID
  departed : x.logged = true → x.release.beforeDisconnect = false → t.storage.engine.infoOf x.info.storeID = none
  finished : x.logged = true → x.release = .done → ∀ p ∈ t.storage.pending, p.storeID ≠ x.info.storeID

section
variable {cfg : RuntimeConfig} {s : Runtime} {t t' : Tables} {c d : Nat} {x y : ClientSession} {yes : Bool}

namespace Tidy

theorem frame (tidy : Tidy t d y) (lowIDs : ∀ id, t'.lowIDs.clients.lookup id = some d → t.lowIDs.clients.lookup id = some d)
    (byHash : ∀ hash, t'.sessionsByHash.lookup hash = some d → t.sessionsByHash.lookup hash = some d)
    (later : t.storage.Later t'.storage) : Tidy t' d y where
  undisturbed := tidy.undisturbed
  captured := tidy.captured
  firewalled := tidy.firewalled
  lowID id held := tidy.lowID id (lowIDs id held)
  byHash hash held := tidy.byHash hash (byHash hash held)
  given logged := Nat.le_trans (tidy.given logged) later.next
  departed logged gone := later.gone (tidy.given logged) (tidy.departed logged gone)
  finished logged done := by
    refine later.finished _ (tidy.departed logged ?_) (tidy.finished logged done)
    rw [done]
    rfl

theorem later (tidy : Tidy t d y) (lowIDs : t'.lowIDs = t.lowIDs) (byHash : t'.sessionsByHash = t.sessionsByHash)
    (later : t.storage.Later t'.storage) : Tidy t' d y :=
  tidy.frame (fun _ held => lowIDs ▸ held) (fun _ held => byHash ▸ held) later

section
variable (tidy : Tidy t c x)
include tidy

omit tidy in
theorem still_false (only : a = true → b = true) (out : b = false) : a = false :=
  Bool.eq_false_iff.mpr fun yes => Bool.false_ne_true (out.symm.trans (only yes))

/-- The goroutine moves on, and nothing else changes. -/
theorem walk {next : Doing} (early : next.early = true → x.doing.early = true)
    (loggingIn : next.loggingIn = true → x.doing.loggingIn = true) (given : x.doing.given = none)
    (next_given : next.given = none) (firewalled : next = .allocate → x.hasLowID = true) :
    Tidy t c { x with doing := next } where
  undisturbed begun := still_false loggingIn (tidy.undisturbed begun)
  captured := by
    have captured := tidy.captured
    revert captured
    cases x.release <;> exact id
  firewalled id here := by
    rcases here with here | here
    · exact firewalled here
    · dsimp only at here
      rw [here] at next_given
      cases next_given
  lowID id held := by
    obtain ⟨before,late,here⟩ := tidy.lowID id held
    rw [given] at here
    refine ⟨before,still_false early late,?_⟩
    dsimp only
    rw [next_given]
    exact here
  byHash hash held := by
    obtain ⟨before,logged,out,same⟩ := tidy.byHash hash held
    exact ⟨before,logged,still_false loggingIn out,same⟩
  given := tidy.given
  departed := tidy.departed
  finished := tidy.finished

theorem idle (starts : x.doing.loggingIn = true) : x.release = .idle := by
  by_contra begun
  exact Bool.false_ne_true ((tidy.undisturbed begun).symm.trans starts)

theorem login (starts : x.doing.loggingIn = true) (same : y.release = x.release)
    (firewalled : ∀ id, y.doing = .allocate ∨ y.doing = .assign id → y.hasLowID = true)
    (lowID : ∀ id, t.lowIDs.clients.lookup id = some c → x.Holds id → y.Holds id)
    (given : y.logged = true → y.info.storeID ≤ t.storage.engine.nextClientID) : Tidy t c y := by
  have idle : y.release = .idle := same.trans (tidy.idle starts)
  refine ⟨fun begun => absurd idle begun,?_,firewalled,fun id held => ⟨?_,lowID id held (tidy.lowID id held).2⟩,?_,given,?_,?_⟩
  · rw [idle]
    trivial
  · rw [idle]
    rfl
  · intro hash held
    exact absurd ((tidy.byHash hash held).2.2.1.symm.trans starts) Bool.false_ne_true
  · intro _ gone
    rw [idle] at gone
    cases gone
  · intro _ done
    rw [idle] at done
    cases done

theorem beginRelease (out : x.doing.loggingIn = false) : Tidy t c x.beginRelease := by
  unfold ClientSession.beginRelease
  split
  next idle =>
    refine ⟨fun _ => out,trivial,tidy.firewalled,fun id held => ⟨rfl,(tidy.lowID id held).2⟩,
      fun hash held => ⟨rfl,(tidy.byHash hash held).2⟩,tidy.given,fun _ no => ?_,fun _ no => ?_⟩ <;> cases no
  · exact tidy

theorem advance (out : x.doing.loggingIn = false) {next : Release}
    (captured : next.Captures x) (lowID : next.beforeRemove = true ∨ ∀ id, t.lowIDs.clients.lookup id ≠ some c)
    (byHash : next.beforeUnregister = true ∨ ∀ hash, t.sessionsByHash.lookup hash ≠ some c)
    (departed : x.logged = true → next.beforeDisconnect = false → t.storage.engine.infoOf x.info.storeID = none)
    (finished : x.logged = true → next = .done → ∀ p ∈ t.storage.pending, p.storeID ≠ x.info.storeID) :
    Tidy t c { x with released := released, release := next } where
  undisturbed _ := out
  captured := by
    revert captured
    cases next <;> exact id
  firewalled := tidy.firewalled
  lowID id held := by
    rcases lowID with before | none
    · exact ⟨before,(tidy.lowID id held).2⟩
    · exact absurd held (none id)
  byHash hash held := by
    rcases byHash with before | none
    · exact ⟨before,(tidy.byHash hash held).2⟩
    · exact absurd held (none hash)
  given := tidy.given
  departed := departed
  finished := finished

end

end Tidy

/-- Entries of a session other than the one that takes the step are not added. -/
theorem own_entries (cfg : RuntimeConfig) (s : Runtime) (c : Nat) (x : ClientSession) (yes : Bool) (other : d ≠ c) :
    (∀ id, (own cfg s c x yes).tables.lowIDs.clients.lookup id = some d → s.lowIDs.clients.lookup id = some d) ∧
      ∀ hash, (own cfg s c x yes).tables.sessionsByHash.lookup hash = some d → s.sessionsByHash.lookup hash = some d := by
  by_cases reads : x.doing.works = false
  · rw [own_decides cfg s c yes reads]
    exact ⟨fun _ => id,fun _ => id⟩
  · unfold own
    cases doing : x.doing <;> rw [doing] at reads
    case allocate =>
      dsimp only
      split
      · exact ⟨fun _ => id,fun _ => id⟩
      next lowIDs new added =>
        obtain ⟨-,rfl,-⟩ := s.lowIDs.addByKey_some added
        refine ⟨fun _ held => ?_,fun _ => id⟩
        rw [LowIDClients.lookup_put] at held
        split at held
        · cases held
          exact absurd rfl other
        · exact held
    case register =>
      dsimp only [Tables.registerSession]
      split
      · refine ⟨fun _ => id,fun _ held => ?_⟩
        rw [GoMap.lookup_insert_ite] at held
        split at held
        · cases held
          exact absurd rfl other
        · exact held
      · exact ⟨fun _ => id,fun _ => id⟩
    case beginHandshake =>
      dsimp only [Tables.beginHandshake]
      split <;> exact ⟨fun _ => id,fun _ => id⟩
    case connect =>
      dsimp only
      split <;> exact ⟨fun _ => id,fun _ => id⟩
    case endHandshake =>
      dsimp only [Tables.endHandshake]
      split <;> exact ⟨fun _ => id,fun _ => id⟩
    case offering info files =>
      dsimp only
      split
      · exact ⟨fun _ => id,fun _ => id⟩
      · split <;> exact ⟨fun _ => id,fun _ => id⟩
    all_goals first | exact absurd rfl reads | exact ⟨fun _ => id,fun _ => id⟩

theorem release_entries (cfg : RuntimeConfig) (t : Tables) (c : Nat) (x : ClientSession) (d : Nat) :
    (∀ id, (releaseStep cfg t c x).2.lowIDs.clients.lookup id = some d → t.lowIDs.clients.lookup id = some d) ∧
      ∀ hash, (releaseStep cfg t c x).2.sessionsByHash.lookup hash = some d → t.sessionsByHash.lookup hash = some d := by
  unfold releaseStep
  cases x.release with
  | snapshot hadLowID _ info =>
    cases hadLowID with
    | false => exact ⟨fun _ => id,fun _ => id⟩
    | true =>
      refine ⟨fun j held => ?_,fun _ => id⟩
      change (t.lowIDs.remove info.id).clients.lookup j = some d at held
      rw [LowIDClients.lookup_remove] at held
      split at held
      · cases held
      · exact held
  | unregister _ =>
    dsimp only [Tables.unregisterSession]
    split
    · refine ⟨fun _ => id,fun _ held => ?_⟩
      rw [GoMap.lookup_erase_ite] at held
      split at held
      · cases held
      · exact held
    · exact ⟨fun _ => id,fun _ => id⟩
  | _ => exact ⟨fun _ => id,fun _ => id⟩

/-- A goroutine keeps its session tidy. -/
theorem Tidy.own (yes : Bool) (rowed : Rowed cfg.unicode s) (known : s.sessions[c]? = some x)
    (tidy : Tidy s.toTables c x) : Tidy (own cfg s c x yes).tables c (own cfg s c x yes).self := by
  have course := rowed.course c x known
  have later : s.storage.Later (Runtime.own cfg s c x yes).tables.storage := rowed.own_later known
  by_cases reads : x.doing.works = false
  · rw [own_decides cfg s c yes reads]
    have walk := decides_walk s c yes reads
    refine tidy.walk walk.early walk.loggingIn ?_ walk.given (fun same => ?_)
    · cases doing : x.doing <;> first | rfl | (rw [doing] at reads; cases reads)
    · have works := walk.works
      rw [same] at works
      cases works rfl
  · have login := @tidy.login
    have walk := @tidy.walk
    have low := tidy.firewalled
    have late : x.doing.early = true → ∀ id, ¬x.Holds id := fun early _ no => Bool.false_ne_true (no.1.symm.trans early)
    unfold Runtime.own at later ⊢
    cases doing : x.doing <;> rw [doing] at reads later login walk low late
    case freeOrphan req =>
      exact (walk (fun _ => rfl) (fun _ => rfl) rfl rfl (fun no => by cases no)).later rfl rfl later
    case record req => exact login _ rfl rfl nofun (fun id held no => absurd no (late rfl id)) tidy.given
    case firewall =>
      dsimp only
      split
      · exact login _ rfl rfl (fun _ _ => rfl) (fun id held no => absurd no (late rfl id)) tidy.given
      exact login _ rfl rfl nofun (fun id held no => absurd no (late rfl id)) tidy.given
    case allocate =>
      dsimp only
      split
      · exact walk nofun nofun rfl rfl nofun
      next lowIDs id added =>
        obtain ⟨-,rfl,-⟩ := s.lowIDs.addByKey_some added
        have on : Tidy s.toTables c { x with doing := .assign id } :=
          login _ rfl rfl (fun _ _ => low 0 (.inl rfl)) (fun id held no => absurd no (late rfl id)) tidy.given
        refine { on with lowID := fun j held => ?_ }
        rw [LowIDClients.lookup_put] at held
        split at held
        next same =>
          have before : x.release.beforeRemove = true := by rw [tidy.idle (by rw [doing]; rfl)]; rfl
          exact ⟨before,rfl,same.symm⟩
        · exact absurd (tidy.lowID j held).2 (late rfl j)
    case assign id =>
      refine login _ rfl rfl nofun (fun j held here => ⟨rfl,low id (.inr rfl),?_⟩) tidy.given
      rw [ClientSession.Holds,doing] at here
      exact here.2
    case verdict =>
      refine login _ rfl rfl nofun (fun j held here => ⟨rfl,?_⟩) tidy.given
      rw [ClientSession.Holds,doing] at here
      exact here.2
    case beginHandshake =>
      have on : Tidy s.toTables c { x with doing := .connect } :=
        walk nofun (fun _ => rfl) rfl rfl nofun
      obtain ⟨lowIDs,byHash,storage⟩ := s.beginHandshake_keeps x.info.hash
      exact on.later lowIDs byHash later
    case connect =>
      cases yes with
      | true => exact (walk (fun no => by cases no) (fun _ => rfl) rfl rfl (fun no => by cases no)).later rfl rfl later
      | false => exact walk nofun (fun _ => rfl) rfl rfl nofun
    case logIn storeID =>
      refine login _ rfl rfl nofun (fun _ held here => ⟨rfl,?_⟩) (fun _ => ?_)
      · rw [ClientSession.Holds,doing] at here
        exact here.2
      · refine (rowed.rows c x known storeID ?_).2.1
        unfold ClientSession.row
        rw [doing]
    case register =>
      have on : Tidy s.toTables c { x with doing := .endHandshake } :=
        walk nofun nofun rfl rfl nofun
      have before : x.release.beforeUnregister = true := by rw [tidy.idle (by rw [doing]; rfl)]; rfl
      dsimp only [Tables.registerSession]
      split
      · refine { on with byHash := fun hash held => ?_ }
        rw [GoMap.lookup_insert_ite] at held
        split at held
        next same => exact ⟨before,course.register doing,rfl,same.symm⟩
        · exact on.byHash hash held
      · exact on
    case endHandshake =>
      have back : Tidy s.toTables c { x with doing := .reading } :=
        walk nofun nofun rfl rfl nofun
      obtain ⟨lowIDs,byHash,_⟩ := s.endHandshake_keeps x.info.hash
      exact back.later lowIDs byHash later
    case offering info files =>
      have back : Tidy s.toTables c { x with doing := .reading } :=
        walk nofun nofun rfl rfl nofun
      dsimp only at later ⊢
      split
      · exact tidy
      next held =>
        rw [if_neg held] at later
        refine back.later ?_ ?_ later
        · split <;> rfl
        · split <;> rfl
    case leaving =>
      dsimp only
      split
      · exact walk nofun nofun rfl rfl nofun
      · exact tidy.beginRelease (by rw [doing]; rfl)
    all_goals exact absurd rfl reads

/-- A release keeps its session tidy. -/
theorem Tidy.release (rowed : Rowed cfg.unicode s) (known : s.sessions[c]? = some x) (tidy : Tidy s.toTables c x) :
    Tidy (releaseStep cfg s.toTables c x).2 c (releaseStep cfg s.toTables c x).1 := by
  have course := rowed.course c x known
  have captured := tidy.captured
  have out := tidy.undisturbed
  have lowID := tidy.lowID
  have byHash := tidy.byHash
  have departed := tidy.departed
  have advance := @tidy.advance
  have none : x.release.beforeRemove = false → ∀ id, s.lowIDs.clients.lookup id ≠ some c :=
    fun passed id held => Bool.false_ne_true (passed.symm.trans (lowID id held).1)
  have gone : x.release.beforeUnregister = false → ∀ hash, s.sessionsByHash.lookup hash ≠ some c :=
    fun passed hash held => Bool.false_ne_true (passed.symm.trans (byHash hash held).1)
  unfold releaseStep
  cases release : x.release <;> rw [release] at captured out none gone departed
  case idle | done => exact tidy
  case begun => exact advance (out Release.noConfusion) ⟨rfl,rfl⟩ (.inl rfl) (.inl rfl) nofun nofun
  case flags hadLowID wasLogged =>
    obtain ⟨low,logged⟩ := captured
    exact advance (out Release.noConfusion) ⟨low,logged,rfl⟩ (.inl rfl) (.inl rfl) nofun
      nofun
  case snapshot hadLowID wasLogged info =>
    obtain ⟨low,logged,rfl⟩ := captured
    have settled := out Release.noConfusion
    -- an entry of the session is the one its record names
    have named : ∀ id, s.lowIDs.clients.lookup id = some c → hadLowID = true ∧ x.info.id = id := by
      intro id held
      obtain ⟨-,-,here⟩ := lowID id held
      cases doing : x.doing <;> rw [doing] at settled here
      case assign j => cases settled
      all_goals exact ⟨low.trans here.1,here.2⟩
    cases hadLowID with
    | false =>
      refine advance settled ⟨logged,rfl⟩ (.inr (fun id held => ?_)) (.inl rfl) nofun nofun
      cases (named id held).1
    | true =>
      have removed : ∀ id, (s.lowIDs.remove x.info.id).clients.lookup id ≠ some c := by
        intro id held
        rw [LowIDClients.lookup_remove] at held
        split at held
        · cases held
        next other => exact other (named id held).2.symm
      have left : Tidy { s.toTables with lowIDs := s.lowIDs.remove x.info.id } c x :=
        tidy.frame (fun id held => absurd held (removed id)) (fun _ => id) (System.Later.refl _)
      exact left.advance settled ⟨logged,rfl⟩ (.inr removed) (.inl rfl) nofun nofun
  case lock wasLogged info =>
    obtain ⟨logged,rfl⟩ := captured
    cases wasLogged with
    | true =>
      exact advance (out Release.noConfusion) ⟨logged.symm,rfl⟩ (.inr (none rfl)) (.inl rfl) nofun
        nofun
    | false =>
      have never : x.logged ≠ true := fun yes => Bool.false_ne_true (logged.trans yes)
      exact advance (out Release.noConfusion) trivial (.inr (none rfl)) (.inr (fun hash held => never (byHash hash held).2.1))
        (fun yes => absurd yes never) (fun yes => absurd yes never)
  case unregister info =>
    obtain ⟨logged,rfl⟩ := captured
    have whole := course.hash (.inr logged)
    have gone : ∀ hash, (s.toTables.unregisterSession x.info.hash c).sessionsByHash.lookup hash ≠ some c := by
      intro hash held
      unfold Tables.unregisterSession at held
      split at held
      · rw [GoMap.lookup_erase_ite] at held
        split at held
        · cases held
        next other => exact other (byHash hash held).2.2.2.symm
      next kept =>
        have same := (byHash hash held).2.2.2
        exact kept ⟨whole,same ▸ held⟩
    obtain ⟨lowIDs,storage⟩ := s.unregisterSession_keeps x.info.hash c
    have left : Tidy (s.toTables.unregisterSession x.info.hash c) c x := by
      refine tidy.frame (fun id held => lowIDs ▸ held) (fun hash held => absurd held (gone hash)) ?_
      rw [storage]
      exact System.Later.refl _
    exact left.advance (out Release.noConfusion) ⟨logged,rfl⟩ (.inr (fun id held => none rfl id (lowIDs ▸ held))) (.inr gone)
      nofun nofun
  case disconnect info =>
    obtain ⟨logged,rfl⟩ := captured
    have some := (rowed.rows c x known _ (course.row logged)).1
    have meant : s.storage.engine.storeIDOf x.info = x.info.storeID := if_neg some
    have left : Tidy (s.store cfg.unicode (.beginDisconnect x.info)) c x :=
      tidy.later rfl rfl (System.step_later s.storage rowed.sound rowed.contents
        (show (Op.beginDisconnect x.info).Interleaved from trivial))
    refine left.advance (out Release.noConfusion) ⟨logged,meant⟩ (.inr (none rfl)) (.inr (gone rfl))
      (fun _ _ => ?_) (fun _ no => ?_)
    · refine congrArg (Option.map MemClient.info) (((MemoryEngine.start_clients rowed.sound x.info).2 _).trans (if_pos ?_))
      exact ⟨meant.symm,some⟩
    · cases no
  case disconnecting storeID =>
    obtain ⟨logged,rfl⟩ := captured
    dsimp only
    split
    · exact advance (out Release.noConfusion) ⟨logged,rfl⟩ (.inr (none rfl)) (.inr (gone rfl)) (fun _ _ => departed logged rfl)
        nofun
    next idle =>
      refine advance (out Release.noConfusion) trivial (.inr (none rfl)) (.inr (gone rfl)) (fun _ _ => departed logged rfl)
        (fun _ _ p left same => idle ?_)
      exact any_eq_true.mpr ⟨p,left,beq_iff_eq.mpr same⟩

/-- No handover drops a session whose login is under way, and no login is taken from a session
that is being released or has a LowID already. -/
def Undisturbed (s : Runtime) : Event → Prop
  | .drop c => ∀ x, s.sessions[c]? = some x → x.doing.loggingIn = false
  | .login c _ => ∀ x, s.sessions[c]? = some x → x.isReading = true → x.logged = false →
    x.release = .idle ∧ ∀ id, s.lowIDs.clients.lookup id ≠ some c
  | _ => True

def Event.calm : Event → Bool
  | .drop _ => false
  | .login _ _ => false
  | _ => true

theorem undisturbed_of {e : Event} (calm : e.calm = true) : Undisturbed s e := by
  cases e <;> trivial

theorem isDone_release (done : x.isDone = true) : x.release = .done := by
  unfold ClientSession.isDone at done
  split at done
  next is => exact is
  · cases done

theorem newTCPClient_tidy (t : Tables) (peer : Option Address) (lowIDs : ∀ id, t.lowIDs.clients.lookup id ≠ some c)
    (byHash : ∀ hash, t.sessionsByHash.lookup hash ≠ some c) : Tidy t c (newTCPClient peer) where
  undisturbed no := absurd rfl no
  captured := trivial
  firewalled id no := by rcases no with no | no <;> cases no
  lowID id held := absurd held (lowIDs id)
  byHash hash held := absurd held (byHash hash)
  given no := by cases no
  departed no := by cases no
  finished no := by cases no

/-- The tables name sessions there are. -/
structure Known (s : Runtime) : Prop where
  lowIDs : ∀ id d, s.lowIDs.clients.lookup id = some d → d < s.sessions.length
  byHash : ∀ hash d, s.sessionsByHash.lookup hash = some d → d < s.sessions.length

theorem step_known (known : Known s) (e : Event) : Known (step cfg s e) := by
  cases e with
  | accept peer =>
    have longer : ∀ {d}, d < s.sessions.length → d < (s.sessions ++ [newTCPClient peer]).length := by
      intro d here
      rw [length_append]
      omega
    exact ⟨fun id d held => longer (known.lowIDs id d held),fun hash d held => longer (known.byHash hash d held)⟩
  | own c yes =>
    rw [Runtime.step]
    cases here : s.sessions[c]? with
    | none => exact known
    | some x =>
      have size : (stepOwn cfg s c x yes).sessions.length = s.sessions.length := by
        unfold stepOwn
        dsimp only
        rw [length_set]
        cases (own cfg s c x yes).ends with
        | none => rfl
        | some _ => exact length_modify ..
      have own : c < s.sessions.length := (List.getElem?_eq_some_iff.mp here).1
      refine ⟨fun id d held => ?_,fun hash d held => ?_⟩
      · rw [Option.elim_some,size]
        by_cases mine : d = c
        · exact mine ▸ own
        · exact known.lowIDs id d ((own_entries cfg s c x yes mine).1 id held)
      · rw [Option.elim_some,size]
        by_cases mine : d = c
        · exact mine ▸ own
        · exact known.byHash hash d ((own_entries cfg s c x yes mine).2 hash held)
  | release c =>
    rw [Runtime.step]
    cases here : s.sessions[c]? with
    | none => exact known
    | some x =>
      have size : (stepRelease cfg s c x).sessions.length = s.sessions.length := length_set ..
      refine ⟨fun id d held => ?_,fun hash d held => ?_⟩
      · rw [Option.elim_some,size]
        exact known.lowIDs id d ((release_entries cfg s.toTables c x d).1 id held)
      · rw [Option.elim_some,size]
        exact known.byHash hash d ((release_entries cfg s.toTables c x d).2 hash held)
  | sweepCheck i =>
    rw [Runtime.step]
    cases s.online[i]? <;> exact ⟨known.lowIDs,known.byHash⟩
  | sweepDisconnect i =>
    rw [Runtime.step]
    cases s.unheld[i]? <;> exact ⟨known.lowIDs,known.byHash⟩
  | _ =>
    first
    | exact ⟨known.lowIDs,known.byHash⟩
    | exact ⟨fun id d held => (length_modify ..).symm ▸ known.lowIDs id d held,
        fun hash d held => (length_modify ..).symm ▸ known.byHash hash d held⟩

theorem step_tidy (known : Known s) (rowed : Rowed cfg.unicode s) (each : Each Tidy s) (e : Event)
    (undisturbed : Undisturbed s e) : Each Tidy (step cfg s e) := by
  refine each.step e (fun c peer new => ?_) ?_ ?_ ?_ ?_ ?_
  · refine newTCPClient_tidy _ peer (fun id held => ?_) (fun hash held => ?_)
    · exact absurd (known.lowIDs id c held) (Nat.not_lt.mpr new)
    · exact absurd (known.byHash hash c held) (Nat.not_lt.mpr new)
  · rintro c x _ there tidy reading login packet
    have doing := isReading_given reading
    have walk := @tidy.walk
    rw [doing] at walk
    rcases packet with rfl | ⟨req,rfl,out⟩ | ⟨_,rfl,-⟩
    · exact walk nofun nofun rfl rfl nofun
    · obtain rfl := login req rfl
      obtain ⟨idle,none⟩ := undisturbed x there reading out
      have never : x.logged ≠ true := fun yes => Bool.false_ne_true (out.symm.trans yes)
      refine ⟨fun no => absurd idle no,?_,fun id no => ?_,fun id held => absurd held (none id),fun hash held => ?_,
        fun yes => absurd yes never,fun yes => absurd yes never,fun yes => absurd yes never⟩
      · dsimp only
        rw [idle]
        trivial
      · rcases no with no | no <;> cases no
      · exact absurd (tidy.byHash hash held).2.1 never
    · exact walk nofun nofun rfl rfl nofun
  · rintro c x there begins tidy
    refine tidy.beginRelease ?_
    rcases begins with rfl | ⟨hash,held⟩
    · exact undisturbed x there
    · exact (tidy.byHash hash held).2.2.1
  · rintro c x yes - there tidy
    refine ⟨tidy.own yes rowed there,fun d y other holds => ?_⟩
    obtain ⟨lowIDs,byHash⟩ := own_entries cfg s c x yes other
    exact holds.frame lowIDs byHash (rowed.own_later there)
  · rintro c x - there tidy
    refine ⟨tidy.release rowed there,fun d _ _ holds => ?_⟩
    obtain ⟨lowIDs,byHash⟩ := release_entries cfg s.toTables c x d
    exact holds.frame lowIDs byHash (rowed.release_later there)
  · rintro op _ _ _ tidy
    refine tidy.later rfl rfl (System.step_later s.storage rowed.sound rowed.contents ?_)
    cases op <;> trivial

/-- In every run in which no handover drops a session in the middle of its login and no login is
taken from a session that is being released or has a LowID, a session that has been released and
whose goroutine has returned leaves nothing behind. -/
theorem release_leaves_nothing (cfg : RuntimeConfig) (allowLowIDs : Bool) (min max : Nat) (events : List Event)
    (undisturbed : Along cfg Undisturbed { lowIDs := newLowIDClients allowLowIDs min max } events) :
    let s := run cfg { lowIDs := newLowIDClients allowLowIDs min max } events
    ∀ c x, s.sessions[c]? = some x → x.isDone = true → x.isReturned = true →
      (∀ id, s.lowIDs.clients.lookup id ≠ some c) ∧ (∀ hash, s.sessionsByHash.lookup hash ≠ some c) ∧
      s.storage.engine.infoOf x.info.storeID = none ∧
      ∀ key, ∀ source ∈ s.storage.engine.sourcesOf key, source.owner ≠ x.info.storeID := by
  intro s c x there done _
  have empty : ∀ id, (newLowIDClients allowLowIDs min max : LowIDClients Nat).clients.lookup id = none :=
    fun id => by rw [newLowIDClients_clients]; rfl
  obtain ⟨-,rowed,each⟩ := undisturbed.run (motive := fun s => Known s ∧ Rowed cfg.unicode s ∧ Each Tidy s)
    ⟨⟨fun id d held => absurd ((empty id).symm.trans held) (by simp),fun hash _ held => by cases held⟩,
      start_rowed cfg.unicode _,fun c x no => by cases no⟩
    (fun s e undisturbed inv => ⟨step_known inv.1 e,inv.2.1.step e,step_tidy inv.1 inv.2.1 inv.2.2 e undisturbed⟩)
  have tidy := each c x there
  have release := isDone_release done
  have lowID := tidy.lowID
  have byHash := tidy.byHash
  have departed := tidy.departed
  rw [release] at lowID byHash departed
  -- a session that never logged in has no row, and no source is of nobody
  have gone : s.storage.engine.infoOf x.info.storeID = none ∧ ∀ p ∈ s.storage.pending, p.storeID ≠ x.info.storeID := by
    cases logged : x.logged with
    | true => exact ⟨departed logged rfl,tidy.finished logged release⟩
    | false =>
      have zero := (rowed.course c x there).unlogged logged
      rw [zero]
      refine ⟨Option.eq_none_iff_forall_ne_some.mpr (fun _ here => ?_),fun p left => (rowed.owned.departing p left).2.1⟩
      obtain ⟨client,connected,-⟩ := Option.map_eq_some_iff.mp here
      exact (rowed.owned.keyed 0 client connected).1 rfl
  refine ⟨fun id held => ?_,fun hash held => ?_,gone.1,fun key source member own => ?_⟩
  · cases (lowID id held).1
  · cases (byHash hash held).1
  · rcases rowed.owned.present key source member with ⟨_,connected⟩ | ⟨p,left,same,-⟩
    · have none := gone.1
      rw [MemoryEngine.infoOf,← own,connected] at none
      cases none
    · exact gone.2 p left (same.trans own)

end

/-- A firewalled session logs in and leaves. -/
def cameAndWent : List Event :=
  Event.accept none :: Event.login 0 { hash := userHash 1, id := 7, port := 4662 } ::
    (replicate 12 (Event.own 0 true) ++ Event.hangUp 0 :: Event.own 0 true ::
      (replicate 7 (Event.release 0) ++ [Event.own 0 true]))

theorem release_leaves_nothing_once :
    let s := run plainConfig { lowIDs := newLowIDClients true 1 1 } cameAndWent
    (s.sessions[0]?).map (fun x => (x.logged,x.info.storeID)) = some (true,1) ∧ s.lowIDs.clients.lookup 1 ≠ some 0 ∧
      s.sessionsByHash.lookup (userHash 1).1 ≠ some 0 ∧ s.storage.engine.infoOf 1 = none := by
  have undisturbed : Along plainConfig Undisturbed { lowIDs := newLowIDClients true 1 1 } cameAndWent := by
    refine ⟨trivial,?_,Along.of_all _ (fun e member s => undisturbed_of (all_eq_true.mp (by decide) e member))⟩
    rintro x known - -
    cases known
    exact ⟨rfl,fun _ held => by cases held⟩
  have ended : ((run plainConfig { lowIDs := newLowIDClients true 1 1 } cameAndWent).sessions[0]?).map
      (fun x => (x.isDone,x.isReturned,x.logged,x.info.storeID)) = some (true,true,true,1) := by decide +kernel
  obtain ⟨x,known,same⟩ := Option.map_eq_some_iff.mp ended
  obtain ⟨done,returned,logged,row⟩ : x.isDone = true ∧ x.isReturned = true ∧ x.logged = true ∧ x.info.storeID = 1 := by
    simpa using same
  obtain ⟨lowID,byHash,gone,-⟩ := release_leaves_nothing plainConfig true 1 1 cameAndWent undisturbed 0 x known done returned
  rw [row] at gone
  intro _
  exact ⟨(congrArg _ known).trans (by rw [Option.map_some,logged,row]),lowID 1,byHash _,gone⟩

/-- A handover drops a session that has not parked because its login is under way. The release
finds nothing to give up, and the login goes on. -/
def droppedEarly : List Event :=
  Event.accept none :: Event.login 0 { hash := userHash 1, id := 7, port := 4662 } :: Event.drop 0 ::
    (replicate 4 (Event.release 0) ++ (replicate 12 (Event.own 0 true) ++ [Event.hangUp 0,Event.own 0 true]))

theorem release_leaves_something :
    let s := run plainConfig { lowIDs := newLowIDClients true 1 1 } droppedEarly
    (s.sessions[0]?).any (fun x => x.isDone && x.isReturned && x.info.storeID == 1) = true ∧
      s.lowIDs.clients.lookup 1 = some 0 ∧ s.sessionsByHash.lookup (userHash 1).1 = some 0 ∧
      (s.storage.engine.infoOf 1).isSome = true := by
  decide +kernel

end Runtime

end ENode.Ed2k
