import ENode.SessionRuntime

/-! A release gives up a LowID by the number in the session's record. That number is the
session's own unless it is still the one the client sent: then it may be another session's. -/
namespace ENode.Ed2k

open GoText Storage

/-- The release has not given up the session's LowID. -/
def Release.beforeRemove : Release → Bool
  | .idle => true
  | .begun => true
  | .flags _ _ => true
  | .snapshot _ _ _ => true
  | _ => false

/-- The LowID the next step of the release gives up. -/
def Release.removes : Release → Option Nat
  | .snapshot true _ info => some info.id
  | _ => none

namespace Runtime

/-- No session is given such a number. -/
def Outside (id : Nat) : Prop := id = 0 ∨ lowIDCeiling < id

def Ranged (t : Tables) : Prop := ∀ id d, t.lowIDs.clients.lookup id = some d → ¬Outside id

/-- The numbers a session's release may give up are its own, or nobody's. -/
structure OwnID (t : Tables) (c : Nat) (x : ClientSession) : Prop where
  settled : x.release.beforeRemove = true → x.clientID = false →
    Outside x.info.id ∨ t.lowIDs.clients.lookup x.info.id = some c
  given : ∀ id, x.doing.given = some id → x.release.beforeRemove = true → t.lowIDs.clients.lookup id = some c
  taken : ∀ logged info, x.release = .snapshot true logged info →
    Outside info.id ∨ t.lowIDs.clients.lookup info.id = some c

section
variable {cfg : RuntimeConfig} {s : Runtime} {c d : Nat} {x : ClientSession}

namespace OwnID

theorem walk (holds : OwnID t c x) {next : Doing} (free : next.given = none) : OwnID t c { x with doing := next } :=
  ⟨holds.settled,fun id assigned => absurd (free.symm.trans assigned) (Option.some_ne_none id).symm,holds.taken⟩

theorem beginRelease (holds : OwnID t c x) : OwnID t c x.beginRelease := by
  unfold ClientSession.beginRelease
  split
  next idle =>
    refine ⟨fun _ => holds.settled (by rw [idle]; rfl),fun id assigned _ => holds.given id assigned (by rw [idle]; rfl),?_⟩
    intro _ _ same
    cases same
  · exact holds

theorem frame (holds : OwnID t d y)
    (kept : ∀ id, t.lowIDs.clients.lookup id = some d → t'.lowIDs.clients.lookup id = some d) : OwnID t' d y :=
  ⟨fun before own => (holds.settled before own).imp_right (kept _),
    fun id assigned before => kept _ (holds.given id assigned before),
    fun logged info same => (holds.taken logged info same).imp_right (kept _)⟩

theorem same (holds : OwnID t d y) (lowIDs : t'.lowIDs = t.lowIDs) : OwnID t' d y :=
  holds.frame (fun _ held => by rw [lowIDs]; exact held)

end OwnID

theorem hasHighID_outside {id : Nat} (high : hasHighID id = true) : Outside id := by
  unfold hasHighID isLowID at high
  unfold Outside lowIDCeiling
  simp only [Bool.and_eq_true,decide_eq_true_eq,Bool.not_eq_true',decide_eq_false_iff_not] at high
  omega

/-- A step of a session's own goroutine keeps its numbers its own, and leaves the others theirs. -/
theorem OwnID.own (cfg : RuntimeConfig) (yes : Bool) (ranged : Ranged s.toTables) (holds : OwnID s.toTables c x) :
    OwnID (own cfg s c x yes).tables c (own cfg s c x yes).self ∧ Ranged (own cfg s c x yes).tables ∧
      ∀ d y, OwnID s.toTables d y → OwnID (Runtime.own cfg s c x yes).tables d y := by
  have quiet : ∀ o : Outcome, o.tables.lowIDs = s.lowIDs → OwnID s.toTables c o.self →
      OwnID o.tables c o.self ∧ Ranged o.tables ∧ ∀ d y, OwnID s.toTables d y → OwnID o.tables d y :=
    fun _ lowIDs self => ⟨self.same lowIDs,fun id d held => ranged id d (lowIDs ▸ held),fun d y holds => holds.same lowIDs⟩
  by_cases reads : x.doing.works = false
  · rw [own_decides cfg s c yes reads]
    exact quiet _ rfl (holds.walk (decides_walk s c yes reads).given)
  · unfold Runtime.own
    cases doing : x.doing <;> rw [doing] at reads
    case freeOrphan req => exact quiet _ rfl (holds.walk rfl)
    case record req => exact quiet _ rfl ⟨nofun,nofun,holds.taken⟩
    case firewall =>
      refine quiet _ rfl ?_
      dsimp only
      split
      · exact ⟨holds.settled,nofun,holds.taken⟩
      next reachable =>
        have high : hasHighID x.info.ipv4 = true := by
          cases is : hasHighID x.info.ipv4 with
          | true => rfl
          | false =>
            rw [is] at reachable
            exact absurd rfl reachable
        exact ⟨fun _ _ => .inl (hasHighID_outside high),nofun,holds.taken⟩
    case allocate =>
      dsimp only
      split
      · exact quiet _ rfl (holds.walk rfl)
      next lowIDs id added =>
        obtain ⟨free,rfl,_,_⟩ := s.lowIDs.addByKey_some added
        have kept : ∀ (d : Nat) (j : Nat), s.lowIDs.clients.lookup j = some d →
            (s.lowIDs.putLocked id c).clients.lookup j = some d := by
          intro d j held
          rw [LowIDClients.lookup_put,if_neg]
          · exact held
          · rintro rfl
            rw [free] at held
            cases held
        refine ⟨?_,?_,fun d _ holds => holds.frame (kept d)⟩
        · have own : OwnID { s.toTables with lowIDs := s.lowIDs.putLocked id c } c x := holds.frame (kept c)
          refine ⟨own.settled,fun other assigned _ => ?_,own.taken⟩
          cases assigned
          exact (LowIDClients.lookup_put ..).trans (if_pos rfl)
        · intro j d held
          rw [LowIDClients.lookup_put] at held
          split at held
          next same =>
            rw [same]
            rintro (zero | _) <;> omega
          · exact ranged j d held
    case assign id =>
      exact quiet _ rfl ⟨fun before _ => .inr (holds.given id (by rw [doing]; rfl) before),nofun,holds.taken⟩
    case verdict | logIn => exact quiet _ rfl ⟨holds.settled,nofun,holds.taken⟩
    case beginHandshake => exact quiet _ (s.beginHandshake_keeps x.info.hash).1 (holds.walk rfl)
    case connect =>
      dsimp only
      split <;> exact quiet _ rfl (holds.walk rfl)
    case register =>
      refine quiet _ ?_ (holds.walk rfl)
      dsimp only [Tables.registerSession]
      split <;> rfl
    case endHandshake => exact quiet _ (s.endHandshake_keeps x.info.hash).1 (holds.walk rfl)
    case offering info files =>
      dsimp only
      split
      · exact quiet _ rfl holds
      refine quiet _ ?_ (holds.walk rfl)
      dsimp only
      split <;> rfl
    case leaving =>
      refine quiet _ rfl ?_
      dsimp only
      split
      · exact holds.walk rfl
      · exact holds.beginRelease
    all_goals exact absurd rfl reads

/-- A step of a session's release gives up nothing but its own, as long as it does not take down
a number of the client's. -/
theorem OwnID.release (cfg : RuntimeConfig) (ranged : Ranged s.toTables) (holds : OwnID s.toTables c x)
    (settled : ∀ logged, x.release = .flags true logged → x.clientID = false) :
    OwnID (releaseStep cfg s.toTables c x).2 c (releaseStep cfg s.toTables c x).1 ∧
      Ranged (releaseStep cfg s.toTables c x).2 ∧
      ∀ d y, d ≠ c → OwnID s.toTables d y → OwnID (releaseStep cfg s.toTables c x).2 d y := by
  have quiet : ∀ o : ClientSession × Tables, o.2.lowIDs = s.lowIDs → OwnID s.toTables c o.1 →
      OwnID o.2 c o.1 ∧ Ranged o.2 ∧ ∀ d y, d ≠ c → OwnID s.toTables d y → OwnID o.2 d y :=
    fun _ lowIDs self => ⟨self.same lowIDs,fun id d held => ranged id d (lowIDs ▸ held),fun d y _ holds => holds.same lowIDs⟩
  -- past the removal nothing is left to give up
  have past : ∀ {released : Bool} {next : Release}, next.beforeRemove = false →
      ∀ t, OwnID t c { x with released := released, release := next } := by
    intro _ _ gone _
    refine ⟨fun before => ?_,fun id _ before => ?_,fun logged info same => ?_⟩
    · exact absurd (gone.symm.trans before) Bool.false_ne_true
    · exact absurd (gone.symm.trans before) Bool.false_ne_true
    · dsimp only at same
      rw [same] at gone
      cases gone
  unfold releaseStep
  cases release : x.release with
  | idle | done => exact quiet _ rfl holds
  | begun =>
    have before : x.release.beforeRemove = true := by rw [release]; rfl
    exact quiet _ rfl ⟨fun _ => holds.settled before,fun id given _ => holds.given id given before,
      fun logged info same => by cases same⟩
  | flags hadLowID wasLogged =>
    have before : x.release.beforeRemove = true := by rw [release]; rfl
    refine quiet _ rfl ⟨fun _ => holds.settled before,fun id given _ => holds.given id given before,?_⟩
    intro _ info same
    cases same
    exact holds.settled before (settled wasLogged release)
  | snapshot hadLowID wasLogged info =>
    cases hadLowID with
    | false => exact quiet _ rfl (past rfl _)
    | true =>
      have removed : ∀ d j, d ≠ c → s.lowIDs.clients.lookup j = some d →
          (s.lowIDs.remove info.id).clients.lookup j = some d := by
        intro d j other held
        rw [LowIDClients.lookup_remove,if_neg]
        · exact held
        · rintro rfl
          rcases holds.taken wasLogged info release with outside | own
          · exact ranged _ d held outside
          · rw [own] at held
            exact other (Option.some.inj held).symm
      refine ⟨past rfl _,fun j d held => ?_,fun d _ other holds => holds.frame (fun j => removed d j other)⟩
      change (s.lowIDs.remove info.id).clients.lookup j = some d at held
      rw [LowIDClients.lookup_remove] at held
      split at held
      · cases held
      · exact ranged j d held
  | lock | disconnecting =>
    refine quiet _ rfl (past ?_ _)
    split <;> rfl
  | unregister info =>
    refine quiet _ ?_ (past rfl _)
    dsimp only [Tables.unregisterSession]
    split <;> rfl
  | disconnect _ => exact quiet _ rfl (past rfl _)

/-- No release of a session marked firewalled takes down a number that is the client's own. -/
def SettledRelease (s : Runtime) : Event → Prop
  | .release c => ∀ x logged, s.sessions[c]? = some x → x.release = .flags true logged → x.clientID = false
  | _ => True

theorem settledRelease_of (settled : (s.sessions[c]?).any ClientSession.clientID = false) : SettledRelease s (.release c) := by
  intro _ _ known _
  rw [known] at settled
  exact settled

theorem newTCPClient_ownID (t : Tables) (c : Nat) (peer : Option Address) : OwnID t c (newTCPClient peer) :=
  ⟨fun _ _ => .inl (.inl rfl),nofun,nofun⟩

theorem isReading_given (reading : x.isReading = true) : x.doing = .reading := by
  unfold ClientSession.isReading at reading
  split at reading
  next is => exact is
  · cases reading

theorem step_ranged (ranged : Ranged s.toTables) (each : Each OwnID s) (e : Event) (settled : SettledRelease s e) :
    Ranged (step cfg s e).toTables ∧ Each OwnID (step cfg s e) := by
  refine ⟨?_,?_⟩
  · cases e with
    | own c yes =>
      rw [Runtime.step]
      cases known : s.sessions[c]? with
      | none => exact ranged
      | some x =>
        exact ((each c x known).own cfg yes ranged).2.1
    | release c =>
      rw [Runtime.step]
      cases known : s.sessions[c]? with
      | none => exact ranged
      | some x =>
        exact ((each c x known).release cfg ranged (fun logged => settled x logged known)).2.1
    | sweepCheck i =>
      rw [Runtime.step]
      cases s.online[i]? <;> exact ranged
    | sweepDisconnect i =>
      rw [Runtime.step]
      cases s.unheld[i]? <;> exact ranged
    | _ => exact ranged
  · refine each.step e (fun c peer _ => newTCPClient_ownID _ c peer) ?_ (fun c x _ _ holds => holds.beginRelease) ?_ ?_ ?_
    · rintro c x _ - holds - - (rfl | ⟨_,rfl,-⟩ | ⟨_,rfl,-⟩)
      all_goals exact holds.walk rfl
    · rintro c x yes - known holds
      obtain ⟨self,-,others⟩ := holds.own cfg yes ranged
      exact ⟨self,fun d y _ => others d y⟩
    · rintro c x rfl known holds
      obtain ⟨self,-,others⟩ := holds.release cfg ranged (fun logged => settled x logged known)
      exact ⟨self,others⟩
    · exact fun _ _ _ _ holds => holds.same rfl

theorem removes_snapshot {release : Release} {id : Nat} (removes : release.removes = some id) :
    ∃ wasLogged info, release = .snapshot true wasLogged info ∧ info.id = id := by
  unfold Release.removes at removes
  split at removes
  next wasLogged info => exact ⟨wasLogged,info,rfl,Option.some.inj removes⟩
  · cases removes

/-- In every run in which no release of a session marked firewalled takes down the number its
client sent, a release removes no LowID but its own session's. -/
theorem release_frees_own (cfg : RuntimeConfig) (allowLowIDs : Bool) (min max : Nat) (events : List Event)
    (settled : Along cfg SettledRelease { lowIDs := newLowIDClients allowLowIDs min max } events) :
    let s := run cfg { lowIDs := newLowIDClients allowLowIDs min max } events
    ∀ c x id d, s.sessions[c]? = some x → x.release.removes = some id → s.lowIDs.clients.lookup id = some d → d = c := by
  intro s c x id d known removes held
  have empty : ∀ id, (newLowIDClients allowLowIDs min max : LowIDClients Nat).clients.lookup id = none :=
    fun id => by rw [newLowIDClients_clients]; rfl
  obtain ⟨ranged,each⟩ := settled.run (motive := fun s => Ranged s.toTables ∧ Each OwnID s)
    ⟨fun id d held => absurd (empty id ▸ held) (by simp),fun c x held => absurd held (by simp)⟩
    (fun _ e settled inv => step_ranged inv.1 inv.2 e settled)
  obtain ⟨wasLogged,info,release,rfl⟩ := removes_snapshot removes
  rcases (each c x known).taken wasLogged info release with outside | own
  · exact absurd outside (ranged _ d held)
  · rw [own] at held
    exact (Option.some.inj held).symm

end

/-- One LowID for everybody, and no extension. -/
def plainConfig : RuntimeConfig := { natCallback := false, publishV6Sources := false, unicode := Unicode.ascii }

def userHash (n : UInt8) : HashKey := ⟨List.replicate hashLen n,rfl⟩

/-- A firewalled session is dropped once it has its LowID. -/
def droppedLate : List Event :=
  [.accept none,.login 0 { hash := userHash 1, id := 7, port := 4662 },.own 0 true,.own 0 true,.own 0 true,.own 0 true,
    .own 0 true,.drop 0,.release 0,.release 0]

theorem release_frees_own_late :
    let s := run plainConfig { lowIDs := newLowIDClients true 1 1 } droppedLate
    s.lowIDs.clients.lookup 1 = some 0 ∧ ∀ d, s.lowIDs.clients.lookup 1 = some d → d = 0 := by
  have settled : Along plainConfig SettledRelease { lowIDs := newLowIDClients true 1 1 } droppedLate :=
    ⟨trivial,trivial,trivial,trivial,trivial,trivial,trivial,trivial,settledRelease_of (by decide +kernel),
      settledRelease_of (by decide +kernel),trivial⟩
  have removes : ((run plainConfig { lowIDs := newLowIDClients true 1 1 } droppedLate).sessions[0]?).bind
      (fun x => x.release.removes) = some 1 := by decide +kernel
  obtain ⟨x,known,removes⟩ := Option.bind_eq_some_iff.mp removes
  exact ⟨by decide +kernel,fun d held => release_frees_own plainConfig true 1 1 droppedLate settled 0 x 1 d known removes held⟩

/-- Session 0 holds the only LowID. Session 1 names that number in its login, gets none, and
leaves. -/
def exhausted : List Event :=
  Event.accept none :: Event.login 0 { hash := userHash 1, id := 0, port := 4662 } ::
    (List.replicate 10 (Event.own 0 true) ++ Event.accept none ::
      Event.login 1 { hash := userHash 2, id := 1, port := 4663 } ::
      (List.replicate 4 (Event.own 1 true) ++ [Event.hangUp 1,Event.own 1 true,Event.release 1,Event.release 1]))

/-- The release of session 1 is about to remove the LowID of session 0, which is logged in. -/
theorem release_frees_other :
    let s := run plainConfig { lowIDs := newLowIDClients true 1 1 } exhausted
    (s.sessions[0]?).map (fun x => (x.logged,x.info.id)) = some (true,1) ∧
      (s.sessions[1]?).bind (fun x => x.release.removes) = some 1 ∧ s.lowIDs.clients.lookup 1 = some 0 := by
  decide +kernel

end Runtime

end ENode.Ed2k
