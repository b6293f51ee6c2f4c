import ENode.SessionRelease

/-! What one event does to the sessions and to each table, field by field: the facts that the
invariants of runs are proved from. -/
namespace ENode.Ed2k

open GoText Storage List

def Doing.taken : Doing → Bool
  | .leaving => true
  | .checkOnline _ => true
  | .offering _ _ => true
  | _ => false

namespace ClientSession

/-- The session has a row, and no release has given up its hash. -/
def Bears (x : ClientSession) (sid : Nat) : Prop := x.row = some sid ∧ x.release.beforeUnregister = true

def isIdle (x : ClientSession) : Bool :=
  match x.release with
  | .idle => true
  | _ => false

/-- The hash that a handshake of the session holds. -/
def handshake (x : ClientSession) : Option Bytes := if x.doing.handshakes then some x.info.hash else none

/-- The hash that the goroutine is about to free, or to connect under. -/
def seeks (x : ClientSession) : Option Bytes :=
  match x.doing with
  | .freeOrphan req => some req.hash.1
  | .beginHandshake => some x.info.hash
  | .connect => some x.info.hash
  | _ => none

end ClientSession

/-- What a release has read of a session that was logged in is still so. -/
def Release.Remembers (x : ClientSession) : Release → Prop
  | .flags _ wasLogged => wasLogged = true → x.logged = true
  | .snapshot _ wasLogged info => wasLogged = true → x.logged = true ∧ info = x.info
  | .lock wasLogged info => wasLogged = true → x.logged = true ∧ info = x.info
  | .unregister info => x.logged = true ∧ info = x.info
  | .disconnect info => x.logged = true ∧ info = x.info
  | _ => True

theorem Release.Remembers.mono {x y : ClientSession} {r : Release} (remembers : r.Remembers x)
    (kept : x.logged = true → y.logged = true ∧ y.info = x.info) : r.Remembers y := by
  have both : ∀ {info : ClientInfo}, x.logged = true ∧ info = x.info → y.logged = true ∧ info = y.info :=
    fun held => ⟨(kept held.1).1,held.2.trans (kept held.1).2.symm⟩
  cases r with
  | flags _ _ => exact fun was => (kept (remembers was)).1
  | snapshot | lock => exact fun was => both (remembers was)
  | unregister | disconnect => exact both remembers
  | _ => trivial

namespace Runtime

section
variable {cfg : RuntimeConfig} {s : Runtime} {d : Nat} {y z : ClientSession} {yes : Bool}

theorem beginRelease_before (x : ClientSession) (before : x.beginRelease.release.beforeUnregister = true) :
    x.release.beforeUnregister = true := by
  unfold ClientSession.beginRelease at before
  split at before
  next idle => rw [idle]; rfl
  · exact before

theorem own_logged (course : Course x) (logged : x.logged = true) :
    (own cfg s c x yes).self.logged = true ∧ (own cfg s c x yes).self.info = x.info := by
  have never : x.doing.loggingIn = true → x.doing.loggedOnly = false → False :=
    fun starts before => Bool.false_ne_true ((course.unlogged_of starts before).symm.trans logged)
  by_cases reads : x.doing.works = false
  · rw [own_decides cfg s c yes reads]
    exact ⟨logged,rfl⟩
  · unfold own
    cases doing : x.doing <;> rw [doing] at reads never
    case register | endHandshake => exact ⟨logged,rfl⟩
    case offering info files =>
      dsimp only
      split <;> exact ⟨logged,rfl⟩
    case leaving =>
      dsimp only
      split
      · exact ⟨logged,rfl⟩
      obtain ⟨-,info,-,same,-⟩ := x.beginRelease_fields
      exact ⟨same.trans logged,info⟩
    all_goals first | exact absurd rfl reads | exact (never rfl rfl).elim

theorem own_release (cfg : RuntimeConfig) (s : Runtime) (c : Nat) (x : ClientSession) (yes : Bool) :
    (own cfg s c x yes).self.release = x.release ∨ (own cfg s c x yes).self = x.beginRelease := by
  by_cases reads : x.doing.works = false
  · rw [own_decides cfg s c yes reads]
    exact .inl rfl
  · unfold own
    cases doing : x.doing <;> rw [doing] at reads
    case firewall | allocate | connect | offering =>
      dsimp only
      split <;> exact .inl rfl
    case leaving =>
      dsimp only
      split
      · exact .inl rfl
      · exact .inr rfl
    all_goals first | exact absurd rfl reads | exact .inl rfl

theorem own_before (before : (own cfg s c x yes).self.release.beforeUnregister = true) :
    x.release.beforeUnregister = true := by
  rcases own_release cfg s c x yes with same | same
  · rw [same] at before
    exact before
  · rw [same] at before
    exact beginRelease_before x before

theorem release_before (t : Tables) (before : (releaseStep cfg t c x).1.release.beforeUnregister = true) :
    x.release.beforeUnregister = true := by
  unfold releaseStep at before
  cases release : x.release <;> rw [release] at before
  case disconnecting storeID =>
    dsimp only at before
    split at before <;> cases before
  case disconnect info => cases before
  case done => rw [release] at before; exact before
  all_goals rfl

theorem release_remembers (t : Tables) (remembers : x.release.Remembers x) :
    (releaseStep cfg t c x).1.release.Remembers (releaseStep cfg t c x).1 := by
  unfold releaseStep
  cases release : x.release <;> rw [release] at remembers
  case idle | done => rw [release]; trivial
  case begun => exact id
  case flags hadLowID wasLogged => exact fun was => ⟨remembers was,rfl⟩
  case snapshot | unregister => exact remembers
  case lock wasLogged info =>
    cases wasLogged with
    | true => exact remembers rfl
    | false => trivial
  case disconnect info => trivial
  case disconnecting storeID =>
    dsimp only
    split <;> trivial

theorem step_own_self (known : s.sessions[c]? = some x) (after : (step cfg s (.own c yes)).sessions[c]? = some y) :
    y = (own cfg s c x yes).self := by
  rw [Runtime.step,known] at after
  rcases stepOwn_sessions known after with ⟨-,self⟩ | ⟨other,-⟩
  · exact self
  · exact absurd rfl other

theorem release_handshaking (cfg : RuntimeConfig) (t : Tables) (c : Nat) (x : ClientSession) :
    (releaseStep cfg t c x).2.handshaking = t.handshaking := by
  unfold releaseStep
  cases x.release with
  | snapshot hadLowID _ info => cases hadLowID <;> rfl
  | unregister _ =>
    dsimp only [Tables.unregisterSession]
    split <;> rfl
  | _ => rfl

/-- A session after a step: moved by its goroutine, as it was but for its release, with a packet
taken in, or new. -/
theorem step_session (e : Event) (known : (step cfg s e).sessions[d]? = some y) :
    (∃ z yes, s.sessions[d]? = some z ∧ e = .own d yes ∧ y = (own cfg s d z yes).self) ∨
      (∀ yes, e ≠ .own d yes) ∧ ((∃ z, s.sessions[d]? = some z ∧ y.doing = z.doing ∧ y.info = z.info ∧
          (y.release.beforeUnregister = true → z.release.beforeUnregister = true)) ∨
        (∃ z next, s.sessions[d]? = some z ∧ z.doing = .reading ∧ y = { z with doing := next } ∧ next.taken = true) ∨
        s.sessions.length ≤ d ∧ y.doing = .reading ∧ y.logged = false) := by
  by_cases mine : ∃ yes, e = .own d yes
  · obtain ⟨yes,rfl⟩ := mine
    rcases Option.eq_none_or_eq_some s.sessions[d]? with none | ⟨z,was⟩
    · rw [Runtime.step,none] at known
      cases none.symm.trans known
    · exact .inl ⟨z,yes,was,rfl,step_own_self was known⟩
  refine .inr ⟨fun yes same => mine ⟨yes,same⟩,?_⟩
  -- the same of a session in the middle of the step
  let P : Tables → Nat → ClientSession → Prop := fun _ d y =>
    (∃ yes, e = .own d yes) ∨ (∃ z, s.sessions[d]? = some z ∧ y.doing = z.doing ∧ y.info = z.info ∧
        (y.release.beforeUnregister = true → z.release.beforeUnregister = true)) ∨
      (∃ z next, s.sessions[d]? = some z ∧ z.doing = .reading ∧ y = { z with doing := next } ∧ next.taken = true) ∨
      s.sessions.length ≤ d ∧ y.doing = .reading ∧ y.logged = false
  have start : Each P s := fun d z known => .inr (.inl ⟨z,known,rfl,rfl,id⟩)
  refine (start.step e ?_ ?_ ?_ ?_ ?_ (fun _ _ _ _ => id) d y known).resolve_left mine
  · exact fun c _ new => .inr (.inr (.inr ⟨new,rfl,rfl⟩))
  · rintro c x next known - reading - packet
    refine .inr (.inr (.inl ⟨x,next,known,isReading_given reading,rfl,?_⟩))
    rcases packet with rfl | ⟨_,rfl,-⟩ | ⟨_,rfl,-⟩ <;> rfl
  · intro c x known _ _
    obtain ⟨-,info,doing,-⟩ := x.beginRelease_fields
    exact .inr (.inl ⟨x,known,doing,info,beginRelease_before x⟩)
  · exact fun c x yes here _ _ => ⟨.inl ⟨yes,here⟩,fun _ _ _ => id⟩
  · intro c x _ known _
    obtain ⟨-,info,doing,-⟩ := release_fields cfg s.toTables c x
    exact ⟨.inr (.inl ⟨x,known,doing,info,release_before s.toTables⟩),fun _ _ _ => id⟩

theorem step_bears (rowed : Rowed cfg.unicode s) (e : Event) (known : (step cfg s e).sessions[d]? = some y)
    (bears : y.Bears sid) : (∃ z, s.sessions[d]? = some z ∧ z.Bears sid ∧ y.info.hash = z.info.hash) ∨
      ∃ z, e = .own d true ∧ s.sessions[d]? = some z ∧ z.doing = .connect ∧ y.info = z.info ∧
        sid = s.storage.engine.nextClientID + 1 ∧ (step cfg s e).storage = s.storage.step cfg.unicode (.connect z.info) := by
  obtain ⟨held,before⟩ := bears
  rcases rowed.step_row e known held with ⟨z,was,row,-,hash⟩ | connects
  · refine .inl ⟨z,was,⟨row,?_⟩,hash⟩
    rcases step_session e known with ⟨w,_,same,-,rfl⟩ | ⟨-,⟨w,same,-,-,mono⟩ | ⟨_,_,same,-,rfl,-⟩ | ⟨-,doing,out⟩⟩
    · cases was.symm.trans same
      exact own_before before
    · cases was.symm.trans same
      exact mono before
    · cases was.symm.trans same
      exact before
    · rw [ClientSession.row_of (fun _ no => by rw [doing] at no; cases no),out] at held
      cases held
  · exact .inr connects

theorem step_length (s : Runtime) (e : Event) : s.sessions.length ≤ (step cfg s e).sessions.length := by
  cases e with
  | accept _ =>
    rw [Runtime.step,length_append]
    exact Nat.le_add_right _ _
  | own c yes =>
    rw [Runtime.step]
    cases s.sessions[c]? with
    | none => exact le_rfl
    | some x =>
      rw [Option.elim_some,stepOwn]
      dsimp only
      rw [length_set]
      cases (own cfg s c x yes).ends with
      | none => exact le_rfl
      | some _ => exact Nat.le_of_eq (length_modify ..).symm
  | release c =>
    rw [Runtime.step]
    cases s.sessions[c]? with
    | none => exact le_rfl
    | some _ => exact Nat.le_of_eq (length_set ..).symm
  | sweepCheck i =>
    rw [Runtime.step]
    cases s.online[i]? <;> exact le_rfl
  | sweepDisconnect i =>
    rw [Runtime.step]
    cases s.unheld[i]? <;> exact le_rfl
  | _ =>
    first
    | exact le_rfl
    | exact Nat.le_of_eq (length_modify ..).symm

theorem step_keeps (cfg : RuntimeConfig) (e : Event) (known : s.sessions[d]? = some z) :
    ∃ y, (step cfg s e).sessions[d]? = some y ∧ (y.release.beforeUnregister = true → z.release.beforeUnregister = true) := by
  have bound : d < s.sessions.length := (List.getElem?_eq_some_iff.mp known).1
  have there : d < (step cfg s e).sessions.length := Nat.lt_of_lt_of_le bound (step_length s e)
  refine ⟨_,getElem?_eq_getElem there,fun before => ?_⟩
  rcases step_session e (getElem?_eq_getElem there) with
    ⟨w,yes,same,-,self⟩ | ⟨-,⟨w,same,-,-,mono⟩ | ⟨w,next,same,-,self,-⟩ | new⟩
  · cases known.symm.trans same
    rw [self] at before
    exact own_before before
  · cases known.symm.trans same
    exact mono before
  · cases known.symm.trans same
    rw [self] at before
    exact before
  · omega

theorem step_release_self (known : s.sessions[c]? = some x) (after : (step cfg s (.release c)).sessions[c]? = some y) :
    y = (releaseStep cfg s.toTables c x).1 := by
  rw [Runtime.step,known] at after
  rcases getElem?_set_held known after with ⟨-,self⟩ | ⟨other,-⟩
  · exact self
  · exact absurd rfl other

theorem own_byHash (cfg : RuntimeConfig) (s : Runtime) (c : Nat) (x : ClientSession) (yes : Bool) :
    (own cfg s c x yes).tables.sessionsByHash = s.sessionsByHash ∨
      x.doing = .register ∧ (own cfg s c x yes).tables.sessionsByHash = s.sessionsByHash.insert x.info.hash c := by
  by_cases reads : x.doing.works = false
  · rw [own_decides cfg s c yes reads]
    exact .inl rfl
  · unfold own
    cases doing : x.doing <;> rw [doing] at reads
    case allocate | connect =>
      dsimp only
      split <;> exact .inl rfl
    case beginHandshake => exact .inl (s.beginHandshake_keeps x.info.hash).2.1
    case register =>
      dsimp only [Tables.registerSession]
      split
      · exact .inr ⟨rfl,rfl⟩
      · exact .inl rfl
    case endHandshake => exact .inl (s.endHandshake_keeps x.info.hash).2.1
    case offering info files =>
      dsimp only
      split
      · exact .inl rfl
      · split <;> exact .inl rfl
    all_goals first | exact absurd rfl reads | exact .inl rfl

theorem release_byHash (cfg : RuntimeConfig) (t : Tables) (c : Nat) (x : ClientSession) :
    (releaseStep cfg t c x).2.sessionsByHash = t.sessionsByHash ∨
      ∃ info, x.release = .unregister info ∧ t.sessionsByHash.lookup info.hash = some c ∧
        (releaseStep cfg t c x).2.sessionsByHash = t.sessionsByHash.erase info.hash := by
  unfold releaseStep
  cases x.release with
  | snapshot hadLowID _ info => cases hadLowID <;> exact .inl rfl
  | unregister info =>
    dsimp only [Tables.unregisterSession]
    split
    next here => exact .inr ⟨info,rfl,here.2,rfl⟩
    · exact .inl rfl
  | _ => exact .inl rfl

/-- Only a step that reads, or the one that begins a handshake, leads to where a hash is about to
be freed or taken. -/
theorem own_seeks {hash : Bytes} (seeks : (own cfg s c x yes).self.seeks = some hash) :
    x.doing.works = false ∨ x.doing = .beginHandshake := by
  by_cases reads : x.doing.works = false
  · exact .inl reads
  · unfold own at seeks
    cases doing : x.doing <;> rw [doing] at reads seeks
    case beginHandshake => exact .inr rfl
    case firewall | allocate | connect =>
      dsimp only at seeks
      split at seeks <;> cases seeks
    case offering info files =>
      dsimp only at seeks
      split at seeks
      · rw [ClientSession.seeks,doing] at seeks
        cases seeks
      · cases seeks
    case leaving =>
      dsimp only at seeks
      split at seeks
      · cases seeks
      rw [ClientSession.seeks,x.beginRelease_fields.2.2.1,doing] at seeks
      cases seeks
    all_goals first | exact absurd rfl reads | cases seeks

/-- A goroutine counts its handshake while it is at one. -/
theorem own_handshaking (yes : Bool) (course : Course x) :
    (own cfg s c x yes).tables.handshaking = s.handshaking ∧ (own cfg s c x yes).self.handshake = x.handshake ∨
      (own cfg s c x yes).tables.handshaking = s.handshaking.addTo x.info.hash 1 ∧ x.handshake = none ∧
        (own cfg s c x yes).self.handshake = some x.info.hash ∨
      (own cfg s c x yes).tables.handshaking = s.handshaking.bump x.info.hash (-1) ∧ x.handshake = some x.info.hash ∧
        (own cfg s c x yes).self.handshake = none := by
  have at_ : ∀ {y : ClientSession}, y.doing.handshakes = false → y.handshake = none := fun no => if_neg (by rw [no]; decide)
  have on : ∀ {y : ClientSession}, y.doing.handshakes = true → y.handshake = some y.info.hash := fun yes => if_pos yes
  have quiet : ∀ {y : ClientSession}, x.doing.handshakes = false → y.doing.handshakes = false → y.handshake = x.handshake :=
    fun before after => (at_ after).trans (at_ before).symm
  have hash := fun recorded => course.hash (.inl recorded)
  by_cases reads : x.doing.works = false
  · rw [own_decides cfg s c yes reads]
    refine .inl ⟨rfl,quiet ?_ (decides_walk s c yes reads).handshakes⟩
    cases doing : x.doing <;> first | rfl | (rw [doing] at reads; cases reads)
  · unfold own
    cases doing : x.doing <;> rw [doing] at reads hash quiet
    case firewall | allocate =>
      dsimp only
      split <;> exact .inl ⟨rfl,quiet rfl rfl⟩
    case beginHandshake =>
      refine .inr (.inl ⟨?_,at_ (by rw [doing]; rfl),on rfl⟩)
      dsimp only [Tables.beginHandshake]
      rw [if_pos (hash rfl)]
    case connect =>
      dsimp only
      split <;> exact .inl ⟨rfl,(on rfl).trans (on (by rw [doing]; rfl)).symm⟩
    case logIn storeID => exact .inl ⟨rfl,(on rfl).trans (on (by rw [doing]; rfl)).symm⟩
    case register =>
      refine .inl ⟨?_,(on rfl).trans (on (by rw [doing]; rfl)).symm⟩
      dsimp only [Tables.registerSession]
      split <;> rfl
    case endHandshake =>
      refine .inr (.inr ⟨?_,on (by rw [doing]; rfl),at_ rfl⟩)
      dsimp only [Tables.endHandshake]
      rw [if_pos (hash rfl)]
    case offering info files =>
      dsimp only
      split
      · exact .inl ⟨rfl,rfl⟩
      refine .inl ⟨?_,quiet rfl rfl⟩
      split <;> rfl
    case leaving =>
      refine .inl ⟨rfl,quiet rfl ?_⟩
      dsimp only
      split
      · rfl
      rw [x.beginRelease_fields.2.2.1,doing]
      rfl
    all_goals first | exact absurd rfl reads | exact .inl ⟨rfl,quiet rfl rfl⟩

/-- What an event does to the index by user hash. -/
theorem step_byHash (cfg : RuntimeConfig) (s : Runtime) (e : Event) : (step cfg s e).sessionsByHash = s.sessionsByHash ∨
    (∃ c x yes, e = .own c yes ∧ s.sessions[c]? = some x ∧ x.doing = .register ∧
      (step cfg s e).sessionsByHash = s.sessionsByHash.insert x.info.hash c) ∨
    ∃ c x info, e = .release c ∧ s.sessions[c]? = some x ∧ x.release = .unregister info ∧
      s.sessionsByHash.lookup info.hash = some c ∧ (step cfg s e).sessionsByHash = s.sessionsByHash.erase info.hash := by
  cases e with
  | own c yes =>
    rw [Runtime.step]
    cases known : s.sessions[c]? with
    | none => exact .inl rfl
    | some x =>
      rcases own_byHash cfg s c x yes with same | ⟨doing,inserted⟩
      · exact .inl same
      · exact .inr (.inl ⟨c,x,yes,rfl,known,doing,inserted⟩)
  | release c =>
    rw [Runtime.step]
    cases known : s.sessions[c]? with
    | none => exact .inl rfl
    | some x =>
      rcases release_byHash cfg s.toTables c x with same | ⟨info,release,entry,erased⟩
      · exact .inl same
      · exact .inr (.inr ⟨c,x,info,rfl,known,release,entry,erased⟩)
  | sweepCheck i =>
    rw [Runtime.step]
    cases s.online[i]? <;> exact .inl rfl
  | sweepDisconnect i =>
    rw [Runtime.step]
    cases s.unheld[i]? <;> exact .inl rfl
  | _ => exact .inl rfl

end

end Runtime

end ENode.Ed2k
