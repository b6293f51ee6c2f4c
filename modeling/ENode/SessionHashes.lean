import ENode.SessionSteps

/-! One session for each user hash, and a row for each session. A hash is found free, taken and
indexed in three steps; what a login finds stays so as long as nobody else connects under the
hash while it is about to free it or to connect. -/
namespace ENode.Ed2k

open GoText Storage List

namespace Runtime

section
variable {cfg : RuntimeConfig} {s : Runtime} {c d : Nat} {x y : ClientSession} {sid : Nat}

/-- The index by user hash names the session, or one that no longer gives up its entry. -/
def Registered (s : Runtime) (c : Nat) (hash : Bytes) : Prop :=
  ∃ d y, s.sessionsByHash.lookup hash = some d ∧ s.sessions[d]? = some y ∧ (d = c ∨ y.release.beforeUnregister = false)

/-- A row as a sweep has read it. -/
def Listed (s : Runtime) (info : ClientInfo) : Prop :=
  info.storeID ≠ 0 ∧ info.storeID ≤ s.storage.engine.nextClientID ∧
    ∀ (c : Nat) (x : ClientSession), s.sessions[c]? = some x → x.row = some info.storeID → x.info.hash = info.hash

/-- A row that nobody bears any more. -/
def Orphaned (s : Runtime) (info : ClientInfo) : Prop :=
  info.storeID ≠ 0 ∧ info.storeID ≤ s.storage.engine.nextClientID ∧
    ∀ (c : Nat) (x : ClientSession), s.sessions[c]? = some x → ¬x.Bears info.storeID

/-- Who bears a row holds its hash, and whoever is about to free or to take a hash is alone. -/
structure Hashes (s : Runtime) : Prop where
  remembered : Each (fun _ _ x => x.release.Remembers x) s
  indexed : s.storage.engine.HashIndexed
  named : s.storage.engine.NamesConnected
  present : ∀ (c : Nat) (x : ClientSession) sid, s.sessions[c]? = some x → x.Bears sid →
    s.storage.engine.infoOf sid ≠ none
  held : ∀ (c : Nat) (x : ClientSession) sid, s.sessions[c]? = some x → x.Bears sid →
    (∃ storeID, x.doing = .logIn storeID) ∨ x.doing = .register ∨ s.Registered c x.info.hash
  tallies : s.handshaking.Tallies (s.sessions.filterMap ClientSession.handshake)
  free : ∀ (c : Nat) (x : ClientSession), s.sessions[c]? = some x → x.doing = .beginHandshake ∨ x.doing = .connect →
    s.storage.engine.clientsByHash.lookup x.info.hash = none
  orphan : ∀ (c : Nat) (x : ClientSession) req, s.sessions[c]? = some x → x.doing = .freeOrphan req →
    ∀ (d : Nat) (y : ClientSession) sid, s.sessions[d]? = some y → y.Bears sid → y.info.hash ≠ req.hash
  online : ∀ info ∈ s.online, s.Listed info
  unheld : ∀ info ∈ s.unheld, s.Orphaned info

namespace Hashes

variable (rowed : Rowed cfg.unicode s) (hashes : Hashes s)
include rowed hashes

theorem found (known : s.sessions[c]? = some x) (bears : x.Bears sid) :
    x.info.hash.length = hashLen ∧ s.storage.engine.clientsByHash.lookup x.info.hash = some sid ∧
      ∃ info, s.storage.engine.infoOf sid = some info ∧ info.hash = x.info.hash := by
  have course := rowed.course c x known
  have whole : x.info.hash.length = hashLen := by
    have row := bears.1
    cases logged : x.logged with
    | true => exact course.hash (.inr logged)
    | false =>
      refine course.hash (.inl ?_)
      unfold ClientSession.row at row
      split at row
      next storeID doing => rw [doing]; rfl
      · rw [logged] at row; cases row
  obtain ⟨info,here⟩ := Option.ne_none_iff_exists'.mp (hashes.present c x sid known bears)
  obtain ⟨-,-,tells⟩ := rowed.rows c x known sid bears.1
  obtain ⟨-,hash⟩ := tells info here
  refine ⟨whole,?_,info,here,hash⟩
  rw [← hash]
  refine hashes.indexed sid info here ?_
  rw [hash,whole]
  decide

theorem only (known : s.sessions[c]? = some x) (known' : s.sessions[d]? = some y) (bears : x.Bears sid)
    (bears' : y.Bears sid') (same : x.info.hash = y.info.hash) : c = d := by
  obtain ⟨-,first,-⟩ := hashes.found rowed known bears
  obtain ⟨-,second,-⟩ := hashes.found rowed known' bears'
  rw [same,second] at first
  cases first
  exact rowed.apart c d x y sid known known' bears.1 bears'.1

theorem locally (known : s.sessions[c]? = some x) (bears : x.Bears sid) : s.hashHeldLocally x.info.hash = true := by
  have whole := (hashes.found rowed known bears).1
  unfold Tables.hashHeldLocally
  rw [decide_eq_true whole,Bool.true_and,Bool.or_eq_true,decide_eq_true_eq]
  have shaking : x.doing.handshakes = true → 0 < s.handshaking.tally x.info.hash := by
    intro on
    rw [hashes.tallies]
    have member : x.info.hash ∈ s.sessions.filterMap ClientSession.handshake := by
      refine mem_filterMap.mpr ⟨x,mem_of_getElem? known,?_⟩
      unfold ClientSession.handshake
      rw [if_pos on]
    exact Int.natCast_pos.mpr (count_pos_iff.mpr member)
  rcases hashes.held c x sid known bears with ⟨_,doing⟩ | doing | ⟨_,_,entry,-⟩
  · exact .inr (shaking (by rw [doing]; rfl))
  · exact .inr (shaking (by rw [doing]; rfl))
  · exact .inl (by rw [entry]; rfl)

end Hashes

theorem isConnected_lookup {t : Tables} {hash : Bytes} (whole : hash.length = hashLen) (free : t.isConnected hash = false) :
    t.storage.engine.clientsByHash.lookup hash = none := by
  have long : 0 < hash.length := by rw [whole]; decide
  rw [Tables.isConnected,MemoryEngine.isConnected,if_pos long] at free
  exact Option.isSome_eq_false_iff.mp free |> Option.isNone_iff_eq_none.mp

/-- Nobody else is about to free a hash, or to connect under it, when a session connects. -/
def ConnectsAlone (s : Runtime) : Event → Prop
  | .own c true => ∀ x, s.sessions[c]? = some x → x.doing = .connect →
    ∀ (d : Nat) (y : ClientSession), d ≠ c → s.sessions[d]? = some y → y.seeks ≠ some x.info.hash
  | _ => True

namespace Hashes

variable (rowed : Rowed cfg.unicode s) (hashes : Hashes s)
include rowed hashes

variable (e : Event)

theorem step_remembered : Each (fun _ _ x => x.release.Remembers x) (Runtime.step cfg s e) := by
  have begun : ∀ x : ClientSession, x.release.Remembers x → x.beginRelease.release.Remembers x.beginRelease := by
    intro x remembers
    unfold ClientSession.beginRelease
    split
    · trivial
    · exact remembers
  refine hashes.remembered.step e (fun c _ _ => trivial) ?_ (fun c x _ _ => begun x) ?_ ?_ (fun _ _ _ _ => id)
  · intro c x _ _ remembers _ _ _
    exact Release.Remembers.mono remembers (fun logged => ⟨logged,rfl⟩)
  · intro c x yes _ known remembers
    refine ⟨?_,fun _ _ _ => id⟩
    rcases own_release cfg s c x yes with same | same
    · rw [same]
      exact Release.Remembers.mono remembers (own_logged (rowed.course c x known))
    · rw [same]
      exact begun x remembers
  · exact fun _ _ _ _ remembers => ⟨release_remembers s.toTables remembers,fun _ _ _ => id⟩

/-- The index of the storage names every row, and rows only. -/
theorem step_index : (Runtime.step cfg s e).storage.engine.HashIndexed ∧
    (Runtime.step cfg s e).storage.engine.NamesConnected := by
  rcases step_storage cfg s e with same | ⟨op,performs,done⟩
  · rw [same]
    exact ⟨hashes.indexed,hashes.named⟩
  · rw [done]
    have own : s.storage.OwnHash op := by
      rcases performs with ⟨c,x,_,-,known,asks⟩ | ⟨c,x,info,-,-,-,rfl⟩ | _
      · cases op with
        | connect _ =>
          obtain ⟨doing,-,rfl⟩ := asks
          have free := hashes.free c x known (.inr doing)
          refine .inr (fun sid other here same => ?_)
          have whole := (rowed.course c x known).hash (.inl (by rw [doing]; rfl))
          have entry := hashes.indexed sid other here (by rw [same,whole]; decide)
          rw [same,free] at entry
          cases entry
        | importHandoff _ => exact asks
        | _ => trivial
      · trivial
      · cases op <;> trivial
    exact ⟨System.step_indexed s.storage rowed.sound rowed.contents op own hashes.indexed,
      System.step_named s.storage rowed.sound rowed.contents rowed.owned op (rowed.performs_honest performs) hashes.named⟩

/-- Nobody takes away the row of a session that bears it. -/
theorem step_present (known : (Runtime.step cfg s e).sessions[d]? = some y) (bears : y.Bears sid) :
    (Runtime.step cfg s e).storage.engine.infoOf sid ≠ none := by
  rcases step_bears rowed e known bears with ⟨z,was,before,hash⟩ | ⟨z,-,-,-,-,rfl,storage⟩
  · obtain ⟨some,given,-⟩ := rowed.rows d z was sid before.1
    obtain ⟨-,-,_,here,found⟩ := hashes.found rowed was before
    rcases step_storage cfg s e with same | ⟨_,performs,done⟩
    · rw [same,here]
      exact Option.some_ne_none _
    · rw [done,System.step_row s.storage rowed.sound rowed.contents performs.interleaved given here (fun info' op_ => ?_)]
      · exact Option.some_ne_none _
      subst op_
      intro meant
      rcases performs with ⟨c,x,_,-,at_,req,doing,rfl⟩ | ⟨c,x,_,-,at_,release,same⟩ | swept
      · -- a login frees the hash of an orphan
        have long : 0 < req.hash.1.length := by rw [req.hash.2]; decide
        have entry : s.storage.engine.clientsByHash.lookup req.hash.1 = Option.some sid := by
          rw [MemoryEngine.storeIDOf,if_pos rfl,MemoryEngine.resolveStoreIDLocked,if_pos long] at meant
          cases held : s.storage.engine.clientsByHash.lookup req.hash.1 with
          | none =>
            rw [held] at meant
            exact absurd meant.symm some
          | some other =>
            rw [held] at meant
            exact congrArg Option.some meant
        obtain ⟨-,_,there,same⟩ := hashes.named _ sid entry
        rw [here] at there
        cases there
        exact hashes.orphan c x req at_ doing d z sid was before (found.symm.trans same)
      · -- a release takes its own row
        cases same
        have remembers : x.release.Remembers x := hashes.remembered c x at_
        rw [release] at remembers
        obtain ⟨logged,rfl⟩ := remembers
        have row := (rowed.course c x at_).row logged
        rw [MemoryEngine.storeIDOf,if_neg (rowed.rows c x at_ _ row).1] at meant
        obtain rfl := rowed.apart c d x z sid at_ was (meant ▸ row) before.1
        cases at_.symm.trans was
        have late := before.2
        rw [release] at late
        cases late
      · -- a sweep takes rows that nobody holds
        obtain ⟨number,-,nobody⟩ := hashes.unheld info' swept
        rw [MemoryEngine.storeIDOf,if_neg number] at meant
        subst meant
        exact nobody d z was before
  · rw [storage,System.step,(s.storage.engine.connect_lookup z.info).1,if_pos rfl]
    exact Option.some_ne_none _

/-- The entry of a hash whose row is borne is not taken out. -/
theorem step_registered (known : (Runtime.step cfg s e).sessions[c]? = some y) (was : s.sessions[c]? = some z)
    (bears : z.Bears sid) (still : y.release.beforeUnregister = true) (registered : s.Registered c z.info.hash) :
    (Runtime.step cfg s e).Registered c z.info.hash := by
  obtain ⟨d,_,entry,there,done⟩ := registered
  -- where the entry stays
  have kept : (Runtime.step cfg s e).sessionsByHash.lookup z.info.hash = some d →
      (Runtime.step cfg s e).Registered c z.info.hash := by
    intro entry
    obtain ⟨w',after,mono⟩ := step_keeps cfg e there
    refine ⟨d,w',entry,after,done.imp_right (fun past => ?_)⟩
    exact Bool.eq_false_iff.mpr (fun before => Bool.false_ne_true (past.symm.trans (mono before)))
  rcases step_byHash cfg s e with same | ⟨b,x,yes,rfl,at_,doing,inserted⟩ | ⟨b,x,_,rfl,at_,release,own,erased⟩
  · exact kept (same ▸ entry)
  · by_cases here : z.info.hash = x.info.hash
    · -- another session registers under the hash only when its release is past that
      obtain ⟨x',after,mono⟩ := step_keeps cfg (.own b yes) at_
      refine ⟨b,x',?_,after,?_⟩
      · rw [inserted,here,GoMap.lookup_insert_ite,if_pos rfl]
      · by_cases mine : b = c
        · exact .inl mine
        · refine .inr (Bool.eq_false_iff.mpr (fun before => mine ?_))
          have logged := (rowed.course b x at_).register doing
          exact hashes.only rowed at_ was ⟨(rowed.course b x at_).row logged,mono before⟩ bears here.symm
    · refine kept ?_
      rw [inserted,GoMap.lookup_insert_ite,if_neg here]
      exact entry
  · refine kept ?_
    rw [erased,GoMap.lookup_erase_ite,if_neg]
    · exact entry
    · intro here
      rw [here,own] at entry
      cases entry
      rcases done with rfl | past
      · rw [step_release_self at_ known,releaseStep,release] at still
        cases still
      · cases at_.symm.trans there
        rw [release] at past
        cases past

theorem step_held (known : (Runtime.step cfg s e).sessions[c]? = some y) (bears : y.Bears sid) :
    (∃ storeID, y.doing = .logIn storeID) ∨ y.doing = .register ∨ (Runtime.step cfg s e).Registered c y.info.hash := by
  rcases step_bears rowed e known bears with ⟨z,was,before,hash⟩ | ⟨z,rfl,was,doing,-⟩
  · have registered : s.Registered c z.info.hash → (Runtime.step cfg s e).Registered c y.info.hash :=
      fun held => hash ▸ hashes.step_registered rowed e known was before bears.2 held
    rcases step_session e known with ⟨w,yes,same,rfl,self⟩ | ⟨-,⟨w,same,doing,-⟩ | ⟨_,_,same,reading,rfl,-⟩ | ⟨_,-⟩⟩
    · cases was.symm.trans same
      rcases hashes.held c z sid was before with ⟨storeID,doing⟩ | doing | held
      · refine .inr (.inl ?_)
        rw [self,Runtime.own,doing]
      · refine .inr (.inr ⟨c,y,?_,known,.inl rfl⟩)
        have whole := (rowed.course c z was).hash (.inl (by rw [doing]; rfl))
        have inserted : (Runtime.own cfg s c z yes).tables.sessionsByHash = s.sessionsByHash.insert z.info.hash c := by
          rw [Runtime.own,doing]
          dsimp only [Tables.registerSession]
          rw [if_pos whole]
        rw [hash,Runtime.step,was]
        refine (congrArg _ inserted).trans ?_
        exact (GoMap.lookup_insert_ite ..).trans (if_pos rfl)
      · exact .inr (.inr (registered held))
    · cases was.symm.trans same
      rw [doing]
      exact (hashes.held c z sid was before).imp_right (Or.imp_right registered)
    · cases was.symm.trans same
      rcases hashes.held c z sid was before with ⟨_,doing⟩ | doing | held
      · rw [reading] at doing
        cases doing
      · rw [reading] at doing
        cases doing
      · exact .inr (.inr (registered held))
    · have bound := (List.getElem?_eq_some_iff.mp was).1
      omega
  · have self := step_own_self was known
    rw [Runtime.own,doing] at self
    exact .inl ⟨_,congrArg ClientSession.doing self⟩

omit hashes in
theorem step_entry (hash : Bytes) (free : s.storage.engine.clientsByHash.lookup hash = none) :
    (Runtime.step cfg s e).storage.engine.clientsByHash.lookup hash = none ∨
      ∃ b x, e = .own b true ∧ s.sessions[b]? = some x ∧ x.doing = .connect ∧ x.info.hash = hash := by
  rcases step_storage cfg s e with same | ⟨_,performs,done⟩
  · rw [same]
    exact .inl free
  · rw [done]
    rcases System.step_byHash s.storage rowed.sound rowed.contents performs.interleaved hash with kept | ⟨_,rfl,here⟩
    · exact .inl (kept free)
    · rcases performs with ⟨b,x,_,own,at_,asks⟩ | ⟨b,x,_,-,-,-,no⟩ | upkeep
      · obtain ⟨doing,rfl,rfl⟩ := asks
        exact .inr ⟨b,x,own,at_,doing,here⟩
      · cases no
      · cases upkeep

theorem step_free (alone : ConnectsAlone s e) (known : (Runtime.step cfg s e).sessions[c]? = some y)
    (doing : y.doing = .beginHandshake ∨ y.doing = .connect) :
    (Runtime.step cfg s e).storage.engine.clientsByHash.lookup y.info.hash = none := by
  have seeks : ∀ z : ClientSession, z.doing = .beginHandshake ∨ z.doing = .connect → z.seeks = some z.info.hash := by
    intro z here
    unfold ClientSession.seeks
    rcases here with here | here <;> rw [here]
  rcases step_session e known with ⟨z,yes,was,rfl,self⟩ | ⟨other,⟨z,was,same,info,-⟩ | ⟨z,_,was,-,rfl,taken⟩ | ⟨-,reading,-⟩⟩
  · have course := rowed.course c z was
    rw [Runtime.step,was]
    change (Runtime.own cfg s c z yes).tables.storage.engine.clientsByHash.lookup y.info.hash = none
    rcases own_seeks (self ▸ seeks y doing) with reads | begins
    · -- it has just been found free
      have walk := decides_walk s c yes reads
      rw [own_decides cfg s c yes reads] at self ⊢
      subst self
      have begins : (s.decides c z yes z.doing).1 = .beginHandshake := by
        rcases doing with here | here
        · exact here
        · dsimp only at here
          have entered := walk.works
          rw [here] at entered
          cases entered rfl
      have whole := course.hash (.inl (walk.recorded (by rw [begins]; rfl)))
      exact isConnected_lookup whole (walk.free begins whole)
    · rw [Runtime.own,begins] at self ⊢
      subst self
      exact (congrArg (fun t : System => t.engine.clientsByHash.lookup z.info.hash) (s.beginHandshake_keeps z.info.hash).2.2).trans
        (hashes.free c z was (.inl begins))
  · rw [same] at doing
    rw [info]
    rcases step_entry rowed e z.info.hash (hashes.free c z was doing) with none | ⟨b,x,rfl,at_,connects,hash⟩
    · exact none
    · refine absurd (seeks z doing) (hash ▸ alone x at_ connects c z (fun same => ?_) was)
      exact other true (by rw [same])
  · rcases doing with rfl | rfl <;> cases taken
  · rw [reading] at doing
    rcases doing with no | no <;> cases no

theorem step_orphan (alone : ConnectsAlone s e)
    (known : (Runtime.step cfg s e).sessions[c]? = some x) (doing : x.doing = .freeOrphan req)
    (known' : (Runtime.step cfg s e).sessions[d]? = some y) (bears : y.Bears sid) : y.info.hash ≠ req.hash := by
  have seeks : ∀ z : ClientSession, z.doing = .freeOrphan req → z.seeks = some req.hash.1 := by
    intro z here
    rw [ClientSession.seeks,here]
  have there : ∃ z, s.sessions[c]? = some z ∧ (z.doing = .freeOrphan req ∧ (∀ yes, e ≠ .own c yes) ∨
      s.hashHeldLocally req.hash.1 = false ∧ ∀ b, (∃ yes, e = .own b yes) → b = c) := by
    rcases step_session e known with ⟨z,yes,was,rfl,self⟩ | ⟨other,⟨z,was,same,-⟩ | ⟨z,_,was,-,rfl,taken⟩ | ⟨-,reading,-⟩⟩
    · refine ⟨z,was,.inr ⟨?_,fun _ own => by obtain ⟨yes,same⟩ := own; cases same; rfl⟩⟩
      rcases own_seeks (self ▸ seeks x doing) with reads | begins
      · have walk := decides_walk s c yes reads
        rw [own_decides cfg s c yes reads] at self
        subst self
        exact walk.orphan req doing
      · rw [Runtime.own,begins] at self
        subst self
        cases doing
    · exact ⟨z,was,.inl ⟨same ▸ doing,other⟩⟩
    · dsimp only at doing
      rw [doing] at taken
      cases taken
    · rw [reading] at doing
      cases doing
  obtain ⟨z,was,here⟩ := there
  rcases step_bears rowed e known' bears with ⟨w,before,borne,hash⟩ | ⟨w,rfl,before,connects,info,-⟩
  · rw [hash]
    rcases here with ⟨here,-⟩ | ⟨free,-⟩
    · exact hashes.orphan c z req was here d w sid before borne
    · intro same
      rw [← same,hashes.locally rowed before borne] at free
      cases free
  · rw [info]
    intro same
    rcases here with ⟨here,other⟩ | ⟨-,mine⟩
    · refine alone w before connects c z (fun this => ?_) was (same ▸ seeks z here)
      exact other true (by rw [this])
    · obtain rfl := mine d ⟨true,rfl⟩
      cases known.symm.trans known'
      have self := step_own_self before known
      rw [Runtime.own,connects] at self
      rw [self] at doing
      cases doing

omit hashes in
theorem step_listed (listed : s.Listed info) : (Runtime.step cfg s e).Listed info := by
  obtain ⟨some,given,same⟩ := listed
  refine ⟨some,Nat.le_trans given (rowed.step_later e).next,fun c _ known row => ?_⟩
  rcases rowed.step_row e known row with ⟨z,was,before,-,hash⟩ | ⟨z,-,-,-,-,_,-⟩
  · exact hash.trans (same c z was before)
  · omega

omit hashes in
theorem step_orphaned (orphaned : s.Orphaned info) : (Runtime.step cfg s e).Orphaned info := by
  obtain ⟨some,given,nobody⟩ := orphaned
  refine ⟨some,Nat.le_trans given (rowed.step_later e).next,fun c _ known bears => ?_⟩
  rcases step_bears rowed e known bears with ⟨z,was,before,-⟩ | ⟨z,-,-,-,-,_,-⟩
  · exact nobody c z was before
  · omega

/-- The rows a sweep has read were read as they are, and those it has found unheld are orphans. -/
theorem step_sweeps : (∀ info ∈ (Runtime.step cfg s e).online, (Runtime.step cfg s e).Listed info) ∧
    ∀ info ∈ (Runtime.step cfg s e).unheld, (Runtime.step cfg s e).Orphaned info := by
  have online : ∀ info ∈ s.online, (Runtime.step cfg s e).Listed info :=
    fun info member => step_listed rowed e (hashes.online info member)
  have unheld : ∀ info ∈ s.unheld, (Runtime.step cfg s e).Orphaned info :=
    fun info member => step_orphaned rowed e (hashes.unheld info member)
  cases e with
  | own c _ | release c =>
    rw [Runtime.step] at online unheld ⊢
    rcases Option.eq_none_or_eq_some s.sessions[c]? with none | ⟨x,known⟩
    · rw [none] at online unheld ⊢
      exact ⟨online,unheld⟩
    · rw [known] at online unheld ⊢
      exact ⟨online,unheld⟩
  | releaseOrphans =>
    refine ⟨fun info member => ?_,unheld⟩
    rcases mem_append.mp member with old | new
    · exact online info old
    · obtain ⟨⟨sid,client⟩,entry,rfl⟩ := mem_map.mp new
      have connected : s.storage.engine.clients.lookup sid = some client := (GoMap.mem_pairs ..).mp entry
      obtain ⟨some,given,number,-⟩ := rowed.owned.keyed sid client connected
      refine ⟨number ▸ some,number ▸ given,fun c x known row => ?_⟩
      rw [number] at row
      refine ((rowed.rows c x known sid row).2.2 client.info ?_).2.symm
      rw [MemoryEngine.infoOf,connected]
      rfl
  | sweepCheck i =>
    rw [Runtime.step] at online unheld ⊢
    cases found : s.online[i]? with
    | none =>
      rw [found] at online unheld
      exact ⟨online,unheld⟩
    | some row =>
      rw [found] at online unheld
      refine ⟨fun info member => online info (mem_of_mem_eraseIdx member),fun info member => ?_⟩
      rw [Option.elim_some] at member
      dsimp only at member
      split at member
      · exact unheld info member
      next free =>
        rcases mem_cons.mp member with rfl | old
        · obtain ⟨some,given,hash⟩ := hashes.online info (mem_of_getElem? found)
          refine ⟨some,given,fun c x known bears => free ?_⟩
          rw [← hash c x known bears.1]
          exact hashes.locally rowed known bears
        · exact unheld info old
  | sweepDisconnect i =>
    rw [Runtime.step] at online unheld ⊢
    cases found : s.unheld[i]? with
    | none =>
      rw [found] at online unheld
      exact ⟨online,unheld⟩
    | some _ =>
      rw [found] at online unheld
      exact ⟨online,fun info member => unheld info (mem_of_mem_eraseIdx member)⟩
  | _ => exact ⟨online,unheld⟩

/-- The handshakes are counted. -/
theorem step_tallies :
    (Runtime.step cfg s e).handshaking.Tallies ((Runtime.step cfg s e).sessions.filterMap ClientSession.handshake) := by
  have tallies := hashes.tallies
  have same : ∀ {x y : ClientSession}, y.doing = x.doing → y.info = x.info → y.handshake = x.handshake := by
    intro x _ doing info
    rw [ClientSession.handshake,ClientSession.handshake,doing,info]
  have begun : ∀ x : ClientSession, x.beginRelease.handshake = x.handshake := by
    intro x
    obtain ⟨-,info,doing,-⟩ := x.beginRelease_fields
    exact same doing info
  have modified : ∀ (c : Nat) (f : ClientSession → ClientSession), (∀ x, (f x).handshake = x.handshake) →
      s.handshaking.Tallies ((s.sessions.modify c f).filterMap ClientSession.handshake) := by
    intro c _ kept
    rw [filterMap_modify (fun a _ => kept a)]
    exact tallies
  -- a packet is taken in outside a handshake
  have packet : ∀ (x : ClientSession) (next : Doing), x.isReading = true → next.handshakes = false →
      ({ x with doing := next } : ClientSession).handshake = x.handshake := by
    intro x next reading quiet
    rw [ClientSession.handshake,ClientSession.handshake,isReading_given reading,quiet]
    rfl
  cases e with
  | accept _ =>
    rw [Runtime.step,filterMap_append]
    exact (append_nil _).symm ▸ tallies
  | login c _ =>
    refine modified c _ (fun x => ?_)
    unfold beginLogin
    split
    next taken => exact packet x _ (Bool.and_eq_true_iff.mp taken).1 rfl
    · rfl
  | offer c _ =>
    refine modified c _ (fun x => ?_)
    unfold beginOffer
    split
    next taken => exact packet x _ (Bool.and_eq_true_iff.mp taken).1 rfl
    · rfl
  | hangUp c =>
    refine modified c _ (fun x => ?_)
    unfold beginLeaving
    split
    next taken => exact packet x _ taken rfl
    · rfl
  | drop c => exact modified c _ begun
  | own c yes =>
    rw [Runtime.step]
    cases known : s.sessions[c]? with
    | none => exact tallies
    | some x =>
      -- the session that this one ends keeps its handshake
      obtain ⟨base,w,there,kept,counted,sessions⟩ : ∃ (base : List ClientSession) (w : ClientSession), base[c]? = some w ∧
          w.handshake = x.handshake ∧ s.handshaking.Tallies (base.filterMap ClientSession.handshake) ∧
          (stepOwn cfg s c x yes).sessions = base.set c (Runtime.own cfg s c x yes).self := by
        cases ends : (Runtime.own cfg s c x yes).ends with
        | none => exact ⟨s.sessions,x,known,rfl,tallies,by rw [stepOwn,ends]; rfl⟩
        | some old =>
          refine ⟨s.sessions.modify old ClientSession.beginRelease,if old = c then x.beginRelease else x,?_,?_,
            modified old _ begun,by rw [stepOwn,ends]; rfl⟩
          · rw [getElem?_modify,known]
            rfl
          · split
            · exact begun x
            · rfl
      obtain ⟨before,after⟩ := filterMap_set ClientSession.handshake (Runtime.own cfg s c x yes).self there
      rw [kept] at before
      rw [Option.elim_some,sessions]
      change (Runtime.own cfg s c x yes).tables.handshaking.Tallies _
      have counted := counted.perm before
      rcases own_handshaking yes (rowed.course c x known) with ⟨table,mine⟩ | ⟨table,out,mine⟩ | ⟨table,out,mine⟩
      · rw [table]
        rw [mine] at after
        exact counted.perm after.symm
      · rw [table]
        rw [mine] at after
        rw [out] at counted
        exact counted.addTo_one.perm after.symm
      · rw [table]
        rw [mine] at after
        rw [out] at counted
        exact counted.bump_back.perm after.symm
  | release c =>
    rw [Runtime.step]
    cases known : s.sessions[c]? with
    | none => exact tallies
    | some x =>
      obtain ⟨-,info,doing,-⟩ := release_fields cfg s.toTables c x
      have kept := same doing info
      obtain ⟨before,after⟩ := filterMap_set ClientSession.handshake (releaseStep cfg s.toTables c x).1 known
      have handshaking : (stepRelease cfg s c x).handshaking = s.handshaking := release_handshaking cfg s.toTables c x
      rw [Option.elim_some,handshaking]
      rw [kept] at after
      exact tallies.perm (before.trans after.symm)
  | sweepCheck i =>
    rw [Runtime.step]
    cases s.online[i]? <;> exact tallies
  | sweepDisconnect i =>
    rw [Runtime.step]
    cases s.unheld[i]? <;> exact tallies
  | _ => exact tallies

theorem step (alone : ConnectsAlone s e) : Hashes (step cfg s e) where
  remembered := hashes.step_remembered rowed e
  indexed := (hashes.step_index rowed e).1
  named := (hashes.step_index rowed e).2
  present _ _ _ known bears := hashes.step_present rowed e known bears
  held _ _ _ known bears := hashes.step_held rowed e known bears
  tallies := hashes.step_tallies rowed e
  free _ _ known doing := hashes.step_free rowed e alone known doing
  orphan _ _ _ known doing _ _ _ known' bears := hashes.step_orphan rowed e alone known doing known' bears
  online := (hashes.step_sweeps rowed e).1
  unheld := (hashes.step_sweeps rowed e).2

end Hashes

theorem start_hashes (lowIDs : LowIDClients Nat) : Hashes { lowIDs := lowIDs } where
  remembered c x no := by cases no
  indexed sid info no := by cases no
  named hash sid no := by cases no
  present c x sid no := by cases no
  held c x sid no := by cases no
  tallies := fun _ => rfl
  free c x no := by cases no
  orphan c x req no := by cases no
  online info no := by cases no
  unheld info no := by cases no

theorem run_hashes (alone : Along cfg ConnectsAlone { lowIDs := lowIDs } events) :
    Rowed cfg.unicode (run cfg { lowIDs := lowIDs } events) ∧ Hashes (run cfg { lowIDs := lowIDs } events) :=
  alone.run (motive := fun s => Rowed cfg.unicode s ∧ Hashes s) ⟨start_rowed cfg.unicode lowIDs,start_hashes lowIDs⟩
    (fun _ e alone inv => ⟨inv.1.step e,inv.2.step inv.1 e alone⟩)

/-- In every run in which nobody connects while another login is about to free or to take the
same hash, at most one session that is logged in and not released has a user hash. -/
theorem one_session_per_hash (cfg : RuntimeConfig) (allowLowIDs : Bool) (min max : Nat) (events : List Event)
    (alone : Along cfg ConnectsAlone { lowIDs := newLowIDClients allowLowIDs min max } events) :
    let s := run cfg { lowIDs := newLowIDClients allowLowIDs min max } events
    ∀ (c d : Nat) (x y : ClientSession), s.sessions[c]? = some x → s.sessions[d]? = some y →
      x.logged = true → y.logged = true → x.released = false → y.released = false → x.info.hash = y.info.hash → c = d := by
  intro s c d x y known known' logged logged' kept kept' same
  obtain ⟨rowed,hashes⟩ := run_hashes alone
  have bears : ∀ (c : Nat) (x : ClientSession), s.sessions[c]? = some x → x.logged = true → x.released = false →
      x.Bears x.info.storeID := by
    intro c x known logged kept
    have course := rowed.course c x known
    refine ⟨course.row logged,?_⟩
    have marked := course.released.symm.trans kept
    revert marked
    cases x.release <;> first | exact fun _ => rfl | (intro no; cases no)
  exact hashes.only rowed known known' (bears c x known logged kept) (bears d y known' logged' kept') same

/-- In every run in which nobody connects while another login is about to free or to take the
same hash, a session has its row from the time `Connect` returns until its release begins. -/
theorem session_keeps_row (cfg : RuntimeConfig) (allowLowIDs : Bool) (min max : Nat) (events : List Event)
    (alone : Along cfg ConnectsAlone { lowIDs := newLowIDClients allowLowIDs min max } events) :
    let s := run cfg { lowIDs := newLowIDClients allowLowIDs min max } events
    ∀ (c : Nat) (x : ClientSession) sid, s.sessions[c]? = some x → x.row = some sid → x.isIdle = true →
      s.storage.engine.infoOf sid ≠ none := by
  intro _ c x sid known row idle
  obtain ⟨_,hashes⟩ := run_hashes alone
  refine hashes.present c x sid known ⟨row,?_⟩
  unfold ClientSession.isIdle at idle
  split at idle
  next release => rw [release]; rfl
  · cases idle

end

/-- No other session is about to free or to take any hash. -/
def nobodySeeks (s : Runtime) : Event → Bool
  | .own c _ => s.sessions.zipIdx.all (fun other => other.2 == c || other.1.seeks.isNone)
  | _ => true

theorem nobodySeeks_alone (s : Runtime) (e : Event) (nobody : s.nobodySeeks e = true) : ConnectsAlone s e := by
  unfold ConnectsAlone
  split
  next c =>
    intro _ _ _ d y other known seeks
    have member : (y,d) ∈ s.sessions.zipIdx := mem_zipIdx_iff_getElem?.mpr known
    have quiet := all_eq_true.mp nobody (y,d) member
    rw [seeks,Bool.or_eq_true,beq_iff_eq] at quiet
    rcases quiet with same | no
    · exact other same
    · cases no
  · trivial

/-- A second login under the hash of a session that is logged in is refused. -/
def refused : List Event :=
  Event.accept none :: Event.login 0 { hash := userHash 1, id := 7, port := 4662 } ::
    (replicate 12 (Event.own 0 true) ++ Event.accept none ::
      Event.login 1 { hash := userHash 1, id := 8, port := 4663 } :: replicate 7 (Event.own 1 true))

theorem refused_alone : Along plainConfig ConnectsAlone { lowIDs := newLowIDClients true 1 9 } refused :=
  Along.of_checks nobodySeeks nobodySeeks_alone (by decide +kernel)

theorem one_session_per_hash_refused :
    let s := run plainConfig { lowIDs := newLowIDClients true 1 9 } refused
    (s.sessions[0]?).map (fun x => (x.logged,x.released,x.info.hash)) = some (true,false,(userHash 1).1) ∧
      ∀ (d : Nat) (y : ClientSession), s.sessions[d]? = some y → y.logged = true → y.released = false →
        y.info.hash = (userHash 1).1 → d = 0 := by
  have first : ((run plainConfig { lowIDs := newLowIDClients true 1 9 } refused).sessions[0]?).map
      (fun x => (x.logged,x.released,x.info.hash)) = some (true,false,(userHash 1).1) := by decide +kernel
  obtain ⟨x,known,same⟩ := Option.map_eq_some_iff.mp first
  obtain ⟨logged,kept,hash⟩ : x.logged = true ∧ x.released = false ∧ x.info.hash = (userHash 1).1 := by
    simpa only [Prod.mk.injEq] using same
  intro _
  exact ⟨first,fun d y known' logged' kept' hash' => one_session_per_hash plainConfig true 1 9 refused refused_alone d 0 y x
    known' known logged' logged kept' kept (hash'.trans hash.symm)⟩

theorem session_keeps_row_refused :
    let s := run plainConfig { lowIDs := newLowIDClients true 1 9 } refused
    (s.sessions[0]?).map (fun x => (x.row,x.isIdle)) = some (some 1,true) ∧ s.storage.engine.infoOf 1 ≠ none := by
  have first : ((run plainConfig { lowIDs := newLowIDClients true 1 9 } refused).sessions[0]?).map
      (fun x => (x.row,x.isIdle)) = some (some 1,true) := by decide +kernel
  obtain ⟨x,known,same⟩ := Option.map_eq_some_iff.mp first
  obtain ⟨row,idle⟩ : x.row = some 1 ∧ x.isIdle = true := by simpa only [Prod.mk.injEq] using same
  intro _
  exact ⟨first,session_keeps_row plainConfig true 1 9 refused refused_alone 0 x 1 known row idle⟩

/-- Two logins under one hash find it free before either has connected. -/
def overlapping : List Event :=
  Event.accept none :: Event.accept none :: Event.login 0 { hash := userHash 1, id := 7, port := 4662 } ::
    Event.login 1 { hash := userHash 1, id := 8, port := 4663 } ::
    (replicate 8 (Event.own 0 true) ++ (replicate 12 (Event.own 1 true) ++ replicate 4 (Event.own 0 true)))

theorem two_sessions_per_hash :
    let s := run plainConfig { lowIDs := newLowIDClients true 1 9 } overlapping
    (s.sessions[0]?).any (fun x => x.logged && !x.released && x.info.hash == (userHash 1).1) = true ∧
      (s.sessions[1]?).any (fun x => x.logged && !x.released && x.info.hash == (userHash 1).1) = true := by
  decide +kernel

/-- A login that has found a row orphaned frees the hash only after another session has
connected under it. -/
def freedLate : List Event :=
  Event.accept none :: Event.login 0 { hash := userHash 1, id := 7, port := 4662 } ::
    (replicate 12 (Event.own 0 true) ++ Event.hangUp 0 :: Event.own 0 true :: (replicate 5 (Event.release 0) ++
      Event.accept none :: Event.login 1 { hash := userHash 1, id := 8, port := 4663 } ::
      (replicate 6 (Event.own 1 true) ++ (replicate 2 (Event.release 0) ++
        Event.accept none :: Event.login 2 { hash := userHash 1, id := 9, port := 4664 } ::
        (replicate 12 (Event.own 2 true) ++ [Event.own 1 true])))))

theorem session_loses_row :
    let s := run plainConfig { lowIDs := newLowIDClients true 1 9 } freedLate
    (s.sessions[2]?).any (fun x => x.logged && x.isIdle && x.row == some 2) = true ∧
      s.storage.engine.infoOf 2 = none := by
  decide +kernel

end Runtime

end ENode.Ed2k
