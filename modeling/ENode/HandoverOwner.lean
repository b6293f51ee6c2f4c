import ENode.HandoverProtocol

/-! Who owns the sessions during a handover. The successor starts only on a commit frame, and
only a predecessor that has let go has written one, provided that nothing is written after a
part of a frame. -/
namespace ENode.Handover

open GoText ByteNumbers Frames List

variable {F : Type}

theorem maxFrame_small : maxFrame < 256 ^ 4 := by decide

def Handing.Released : Handing F → Prop
  | .release | .returned => True
  | _ => False

def Handing.Failed : Handing F → Prop
  | .failed => True
  | _ => False

/-- The predecessor has given up, and writes at most its abort. -/
def Handing.GaveUp : Handing F → Prop
  | .abort _ cut _ => cut = true
  | .kill _ | .resume | .failed => True
  | _ => False

/-- The predecessor has not stopped serving. -/
def Handing.Before : Handing F → Prop
  | .awaitReady | .quiesce => True
  | .abort _ _ quiesced => quiesced = false
  | .kill quiesced => quiesced = false
  | _ => False

/-- The reason it gives up for, after a part of a frame. -/
def Handing.cutShort : Handing F → Option Bytes
  | .abort cause true _ => some cause
  | _ => none

/-- The predecessor is under way: it has neither let go nor given up. -/
structure Handing.Working (h : Handing F) : Prop where
  held : ¬h.Released
  going : ¬h.GaveUp
  unfailed : ¬h.Failed

def TakingOver.Committed : TakingOver F → Prop
  | .start _ | .started _ => True
  | _ => False

namespace Pair

/-- Whole frames, a commit among them only from a predecessor that has let go. -/
structure Written (s : Pair F) (frames : List Frame) (rest : Bytes) : Prop where
  stream : s.toSuccessor = frames.flatMap Frame.encode ++ rest
  fits : ∀ f ∈ frames, f.payload.length ≤ maxFrame
  commit : ∀ f ∈ frames, f.kind = msgCommit → s.predecessor.Released
  torn : Torn maxFrame rest
  cut : rest ≠ [] → s.predecessor.GaveUp

structure OneOwner (s : Pair F) : Prop where
  written : ∃ frames torn, s.Written frames torn
  committed : s.successor.Committed → s.predecessor.Released
  resumed : s.resumed = true → s.predecessor.Failed
  failed : s.predecessor.Failed → s.stopped = true → s.resumed = true
  before : s.predecessor.Before → s.stopped = false

theorem start_oneOwner : (({} : Pair F)).OneOwner :=
  ⟨⟨[],[],rfl,by simp,by simp,torn_nil,(absurd rfl ·)⟩,False.elim,Bool.noConfusion,False.elim,fun _ => rfl⟩

theorem send_cases (o : Outcome) (kind : UInt8) (payload stream : Bytes) :
    (∃ f : Frame, f.kind = kind ∧ f.payload.length ≤ maxFrame ∧ send o kind payload stream = (stream ++ f.encode,none)) ∨
      ∃ rest err, Torn maxFrame rest ∧ send o kind payload stream = (stream ++ rest,some err) := by
  unfold send
  split
  · exact .inr ⟨[],_,torn_nil,by rw [append_nil]⟩
  next fits =>
    have small : payload.length ≤ maxFrame := Nat.le_of_not_lt fits
    cases o with
    | ok => exact .inl ⟨⟨kind,payload⟩,rfl,small,rfl⟩
    | fails _ delivered =>
      refine .inr ⟨_,_,⟨⟨kind,payload⟩,small,min delivered ((⟨kind,payload⟩ : Frame).encode.length - 1),?_,rfl⟩,rfl⟩
      rw [encode_length]
      omega

theorem expect_payload (read : expect o want stream = .payload bytes rest) :
    receive maxFrame stream = .frame ⟨want,bytes⟩ rest := by
  unfold expect at read
  split at read
  · cases read
  split at read
  · cases read
  · cases read
  next f rest' received =>
    split at read
    next kind =>
      obtain ⟨rfl,rfl⟩ := Expected.payload.inj read
      rw [received,← kind]
    · split at read <;> cases read

variable {s s' : Pair F}

theorem OneOwner.moved (own : s.OneOwner) (held : ¬s.predecessor.Released) (going : ¬s.predecessor.Failed)
    (stream : s'.toSuccessor = s.toSuccessor) (successor : s'.successor = s.successor) (resumed : s'.resumed = s.resumed)
    (gaveUp : s.predecessor.GaveUp → s'.predecessor.GaveUp) (goes : ¬s'.predecessor.Failed)
    (before : s'.predecessor.Before → s'.stopped = false) : s'.OneOwner := by
  obtain ⟨frames,rest,written⟩ := own.written
  refine ⟨⟨frames,rest,?_⟩,?_,?_,(absurd · goes),before⟩
  · exact ⟨stream.trans written.stream,written.fits,fun f member kind => absurd (written.commit f member kind) held,
      written.torn,fun cut => gaveUp (written.cut cut)⟩
  · rw [successor]
    exact fun committed => absurd (own.committed committed) held
  · rw [resumed]
    exact fun again => absurd (own.resumed again) going

theorem OneOwner.on (own : s.OneOwner) (here : s.predecessor = h) (works : h.Working)
    (stream : s'.toSuccessor = s.toSuccessor) (successor : s'.successor = s.successor) (resumed : s'.resumed = s.resumed)
    (goes : ¬s'.predecessor.Failed) (before : s'.predecessor.Before → s'.stopped = false) : s'.OneOwner := by
  subst here
  exact own.moved works.held works.unfailed stream successor resumed (absurd · works.going) goes before

theorem OneOwner.whole (own : s.OneOwner) (going : ¬s.predecessor.GaveUp) : ∃ frames, s.Written frames [] := by
  obtain ⟨frames,rest,written⟩ := own.written
  have whole : rest = [] := by
    by_contra cut
    exact going (written.cut cut)
  exact ⟨frames,whole ▸ written⟩

/-- What is under way after a write. -/
theorem Written.send {t : Pair F} (written : s.Written frames []) (held : ¬s.predecessor.Released) (o : Outcome)
    (kind : UInt8) (payload : Bytes) (stream : t.toSuccessor = (send o kind payload s.toSuccessor).1)
    (sent : (send o kind payload s.toSuccessor).2 = none → kind = msgCommit → t.predecessor.Released)
    (cut : (send o kind payload s.toSuccessor).2 ≠ none → s.toSuccessor.length < t.toSuccessor.length →
      t.predecessor.GaveUp) : ∃ frames rest, t.Written frames rest := by
  have before := written.stream
  rcases send_cases o kind payload s.toSuccessor with ⟨f,is,fits,whole⟩ | ⟨part,_,torn,failed⟩
  · rw [whole] at stream sent
    refine ⟨frames ++ [f],[],by simp [stream,before],?_,?_,torn_nil,(absurd rfl ·)⟩
    · simpa [or_imp,forall_and] using ⟨written.fits,fits⟩
    · intro g member committed
      rcases mem_append.mp member with earlier | now
      · exact absurd (written.commit g earlier committed) held
      · rw [mem_singleton.mp now,is] at committed
        exact sent rfl committed
  · rw [failed] at stream cut
    refine ⟨frames,part,by simp [stream,before],written.fits,
      fun g member committed => absurd (written.commit g member committed) held,torn,fun longer => cut (by simp) ?_⟩
    have := length_pos_iff.mpr longer
    rw [stream,length_append]
    omega

theorem OneOwner.sendOn (own : s.OneOwner) (here : s.predecessor = h) (works : h.Working) (o : Outcome)
    (kind : UInt8) (payload why : Bytes) {next : Handing F} (goes : ¬next.Failed) (commit : kind = msgCommit → next.Released)
    (stopped : ¬next.Before) : (s.sendOn o kind payload why next).OneOwner := by
  subst here
  obtain ⟨_,written⟩ := own.whole works.going
  have uncommitted : ¬s.successor.Committed := fun committed => works.held (own.committed committed)
  have unresumed : ¬s.resumed = true := fun again => works.unfailed (own.resumed again)
  have write := fun s' : Pair F => written.send (t := s') works.held o kind payload
  unfold Pair.sendOn
  generalize send o kind payload s.toSuccessor = result at write
  obtain ⟨_,_ | _⟩ := result
  · exact ⟨write _ rfl (fun _ => commit) (absurd rfl ·),(absurd · uncommitted),(absurd · unresumed),(absurd · goes),
      (absurd · stopped)⟩
  · exact ⟨write _ rfl nofun fun _ longer => decide_eq_true longer,(absurd · uncommitted),(absurd · unresumed),
      False.elim,Bool.noConfusion⟩

theorem Written.received (written : s.Written frames rest) (received : receive maxFrame s.toSuccessor = .frame f remains) :
    ∃ later, frames = f :: later ∧ remains = later.flatMap Frame.encode ++ rest := by
  rw [written.stream] at received
  cases frames with
  | nil => rw [flatMap_nil,nil_append,receive_torn maxFrame_small written.torn] at received; cases received
  | cons g later =>
    rw [flatMap_cons,append_assoc,receive_encode maxFrame_small (written.fits g (.head _))] at received
    obtain ⟨rfl,rfl⟩ := Received.frame.inj received
    exact ⟨later,rfl,rfl⟩

/-- The successor moves on, with the stream as it was or without its first frame. -/
theorem OneOwner.took (own : s.OneOwner)
    (same : (s'.predecessor,s'.stopped,s'.resumed) = (s.predecessor,s.stopped,s.resumed))
    (stream : s'.toSuccessor = s.toSuccessor ∨ ∃ f, receive maxFrame s.toSuccessor = .frame f s'.toSuccessor)
    (committed : s'.successor.Committed → s.predecessor.Released) : s'.OneOwner := by
  obtain ⟨predecessor,stopped,resumed⟩ : _ ∧ _ ∧ _ := by simpa using same
  refine ⟨?_,by rwa [predecessor],by rw [predecessor,resumed]; exact own.resumed,
    by rw [predecessor,stopped,resumed]; exact own.failed,by rw [predecessor,stopped]; exact own.before⟩
  obtain ⟨frames,rest,written⟩ := own.written
  rcases stream with same | ⟨f,received⟩
  · exact ⟨frames,rest,same.trans written.stream,written.fits,by rw [predecessor]; exact written.commit,written.torn,
      by rw [predecessor]; exact written.cut⟩
  · obtain ⟨later,rfl,remaining⟩ := written.received received
    exact ⟨later,rest,remaining,fun f member => written.fits f (.tail _ member),
      by rw [predecessor]; exact fun f member => written.commit f (.tail _ member),written.torn,
      by rw [predecessor]; exact written.cut⟩

theorem OneOwner.commit_read (own : s.OneOwner)
    (received : receive maxFrame s.toSuccessor = .frame ⟨msgCommit,bytes⟩ rest) : s.predecessor.Released := by
  obtain ⟨_,_,written⟩ := own.written
  obtain ⟨_,rfl,-⟩ := written.received received
  exact written.commit _ (.head _) rfl

variable (setting : Setting F)

theorem takeover_oneOwner (own : s.OneOwner) (o : Outcome) : (s.takeover setting o).OneOwner := by
  unfold takeover
  split
  · split <;> exact own.took rfl (.inl rfl) False.elim
  · split
    · exact own
    · exact own.took rfl (.inl rfl) False.elim
    next read =>
      have received := expect_payload read
      split <;> exact own.took rfl (.inr ⟨_,received⟩) False.elim
  · split
    · exact own.took rfl (.inl rfl) False.elim
    split
    · exact own
    · exact own.took rfl (.inl rfl) False.elim
    next received =>
      split
      · exact own.took rfl (.inr ⟨_,received⟩) False.elim
      split
      · exact own.took rfl (.inr ⟨_,received⟩) False.elim
      · split <;> exact own.took rfl (.inr ⟨_,received⟩) False.elim
  · split
    · split
      · exact own
      · exact own.took rfl (.inl rfl) False.elim
      next read => exact own.took rfl (.inr ⟨_,expect_payload read⟩) False.elim
    · exact own.took rfl (.inl rfl) False.elim
  · split
    · split
      · exact own.took rfl (.inl rfl) False.elim
      · exact own
      · split <;> exact own.took rfl (.inl rfl) False.elim
    · exact own.took rfl (.inl rfl) False.elim
  · split
    · exact own.took rfl (.inl rfl) False.elim
    · split <;> exact own.took rfl (.inl rfl) False.elim
  · split <;> exact own.took rfl (.inl rfl) False.elim
  · split
    · exact own
    · exact own.took rfl (.inl rfl) False.elim
    next read =>
      have received := expect_payload read
      exact own.took rfl (.inr ⟨_,received⟩) fun _ => own.commit_read received
  next successor =>
    have committed : s.successor.Committed := by rw [successor]; trivial
    exact own.took rfl (.inl rfl) fun _ => own.committed committed
  · exact own.took rfl (.inl rfl) False.elim
  · exact own
  · exact own

theorem OneOwner.back (own : s.OneOwner) (held : ¬s.predecessor.Released) (stream : s'.toSuccessor = s.toSuccessor)
    (successor : s'.successor = s.successor) (failed : s'.predecessor = .failed)
    (serves : s'.stopped = true → s'.resumed = true) : s'.OneOwner := by
  obtain ⟨frames,rest,written⟩ := own.written
  refine ⟨⟨frames,rest,?_⟩,?_,fun _ => by rw [failed]; trivial,fun _ => serves,?_⟩
  · exact ⟨stream.trans written.stream,written.fits,fun f member kind => absurd (written.commit f member kind) held,
      written.torn,fun _ => by rw [failed]; trivial⟩
  · rw [successor]
    exact fun committed => absurd (own.committed committed) held
  · rw [failed]
    exact False.elim

/-- What the predecessor writes after a part of a frame does not get through. -/
def Unmixed (s : Pair F) : Event → Prop
  | .predecessor o => ∀ cause, s.predecessor.cutShort = some cause → (send o msgAbort cause s.toSuccessor).1 = s.toSuccessor
  | _ => True

theorem OneOwner.abort (own : s.OneOwner) (aborts : s.predecessor = .abort cause cut quiesced)
    (o : Outcome) (unmixed : s.Unmixed (.predecessor o)) :
    ({ s with toSuccessor := (send o msgAbort cause s.toSuccessor).1, predecessor := .kill quiesced } : Pair F).OneOwner := by
  have held : ¬s.predecessor.Released := by rw [aborts]; exact id
  have going : ¬s.predecessor.Failed := by rw [aborts]; exact id
  have before : quiesced = false → s.stopped = false := fun no => own.before (by rw [aborts]; exact no)
  cases cut with
  | true => exact own.moved held going (unmixed cause (by rw [aborts]; rfl)) rfl rfl (fun _ => trivial) id before
  | false =>
    obtain ⟨_,written⟩ := own.whole (by rw [aborts]; exact Bool.false_ne_true)
    exact ⟨written.send held o msgAbort cause rfl (fun _ commit => absurd commit (by decide)) fun _ _ => trivial,
      fun committed => absurd (own.committed committed) held,fun again => absurd (own.resumed again) going,False.elim,before⟩

theorem handover_oneOwner (own : s.OneOwner) (o : Outcome) (unmixed : s.Unmixed (.predecessor o)) :
    (s.handover setting o).OneOwner := by
  have before := own.before
  unfold handover
  split
  next here =>
    have works : s.predecessor.Working := by rw [here]; exact ⟨id,id,id⟩
    have still : s.stopped = false := before (by rw [here]; trivial)
    split
    · exact own
    · exact own.moved works.held works.unfailed rfl rfl rfl (fun _ => trivial) id fun _ => still
    split
    · exact own.moved works.held works.unfailed rfl rfl rfl (fun _ => trivial) id fun _ => still
    · split <;> exact own.on here ⟨id,id,id⟩ rfl rfl rfl id fun _ => still
  next here =>
    split <;> exact own.on here ⟨id,id,id⟩ rfl rfl rfl id nofun
  next here =>
    split <;> exact own.on here ⟨id,id,id⟩ rfl rfl rfl id nofun
  next here => exact own.sendOn here ⟨id,id,id⟩ o _ _ _ id (absurd · (by decide)) id
  next here =>
    split <;> exact own.on here ⟨id,id,id⟩ rfl rfl rfl id nofun
  next here => exact own.sendOn here ⟨id,id,id⟩ o _ _ _ id (absurd · (by decide)) id
  next here => exact own.sendOn here ⟨id,id,id⟩ o _ _ _ id (absurd · (by decide)) id
  next here => exact own.on here ⟨id,id,id⟩ rfl rfl rfl id False.elim
  next here => exact own.sendOn here ⟨id,id,id⟩ o _ _ _ id (absurd · (by decide)) id
  next here => exact own.on here ⟨id,id,id⟩ rfl rfl rfl id False.elim
  next here =>
    split <;> exact own.on here ⟨id,id,id⟩ rfl rfl rfl id nofun
  next here =>
    split
    · exact own
    all_goals exact own.on here ⟨id,id,id⟩ rfl rfl rfl id nofun
  next here => exact own.sendOn here ⟨id,id,id⟩ o _ _ _ id (fun _ => trivial) id
  next here =>
    -- it has let go, and stays so
    obtain ⟨frames,rest,written⟩ := own.written
    have whole : rest = [] := by
      by_contra cut
      have gaveUp := written.cut cut
      rw [here] at gaveUp
      exact gaveUp
    refine ⟨⟨frames,rest,written.stream,written.fits,fun _ _ _ => trivial,written.torn,(absurd whole ·)⟩,
      fun _ => trivial,fun again => ?_,False.elim,False.elim⟩
    have failed := own.resumed again
    rw [here] at failed
    exact failed
  next here => exact own.abort here o unmixed
  next quiesced here =>
    have held : ¬s.predecessor.Released := by rw [here]; exact id
    cases quiesced with
    | true => exact own.moved held (by rw [here]; exact id) rfl rfl rfl (fun _ => trivial) id False.elim
    | false =>
      have still : s.stopped = false := before (by rw [here]; rfl)
      exact own.back held rfl rfl rfl fun stopped => absurd (still.symm.trans stopped) Bool.false_ne_true
  next here => exact own.back (by rw [here]; exact id) rfl rfl rfl fun _ => rfl
  · exact own
  · exact own

theorem restoreSome_oneOwner (own : s.OneOwner) (kept : List Bool) : (s.restoreSome kept).OneOwner := by
  unfold restoreSome
  split
  · split
    · exact own.took rfl (.inl rfl) False.elim
    · exact own
  · exact own

theorem step_oneOwner (own : s.OneOwner) (e : Event) (unmixed : s.Unmixed e) : (s.step setting e).OneOwner := by
  cases e with
  | predecessor o =>
    rw [step]
    split
    · exact own
    · exact handover_oneOwner setting own o unmixed
  | successor o =>
    rw [step]
    split
    · exact own
    · exact takeover_oneOwner setting own o
  | drops kept =>
    rw [step]
    split
    · exact own
    · exact restoreSome_oneOwner own kept
  | predecessorDies | successorDies => exact own.took rfl (.inl rfl) own.committed

def UnmixedAlong (setting : Setting F) (s : Pair F) : List Event → Prop
  | [] => True
  | e :: rest => s.Unmixed e ∧ UnmixedAlong setting (s.step setting e) rest

instance decidableUnmixed (s : Pair F) : (e : Event) → Decidable (s.Unmixed e)
  | .predecessor o =>
    match cut : s.predecessor.cutShort with
    | none => isTrue fun _ some => by rw [cut] at some; cases some
    | some cause => decidable_of_iff ((send o msgAbort cause s.toSuccessor).1 = s.toSuccessor)
        ⟨fun same cause' some => by rw [cut] at some; cases some; exact same,fun unmixed => unmixed cause cut⟩
  | .successor _ | .drops _ | .predecessorDies | .successorDies => isTrue trivial

instance decidableUnmixedAlong (setting : Setting F) (s : Pair F) : (events : List Event) → Decidable (s.UnmixedAlong setting events)
  | [] => isTrue trivial
  | e :: rest =>
    have := decidableUnmixedAlong setting (s.step setting e) rest
    inferInstanceAs (Decidable (s.Unmixed e ∧ UnmixedAlong setting (s.step setting e) rest))

theorem run_oneOwner (events : List Event) (own : s.OneOwner)
    (unmixed : s.UnmixedAlong setting events) : (events.foldl (step setting) s).OneOwner := by
  induction events generalizing s with
  | nil => exact own
  | cons e _ ih => exact ih (step_oneOwner setting own e unmixed.1) unmixed.2

theorem OneOwner.started (own : s.OneOwner) (serves : s.serves = some restored) :
    s.resumed = false ∧ s.handoverFailed = false := by
  have committed : s.successor.Committed := by
    unfold Pair.serves at serves
    split at serves
    next here => rw [here]; trivial
    · cases serves
  have released := own.committed committed
  constructor
  · by_contra again
    have failed := own.resumed (Bool.not_eq_false _ ▸ again)
    cases here : s.predecessor <;> rw [here] at released failed <;> first | exact released | exact failed
  · cases here : s.predecessor <;> rw [here] at released <;> first | exact released.elim | simp [handoverFailed,here]

theorem OneOwner.failed_serving (own : s.OneOwner) (failed : s.handoverFailed = true) : s.serving = true := by
  have here : s.predecessor.Failed := by
    unfold handoverFailed at failed
    split at failed
    next here => rw [here]; trivial
    · cases failed
  cases stopped : s.stopped with
  | false => simp [serving,stopped]
  | true => simp [serving,own.failed here stopped]

/-- One session, a commit that fails after four of its five bytes, and the abort after it. -/
def tornCommit : List Event := [
  Event.successor .ok,Event.predecessor .ok,Event.predecessor .ok,Event.predecessor .ok,Event.predecessor .ok,
  Event.predecessor .ok,Event.predecessor .ok,Event.predecessor .ok,Event.predecessor .ok,Event.predecessor .ok,
  Event.predecessor .ok,Event.successor .ok,Event.successor .ok,Event.successor .ok,Event.successor .ok,
  Event.successor .ok,Event.successor .ok,Event.successor .ok,Event.successor .ok,Event.predecessor .ok,
  Event.predecessor (.fails [] 4),Event.predecessor .ok,Event.successor .ok,Event.successor .ok,
  Event.predecessor .ok,Event.predecessor .ok]

def oneSession : Setting Nat := ⟨protocolVersion,[⟨[1,2],some 9⟩],[]⟩

/-- The predecessor is back on its sessions, and the successor has started them. -/
theorem two_owners : (run oneSession tornCommit).resumed = true ∧ (run oneSession tornCommit).handoverFailed = true ∧
    (run oneSession tornCommit).serves = some [([1,2],9)] := by
  decide +kernel

end Pair

end ENode.Handover
