import ENode.HandoverOwner

/-! A handover in which nothing fails. What each process has yet to read is what is under way
to it and what the other has yet to write, so each finds the frame it waits for, and the
successor ends up with the exported sessions. -/
namespace ENode.Handover

open GoText ByteNumbers Frames List

variable {F : Type}

/-- The sessions handed out, each with its own state and socket. -/
def exported (clients : List (Parked F)) : List (Bytes × F) := clients.filterMap fun c => c.socket.map fun f => (c.state,f)

theorem exportSessions_eq (clients : List (Parked F)) :
    exportSessions clients = ((exported clients).map Prod.fst,(exported clients).map Prod.snd) := by
  induction clients using reverseRecOn with
  | nil => rfl
  | append_singleton _ c ih =>
    rw [exportSessions] at ih ⊢
    rw [foldl_append,ih,foldl_cons,foldl_nil]
    cases socket : c.socket <;> simp [exported,socket]

theorem dataChunks_small (p : Bytes) : ∀ chunk ∈ dataChunks p, chunk.length ≤ maxFrame := by
  fun_induction dataChunks p with
  | case1 => simp
  | case2 _ _ ih =>
    intro chunk member
    rcases mem_cons.mp member with rfl | later
    · rw [length_take]
      exact (Nat.min_le_left ..).trans (by decide)
    · exact ih chunk later

namespace Setting

variable (setting : Setting F)

def chunks : List Bytes := setting.storage.flatMap dataChunks

def states : List Bytes := (exported setting.parked).map Prod.fst

def sockets : List F := (exported setting.parked).map Prod.snd

/-- What no write fails of: the processes speak one protocol, and counts and states fit their frames. -/
structure Fits : Prop where
  version : setting.version = protocolVersion
  count : setting.states.length < 2 ^ 32
  states : ∀ state ∈ setting.states, state.length ≤ maxFrame

/-- What a handover takes: the chunks, the states and the sockets. -/
def work : Nat := setting.chunks.length + 2 * setting.states.length

end Setting

def readyFrame : Frame := ⟨msgReady,word32 protocolVersion⟩
def importedFrame : Frame := ⟨msgImported,[]⟩
def commitFrame : Frame := ⟨msgCommit,[]⟩

def sessionFrames (states : List Bytes) : List Frame := states.map (Frame.mk msgSession) ++ [commitFrame]

def storageFrames (chunks states : List Bytes) : List Frame :=
  chunks.map (Frame.mk msgData) ++ ⟨msgDataEnd,[]⟩ :: sessionFrames states

theorem storageFrames_length (chunks states : List Bytes) :
    (storageFrames chunks states).length = chunks.length + states.length + 2 := by
  simp [storageFrames,sessionFrames]
  omega

def Setting.script (setting : Setting F) : List Frame :=
  ⟨msgBegin,word32 setting.states.length⟩ :: storageFrames setting.chunks setting.states

/-- What the predecessor has yet to write. -/
inductive Writes (setting : Setting F) : Handing F → List Frame → List F → Prop where
  | awaitReady : Writes setting .awaitReady setting.script setting.sockets
  | quiesce : Writes setting .quiesce setting.script setting.sockets
  | collect : Writes setting .collect setting.script setting.sockets
  | begin : Writes setting (.begin setting.states setting.sockets) setting.script setting.sockets
  | storage (chunks : List Bytes) :
      Writes setting (.storage chunks setting.states setting.sockets) (storageFrames chunks setting.states) setting.sockets
  | endData : Writes setting (.endData setting.states setting.sockets) (⟨msgDataEnd,[]⟩ :: sessionFrames setting.states)
      setting.sockets
  | sessions (left : List Bytes) : Writes setting (.sessions left setting.sockets) (sessionFrames left) setting.sockets
  | files (left : List F) : Writes setting (.files left) [commitFrame] left
  | awaitImported : Writes setting .awaitImported [commitFrame] []
  | commit : Writes setting .commit [commitFrame] []
  | release : Writes setting .release [] []
  | returned : Writes setting .returned [] []

/-- What the successor has yet to read. -/
inductive Reads (setting : Setting F) : TakingOver F → List Frame → List F → Prop where
  | announce : Reads setting .announce setting.script setting.sockets
  | awaitBegin : Reads setting .awaitBegin setting.script setting.sockets
  | importing (data more : List Bytes) (all : setting.chunks = data ++ more) :
      Reads setting (.importing setting.states.length data) (storageFrames more setting.states) setting.sockets
  | sessions (states left : List Bytes) (all : setting.states = states ++ left) :
      Reads setting (.sessions setting.states.length states) (sessionFrames left) setting.sockets
  | files (got left : List F) (all : setting.sockets = got ++ left) :
      Reads setting (.files setting.states.length setting.states got) [commitFrame] left
  | restore : Reads setting (.restore setting.states setting.sockets) [commitFrame] []
  | imported : Reads setting (.imported (exported setting.parked)) [commitFrame] []
  | awaitCommit : Reads setting (.awaitCommit (exported setting.parked)) [commitFrame] []
  | start : Reads setting (.start (exported setting.parked)) [] []
  | started : Reads setting (.started (exported setting.parked)) [] []

/-- What the predecessor has yet to be told. -/
def Handing.awaits : Handing F → List Frame
  | .awaitReady => [readyFrame,importedFrame]
  | .commit | .release | .returned => []
  | _ => [importedFrame]

/-- What the successor has yet to say. -/
def TakingOver.answers : TakingOver F → List Frame
  | .announce => [readyFrame,importedFrame]
  | .awaitCommit _ | .start _ | .started _ => []
  | _ => [importedFrame]

def Handing.work (setting : Setting F) : Handing F → Nat
  | .awaitReady => setting.work + 11
  | .quiesce => setting.work + 10
  | .collect => setting.work + 9
  | .begin _ _ => setting.work + 8
  | .storage chunks states sockets => chunks.length + states.length + sockets.length + 7
  | .endData states sockets => states.length + sockets.length + 6
  | .sessions left sockets => left.length + sockets.length + 5
  | .files left => left.length + 4
  | .awaitImported => 3
  | .commit => 2
  | .release => 1
  | _ => 0

def TakingOver.work (setting : Setting F) : TakingOver F → Nat
  | .announce => setting.work + 9
  | .awaitBegin => setting.work + 8
  | .importing _ data => setting.work - data.length + 7
  | .sessions _ states => 2 * setting.states.length - states.length + 6
  | .files _ _ got => setting.states.length - got.length + 5
  | .restore _ _ => 4
  | .imported _ => 3
  | .awaitCommit _ => 2
  | .start _ => 1
  | _ => 0

/-- The operations the two processes have before them. -/
def Pair.work (setting : Setting F) (s : Pair F) : Nat := s.predecessor.work setting + s.successor.work setting

/-- Nothing has failed: what has yet to be read is under way or has yet to be written. -/
structure Smooth (setting : Setting F) (s : Pair F) (under replies writes reads : List Frame) (sends takes : List F) : Prop where
  writing : Writes setting s.predecessor writes sends
  reading : Reads setting s.successor reads takes
  stream : s.toSuccessor = under.flatMap Frame.encode
  frames : reads = under ++ writes
  small : ∀ f ∈ reads, f.payload.length ≤ maxFrame
  back : s.toPredecessor = replies.flatMap Frame.encode
  told : s.predecessor.awaits = replies ++ s.successor.answers
  sockets : takes = s.descriptors.flatMap Prod.snd ++ sends
  batches : ∀ d ∈ s.descriptors, d.1 = d.2.length ∧ d.2 ≠ []
  alive : s.predecessorDead = false ∧ s.successorDead = false

theorem send_ok {payload : Bytes} (small : payload.length ≤ maxFrame) (kind : UInt8) (stream : Bytes) :
    send .ok kind payload stream = (stream ++ (⟨kind,payload⟩ : Frame).encode,none) := by
  rw [send,if_neg (Nat.not_lt.mpr small)]

theorem expect_nil (want : UInt8) : expect .ok want [] = .waits := rfl

variable {f : Frame}

theorem expect_encode (small : f.payload.length ≤ maxFrame) (rest : Bytes) :
    expect .ok f.kind (f.encode ++ rest) = .payload f.payload rest := by
  rw [expect,receive_encode maxFrame_small small]
  exact if_pos rfl

section

variable {setting : Setting F} {s : Pair F} {under replies writes reads : List Frame} {sends takes : List F}

theorem Pair.sendOn_ok {payload : Bytes} (small : payload.length ≤ maxFrame) (s : Pair F) (kind : UInt8) (why : Bytes)
    (next : Handing F) : s.sendOn .ok kind payload why next =
      { s with toSuccessor := s.toSuccessor ++ (⟨kind,payload⟩ : Frame).encode, predecessor := next } := by
  rw [Pair.sendOn,send_ok small]

/-- Some lists of what is under way and to be done make it smooth. -/
def GoesOn (setting : Setting F) (s : Pair F) : Prop :=
  ∃ under replies writes reads sends takes, Smooth setting s under replies writes reads sends takes

/-- It stays smooth and less is left to do. -/
structure Advances (setting : Setting F) (s s' : Pair F) : Prop where
  goesOn : GoesOn setting s'
  less : s'.work setting < s.work setting

theorem Advances.predecessor (goesOn : GoesOn setting s') (same : s'.successor = s.successor)
    (less : s'.predecessor.work setting < s.predecessor.work setting) : Advances setting s s' := by
  refine ⟨goesOn,?_⟩
  rw [Pair.work,Pair.work,same]
  exact Nat.add_lt_add_right less _

theorem Advances.successor (goesOn : GoesOn setting s') (same : s'.predecessor = s.predecessor)
    (less : s'.successor.work setting < s.successor.work setting) : Advances setting s s' := by
  refine ⟨goesOn,?_⟩
  rw [Pair.work,Pair.work,same]
  exact Nat.add_lt_add_left less _

variable {h next : Handing F}

theorem Smooth.wrote (smooth : Smooth setting s under replies (f :: writes) reads sends takes) (here : s.predecessor = h)
    (why : Bytes) (then_ : Writes setting next writes sends) (awaits : next.awaits = h.awaits)
    (less : next.work setting < h.work setting) : Advances setting s (s.sendOn .ok f.kind f.payload why next) := by
  subst here
  have small : f.payload.length ≤ maxFrame := smooth.small f (by rw [smooth.frames]; simp)
  rw [Pair.sendOn_ok small]
  refine .predecessor ?_ rfl less
  exact ⟨under ++ [f],_,_,_,_,_,{ smooth with
    writing := then_, stream := by simp [smooth.stream], frames := by simp [smooth.frames]
    told := awaits.trans smooth.told }⟩

section
variable (smooth : Smooth setting s under replies writes reads sends takes)
include smooth

theorem Smooth.moved (here : s.predecessor = h) (then_ : Writes setting next writes sends)
    (awaits : next.awaits = h.awaits) (less : next.work setting < h.work setting) (stopped : Bool) :
    Advances setting s { s with stopped := stopped, predecessor := next } := by
  subst here
  exact .predecessor ⟨_,_,_,_,_,_,{ smooth with writing := then_, told := awaits.trans smooth.told }⟩ rfl less

theorem Smooth.replied (here : s.predecessor = h) (awaits : h.awaits = f :: rest)
    (small : f.payload.length ≤ maxFrame) : replies = [] ∧ expect .ok f.kind s.toPredecessor = .waits ∨
      ∃ later, replies = f :: later ∧ rest = later ++ s.successor.answers ∧
        expect .ok f.kind s.toPredecessor = .payload f.payload (later.flatMap Frame.encode) := by
  have told := smooth.told
  rw [here,awaits] at told
  cases replied : replies with
  | nil =>
    rw [smooth.back,replied]
    exact .inl ⟨rfl,expect_nil f.kind⟩
  | cons _ later =>
    rw [replied,cons_append] at told
    obtain ⟨rfl,remaining⟩ := cons.inj told
    rw [smooth.back,replied]
    exact .inr ⟨later,rfl,remaining,expect_encode small _⟩

theorem Smooth.heard (here : s.predecessor = h) (then_ : Writes setting next writes sends)
    (awaits : next.awaits = later ++ s.successor.answers) (less : next.work setting < h.work setting) :
    Advances setting s { s with toPredecessor := later.flatMap Frame.encode, predecessor := next } := by
  subst here
  exact .predecessor ⟨_,_,_,_,_,_,{ smooth with writing := then_, back := rfl, told := awaits }⟩ rfl less

end

/-- The predecessor can do nothing but wait, or it is done. -/
def Handing.Rests (h : Handing F) (replies : List Frame) : Prop :=
  replies = [] ∧ (h = .awaitReady ∨ h = .awaitImported) ∨ h = .returned

theorem handover_smooth (smooth : Smooth setting s under replies writes reads sends takes) :
    Advances setting s (s.handover setting .ok) ∨ s.handover setting .ok = s ∧ s.predecessor.Rests replies := by
  have writing := smooth.writing
  have count : setting.sockets.length = setting.states.length := by simp [Setting.sockets,Setting.states]
  generalize here : s.predecessor = h at writing
  unfold Pair.handover
  rw [here]
  cases writing with
  | awaitReady =>
    rcases smooth.replied (f := readyFrame) here rfl (by decide) with ⟨none,waits⟩ | ⟨later,-,remaining,read⟩
    · have waits : expect .ok msgReady s.toPredecessor = .waits := waits
      simp only [waits]
      exact .inr ⟨trivial,.inl ⟨none,.inl rfl⟩⟩
    · have read : expect .ok msgReady s.toPredecessor = .payload (word32 protocolVersion) (later.flatMap Frame.encode) := read
      simp only [read]
      exact .inl (smooth.heard here .quiesce remaining (by simp [Handing.work]))
  | quiesce => exact .inl (smooth.moved here .collect rfl (by simp [Handing.work]) true)
  | collect =>
    rw [exportSessions_eq]
    exact .inl (smooth.moved here .begin rfl (by simp [Handing.work]) _)
  | begin =>
    refine .inl (smooth.wrote here [] (.storage _) rfl ?_)
    simp only [Handing.work,Setting.work,Setting.chunks]
    omega
  | storage chunks =>
    cases chunks with
    | nil => exact .inl (smooth.moved here .endData rfl (by simp [Handing.work]) _)
    | cons _ _ => exact .inl (smooth.wrote here _ (.storage _) rfl (by simp [Handing.work]))
  | endData => exact .inl (smooth.wrote here [] (.sessions _) rfl (by simp [Handing.work]))
  | sessions left =>
    cases left with
    | nil => exact .inl (smooth.moved here (.files _) rfl (by simp [Handing.work]) _)
    | cons _ left => exact .inl (smooth.wrote here _ (.sessions _) rfl (by simp [Handing.work]))
  | files =>
    cases sends with
    | nil => exact .inl (smooth.moved here .awaitImported rfl (by simp [Handing.work]) _)
    | cons _ _ =>
      dsimp only
      refine .inl (.predecessor ⟨_,_,_,_,_,_,{ smooth with
        writing := .files _, told := ?_, sockets := ?_, batches := ?_ }⟩ rfl ?_)
      · have told := smooth.told
        rw [here] at told
        exact told
      · rw [smooth.sockets,flatMap_append,append_assoc]
        simp
      · intro d member
        rcases mem_append.mp member with earlier | now
        · exact smooth.batches d earlier
        · rw [mem_singleton.mp now]
          exact ⟨rfl,by simp [fdBatch]⟩
      · simp only [here,Handing.work,length_cons,length_drop,fdBatch]
        omega
  | awaitImported =>
    rcases smooth.replied (f := importedFrame) here rfl (by decide) with ⟨none,waits⟩ | ⟨later,-,remaining,read⟩
    · have waits : expect .ok msgImported s.toPredecessor = .waits := waits
      simp only [waits]
      exact .inr ⟨trivial,.inl ⟨none,.inr rfl⟩⟩
    · have read : expect .ok msgImported s.toPredecessor = .payload [] (later.flatMap Frame.encode) := read
      simp only [read]
      exact .inl (smooth.heard here .commit remaining (by simp [Handing.work]))
  | commit => exact .inl (smooth.wrote here [] .release rfl (by simp [Handing.work]))
  | release => exact .inl (smooth.moved here .returned rfl (by simp [Handing.work]) _)
  | returned => exact .inr ⟨rfl,.inr rfl⟩

theorem Smooth.receives (smooth : Smooth setting s under replies writes reads sends takes)
    (first : reads = f :: rest) : under = [] ∧ s.toSuccessor = [] ∨
      ∃ later, under = f :: later ∧ rest = later ++ writes ∧ receive maxFrame s.toSuccessor = .frame f (later.flatMap Frame.encode) ∧
        expect .ok f.kind s.toSuccessor = .payload f.payload (later.flatMap Frame.encode) := by
  have frames := smooth.frames
  have small : f.payload.length ≤ maxFrame := smooth.small f (by rw [first]; simp)
  rw [first] at frames
  cases waiting : under with
  | nil =>
    rw [smooth.stream,waiting]
    exact .inl ⟨rfl,rfl⟩
  | cons _ later =>
    rw [waiting,cons_append] at frames
    obtain ⟨rfl,remaining⟩ := cons.inj frames
    rw [smooth.stream,waiting]
    exact .inr ⟨later,rfl,remaining,receive_encode maxFrame_small small _,expect_encode small _⟩

variable {next : TakingOver F}

theorem Smooth.took (smooth : Smooth setting s under replies writes (f :: rest) sends takes)
    (here : s.successor = now) (remaining : rest = later ++ writes) (then_ : Reads setting next rest takes)
    (answers : next.answers = now.answers) (less : next.work setting < now.work setting) :
    Advances setting s { s with toSuccessor := later.flatMap Frame.encode, successor := next } := by
  subst here
  exact .successor ⟨_,_,_,_,_,_,{ smooth with
    reading := then_, stream := rfl, frames := remaining, small := fun g member => smooth.small g (.tail _ member)
    told := by rw [answers]; exact smooth.told }⟩ rfl less

theorem Smooth.goes (smooth : Smooth setting s under replies writes reads sends takes) (here : s.successor = now)
    (then_ : Reads setting next reads takes) (answers : next.answers = now.answers)
    (less : next.work setting < now.work setting) : Advances setting s { s with successor := next } := by
  subst here
  exact .successor ⟨_,_,_,_,_,_,{ smooth with reading := then_, told := by rw [answers]; exact smooth.told }⟩ rfl less

theorem Smooth.answered (smooth : Smooth setting s under replies writes reads sends takes) (here : s.successor = now)
    (then_ : Reads setting next reads takes) (answers : now.answers = f :: next.answers)
    (less : next.work setting < now.work setting) :
    Advances setting s { s with toPredecessor := s.toPredecessor ++ f.encode, successor := next } := by
  subst here
  exact .successor ⟨_,replies ++ [f],_,_,_,_,{ smooth with
    reading := then_, back := by simp [smooth.back], told := by rw [smooth.told,answers]; simp }⟩ rfl less

/-- The successor can do nothing but wait for a frame or for descriptors, or it serves. -/
def Rests (setting : Setting F) (s : Pair F) (under reads : List Frame) (takes : List F) : Prop :=
  under = [] ∧ 2 ≤ reads.length ∧ s.successor.answers = [importedFrame] ∨
    s.descriptors = [] ∧ takes ≠ [] ∧ s.successor.answers = [importedFrame] ∨
    under = [] ∧ reads = [commitFrame] ∧ s.successor.answers = [] ∨
    s.serves = some (exported setting.parked)

theorem takeover_smooth (fits : setting.Fits) (smooth : Smooth setting s under replies writes reads sends takes) :
    Advances setting s (s.takeover setting .ok) ∨ s.takeover setting .ok = s ∧ Rests setting s under reads takes := by
  have reading := smooth.reading
  have count : setting.sockets.length = setting.states.length := by simp [Setting.sockets,Setting.states]
  generalize here : s.successor = t at reading
  unfold Pair.takeover
  rw [here]
  cases reading with
  | announce =>
    simp only [fits.version,send_ok (show (word32 protocolVersion).length ≤ maxFrame by decide)]
    exact .inl (smooth.answered here .awaitBegin rfl (by simp [TakingOver.work]))
  | awaitBegin =>
    rcases smooth.receives rfl with ⟨none,empty⟩ | ⟨later,-,remaining,-,read⟩
    · simp only [empty,expect_nil]
      exact .inr ⟨trivial,.inl ⟨none,by simp [Setting.script,storageFrames_length],by rw [here]; rfl⟩⟩
    · simp only [read,word32_length,ne_eq,not_true_eq_false,if_false,beValue_word32_of_lt fits.count]
      exact .inl (smooth.took here remaining (.importing [] _ rfl) rfl (by simp [TakingOver.work]))
  | importing data more all =>
    have size : data.length + more.length = setting.chunks.length := by rw [all,length_append]
    rcases more with - | ⟨_,more⟩ <;> rcases smooth.receives rfl with ⟨none,empty⟩ | ⟨later,-,remaining,received,-⟩
    · simp only [empty]
      exact .inr ⟨rfl,.inl ⟨none,by simp [storageFrames_length],by rw [here]; rfl⟩⟩
    · simp only [received]
      refine .inl (smooth.took here remaining (.sessions [] _ rfl) rfl ?_)
      simp only [TakingOver.work,Setting.work,length_nil] at size ⊢
      omega
    · simp only [empty]
      exact .inr ⟨rfl,.inl ⟨none,by simp [storageFrames_length],by rw [here]; rfl⟩⟩
    · simp only [received]
      refine .inl (smooth.took here remaining (.importing _ more (by rw [all]; simp)) rfl ?_)
      simp only [TakingOver.work,Setting.work,length_cons,length_append] at size ⊢
      omega
  | sessions states left all =>
    have size : states.length + left.length = setting.states.length := by rw [all,length_append]
    cases left with
    | nil =>
      have full : ¬states.length < setting.states.length := by rw [← size]; simp
      have whole : states = setting.states := by rw [all,append_nil]
      simp only [full,if_false]
      rw [whole]
      refine .inl (smooth.goes here (.files [] _ rfl) rfl ?_)
      simp only [TakingOver.work,length_nil] at size ⊢
      omega
    | cons _ left =>
      have short : states.length < setting.states.length := by rw [← size]; simp
      rcases smooth.receives rfl with ⟨none,empty⟩ | ⟨later,-,remaining,-,read⟩
      · simp only [short,if_true,empty,expect_nil]
        exact .inr ⟨trivial,.inl ⟨none,by simp [sessionFrames],by rw [here]; rfl⟩⟩
      · simp only [short,if_true,read]
        refine .inl (smooth.took here remaining (.sessions _ left (by rw [all]; simp)) rfl ?_)
        simp only [TakingOver.work,length_cons,length_append] at size ⊢
        omega
  | files got _ all =>
    have size : got.length + takes.length = setting.states.length := by rw [← count,all,length_append]
    by_cases full : takes = []
    · have whole : got = setting.sockets := by rw [all,full,append_nil]
      have enough : ¬got.length < setting.states.length := by rw [← size,full]; simp
      simp only [enough,if_false]
      rw [whole]
      exact .inl (smooth.goes here (full ▸ .restore) rfl (by simp [TakingOver.work]))
    · have short : got.length < setting.states.length := by
        have := length_pos_iff.mpr full
        omega
      cases lane : s.descriptors with
      | nil =>
        simp only [short,if_true]
        exact .inr ⟨trivial,.inr (.inl ⟨lane,full,by rw [here]; rfl⟩)⟩
      | cons batch rest =>
        obtain ⟨announced,filled⟩ := smooth.batches batch (by rw [lane]; simp)
        have some := length_pos_iff.mpr filled
        have sockets := smooth.sockets
        have told := smooth.told
        rw [lane,flatMap_cons,append_assoc] at sockets
        rw [here] at told
        simp only [short,if_true,announced,ne_eq,not_true_eq_false,if_false]
        refine .inl (.successor ⟨_,_,_,_,_,rest.flatMap Prod.snd ++ sends,{ smooth with
          reading := .files _ _ (by rw [all,sockets,append_assoc]), told := told, sockets := rfl
          batches := fun d member => smooth.batches d (by rw [lane]; exact .tail _ member) }⟩ rfl ?_)
        simp only [here,TakingOver.work,length_append]
        omega
  | restore =>
    have zipped : setting.states.zip setting.sockets = exported setting.parked := by
      rw [Setting.states,Setting.sockets,zip_map']
      exact map_id _
    simp only [count,ne_eq,not_true_eq_false,if_false,zipped]
    exact .inl (smooth.goes here .imported rfl (by simp [TakingOver.work]))
  | imported =>
    simp only [send_ok (show ([] : Bytes).length ≤ maxFrame from Nat.zero_le _)]
    exact .inl (smooth.answered here .awaitCommit rfl (by simp [TakingOver.work]))
  | awaitCommit =>
    rcases smooth.receives rfl with ⟨none,empty⟩ | ⟨later,-,remaining,-,read⟩
    · simp only [empty,expect_nil]
      exact .inr ⟨trivial,.inr (.inr (.inl ⟨none,rfl,by rw [here]; rfl⟩))⟩
    · have read : expect .ok msgCommit s.toSuccessor = .payload [] (later.flatMap Frame.encode) := read
      simp only [read]
      exact .inl (smooth.took here remaining .start rfl (by simp [TakingOver.work]))
  | start => exact .inl (smooth.goes here .started rfl (by simp [TakingOver.work]))
  | started => exact .inr ⟨rfl,.inr (.inr (.inr (by simp [Pair.serves,here])))⟩

theorem start_goesOn (fits : setting.Fits) : GoesOn setting {} := by
  refine ⟨[],[],_,_,_,_,.awaitReady,.announce,rfl,rfl,?_,rfl,rfl,rfl,by simp,rfl,rfl⟩
  intro _ member
  simp only [Setting.script,storageFrames,sessionFrames,mem_cons,mem_append,mem_map,not_mem_nil,or_false]
    at member
  rcases member with rfl | ⟨chunk,held,rfl⟩ | rfl | ⟨state,held,rfl⟩ | rfl
  · rw [word32_length]
    decide
  · obtain ⟨p,-,piece⟩ := mem_flatMap.mp held
    exact dataChunks_small p chunk piece
  · exact Nat.zero_le _
  · exact fits.states state held
  · exact Nat.zero_le _

end

/-- No operation fails and neither process dies. -/
def Unfailing (events : List Event) : Prop := ∀ e ∈ events, e = .predecessor .ok ∨ e = .successor .ok

variable {setting : Setting F} {s : Pair F}

theorem step_goesOn (fits : setting.Fits) (goesOn : GoesOn setting s)
    (ok : e = .predecessor .ok ∨ e = .successor .ok) :
    GoesOn setting (s.step setting e) ∧ (s.step setting e = s ∨ (s.step setting e).work setting < s.work setting) := by
  have ⟨under,replies,writes,reads,sends,takes,smooth⟩ := goesOn
  have moves : Advances setting s (s.step setting e) ∨ s.step setting e = s := by
    rcases ok with rfl | rfl
    · rw [Pair.step,if_neg (by rw [smooth.alive.1]; decide)]
      exact (handover_smooth smooth).imp_right And.left
    · rw [Pair.step,if_neg (by rw [smooth.alive.2]; decide)]
      exact (takeover_smooth fits smooth).imp_right And.left
  rcases moves with next | same
  · exact ⟨next.goesOn,.inr next.less⟩
  · rw [same]
    exact ⟨goesOn,.inl rfl⟩

theorem run_goesOn (fits : setting.Fits) (unfailing : Unfailing events) :
    GoesOn setting (Pair.run setting events) :=
  foldlRecOn (motive := GoesOn setting) events _ (start_goesOn fits)
    fun _ goesOn e member => (step_goesOn fits goesOn (unfailing e member)).1

/-- When neither process can go on, the successor serves the exported sessions. -/
theorem GoesOn.stuck (fits : setting.Fits) (goesOn : GoesOn setting s) (predecessor : s.step setting (.predecessor .ok) = s)
    (successor : s.step setting (.successor .ok) = s) : s.serves = some (exported setting.parked) := by
  obtain ⟨under,replies,_,reads,_,takes,smooth⟩ := goesOn
  rw [Pair.step,if_neg (by rw [smooth.alive.1]; decide)] at predecessor
  rw [Pair.step,if_neg (by rw [smooth.alive.2]; decide)] at successor
  have still : ¬Advances setting s s := fun next => Nat.lt_irrefl _ next.less
  have waits : s.predecessor.Rests replies :=
    ((handover_smooth smooth).resolve_left (by rw [predecessor]; exact still)).2
  have rests : Rests setting s under reads takes :=
    ((takeover_smooth fits smooth).resolve_left (by rw [successor]; exact still)).2
  have told := smooth.told
  have frames := smooth.frames
  have sockets := smooth.sockets
  have writing := smooth.writing
  rcases rests with ⟨none,two,answers⟩ | ⟨empty,more,answers⟩ | ⟨none,one,answers⟩ | serves
  · rcases waits with ⟨silent,here | here⟩ | here <;> rw [here,answers] at told
    · simp [silent,Handing.awaits,readyFrame,importedFrame] at told
    · rw [here] at writing
      cases writing
      rw [frames,none] at two
      simp at two
    · simp [Handing.awaits] at told
  · rcases waits with ⟨silent,here | here⟩ | here <;> rw [here,answers] at told
    · simp [silent,Handing.awaits] at told
    · rw [here] at writing
      cases writing
      rw [empty] at sockets
      exact absurd sockets more
    · simp [Handing.awaits] at told
  · rcases waits with ⟨silent,here | here⟩ | here <;> rw [here,answers] at told
    · simp [silent,Handing.awaits] at told
    · simp [silent,Handing.awaits] at told
    · rw [here] at writing
      cases writing
      rw [one,none] at frames
      cases frames
  · exact serves

theorem GoesOn.serves (goesOn : GoesOn setting s) :
    s.handoverFailed = false ∧ ∀ restored, s.serves = some restored → restored = exported setting.parked := by
  obtain ⟨_,_,_,_,_,_,smooth⟩ := goesOn
  have writing := smooth.writing
  have reading := smooth.reading
  constructor
  · generalize here : s.predecessor = h at writing
    cases writing <;> simp [Pair.handoverFailed,here]
  · intro _ serves
    unfold Pair.serves at serves
    split at serves
    next here =>
      rw [here] at reading
      cases reading
      exact (Option.some.inj serves).symm
    · cases serves

/-- Never two servers on the same sessions. -/
theorem one_owner (setting : Setting F) (events : List Event) :
    let s := Pair.run setting events
    (({} : Pair F).UnmixedAlong setting events →
      ¬(s.resumed = true ∧ s.serves.isSome = true) ∧
      (s.handoverFailed = true → s.serving = true ∧ s.serves = none)) ∧
    (setting.Fits → Unfailing events →
      s.handoverFailed = false ∧
      (∀ restored, s.serves = some restored → restored = exported setting.parked) ∧
      (s.step setting (.predecessor .ok) = s → s.step setting (.successor .ok) = s →
        s.serves = some (exported setting.parked)) ∧
      ∀ e, e = .predecessor .ok ∨ e = .successor .ok →
        s.step setting e = s ∨ (s.step setting e).work setting < s.work setting) := by
  intro s
  constructor
  · intro unmixed
    have own : s.OneOwner := Pair.run_oneOwner setting events Pair.start_oneOwner unmixed
    constructor
    · rintro ⟨again,started⟩
      obtain ⟨restored,serves⟩ := Option.isSome_iff_exists.mp started
      exact absurd ((own.started serves).1.symm.trans again) Bool.false_ne_true
    · intro failed
      refine ⟨own.failed_serving failed,?_⟩
      cases serves : s.serves with
      | none => rfl
      | some _ => exact absurd ((own.started serves).2.symm.trans failed) Bool.false_ne_true
  · intro fits unfailing
    have goesOn := run_goesOn fits unfailing
    exact ⟨goesOn.serves.1,goesOn.serves.2,goesOn.stuck fits,fun _ ok => (step_goesOn fits goesOn ok).2⟩

/-- A commit that fails after four of its bytes, and an abort of which nothing gets through. -/
def cutCommit : List Event :=
  (Pair.tornCommit.take 21) ++ [Event.predecessor (.fails [] 0),Event.predecessor .ok,Event.predecessor .ok]

def wholeCommit : List Event := (Pair.tornCommit.take 20) ++ (Event.predecessor .ok :: (Pair.tornCommit.drop 22))

theorem oneSession_fits : Pair.oneSession.Fits := ⟨rfl,by decide,by decide⟩

theorem one_owner_met :
    (({} : Pair Nat).UnmixedAlong Pair.oneSession cutCommit ∧ (Pair.run Pair.oneSession cutCommit).handoverFailed = true ∧
      (Pair.run Pair.oneSession cutCommit).serving = true ∧ (Pair.run Pair.oneSession cutCommit).serves = none) ∧
    Unfailing wholeCommit ∧ (Pair.run Pair.oneSession wholeCommit).serves = some [([1,2],9)] ∧
      (Pair.run Pair.oneSession wholeCommit).handoverFailed = false := by
  have unmixed : ({} : Pair Nat).UnmixedAlong Pair.oneSession cutCommit := by decide +kernel
  have failed : (Pair.run Pair.oneSession cutCommit).handoverFailed = true := by decide +kernel
  have unfailing : Unfailing wholeCommit := by unfold Unfailing; decide
  have owner := (one_owner Pair.oneSession cutCommit).1 unmixed
  have whole := (one_owner Pair.oneSession wholeCommit).2 oneSession_fits unfailing
  exact ⟨⟨unmixed,failed,owner.2 failed⟩,unfailing,by decide +kernel,whole.1⟩

end ENode.Handover
