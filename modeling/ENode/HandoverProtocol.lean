import ENode.Frames
import ENode.GoText

/-! A handover between two processes over a control stream of frames and a lane of descriptors.
Each process stands between two of its operations; an operation succeeds or fails, a write that
fails leaves less than its frame on the stream, and either process may die. -/
namespace ENode.Handover

open GoText ByteNumbers Frames

def protocolVersion : Nat := 1

def msgReady : UInt8 := 1
def msgBegin : UInt8 := 2
def msgData : UInt8 := 3
def msgDataEnd : UInt8 := 4
def msgSession : UInt8 := 5
def msgImported : UInt8 := 6
def msgCommit : UInt8 := 7
def msgAbort : UInt8 := 8

def maxFrame : Nat := 64 * 2 ^ 20
def dataChunk : Nat := 2 ^ 20
def fdBatch : Nat := 64

/-- The bytes of a text in ASCII. -/
def text (s : String) : Bytes := s.toList.map fun c => UInt8.ofNat c.toNat

def kindText (kind : UInt8) : Bytes :=
  if kind = msgReady then text "ready"
  else if kind = msgBegin then text "begin"
  else if kind = msgData then text "data"
  else if kind = msgDataEnd then text "data-end"
  else if kind = msgSession then text "session"
  else if kind = msgImported then text "imported"
  else if kind = msgCommit then text "commit"
  else if kind = msgAbort then text "abort"
  else text "kind(" ++ text (toString kind.toNat) ++ text ")"

/-- How an operation ends. One that fails gives a reason; of a write, some bytes have gone out. -/
inductive Outcome where
  | ok
  | fails (err : Bytes) (delivered : Nat)
  deriving DecidableEq

/-- `Channel.Send`: the stream after it, and the error. -/
def send (o : Outcome) (kind : UInt8) (payload stream : Bytes) : Bytes × Option Bytes :=
  if payload.length > maxFrame then
    (stream,some (text "handoff " ++ kindText kind ++ text " frame of " ++ text (toString payload.length) ++
      text " bytes exceeds " ++ text (toString maxFrame)))
  else
    let frame := (⟨kind,payload⟩ : Frame).encode
    match o with
    | .ok => (stream ++ frame,none)
    | .fails err delivered =>
      (stream ++ frame.take (min delivered (frame.length - 1)),
        some (text "handoff send " ++ kindText kind ++ text ": " ++ err))

inductive Expected where
  | waits
  | error (err : Bytes)
  | payload (bytes rest : Bytes)

/-- `Channel.Expect`: one frame, of the kind wanted. -/
def expect (o : Outcome) (want : UInt8) (stream : Bytes) : Expected :=
  match o with
  | .fails err _ => .error (text "handoff receive: " ++ err)
  | .ok =>
    match receive maxFrame stream with
    | .waits => .waits
    | .tooLarge n => .error (text "handoff receive: frame of " ++ text (toString n) ++ text " bytes exceeds " ++
        text (toString maxFrame))
    | .frame f rest =>
      if f.kind = want then .payload f.payload rest
      else if f.kind = msgAbort then .error (text "handoff aborted by the other process: " ++ f.payload)
      else .error (text "handoff: expected " ++ kindText want ++ text ", got " ++ kindText f.kind)

/-- `dataWriter.Write`: the frames' payloads for one buffer. -/
def dataChunks (p : Bytes) : List Bytes :=
  if p = [] then [] else p.take dataChunk :: dataChunks (p.drop dataChunk)
termination_by p.length
decreasing_by
  have filled : 0 < p.length := List.length_pos_iff.mpr (by assumption)
  rw [List.length_drop,dataChunk]
  omega

variable {F : Type}

/-- A parked session: its state encoded, and the duplicate of its socket, if one can be made. -/
structure Parked (F : Type) where
  state : Bytes
  socket : Option F

/-- `ParkedSessions.Export`: states and sockets in one order. -/
def exportSessions (clients : List (Parked F)) : List Bytes × List F :=
  clients.foldl (fun out c =>
    match c.socket with
    | none => out
    | some f => (out.1 ++ [c.state],out.2 ++ [f])) ([],[])

/-- What the two processes bring: the protocol the successor speaks, the parked sessions, and
what `ExportStorage` writes. -/
structure Setting (F : Type) where
  version : Nat
  parked : List (Parked F)
  storage : List Bytes

/-- Where `Handover` stands: the operation it does next. -/
inductive Handing (F : Type) where
  | awaitReady
  | quiesce
  | collect
  | begin (states : List Bytes) (files : List F)
  | storage (chunks states : List Bytes) (files : List F)
  | endData (states : List Bytes) (files : List F)
  | sessions (left : List Bytes) (files : List F)
  | files (left : List F)
  | awaitImported
  | commit
  | release
  | returned
  -- `cut`: the write it gives up on has left a part of its frame on the stream
  | abort (cause : Bytes) (cut quiesced : Bool)
  | kill (quiesced : Bool)
  | resume
  | failed

inductive TakingOver (F : Type) where
  | announce
  | awaitBegin
  | importing (count : Nat) (data : List Bytes)
  | sessions (count : Nat) (states : List Bytes)
  | files (count : Nat) (states : List Bytes) (files : List F)
  | restore (states : List Bytes) (files : List F)
  | imported (restored : List (Bytes × F))
  | awaitCommit (restored : List (Bytes × F))
  | start (restored : List (Bytes × F))
  | started (restored : List (Bytes × F))
  | tell (cause : Bytes)
  | exited

/-- The two processes, what is under way between them, and whether the predecessor has stopped
serving and gone back to it. -/
structure Pair (F : Type) where
  predecessor : Handing F := .awaitReady
  successor : TakingOver F := .announce
  toSuccessor : Bytes := []
  toPredecessor : Bytes := []
  descriptors : List (Nat × List F) := []
  stopped : Bool := false
  resumed : Bool := false
  predecessorDead : Bool := false
  successorDead : Bool := false

namespace Pair

/-- A frame to the successor; a failed write ends the handover. `why` is put before the error. -/
def sendOn (s : Pair F) (o : Outcome) (kind : UInt8) (payload why : Bytes) (next : Handing F) : Pair F :=
  match send o kind payload s.toSuccessor with
  | (stream,none) => { s with toSuccessor := stream, predecessor := next }
  | (stream,some err) =>
    { s with toSuccessor := stream, predecessor := .abort (why ++ err) (decide (s.toSuccessor.length < stream.length)) true }

def handover (setting : Setting F) (o : Outcome) (s : Pair F) : Pair F :=
  match s.predecessor with
  | .awaitReady =>
    match expect o msgReady s.toPredecessor with
    | .waits => s
    | .error _ => { s with predecessor := .kill false }
    | .payload version rest =>
      if version.length ≠ 4 then { s with toPredecessor := rest, predecessor := .kill false }
      else if beValue version ≠ protocolVersion then
        { s with toPredecessor := rest, predecessor := .abort (text "protocol version mismatch") false false }
      else { s with toPredecessor := rest, predecessor := .quiesce }
  | .quiesce =>
    match o with
    | .ok => { s with stopped := true, predecessor := .collect }
    | .fails _ _ => { s with stopped := true, predecessor := .abort (text "predecessor could not quiesce") false true }
  | .collect =>
    match o with
    | .ok => { s with predecessor := .begin (exportSessions setting.parked).1 (exportSessions setting.parked).2 }
    | .fails err _ => { s with predecessor := .abort (text "collect sessions: " ++ err) false true }
  | .begin states files =>
    s.sendOn o msgBegin (word32 states.length) [] (.storage (setting.storage.flatMap dataChunks) states files)
  | .storage [] states files =>
    match o with
    | .ok => { s with predecessor := .endData states files }
    | .fails err _ => { s with predecessor := .abort (text "export storage: " ++ err) false true }
  | .storage (chunk :: chunks) states files =>
    s.sendOn o msgData chunk (text "export storage: ") (.storage chunks states files)
  | .endData states files => s.sendOn o msgDataEnd [] [] (.sessions states files)
  | .sessions [] files => { s with predecessor := .files files }
  | .sessions (state :: left) files => s.sendOn o msgSession state [] (.sessions left files)
  | .files [] => { s with predecessor := .awaitImported }
  | .files (file :: left) =>
    match o with
    | .ok =>
      let batch := (file :: left).take fdBatch
      { s with
        descriptors := s.descriptors ++ [(batch.length,batch)]
        predecessor := .files ((file :: left).drop fdBatch) }
    | .fails err _ => { s with predecessor := .abort (text "handoff send descriptors: " ++ err) false true }
  | .awaitImported =>
    match expect o msgImported s.toPredecessor with
    | .waits => s
    | .error err => { s with predecessor := .abort (text "successor did not import: " ++ err) false true }
    | .payload _ rest => { s with toPredecessor := rest, predecessor := .commit }
  | .commit => s.sendOn o msgCommit [] [] .release
  | .release => { s with predecessor := .returned }
  | .abort cause _ quiesced =>
    -- the error of this send is dropped
    { s with toSuccessor := (send o msgAbort cause s.toSuccessor).1, predecessor := .kill quiesced }
  | .kill quiesced =>
    -- the wait for a killed process ends after ten seconds, whether it is gone or not
    { s with
      successorDead := s.successorDead || decide (o = .ok)
      predecessor := if quiesced then .resume else .failed }
  | .resume => { s with resumed := true, predecessor := .failed }
  | .returned | .failed => s

def takeover (setting : Setting F) (o : Outcome) (s : Pair F) : Pair F :=
  match s.successor with
  | .announce =>
    match send o msgReady (word32 setting.version) s.toPredecessor with
    | (stream,none) => { s with toPredecessor := stream, successor := .awaitBegin }
    | (stream,some _) => { s with toPredecessor := stream, successor := .exited }
  | .awaitBegin =>
    match expect o msgBegin s.toSuccessor with
    | .waits => s
    | .error _ => { s with successor := .exited }
    | .payload count rest =>
      if count.length ≠ 4 then { s with toSuccessor := rest, successor := .exited }
      else { s with toSuccessor := rest, successor := .importing (beValue count) [] }
  | .importing count data =>
    match o with
    | .fails err _ => { s with successor := .tell err }
    | .ok =>
      match receive maxFrame s.toSuccessor with
      | .waits => s
      | .tooLarge n => { s with successor := .tell (text "handoff receive: frame of " ++ text (toString n) ++
          text " bytes exceeds " ++ text (toString maxFrame)) }
      | .frame f rest =>
        if f.kind = msgData then { s with toSuccessor := rest, successor := .importing count (data ++ [f.payload]) }
        else if f.kind = msgDataEnd then { s with toSuccessor := rest, successor := .sessions count [] }
        else if f.kind = msgAbort then
          { s with toSuccessor := rest, successor := .tell (text "handoff aborted by the other process: " ++ f.payload) }
        else { s with toSuccessor := rest, successor := .tell (text "handoff: expected data, got " ++ kindText f.kind) }
  | .sessions count states =>
    if states.length < count then
      match expect o msgSession s.toSuccessor with
      | .waits => s
      | .error _ => { s with successor := .exited }
      | .payload state rest => { s with toSuccessor := rest, successor := .sessions count (states ++ [state]) }
    else { s with successor := .files count states [] }
  | .files count states files =>
    if files.length < count then
      match o, s.descriptors with
      | .fails _ _, _ => { s with successor := .exited }
      | .ok, [] => s
      | .ok, (announced,got) :: rest =>
        if got.length ≠ announced then { s with descriptors := rest, successor := .exited }
        else { s with descriptors := rest, successor := .files count states (files ++ got) }
    else { s with successor := .restore states files }
  | .restore states files =>
    match o with
    | .fails err _ => { s with successor := .tell err }
    | .ok =>
      if states.length ≠ files.length then
        { s with successor := .tell (text "handoff: " ++ text (toString states.length) ++ text " session states for " ++
          text (toString files.length) ++ text " sockets") }
      else { s with successor := .imported (states.zip files) }
  | .imported restored =>
    match send o msgImported [] s.toPredecessor with
    | (stream,none) => { s with toPredecessor := stream, successor := .awaitCommit restored }
    | (stream,some _) => { s with toPredecessor := stream, successor := .exited }
  | .awaitCommit restored =>
    match expect o msgCommit s.toSuccessor with
    | .waits => s
    | .error _ => { s with successor := .exited }
    | .payload _ rest => { s with toSuccessor := rest, successor := .start restored }
  | .start restored => { s with successor := .started restored }
  | .tell cause => { s with toPredecessor := (send o msgAbort cause s.toPredecessor).1, successor := .exited }
  | .started _ | .exited => s

/-- `Restore` when a socket cannot be wrapped or a LowID is taken: those sessions are dropped. -/
def restoreSome (kept : List Bool) (s : Pair F) : Pair F :=
  match s.successor with
  | .restore states files =>
    if states.length = files.length then
      { s with successor := .imported (((states.zip files).zip kept).filterMap fun e => if e.2 then some e.1 else none) }
    else s
  | _ => s

end Pair

inductive Event where
  | predecessor (o : Outcome)
  | successor (o : Outcome)
  | drops (kept : List Bool)
  | predecessorDies
  | successorDies
  deriving DecidableEq

namespace Pair

def step (setting : Setting F) (s : Pair F) : Event → Pair F
  | .predecessor o => if s.predecessorDead then s else s.handover setting o
  | .successor o => if s.successorDead then s else s.takeover setting o
  | .drops kept => if s.successorDead then s else s.restoreSome kept
  | .predecessorDies => { s with predecessorDead := true }
  | .successorDies => { s with successorDead := true }

def run (setting : Setting F) (events : List Event) : Pair F := events.foldl (step setting) {}

/-- The sessions the successor serves, once it has started. -/
def serves (s : Pair F) : Option (List (Bytes × F)) :=
  match s.successor with
  | .started restored => some restored
  | _ => none

def handoverFailed (s : Pair F) : Bool :=
  match s.predecessor with
  | .failed => true
  | _ => false

/-- Its sessions are with the predecessor: it never stopped serving them, or resumed. -/
def serving (s : Pair F) : Bool := !s.stopped || s.resumed

end Pair

end ENode.Handover
