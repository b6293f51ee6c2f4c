import ENode.MemoryContents
import ENode.MemoryOwners

/-! The handover of the memory engine: what it writes for its successor and how the
successor rebuilds an engine from it. The encoding itself is taken to be lossless, so a
stream is the values it carries. -/
namespace ENode.Storage

open GoText Slab

structure HandoffSource where
  hash : HashKey
  size : Nat
  storeID : Nat
  id : Nat
  port : Nat
  crypt : Nat
  complete : Bool
  ipv6Reachable : Bool
  own : Bool
  peerHash : Bytes
  peerIPv6 : Bytes

/-- A run of hashes: every file of each, and each one's sources in offer order. -/
structure HandoffBatch where
  files : List File := []
  sources : List HandoffSource := []

def memoryHandoffMagic : String := "enode-handoff-memory"
def memoryHandoffVersion : Nat := 1
def memoryHandoffBatchFiles : Nat := 10000

/-- The header and the batches after it. A stream that names a file carries nothing else. -/
structure HandoffStream where
  magic : String := memoryHandoffMagic
  version : Nat := memoryHandoffVersion
  nextClientID : Nat := 0
  clients : List ClientInfo := []
  file : String := ""
  batches : List HandoffBatch := []

inductive HandoffError where
  | magic (got : String)
  | version (got : Nat)
  | openFile (path : String)
  | nestedFile

/-- Whether two identities are the same pointer. -/
def MemPeer.is (a b : MemPeer) : Bool := a.shared && b.shared && a.storeID == b.storeID

namespace MemoryEngine

def exportSource (e : MemoryEngine) (key : HashKey) (s : MemSource) : HandoffSource :=
  let own := (e.clients.lookup s.peer.storeID).all (fun c => !c.peer.is s.peer)
  { hash := key, size := s.size, storeID := s.peer.storeID, id := s.id, port := s.port, crypt := s.crypt
    complete := s.complete, ipv6Reachable := s.ipv6Reachable, own := own
    peerHash := if own then s.peer.hash else []
    peerIPv6 := if own then s.peer.ipv6 else [] }

def exportHash (e : MemoryEngine) (batch : HandoffBatch) (entry : HashKey × Nat) : HandoffBatch :=
  { files := batch.files ++ (follow (fun id => (e.record id).next) e.recs.length (some entry.2)).map e.fileLocked
    sources := batch.sources ++ (e.eachSourceLocked entry.2).map (e.exportSource entry.1) }

def flushBatch (batch : HandoffBatch) (written : List HandoffBatch) : List HandoffBatch :=
  if batch.files.length = 0 ∧ batch.sources.length = 0 then written else written ++ [batch]

def exportStep (e : MemoryEngine) (state : HandoffBatch × List HandoffBatch) (entry : HashKey × Nat) :
    HandoffBatch × List HandoffBatch :=
  let batch := e.exportHash state.1 entry
  if batch.files.length ≥ memoryHandoffBatchFiles then ({},flushBatch batch state.2) else (batch,state.2)

/-- The orders are those in which the two maps are visited. -/
def exportHandoff (e : MemoryEngine) (clients : List (Nat × MemClient)) (files : List (HashKey × Nat)) :
    HandoffStream :=
  let state := files.foldl e.exportStep ({},[])
  { nextClientID := e.nextClientID
    clients := clients.map (fun c => c.2.info)
    batches := flushBatch state.1 state.2 }

def importClient (e : MemoryEngine) (info : ClientInfo) : MemoryEngine :=
  { e with
    clients := e.clients.insert info.storeID { info := info, peer := { newMemPeer info with shared := true } }
    clientsByHash := if info.hash.length > 0 then e.clientsByHash.insert info.hash info.storeID
      else e.clientsByHash }

def importedSource (client : Option MemClient) (hs : HandoffSource) : MemSource :=
  let own : MemPeer := { storeID := hs.storeID, hash := hs.peerHash, ipv6 := hs.peerIPv6 }
  { peer := match client with
      | some c => if hs.own then own else c.peer
      | none => own
    size := hs.size, id := hs.id, port := hs.port, crypt := hs.crypt
    complete := hs.complete, ipv6Reachable := hs.ipv6Reachable }

/-- Every source of a session is one entry of its list. -/
def importSource (e : MemoryEngine) (hs : HandoffSource) : MemoryEngine :=
  match e.files.lookup hs.hash with
  | none => e
  | some head =>
    (e.appendSourceLocked head (importedSource (e.clients.lookup hs.storeID) hs)).modifyClient hs.storeID
      (fun c => { c with offered := c.offered ++ [head] })

def importBatch (u : Unicode) (e : MemoryEngine) (batch : HandoffBatch) : MemoryEngine :=
  batch.sources.foldl importSource (batch.files.foldl (fun e file => (e.storeFileLocked u file).1) e)

/-- The engine the batches are read into: the header's sessions and nothing else. -/
def importHeader (u : Unicode) (e : MemoryEngine) (stream : HandoffStream) : MemoryEngine :=
  let installed := e.installFilesLocked u []
  { stream.clients.foldl importClient { installed with clients := ∅, clientsByHash := ∅ } with
    nextClientID := max e.nextClientID stream.nextClientID }

def importStream (u : Unicode) (e : MemoryEngine) (stream : HandoffStream) : MemoryEngine :=
  stream.batches.foldl (importBatch u) (e.importHeader u stream)

/-- A stream may name a file that holds the actual one; a file never names another. -/
def importHandoff (u : Unicode) (files : String → Option HandoffStream) (e : MemoryEngine) (stream : HandoffStream) :
    Except HandoffError MemoryEngine :=
  let checked (follow : Option HandoffStream → Except HandoffError MemoryEngine) (s : HandoffStream) :
      Except HandoffError MemoryEngine :=
    if s.magic ≠ memoryHandoffMagic then .error (.magic s.magic)
    else if s.version ≠ memoryHandoffVersion then .error (.version s.version)
    else if s.file ≠ "" then follow (files s.file)
    else .ok (e.importStream u s)
  checked (fun
    | none => .error (.openFile stream.file)
    | some inner => checked (fun _ => .error .nestedFile) inner) stream

/-- Empties the engine and keeps the counter. -/
def releaseIndex (u : Unicode) (e : MemoryEngine) : MemoryEngine :=
  { e.installFilesLocked u [] with clients := ∅, clientsByHash := ∅ }

theorem sameFiles_clients (e : MemoryEngine) (clients : GoMap Nat MemClient) :
    SameFiles e { e with clients := clients } := ⟨fun _ => rfl,rfl,rfl,rfl,rfl,rfl,rfl,rfl⟩

/-- An imported source lands at the end of its list. -/
theorem importSource_sound (sound : e.Sound) (hs : HandoffSource) :
    (e.importSource hs).Sound ∧ SameFiles e (e.importSource hs) ∧
    (∀ key, (e.importSource hs).sourcesOf key = if key = hs.hash ∧ (e.files.lookup hs.hash).isSome = true
      then e.sourcesOf key ++ [importedSource (e.clients.lookup hs.storeID) hs] else e.sourcesOf key) ∧
    ∀ y, (e.importSource hs).clients.lookup y = (e.clients.lookup y).map (fun c => { c with
      offered := if y = hs.storeID then c.offered ++ (e.files.lookup hs.hash).toList else c.offered }) := by
  unfold importSource
  cases known : e.files.lookup hs.hash with
  | none =>
    refine ⟨sound,SameFiles.refl e,fun key => ?_,fun y => ?_⟩
    · simp
    · cases e.clients.lookup y <;> simp
  | some head =>
    obtain ⟨set,clients⟩ := appendSource_spec sound.placed (sound.known_bound known)
      (importedSource (e.clients.lookup hs.storeID) hs)
    obtain ⟨sound',same,sources⟩ := set.sound sound known
    obtain ⟨after,frame⟩ := (e.appendSourceLocked head
      (importedSource (e.clients.lookup hs.storeID) hs)).modifyClient_keeps hs.storeID
        (fun c => { c with offered := c.offered ++ [head] })
    refine ⟨?_,?_,fun key => ?_,fun y => ?_⟩
    · dsimp only
      rw [frame]
      exact sound'.of_clients after _ _ _
    · dsimp only
      rw [frame]
      exact same.trans (sameFiles_clients _ after)
    · dsimp only
      rw [frame]
      refine (congrFun sources key).trans ?_
      rw [Function.update_apply,← sourcesOf_known known]
      by_cases here : key = hs.hash
      · simp [here]
      · simp [here]
    · dsimp only
      rw [lookup_modifyClient,clients]
      split
      next here => simp
      next other => cases e.clients.lookup y <;> simp

theorem importSources_sound (l : List HandoffSource) (sound : e.Sound) :
    (l.foldl importSource e).Sound ∧ SameFiles e (l.foldl importSource e) := by
  induction l generalizing e with
  | nil => exact ⟨sound,SameFiles.refl e⟩
  | cons hs _ ih =>
    obtain ⟨sound₁,same₁,_⟩ := importSource_sound sound hs
    obtain ⟨sound₂,same₂⟩ := ih sound₁
    exact ⟨sound₂,same₁.trans same₂⟩

theorem storeAll_contents (files : List File) (sound : e.Sound) (contents : Contents u e) :
    Contents u (files.foldl (fun e file => (e.storeFileLocked u file).1) e) := by
  induction files generalizing e with
  | nil => exact contents
  | cons file _ ih =>
    obtain ⟨_,effect⟩ := store_effect u sound.structured file
    exact ih (store_sound u sound file).1 (effect.contents contents)

/-- Whatever a stream holds, the import leaves a well-formed engine. -/
theorem importBatch_sound (batch : HandoffBatch) (sound : e.Sound) (contents : Contents u e) :
    (e.importBatch u batch).Sound ∧ Contents u (e.importBatch u batch) := by
  obtain ⟨sound₁,_⟩ := storeAll_sound u batch.files e sound
  have contents₁ := storeAll_contents batch.files sound contents
  obtain ⟨sound₂,same⟩ := importSources_sound batch.sources sound₁
  exact ⟨sound₂,same.contents contents₁⟩

theorem install_contents (u : Unicode) (e : MemoryEngine) (files : List File) :
    Contents u (e.installFilesLocked u files) :=
  storeAll_contents files e.emptied_sound.1 (emptied_contents u e)

theorem Contents.of_frame (contents : Contents u e) (clients : GoMap Nat MemClient) (byHash : GoMap Bytes Nat)
    (next : Nat) : Contents u { e with clients := clients, clientsByHash := byHash, nextClientID := next } :=
  ⟨contents.written,contents.named⟩

theorem importClients_frame (l : List ClientInfo) (e : MemoryEngine) :
    ∃ clients byHash, l.foldl importClient e = { e with clients := clients, clientsByHash := byHash } := by
  induction l generalizing e with
  | nil => exact ⟨e.clients,e.clientsByHash,rfl⟩
  | cons info _ ih =>
    obtain ⟨clients,byHash,same⟩ := ih (e.importClient info)
    exact ⟨clients,byHash,same⟩

theorem importHeader_sound (u : Unicode) (e : MemoryEngine) (stream : HandoffStream) :
    (e.importHeader u stream).Sound ∧ Contents u (e.importHeader u stream) := by
  obtain ⟨clients,byHash,same⟩ := importClients_frame stream.clients
    { e.installFilesLocked u [] with clients := ∅, clientsByHash := ∅ }
  simp only [importHeader,same]
  exact ⟨(install_sound u e []).1.of_clients clients byHash _ _,(install_contents u e []).of_frame clients byHash _⟩

theorem importStream_sound (u : Unicode) (e : MemoryEngine) (stream : HandoffStream) :
    (e.importStream u stream).Sound ∧ Contents u (e.importStream u stream) := by
  have start := importHeader_sound u e stream
  unfold importStream
  generalize e.importHeader u stream = a at start
  induction stream.batches generalizing a with
  | nil => exact start
  | cons batch _ ih => exact ih _ (importBatch_sound batch start.1 start.2)

end MemoryEngine

end ENode.Storage
