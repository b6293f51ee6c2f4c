import ENode.MemorySearch
import ENode.Related
import ENode.SearchPages
import ENode.SearchResults
import ENode.SearchWire

/-! A search from the bytes of the request to what the client reads of the answer. -/
namespace ENode.Ed2k

open GoText Storage SortedLists List

/-- What a search reads of the server; `metaRows` is what the catalogues answer. -/
structure SearchServer extends Paging where
  blocked : List Bytes → Bool
  relatedSearch : Bool
  relatedMinClients : Int
  metaRows : SearchExpr → List File

def defaultRelatedMinClients : Int := 5
def relatedMaxClients : Int := 500

/-- The words a search asks for, not those it excludes. -/
def searchTerms : SearchExpr → List Bytes
  | .nil => []
  | .node kind text tagType valueString _ _ left right =>
    match kind with
    | .text => if text = [] then [] else [text]
    | .string => if tagType ≠ searchTypeText ∨ valueString = [] then [] else [valueString]
    | .and | .or => searchTerms left ++ searchTerms right
    | .andNot => searchTerms left
    | _ => []

/-- Catalogue rows follow the server's own, each with a new hash. -/
def mergeMetaResults (files : List File) : List File → List File
  | [] => files
  | m :: rest =>
    if files.length ≥ maxSearchResults then files
    else mergeMetaResults (if files.any (·.hash = m.hash) then files else files ++ [m]) rest

def matchRelatedFilter (u : Unicode) (expr : SearchExpr) (file : File) : Bool :=
  let (hit,prune) := matchNode u file (toLower u file.name) expr
  prune || hit

namespace SearchServer

variable (s : SearchServer) (u : Unicode) (e : MemoryEngine)

def queryBlocked (expr : SearchExpr) : Bool := searchTerms expr ≠ [] && s.blocked (searchTerms expr)

def related (expr : SearchExpr) (seeds : List FileKey) : List File :=
  let minClients := if s.relatedMinClients ≤ 0 then defaultRelatedMinClients else s.relatedMinClients
  if !s.relatedSearch then []
  else s.withholdFiles ((e.relatedFiles seeds minClients relatedMaxClients).filter (matchRelatedFilter u expr))

/-- The rows for a tree, with `lookup` for the search of the index. -/
def rows (lookup : SearchExpr → List File) (expr : SearchExpr) : List File :=
  if s.queryBlocked expr then []
  else match findRelated expr with
    | some seeds => s.related u e expr seeds
    | none => mergeMetaResults (lookup expr) (s.metaRows expr)

/-- The answer as it is sent. A request that cannot be read gets an empty page. -/
def handleSearchRequest (sorter : SliceSort) (z : Zlib) (data : Bytes) (now : Int) (ticks : List Int) :
    Option PendingSearch × Except BufferError Bytes :=
  let found := match (parseSearchExpr u data).1 with
    | .error _ => []
    | .ok expr => s.rows u e (e.findBySearch u · sorter) expr
  let (kept,page) := s.sendSearchPage found now ticks
  (kept,buildSearchResultPacket z page.rows page.more)

/-- In every state of the engine, while the word ids last, a client reads the first page of what a scan
of the records gives for the tree it sent, and whether rows are kept for another. -/
theorem search_answered (ops : List Op) (sorter : SliceSort) (z : Zlib) (w : WireExpr) (rest : Bytes) (now : Int)
    (ticks : List Int)
    (words : (({} : System).run u ops).engine.names.words.length ≤ 2^32)
    (sent : w.Fits ∧ w.leaves ≤ maxSearchExprLeaves ∧ w.depth ≤ maxSearchExprDepth) :
    let e := (({} : System).run u ops).engine
    let page := (s.withholdFiles (s.rows u e (e.scanSearch u) (w.expr u))).take maxSearchPage
    let answer := s.handleSearchRequest u e sorter z (w.encode ++ rest) now ticks
    (∀ f ∈ page, FileFits f) → (page.flatMap recordWire).length + 6 < 2 ^ 32 →
    ∃ packet payload, answer.2 = .ok packet ∧ payloadOf z packet = some payload ∧ getFileList true payload =
      .ok (page.map recordOf,[UInt8.ofNat (moreByte (decide ((Paging.pendingRows answer.1).length > 0)))]) := by
  intro e page answer fits _
  obtain ⟨sound,contents⟩ := System.reached_sound u ops
  have index : (e.findBySearch u · sorter) = e.scanSearch u :=
    funext fun _ => MemoryEngine.findBySearch_eq sorter sound.structured contents words
  have found : answer = s.handleSearchRequest u e sorter z (w.encode ++ rest) now ticks := rfl
  rw [handleSearchRequest,(parseSearchExpr_encode u rest sent.1 sent.2.1 sent.2.2).1,index] at found
  have few : page.length < 2 ^ 32 := (length_take_le ..).trans_lt (by decide)
  have short (more : Bool) : (pageWire page more).length + 1 < 2 ^ 32 := by
    rw [pageWire,length_append,length_append,ByteNumbers.leBytes_length,length_singleton]
    omega
  obtain ⟨packet,built,-,payload⟩ := page_crosses z fits (short _)
  rw [found]
  exact ⟨packet,_,built,payload,page_reads fits few _⟩

/-- A file is offered, and again under another name, beside one that does not match; the
catalogue adds a row. -/
theorem search_answered_offered :
    let ops : List Op := [.connect System.seeker,.offer [{ songFile with name := lit "alpha.mp3" },
      { hash := replicate 16 9, name := lit "gamma.mp3", size := 5 }] System.seeker,
      .offer [songFile] System.seeker]
    ∃ packet payload,
    (SearchServer.handleSearchRequest ⟨⟨fun _ _ => false,0,0⟩,fun _ => false,false,0,fun _ => [plainFile]⟩
      Unicode.ascii (({} : System).run .ascii ops).engine .stable storing [1,4,0,98,101,116,97] 0 []).2 = .ok packet ∧
    payloadOf storing packet = some payload ∧
    getFileList true payload = .ok ([recordOf songFile,recordOf plainFile],[0]) := by
  intro ops
  let s : SearchServer := ⟨⟨fun _ _ => false,0,0⟩,fun _ => false,false,0,fun _ => [plainFile]⟩
  let e := (({} : System).run .ascii ops).engine
  have page : (s.withholdFiles (s.rows .ascii e (e.scanSearch .ascii)
      ((WireExpr.keyword (lit "beta")).expr .ascii))).take maxSearchPage = [songFile,plainFile] := by decide +kernel
  have answered := search_answered s .ascii ops .stable storing (.keyword (lit "beta")) [] 0 [] (by decide +kernel)
    ⟨show 4 < 2 ^ 16 by decide,by decide,by decide⟩ (page ▸ songFile_fits) (page ▸ by decide +kernel)
  rw [page] at answered
  exact answered

end SearchServer

end ENode.Ed2k
