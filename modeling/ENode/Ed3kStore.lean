import ENode.GoText
import ENode.Tally

/-! The ed3k index of the memory engine: source, keyword and note records under their
targets, the rules that decide what is stored, and the counters they are decided from.
Times are nanoseconds; the two hashes are parameters. -/
namespace ENode.Storage

open GoText

inductive Ed3kResult where
  | stored
  | full
  | busy
  | rejected
  | older
  deriving DecidableEq

inductive Ed3kKind where
  | source
  | keyword
  | note
  deriving DecidableEq

structure Ed3kLimits where
  sourcesPerTarget : Int := 0
  sourcesPerHost : Int := 0
  sourcesPerSite : Int := 0
  keywordFiles : Int := 0
  keywordPlaces : Int := 0
  keywordPerKey : Int := 0
  keywordPerSite : Int := 0
  notesPerTarget : Int := 0
  notesPerHost : Int := 0
  notesPerSite : Int := 0
  recordsPerHost : Int := 0
  recordsPerSite : Int := 0
  maxRecords : Int := 0

def defaultEd3kLimits : Ed3kLimits where
  sourcesPerTarget := 10000
  sourcesPerHost := 8
  sourcesPerSite := 32
  keywordFiles := 100000
  keywordPlaces := 3
  keywordPerKey := 1000
  keywordPerSite := 2000
  notesPerTarget := 64
  notesPerHost := 4
  notesPerSite := 8
  recordsPerHost := 50000
  recordsPerSite := 200000
  maxRecords := 50000000

def Ed3kLimits.withDefaults (l : Ed3kLimits) : Ed3kLimits :=
  let d := defaultEd3kLimits
  let set (v default : Int) : Int := if v ≤ 0 then default else v
  { sourcesPerTarget := set l.sourcesPerTarget d.sourcesPerTarget
    sourcesPerHost := set l.sourcesPerHost d.sourcesPerHost
    sourcesPerSite := set l.sourcesPerSite d.sourcesPerSite
    keywordFiles := set l.keywordFiles d.keywordFiles
    keywordPlaces := set l.keywordPlaces d.keywordPlaces
    keywordPerKey := set l.keywordPerKey d.keywordPerKey
    keywordPerSite := set l.keywordPerSite d.keywordPerSite
    notesPerTarget := set l.notesPerTarget d.notesPerTarget
    notesPerHost := set l.notesPerHost d.notesPerHost
    notesPerSite := set l.notesPerSite d.notesPerSite
    recordsPerHost := set l.recordsPerHost d.recordsPerHost
    recordsPerSite := set l.recordsPerSite d.recordsPerSite
    maxRecords := set l.maxRecords d.maxRecords }

structure Ed3kSource where
  target : Bytes
  nodeID : Bytes
  peer : Bytes := []
  host : Bytes := []
  site : Bytes := []
  lifetimeEnd : Int := 0
  keptBy : Bytes := []
  deriving DecidableEq

structure Ed3kKeyword where
  target : Bytes
  root : Bytes
  pubKey : Bytes
  signed : Bytes := []
  words : List Bytes := []
  ext : Bytes := []
  size : Nat := 0
  sources : Nat := 0
  host : Bytes := []
  site : Bytes := []
  expires : Int := 0
  viaSigner : Bool := false
  storedAt : Int := 0
  deriving DecidableEq

structure Ed3kNote where
  target : Bytes
  pubKey : Bytes
  signed : Bytes := []
  host : Bytes := []
  site : Bytes := []
  expires : Int := 0
  deriving DecidableEq

/-- `expires` is when the record goes: its lifetime, or later while kept. -/
structure MemEd3kSource extends Ed3kSource where
  expires : Int
  page : Bytes
  deriving DecidableEq

structure MemEd3kKeyword extends Ed3kKeyword where
  hash : Bytes
  page : Bytes
  deriving DecidableEq

structure MemEd3kNote extends Ed3kNote where
  hash : Bytes
  page : Bytes
  deriving DecidableEq

/-- The records of each file, and how many files each publisher key and site has. -/
structure MemEd3kKeywordTarget where
  files : GoMap Bytes (List MemEd3kKeyword) := ∅
  keyFiles : GoMap Bytes Int := ∅
  siteFiles : GoMap Bytes Int := ∅

structure MemoryEd3k where
  started : Bool := false
  secret : Bytes := []
  rotatedAt : Int := 0
  sources : GoMap Bytes (GoMap Bytes MemEd3kSource) := ∅
  keywords : GoMap Bytes MemEd3kKeywordTarget := ∅
  notes : GoMap Bytes (GoMap Bytes MemEd3kNote) := ∅
  hostTotal : GoMap Bytes Int := ∅
  siteTotal : GoMap Bytes Int := ∅
  total : Int := 0
  fullAt : GoMap (Ed3kKind × Bytes) Int := ∅

/-- `ed3kSignedHash` identifies a signed record, `pageHash` orders the pages. -/
structure Ed3kHashes where
  ed3kSignedHash : Bytes → Bytes
  pageHash : Bytes → Bytes

/-- The order in which a `range` visits each map. -/
structure MapRange where
  order : {K V : Type} → GoMap K V → List (K × V)
  visits : ∀ {K V : Type} (m : GoMap K V), m.Visits (order m)

instance : Inhabited MapRange := ⟨GoMap.pairs,fun _ => .refl _⟩

def second : Int := 1000000000
def hour : Int := 3600 * second

def ed3kSecretPeriod : Int := 24 * hour

def ed3kFullMemory : Ed3kKind → Int
  | .source => 5 * hour
  | _ => 24 * hour

/-- `time.Time.Unix`. -/
def unix (t : Int) : Int := t / second

structure Ed3kHeldKeyword where
  pubKey : Bytes
  site : Bytes
  host : Bytes
  storedAt : Int
  expires : Int
  signedHash : Bytes

/-- Stored longest ago first, and of two stored in the same second the lower key. -/
def lessFresh (a b : Ed3kHeldKeyword) : Bool :=
  if unix a.storedAt ≠ unix b.storedAt then decide (unix a.storedAt < unix b.storedAt)
  else decide (a.pubKey < b.pubKey)

structure Ed3kKeywordView where
  held : List Ed3kHeldKeyword := []
  files : Int := 0
  keyFiles : Int := 0
  siteFiles : Int := 0
  hostTotal : Int
  siteTotal : Int
  total : Int

structure Ed3kKeywordDecision where
  result : Ed3kResult
  replace : Option Bytes := none
  insert : Bool := false
  full : Bool := false

/-- The least fresh held record of a site. -/
def siteHeld (site : Bytes) (held : List Ed3kHeldKeyword) : Option Ed3kHeldKeyword :=
  held.foldl (fun best h =>
    if h.site = site ∧ best.all (fun b => lessFresh h b) = true then some h else best) none

def ownHeld (pubKey : Bytes) (held : List Ed3kHeldKeyword) : Option Ed3kHeldKeyword :=
  held.foldl (fun own h => if h.pubKey = pubKey then some h else own) none

def leastFresh (first : Ed3kHeldKeyword) (held : List Ed3kHeldKeyword) : Ed3kHeldKeyword :=
  held.foldl (fun least h => if lessFresh h least then h else least) first

/-- A publisher renews its own place; a new one takes a free place, that of its site, or
that of the least fresh record. -/
def decideKeyword (v : Ed3kKeywordView) (r : Ed3kKeyword) (lim : Ed3kLimits) : Ed3kKeywordDecision :=
  let ofSite := siteHeld r.site v.held
  match ownHeld r.pubKey v.held with
  | some own =>
    if ¬r.expires > own.expires then { result := .older }
    else if own.site ≠ r.site ∧
        (v.siteTotal ≥ lim.recordsPerSite ∨ (ofSite = none ∧ v.siteFiles ≥ lim.keywordPerSite)) then
      { result := .rejected }
    else if own.host ≠ r.host ∧ v.hostTotal ≥ lim.recordsPerHost then { result := .rejected }
    else { result := .stored, replace := some own.pubKey }
  | none =>
    if v.total ≥ lim.maxRecords then { result := .busy }
    else if v.hostTotal ≥ lim.recordsPerHost ∨ v.siteTotal ≥ lim.recordsPerSite then { result := .rejected }
    else if v.keyFiles ≥ lim.keywordPerKey then { result := .rejected }
    else match v.held with
      | [] =>
        if v.siteFiles ≥ lim.keywordPerSite then { result := .rejected }
        else if v.files ≥ lim.keywordFiles then { result := .full, full := true }
        else { result := .stored, insert := true }
      | first :: _ =>
        match ofSite with
        | some h => { result := .stored, replace := some h.pubKey }
        | none =>
          if v.siteFiles ≥ lim.keywordPerSite then { result := .rejected }
          else if (v.held.length : Int) < lim.keywordPlaces then { result := .stored, insert := true }
          else if r.viaSigner then { result := .rejected }
          else { result := .stored, replace := some (leastFresh first v.held).pubKey }

/-- What the rules need of a target that holds one record per key. The counts of the host
and the site leave out the publisher's own record. -/
structure Ed3kSourceView where
  held : Option Ed3kSource := none
  count : Int
  hostCount : Int
  siteCount : Int
  hostTotal : Int
  siteTotal : Int
  total : Int
  evictable : Bool

structure Ed3kSourceDecision where
  result : Ed3kResult
  evict : Bool := false
  full : Bool := false

def decideSource (v : Ed3kSourceView) (r : Ed3kSource) (lim : Ed3kLimits) : Ed3kSourceDecision :=
  match v.held with
  | some held =>
    if held.host ≠ r.host ∧ (v.hostCount ≥ lim.sourcesPerHost ∨ v.hostTotal ≥ lim.recordsPerHost) then
      { result := .rejected }
    else if held.site ≠ r.site ∧ (v.siteCount ≥ lim.sourcesPerSite ∨ v.siteTotal ≥ lim.recordsPerSite) then
      { result := .rejected }
    else { result := .stored }
  | none =>
    if v.total ≥ lim.maxRecords then { result := .busy }
    else if v.hostTotal ≥ lim.recordsPerHost ∨ v.siteTotal ≥ lim.recordsPerSite ∨
        v.hostCount ≥ lim.sourcesPerHost ∨ v.siteCount ≥ lim.sourcesPerSite then { result := .rejected }
    else if v.count ≥ lim.sourcesPerTarget then
      if v.evictable then { result := .stored, evict := true } else { result := .full, full := true }
    else { result := .stored }

structure Ed3kNoteView where
  held : Option Ed3kNote := none
  count : Int
  hostCount : Int
  siteCount : Int
  hostTotal : Int
  siteTotal : Int
  total : Int

structure Ed3kNoteDecision where
  result : Ed3kResult
  full : Bool := false

def decideNote (v : Ed3kNoteView) (r : Ed3kNote) (lim : Ed3kLimits) : Ed3kNoteDecision :=
  match v.held with
  | some held =>
    if ¬r.expires > held.expires then { result := .older }
    else if held.host ≠ r.host ∧ (v.hostCount ≥ lim.notesPerHost ∨ v.hostTotal ≥ lim.recordsPerHost) then
      { result := .rejected }
    else if held.site ≠ r.site ∧ (v.siteCount ≥ lim.notesPerSite ∨ v.siteTotal ≥ lim.recordsPerSite) then
      { result := .rejected }
    else { result := .stored }
  | none =>
    if v.total ≥ lim.maxRecords then { result := .busy }
    else if v.hostTotal ≥ lim.recordsPerHost ∨ v.siteTotal ≥ lim.recordsPerSite ∨
        v.hostCount ≥ lim.notesPerHost ∨ v.siteCount ≥ lim.notesPerSite then { result := .rejected }
    else if v.count ≥ lim.notesPerTarget then { result := .full, full := true }
    else { result := .stored }

namespace MemEd3kKeywordTarget

def siteSet (recs : List MemEd3kKeyword) : List Bytes := (recs.map (·.site)).dedup

/-- A file counts for a site while a kept record of it has that site. -/
def adjustSites (t : MemEd3kKeywordTarget) (before after : List Bytes) : MemEd3kKeywordTarget :=
  let lost := (before.filter (fun site => !after.contains site)).foldl (fun m site => m.bump site (-1)) t.siteFiles
  { t with
    siteFiles := (after.filter (fun site => !before.contains site)).foldl (fun m site => m.addTo site 1) lost
    keyFiles := t.keyFiles.dropNonPositive }

def fileOf (t : MemEd3kKeywordTarget) (root : Bytes) : List MemEd3kKeyword := (t.files.lookup root).getD []

end MemEd3kKeywordTarget

namespace MemoryEd3k

open MemEd3kKeywordTarget

def sourcesOf (s : MemoryEd3k) (target : Bytes) : GoMap Bytes MemEd3kSource := (s.sources.lookup target).getD ∅
def notesOf (s : MemoryEd3k) (target : Bytes) : GoMap Bytes MemEd3kNote := (s.notes.lookup target).getD ∅

def count (s : MemoryEd3k) (host site : Bytes) (d : Int) : MemoryEd3k :=
  { s with
    hostTotal := s.hostTotal.bump host d
    siteTotal := s.siteTotal.bump site d
    total := s.total + d }

/-- A new secret gives every record a new page key. -/
def rotate (h : Ed3kHashes) (s : MemoryEd3k) (fresh : Bytes) (now : Int) : MemoryEd3k :=
  { s with
    secret := fresh
    rotatedAt := now
    sources := s.sources.mapVals (fun t => t.mapVals (fun x => { x with page := h.pageHash (fresh ++ x.nodeID) }))
    keywords := s.keywords.mapVals (fun t => { t with files := t.files.mapVals (fun recs =>
      recs.map (fun x => { x with page := h.pageHash (fresh ++ x.root ++ x.pubKey) })) })
    notes := s.notes.mapVals (fun t => t.mapVals (fun x => { x with page := h.pageHash (fresh ++ x.pubKey) })) }

/-- The zero value becomes a store with its first secret. -/
def init (h : Ed3kHashes) (s : MemoryEd3k) (fresh : Bytes) (now : Int) : MemoryEd3k :=
  if s.started then s
  else
    let empty : MemoryEd3k := { started := true, secret := s.secret, rotatedAt := s.rotatedAt, total := s.total }
    empty.rotate h fresh now

def dropSource (s : MemoryEd3k) (x : MemEd3kSource) : MemoryEd3k :=
  let t := s.sourcesOf x.target
  if t.lookup x.nodeID ≠ some x then s
  else
    let t := t.erase x.nodeID
    ({ s with sources := s.sources.setOrErase x.target t (GoMap.pairs t).isEmpty }).count x.host x.site (-1)

def sourceView (s : MemoryEd3k) (r : Ed3kSource) (now : Int) : Ed3kSourceView :=
  let t := s.sourcesOf r.target
  let others := (GoMap.pairs t).filter (fun e => e.1 != r.nodeID)
  { held := (t.lookup r.nodeID).map (·.toEd3kSource)
    count := (GoMap.pairs t).length
    hostCount := others.countP (fun e => e.2.host == r.host)
    siteCount := others.countP (fun e => e.2.site == r.site)
    hostTotal := s.hostTotal.tally r.host
    siteTotal := s.siteTotal.tally r.site
    total := s.total
    evictable := others.any (fun e => decide (e.2.lifetimeEnd < now)) }

def markFull (s : MemoryEd3k) (kind : Ed3kKind) (target : Bytes) (full : Bool) (now : Int) : MemoryEd3k :=
  if full then { s with fullAt := s.fullAt.insert (kind,target) now } else s

/-- The first record past its lifetime that the visit of the target meets goes. -/
def evictSource (s : MemoryEd3k) (range : MapRange) (target : Bytes) (now : Int) : MemoryEd3k :=
  match (range.order (s.sourcesOf target)).find? (fun e => decide (e.2.lifetimeEnd < now)) with
  | some e => s.dropSource e.2
  | none => s

def putSource (h : Ed3kHashes) (s : MemoryEd3k) (r : Ed3kSource) : MemoryEd3k :=
  let x : MemEd3kSource := { r with expires := r.lifetimeEnd, page := h.pageHash (s.secret ++ r.nodeID) }
  ({ s with sources := s.sources.insert r.target ((s.sourcesOf r.target).insert r.nodeID x) }).count r.host r.site 1

def storeEd3kSource (h : Ed3kHashes) (lim : Ed3kLimits) (s : MemoryEd3k) (r : Ed3kSource) (fresh : Bytes) (now : Int)
    (range : MapRange) : MemoryEd3k × Ed3kResult :=
  let s := s.init h fresh now
  let held := (s.sourcesOf r.target).lookup r.nodeID
  let d := decideSource (s.sourceView r now) r lim.withDefaults
  let s := s.markFull .source r.target d.full now
  if d.result ≠ .stored then (s,d.result)
  else
    let s := if d.evict then s.evictSource range r.target now else s
    let s := match held with
      | some x => s.dropSource x
      | none => s
    (s.putSource h r,.stored)

def keywordView (s : MemoryEd3k) (r : Ed3kKeyword) : Ed3kKeywordView :=
  let totals : Ed3kKeywordView :=
    { hostTotal := s.hostTotal.tally r.host, siteTotal := s.siteTotal.tally r.site, total := s.total }
  match s.keywords.lookup r.target with
  | none => totals
  | some t => { totals with
      files := (GoMap.pairs t.files).length
      keyFiles := t.keyFiles.tally r.pubKey
      siteFiles := t.siteFiles.tally r.site
      held := (t.fileOf r.root).map (fun x => ⟨x.pubKey,x.site,x.host,x.storedAt,x.expires,x.hash⟩) }

def replaceKeyword (s : MemoryEd3k) (t : MemEd3kKeywordTarget) (root : Bytes) (key : Option Bytes) :
    MemoryEd3k × MemEd3kKeywordTarget :=
  match key.bind (fun k => (t.fileOf root).find? (fun x => x.pubKey == k)) with
  | none => (s,t)
  | some x =>
    (s.count x.host x.site (-1),
      { t with
        files := t.files.insert root ((t.fileOf root).eraseP (fun y => y.pubKey == x.pubKey))
        keyFiles := t.keyFiles.addTo x.pubKey (-1) })

def putKeyword (h : Ed3kHashes) (s : MemoryEd3k) (r : Ed3kKeyword) (replace : Option Bytes) (now : Int) : MemoryEd3k :=
  let t := (s.keywords.lookup r.target).getD {}
  let before := siteSet (t.fileOf r.root)
  let (s,t) := s.replaceKeyword t r.root replace
  let x : MemEd3kKeyword := { r with
    storedAt := now, hash := h.ed3kSignedHash r.signed, page := h.pageHash (s.secret ++ r.root ++ r.pubKey) }
  let recs := t.fileOf r.root ++ [x]
  let t := { t with files := t.files.insert r.root recs, keyFiles := t.keyFiles.addTo r.pubKey 1 }
  let s := s.count r.host r.site 1
  { s with keywords := s.keywords.insert r.target (t.adjustSites before (siteSet recs)) }

/-- `verified` is what the signature check says; it is asked only for a record that is not
the one held. -/
def storeEd3kKeyword (h : Ed3kHashes) (lim : Ed3kLimits) (s : MemoryEd3k) (r : Ed3kKeyword) (fresh : Bytes) (now : Int)
    (verified : Bool) : MemoryEd3k × Ed3kResult :=
  let s := s.init h fresh now
  let held := ((s.keywords.lookup r.target).getD {}).fileOf r.root
  if held.any (fun x => x.pubKey == r.pubKey && x.hash == h.ed3kSignedHash r.signed) then (s,.older)
  else if !verified then (s,.rejected)
  else
    let d := decideKeyword (s.keywordView r) r lim.withDefaults
    let s := s.markFull .keyword r.target d.full now
    if d.result ≠ .stored then (s,d.result) else (s.putKeyword h r d.replace now,.stored)

def noteView (s : MemoryEd3k) (r : Ed3kNote) : Ed3kNoteView :=
  let t := s.notesOf r.target
  let others := (GoMap.pairs t).filter (fun e => e.1 != r.pubKey)
  { held := (t.lookup r.pubKey).map (·.toEd3kNote)
    count := (GoMap.pairs t).length
    hostCount := others.countP (fun e => e.2.host == r.host)
    siteCount := others.countP (fun e => e.2.site == r.site)
    hostTotal := s.hostTotal.tally r.host
    siteTotal := s.siteTotal.tally r.site
    total := s.total }

def putNote (h : Ed3kHashes) (s : MemoryEd3k) (r : Ed3kNote) : MemoryEd3k :=
  let t := s.notesOf r.target
  let s := match t.lookup r.pubKey with
    | some held => s.count held.host held.site (-1)
    | none => s
  let x : MemEd3kNote := { r with hash := h.ed3kSignedHash r.signed, page := h.pageHash (s.secret ++ r.pubKey) }
  ({ s with notes := s.notes.insert r.target ((t.erase r.pubKey).insert r.pubKey x) }).count r.host r.site 1

def storeEd3kNote (h : Ed3kHashes) (lim : Ed3kLimits) (s : MemoryEd3k) (r : Ed3kNote) (fresh : Bytes) (now : Int)
    (verified : Bool) : MemoryEd3k × Ed3kResult :=
  let s := s.init h fresh now
  if ((s.notesOf r.target).lookup r.pubKey).any (fun x => x.hash == h.ed3kSignedHash r.signed) then (s,.older)
  else if !verified then (s,.rejected)
  else
    let d := decideNote (s.noteView r) r lim.withDefaults
    let s := s.markFull .note r.target d.full now
    if d.result ≠ .stored then (s,d.result) else (s.putNote h r,.stored)

def mapSources (s : MemoryEd3k) (f : MemEd3kSource → MemEd3kSource) : MemoryEd3k :=
  { s with sources := s.sources.mapVals (fun t => t.mapVals f) }

def keepEd3kSources (s : MemoryEd3k) (keptBy : Bytes) (till : Int) : MemoryEd3k :=
  s.mapSources (fun x => if x.keptBy = keptBy ∧ till > x.expires then { x with expires := till } else x)

def releaseEd3kSourcesByPrefix (s : MemoryEd3k) (start : Bytes) : MemoryEd3k :=
  s.mapSources (fun x => if x.keptBy ≠ [] ∧ start <+: x.keptBy
    then { x with keptBy := [], expires := x.lifetimeEnd } else x)

def releaseEd3kSources (s : MemoryEd3k) (keptBy : Bytes) : MemoryEd3k :=
  s.mapSources (fun x => if x.keptBy = keptBy then { x with keptBy := [], expires := x.lifetimeEnd } else x)

/-- The sources past their time, with how many went. -/
def expireSources (range : MapRange) (now : Int) (s : MemoryEd3k) : MemoryEd3k × Nat :=
  (range.order s.sources).foldl (fun state t => (range.order t.2).foldl (fun state e =>
    if e.2.expires > now then state else (state.1.dropSource e.2,state.2 + 1)) state) (s,0)

def expireFile (now : Int) (state : MemoryEd3k × MemEd3kKeywordTarget × Nat) (file : Bytes × List MemEd3kKeyword) :
    MemoryEd3k × MemEd3kKeywordTarget × Nat :=
  let (s,t,n) := state
  let kept := file.2.filter (fun x => decide (x.expires > now))
  let gone := file.2.filter (fun x => !decide (x.expires > now))
  let s := gone.foldl (fun s x => s.count x.host x.site (-1)) s
  let t := { t with
    keyFiles := gone.foldl (fun m (x : MemEd3kKeyword) => m.addTo x.pubKey (-1)) t.keyFiles
    files := t.files.setOrErase file.1 kept kept.isEmpty }
  (s,t.adjustSites (siteSet file.2) (siteSet kept),n + gone.length)

def expireKeywordTarget (range : MapRange) (now : Int) (state : MemoryEd3k × Nat)
    (target : Bytes × MemEd3kKeywordTarget) : MemoryEd3k × Nat :=
  let (s,t,n) := (range.order target.2.files).foldl (expireFile now) (state.1,target.2,state.2)
  ({ s with keywords := s.keywords.setOrErase target.1 t (GoMap.pairs t.files).isEmpty },n)

def expireNoteTarget (range : MapRange) (now : Int) (state : MemoryEd3k × Nat)
    (target : Bytes × GoMap Bytes MemEd3kNote) : MemoryEd3k × Nat :=
  let (s,t,n) := (range.order target.2).foldl (fun state e =>
    if e.2.expires > now then state
    else (state.1.count e.2.host e.2.site (-1),state.2.1.erase e.1,state.2.2 + 1)) (state.1,target.2,state.2)
  ({ s with notes := s.notes.setOrErase target.1 t (GoMap.pairs t).isEmpty },n)

def expireFull (s : MemoryEd3k) (now : Int) : MemoryEd3k :=
  { s with fullAt := (GoMap.pairs s.fullAt).foldl (fun m e =>
    if now - e.2 ≥ ed3kFullMemory e.1.1 then m.erase e.1 else m) s.fullAt }

def expireEd3k (h : Ed3kHashes) (s : MemoryEd3k) (fresh : Bytes) (now : Int) (range : MapRange) : MemoryEd3k × Nat :=
  let s := s.init h fresh now
  let (s,n) := s.expireSources range now
  let (s,n) := (range.order s.keywords).foldl (expireKeywordTarget range now) (s,n)
  let (s,n) := (range.order s.notes).foldl (expireNoteTarget range now) (s,n)
  let s := s.expireFull now
  (if now - s.rotatedAt ≥ ed3kSecretPeriod then s.rotate h fresh now else s,n)

end MemoryEd3k

/-- A call on the store. Each draws its own secret, if it needs one, and visits maps in an
order of its own. -/
inductive Ed3kOp where
  | storeSource (r : Ed3kSource) (fresh : Bytes) (now : Int) (range : MapRange)
  | storeKeyword (r : Ed3kKeyword) (fresh : Bytes) (now : Int) (verified : Bool)
  | storeNote (r : Ed3kNote) (fresh : Bytes) (now : Int) (verified : Bool)
  | keep (keptBy : Bytes) (till : Int)
  | release (keptBy : Bytes)
  | releaseByStart (start : Bytes)
  | expire (fresh : Bytes) (now : Int) (range : MapRange)

def MemoryEd3k.step (h : Ed3kHashes) (lim : Ed3kLimits) (s : MemoryEd3k) : Ed3kOp → MemoryEd3k
  | .storeSource r fresh now range => (s.storeEd3kSource h lim r fresh now range).1
  | .storeKeyword r fresh now verified => (s.storeEd3kKeyword h lim r fresh now verified).1
  | .storeNote r fresh now verified => (s.storeEd3kNote h lim r fresh now verified).1
  | .keep keptBy till => s.keepEd3kSources keptBy till
  | .release keptBy => s.releaseEd3kSources keptBy
  | .releaseByStart start => s.releaseEd3kSourcesByPrefix start
  | .expire fresh now range => (s.expireEd3k h fresh now range).1

def MemoryEd3k.run (h : Ed3kHashes) (lim : Ed3kLimits) (ops : List Ed3kOp) : MemoryEd3k :=
  ops.foldl (MemoryEd3k.step h lim) {}

end ENode.Storage
