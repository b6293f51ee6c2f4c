import ENode.Ed3kStore

/-! The ed3k store stays within its limits. Every counter is the count over the records
held, so what the rules decide from the counters bounds the records themselves. -/
namespace ENode.Storage

open GoText MemEd3kKeywordTarget List

/-- The host and site a record takes a place of. -/
abbrev Place := Bytes × Bytes

def MemEd3kSource.place (x : MemEd3kSource) : Place := (x.host,x.site)
def MemEd3kKeyword.place (x : MemEd3kKeyword) : Place := (x.host,x.site)
def MemEd3kNote.place (x : MemEd3kNote) : Place := (x.host,x.site)

/-- The places under a target that holds one record per key. -/
def placesOf {R : Type} (place : R → Place) (t : GoMap Bytes R) : List Place := t.flatVals (fun x => [place x])

def pubKeys (recs : List MemEd3kKeyword) : List Bytes := recs.map (·.pubKey)
def recPlaces (recs : List MemEd3kKeyword) : List Place := recs.map MemEd3kKeyword.place

def MemEd3kKeywordTarget.places (t : MemEd3kKeywordTarget) : List Place := t.files.flatVals recPlaces

/-- The publisher keys of a target's records: a key once for each file it has. -/
def MemEd3kKeywordTarget.keys (t : MemEd3kKeywordTarget) : List Bytes := t.files.flatVals pubKeys

/-- The sites of a target's files: a site once for each file it has a record of. -/
def MemEd3kKeywordTarget.sites (t : MemEd3kKeywordTarget) : List Bytes := t.files.flatVals siteSet

def MemoryEd3k.places (s : MemoryEd3k) : List Place :=
  s.sources.flatVals (placesOf MemEd3kSource.place) ++ (s.keywords.flatVals MemEd3kKeywordTarget.places ++
    s.notes.flatVals (placesOf MemEd3kNote.place))

structure Ed3kLimits.Positive (lim : Ed3kLimits) : Prop where
  sourcesPerTarget : 0 < lim.sourcesPerTarget
  sourcesPerHost : 0 < lim.sourcesPerHost
  sourcesPerSite : 0 < lim.sourcesPerSite
  keywordFiles : 0 < lim.keywordFiles
  keywordPlaces : 0 < lim.keywordPlaces
  keywordPerKey : 0 < lim.keywordPerKey
  keywordPerSite : 0 < lim.keywordPerSite
  notesPerTarget : 0 < lim.notesPerTarget
  notesPerHost : 0 < lim.notesPerHost
  notesPerSite : 0 < lim.notesPerSite
  recordsPerHost : 0 < lim.recordsPerHost
  recordsPerSite : 0 < lim.recordsPerSite
  maxRecords : 0 < lim.maxRecords

theorem Ed3kLimits.withDefaults_positive (lim : Ed3kLimits) : lim.withDefaults.Positive := by
  have set : ∀ v d : Int, 0 < d → 0 < if v ≤ 0 then d else v := by
    intro _ _ _
    split <;> omega
  constructor <;> exact set _ _ (by decide)

/-- The sources of a target, each under its own node. -/
structure SourceTarget (lim : Ed3kLimits) (target : Bytes) (t : GoMap Bytes MemEd3kSource) : Prop where
  fits : Fits lim.sourcesPerTarget lim.sourcesPerHost lim.sourcesPerSite (placesOf MemEd3kSource.place t)
  keyed : t.All (fun node x => x.target = target ∧ x.nodeID = node)

/-- The notes of a target, each under its own key. -/
structure NoteTarget (lim : Ed3kLimits) (target : Bytes) (t : GoMap Bytes MemEd3kNote) : Prop where
  fits : Fits lim.notesPerTarget lim.notesPerHost lim.notesPerSite (placesOf MemEd3kNote.place t)
  keyed : t.All (fun key x => x.target = target ∧ x.pubKey = key)

/-- The records of a file of a keyword target: one per publisher key. -/
structure KeywordFile (lim : Ed3kLimits) (target root : Bytes) (recs : List MemEd3kKeyword) : Prop where
  filled : recs ≠ []
  keyed : ∀ x ∈ recs, x.target = target ∧ x.root = root
  unique : (pubKeys recs).Nodup
  places : (recs.length : Int) ≤ lim.keywordPlaces

structure KeywordTarget (lim : Ed3kLimits) (target : Bytes) (t : MemEd3kKeywordTarget) : Prop where
  each : t.files.All (KeywordFile lim target)
  files : ((GoMap.pairs t.files).length : Int) ≤ lim.keywordFiles
  keyFiles : t.keyFiles.Tallies t.keys
  siteFiles : t.siteFiles.Tallies t.sites
  perKey : ∀ key, (t.keys.count key : Int) ≤ lim.keywordPerKey
  perSite : ∀ site, (t.sites.count site : Int) ≤ lim.keywordPerSite

namespace MemoryEd3k

/-- The counters over all kinds are the counts over the places, and these are within the
limits over all kinds. -/
structure TotalsOf (lim : Ed3kLimits) (hostTotal siteTotal : GoMap Bytes Int) (total : Int) (l : List Place) :
    Prop where
  hosts : hostTotal.Tallies (l.map Prod.fst)
  sites : siteTotal.Tallies (l.map Prod.snd)
  total : total = l.length
  fits : Fits lim.maxRecords lim.recordsPerHost lim.recordsPerSite l

abbrev Totals (lim : Ed3kLimits) (s : MemoryEd3k) (l : List Place) : Prop :=
  TotalsOf lim s.hostTotal s.siteTotal s.total l

/-- Every limit holds of the records held, and every counter is the count over them. -/
structure Within (lim : Ed3kLimits) (s : MemoryEd3k) : Prop where
  sources : s.sources.All (SourceTarget lim)
  keywords : s.keywords.All (KeywordTarget lim)
  notes : s.notes.All (NoteTarget lim)
  totals : s.Totals lim s.places

/-- Within the limits, with its maps made. -/
structure Live (lim : Ed3kLimits) (s : MemoryEd3k) : Prop extends s.Within lim where
  started : s.started = true

section
variable {lim : Ed3kLimits} {s : MemoryEd3k}

namespace Totals

theorem perm (totals : s.Totals lim l) (same : l.Perm l') : s.Totals lim l' :=
  ⟨totals.hosts.perm (same.map _),totals.sites.perm (same.map _),totals.total.trans (by rw [same.length_eq]),
    totals.fits.perm same⟩

variable {host site : Bytes}

theorem add (totals : s.Totals lim l)
    (room : Room lim.maxRecords lim.recordsPerHost lim.recordsPerSite l (host,site)) :
    (s.count host site 1).Totals lim ((host,site) :: l) := by
  refine ⟨totals.hosts.bump_one,totals.sites.bump_one,?_,totals.fits.add room⟩
  have total := totals.total
  change s.total + 1 = _
  rw [length_cons]
  omega

theorem back (totals : s.Totals lim ((host,site) :: l)) : (s.count host site (-1)).Totals lim l := by
  refine ⟨totals.hosts.bump_back,totals.sites.bump_back,?_,totals.fits.tail⟩
  have total := totals.total
  rw [length_cons] at total
  change s.total + -1 = _
  omega

theorem back_all (gone : List MemEd3kKeyword) (totals : s.Totals lim (recPlaces gone ++ l)) :
    (gone.foldl (fun s x => s.count x.host x.site (-1)) s).Totals lim l := by
  induction gone generalizing s with
  | nil => exact totals
  | cons _ _ ih => exact ih totals.back

theorem room (totals : s.Totals lim l) (total : s.total < lim.maxRecords)
    (hosts : s.hostTotal.tally host < lim.recordsPerHost) (sites : s.siteTotal.tally site < lim.recordsPerSite) :
    Room lim.maxRecords lim.recordsPerHost lim.recordsPerSite l (host,site) :=
  ⟨totals.total ▸ total,totals.hosts host ▸ hosts,totals.sites site ▸ sites⟩

theorem room_back (totals : s.Totals lim (old :: l))
    (hosts : old.1 ≠ host → s.hostTotal.tally host < lim.recordsPerHost)
    (sites : old.2 ≠ site → s.siteTotal.tally site < lim.recordsPerSite) :
    Room lim.maxRecords lim.recordsPerHost lim.recordsPerSite l (host,site) := by
  refine totals.fits.room (host,site) (fun other => ?_) (fun other => ?_) <;> dsimp only at other ⊢
  · have below := hosts other
    rwa [totals.hosts,map_cons,count_cons_of_ne other] at below
  · have below := sites other
    rwa [totals.sites,map_cons,count_cons_of_ne other] at below

end Totals

theorem empty_within (positive : lim.Positive) (secret : Bytes) (rotatedAt : Int) (started : Bool) :
    Within lim { secret := secret, rotatedAt := rotatedAt, started := started } := by
  refine ⟨?_,?_,?_,⟨fun _ => rfl,fun _ => rfl,rfl,?_⟩⟩
  · intro target t known; simp at known
  · intro target t known; simp at known
  · intro _ _ known; simp at known
  · exact Fits.nil positive.maxRecords positive.recordsPerHost positive.recordsPerSite

section
variable {t : GoMap Bytes R}

theorem placesOf_split (held : t.lookup k = some x) :
    (placesOf place t).Perm (place x :: placesOf place (t.erase k)) := by
  have split := t.flatVals_split (fun x => [place x]) k
  rw [held] at split
  exact split

theorem placesOf_insert (k : Bytes) (x : R) : placesOf place (t.insert k x) = place x :: placesOf place (t.erase k) :=
  GoMap.flatVals_insert ..

theorem placesOf_fresh (fresh : t.lookup k = none) : placesOf place (t.erase k) = placesOf place t := by
  rw [placesOf,placesOf,GoMap.flatVals,GoMap.flatVals,GoMap.pairs_erase_fresh t fresh]

theorem placesOf_eq_map : placesOf place t = (GoMap.pairs t).map (fun e => place e.2) := map_eq_flatMap.symm

theorem placesOf_length : (placesOf place t).length = (GoMap.pairs t).length := by
  rw [placesOf_eq_map,length_map]

theorem placesOf_empty (empty : (GoMap.pairs t).isEmpty = true) : placesOf place t = [] := by
  rw [placesOf,GoMap.flatVals,isEmpty_iff.mp empty,flatMap_nil]

theorem placesOf_getD {m : GoMap Bytes (GoMap Bytes R)} (target : Bytes) : (m.flatVals (placesOf place)).Perm
      (placesOf place ((m.lookup target).getD ∅) ++ GoMap.flatVals (placesOf place) (m.erase target)) := by
  have split := m.flatVals_split (placesOf place) target
  rwa [GoMap.flatVals_getD _ _ _ ∅ rfl] at split

theorem count_others (place : R → Place) (f : Place → Bytes) (k v : Bytes) :
    ((GoMap.pairs t).filter (fun e => e.1 != k)).countP (fun e => f (place e.2) == v) =
      ((placesOf place (t.erase k)).map f).count v := by
  rw [List.Perm.countP_eq _ (t.pairs_filter_ne k),placesOf_eq_map,map_map,List.count,countP_map]
  rfl

end

def besidesSources (s : MemoryEd3k) (target : Bytes) : List Place :=
  GoMap.flatVals (placesOf MemEd3kSource.place) (s.sources.erase target) ++
    (s.keywords.flatVals MemEd3kKeywordTarget.places ++ s.notes.flatVals (placesOf MemEd3kNote.place))

theorem places_sources (s : MemoryEd3k) (target : Bytes) :
    s.places.Perm (placesOf MemEd3kSource.place (s.sourcesOf target) ++ s.besidesSources target) := by
  unfold places besidesSources
  rw [← append_assoc (placesOf _ _)]
  exact (placesOf_getD target).append_right _

theorem Within.sourcesOf (within : s.Within lim) (positive : lim.Positive) (target : Bytes) :
    SourceTarget lim target (s.sourcesOf target) := by
  unfold MemoryEd3k.sourcesOf
  cases known : s.sources.lookup target with
  | none =>
    refine ⟨Fits.nil positive.sourcesPerTarget positive.sourcesPerHost positive.sourcesPerSite,fun _ _ held => ?_⟩
    simp at held
  | some t => exact within.sources target t known

theorem Live.setSources (live : s.Live lim) {s' : MemoryEd3k}
    (empty : Bool) (sources : s'.sources = s.sources.setOrErase target t empty) (keywords : s'.keywords = s.keywords)
    (notes : s'.notes = s.notes) (started : s'.started = s.started) (new : SourceTarget lim target t)
    (nothing : empty = true → (GoMap.pairs t).isEmpty = true)
    (totals : s'.Totals lim (placesOf MemEd3kSource.place t ++ s.besidesSources target)) : s'.Live lim := by
  have places : s'.places = placesOf MemEd3kSource.place t ++ s.besidesSources target := by
    rw [MemoryEd3k.places,sources,keywords,notes,GoMap.flatVals_setOrErase _ _ _ _ _ (fun yes => placesOf_empty (nothing yes)),
      append_assoc]
    rfl
  exact ⟨⟨sources ▸ live.sources.setOrErase (fun _ => new),keywords ▸ live.keywords,notes ▸ live.notes,
    places ▸ totals⟩,started ▸ live.started⟩

theorem sourcesOf_setOrErase (m : GoMap Bytes (GoMap Bytes MemEd3kSource)) (target : Bytes)
    (t : GoMap Bytes MemEd3kSource) :
    ((m.setOrErase target t (GoMap.pairs t).isEmpty).lookup target).getD ∅ = t := by
  rw [GoMap.lookup_setOrErase,if_pos rfl]
  split
  next empty =>
    apply AList.ext
    have none : t.entries = [] := by simpa [GoMap.pairs] using empty
    rw [none]
    rfl
  · rfl

theorem Live.dropSource (live : s.Live lim) (positive : lim.Positive) (x : MemEd3kSource) :
    (s.dropSource x).Live lim := by
  unfold MemoryEd3k.dropSource
  dsimp only
  split
  · exact live
  next held =>
    have held := not_not.mp held
    have old := live.sourcesOf positive x.target
    have split : (placesOf MemEd3kSource.place _).Perm _ := placesOf_split held
    refine live.setSources (t := (s.sourcesOf x.target).erase x.nodeID) _ rfl rfl rfl rfl ⟨?_,?_⟩ id ?_
    · exact (old.fits.perm split).tail
    · exact old.keyed.erase _
    · exact (live.totals.perm ((s.places_sources x.target).trans (split.append_right _))).back

theorem dropSource_places (s : MemoryEd3k) {x : MemEd3kSource} (held : (s.sourcesOf x.target).lookup x.nodeID = some x) :
    s.places.Perm (x.place :: (s.dropSource x).places) ∧
      (s.dropSource x).sourcesOf x.target = (s.sourcesOf x.target).erase x.nodeID := by
  have target : (s.dropSource x).sourcesOf x.target = (s.sourcesOf x.target).erase x.nodeID := by
    unfold MemoryEd3k.dropSource
    rw [if_neg (not_not.mpr held)]
    exact sourcesOf_setOrErase ..
  have others : (s.dropSource x).besidesSources x.target = s.besidesSources x.target := by
    unfold MemoryEd3k.dropSource besidesSources
    rw [if_neg (not_not.mpr held)]
    change GoMap.flatVals _ (AList.erase _ (GoMap.setOrErase ..)) ++ _ = _
    rw [GoMap.erase_setOrErase]
    rfl
  refine ⟨?_,target⟩
  have after := (s.dropSource x).places_sources x.target
  rw [target,others] at after
  exact ((s.places_sources x.target).trans ((placesOf_split held).append_right _)).trans (after.symm.cons _)

theorem Live.putSource (live : s.Live lim) (positive : lim.Positive) (h : Ed3kHashes) (r : Ed3kSource)
    (fresh : (s.sourcesOf r.target).lookup r.nodeID = none)
    (there : Room lim.sourcesPerTarget lim.sourcesPerHost lim.sourcesPerSite
      (placesOf MemEd3kSource.place (s.sourcesOf r.target)) (r.host,r.site))
    (all : Room lim.maxRecords lim.recordsPerHost lim.recordsPerSite s.places (r.host,r.site)) :
    (s.putSource h r).Live lim := by
  have old := live.sourcesOf positive r.target
  unfold MemoryEd3k.putSource
  refine live.setSources false rfl rfl rfl rfl ⟨?_,?_⟩ (absurd · Bool.false_ne_true) ?_
  · rw [placesOf_insert,placesOf_fresh fresh]
    exact old.fits.add there
  · exact old.keyed.setOrErase (b := false) (fun _ => ⟨rfl,rfl⟩)
  · rw [placesOf_insert,placesOf_fresh fresh]
    exact (live.totals.add all).perm ((s.places_sources r.target).cons _)

theorem decideSource_renews {v : Ed3kSourceView} (held : v.held = some x)
    (stored : (decideSource v r lim).result = .stored) : (decideSource v r lim).evict = false ∧
      (x.host ≠ r.host → v.hostCount < lim.sourcesPerHost ∧ v.hostTotal < lim.recordsPerHost) ∧
      (x.site ≠ r.site → v.siteCount < lim.sourcesPerSite ∧ v.siteTotal < lim.recordsPerSite) := by
  unfold decideSource at stored ⊢
  rw [held] at stored ⊢
  dsimp only at stored ⊢
  split_ifs at stored ⊢ with host site
  exact ⟨rfl,fun other => by simpa [other] using host,fun other => by simpa [other] using site⟩

variable {r : Ed3kSource}

theorem decideSource_adds {v : Ed3kSourceView} (none : v.held = none)
    (stored : (decideSource v r lim).result = .stored) :
    v.total < lim.maxRecords ∧ v.hostTotal < lim.recordsPerHost ∧ v.siteTotal < lim.recordsPerSite ∧
      v.hostCount < lim.sourcesPerHost ∧ v.siteCount < lim.sourcesPerSite ∧
      if (decideSource v r lim).evict then v.evictable = true else v.count < lim.sourcesPerTarget := by
  unfold decideSource at stored ⊢
  rw [none] at stored ⊢
  dsimp only at stored ⊢
  split_ifs at stored with busy reject room evictable
  · rw [if_neg busy,if_neg reject,if_pos room,if_pos evictable]
    exact ⟨by omega,by omega,by omega,by omega,by omega,evictable⟩
  · rw [if_neg busy,if_neg reject,if_neg room]
    exact ⟨by omega,by omega,by omega,by omega,by omega,Int.not_le.mp room⟩

theorem Live.markFull (live : s.Live lim) (kind : Ed3kKind) (target : Bytes) (full : Bool) (now : Int) :
    (s.markFull kind target full now).Live lim := by
  unfold MemoryEd3k.markFull
  split
  · exact ⟨⟨live.sources,live.keywords,live.notes,live.totals⟩,live.started⟩
  · exact live

/-- A node's own record gives its place to the new one. -/
theorem Live.renewSource (live : s.Live lim) (positive : lim.Positive) (h : Ed3kHashes) (now : Int)
    (held : (s.sourcesOf r.target).lookup r.nodeID = some x)
    (stored : (decideSource (s.sourceView r now) r lim).result = .stored) :
    ((s.dropSource x).putSource h r).Live lim := by
  have old := live.sourcesOf positive r.target
  obtain ⟨target,node⟩ := old.keyed _ x held
  obtain ⟨-,host,site⟩ := decideSource_renews (x := x.toEd3kSource) (by simp [sourceView,held]) stored
  obtain ⟨places,after⟩ := s.dropSource_places (x := x) (by rwa [target,node])
  rw [target,node] at after
  refine (live.dropSource positive x).putSource positive h r ?_ ?_ ?_
  · rw [after,GoMap.lookup_erase_ite,if_pos rfl]
  · rw [after]
    refine (old.fits.perm (placesOf_split held)).room (r.host,r.site) (fun other => ?_) (fun other => ?_)
    · exact count_others MemEd3kSource.place Prod.fst r.nodeID r.host ▸ (host other).1
    · exact count_others MemEd3kSource.place Prod.snd r.nodeID r.site ▸ (site other).1
  · exact (live.totals.perm places).room_back (fun other => (host other).2) (fun other => (site other).2)

theorem evictSource_some (range : MapRange) (evictable : (s.sourceView r now).evictable = true) :
    ∃ e : Bytes × MemEd3kSource, (s.sourcesOf r.target).lookup e.1 = some e.2 ∧ s.evictSource range r.target now = s.dropSource e.2 := by
  have visits := range.visits (s.sourcesOf r.target)
  obtain ⟨e,other,past⟩ := any_eq_true.mp evictable
  have there : e ∈ range.order (s.sourcesOf r.target) := visits.mem_iff.mpr (mem_of_mem_filter other)
  have some : ((range.order (s.sourcesOf r.target)).find? (fun e => decide (e.2.lifetimeEnd < now))).isSome :=
    find?_isSome.mpr ⟨e,there,past⟩
  obtain ⟨found,first⟩ := Option.isSome_iff_exists.mp some
  refine ⟨found,(visits.mem found.1 found.2).mp (mem_of_find?_eq_some first),?_⟩
  rw [evictSource,first]

theorem Live.addSource (live : s.Live lim) (positive : lim.Positive) (h : Ed3kHashes) (range : MapRange)
    (now : Int) (none : (s.sourcesOf r.target).lookup r.nodeID = none)
    (stored : (decideSource (s.sourceView r now) r lim).result = .stored) :
    ((if (decideSource (s.sourceView r now) r lim).evict then s.evictSource range r.target now else s).putSource h r).Live
      lim := by
  have old := live.sourcesOf positive r.target
  obtain ⟨total,hosts,sites,host,site,room⟩ := decideSource_adds (by simp [sourceView,none]) stored
  have all := live.totals.room total hosts sites
  have hostRoom : (((placesOf MemEd3kSource.place (s.sourcesOf r.target)).map Prod.fst).count r.host : Int) <
      lim.sourcesPerHost := by
    rw [← placesOf_fresh none]
    exact count_others MemEd3kSource.place Prod.fst r.nodeID r.host ▸ host
  have siteRoom : (((placesOf MemEd3kSource.place (s.sourcesOf r.target)).map Prod.snd).count r.site : Int) <
      lim.sourcesPerSite := by
    rw [← placesOf_fresh none]
    exact count_others MemEd3kSource.place Prod.snd r.nodeID r.site ▸ site
  split
  next evict =>
    rw [if_pos evict] at room
    obtain ⟨e,held,evicted⟩ := evictSource_some range room
    obtain ⟨target,node⟩ := old.keyed _ _ held
    obtain ⟨places,after⟩ := s.dropSource_places (x := e.2) (by rwa [target,node])
    rw [target,node] at after
    have split : (placesOf MemEd3kSource.place _).Perm _ := placesOf_split held
    rw [evicted]
    refine (live.dropSource positive e.2).putSource positive h r ?_ ?_ ?_
    · rw [after,GoMap.lookup_erase_ite,none,ite_self]
    · rw [after]
      rw [(split.map Prod.fst).count_eq] at hostRoom
      rw [(split.map Prod.snd).count_eq] at siteRoom
      refine (old.fits.perm split).room (r.host,r.site) (fun _ => ?_) (fun _ => ?_)
      · exact lt_of_le_of_lt (Int.ofNat_le.mpr count_le_count_cons) hostRoom
      · exact lt_of_le_of_lt (Int.ofNat_le.mpr count_le_count_cons) siteRoom
    · exact (live.totals.perm places).room_back (fun _ => hosts) (fun _ => sites)
  next keep =>
    rw [if_neg keep] at room
    exact live.putSource positive h r none ⟨placesOf_length ▸ room,hostRoom,siteRoom⟩ all

theorem Live.storeSource (live : s.Live lim.withDefaults) (h : Ed3kHashes) (r : Ed3kSource) (fresh : Bytes) (now : Int)
    (range : MapRange) : (s.storeEd3kSource h lim r fresh now range).1.Live lim.withDefaults := by
  have positive := lim.withDefaults_positive
  have marked : ∀ full, (s.markFull .source r.target full now).Live lim.withDefaults :=
    fun full => live.markFull _ _ full now
  have same : ∀ full, (s.markFull .source r.target full now).sourcesOf r.target = s.sourcesOf r.target := by
    intro full
    cases full <;> rfl
  have view : ∀ full, (s.markFull .source r.target full now).sourceView r now = s.sourceView r now := by
    intro full
    cases full <;> rfl
  have started : s.init h fresh now = s := if_pos live.started
  unfold storeEd3kSource
  rw [started]
  dsimp only
  split
  · exact marked _
  next stored =>
    have stored := not_not.mp stored
    cases held : (s.sourcesOf r.target).lookup r.nodeID with
    | none =>
      dsimp only
      have added := (marked (decideSource (s.sourceView r now) r lim.withDefaults).full).addSource positive h range
        (r := r) now (by rwa [same]) (by rwa [view])
      rwa [view] at added
    | some x =>
      dsimp only
      have evict := (decideSource_renews (x := x.toEd3kSource) (by simp [sourceView,held]) stored).1
      rw [evict]
      exact (marked _).renewSource positive h now (by rwa [same]) (by rwa [view])

def besidesNotes (s : MemoryEd3k) (target : Bytes) : List Place :=
  s.sources.flatVals (placesOf MemEd3kSource.place) ++ (s.keywords.flatVals MemEd3kKeywordTarget.places ++
    GoMap.flatVals (placesOf MemEd3kNote.place) (s.notes.erase target))

theorem perm_innermost {a b c d e : List α} (same : c.Perm (d ++ e)) :
    (a ++ (b ++ c)).Perm (d ++ (a ++ (b ++ e))) := by
  have inner : (b ++ c).Perm (d ++ (b ++ e)) := (same.append_left b).trans (perm_append_comm_assoc b d e)
  exact (inner.append_left a).trans (perm_append_comm_assoc a d _)

theorem places_notes (s : MemoryEd3k) (target : Bytes) :
    s.places.Perm (placesOf MemEd3kNote.place (s.notesOf target) ++ s.besidesNotes target) :=
  perm_innermost (placesOf_getD target)

theorem Within.notesOf (within : s.Within lim) (positive : lim.Positive) (target : Bytes) :
    NoteTarget lim target (s.notesOf target) := by
  unfold MemoryEd3k.notesOf
  cases known : s.notes.lookup target with
  | none =>
    refine ⟨Fits.nil positive.notesPerTarget positive.notesPerHost positive.notesPerSite,fun _ _ held => ?_⟩
    simp at held
  | some t => exact within.notes target t known

theorem Live.setNotes (live : s.Live lim) {s' : MemoryEd3k}
    (empty : Bool) (sources : s'.sources = s.sources) (keywords : s'.keywords = s.keywords)
    (notes : s'.notes = s.notes.setOrErase target t empty) (started : s'.started = s.started)
    (new : NoteTarget lim target t) (nothing : empty = true → (GoMap.pairs t).isEmpty = true)
    (totals : s'.Totals lim (placesOf MemEd3kNote.place t ++ s.besidesNotes target)) : s'.Live lim := by
  have places : (placesOf MemEd3kNote.place t ++ s.besidesNotes target).Perm s'.places := by
    rw [MemoryEd3k.places,sources,keywords,notes,
      GoMap.flatVals_setOrErase _ _ _ _ _ (fun yes => placesOf_empty (nothing yes))]
    exact (perm_innermost (List.Perm.refl _)).symm
  exact ⟨⟨sources ▸ live.sources,keywords ▸ live.keywords,notes ▸ live.notes.setOrErase (fun _ => new),
    totals.perm places⟩,started ▸ live.started⟩

theorem decideNote_renews {v : Ed3kNoteView} {r x : Ed3kNote} (held : v.held = some x)
    (stored : (decideNote v r lim).result = .stored) :
    (x.host ≠ r.host → v.hostCount < lim.notesPerHost ∧ v.hostTotal < lim.recordsPerHost) ∧
      (x.site ≠ r.site → v.siteCount < lim.notesPerSite ∧ v.siteTotal < lim.recordsPerSite) := by
  unfold decideNote at stored
  rw [held] at stored
  dsimp only at stored
  split_ifs at stored with _ host site
  exact ⟨fun other => by simpa [other] using host,fun other => by simpa [other] using site⟩

theorem decideNote_adds {v : Ed3kNoteView} {r : Ed3kNote} (none : v.held = none)
    (stored : (decideNote v r lim).result = .stored) :
    v.total < lim.maxRecords ∧ v.hostTotal < lim.recordsPerHost ∧ v.siteTotal < lim.recordsPerSite ∧
      v.hostCount < lim.notesPerHost ∧ v.siteCount < lim.notesPerSite ∧ v.count < lim.notesPerTarget := by
  unfold decideNote at stored
  rw [none] at stored
  dsimp only at stored
  split_ifs at stored with busy reject full
  omega

theorem Live.putNote (live : s.Live lim) (positive : lim.Positive) (h : Ed3kHashes) {r : Ed3kNote}
    (stored : (decideNote (s.noteView r) r lim).result = .stored) : (s.putNote h r).Live lim := by
  have old := live.notesOf positive r.target
  have others := live.totals.perm (s.places_notes r.target)
  have again : placesOf MemEd3kNote.place (((s.notesOf r.target).erase r.pubKey).erase r.pubKey) =
      placesOf MemEd3kNote.place ((s.notesOf r.target).erase r.pubKey) := by
    refine placesOf_fresh ?_
    rw [GoMap.lookup_erase_ite,if_pos rfl]
  unfold MemoryEd3k.putNote
  dsimp only
  rcases Option.eq_none_or_eq_some ((s.notesOf r.target).lookup r.pubKey) with none | ⟨x,held⟩
  · obtain ⟨total,hosts,sites,host,site,room⟩ := decideNote_adds (by simp [noteView,none]) stored
    rw [none]
    dsimp only
    refine live.setNotes false rfl rfl rfl rfl ⟨?_,?_⟩ (absurd · Bool.false_ne_true) ?_
    · rw [placesOf_insert,again,placesOf_fresh none]
      refine old.fits.add ⟨placesOf_length ▸ room,?_,?_⟩
      · exact placesOf_fresh none ▸ count_others MemEd3kNote.place Prod.fst r.pubKey r.host ▸ host
      · exact placesOf_fresh none ▸ count_others MemEd3kNote.place Prod.snd r.pubKey r.site ▸ site
    · exact (old.keyed.erase _).setOrErase (b := false) (fun _ => ⟨rfl,rfl⟩)
    · rw [placesOf_insert,again,placesOf_fresh none]
      exact others.add (others.room total hosts sites)
  · obtain ⟨host,site⟩ := decideNote_renews (x := x.toEd3kNote) (by simp [noteView,held]) stored
    have split : (placesOf MemEd3kNote.place _).Perm _ := placesOf_split held
    rw [held]
    dsimp only
    refine live.setNotes false rfl rfl rfl rfl ⟨?_,?_⟩ (absurd · Bool.false_ne_true) ?_
    · rw [placesOf_insert,again]
      refine (old.fits.perm split).tail.add ((old.fits.perm split).room _ (fun other => ?_) (fun other => ?_))
      · exact count_others MemEd3kNote.place Prod.fst r.pubKey r.host ▸ (host other).1
      · exact count_others MemEd3kNote.place Prod.snd r.pubKey r.site ▸ (site other).1
    · exact (old.keyed.erase _).setOrErase (b := false) (fun _ => ⟨rfl,rfl⟩)
    · rw [placesOf_insert,again]
      have given := others.perm (split.append_right _)
      exact given.back.add (given.room_back (fun other => (host other).2) (fun other => (site other).2))

theorem Live.storeNote (live : s.Live lim.withDefaults) (h : Ed3kHashes) (r : Ed3kNote) (fresh : Bytes) (now : Int)
    (verified : Bool) : (s.storeEd3kNote h lim r fresh now verified).1.Live lim.withDefaults := by
  have started : s.init h fresh now = s := if_pos live.started
  unfold storeEd3kNote
  rw [started]
  dsimp only
  split
  · exact live
  split
  · exact live
  split
  · exact live.markFull ..
  next stored =>
    refine (live.markFull ..).putNote lim.withDefaults_positive h ?_
    have view : ∀ full, (s.markFull .note r.target full now).noteView r = s.noteView r := by
      intro full
      cases full <;> rfl
    rw [view]
    exact not_not.mp stored

end

end MemoryEd3k

end ENode.Storage
