import ENode.Ed3kKeywords

/-! What expires or turns to a new page in the ed3k store, and whole runs: every limit
holds in every state a run reaches. -/
namespace ENode.Storage

open GoText MemEd3kKeywordTarget List

variable {lim : Ed3kLimits}

theorem placesOf_mapVals {f : R → R} (same : ∀ x, place (f x) = place x)
    (t : GoMap Bytes R) : placesOf place (t.mapVals f) = placesOf place t :=
  GoMap.flatVals_mapVals_same (fun _ => by rw [same]) t

variable {target : Bytes} {f : MemEd3kSource → MemEd3kSource}

theorem SourceTarget.mapVals (old : SourceTarget lim target t)
    (place : ∀ x, (f x).place = x.place)
    (key : ∀ x, (f x).target = x.target ∧ (f x).nodeID = x.nodeID) : SourceTarget lim target (t.mapVals f) := by
  refine ⟨?_,old.keyed.mapVals (fun _ x _ => ?_)⟩
  · rw [placesOf_mapVals place]
    exact old.fits
  · rwa [(key x).1,(key x).2]

theorem NoteTarget.mapVals (old : NoteTarget lim target t)
    {f : MemEd3kNote → MemEd3kNote} (place : ∀ x, (f x).place = x.place)
    (key : ∀ x, (f x).target = x.target ∧ (f x).pubKey = x.pubKey) : NoteTarget lim target (t.mapVals f) := by
  refine ⟨?_,old.keyed.mapVals (fun _ x _ => ?_)⟩
  · rw [placesOf_mapVals place]
    exact old.fits
  · rwa [(key x).1,(key x).2]

/-- A change of a keyword record that keeps what it is counted by. -/
structure KeepsKeyword (f : MemEd3kKeyword → MemEd3kKeyword) : Prop where
  target : ∀ x, (f x).target = x.target
  root : ∀ x, (f x).root = x.root
  pubKey : ∀ x, (f x).pubKey = x.pubKey
  host : ∀ x, (f x).host = x.host
  site : ∀ x, (f x).site = x.site

section
variable {f : MemEd3kKeyword → MemEd3kKeyword} (keeps : KeepsKeyword f)
include keeps

variable (recs : List MemEd3kKeyword)

theorem KeepsKeyword.pubKeys : pubKeys (recs.map f) = Storage.pubKeys recs := by
  simp [Storage.pubKeys,keeps.pubKey]

theorem KeepsKeyword.siteSet : siteSet (recs.map f) = MemEd3kKeywordTarget.siteSet recs := by
  simp [MemEd3kKeywordTarget.siteSet,Function.comp_def,keeps.site]

theorem KeepsKeyword.recPlaces : recPlaces (recs.map f) = Storage.recPlaces recs := by
  simp [Storage.recPlaces,MemEd3kKeyword.place,keeps.host,keeps.site]

theorem KeywordTarget.mapRecs (old : KeywordTarget lim target t) :
    KeywordTarget lim target { t with files := t.files.mapVals (List.map f) } := by
  have keys : MemEd3kKeywordTarget.keys { t with files := t.files.mapVals (List.map f) } = t.keys :=
    GoMap.flatVals_mapVals_same keeps.pubKeys t.files
  have sites : MemEd3kKeywordTarget.sites { t with files := t.files.mapVals (List.map f) } = t.sites :=
    GoMap.flatVals_mapVals_same keeps.siteSet t.files
  refine ⟨old.each.mapVals (fun _ _ file => ⟨?_,?_,?_,?_⟩),?_,?_,?_,?_,?_⟩
  · simpa using file.filled
  · intro _ there
    obtain ⟨y,here,rfl⟩ := mem_map.mp there
    rw [keeps.target,keeps.root]
    exact file.keyed y here
  · rw [keeps.pubKeys]
    exact file.unique
  · rw [length_map]
    exact file.places
  · have length : (GoMap.pairs (t.files.mapVals (List.map f))).length = (GoMap.pairs t.files).length := by
      simp [GoMap.pairs,GoMap.mapVals]
    rw [length]
    exact old.files
  · rw [keys]
    exact old.keyFiles
  · rw [sites]
    exact old.siteFiles
  · rw [keys]
    exact old.perKey
  · rw [sites]
    exact old.perSite

end

namespace MemoryEd3k

variable {s : MemoryEd3k}

theorem Live.mapSources (live : s.Live lim) (place : ∀ x, (f x).place = x.place)
    (key : ∀ x, (f x).target = x.target ∧ (f x).nodeID = x.nodeID) : (s.mapSources f).Live lim := by
  have places : (s.mapSources f).places = s.places := by
    simp only [MemoryEd3k.places,MemoryEd3k.mapSources]
    rw [GoMap.flatVals_mapVals_same (placesOf_mapVals place)]
  refine ⟨⟨?_,live.keywords,live.notes,?_⟩,live.started⟩
  · exact live.sources.mapVals (fun _ _ old => old.mapVals place key)
  · rw [places]
    exact live.totals

theorem Live.rotate (live : s.Live lim) (h : Ed3kHashes) (fresh : Bytes) (now : Int) : (s.rotate h fresh now).Live lim := by
  have keeps : KeepsKeyword (fun x => { x with page := h.pageHash (fresh ++ x.root ++ x.pubKey) }) :=
    ⟨fun _ => rfl,fun _ => rfl,fun _ => rfl,fun _ => rfl,fun _ => rfl⟩
  have places : (s.rotate h fresh now).places = s.places := by
    refine congrArg₂ (· ++ ·) ?_ (congrArg₂ (· ++ ·) ?_ ?_)
    · refine GoMap.flatVals_mapVals_same (fun t => ?_) s.sources
      apply placesOf_mapVals
      exact fun _ => rfl
    · exact GoMap.flatVals_mapVals_same (fun t => GoMap.flatVals_mapVals_same keeps.recPlaces t.files) s.keywords
    · refine GoMap.flatVals_mapVals_same (fun t => ?_) s.notes
      apply placesOf_mapVals
      exact fun _ => rfl
  refine ⟨⟨?_,?_,?_,?_⟩,live.started⟩
  · exact live.sources.mapVals (fun target t old => old.mapVals (fun _ => rfl) (fun _ => ⟨rfl,rfl⟩))
  · exact live.keywords.mapVals (fun target t old => old.mapRecs keeps)
  · exact live.notes.mapVals (fun _ _ old => old.mapVals (fun _ => rfl) (fun _ => ⟨rfl,rfl⟩))
  · rw [places]
    exact live.totals

theorem Live.expireSources (live : s.Live lim) (positive : lim.Positive) (range : MapRange) (now : Int) :
    (s.expireSources range now).1.Live lim := by
  unfold MemoryEd3k.expireSources
  refine foldlRecOn (motive := fun state : MemoryEd3k × Nat => state.1.Live lim) _ _ live ?_
  intro state live _ _
  refine foldlRecOn (motive := fun state : MemoryEd3k × Nat => state.1.Live lim) _ _ live ?_
  intro _ live e _
  split
  · exact live
  · exact live.dropSource positive e.2

/-- A keyword target taken out of the store: its records are counted, the others are as
they were. -/
structure KeywordsOut (lim : Ed3kLimits) (s : MemoryEd3k) (target : Bytes) (state : MemoryEd3k × MemEd3kKeywordTarget × Nat) :
    Prop where
  same : SameRecords s state.1
  bounded : KeywordTarget lim target state.2.1
  totals : state.1.Totals lim (state.2.1.places ++ s.besidesKeywords target)

theorem KeywordsOut.expireFile (out : KeywordsOut lim s target state) (now : Int) {file : Bytes × List MemEd3kKeyword}
    (held : state.2.1.files.lookup file.1 = some file.2) : KeywordsOut lim s target (expireFile now state file) := by
  obtain ⟨_,t,_⟩ := state
  obtain ⟨root,recs⟩ := file
  obtain ⟨same,old,totals⟩ := out
  dsimp only at same old totals held
  have fileOf : t.fileOf root = recs := by simp [MemEd3kKeywordTarget.fileOf,held]
  have file := old.each root recs held
  have split : recs.Perm (recs.filter (fun x => !decide (x.expires > now)) ++ recs.filter (fun x => decide (x.expires > now))) :=
    (filter_append_perm _ recs).symm.trans perm_append_comm
  have part : (recs.filter (fun x => decide (x.expires > now))).Sublist recs := filter_sublist
  have keys := flatVals_fileOf (t := t) (g := pubKeys) rfl root
  have sites := flatVals_fileOf (t := t) (g := siteSet) rfl root
  rw [fileOf] at keys sites
  unfold MemoryEd3k.expireFile
  dsimp only
  refine ⟨same.count_all _,old.setFile rfl ?_ ?_ ?_ ?_ ?_ ?_,?_⟩
  · intro filled
    refine ⟨filled,fun x there => file.keyed x (part.mem there),file.unique.sublist (part.map _),?_⟩
    have := part.length_le
    have := file.places
    omega
  · exact .inr (.inl (by simp [held]))
  · have tallies := (old.keyFiles.perm keys).perm ((split.map (fun x : MemEd3kKeyword => x.pubKey)).append_right _)
    rw [map_append,append_assoc] at tallies
    have back := tallies.addTo_back_all
    rw [foldl_map] at back
    exact back.drop_nonPositive
  · exact adjustSites_tallies (siteSet_nodup _) (siteSet_nodup _) (old.siteFiles.perm sites)
  · intro key
    have fewer := ((part.map (fun x : MemEd3kKeyword => x.pubKey)).append_right (t.beside root pubKeys)).count_le key
    have capped := old.perKey key
    rw [MemEd3kKeywordTarget.keys,keys.count_eq] at capped
    exact le_trans (Int.ofNat_le.mpr fewer) capped
  · refine capped_sites (siteSet recs) (siteSet_nodup _) (fun site => ?_) (fun site there => .inl ?_)
    · rw [← sites.count_eq]
      exact old.perSite site
    · obtain ⟨x,here,of⟩ := mem_siteSet.mp there
      exact mem_siteSet.mpr ⟨x,part.mem here,of⟩
  · have places := flatVals_fileOf (t := t) (g := recPlaces) rfl root
    rw [fileOf] at places
    have before := totals.perm ((places.trans ((split.map MemEd3kKeyword.place).append_right _)).append_right _)
    rw [map_append,append_assoc,append_assoc] at before
    have after := before.back_all
    rw [← append_assoc] at after
    rw [MemEd3kKeywordTarget.places,flatVals_setFile (t := t) (g := recPlaces) rfl rfl]
    exact after

theorem Live.expireKeywordTarget {state : MemoryEd3k × Nat} (live : state.1.Live lim) (range : MapRange) (now : Int)
    {e : Bytes × MemEd3kKeywordTarget} (held : state.1.keywords.lookup e.1 = some e.2) :
    (expireKeywordTarget range now state e).1.Live lim ∧
      ∀ k, k ≠ e.1 → (expireKeywordTarget range now state e).1.keywords.lookup k = state.1.keywords.lookup k := by
  have start : KeywordsOut lim state.1 e.1 (state.1,e.2,state.2) := by
    refine ⟨⟨rfl,rfl,rfl,rfl⟩,live.keywords _ _ held,?_⟩
    have split := state.1.places_keywords e.1
    have own : state.1.keywordsOf e.1 = e.2 := by simp [MemoryEd3k.keywordsOf,held]
    rw [own] at split
    exact live.totals.perm split
  have others : ∀ (out : MemoryEd3k × MemEd3kKeywordTarget × Nat) (file : Bytes × List MemEd3kKeyword) (k : Bytes),
      k ≠ file.1 → (MemoryEd3k.expireFile now out file).2.1.files.lookup k = out.2.1.files.lookup k := by
    intro out file k other
    change (GoMap.setOrErase _ _ _ _).lookup k = _
    rw [GoMap.lookup_setOrErase,if_neg other]
  have out := (range.visits e.2.files).fold (fun state => state.2.1.files) (MemoryEd3k.expireFile now)
    (KeywordsOut lim state.1 e.1) (fun out file kept there => ⟨kept.expireFile now there,others out file⟩)
    (s := (state.1,e.2,state.2)) rfl start
  refine ⟨live.setKeywords out.same _ out.bounded id out.totals,fun k other => ?_⟩
  change (GoMap.setOrErase _ _ _ _).lookup k = _
  rw [GoMap.lookup_setOrErase,if_neg other,out.same.keywords]

structure NotesOut (lim : Ed3kLimits) (s : MemoryEd3k) (target : Bytes) (state : MemoryEd3k × GoMap Bytes MemEd3kNote × Nat) :
    Prop where
  same : SameRecords s state.1
  bounded : NoteTarget lim target state.2.1
  totals : state.1.Totals lim (placesOf MemEd3kNote.place state.2.1 ++ s.besidesNotes target)

theorem NotesOut.drop (out : NotesOut lim s target state)
    {e : Bytes × MemEd3kNote} (held : state.2.1.lookup e.1 = some e.2) :
    NotesOut lim s target (state.1.count e.2.host e.2.site (-1),state.2.1.erase e.1,state.2.2 + 1) := by
  have split : (placesOf MemEd3kNote.place _).Perm _ := placesOf_split held
  refine ⟨out.same.count ..,⟨(out.bounded.fits.perm split).tail,out.bounded.keyed.erase _⟩,?_⟩
  exact (out.totals.perm (split.append_right _)).back

theorem Live.expireNoteTarget {state : MemoryEd3k × Nat} (live : state.1.Live lim) (range : MapRange) (now : Int)
    {e : Bytes × GoMap Bytes MemEd3kNote} (held : state.1.notes.lookup e.1 = some e.2) :
    (expireNoteTarget range now state e).1.Live lim ∧
      ∀ k, k ≠ e.1 → (expireNoteTarget range now state e).1.notes.lookup k = state.1.notes.lookup k := by
  have start : NotesOut lim state.1 e.1 (state.1,e.2,state.2) := by
    refine ⟨⟨rfl,rfl,rfl,rfl⟩,live.notes _ _ held,?_⟩
    have split := state.1.places_notes e.1
    have own : state.1.notesOf e.1 = e.2 := by simp [MemoryEd3k.notesOf,held]
    rw [own] at split
    exact live.totals.perm split
  let step (state : MemoryEd3k × GoMap Bytes MemEd3kNote × Nat) (e : Bytes × MemEd3kNote) :=
    if e.2.expires > now then state
    else (state.1.count e.2.host e.2.site (-1),state.2.1.erase e.1,state.2.2 + 1)
  have keeps : ∀ (out : MemoryEd3k × GoMap Bytes MemEd3kNote × Nat) (note : Bytes × MemEd3kNote),
      NotesOut lim state.1 e.1 out → out.2.1.lookup note.1 = some note.2 →
      NotesOut lim state.1 e.1 (step out note) ∧ ∀ k, k ≠ note.1 → (step out note).2.1.lookup k = out.2.1.lookup k := by
    intro out _ kept there
    dsimp only [step]
    split
    · exact ⟨kept,fun _ _ => rfl⟩
    · exact ⟨kept.drop there,fun k other => by rw [GoMap.lookup_erase_ite,if_neg other]⟩
  have out := (range.visits e.2).fold (fun state => state.2.1) step (NotesOut lim state.1 e.1) keeps
    (s := (state.1,e.2,state.2)) rfl start
  refine ⟨live.setNotes _ out.same.sources out.same.keywords (congrArg (GoMap.setOrErase · _ _ _) out.same.notes)
    out.same.started out.bounded id out.totals,fun k other => ?_⟩
  change (GoMap.setOrErase _ _ _ _).lookup k = _
  rw [GoMap.lookup_setOrErase,if_neg other,out.same.notes]

theorem Live.expire (live : s.Live lim) (positive : lim.Positive) (h : Ed3kHashes) (fresh : Bytes) (now : Int)
    (range : MapRange) : (s.expireEd3k h fresh now range).1.Live lim := by
  have started : s.init h fresh now = s := if_pos live.started
  have sources := live.expireSources positive range now
  have keywords := (range.visits _).fold (fun state => state.1.keywords) (MemoryEd3k.expireKeywordTarget range now)
    (fun state => state.1.Live lim) (fun _ _ live held => live.expireKeywordTarget range now held)
    (s := s.expireSources range now) rfl sources
  have notes := (range.visits _).fold (fun state => state.1.notes) (MemoryEd3k.expireNoteTarget range now)
    (fun state => state.1.Live lim) (fun _ _ live held => live.expireNoteTarget range now held) rfl keywords
  unfold expireEd3k
  rw [started]
  dsimp only
  have full : (MemoryEd3k.expireFull ((range.order _).foldl (MemoryEd3k.expireNoteTarget range now) _).1 now).Live lim :=
    ⟨⟨notes.sources,notes.keywords,notes.notes,notes.totals⟩,notes.started⟩
  split
  · exact full.rotate ..
  · exact full

theorem init_init (h : Ed3kHashes) (s : MemoryEd3k) (fresh : Bytes) (now : Int) :
    (s.init h fresh now).init h fresh now = s.init h fresh now := by
  refine if_pos ?_
  unfold init
  split
  next started => exact started
  · rfl

/-- Before its first record a store has nothing, not even its maps. -/
def Reached (lim : Ed3kLimits) (s : MemoryEd3k) : Prop := s.Live lim ∨ s = {}

theorem Reached.init (reached : s.Reached lim) (positive : lim.Positive) (h : Ed3kHashes) (fresh : Bytes) (now : Int) :
    (s.init h fresh now).Live lim := by
  rcases reached with live | rfl
  · have same : s.init h fresh now = s := if_pos live.started
    rw [same]
    exact live
  · exact ⟨empty_within positive fresh now true,rfl⟩

theorem Reached.mapSources (reached : s.Reached lim)
    (place : ∀ x, (f x).place = x.place) (key : ∀ x, (f x).target = x.target ∧ (f x).nodeID = x.nodeID) :
    (s.mapSources f).Reached lim := by
  rcases reached with live | rfl
  · exact .inl (live.mapSources place key)
  · exact .inr rfl

theorem Reached.step (reached : s.Reached lim.withDefaults) (h : Ed3kHashes) (op : Ed3kOp) :
    (s.step h lim op).Reached lim.withDefaults := by
  have positive := lim.withDefaults_positive
  cases op with
  | storeSource r fresh now range =>
    have stored := (reached.init positive h fresh now).storeSource h r fresh now range
    rw [storeEd3kSource,init_init] at stored
    exact .inl stored
  | storeKeyword r fresh now verified =>
    have stored := (reached.init positive h fresh now).storeKeyword h r fresh now verified
    rw [storeEd3kKeyword,init_init] at stored
    exact .inl stored
  | storeNote r fresh now verified =>
    have stored := (reached.init positive h fresh now).storeNote h r fresh now verified
    rw [storeEd3kNote,init_init] at stored
    exact .inl stored
  | keep | release | releaseByStart =>
    refine reached.mapSources (fun x => ?_) (fun _ => ?_)
    · split <;> rfl
    · split <;> exact ⟨rfl,rfl⟩
  | expire fresh now range =>
    have expired := (reached.init positive h fresh now).expire positive h fresh now range
    rw [expireEd3k,init_init] at expired
    exact .inl expired

theorem Reached.run (h : Ed3kHashes) (lim : Ed3kLimits) (ops : List Ed3kOp) :
    (MemoryEd3k.run h lim ops).Reached lim.withDefaults :=
  foldlRecOn (motive := fun s : MemoryEd3k => s.Reached lim.withDefaults) ops _ (.inr rfl)
    (fun _ reached op _ => reached.step h op)

theorem Reached.within (reached : s.Reached lim) (positive : lim.Positive) : s.Within lim := by
  rcases reached with live | rfl
  · exact live.toWithin
  · exact empty_within positive [] 0 false

def sourceRecords (s : MemoryEd3k) : List MemEd3kSource := s.sources.flatVals (GoMap.flatVals (fun x => [x]))
def keywordRecords (s : MemoryEd3k) : List MemEd3kKeyword := s.keywords.flatVals (fun t => t.files.flatVals id)
def noteRecords (s : MemoryEd3k) : List MemEd3kNote := s.notes.flatVals (GoMap.flatVals (fun x => [x]))

theorem values_nodup {t : GoMap Bytes R} (keyed : t.All (fun k x => key x = k)) :
    ((t.flatVals (fun x => [x])).map key).Nodup := by
  have own : (t.flatVals (fun x => [x])).map key = (GoMap.pairs t).map Prod.fst := by
    rw [GoMap.flatVals,← map_eq_flatMap,map_map]
    exact map_congr_left (fun e there => keyed e.1 e.2 ((GoMap.mem_pairs ..).mp there))
  rw [own]
  exact GoMap.pairs_keys_nodup t

theorem mem_values {t : GoMap Bytes R} (there : x ∈ t.flatVals (fun x => [x])) :
    ∃ k, t.lookup k = some x := by
  obtain ⟨k,_,held,same⟩ := (GoMap.mem_flatVals ..).mp there
  rw [mem_singleton.mp same]
  exact ⟨k,held⟩

theorem Within.sources_nodup (within : s.Within lim) :
    (s.sourceRecords.map (fun x => (x.target,x.nodeID))).Nodup := by
  refine GoMap.flatVals_nodup (fun target t held => ⟨?_,fun x there => ?_⟩)
  · exact values_nodup (fun node x known => ((within.sources target t held).keyed node x known).2)
  · obtain ⟨node,known⟩ := mem_values there
    exact ((within.sources target t held).keyed node x known).1

theorem Within.notes_nodup (within : s.Within lim) : (s.noteRecords.map (fun x => (x.target,x.pubKey))).Nodup := by
  refine GoMap.flatVals_nodup (fun target t held => ⟨?_,fun x there => ?_⟩)
  · exact values_nodup (fun key x known => ((within.notes target t held).keyed key x known).2)
  · obtain ⟨key,known⟩ := mem_values there
    exact ((within.notes target t held).keyed key x known).1

theorem Within.keywords_nodup (within : s.Within lim) :
    (s.keywordRecords.map (fun x => (x.target,x.root,x.pubKey))).Nodup := by
  refine GoMap.flatVals_nodup (fun target t held => ?_)
  have each := (within.keywords target t held).each
  refine ⟨GoMap.flatVals_nodup (fun root recs known => ⟨(each root recs known).unique,fun x there => ?_⟩),fun x there => ?_⟩
  · exact ((each root recs known).keyed x there).2
  · obtain ⟨root,recs,known,here⟩ := (GoMap.mem_flatVals ..).mp there
    exact ((each root recs known).keyed x here).1

/-- In every state a run reaches the records held are within every limit, no two share
their key, and the counters are the counts over them. -/
theorem run_within_limits (h : Ed3kHashes) (lim : Ed3kLimits) (ops : List Ed3kOp) :
    (MemoryEd3k.run h lim ops).Within lim.withDefaults ∧
      ((MemoryEd3k.run h lim ops).sourceRecords.map (fun x => (x.target,x.nodeID))).Nodup ∧
      ((MemoryEd3k.run h lim ops).keywordRecords.map (fun x => (x.target,x.root,x.pubKey))).Nodup ∧
      ((MemoryEd3k.run h lim ops).noteRecords.map (fun x => (x.target,x.pubKey))).Nodup := by
  have within := (Reached.run h lim ops).within lim.withDefaults_positive
  exact ⟨within,within.sources_nodup,within.keywords_nodup,within.notes_nodup⟩

end MemoryEd3k

end ENode.Storage
