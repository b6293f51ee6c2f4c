import ENode.Ed3kBounds

/-! The keyword targets of the ed3k store, what expires, and whole runs: every limit holds
in every state a run reaches. -/
namespace ENode.Storage

open GoText MemEd3kKeywordTarget List

theorem siteHeld_concat (site : Bytes) (held : List Ed3kHeldKeyword) (x : Ed3kHeldKeyword) :
    siteHeld site (held ++ [x]) =
      if x.site = site ∧ (siteHeld site held).all (fun b => lessFresh x b) = true then some x else siteHeld site held := by
  rw [siteHeld,foldl_append]
  rfl

theorem siteHeld_some (found : siteHeld site held = some h) : h ∈ held ∧ h.site = site := by
  induction held using reverseRecOn with
  | nil => cases found
  | append_singleton _ _ ih =>
    rw [siteHeld_concat] at found
    split at found
    next here =>
      cases found
      exact ⟨by simp,here.1⟩
    · exact ⟨mem_append_left _ (ih found).1,(ih found).2⟩

theorem ownHeld_eq (pubKey : Bytes) (held : List Ed3kHeldKeyword) :
    ownHeld pubKey held = held.reverse.find? (fun h => decide (h.pubKey = pubKey)) := by
  unfold ownHeld
  induction held using reverseRecOn with
  | nil => rfl
  | append_singleton _ x ih =>
    rw [foldl_append,ih,reverse_append]
    by_cases here : x.pubKey = pubKey
    · simp [here]
    · simp [here]

theorem leastFresh_mem (first : Ed3kHeldKeyword) (held : List Ed3kHeldKeyword) :
    leastFresh first held ∈ first :: held := by
  unfold leastFresh
  induction held generalizing first with
  | nil => exact .head _
  | cons x _ ih =>
    rw [foldl_cons]
    split
    · exact .tail _ (ih x)
    rcases mem_cons.mp (ih first) with same | later
    · rw [same]
      exact .head _
    · exact .tail _ (.tail _ later)

/-- What a stored keyword record found: its own record to replace, or room. -/
inductive KeywordStored (lim : Ed3kLimits) (v : Ed3kKeywordView) (r : Ed3kKeyword) (replace : Option Bytes) : Prop where
  | renews (own : Ed3kHeldKeyword) (held : own ∈ v.held) (key : own.pubKey = r.pubKey)
      (gives : replace = some r.pubKey) (site : own.site ≠ r.site → v.siteTotal < lim.recordsPerSite)
      (host : own.host ≠ r.host → v.hostTotal < lim.recordsPerHost)
  | takes (other : Ed3kHeldKeyword) (held : other ∈ v.held) (gives : replace = some other.pubKey)
      (new : ∀ h ∈ v.held, h.pubKey ≠ r.pubKey) (total : v.total < lim.maxRecords)
      (host : v.hostTotal < lim.recordsPerHost) (site : v.siteTotal < lim.recordsPerSite)
      (key : v.keyFiles < lim.keywordPerKey)
  | adds (gives : replace = none) (new : ∀ h ∈ v.held, h.pubKey ≠ r.pubKey) (total : v.total < lim.maxRecords)
      (host : v.hostTotal < lim.recordsPerHost) (site : v.siteTotal < lim.recordsPerSite)
      (key : v.keyFiles < lim.keywordPerKey) (places : v.held ≠ [] → (v.held.length : Int) < lim.keywordPlaces)
      (files : v.held = [] → v.files < lim.keywordFiles)

variable {r : Ed3kKeyword}

theorem decideKeyword_stored (stored : (decideKeyword v r lim).result = .stored) :
    KeywordStored lim v r (decideKeyword v r lim).replace ∧
      ((∃ h ∈ v.held, h.site = r.site) ∨ v.siteFiles < lim.keywordPerSite) := by
  unfold decideKeyword at stored ⊢
  dsimp only at stored ⊢
  rcases Option.eq_none_or_eq_some (ownHeld r.pubKey v.held) with none | ⟨own,found⟩
  · have new : ∀ h ∈ v.held, h.pubKey ≠ r.pubKey := by
      rw [ownHeld_eq,find?_eq_none] at none
      intro h held
      simpa using none h (mem_reverse.mpr held)
    rw [none] at stored ⊢
    by_cases empty : v.held = []
    · rw [empty] at stored ⊢
      dsimp only at stored ⊢
      split_ifs at stored ⊢ with busy reject keys sites full
      push Not at reject
      refine ⟨.adds rfl new (by omega) reject.1 reject.2 (by omega) (fun some => absurd empty some) (fun _ => by omega),?_⟩
      exact .inr (by omega)
    · obtain ⟨first,_,cons⟩ := exists_cons_of_ne_nil empty
      rw [cons] at stored ⊢
      dsimp only at stored ⊢
      rw [← cons] at stored ⊢
      rcases Option.eq_none_or_eq_some (siteHeld r.site v.held) with away | ⟨h,ofSite⟩
      · rw [away] at stored ⊢
        dsimp only at stored ⊢
        split_ifs at stored ⊢ with busy reject keys sites places signer <;> push Not at reject
        · exact ⟨.adds rfl new (by omega) reject.1 reject.2 (by omega) (fun _ => places) (fun none => absurd none empty),
            .inr (by omega)⟩
        · have least : leastFresh first v.held ∈ v.held := by
            have there := leastFresh_mem first v.held
            rw [cons] at there ⊢
            simpa using there
          exact ⟨.takes _ least rfl new (by omega) reject.1 reject.2 (by omega),.inr (by omega)⟩
      · rw [ofSite] at stored ⊢
        dsimp only at stored ⊢
        split_ifs at stored ⊢ with busy reject keys
        push Not at reject
        obtain ⟨held,site⟩ := siteHeld_some ofSite
        exact ⟨.takes h held rfl new (by omega) reject.1 reject.2 (by omega),.inl ⟨h,held,site⟩⟩
  · rw [found] at stored ⊢
    rw [ownHeld_eq] at found
    have held : own ∈ v.held := mem_reverse.mp (mem_of_find?_eq_some found)
    have key : own.pubKey = r.pubKey := by simpa using find?_some found
    dsimp only at stored ⊢
    split_ifs at stored ⊢ with older site host
    push Not at site host
    refine ⟨.renews own held key (by rw [key]) (fun other => (site other).1) host,?_⟩
    by_cases same : own.site = r.site
    · exact .inl ⟨own,held,same⟩
    · rcases Option.eq_none_or_eq_some (siteHeld r.site v.held) with away | ⟨h,ofSite⟩
      · exact .inr ((site same).2 away)
      · exact .inl ⟨h,siteHeld_some ofSite⟩

variable {α : Type}

theorem find?_split {l : List α} (found : l.find? p = some x) :
    l.Perm (x :: l.eraseP p) := by
  obtain ⟨holds,before,_,rfl,others⟩ := find?_eq_some_iff_append.mp found
  have pass : ∀ y ∈ before, ¬p y = true := fun y here => by simpa using others y here
  rw [eraseP_append_right _ pass,eraseP_cons_of_pos holds]
  exact perm_middle

/-- What the files of a target hold other than one. -/
def MemEd3kKeywordTarget.beside {α : Type} (t : MemEd3kKeywordTarget) (root : Bytes)
    (g : List MemEd3kKeyword → List α) : List α := GoMap.flatVals g (t.files.erase root)

variable {x : MemEd3kKeyword}

section
variable {lim : Ed3kLimits} {target root : Bytes} {t t' : MemEd3kKeywordTarget} {recs : List MemEd3kKeyword}

theorem flatVals_fileOf (empty : g [] = []) (root : Bytes) :
    (t.files.flatVals g).Perm (g (t.fileOf root) ++ t.beside root g) := by
  have split := t.files.flatVals_split g root
  rwa [GoMap.flatVals_getD _ _ _ [] empty] at split

theorem siteSet_nodup (recs : List MemEd3kKeyword) : (siteSet recs).Nodup := nodup_dedup _

theorem mem_siteSet : site ∈ siteSet recs ↔ ∃ x ∈ recs, x.site = site := by
  simp [siteSet]

theorem adjustSites_tallies {before after rest : List Bytes} (beforeNodup : before.Nodup) (afterNodup : after.Nodup)
    (tallies : t.siteFiles.Tallies (before ++ rest)) :
    (t.adjustSites before after).siteFiles.Tallies (after ++ rest) := by
  have both : (after.filter (fun site => before.contains site)).Perm (before.filter (fun site => after.contains site)) := by
    refine (perm_ext_iff_of_nodup (afterNodup.filter _) (beforeNodup.filter _)).mpr ?_
    intro site
    simp [and_comm]
  have old : before.Perm (before.filter (fun site => !after.contains site) ++
      before.filter (fun site => after.contains site)) :=
    ((filter_append_perm _ before).symm.trans perm_append_comm)
  have new : after.Perm (after.filter (fun site => !before.contains site) ++
      before.filter (fun site => after.contains site)) :=
    ((filter_append_perm _ after).symm.trans perm_append_comm).trans (both.append_left _)
  have split := tallies.perm (old.append_right rest)
  rw [append_assoc] at split
  have joined := GoMap.Tallies.addTo_all (after.filter (fun site => !before.contains site)) (split.bump_all _)
  rw [← append_assoc] at joined
  exact joined.perm (new.symm.append_right rest)

theorem capped_sites (before : List Bytes) {after rest : List Bytes} (nodup : after.Nodup)
    (old : ∀ site, ((before ++ rest).count site : Int) ≤ cap)
    (new : ∀ site ∈ after, site ∈ before ∨ ((before ++ rest).count site : Int) < cap) (site : Bytes) :
    ((after ++ rest).count site : Int) ≤ cap := by
  have was := old site
  have once := nodup_iff_count_le_one.mp nodup site
  rw [count_append] at was ⊢
  by_cases here : site ∈ after
  · rcases new site here with before | below
    · have := count_pos_iff.mpr before
      omega
    · rw [count_append] at below
      omega
  · rw [count_eq_zero.mpr here]
    omega

theorem flatVals_setFile (empty : g [] = [])
    (files : t'.files = t.files.setOrErase root recs recs.isEmpty) : t'.files.flatVals g = g recs ++ t.beside root g := by
  rw [files]
  exact GoMap.flatVals_setOrErase _ _ _ _ _ (fun none => by rw [isEmpty_iff.mp none,empty])

/-- The records of a file set anew. -/
theorem KeywordTarget.setFile (old : KeywordTarget lim target t)
    (files : t'.files = t.files.setOrErase root recs recs.isEmpty)
    (file : recs ≠ [] → KeywordFile lim target root recs)
    (room : recs = [] ∨ t.files.lookup root ≠ none ∨ ((GoMap.pairs t.files).length : Int) < lim.keywordFiles)
    (keyFiles : t'.keyFiles.Tallies (pubKeys recs ++ t.beside root pubKeys))
    (siteFiles : t'.siteFiles.Tallies (siteSet recs ++ t.beside root siteSet))
    (perKey : ∀ key, ((pubKeys recs ++ t.beside root pubKeys).count key : Int) ≤ lim.keywordPerKey)
    (perSite : ∀ site, ((siteSet recs ++ t.beside root siteSet).count site : Int) ≤
      lim.keywordPerSite) : KeywordTarget lim target t' := by
  have keys : t'.keys = pubKeys recs ++ t.beside root pubKeys := flatVals_setFile rfl files
  have sites : t'.sites = siteSet recs ++ t.beside root siteSet := flatVals_setFile rfl files
  refine ⟨?_,?_,keys ▸ keyFiles,sites ▸ siteFiles,keys ▸ perKey,sites ▸ perSite⟩
  · rw [files]
    exact old.each.setOrErase (fun filled => file (by simpa using filled))
  · have before := old.files
    rw [files,GoMap.setOrErase]
    rcases Option.eq_none_or_eq_some (t.files.lookup root) with none | ⟨was,held⟩
    · split
      · rwa [GoMap.pairs_erase_fresh _ none]
      next filled =>
        have below := (room.resolve_left (by simpa using filled)).resolve_left (not_not.mpr none)
        rw [GoMap.pairs_insert,length_cons,GoMap.pairs_erase_fresh _ none]
        omega
    · have gone := (GoMap.pairs_split _ held).length_eq
      rw [length_cons] at gone
      split
      · omega
      rw [GoMap.pairs_insert,length_cons]
      omega

theorem fileOf_held (held : x ∈ t.fileOf root) : t.files.lookup root = some (t.fileOf root) := by
  unfold MemEd3kKeywordTarget.fileOf at held ⊢
  cases known : t.files.lookup root with
  | none => simp [known] at held
  | some _ => rfl

theorem KeywordTarget.fileOf_unique (old : KeywordTarget lim target t) (root : Bytes) :
    (pubKeys (t.fileOf root)).Nodup := by
  rcases eq_nil_or_concat (t.fileOf root) with empty | ⟨_,x,cons⟩
  · rw [empty]
    exact nodup_nil
  · exact (old.each root _ (fileOf_held (x := x) (by simp [cons]))).unique

theorem find?_pubKey (nodup : (pubKeys recs).Nodup) (held : x ∈ recs) :
    recs.find? (fun y => y.pubKey == x.pubKey) = some x := by
  have some : (recs.find? (fun y => y.pubKey == x.pubKey)).isSome := find?_isSome.mpr ⟨x,held,beq_self_eq_true _⟩
  obtain ⟨y,found⟩ := Option.isSome_iff_exists.mp some
  have same : y.pubKey = x.pubKey := by simpa using find?_some found
  rw [found,inj_on_of_nodup_map nodup (mem_of_find?_eq_some found) held same]

theorem capped_cons {l part : List Bytes} (old : ∀ key, (l.count key : Int) ≤ cap)
    (below : (l.count new : Int) < cap) (sub : part.Subperm l) (key : Bytes) : ((new :: part).count key : Int) ≤ cap := by
  have fewer := sub.count_le key
  have was := old key
  rw [count_cons]
  by_cases here : new = key
  · subst here
    simp
    omega
  · simp [here]
    omega

/-- A file opened for a new record: the records it keeps, with the key counters taken
back; the sites are counted when it is closed. -/
structure Opened (t t' : MemEd3kKeywordTarget) (root : Bytes) (recs : List MemEd3kKeyword) : Prop where
  files : ∀ new, t'.files.insert root new = t.files.insert root new
  fileOf : t'.fileOf root = recs
  siteFiles : t'.siteFiles = t.siteFiles
  part : recs.Sublist (t.fileOf root)
  keyFiles : t'.keyFiles.Tallies (pubKeys recs ++ t.beside root pubKeys)

/-- The target with a record put into an opened file. -/
def MemEd3kKeywordTarget.put (t : MemEd3kKeywordTarget) (x : MemEd3kKeyword) (before : List Bytes) : MemEd3kKeywordTarget :=
  ({ t with
    files := t.files.insert x.root (t.fileOf x.root ++ [x])
    keyFiles := t.keyFiles.addTo x.pubKey 1 }).adjustSites before (siteSet (t.fileOf x.root ++ [x]))

/-- What a new record needs of the file it is put into. -/
structure KeywordRoom (lim : Ed3kLimits) (t : MemEd3kKeywordTarget) (recs : List MemEd3kKeyword) (x : MemEd3kKeyword) :
    Prop where
  new : x.pubKey ∉ pubKeys recs
  places : (recs.length : Int) < lim.keywordPlaces
  files : t.files.lookup x.root ≠ none ∨ ((GoMap.pairs t.files).length : Int) < lim.keywordFiles
  perKey : ∀ key, ((x.pubKey :: (pubKeys recs ++ t.beside x.root pubKeys)).count key : Int) ≤ lim.keywordPerKey
  perSite : x.site ∈ siteSet (t.fileOf x.root) ∨ t.siteFiles.tally x.site < lim.keywordPerSite

section
variable (opened : Opened t t' x.root recs)
include opened

theorem Opened.put_files (before : List Bytes) :
    (t'.put x before).files = t.files.setOrErase x.root (recs ++ [x]) (recs ++ [x]).isEmpty := by
  have filled : (recs ++ [x]).isEmpty = false := by simp
  rw [filled,GoMap.setOrErase,← opened.fileOf]
  exact opened.files _

theorem Opened.put (old : KeywordTarget lim x.target t)
    (room : KeywordRoom lim t recs x) : KeywordTarget lim x.target (t'.put x (siteSet (t.fileOf x.root))) := by
  have keys : (x.pubKey :: (pubKeys recs ++ t.beside x.root pubKeys)).Perm
      (pubKeys (recs ++ [x]) ++ t.beside x.root pubKeys) := by
    rw [pubKeys,pubKeys,map_append,append_assoc]
    exact perm_middle.symm
  have sites := flatVals_fileOf (t := t) (g := siteSet) rfl x.root
  refine old.setFile (opened.put_files _) (fun _ => ⟨by simp,?_,?_,?_⟩) (.inr room.files) ?_ ?_ ?_ ?_
  · intro y there
    rcases mem_append.mp there with before | last
    · have held := opened.part.mem before
      exact (old.each x.root _ (fileOf_held held)).keyed y held
    · rw [mem_singleton.mp last]
      exact ⟨rfl,rfl⟩
  · have nodup := (old.fileOf_unique x.root).sublist (opened.part.map _)
    rw [pubKeys,map_append]
    exact nodup.append (nodup_singleton _) (disjoint_singleton.mpr room.new)
  · rw [length_append,length_singleton]
    have := room.places
    omega
  · exact (opened.keyFiles.addTo_one.perm keys).drop_nonPositive
  · rw [← opened.fileOf]
    refine adjustSites_tallies (siteSet_nodup _) (siteSet_nodup _) ?_
    exact opened.siteFiles ▸ old.siteFiles.perm sites
  · intro key
    rw [← keys.count_eq]
    exact room.perKey key
  · refine capped_sites (siteSet (t.fileOf x.root)) (siteSet_nodup _) (fun site => ?_) (fun site there => ?_)
    · rw [← sites.count_eq]
      exact old.perSite site
    · obtain ⟨y,here,rfl⟩ := mem_siteSet.mp there
      rcases mem_append.mp here with before | last
      · exact .inl (mem_siteSet.mpr ⟨y,opened.part.mem before,rfl⟩)
      · rw [mem_singleton.mp last,← sites.count_eq]
        exact room.perSite.imp_right (fun below => old.siteFiles x.site ▸ below)

theorem Opened.put_places (before : List Bytes) :
    (x.place :: (recPlaces recs ++ t.beside x.root recPlaces)).Perm (t'.put x before).places := by
  rw [MemEd3kKeywordTarget.places,flatVals_setFile rfl (opened.put_files before),recPlaces,recPlaces,map_append,append_assoc]
  exact perm_middle.symm

end

theorem KeywordTarget.opened (old : KeywordTarget lim target t) (root : Bytes) : Opened t t root (t.fileOf root) :=
  ⟨fun _ => rfl,rfl,rfl,List.Sublist.refl _,old.keyFiles.perm (flatVals_fileOf rfl root)⟩

theorem KeywordTarget.replaced (old : KeywordTarget lim target t)
    (found : (t.fileOf root).find? (fun y => y.pubKey == key) = some x) :
    Opened t { t with
      files := t.files.insert root ((t.fileOf root).eraseP (fun y => y.pubKey == key))
      keyFiles := t.keyFiles.addTo x.pubKey (-1) } root ((t.fileOf root).eraseP (fun y => y.pubKey == key)) := by
  refine ⟨fun _ => AList.insert_insert .., ?_,rfl,eraseP_sublist ..,?_⟩
  · simp [MemEd3kKeywordTarget.fileOf]
  · have split := ((find?_split found).map (·.pubKey)).append_right (t.beside root pubKeys)
    exact ((old.keyFiles.perm (flatVals_fileOf rfl root)).perm split).addTo_back

end

namespace MemoryEd3k

variable {s s' : MemoryEd3k} {target : Bytes}

def keywordsOf (s : MemoryEd3k) (target : Bytes) : MemEd3kKeywordTarget := (s.keywords.lookup target).getD {}

def besidesKeywords (s : MemoryEd3k) (target : Bytes) : List Place :=
  s.sources.flatVals (placesOf MemEd3kSource.place) ++ (GoMap.flatVals MemEd3kKeywordTarget.places (s.keywords.erase target) ++
    s.notes.flatVals (placesOf MemEd3kNote.place))

theorem perm_middle_part {a b c d e : List α} (same : b.Perm (d ++ e)) :
    (a ++ (b ++ c)).Perm (d ++ (a ++ (e ++ c))) := by
  have inner : (b ++ c).Perm (d ++ (e ++ c)) := by
    rw [← append_assoc]
    exact same.append_right c
  exact (inner.append_left a).trans (perm_append_comm_assoc a d _)

theorem places_keywords (s : MemoryEd3k) (target : Bytes) :
    s.places.Perm ((s.keywordsOf target).places ++ s.besidesKeywords target) := by
  have split := s.keywords.flatVals_split MemEd3kKeywordTarget.places target
  rw [GoMap.flatVals_getD _ _ _ {} rfl] at split
  exact perm_middle_part split

theorem Within.keywordsOf (within : s.Within lim) (positive : lim.Positive) (target : Bytes) :
    KeywordTarget lim target (s.keywordsOf target) := by
  unfold MemoryEd3k.keywordsOf
  cases known : s.keywords.lookup target with
  | none =>
    refine ⟨fun _ _ held => ?_,Int.le_of_lt positive.keywordFiles,fun _ => rfl,fun _ => rfl,
      fun _ => Int.le_of_lt positive.keywordPerKey,fun _ => Int.le_of_lt positive.keywordPerSite⟩
    simp at held
  | some t => exact within.keywords target t known

/-- The same records, whatever the counters say. -/
structure SameRecords (s s' : MemoryEd3k) : Prop where
  sources : s'.sources = s.sources
  keywords : s'.keywords = s.keywords
  notes : s'.notes = s.notes
  started : s'.started = s.started

theorem SameRecords.count (same : SameRecords s s') (host site : Bytes) (d : Int) :
    SameRecords s (s'.count host site d) := ⟨same.sources,same.keywords,same.notes,same.started⟩

theorem SameRecords.count_all (gone : List MemEd3kKeyword) (same : SameRecords s s') :
    SameRecords s (gone.foldl (fun s x => s.count x.host x.site (-1)) s') := by
  induction gone generalizing s' with
  | nil => exact same
  | cons x _ ih => exact ih (same.count x.host x.site (-1))

theorem Live.setKeywords (live : s.Live lim) (same : SameRecords s s') (empty : Bool) (new : KeywordTarget lim target t)
    (nothing : empty = true → (GoMap.pairs t.files).isEmpty = true)
    (totals : s'.Totals lim (t.places ++ s.besidesKeywords target)) :
    ({ s' with keywords := s'.keywords.setOrErase target t empty }).Live lim := by
  have none : empty = true → t.places = [] := by
    intro yes
    rw [MemEd3kKeywordTarget.places,GoMap.flatVals,isEmpty_iff.mp (nothing yes),flatMap_nil]
  have places : (t.places ++ s.besidesKeywords target).Perm
      (MemoryEd3k.places { s' with keywords := s'.keywords.setOrErase target t empty }) := by
    simp only [MemoryEd3k.places]
    rw [same.sources,same.keywords,same.notes,GoMap.flatVals_setOrErase _ _ _ _ _ none]
    exact (perm_middle_part (List.Perm.refl _)).symm
  exact ⟨⟨same.sources ▸ live.sources,same.keywords ▸ live.keywords.setOrErase (fun _ => new),same.notes ▸ live.notes,
    totals.perm places⟩,same.started ▸ live.started⟩

theorem Live.addKeyword (live : s.Live lim) (positive : lim.Positive) (same : SameRecords s s')
    (opened : Opened (s.keywordsOf x.target) t x.root recs)
    (room : KeywordRoom lim (s.keywordsOf x.target) recs x)
    (totals : s'.Totals lim (recPlaces recs ++ ((s.keywordsOf x.target).beside x.root recPlaces ++ s.besidesKeywords x.target)))
    (all : Room lim.maxRecords lim.recordsPerHost lim.recordsPerSite
      (recPlaces recs ++ ((s.keywordsOf x.target).beside x.root recPlaces ++ s.besidesKeywords x.target)) x.place) :
    ({ s'.count x.host x.site 1 with
      keywords := s'.keywords.insert x.target (t.put x (siteSet ((s.keywordsOf x.target).fileOf x.root))) }).Live lim := by
  refine live.setKeywords (same.count x.host x.site 1) false
    (opened.put (live.keywordsOf positive x.target) room) (absurd · Bool.false_ne_true) ?_
  refine (totals.add all).perm ?_
  rw [← append_assoc]
  exact (opened.put_places _).append_right _

theorem keywordView_eq (s : MemoryEd3k) (r : Ed3kKeyword) : s.keywordView r =
      { held := ((s.keywordsOf r.target).fileOf r.root).map (fun x => ⟨x.pubKey,x.site,x.host,x.storedAt,x.expires,x.hash⟩)
        files := (GoMap.pairs (s.keywordsOf r.target).files).length
        keyFiles := (s.keywordsOf r.target).keyFiles.tally r.pubKey
        siteFiles := (s.keywordsOf r.target).siteFiles.tally r.site
        hostTotal := s.hostTotal.tally r.host
        siteTotal := s.siteTotal.tally r.site
        total := s.total } := by
  unfold keywordView keywordsOf
  cases s.keywords.lookup r.target with
  | none => rfl
  | some _ => rfl

theorem replaceKeyword_some (s : MemoryEd3k) {t : MemEd3kKeywordTarget}
    (found : (t.fileOf root).find? (fun y => y.pubKey == key) = some x) :
    s.replaceKeyword t root (some key) = (s.count x.host x.site (-1),
      { t with
        files := t.files.insert root ((t.fileOf root).eraseP (fun y => y.pubKey == key))
        keyFiles := t.keyFiles.addTo x.pubKey (-1) }) := by
  have same : x.pubKey = key := by simpa using find?_some found
  rw [replaceKeyword,Option.bind_some,found]
  dsimp only
  rw [same]

def keptKeyword (h : Ed3kHashes) (s : MemoryEd3k) (r : Ed3kKeyword) (now : Int) : MemEd3kKeyword :=
  { r with storedAt := now, hash := h.ed3kSignedHash r.signed, page := h.pageHash (s.secret ++ r.root ++ r.pubKey) }

theorem places_file (s : MemoryEd3k) (target root : Bytes) :
    s.places.Perm (recPlaces ((s.keywordsOf target).fileOf root) ++
      ((s.keywordsOf target).beside root recPlaces ++ s.besidesKeywords target)) := by
  rw [← append_assoc]
  exact (s.places_keywords target).trans ((flatVals_fileOf rfl root).append_right _)

theorem Live.putNewKeyword (live : s.Live lim) (positive : lim.Positive) (h : Ed3kHashes) (now : Int)
    (room : KeywordRoom lim (s.keywordsOf r.target) ((s.keywordsOf r.target).fileOf r.root) (s.keptKeyword h r now))
    (all : Room lim.maxRecords lim.recordsPerHost lim.recordsPerSite s.places (r.host,r.site)) :
    (s.putKeyword h r none now).Live lim := by
  have split := s.places_file r.target r.root
  exact live.addKeyword positive (x := s.keptKeyword h r now) ⟨rfl,rfl,rfl,rfl⟩
    ((live.keywordsOf positive r.target).opened r.root) room (live.totals.perm split) (all.perm split)

theorem Live.putOverKeyword (live : s.Live lim) (positive : lim.Positive) (h : Ed3kHashes) (now : Int)
    (found : ((s.keywordsOf r.target).fileOf r.root).find? (fun y => y.pubKey == key) = some y)
    (room : KeywordRoom lim (s.keywordsOf r.target)
      (((s.keywordsOf r.target).fileOf r.root).eraseP (fun y => y.pubKey == key)) (s.keptKeyword h r now))
    (host : y.host ≠ r.host → s.hostTotal.tally r.host < lim.recordsPerHost)
    (site : y.site ≠ r.site → s.siteTotal.tally r.site < lim.recordsPerSite) :
    (s.putKeyword h r (some key) now).Live lim := by
  have split := (s.places_file r.target r.root).trans (((find?_split found).map MemEd3kKeyword.place).append_right _)
  have given := live.totals.perm split
  have gone : s.replaceKeyword ((s.keywords.lookup r.target).getD {}) r.root (some key) = _ :=
    s.replaceKeyword_some found
  unfold MemoryEd3k.putKeyword
  dsimp only
  rw [gone]
  have same : SameRecords s (s.count y.host y.site (-1)) := ⟨rfl,rfl,rfl,rfl⟩
  exact live.addKeyword positive same (x := s.keptKeyword h r now)
    ((live.keywordsOf positive r.target).replaced found) room given.back (given.room_back host site)

/-- What the rules found makes the record fit. -/
theorem Live.putKeyword (live : s.Live lim) (positive : lim.Positive) (h : Ed3kHashes) (now : Int)
    {replace : Option Bytes} (stored : KeywordStored lim (s.keywordView r) r replace)
    (sites : (∃ h ∈ (s.keywordView r).held, h.site = r.site) ∨ (s.keywordView r).siteFiles < lim.keywordPerSite) :
    (s.putKeyword h r replace now).Live lim := by
  have old := live.keywordsOf positive r.target
  have keys := flatVals_fileOf (t := s.keywordsOf r.target) (g := pubKeys) rfl r.root
  rw [keywordView_eq] at stored sites
  let recs := (s.keywordsOf r.target).fileOf r.root
  have perSite : r.site ∈ siteSet recs ∨
      (s.keywordsOf r.target).siteFiles.tally r.site < lim.keywordPerSite := by
    refine sites.imp_left ?_
    rintro ⟨held,there,same⟩
    obtain ⟨x,here,rfl⟩ := mem_map.mp there
    exact mem_siteSet.mpr ⟨x,here,same⟩
  have missing : (∀ h ∈ recs.map
      (fun x => (⟨x.pubKey,x.site,x.host,x.storedAt,x.expires,x.hash⟩ : Ed3kHeldKeyword)), h.pubKey ≠ r.pubKey) →
      r.pubKey ∉ pubKeys recs := by
    intro new there
    obtain ⟨x,here,same⟩ := mem_map.mp there
    exact new _ (mem_map_of_mem here) same
  have capped : ∀ key, ((pubKeys recs ++ (s.keywordsOf r.target).beside r.root pubKeys).count key : Int) ≤
      lim.keywordPerKey := by
    intro key
    rw [← keys.count_eq]
    exact old.perKey key
  have below : (s.keywordsOf r.target).keyFiles.tally r.pubKey < lim.keywordPerKey →
      ((pubKeys recs ++ (s.keywordsOf r.target).beside r.root pubKeys).count r.pubKey : Int) < lim.keywordPerKey := by
    intro few
    rw [← keys.count_eq]
    exact old.keyFiles r.pubKey ▸ few
  cases stored with
  | renews _ held key gives site host =>
    obtain ⟨x,there,rfl⟩ := mem_map.mp held
    have key : x.pubKey = r.pubKey := key
    have found := key ▸ find?_pubKey (old.fileOf_unique r.root) there
    have split := find?_split found
    have keyed := split.map (fun y : MemEd3kKeyword => y.pubKey)
    have nodup := keyed.nodup_iff.mp (old.fileOf_unique r.root)
    have places := (old.each r.root _ (fileOf_held there)).places
    subst gives
    refine live.putOverKeyword positive h now found ⟨?_,?_,?_,?_,perSite⟩ host site
    · exact key ▸ (nodup_cons.mp nodup).1
    · have length := split.length_eq
      rw [length_cons] at length
      omega
    · exact .inl (by simp [keptKeyword,fileOf_held there])
    · intro k
      have same := keyed.append_right ((s.keywordsOf r.target).beside r.root pubKeys)
      rw [map_cons,key] at same
      exact same.count_eq k ▸ capped k
  | takes _ held gives new total host site key =>
    obtain ⟨x,there,rfl⟩ := mem_map.mp held
    have gives : replace = some x.pubKey := gives
    have found := find?_pubKey (old.fileOf_unique r.root) there
    have split := find?_split found
    have places := (old.each r.root _ (fileOf_held there)).places
    have part := eraseP_sublist (p := fun y : MemEd3kKeyword => y.pubKey == x.pubKey) (l := recs)
    subst gives
    refine live.putOverKeyword positive h now found ⟨?_,?_,?_,?_,perSite⟩ (fun _ => host) (fun _ => site)
    · exact fun here => missing new ((part.map _).mem here)
    · have length := split.length_eq
      rw [length_cons] at length
      omega
    · exact .inl (by simp [keptKeyword,fileOf_held there])
    · exact capped_cons capped (below key) ((part.map _).append_right _).subperm
  | adds gives new total host site key places files =>
    subst gives
    refine live.putNewKeyword positive h now ⟨missing new,?_,?_,capped_cons capped (below key) (List.Subperm.refl _),
      perSite⟩ (live.totals.room total host site)
    · by_cases empty : (s.keywordsOf r.target).fileOf r.root = []
      · rw [empty]
        exact positive.keywordPlaces
      · simpa using places (by simpa using empty)
    · by_cases empty : (s.keywordsOf r.target).fileOf r.root = []
      · exact .inr (files (by simpa using empty))
      · obtain ⟨x,_,cons⟩ := exists_cons_of_ne_nil empty
        have held : (s.keywordsOf r.target).files.lookup r.root = _ := fileOf_held (x := x) (by simp [cons])
        exact .inl (by simp [keptKeyword,held])

theorem Live.storeKeyword (live : s.Live lim.withDefaults) (h : Ed3kHashes) (r : Ed3kKeyword) (fresh : Bytes) (now : Int)
    (verified : Bool) : (s.storeEd3kKeyword h lim r fresh now verified).1.Live lim.withDefaults := by
  have started : s.init h fresh now = s := if_pos live.started
  unfold storeEd3kKeyword
  rw [started]
  dsimp only
  split
  · exact live
  split
  · exact live
  split
  · exact live.markFull ..
  next stored =>
    have view : ∀ full, (s.markFull .keyword r.target full now).keywordView r = s.keywordView r := by
      intro full
      cases full <;> rfl
    obtain ⟨_,_⟩ := decideKeyword_stored (not_not.mp stored)
    exact (live.markFull ..).putKeyword lim.withDefaults_positive h now (by rwa [view]) (by rwa [view])

end MemoryEd3k

end ENode.Storage
