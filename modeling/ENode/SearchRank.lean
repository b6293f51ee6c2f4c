import ENode.MemorySearch

/-! What the ranker of a search keeps: the matches while they fit, then the best of those it was
shown. The heap holds one entry for each slot of the answer, and the entry replaced on top is the
worst of them. -/
namespace ENode.Storage

open GoText List

abbrev Match := Nat × File

def entryOf (seed : UInt64) (m : Match) (idx : Nat) : RankEntry := ⟨m.2.sources,m.1,rankTie seed m.2,idx⟩

/-- The ranking order: sources, then tie, then id. -/
def ranksBelow (seed : UInt64) (a b : Match) : Bool := (entryOf seed a 0).below (entryOf seed b 0)

/-- Ids count the other way. -/
def rankKey (e : RankEntry) : Nat ×ₗ Nat ×ₗ Natᵒᵈ := toLex (e.sources,toLex (e.tie.toNat,OrderDual.toDual e.id))

theorem below_iff (a b : RankEntry) : a.below b = true ↔ rankKey a < rankKey b := by
  rw [RankEntry.below,rankKey,rankKey,Prod.Lex.toLex_lt_toLex,Prod.Lex.toLex_lt_toLex,OrderDual.toDual_lt_toDual]
  by_cases sources : a.sources = b.sources
  · by_cases tie : a.tie = b.tie
    · simp [sources,tie]
    · have tie' : a.tie.toNat ≠ b.tie.toNat := fun same => tie (UInt64.toNat_inj.mp same)
      simp [sources,tie,tie',UInt64.lt_iff_toNat_lt]
  · simp [sources]

theorem below_eq_false (a b : RankEntry) : a.below b = false ↔ rankKey b ≤ rankKey a := by
  rw [Bool.eq_false_iff,Ne,below_iff,not_lt]

theorem below_strict : BinaryHeap.Strict RankEntry.below where
  asymm := fun {a b} lower => (below_eq_false b a).mpr ((below_iff a b).mp lower).le
  chain := fun {a b c} first second =>
    (below_eq_false c a).mpr (le_trans ((below_eq_false b a).mp first) ((below_eq_false c b).mp second))

theorem below_trans {a b c : RankEntry} (first : a.below b = true) (second : b.below c = true) : a.below c = true := by
  rw [below_iff] at *
  exact lt_trans first second

theorem below_of_below_of_not {a b c : RankEntry} (first : a.below b = true) (second : c.below b = false) :
    a.below c = true := by
  rw [below_iff] at *
  exact lt_of_lt_of_le first ((below_eq_false c b).mp second)

theorem below_of_not_below {a b : RankEntry} (distinct : a.id ≠ b.id) (higher : a.below b = false) :
    b.below a = true := by
  rw [below_eq_false] at higher
  rw [below_iff]
  refine lt_of_le_of_ne higher fun same => distinct ?_
  have ids := congrArg (fun key => OrderDual.ofDual (ofLex (ofLex key).2).2) same
  exact ids.symm

/-- Some of the matches seen; the others rank below each of them. -/
def Chosen (below : α → α → Bool) (seen kept : List α) : Prop :=
  ∃ dropped, (kept ++ dropped).Perm seen ∧ ∀ m ∈ dropped, ∀ k ∈ kept, below m k = true

/-- The best so many of the matches seen, best first. -/
structure Best (below : α → α → Bool) (results : Nat) (seen best : List α) : Prop where
  count : best.length = results
  ordered : best.Pairwise (fun a b => below b a = true)
  chosen : Chosen below seen best

theorem Chosen.drop {below : α → α → Bool} {seen kept : List α} (chosen : Chosen below seen kept)
    (lower : ∀ k ∈ kept, below m k = true) : Chosen below (seen ++ [m]) kept := by
  obtain ⟨dropped,perm,ranked⟩ := chosen
  refine ⟨dropped ++ [m],?_,?_⟩
  · rw [← append_assoc]
    exact perm.append_right [m]
  · intro x member k there
    rcases mem_append.mp member with member | member
    · exact ranked x member k there
    · exact mem_singleton.mp member ▸ lower k there

/-- A match better than the worst kept one takes its place. -/
theorem Chosen.exchange {seen rest kept : List α}
    (chosen : Chosen below seen (worst :: rest)) (kept' : kept.Perm (m :: rest))
    (trans : ∀ {a b c}, below a b = true → below b c = true → below a c = true)
    (better : below worst m = true) (others : ∀ k ∈ rest, below worst k = true) :
    Chosen below (seen ++ [m]) kept := by
  obtain ⟨dropped,perm,ranked⟩ := chosen
  have under (x : α) (lower : x = worst ∨ x ∈ dropped) (k : α) (there : k ∈ kept) : below x k = true := by
    rcases mem_cons.mp (kept'.mem_iff.mp there) with rfl | there
    · rcases lower with rfl | lower
      · exact better
      · exact trans (ranked x lower worst (.head _)) better
    · rcases lower with rfl | lower
      · exact others k there
      · exact ranked x lower k (.tail _ there)
  refine ⟨worst :: dropped,?_,fun x member => under x (mem_cons.mp member)⟩
  calc kept ++ worst :: dropped
      |>.Perm (m :: rest ++ worst :: dropped) := kept'.append_right _
    _ |>.Perm (m :: (worst :: rest ++ dropped)) := List.Perm.cons m perm_middle
    _ |>.Perm (m :: seen) := perm.cons m
    _ |>.Perm (seen ++ [m]) := (perm_append_singleton m seen).symm

theorem Chosen.ids_nodup {seen kept : List Match} (chosen : Chosen (ranksBelow seed) seen kept)
    (distinct : (seen.map Prod.fst).Nodup) : (kept.map Prod.fst).Nodup := by
  obtain ⟨_,perm,_⟩ := chosen
  have all := (perm.map Prod.fst).nodup_iff.mpr distinct
  rw [map_append] at all
  exact (nodup_append.mp all).1

namespace SearchRanker

theorem siftDown_eq (fuel : Nat) (h : List RankEntry) (i : Nat) :
    siftDown fuel h i = BinaryHeap.siftDown RankEntry.below ⟨0,0,0,0⟩ fuel h i := by
  induction fuel generalizing h i with
  | zero => rfl
  | succ fuel ih =>
    change (if _ = i then h else siftDown fuel _ _) = _
    rw [ih]
    rfl

theorem buildHeap_eq (h : List RankEntry) : buildHeap h = BinaryHeap.build RankEntry.below ⟨0,0,0,0⟩ h := by
  rw [buildHeap,BinaryHeap.build]
  congr
  funext h' i
  exact siftDown_eq _ h' i

/-- The match an entry of the heap stands for. -/
def matchOf (out : List File) (e : RankEntry) : Match := (e.id,out.getD e.idx {})

/-- The heap and the slots of the answer after an overflow. -/
structure Slots (seed : UInt64) (results : Nat) (out : List File) (h : List RankEntry) : Prop where
  size : out.length = results
  slots : (h.map RankEntry.idx).Perm (List.range results)
  entries : ∀ e ∈ h, e = entryOf seed (matchOf out e) e.idx
  ordered : BinaryHeap.OrderedFrom RankEntry.below ⟨0,0,0,0⟩ 0 h

/-- What the ranker holds after the matches it was shown. -/
inductive Holds (expr : SearchExpr) (results : Nat) (seen : List Match) (r : SearchRanker) : Prop where
  | fits (few : seen.length ≤ results) (out : r.out = seen.map Prod.snd) (ids : r.ids = seen.map Prod.fst)
      (heap : r.heap = none) (count : r.count = seen.length)
  | ranked (h : List RankEntry) (many : results < seen.length) (heap : r.heap = some h)
      (seeded : r.seed = searchSeed expr) (slots : Slots r.seed results r.out h)
      (chosen : Chosen (ranksBelow r.seed) seen (h.map (matchOf r.out))) (count : r.count = seen.length)

variable {expr : SearchExpr} {results scan : Nat} {seen : List Match} {r : SearchRanker} {seed : UInt64}
  {out : List File} {h : List RankEntry}

theorem Slots.below (slots : Slots seed results out h) (first : a ∈ h) (second : b ∈ h) :
    a.below b = ranksBelow seed (matchOf out a) (matchOf out b) := by
  rw [slots.entries a first,slots.entries b second]
  rfl

/-- The matches as the entries of a heap, in the order they came. -/
def entriesOf (seed : UInt64) (seen : List Match) : List RankEntry :=
  seen.zipIdx.map fun m => entryOf seed m.1 m.2

theorem overflow_of_fits (full : r.out = seen.map Prod.snd) (ids : r.ids = seen.map Prod.fst) (heap : r.heap = none) :
    r.overflow expr = { r with seed := searchSeed expr,ids := [],
                               heap := some (buildHeap (entriesOf (searchSeed expr) seen)) } := by
  have entries : (r.out.zip r.ids).zipIdx.map (fun e =>
      (⟨e.1.1.sources,e.1.2,rankTie (searchSeed expr) e.1.1,e.2⟩ : RankEntry)) = entriesOf (searchSeed expr) seen := by
    rw [full,ids,zip_map',entriesOf,zipIdx_map,map_map]
    rfl
  rw [overflow,heap]
  simp only [entries]

variable {e : RankEntry}

theorem mem_entriesOf (member : e ∈ entriesOf seed seen) :
    ∃ m, seen[e.idx]? = some m ∧ e = entryOf seed m e.idx := by
  obtain ⟨⟨m,_⟩,there,rfl⟩ := mem_map.mp member
  exact ⟨m,mem_zipIdx_iff_getElem?.mp there,rfl⟩

theorem matchOf_entriesOf (member : e ∈ entriesOf seed seen) :
    e = entryOf seed (matchOf (seen.map Prod.snd) e) e.idx := by
  obtain ⟨m,there,same⟩ := mem_entriesOf member
  have file : (seen.map Prod.snd).getD e.idx {} = m.2 := by
    rw [getD_eq_getElem?_getD,getElem?_map,there]
    rfl
  have id : e.id = m.1 := congrArg RankEntry.id same
  rw [matchOf,file,id]
  exact same

theorem entriesOf_matches (seed : UInt64) (seen : List Match) :
    (entriesOf seed seen).map (matchOf (seen.map Prod.snd)) = seen := by
  refine ext_getElem? fun i => ?_
  rw [entriesOf,map_map,getElem?_map,getElem?_zipIdx]
  cases there : seen[i]? with
  | none => rfl
  | some m =>
    have file : (seen.map Prod.snd).getD i {} = m.2 := by
      rw [getD_eq_getElem?_getD,getElem?_map,there]
      rfl
    simp only [Option.map_some,Function.comp_apply,matchOf,entryOf,Nat.zero_add,file]

theorem slots_of_overflow (seed : UInt64) (seen : List Match) :
    Slots seed seen.length (seen.map Prod.snd) (buildHeap (entriesOf seed seen)) ∧
      ((buildHeap (entriesOf seed seen)).map (matchOf (seen.map Prod.snd))).Perm seen := by
  rw [buildHeap_eq]
  have perm : (BinaryHeap.build RankEntry.below ⟨0,0,0,0⟩ (entriesOf seed seen)).Perm (entriesOf seed seen) :=
    BinaryHeap.build_perm _
  refine ⟨⟨length_map _,?_,fun _ member => matchOf_entriesOf (perm.mem_iff.mp member),
    BinaryHeap.build_ordered below_strict _⟩,?_⟩
  · have idx : (entriesOf seed seen).map RankEntry.idx = List.range seen.length := by
      rw [entriesOf,map_map,range_eq_range']
      exact zipIdx_map_snd 0 seen
    exact idx ▸ perm.map RankEntry.idx
  · have all := perm.map (matchOf (seen.map Prod.snd))
    rwa [entriesOf_matches] at all

variable {root : RankEntry} {rest : List RankEntry}

/-- The top entry gives up its slot to a better match. -/
theorem Slots.replace (slots : Slots seed results out (root :: rest)) (m : Match) :
    Slots seed results (out.set root.idx m.2)
        (siftDown (root :: rest).length ((root :: rest).set 0 (entryOf seed m root.idx)) 0) ∧
      ((siftDown (root :: rest).length ((root :: rest).set 0 (entryOf seed m root.idx)) 0).map
        (matchOf (out.set root.idx m.2))).Perm (m :: rest.map (matchOf out)) := by
  rw [siftDown_eq]
  have perm : (BinaryHeap.siftDown RankEntry.below ⟨0,0,0,0⟩ (root :: rest).length
      ((root :: rest).set 0 (entryOf seed m root.idx)) 0).Perm (entryOf seed m root.idx :: rest) :=
    BinaryHeap.siftDown_perm ..
  have nodup : (root.idx :: rest.map RankEntry.idx).Nodup := slots.slots.nodup_iff.mpr nodup_range
  have inside : root.idx < out.length := by
    rw [slots.size]
    exact mem_range.mp (slots.slots.mem_iff.mp (.head _))
  have new : matchOf (out.set root.idx m.2) (entryOf seed m root.idx) = m := by
    rw [matchOf,BinaryHeap.getD_set _ _ _ _ _ inside]
    exact congrArg (Prod.mk m.1) (if_pos rfl)
  have old {e : RankEntry} (member : e ∈ rest) : matchOf (out.set root.idx m.2) e = matchOf out e := by
    have apart : e.idx ≠ root.idx := fun same =>
      (nodup_cons.mp nodup).1 (same ▸ mem_map_of_mem member)
    rw [matchOf,BinaryHeap.getD_set _ _ _ _ _ inside,if_neg apart]
    rfl
  refine ⟨⟨?_,?_,fun e member => ?_,?_⟩,?_⟩
  · rw [length_set,slots.size]
  · exact (perm.map RankEntry.idx).trans slots.slots
  · rcases mem_cons.mp (perm.mem_iff.mp member) with rfl | member
    · rw [new]
      rfl
    · rw [old member]
      exact slots.entries e (.tail _ member)
  · exact BinaryHeap.siftDown_ordered below_strict _ _ _ (slots.ordered.replace _) le_rfl (by simp)
  · have all := perm.map (matchOf (out.set root.idx m.2))
    rw [map_cons,new,map_congr_left fun _ member => old member] at all
    exact all

theorem Slots.root_worst (slots : Slots seed results out (root :: rest))
    (member : e ∈ root :: rest) : e.below root = false := by
  obtain ⟨_,inside,rfl⟩ := getElem_of_mem member
  have least := BinaryHeap.root_least below_strict slots.ordered inside
  rwa [getD_eq_getElem _ _ inside] at least

theorem Slots.length (slots : Slots seed results out h) : h.length = results := by
  have same := slots.slots.length_eq
  rwa [length_map,length_range] at same

/-- A ranker with no room left ranks: what it held before and what it holds now are the same matches. -/
theorem overflow_spec (positive : 0 < results) (holds : Holds expr results seen r) (full : results ≤ seen.length)
    (n : Nat) : ∃ root rest, ({ r with count := n }.overflow expr).heap = some (root :: rest) ∧
      ({ r with count := n }.overflow expr).out = r.out ∧ ({ r with count := n }.overflow expr).seed = searchSeed expr ∧
      ({ r with count := n }.overflow expr).count = n ∧ Slots (searchSeed expr) results r.out (root :: rest) ∧
      Chosen (ranksBelow (searchSeed expr)) seen ((root :: rest).map (matchOf r.out)) := by
  have nonempty {h : List RankEntry} (slots : Slots (searchSeed expr) results r.out h) : ∃ root rest, h = root :: rest :=
    exists_cons_of_length_pos (slots.length ▸ positive)
  cases holds with
  | fits few out ids heap count =>
    have exact' : seen.length = results := Nat.le_antisymm few full
    obtain ⟨slots,kept⟩ := slots_of_overflow (searchSeed expr) seen
    rw [exact',← out] at slots
    rw [← out] at kept
    rw [overflow_of_fits (r := { r with count := n }) out ids heap]
    obtain ⟨root,rest,same⟩ := nonempty slots
    rw [same] at slots kept
    exact ⟨root,rest,congrArg some same,rfl,rfl,rfl,slots,[],by rwa [append_nil],by simp⟩
  | ranked _ _ heap seeded slots chosen count =>
    have same : ({ r with count := n } : SearchRanker).overflow expr = { r with count := n } := by
      rw [overflow]
      simp only [heap]
    rw [same]
    rw [seeded] at slots chosen
    obtain ⟨root,rest,rfl⟩ := nonempty slots
    exact ⟨root,rest,heap,rfl,seeded,rfl,slots,chosen⟩

/-- What taking one more match does to the heap, the slots and the choice. -/
theorem rank_step (slots : Slots seed results out (root :: rest))
    (chosen : Chosen (ranksBelow seed) seen ((root :: rest).map (matchOf out))) (m : Match)
    (fresh : ∀ k ∈ seen, k.1 ≠ m.1) (distinct : (seen.map Prod.fst).Nodup) :
    if root.below (entryOf seed m root.idx) then
      Slots seed results (out.set root.idx m.2)
          (siftDown (root :: rest).length ((root :: rest).set 0 (entryOf seed m root.idx)) 0) ∧
        Chosen (ranksBelow seed) (seen ++ [m])
          ((siftDown (root :: rest).length ((root :: rest).set 0 (entryOf seed m root.idx)) 0).map
            (matchOf (out.set root.idx m.2)))
    else Chosen (ranksBelow seed) (seen ++ [m]) ((root :: rest).map (matchOf out)) := by
  have here {e : RankEntry} (member : e ∈ root :: rest) : matchOf out e ∈ seen :=
    chosen.elim fun dropped ⟨perm,_⟩ => perm.mem_iff.mp (mem_append_left _ (mem_map_of_mem member))
  have top := slots.entries root (.head _)
  have ids : (root.id :: rest.map RankEntry.id).Nodup := by
    have all := chosen.ids_nodup distinct
    rwa [map_map] at all
  split
  · rename_i better
    obtain ⟨slots',kept⟩ := slots.replace m
    refine ⟨slots',Chosen.exchange chosen kept (fun first second => below_trans first second) ?_ fun k there => ?_⟩
    · rwa [top] at better
    · obtain ⟨e,member,rfl⟩ := mem_map.mp there
      rw [← slots.below (.head _) (.tail _ member)]
      refine below_of_not_below (fun same => ?_) (slots.root_worst (.tail _ member))
      exact (nodup_cons.mp ids).1 (same ▸ mem_map_of_mem member)
  · rename_i worse
    refine Chosen.drop chosen fun _ there => ?_
    obtain ⟨e,member,rfl⟩ := mem_map.mp there
    have lower : (entryOf seed m root.idx).below root = true :=
      below_of_not_below (fresh _ (here (.head _))) (Bool.eq_false_iff.mpr worse)
    have lower' := below_of_below_of_not lower (slots.root_worst member)
    rwa [slots.entries e member] at lower'

theorem Holds.full (holds : Holds expr results seen r) (full : results ≤ seen.length) : ¬r.out.length < results := by
  cases holds with
  | fits _ out => rw [out,length_map]; omega
  | ranked _ _ _ _ slots => rw [slots.size]; omega

theorem add_full (full : ¬r.out.length < results)
    (ranked : ({ r with count := r.count + 1 } : SearchRanker).overflow expr = r')
    (heap : r'.heap = some (root :: rest)) (scan : Nat) (m : Match) :
    r.add expr results scan m.1 m.2 =
      (if root.below (entryOf r'.seed m root.idx) then
          { r' with out := r'.out.set root.idx m.2,
                    heap := some (siftDown (root :: rest).length
                      ((root :: rest).set 0 (entryOf r'.seed m root.idx)) 0) }
        else r',decide (r'.count < scan)) := by
  rw [add]
  simp only
  rw [if_neg full,ranked,heap]
  change (if root.below (entryOf r'.seed m root.idx) then _ else r',
    decide ((if root.below (entryOf r'.seed m root.idx) then _ else r').count < scan)) = _
  split <;> rfl

/-- One more match, and whether the ranker wants another. -/
theorem add_holds (scan : Nat) (positive : 0 < results) (holds : Holds expr results seen r) (m : Match)
    (fresh : ∀ k ∈ seen, k.1 ≠ m.1) (distinct : (seen.map Prod.fst).Nodup) :
    Holds expr results (seen ++ [m]) (r.add expr results scan m.1 m.2).1 ∧
      (r.add expr results scan m.1 m.2).2 = decide (seen.length < results ∨ seen.length + 1 < scan) := by
  have counted : r.count = seen.length := by cases holds <;> assumption
  have longer : (seen ++ [m]).length = seen.length + 1 := length_append
  by_cases room : seen.length < results
  · cases holds with
    | fits _ out ids heap count =>
      have taken : r.out.length < results := by rwa [out,length_map]
      rw [add]
      simp only
      rw [if_pos taken]
      refine ⟨.fits (by omega) ?_ ?_ heap ?_,(decide_eq_true (.inl room)).symm⟩
      · simp [out]
      · simp [ids]
      · simp [count]
    | ranked _ _ => omega
  · obtain ⟨root,_,heap,out,seeded,count,slots,chosen⟩ :=
      overflow_spec positive holds (Nat.le_of_not_lt room) (r.count + 1)
    have step := rank_step slots chosen m fresh distinct
    rw [add_full (holds.full (Nat.le_of_not_lt room)) rfl heap]
    generalize ({ r with count := r.count + 1 } : SearchRanker).overflow expr = r' at heap out seeded count
    rw [← out,← seeded] at step
    rw [← out,← seeded] at slots
    have more : decide (r'.count < scan) = decide (seen.length < results ∨ seen.length + 1 < scan) :=
      decide_eq_decide.mpr (by omega)
    refine ⟨?_,more⟩
    by_cases better : root.below (entryOf r'.seed m root.idx) = true
    · rw [if_pos better] at step ⊢
      exact .ranked _ (by omega) rfl seeded step.1 step.2 (show r'.count = _ by omega)
    · rw [if_neg better] at step ⊢
      exact .ranked _ (by omega) heap seeded slots step (show r'.count = _ by omega)

/-- The matches of a search shown one after the other until the ranker wants no more. -/
def rankMatches (expr : SearchExpr) (results scan : Nat) : SearchRanker → List Match → SearchRanker
  | r, [] => r
  | r, m :: rest =>
    let (r,more) := r.add expr results scan m.1 m.2
    if more then rankMatches expr results scan r rest else r

/-- The ranker sees the matches up to the scan bound, and at least one more than it has room for. -/
theorem rankMatches_holds (scan : Nat) (positive : 0 < results) (holds : Holds expr results seen r) (rest : List Match)
    (distinct : ((seen ++ rest).map Prod.fst).Nodup) (within : seen.length < max scan (results+1)) :
    Holds expr results ((seen ++ rest).take (max scan (results+1))) (rankMatches expr results scan r rest) := by
  induction rest generalizing seen r with
  | nil =>
    rw [append_nil,take_of_length_le (by omega)]
    exact holds
  | cons m rest ih =>
    have parted := distinct
    rw [map_append,nodup_append] at parted
    have fresh (k : Match) (there : k ∈ seen) : k.1 ≠ m.1 :=
      parted.2.2 k.1 (mem_map_of_mem there) m.1 (.head _)
    obtain ⟨holds',more⟩ := add_holds scan positive holds m fresh parted.1
    have longer : (seen ++ [m]).length = seen.length + 1 := length_append
    rw [rankMatches]
    simp only
    rw [more]
    have joined : seen ++ m :: rest = (seen ++ [m]) ++ rest := by simp
    by_cases go : seen.length < results ∨ seen.length + 1 < scan
    · rw [if_pos (decide_eq_true go),joined]
      exact ih holds' (joined ▸ distinct) (by omega)
    · rw [if_neg (by simpa using go),joined,take_append_of_le_length (by omega),take_of_length_le (by omega)]
      exact holds'

/-- The heap sorted, the matches of its entries are the best ones, best first. -/
theorem Slots.best {sorted : List RankEntry} (slots : Slots seed results out h)
    (chosen : Chosen (ranksBelow seed) seen (h.map (matchOf out))) (distinct : (seen.map Prod.fst).Nodup)
    (perm : sorted.Perm h) (ordered : sorted.Pairwise (fun a b => a.below b = false)) :
    Best (ranksBelow seed) results seen (sorted.map (matchOf out)) := by
  have ids := ((perm.map (matchOf out)).map Prod.fst).nodup_iff.mpr (chosen.ids_nodup distinct)
  rw [map_map] at ids
  have apart : sorted.Pairwise (fun a b => a.id ≠ b.id) := pairwise_map.mp ids
  refine ⟨?_,?_,?_⟩
  · rw [length_map,perm.length_eq,slots.length]
  · refine pairwise_map.mpr ((ordered.and apart).imp_of_mem fun first second both => ?_)
    rw [← slots.below (perm.mem_iff.mp second) (perm.mem_iff.mp first)]
    exact below_of_not_below both.2 both.1
  · obtain ⟨dropped,whole,ranked⟩ := chosen
    refine ⟨dropped,((perm.map _).append_right dropped).trans whole,fun m there k kept => ?_⟩
    exact ranked m there k ((perm.map _).mem_iff.mp kept)

end SearchRanker

end ENode.Storage
