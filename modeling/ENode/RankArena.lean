import ENode.SearchRank

/-! The ranker with the memory its answer lives in. A match arrives pointing into the engine's
record, so its hash is copied into a block that many hashes share; a slot of the answer that is
given to a better match gets a new copy. An index outside a slice is a panic, written as none. -/
namespace ENode.Storage

open GoText List

structure Span where
  block : Nat
  offset : Nat
  length : Nat

/-- The blocks that are used up, and the one whose rest is still free. -/
structure Arena where
  full : List Bytes := []
  current : Bytes := []
  offset : Nat := 0

namespace Arena

def read (a : Arena) (s : Span) : Bytes := (((a.full ++ [a.current]).getD s.block []).drop s.offset).take s.length

def left (a : Arena) : Nat := a.current.length - a.offset

def refill (a : Arena) : Arena := ⟨a.full ++ [a.current],replicate (64*hashLen) 0,0⟩

/-- `copy` into a block. -/
def overwrite (block : Bytes) (offset : Nat) (bytes : Bytes) : Bytes :=
  block.take offset ++ bytes ++ block.drop (offset + bytes.length)

def write (a : Arena) (bytes : Bytes) : Arena :=
  ⟨a.full,overwrite a.current a.offset bytes,a.offset + bytes.length⟩

def own (a : Arena) (hash : Bytes) : Option (Arena × Span) :=
  let a := if a.left < hash.length then a.refill else a
  if a.left < hash.length then none else some (a.write hash,⟨a.full.length,a.offset,hash.length⟩)

/-- A span that lies outside what is still free. -/
def Safe (a : Arena) (s : Span) : Prop :=
  s.block < a.full.length ∨ s.block = a.full.length ∧ s.offset + s.length ≤ a.offset

/-- No span that was given out is changed. -/
def Extends (a b : Arena) : Prop := ∀ s, a.Safe s → b.Safe s ∧ b.read s = a.read s

variable {a : Arena} {hash : Bytes}

theorem refill_extends (a : Arena) : a.Extends a.refill := by
  intro s safe
  have older : s.block < (a.full ++ [a.current]).length := by
    rw [length_append,length_singleton]
    rcases safe with _ | ⟨_,_⟩ <;> omega
  refine ⟨.inl older,?_⟩
  rw [read,read,refill,getD_append _ _ _ _ older]

theorem read_current (a : Arena) (offset length : Nat) :
    a.read ⟨a.full.length,offset,length⟩ = (a.current.drop offset).take length := by
  rw [read,getD_append_right _ _ _ _ le_rfl,Nat.sub_self]
  rfl

theorem overwrite_before {block bytes : Bytes} {offset from' length : Nat} (valid : offset ≤ block.length)
    (before : from' + length ≤ offset) :
    ((overwrite block offset bytes).drop from').take length = (block.drop from').take length := by
  have size : (block.take offset).length = offset := by simp [valid]
  rw [overwrite,append_assoc,drop_append_of_le_length (by omega),
    take_append_of_le_length (by rw [length_drop]; omega),drop_take,take_take,
    Nat.min_eq_left (by omega)]

theorem overwrite_here {block bytes : Bytes} {offset : Nat} (valid : offset ≤ block.length) :
    ((overwrite block offset bytes).drop offset).take bytes.length = bytes := by
  have size : (block.take offset).length = offset := by simp [valid]
  rw [overwrite,append_assoc,drop_left' size,take_left]

section
variable (valid : a.offset ≤ a.current.length)
include valid

theorem write_extends (bytes : Bytes) : a.Extends (a.write bytes) := by
  rintro ⟨_,offset,length⟩ (before | ⟨rfl,within⟩)
  · refine ⟨.inl before,?_⟩
    rw [read,read,write,getD_append _ _ _ _ before,getD_append _ _ _ _ before]
  · refine ⟨.inr ⟨rfl,Nat.le_trans within (Nat.le_add_right ..)⟩,?_⟩
    rw [read_current a]
    exact (read_current ⟨a.full,_,_⟩ offset length).trans (overwrite_before valid within)

theorem write_spec (hash : Bytes) :
    (a.write hash).offset ≤ (a.write hash).current.length ∧ (a.write hash).Safe ⟨a.full.length,a.offset,hash.length⟩ ∧
      (a.write hash).read ⟨a.full.length,a.offset,hash.length⟩ = hash ∧ a.Extends (a.write hash) := by
  refine ⟨?_,.inr ⟨rfl,le_rfl⟩,?_,write_extends valid hash⟩
  · simp only [write,overwrite,length_append,length_take,length_drop]
    omega
  · exact (read_current (a.write hash) a.offset hash.length).trans (overwrite_here valid)

theorem own_spec (short : hash.length ≤ 64*hashLen) :
    ∃ a' s, a.own hash = some (a',s) ∧ a'.offset ≤ a'.current.length ∧ a'.Safe s ∧ a'.read s = hash ∧ a.Extends a' := by
  by_cases room : a.left < hash.length
  · have fresh : ¬a.refill.left < hash.length := by
      rw [left,refill,length_replicate,Nat.sub_zero]
      exact Nat.not_lt.mpr short
    have copied : a.own hash = some (a.refill.write hash,⟨a.refill.full.length,a.refill.offset,hash.length⟩) := by
      rw [own,if_pos room]
      exact if_neg fresh
    obtain ⟨valid',safe,same,kept⟩ := write_spec (a := a.refill) (Nat.zero_le _) hash
    refine ⟨_,_,copied,valid',safe,same,fun s there => ?_⟩
    obtain ⟨moved,read⟩ := refill_extends a s there
    exact ⟨(kept s moved).1,(kept s moved).2.trans read⟩
  · have copied : a.own hash = some (a.write hash,⟨a.full.length,a.offset,hash.length⟩) := by
      rw [own,if_neg room]
      exact if_neg room
    exact ⟨_,_,copied,write_spec valid hash⟩

end

end Arena

/-- A slot of the answer: the file without its hash, and where the copy of the hash lies. -/
structure Held where
  file : File
  hash : Span

def Held.seen (a : Arena) (x : Held) : File := { x.file with hash := a.read x.hash }

def keep (a : Arena) (f : File) : Option (Arena × Held) := do
  let (a,s) ← a.own f.hash
  pure (a,⟨{ f with hash := [] },s⟩)

/-- `slices.SortFunc`, told what comes before what. -/
structure SortFunc where
  run : {α : Type} → (α → α → Bool) → List α → List α
  perm : ∀ {α : Type} (before : α → α → Bool) (l : List α), (run before l).Perm l
  ordered : ∀ {α : Type} (before : α → α → Bool) (l : List α), BinaryHeap.Strict before →
    (run before l).Pairwise (fun a b => before b a = false)

def SortFunc.insertion : SortFunc where
  run := fun before l => l.insertionSort (fun a b => before b a = false)
  perm := fun _ l => l.perm_insertionSort _
  ordered := fun {α} before l strict => by
    have total : Std.Total (fun a b : α => before b a = false) := ⟨fun a b => by
      cases higher : before b a with
      | false => exact .inl rfl
      | true => exact .inr (strict.asymm higher)⟩
    have trans : IsTrans α (fun a b => before b a = false) := ⟨fun _ _ _ first second => strict.chain first second⟩
    exact l.pairwise_insertionSort _

/-- `searchRanker`. -/
structure ArenaRanker where
  out : List Held := []
  ids : List Nat := []
  heap : Option (List RankEntry) := none
  seed : UInt64 := 0
  count : Nat := 0
  arena : Arena := {}

namespace ArenaRanker

/-- The ranker with each file's hash read where it lies. -/
def view (r : ArenaRanker) : SearchRanker := ⟨r.out.map (Held.seen r.arena),r.ids,r.heap,r.seed,r.count⟩

def overflow (expr : SearchExpr) (r : ArenaRanker) : ArenaRanker :=
  let ranked := r.view.overflow expr
  { r with seed := ranked.seed,ids := ranked.ids,heap := ranked.heap }

def add (expr : SearchExpr) (results scan : Nat) (r : ArenaRanker) (id : Nat) (f : File) :
    Option (ArenaRanker × Bool) :=
  let r := { r with count := r.count + 1 }
  if r.out.length < results then do
    let (arena,x) ← keep r.arena f
    pure ({ r with out := r.out ++ [x],ids := r.ids ++ [id],arena := arena },true)
  else
    let r := r.overflow expr
    match r.heap with
    | some (root :: rest) =>
      let e : RankEntry := ⟨f.sources,id,rankTie r.seed f,root.idx⟩
      if root.below e then do
        let (arena,x) ← keep r.arena f
        let h := SearchRanker.siftDown (root :: rest).length ((root :: rest).set 0 e) 0
        pure ({ r with out := r.out.set e.idx x,heap := some h,arena := arena },decide (r.count < scan))
      else some (r,decide (r.count < scan))
    | _ => none

def result (sorter : SortFunc) (r : ArenaRanker) : List File :=
  match r.heap with
  | none => r.out.map (Held.seen r.arena)
  | some h => (sorter.run (fun a b => b.below a) h).map fun e => (r.out.map (Held.seen r.arena)).getD e.idx {}

def rankMatches (expr : SearchExpr) (results scan : Nat) : ArenaRanker → List Match → Option ArenaRanker
  | r, [] => some r
  | r, m :: rest => do
    let (r,more) ← r.add expr results scan m.1 m.2
    if more then rankMatches expr results scan r rest else some r

def ranked (sorter : SortFunc) (expr : SearchExpr) (results scan : Nat) (ms : List Match) : Option (List File) :=
  (rankMatches expr results scan {} ms).map (result sorter)

/-- Every hash of the answer lies outside what is still free. -/
structure Sound (r : ArenaRanker) : Prop where
  valid : r.arena.offset ≤ r.arena.current.length
  safe : ∀ x ∈ r.out, r.arena.Safe x.hash

variable {expr : SearchExpr} {results scan : Nat} {seen : List Match} {r : ArenaRanker}

theorem keep_spec {a : Arena} {f : File} (valid : a.offset ≤ a.current.length) (short : f.hash.length ≤ 64*hashLen) :
    ∃ a' x, keep a f = some (a',x) ∧ a'.offset ≤ a'.current.length ∧ a'.Safe x.hash ∧ x.seen a' = f ∧ a.Extends a' := by
  obtain ⟨a',s,copied,valid',safe,same,kept⟩ := Arena.own_spec valid short
  refine ⟨a',⟨{ f with hash := [] },s⟩,?_,valid',safe,?_,kept⟩
  · rw [keep,copied]
    rfl
  · rw [Held.seen,same]

theorem Sound.seen_extends (sound : Sound r) (kept : r.arena.Extends a) :
    r.out.map (Held.seen a) = r.out.map (Held.seen r.arena) := by
  refine map_congr_left fun x there => ?_
  rw [Held.seen,Held.seen,(kept x.hash (sound.safe x there)).2]

theorem overflow_keeps (expr : SearchExpr) (r : SearchRanker) :
    (r.overflow expr).out = r.out ∧ (r.overflow expr).count = r.count := by
  rw [SearchRanker.overflow]
  split <;> exact ⟨rfl,rfl⟩

theorem view_overflow (expr : SearchExpr) (r : ArenaRanker) : (r.overflow expr).view = r.view.overflow expr := by
  obtain ⟨out,count⟩ := overflow_keeps expr r.view
  change SearchRanker.mk r.view.out (r.view.overflow expr).ids (r.view.overflow expr).heap
    (r.view.overflow expr).seed r.view.count = _
  rw [← out,← count]

theorem add_full (full : ¬r.out.length < results)
    (ranked : ({ r with count := r.count + 1 } : ArenaRanker).overflow expr = r')
    (heap : r'.heap = some (root :: rest)) (scan : Nat) (m : Match) :
    r.add expr results scan m.1 m.2 =
      if root.below (entryOf r'.seed m root.idx) then do
        let (arena,x) ← keep r'.arena m.2
        pure ({ r' with out := r'.out.set root.idx x,arena := arena,
                        heap := some (SearchRanker.siftDown (root :: rest).length
                          ((root :: rest).set 0 (entryOf r'.seed m root.idx)) 0) },decide (r'.count < scan))
      else some (r',decide (r'.count < scan)) := by
  rw [add]
  simp only
  rw [if_neg full,ranked]
  simp only [heap]
  rfl

/-- The ranker takes a match without a panic, and its slots show what the ranker of files would hold. -/
theorem add_view (sound : Sound r) (positive : 0 < results) (holds : SearchRanker.Holds expr results seen r.view)
    (scan id : Nat) (f : File) (short : f.hash.length ≤ 64*hashLen) :
    ∃ r' more, r.add expr results scan id f = some (r',more) ∧ Sound r' ∧
      r.view.add expr results scan id f = (r'.view,more) := by
  obtain ⟨a,x,kept,valid,safe,same,extends'⟩ := keep_spec sound.valid short
  have size : r.view.out.length = r.out.length := length_map _
  by_cases room : r.out.length < results
  · refine ⟨{ r with count := r.count + 1,out := r.out ++ [x],ids := r.ids ++ [id],arena := a },true,?_,⟨valid,?_⟩,?_⟩
    · rw [add]
      simp only
      rw [if_pos room,kept]
      rfl
    · intro y there
      rcases mem_append.mp there with there | there
      · exact (extends' y.hash (sound.safe y there)).1
      · exact mem_singleton.mp there ▸ safe
    · rw [SearchRanker.add]
      simp only
      rw [if_pos (size ▸ room)]
      simp only [view,map_append,map_singleton,same,sound.seen_extends extends']
  · have full : results ≤ seen.length := by
      rcases holds with ⟨_,out,_⟩ | ⟨_,_,_⟩
      · rw [out,length_map] at size
        omega
      · omega
    obtain ⟨root,_,heap,_⟩ := SearchRanker.overflow_spec positive holds full (r.count + 1)
    have viewed := view_overflow expr { r with count := r.count + 1 }
    have step : r.view.add expr results scan id f = _ :=
      SearchRanker.add_full (size ▸ room) viewed.symm (viewed ▸ heap) scan (id,f)
    rw [step,add_full (m := (id,f)) room rfl (viewed ▸ heap)]
    by_cases better : root.below (entryOf (({ r with count := r.count + 1 } : ArenaRanker).overflow expr).seed
        (id,f) root.idx) = true
    · rw [if_pos better,show keep (({ r with count := r.count + 1 } : ArenaRanker).overflow expr).arena f = _ from kept]
      refine ⟨_,_,rfl,⟨valid,fun y there => ?_⟩,?_⟩
      · rcases mem_or_eq_of_mem_set there with there | rfl
        · exact (extends' y.hash (sound.safe y there)).1
        · exact safe
      · refine Prod.ext ((if_pos better).trans ?_) rfl
        change SearchRanker.mk ((r.out.map (Held.seen r.arena)).set root.idx f) _ _ _ _ =
          SearchRanker.mk ((r.out.set root.idx x).map (Held.seen a)) _ _ _ _
        rw [map_set,same,sound.seen_extends extends']
        rfl
    · rw [if_neg better]
      exact ⟨_,_,rfl,⟨sound.valid,sound.safe⟩,Prod.ext (if_neg better) rfl⟩

/-- A whole search goes through without a panic, and shows what the ranker of files shows. -/
theorem rankMatches_view (sound : Sound r) (positive : 0 < results)
    (holds : SearchRanker.Holds expr results seen r.view) (rest : List Match)
    (distinct : ((seen ++ rest).map Prod.fst).Nodup) (short : ∀ m ∈ rest, m.2.hash.length ≤ 64*hashLen) :
    ∃ r', rankMatches expr results scan r rest = some r' ∧
      r'.view = SearchRanker.rankMatches expr results scan r.view rest := by
  induction rest generalizing seen r with
  | nil => exact ⟨r,rfl,rfl⟩
  | cons m _ ih =>
    obtain ⟨r',more,added,sound',viewed⟩ := add_view sound positive holds scan m.1 m.2 (short m (.head _))
    have parted := distinct
    rw [map_append,nodup_append] at parted
    have holds' := (SearchRanker.add_holds scan positive holds m
      (fun k there => parted.2.2 k.1 (mem_map_of_mem there) m.1 (.head _)) parted.1).1
    rw [viewed] at holds'
    rw [rankMatches,added,SearchRanker.rankMatches,viewed]
    cases more with
    | false => exact ⟨r',rfl,rfl⟩
    | true => exact ih sound' holds' (by simpa using distinct) fun k there => short k (.tail _ there)

theorem ranked_files (sorter : SortFunc) {r : ArenaRanker} (holds : SearchRanker.Holds expr results seen r.view)
    (distinct : (seen.map Prod.fst).Nodup) : (seen.length ≤ results → r.result sorter = seen.map Prod.snd) ∧
      (results < seen.length → ∃ best, r.result sorter = best.map Prod.snd ∧
        Best (ranksBelow (searchSeed expr)) results seen best) := by
  cases holds with
  | fits few out _ heap count =>
    refine ⟨fun _ => ?_,fun many => absurd few (Nat.not_le.mpr many)⟩
    have none' : r.heap = none := heap
    rw [result,none']
    exact out
  | ranked h many heap seeded slots chosen _ =>
    refine ⟨fun few => absurd few (Nat.not_le.mpr many),fun _ => ?_⟩
    have some' : r.heap = some h := heap
    have flipped : BinaryHeap.Strict fun a b : RankEntry => b.below a :=
      ⟨fun lower => below_strict.asymm lower,fun first second => below_strict.chain second first⟩
    rw [result,some',← seeded]
    refine ⟨_,?_,slots.best chosen distinct (sorter.perm _ h) (sorter.ordered _ h flipped)⟩
    rw [map_map]
    rfl

end ArenaRanker

open ArenaRanker

/-- With room for at least one result, and hashes that fit the blocks they are copied to. A scan bound that is not
above the number of results still lets one match more be seen. -/
theorem ranker_exact (sorter : SortFunc) (expr : SearchExpr) (results scan : Nat) (ms : List Match)
    (positive : 0 < results) (distinct : (ms.map Prod.fst).Nodup) (short : ∀ m ∈ ms, m.2.hash.length ≤ 64*hashLen) :
    ∃ answer, ranked sorter expr results scan ms = some answer ∧
      (ms.length ≤ results → answer = ms.map Prod.snd) ∧
      (results < ms.length → ∃ best, answer = best.map Prod.snd ∧
        Best (ranksBelow (searchSeed expr)) results (ms.take (max scan (results+1))) best) := by
  have start : SearchRanker.Holds expr results [] (view {}) := .fits (Nat.zero_le _) rfl rfl rfl rfl
  have sound : Sound {} := ⟨le_rfl,by simp⟩
  obtain ⟨r,run,viewed⟩ := rankMatches_view sound positive start ms distinct short
  have holds := SearchRanker.rankMatches_holds scan positive start ms distinct (show 0 < max scan (results+1) by omega)
  rw [← viewed,nil_append] at holds
  have seen : ((ms.take (max scan (results+1))).map Prod.fst).Nodup := by
    rw [map_take]
    exact distinct.sublist (take_sublist ..)
  obtain ⟨few,many⟩ := ranked_files sorter holds seen
  rw [length_take] at few many
  refine ⟨r.result sorter,by rw [ranked,run]; rfl,fun _ => ?_,fun _ => many (by omega)⟩
  rw [few (by omega),take_of_length_le (by omega)]

theorem ranker_exact_two :
    ∃ answer, ranked .insertion .nil 1 2 [(1,{ sources := 1 }),(2,{ sources := 5 })] = some answer ∧
      ([(1,({ sources := 1 } : File)),(2,{ sources := 5 })].length ≤ 1 → answer = [{ sources := 1 },{ sources := 5 }]) ∧
      (1 < [(1,({ sources := 1 } : File)),(2,{ sources := 5 })].length → ∃ best, answer = best.map Prod.snd ∧
        Best (ranksBelow (searchSeed .nil)) 1 [(1,{ sources := 1 }),(2,{ sources := 5 })] best) :=
  ranker_exact .insertion .nil 1 2 [(1,{ sources := 1 }),(2,{ sources := 5 })] (by decide) (by decide) (by decide)

/-- With one result and a scan bound of one, the second match is seen and wins; without room for a result the first
match is a panic. -/
theorem ranker_sees_past_scan :
    ranked .insertion .nil 1 1 [(1,{ sources := 1 }),(2,{ sources := 5 })] = some [{ sources := 5 }] ∧
      (∀ best : List Match, [{ sources := 5 }] = best.map Prod.snd →
        ¬Best (ranksBelow (searchSeed .nil)) 1 ([(1,{ sources := 1 }),(2,{ sources := 5 })].take 1) best) ∧
      ranked .insertion .nil 0 9 [(1,{})] = none := by
  refine ⟨by decide +kernel,fun _ same chosen => ?_,by decide +kernel⟩
  obtain ⟨dropped,perm,_⟩ := chosen.chosen
  obtain ⟨_,there,file⟩ := mem_map.mp (same ▸ mem_singleton_self ({ sources := 5 } : File))
  have first := perm.mem_iff.mp (mem_append_left dropped there)
  rw [mem_singleton.mp first] at file
  exact absurd (congrArg File.sources file) (by decide)

end ENode.Storage
