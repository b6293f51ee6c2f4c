import ENode.Feed

/-! The stream that keeps a feed current. A message is a few steps in a row; what the feed holds is
told by the last change to each id since the last reset, and where a new subscription starts by the
cursors and snapshots so far. -/
namespace ENode.Meta

open GoText Storage List

/-- What a message does, one thing at a time. -/
inductive FeedStep (E : Type) where
  | reset
  | change (c : Change E)
  | snapshotEnd
  | cursor (value : Nat)

inductive StreamEvent (E : Type) where
  | message (msg : StreamMessage E)
  | breaks

/-- The feed with the points its subscriptions started after. -/
structure Subscriber (u : Unicode) where
  feed : Feed u
  asked : List Nat := [0]

section
variable {E : Type}

def StreamMessage.steps (msg : StreamMessage E) : List (FeedStep E) :=
  (if msg.reset then [.reset] else []) ++ msg.changes.map .change ++ (if msg.snapshotEnd then [.snapshotEnd] else []) ++
    [.cursor msg.cursor]

def FeedStep.cursor? : FeedStep E → Option Nat
  | .cursor value => some value
  | _ => none

def StreamEvent.message? : StreamEvent E → Option (StreamMessage E)
  | .message msg => some msg
  | .breaks => none

def messages (events : List (StreamEvent E)) : List (StreamMessage E) := events.filterMap StreamEvent.message?

def history (events : List (StreamEvent E)) : List (FeedStep E) := (messages events).flatMap StreamMessage.steps

variable (fmt : RowFormat E) {u : Unicode}

def Feed.step (f : Feed u) : FeedStep E → Feed u
  | .reset => f.reset
  | .change c => f.change fmt c
  | .snapshotEnd => f.snapshotEnd
  | .cursor value => f.advance value

def Feed.steps (f : Feed u) (history : List (FeedStep E)) : Feed u := history.foldl (Feed.step fmt) f

/-- A broken stream is followed by a new subscription. -/
def Subscriber.step (s : Subscriber u) : StreamEvent E → Subscriber u
  | .message msg => { s with feed := s.feed.apply fmt msg }
  | .breaks => { s with asked := s.asked ++ [s.feed.after] }

def Subscriber.run (s : Subscriber u) (events : List (StreamEvent E)) : Subscriber u := events.foldl (Subscriber.step fmt) s

theorem apply_steps (f : Feed u) (msg : StreamMessage E) : f.apply fmt msg = f.steps fmt msg.steps := by
  unfold Feed.apply Feed.steps StreamMessage.steps
  rw [foldl_append,foldl_append,foldl_append,foldl_map]
  cases msg.reset <;> cases msg.snapshotEnd <;> rfl

theorem run_feed (s : Subscriber u) (events : List (StreamEvent E)) :
    (s.run fmt events).feed = s.feed.steps fmt (history events) := by
  induction events generalizing s with
  | nil => rfl
  | cons event rest ih =>
    refine (ih (s.step fmt event)).trans ?_
    cases event with
    | breaks => rfl
    | message msg =>
      show (s.feed.apply fmt msg).steps fmt (history rest) = s.feed.steps fmt (msg.steps ++ history rest)
      rw [apply_steps,Feed.steps,Feed.steps,Feed.steps,foldl_append]

/-- One iteration of `lastChange`: the steps so far and the change found. -/
def changeStep (id : Bytes) (state : List (FeedStep E) × Option (List (FeedStep E) × Change E)) (s : FeedStep E) :
    List (FeedStep E) × Option (List (FeedStep E) × Change E) :=
  (state.1 ++ [s],
    match s with
    | .reset => none
    | .change c => if c.catalogId = id then some (state.1,c) else state.2
    | _ => state.2)

/-- The last change to an id since the last reset, with everything before it. -/
def lastChange (id : Bytes) (history : List (FeedStep E)) : Option (List (FeedStep E) × Change E) :=
  (history.foldl (changeStep id) ([],none)).2

/-- What a feed is to hold of an id: the valid rows of its last upsert, if that is its last change and
the rows found room then. -/
def published (f : Feed u) (history : List (FeedStep E)) (id : Bytes) : Option (List (FeedRow u)) :=
  match lastChange id history with
  | none => none
  | some (before,c) =>
    let rows : List (FeedRow u) := Feed.convert fmt c.entries
    if c.op = .upsert ∧ 0 < rows.length ∧ ((f.steps fmt before).removeLocked id).rows + rows.length ≤ f.maxRows then some rows
    else none

def inSnapshot (history : List (FeedStep E)) : Bool :=
  history.foldl (fun inside s =>
    match s with
    | .reset => true
    | .snapshotEnd => false
    | _ => inside) false

def carried (msgs : List (StreamMessage E)) : List Nat := (msgs.map StreamMessage.cursor).filter (· ≠ 0)

/-- Where a new subscription is to start: from zero inside a snapshot, else after the last cursor. -/
def resumePoint (events : List (StreamEvent E)) : Nat :=
  if inSnapshot (history events) then 0 else (carried (messages events)).getLast?.getD 0

end

/-- The rows held, counted over the map. -/
def Feed.count {u : Unicode} (f : Feed u) : Int := ((GoMap.pairs f.releases).map fun release => (release.2.length : Int)).sum

/-- What every step keeps. While a snapshot runs, all that is held was sent by it. -/
structure Feed.Sound {u : Unicode} (f : Feed u) : Prop where
  counted : f.rows = f.count
  bounded : f.rows ≤ f.maxRows
  resent : ∀ ids, f.seen = some ids → ∀ id rows, f.releases.lookup id = some rows → id ∈ ids

theorem pairs_erase_perm [DecidableEq K] {m : GoMap K V} (held : m.lookup k = some v) :
    ((k,v) :: GoMap.pairs (m.erase k)).Perm (GoMap.pairs m) := by
  have distinct : ∀ m : GoMap K V, (GoMap.pairs m).Nodup := fun m => List.Nodup.of_map Prod.fst m.pairs_keys_nodup
  refine (perm_ext_iff_of_nodup (nodup_cons.mpr ⟨?_,distinct _⟩) (distinct m)).mpr fun ⟨k',v'⟩ => ?_
  · rw [GoMap.mem_pairs,GoMap.lookup_erase_ite,if_pos rfl]
    exact fun no => by cases no
  · rw [mem_cons,GoMap.mem_pairs,GoMap.mem_pairs,GoMap.lookup_erase_ite]
    split_ifs with same
    · subst same
      rw [held]
      constructor
      · rintro (is | no)
        · cases is
          rfl
        · cases no
      · intro is
        cases is
        exact .inl rfl
    · constructor
      · rintro (is | old)
        · cases is
          exact absurd rfl same
        · exact old
      · exact .inr

namespace Feed

section
variable {E : Type} {fmt : RowFormat E} {u : Unicode} {f : Feed u}

theorem removeLocked_lookup (f : Feed u) (id key : Bytes) :
    (f.removeLocked id).releases.lookup key = if key = id then none else f.releases.lookup key := by
  unfold removeLocked
  cases held : f.releases.lookup id with
  | none =>
    dsimp only
    split_ifs with same
    · rw [same,held]
    · rfl
  | some _ => exact GoMap.lookup_erase_ite ..

theorem removeLocked_same (f : Feed u) (id : Bytes) : (f.removeLocked id).maxRows = f.maxRows ∧
    (f.removeLocked id).seen = f.seen ∧ (f.removeLocked id).cursor = f.cursor := by
  unfold removeLocked
  cases f.releases.lookup id <;> exact ⟨rfl,rfl,rfl⟩

theorem Sound.removeLocked (sound : f.Sound) (id : Bytes) : (f.removeLocked id).Sound := by
  obtain ⟨_,seen,_⟩ := f.removeLocked_same id
  have resent : ∀ ids, (f.removeLocked id).seen = some ids → ∀ key rows,
      (f.removeLocked id).releases.lookup key = some rows → key ∈ ids := by
    intro ids isSeen key rows held
    rw [f.removeLocked_lookup] at held
    split_ifs at held
    exact sound.resent ids (seen ▸ isSeen) key rows held
  unfold Feed.removeLocked at resent ⊢
  cases held : f.releases.lookup id with
  | none =>
    rw [held] at resent
    exact sound
  | some rows =>
    rw [held] at resent
    have sums := ((pairs_erase_perm held).map fun release => (release.2.length : Int)).sum_eq
    rw [map_cons,sum_cons] at sums
    dsimp only at sums
    have counted := sound.counted
    have bounded := sound.bounded
    unfold count at counted
    refine ⟨?_,?_,resent⟩
    · show f.rows - rows.length = ((GoMap.pairs (f.releases.erase id)).map fun release => (release.2.length : Int)).sum
      omega
    · show f.rows - rows.length ≤ f.maxRows
      omega

theorem Sound.empty (maxRows : Nat) : ({ maxRows := maxRows } : Feed u).Sound :=
  ⟨rfl,Int.natCast_nonneg maxRows,fun _ no => by cases no⟩

theorem Sound.reset (f : Feed u) : f.reset.Sound :=
  ⟨rfl,Int.natCast_nonneg f.maxRows,fun _ _ _ _ no => by simp [Feed.reset] at no⟩

theorem addLocked_lookup {f : Feed u} (id key : Bytes) (entries : List E) (new : f.releases.lookup id = none) :
    (f.addLocked fmt id entries).releases.lookup key =
      if key = id then
        if 0 < (convert fmt entries : List (FeedRow u)).length ∧ f.rows + (convert fmt entries : List (FeedRow u)).length ≤ f.maxRows
        then some (convert fmt entries) else none
      else f.releases.lookup key := by
  unfold addLocked
  dsimp only
  by_cases isKey : key = id
  · subst isKey
    rw [if_pos rfl]
    split_ifs with none_ large fits fits
    · omega
    · exact new
    · omega
    · exact new
    · exact AList.lookup_insert _
    · omega
  · rw [if_neg isKey]
    split_ifs
    · rfl
    · rfl
    · exact AList.lookup_insert_ne isKey

theorem Sound.addLocked (sound : f.Sound) (id : Bytes) (entries : List E) (new : f.releases.lookup id = none)
    (seen : ∀ ids, f.seen = some ids → id ∈ ids) : (f.addLocked fmt id entries).Sound := by
  unfold Feed.addLocked
  dsimp only
  split_ifs with none_ large
  · exact sound
  · exact sound
  · have counted := sound.counted
    unfold count at counted
    refine ⟨?_,?_,fun ids isSeen key rows _ => ?_⟩
    · show f.rows + _ = ((GoMap.pairs (f.releases.insert id _)).map fun release => (release.2.length : Int)).sum
      rw [GoMap.pairs_insert_fresh _ _ _ new,map_cons,sum_cons]
      dsimp only
      omega
    · show f.rows + _ ≤ f.maxRows
      omega
    · by_cases isKey : key = id
      · rw [isKey]
        exact seen ids isSeen
      · exact sound.resent ids isSeen key rows (by rwa [← AList.lookup_insert_ne isKey])

theorem Sound.snapshotEnd_eq (sound : f.Sound) : f.snapshotEnd = { f with seen := none } := by
  unfold Feed.snapshotEnd
  cases seen : f.seen with
  | none =>
    obtain ⟨⟩ := f
    cases seen
    rfl
  | some ids =>
    have none_ : ∀ keys : List Bytes, (∀ id ∈ keys, id ∈ f.releases.keys) →
        keys.foldl (fun f id => if ids.contains id then f else f.removeLocked id) f = f := by
      intro keys
      induction keys with
      | nil => exact fun _ => rfl
      | cons id _ ih =>
        intro held
        have isKey : id ∈ f.releases := AList.mem_keys.mpr (held id (.head _))
        obtain ⟨rows,isHeld⟩ := Option.isSome_iff_exists.mp (AList.lookup_isSome.mpr isKey)
        rw [foldl_cons,if_pos (contains_iff_mem.mpr (sound.resent ids seen id rows isHeld))]
        exact ih fun id member => held id (.tail _ member)
    dsimp only
    rw [none_ _ fun _ member => member]

theorem change_lookup (f : Feed u) (c : Change E) (key : Bytes) : (f.change fmt c).releases.lookup key =
    if key = c.catalogId then
      if c.op = .upsert ∧ 0 < (convert fmt c.entries : List (FeedRow u)).length ∧
        (f.removeLocked c.catalogId).rows + (convert fmt c.entries : List (FeedRow u)).length ≤ f.maxRows
      then some (convert fmt c.entries) else none
    else f.releases.lookup key := by
  have cleared := f.removeLocked_lookup c.catalogId
  have gone : (f.removeLocked c.catalogId).releases.lookup c.catalogId = none := (cleared _).trans (if_pos rfl)
  obtain ⟨maxRows,_,_⟩ := f.removeLocked_same c.catalogId
  unfold change
  dsimp only
  split_ifs with other isKey upserts isKey fits
  · exact absurd upserts.1 other
  · rw [cleared,if_pos isKey]
  · rw [cleared,if_neg isKey]
  · rw [addLocked_lookup _ _ _ (by exact gone),if_pos isKey,maxRows,if_pos fits.2]
  · rw [addLocked_lookup _ _ _ (by exact gone),if_pos isKey,maxRows,
      if_neg fun room => fits ⟨not_not.mp other,room⟩]
  · rw [addLocked_lookup _ _ _ (by exact gone),if_neg isKey]
    exact (cleared key).trans (if_neg isKey)

theorem Sound.change (sound : f.Sound) (c : Change E) : (f.change fmt c).Sound := by
  have removed := sound.removeLocked c.catalogId
  unfold Feed.change
  dsimp only
  split_ifs
  · exact removed
  · have noted : ({ f.removeLocked c.catalogId with
        seen := (f.removeLocked c.catalogId).seen.map (c.catalogId :: ·) } : Feed u).Sound := by
      refine ⟨removed.counted,removed.bounded,fun ids isSeen key rows held => ?_⟩
      obtain ⟨before,wasSeen,rfl⟩ := Option.map_eq_some_iff.mp isSeen
      exact .tail _ (removed.resent before wasSeen key rows held)
    refine noted.addLocked _ _ ((f.removeLocked_lookup ..).trans (if_pos rfl)) fun _ isSeen => ?_
    obtain ⟨_,_,rfl⟩ := Option.map_eq_some_iff.mp isSeen
    exact .head _

theorem Sound.step (sound : f.Sound) (s : FeedStep E) : (f.step fmt s).Sound := by
  cases s with
  | reset => exact Sound.reset f
  | change c => exact sound.change c
  | snapshotEnd =>
    show f.snapshotEnd.Sound
    rw [sound.snapshotEnd_eq]
    exact ⟨sound.counted,sound.bounded,fun _ no => by cases no⟩
  | cursor value =>
    show (f.advance value).Sound
    unfold advance
    split_ifs
    · exact ⟨sound.counted,sound.bounded,sound.resent⟩
    · exact sound

theorem Sound.steps (sound : f.Sound) (history : List (FeedStep E)) : (f.steps fmt history).Sound := by
  induction history generalizing f with
  | nil => exact sound
  | cons s _ ih => exact ih (sound.step s)

theorem steps_concat (f : Feed u) (history : List (FeedStep E)) (s : FeedStep E) :
    f.steps fmt (history ++ [s]) = (f.steps fmt history).step fmt s := foldl_concat ..

theorem change_same (f : Feed u) (c : Change E) : (f.change fmt c).maxRows = f.maxRows ∧
    (f.change fmt c).seen.isSome = f.seen.isSome ∧ (f.change fmt c).cursor = f.cursor := by
  obtain ⟨maxRows,seen,cursor⟩ := f.removeLocked_same c.catalogId
  unfold change addLocked
  dsimp only
  split_ifs
  · exact ⟨maxRows,by rw [seen],cursor⟩
  all_goals exact ⟨maxRows,by rw [Option.isSome_map,seen],cursor⟩

theorem step_maxRows (sound : f.Sound) (s : FeedStep E) : (f.step fmt s).maxRows = f.maxRows := by
  cases s with
  | reset => rfl
  | change c => exact (f.change_same c).1
  | snapshotEnd => rw [show f.step fmt .snapshotEnd = _ from sound.snapshotEnd_eq]
  | cursor value =>
    show (f.advance value).maxRows = f.maxRows
    unfold advance
    split_ifs <;> rfl

theorem steps_maxRows (sound : f.Sound) (history : List (FeedStep E)) : (f.steps fmt history).maxRows = f.maxRows := by
  induction history using reverseRecOn with
  | nil => rfl
  | append_singleton rest _ ih => rw [steps_concat,step_maxRows (sound.steps rest),ih]

theorem lastChange_steps (id : Bytes) (history : List (FeedStep E)) :
    (history.foldl (changeStep id) ([],none)).1 = history := by
  induction history using reverseRecOn with
  | nil => rfl
  | append_singleton rest s ih =>
    rw [foldl_concat]
    show (rest.foldl (changeStep id) ([],none)).1 ++ [s] = rest ++ [s]
    rw [ih]

/-- The feed holds what the stream published. -/
theorem steps_published (sound : f.Sound) (empty : f.releases = ∅) (history : List (FeedStep E)) (id : Bytes) :
    (f.steps fmt history).releases.lookup id = published fmt f history id := by
  induction history using reverseRecOn with
  | nil =>
    show f.releases.lookup id = none
    rw [empty]
    rfl
  | append_singleton rest s ih =>
    have told : lastChange id (rest ++ [s]) = (changeStep id (rest,lastChange id rest) s).2 := by
      rw [lastChange,foldl_concat,lastChange]
      conv_lhs => rw [show rest.foldl (changeStep id) ([],none) =
        (rest,(rest.foldl (changeStep id) ([],none)).2) from Prod.ext (lastChange_steps id rest) rfl]
    have maxRows : (f.steps fmt rest).maxRows = f.maxRows := steps_maxRows sound rest
    rw [steps_concat]
    unfold published at ih ⊢
    rw [told]
    cases s with
    | reset => rfl
    | change c =>
      show ((f.steps fmt rest).change fmt c).releases.lookup id = _
      rw [change_lookup]
      dsimp only [changeStep]
      by_cases isId : id = c.catalogId
      · subst isId
        rw [if_pos rfl,if_pos rfl,maxRows]
      · rw [if_neg isId,if_neg (Ne.symm isId)]
        exact ih
    | snapshotEnd =>
      show (f.steps fmt rest).snapshotEnd.releases.lookup id = _
      rw [(sound.steps rest).snapshotEnd_eq]
      exact ih
    | cursor value =>
      show ((f.steps fmt rest).advance value).releases.lookup id = _
      unfold advance
      split_ifs <;> exact ih

theorem steps_inSnapshot (sound : f.Sound) (fresh : f.seen = none) (history : List (FeedStep E)) :
    (f.steps fmt history).seen.isSome = inSnapshot history := by
  induction history using reverseRecOn with
  | nil => rw [show f.steps fmt [] = f from rfl,fresh]; rfl
  | append_singleton rest s ih =>
    rw [steps_concat,inSnapshot,foldl_concat,← inSnapshot]
    cases s with
    | reset => rfl
    | change c => exact ((f.steps fmt rest).change_same c).2.1.trans ih
    | snapshotEnd => rw [show (f.steps fmt rest).step fmt .snapshotEnd = _ from (sound.steps rest).snapshotEnd_eq]; rfl
    | cursor value =>
      show ((f.steps fmt rest).advance value).seen.isSome = _
      unfold advance
      split_ifs <;> exact ih

theorem step_cursor (sound : f.Sound) (s : FeedStep E) :
    (f.step fmt s).cursor = (s.cursor?.toList).foldl max f.cursor := by
  cases s with
  | reset => rfl
  | change c => exact (f.change_same c).2.2
  | snapshotEnd => rw [show f.step fmt .snapshotEnd = _ from sound.snapshotEnd_eq]; rfl
  | cursor value =>
    show (f.advance value).cursor = max f.cursor value
    unfold advance
    split_ifs with later
    · exact (max_eq_right (Nat.le_of_lt later)).symm
    · exact (max_eq_left (Nat.le_of_not_lt later)).symm

theorem steps_cursor (sound : f.Sound) (history : List (FeedStep E)) :
    (f.steps fmt history).cursor = (history.filterMap FeedStep.cursor?).foldl max f.cursor := by
  induction history using reverseRecOn with
  | nil => rfl
  | append_singleton rest s ih =>
    rw [steps_concat,step_cursor (sound.steps rest),ih,filterMap_append,foldl_append]
    cases s <;> rfl

end

end Feed

section
variable {E : Type}

theorem history_cursors (events : List (StreamEvent E)) :
    (history events).filterMap FeedStep.cursor? = (messages events).map StreamMessage.cursor := by
  have one (msg : StreamMessage E) : msg.steps.filterMap FeedStep.cursor? = [msg.cursor] := by
    have changes : (msg.changes.map FeedStep.change).filterMap FeedStep.cursor? = [] := by
      rw [filterMap_map]
      exact filterMap_eq_nil_iff.mpr fun _ _ => rfl
    unfold StreamMessage.steps
    rw [filterMap_append,filterMap_append,filterMap_append,changes]
    cases msg.reset <;> cases msg.snapshotEnd <;> rfl
  rw [history,filterMap_flatMap]
  induction messages events with
  | nil => rfl
  | cons _ _ ih => rw [flatMap_cons,ih,one,map_cons,singleton_append]

theorem foldl_max_last {cursors : List Nat} (forward : (cursors.filter (· ≠ 0)).Pairwise (· ≤ ·)) :
    cursors.foldl max 0 = (cursors.filter (· ≠ 0)).getLast?.getD 0 := by
  induction cursors using reverseRecOn with
  | nil => rfl
  | append_singleton rest cursor ih =>
    rw [filter_append] at forward ⊢
    obtain ⟨before,_,last⟩ := pairwise_append.mp forward
    rw [foldl_concat,ih before]
    by_cases zero : cursor = 0
    · rw [zero]
      simp
    · have kept : [cursor].filter (· ≠ 0) = [cursor] := by simp [zero]
      rw [kept] at last ⊢
      rw [getLast?_concat,Option.getD_some]
      refine max_eq_right ?_
      cases end_ : (rest.filter (· ≠ 0)).getLast? with
      | none => exact Nat.zero_le _
      | some value => exact last value (mem_of_getLast? end_) cursor (mem_singleton_self _)

/-- One iteration of `resumePoints`: the events so far and the points. -/
def resumeStep (state : List (StreamEvent E) × List Nat) (event : StreamEvent E) : List (StreamEvent E) × List Nat :=
  (state.1 ++ [event],
    match event with
    | .message _ => state.2
    | .breaks => state.2 ++ [resumePoint state.1])

/-- The points that the subscriptions of a run are to start after; the first starts from zero. -/
def resumePoints (events : List (StreamEvent E)) : List Nat := (events.foldl resumeStep ([],[0])).2

theorem resumePoints_events (events : List (StreamEvent E)) : (events.foldl resumeStep ([],[0])).1 = events := by
  induction events using reverseRecOn with
  | nil => rfl
  | append_singleton rest event ih =>
    rw [foldl_concat]
    show (rest.foldl resumeStep ([],[0])).1 ++ [event] = rest ++ [event]
    rw [ih]

variable (fmt : RowFormat E) (u : Unicode) (maxRows : Nat)

theorem after_resumes (forward : (carried (messages events)).Pairwise (· ≤ ·)) :
    (({ maxRows := maxRows } : Feed u).steps fmt (history events)).after = resumePoint events := by
  have sound : ({ maxRows := maxRows } : Feed u).Sound := .empty maxRows
  unfold Feed.after resumePoint
  rw [Feed.steps_inSnapshot sound rfl,Feed.steps_cursor sound,history_cursors]
  split_ifs
  · rfl
  · exact foldl_max_last forward

theorem run_asked (forward : (carried (messages events)).Pairwise (· ≤ ·)) :
    (({ feed := { maxRows := maxRows } } : Subscriber u).run fmt events).asked = resumePoints events := by
  induction events using reverseRecOn with
  | nil => rfl
  | append_singleton rest event ih =>
    have earlier : (carried (messages rest)).Pairwise (· ≤ ·) := by
      unfold carried messages at forward ⊢
      rw [filterMap_append,map_append,filter_append] at forward
      exact (pairwise_append.mp forward).1
    have asked := ih earlier
    have past : rest.foldl resumeStep ([],[0]) = (rest,resumePoints rest) := Prod.ext (resumePoints_events rest) rfl
    rw [resumePoints,foldl_concat,past,Subscriber.run,foldl_concat,← Subscriber.run]
    cases event with
    | message _ => exact asked
    | breaks =>
      show Subscriber.asked _ ++ [Feed.after _] = resumePoints rest ++ [resumePoint rest]
      rw [run_feed,after_resumes fmt u maxRows earlier]
      exact congrArg (· ++ _) asked

/-- In every run the feed holds what was published, counts it and keeps to its limit. When the cursors
that messages carry never fall, every subscription starts where it is to. -/
theorem feed_resumes (events : List (StreamEvent E)) :
    let s := ({ feed := { maxRows := maxRows } } : Subscriber u).run fmt events
    (∀ id, s.feed.releases.lookup id = published fmt { maxRows := maxRows } (history events) id) ∧
    s.feed.rows = s.feed.count ∧ s.feed.rows ≤ maxRows ∧
      ((carried (messages events)).Pairwise (· ≤ ·) → s.asked = resumePoints events) := by
  intro s
  have sound : ({ maxRows := maxRows } : Feed u).Sound := .empty maxRows
  have feed : s.feed = ({ maxRows := maxRows } : Feed u).steps fmt (history events) := run_feed ..
  have kept : (({ maxRows := maxRows } : Feed u).steps fmt (history events)).Sound := sound.steps (history events)
  refine ⟨fun id => ?_,?_,?_,run_asked fmt u maxRows⟩
  · rw [feed]
    exact Feed.steps_published sound rfl (history events) id
  · rw [feed]
    exact kept.counted
  · have bounded := kept.bounded
    rwa [Feed.steps_maxRows sound,← feed] at bounded

end

def anyRows : RowFormat File := { entryToFile := some, fileIndexWholeSet32 := 0xffffffff }

/-- A stream that breaks inside its snapshot and once more after it. -/
theorem feed_resumes_snapshot :
    (({ feed := { maxRows := 9 } } : Subscriber Unicode.ascii).run anyRows
      [.message { reset := true, changes := [{ catalogId := lit "id", op := .upsert, entries := [{}] }] },.breaks,
        .message { snapshotEnd := true, cursor := 5 },.breaks]).asked = [0,0,5] :=
  (feed_resumes anyRows Unicode.ascii 9 _).2.2.2 (by decide)

/-- After a reset the cursors start over, and the next subscription asks past all of them. -/
theorem cursor_outlives_reset :
    let events : List (StreamEvent File) :=
      [.message { cursor := 100 },.message { reset := true, snapshotEnd := true, cursor := 5 },.breaks]
    resumePoints events = [0,5] ∧
    (({ feed := { maxRows := 9 } } : Subscriber Unicode.ascii).run anyRows events).asked = [0,100] := by
  decide

end ENode.Meta
