import ENode.Feed
import ENode.QueryWidening

/-! The feed's prefilter. It wants every keyword of the request in the name as it was typed, while
the matcher wants its runs of letters and digits, so a keyword with punctuation inside may cost rows
that the tree accepts. -/
namespace ENode.Meta

open GoText Storage List

section
variable {E : Type}

theorem matchRelease_sub (member : row ∈ matchRelease fmt u expr rows) :
    row ∈ rows ∧ matchSearchExpr u expr row = true := by
  unfold matchRelease at member
  split at member
  · rename_i w first
    rw [mem_singleton.mp member]
    have accepted := find?_some first
    exact ⟨mem_of_find?_eq_some first,(Bool.and_eq_true_iff.mp accepted).2⟩
  · obtain ⟨inside,accepted⟩ := mem_filter.mp member
    exact ⟨inside,(Bool.and_eq_true_iff.mp accepted).2⟩

/-- A filter that keeps what a release answers with does not change the answer. -/
theorem matchRelease_filter {keep : File → Bool}
    (kept : ∀ row ∈ matchRelease fmt u expr rows, keep row = true) (row : File) :
    row ∈ matchRelease fmt u expr (rows.filter keep) ↔ row ∈ matchRelease fmt u expr rows := by
  unfold matchRelease at kept ⊢
  cases whole : rows.find? (fun row => isWholeSet fmt row && matchSearchExpr u expr row) with
  | some w =>
    rw [whole] at kept
    have first : (rows.filter keep).find? (fun row => isWholeSet fmt row && matchSearchExpr u expr row) = some w := by
      rw [find?_filter]
      obtain ⟨accepted,before,after,split,earlier⟩ := find?_eq_some_iff_append.mp whole
      refine find?_eq_some_iff_append.mpr ⟨?_,before,after,split,fun a inside => ?_⟩
      · exact decide_eq_true ⟨kept w (mem_singleton_self w),accepted⟩
      · have no := earlier a inside
        rw [Bool.not_eq_true'] at no ⊢
        exact decide_eq_false fun both => absurd both.2 (by rw [no]; exact Bool.false_ne_true)
    rw [first]
  | none =>
    rw [whole] at kept
    have still : (rows.filter keep).find? (fun row => isWholeSet fmt row && matchSearchExpr u expr row) = none :=
      find?_eq_none.mpr fun a inside => find?_eq_none.mp whole a (mem_filter.mp inside).1
    rw [still]
    simp only [mem_filter]
    constructor
    · exact fun ⟨⟨inside,_⟩,accepted⟩ => ⟨inside,accepted⟩
    · exact fun ⟨inside,accepted⟩ => ⟨⟨inside,kept row (mem_filter.mpr ⟨inside,accepted⟩)⟩,accepted⟩

theorem candidates_eq (rows : List (FeedRow u)) (lower : List Bytes) :
    Feed.candidates rows lower = (rows.map FeedRow.file).filter (fun file => containsAll (toLower u file.name) lower) := by
  rw [Feed.candidates,filter_map]
  refine congrArg _ (filter_congr fun row _ => ?_)
  rw [row.lowered]
  rfl

/-- A keyword that is one run, or has none, is in the name of every row that the tree accepts; only
the others are left to check. -/
theorem prefilter_iff (accepted : matchSearchExpr u expr row = true) :
    containsAll (toLower u row.name) ((buildQuery u expr).1.terms.map (toLower u)) = true ↔
      ∀ term ∈ (buildQuery u expr).1.terms, termRuns u (toLower u term) ≠ [toLower u term] →
        contains (toLower u row.name) (toLower u term) = true := by
  rw [containsAll,all_map,all_eq_true]
  refine ⟨fun all term isTerm _ => all term isTerm,fun broken term isTerm => ?_⟩
  by_cases whole : termRuns u (toLower u term) = [toLower u term]
  · have hit := (buildQuery_required accepted).terms term isTerm
    rw [matchSearchExpr_text,matchText_term (buildQuery_terms expr term isTerm),whole] at hit
    simpa using hit
  · exact broken term isTerm whole

end

section
variable {E : Type} (fmt : RowFormat E) {u : Unicode} (expr : SearchExpr)

/-- The rows that matching every held release against the whole tree returns. -/
def Feed.Answers (f : Feed u) (row : File) : Prop :=
  ∃ id rows, f.releases.lookup id = some rows ∧ row ∈ matchRelease fmt u expr (rows.map FeedRow.file)

/-- The search over the feed returns those rows, and each release is answered by the same ones. -/
structure Feed.Agrees (f : Feed u) (order : List (Bytes × List (FeedRow u))) (terms : List Bytes) (limit : Int) : Prop where
  rows : ∀ row, row ∈ Feed.matchRows fmt expr terms limit order ↔ f.Answers fmt expr row
  releases : ∀ id rows, f.releases.lookup id = some rows → ∀ row,
    row ∈ matchRelease fmt u expr (Feed.candidates rows (terms.map (toLower u))) ↔ row ∈ matchRelease fmt u expr (rows.map FeedRow.file)

variable {fmt expr}

theorem mem_matchRows (enough : ((Feed.found fmt expr terms order).length : Int) ≤ limit) (row : File) :
    row ∈ Feed.matchRows fmt expr terms limit order ↔ row ∈ Feed.found fmt expr terms order := by
  unfold Feed.matchRows
  split_ifs with none_
  · have empty : Feed.found fmt expr terms order = [] := length_eq_zero_iff.mp (by omega)
    rw [empty]
  · rw [take_of_length_le (by rw [length_mergeSort]; omega),mem_mergeSort]

theorem mem_found {order : List (Bytes × List (FeedRow u))} (row : File) :
    row ∈ Feed.found fmt expr terms order ↔
      ∃ release ∈ order, row ∈ matchRelease fmt u expr (Feed.candidates release.2 (terms.map (toLower u))) := by
  rw [Feed.found,mem_flatMap]
  refine exists_congr fun _ => and_congr_right fun _ => ?_
  dsimp only
  split_ifs with some_
  · exact Iff.rfl
  · rw [length_eq_zero_iff.mp (Nat.eq_zero_of_not_pos some_)]
    exact Iff.rfl

/-- With room for all rows the feed answers as the daemon's rows matched one by one would, exactly
when every keyword that is not a single run stands in the names of those rows as it was typed. -/
theorem feed_agrees_iff (fmt : RowFormat E) (u : Unicode) (expr : SearchExpr) (f : Feed u)
    (order : List (Bytes × List (FeedRow u))) (visits : f.releases.Visits order) (limit : Int)
    (enough : ((Feed.found fmt expr (buildQuery u expr).1.terms order).length : Int) ≤ limit) :
    f.Agrees fmt expr order (buildQuery u expr).1.terms limit ↔
      ∀ row, f.Answers fmt expr row → ∀ term ∈ (buildQuery u expr).1.terms, termRuns u (toLower u term) ≠ [toLower u term] →
        contains (toLower u row.name) (toLower u term) = true := by
  constructor
  · rintro ⟨agrees,_⟩ row answer
    have accepted : matchSearchExpr u expr row = true := by
      obtain ⟨id,rows,_,live⟩ := answer
      exact (matchRelease_sub live).2
    refine (prefilter_iff accepted).mp ?_
    have found := (mem_matchRows enough row).mp ((agrees row).mpr answer)
    obtain ⟨_,_,member⟩ := (mem_found row).mp found
    rw [candidates_eq] at member
    exact (mem_filter.mp (matchRelease_sub member).1).2
  · intro typed
    have releases : ∀ id rows, f.releases.lookup id = some rows → ∀ row,
        row ∈ matchRelease fmt u expr (Feed.candidates rows ((buildQuery u expr).1.terms.map (toLower u))) ↔
          row ∈ matchRelease fmt u expr (rows.map FeedRow.file) := by
      intro id rows held row
      rw [candidates_eq]
      exact matchRelease_filter (fun w live => (prefilter_iff (matchRelease_sub live).2).mpr (typed w ⟨id,rows,held,live⟩)) row
    refine ⟨fun row => ?_,releases⟩
    rw [mem_matchRows enough,mem_found]
    constructor
    · rintro ⟨⟨id,rows⟩,member,row_⟩
      have held := (visits.mem id rows).mp member
      exact ⟨id,rows,held,(releases id rows held row).mp row_⟩
    · rintro ⟨id,rows,held,row_⟩
      exact ⟨(id,rows),(visits.mem id rows).mpr held,(releases id rows held row).mpr row_⟩

end

def oneRelease (rows : List File) : Feed Unicode.ascii :=
  { maxRows := 10, rows := rows.length, releases := (∅ : GoMap _ _).insert (lit "id") (rows.map fun file => { file := file }) }

def plainRows : RowFormat Unit := { entryToFile := fun _ => none, fileIndexWholeSet32 := 0xffffffff }

def rowAt (name : String) (fileIndex : Nat) : File :=
  { name := lit name, metaInfo := some { (default : MetaInfo) with catalogID := lit "id", fileIndex := fileIndex } }

/-- A name with the typed keyword in it is found. -/
theorem feed_agrees_iff_typed : (oneRelease [rowAt "foo-bar x" 0]).Agrees plainRows (.ofText (lit "foo-bar"))
    (GoMap.pairs (oneRelease [rowAt "foo-bar x" 0]).releases) (buildQuery Unicode.ascii (.ofText (lit "foo-bar"))).1.terms 10 := by
  refine (feed_agrees_iff plainRows Unicode.ascii (.ofText (lit "foo-bar")) _ _ (List.Perm.refl _) 10 (by decide +kernel)).mpr ?_
  rintro row ⟨_,_,held,live⟩
  rw [oneRelease,GoMap.lookup_insert_ite] at held
  split_ifs at held
  · cases held
    have only : matchRelease plainRows Unicode.ascii (.ofText (lit "foo-bar")) [rowAt "foo-bar x" 0] = [rowAt "foo-bar x" 0] := by
      decide +kernel
    rw [show row = rowAt "foo-bar x" 0 from mem_singleton.mp (only ▸ live)]
    decide +kernel
  · cases held

/-- `foo-bar` matches `foo bar`, but the prefilter does not see it there: a row is lost, and where it
stood for its whole release a file of the release takes its place. -/
theorem prefilter_loses_rows :
    ¬(oneRelease [rowAt "foo bar" 0]).Agrees plainRows (.ofText (lit "foo-bar"))
      (GoMap.pairs (oneRelease [rowAt "foo bar" 0]).releases) (buildQuery Unicode.ascii (.ofText (lit "foo-bar"))).1.terms 10 ∧
    matchRelease plainRows Unicode.ascii (.ofText (lit "foo-bar")) [rowAt "foo bar" 0xffffffff,rowAt "foo bar - foo-bar" 0] =
      [rowAt "foo bar" 0xffffffff] ∧
    matchRelease plainRows Unicode.ascii (.ofText (lit "foo-bar")) (Feed.candidates (u := Unicode.ascii)
      [{ file := rowAt "foo bar" 0xffffffff },{ file := rowAt "foo bar - foo-bar" 0 }] [lit "foo-bar"]) =
      [rowAt "foo bar - foo-bar" 0] := by
  refine ⟨fun agrees => ?_,by decide +kernel,by decide +kernel⟩
  have answer : (oneRelease [rowAt "foo bar" 0]).Answers plainRows (.ofText (lit "foo-bar")) (rowAt "foo bar" 0) :=
    ⟨lit "id",_,rfl,by decide +kernel⟩
  have found := (mem_matchRows (by decide +kernel) _).mp ((agrees.rows _).mpr answer)
  exact absurd found (by decide +kernel)

end ENode.Meta
