import ENode.SessionHandover

/-! The pages of one search. A session keeps the rows after the first page until a deadline;
each request for more filters them again, sends the next page and keeps the rest, while the
status ticker drops what has expired. -/
namespace ENode.Ed2k

open GoText Storage List

def maxSearchPage : Nat := 255

/-- What the pages of a session depend on: the rows the content filter withholds, and how many
rows are kept and for how long. -/
structure Paging where
  withheld : Bytes → Bytes → Bool
  moreResultsMax : Int
  moreResultsTTL : Int

/-- A page as it is sent, with its more-results flag. -/
structure Page where
  rows : List File
  more : Bool

namespace Paging

variable (p : Paging)

def withholdFiles (files : List File) : List File := files.filter (fun f => !p.withheld f.hash f.name)

def pendingRows (kept : Option PendingSearch) : List File := (kept.map (·.rows)).getD []

def dropExpiredResults (kept : Option PendingSearch) (now : Int) : Option PendingSearch :=
  kept.filter (fun s => decide (now < s.expires))

/-- The ticker looks at `ticks` between keeping the rest and reading the flag. -/
def sendSearchPageUntil (files : List File) (expires : Int) (ticks : List Int) : Option PendingSearch × Page :=
  let kept := ticks.foldl dropExpiredResults (keepPendingResults p.moreResultsMax (files.drop maxSearchPage) expires)
  (kept,⟨files.take maxSearchPage,decide ((pendingRows kept).length > 0)⟩)

def sendSearchPage (result : List File) (now : Int) (ticks : List Int) : Option PendingSearch × Page :=
  p.sendSearchPageUntil (p.withholdFiles result) (now + p.moreResultsTTL) ticks

/-- A request for more, and the ticker before it, between its steps and before its flag. -/
structure Request where
  now : Int
  ticks : List Int := []
  between : List Int := []
  sending : List Int := []

def handleQueryMoreResult (kept : Option PendingSearch) (r : Request) : Option PendingSearch × Page :=
  let kept := r.between.foldl dropExpiredResults (dropExpiredResults (r.ticks.foldl dropExpiredResults kept) r.now)
  match kept with
  | none => (none,⟨[],false⟩)
  | some search =>
    if search.rows = [] then (kept,⟨[],false⟩)
    else p.sendSearchPageUntil (p.withholdFiles search.rows) search.expires r.sending

def more : Option PendingSearch → List Request → List Page
  | _, [] => []
  | kept, r :: rest => (p.handleQueryMoreResult kept r).2 :: more (p.handleQueryMoreResult kept r).1 rest

def Request.Before (r : Request) (deadline : Int) : Prop :=
  r.now < deadline ∧ (∀ t ∈ r.ticks, t < deadline) ∧ (∀ t ∈ r.between, t < deadline) ∧ ∀ t ∈ r.sending, t < deadline

def pageAt (rows : List File) : Page := ⟨rows.take maxSearchPage,decide ((rows.drop maxSearchPage).length > 0)⟩

variable {p} {kept : Option PendingSearch} {deadline : Int}

/-- What is kept: rows the filter lets through, no more than the limit, until the deadline. -/
structure Keeps (p : Paging) (deadline : Int) (rows : List File) (kept : Option PendingSearch) : Prop where
  holds : pendingRows kept = rows
  expires : ∀ search ∈ kept, search.expires = deadline
  passed : p.withholdFiles rows = rows
  few : rows.length ≤ p.moreResultsMax.toNat

theorem ticks_keep (expires : ∀ search ∈ kept, search.expires = deadline) (ticks : List Int) (before : ∀ t ∈ ticks, t < deadline) :
    ticks.foldl dropExpiredResults kept = kept := by
  induction ticks with
  | nil => rfl
  | cons t _ ih =>
    have same : dropExpiredResults kept t = kept := by
      cases kept with
      | none => rfl
      | some search => simp [dropExpiredResults,expires search rfl,before t (.head _)]
    rw [foldl_cons,same]
    exact ih fun t member => before t (.tail _ member)

/-- A page sent leaves the next rows kept, up to the limit. -/
theorem sendSearchPageUntil_keeps (passed : p.withholdFiles files = files)
    (before : ∀ t ∈ ticks, t < deadline) :
    let rest := (files.drop maxSearchPage).take p.moreResultsMax.toNat
    Keeps p deadline rest (p.sendSearchPageUntil files deadline ticks).1 ∧
      (p.sendSearchPageUntil files deadline ticks).2 = ⟨files.take maxSearchPage,decide (rest.length > 0)⟩ := by
  intro rest
  have expires : ∀ search ∈ keepPendingResults p.moreResultsMax (files.drop maxSearchPage) deadline, search.expires = deadline := by
    intro _ held
    unfold keepPendingResults at held
    split at held
    · cases held
    obtain rfl := Option.some.inj held
    rfl
  have stays := ticks_keep expires ticks before
  have rows : pendingRows (keepPendingResults p.moreResultsMax (files.drop maxSearchPage) deadline) = rest := by
    unfold keepPendingResults pendingRows
    split
    next none => exact none.symm
    · rfl
  have within : rest.Sublist files := (take_sublist ..).trans (drop_sublist ..)
  have through : p.withholdFiles rest = rest := by
    refine filter_eq_self.mpr fun f member => ?_
    exact filter_eq_self.mp passed f (within.subset member)
  unfold sendSearchPageUntil
  rw [stays]
  refine ⟨⟨rows,expires,through,length_take_le ..⟩,?_⟩
  dsimp only
  rw [rows]

/-- A request before the deadline gets the next page of what is kept. -/
theorem handleQueryMoreResult_keeps (keeps : Keeps p deadline rows kept) {r : Request} (before : r.Before deadline) :
    Keeps p deadline (rows.drop maxSearchPage) (p.handleQueryMoreResult kept r).1 ∧
      (p.handleQueryMoreResult kept r).2 = pageAt rows := by
  obtain ⟨now,ticks,between,sending⟩ := before
  have still : r.between.foldl dropExpiredResults (dropExpiredResults (r.ticks.foldl dropExpiredResults kept) r.now) = kept := by
    rw [ticks_keep keeps.expires _ ticks]
    have same : dropExpiredResults kept r.now = kept := ticks_keep keeps.expires [r.now] (by simpa using now)
    rw [same,ticks_keep keeps.expires _ between]
  unfold handleQueryMoreResult
  rw [still]
  have listed := keeps.holds
  cases kept with
  | none =>
    obtain rfl : [] = rows := listed
    exact ⟨⟨rfl,by simp,rfl,Nat.zero_le _⟩,rfl⟩
  | some search =>
    obtain rfl : search.rows = rows := listed
    have until_ := keeps.expires search rfl
    dsimp only
    split
    next none =>
      rw [none]
      exact ⟨⟨none,keeps.expires,rfl,Nat.zero_le _⟩,rfl⟩
    · have small : (search.rows.drop maxSearchPage).take p.moreResultsMax.toNat = search.rows.drop maxSearchPage :=
        take_of_length_le ((drop_sublist ..).length_le.trans keeps.few)
      have sent := sendSearchPageUntil_keeps keeps.passed sending
      rw [keeps.passed,until_]
      rw [small] at sent
      exact sent

theorem more_pages (keeps : Keeps p deadline rows kept)
    (before : ∀ r ∈ requests, r.Before deadline) :
    p.more kept requests = (List.range requests.length).map fun i => pageAt (rows.drop (i * maxSearchPage)) := by
  induction requests generalizing kept rows with
  | nil => rfl
  | cons r _ ih =>
    obtain ⟨next,page⟩ := handleQueryMoreResult_keeps keeps (before r (.head _))
    rw [more,page,ih next fun r member => before r (.tail _ member),length_cons,range_succ_eq_map,
      map_cons,map_map,Nat.zero_mul,drop_zero]
    refine congrArg _ (map_congr_left fun _ _ => ?_)
    rw [Function.comp_apply,drop_drop,Nat.succ_mul,Nat.add_comm]

/-- The pages of a search and of any requests for more before its deadline are the parts, in
order and one after the other, of the first rows the filter lets through, each flagged when
the next request would get a row. -/
theorem search_pages (p : Paging) (result : List File) (now : Int) (ticks : List Int) (requests : List Request) :
    let deadline := now + p.moreResultsTTL
    let first := p.sendSearchPage result now ticks
    let pages := first.2 :: p.more first.1 requests
    let rows := (p.withholdFiles result).take (maxSearchPage + p.moreResultsMax.toNat)
    (∀ t ∈ ticks, t < deadline) → (∀ r ∈ requests, r.Before deadline) →
      pages.map Page.rows = (List.range (requests.length + 1)).map
        (fun i => (rows.drop (i * maxSearchPage)).take maxSearchPage) ∧
      (∀ page ∈ pages, page.rows.length ≤ maxSearchPage) ∧
      ∀ i, (h : i < requests.length) → (pages.map Page.more)[i]? =
        some (decide ((pages.map Page.rows)[i + 1]? ≠ some [])) := by
  intro deadline first pages rows quiet before
  have passed : p.withholdFiles (p.withholdFiles result) = p.withholdFiles result := by
    unfold withholdFiles
    rw [filter_filter]
    simp
  have sent : Keeps p deadline _ first.1 ∧ first.2 = _ := sendSearchPageUntil_keeps passed quiet
  obtain ⟨keeps,sent⟩ := sent
  have split : ((p.withholdFiles result).drop maxSearchPage).take p.moreResultsMax.toNat = rows.drop maxSearchPage := by
    rw [drop_take,Nat.add_sub_cancel_left]
  have shown : pages = (List.range (requests.length + 1)).map fun i => pageAt (rows.drop (i * maxSearchPage)) := by
    have start : first.2 = pageAt rows := by
      refine sent.trans ?_
      rw [split,pageAt,take_take,Nat.min_eq_left (Nat.le_add_right ..)]
    have rest := more_pages keeps before
    rw [split] at rest
    rw [range_succ_eq_map,map_cons,map_map,Nat.zero_mul,drop_zero,← start]
    refine congrArg _ (rest.trans (map_congr_left fun i _ => ?_))
    rw [Function.comp_apply,drop_drop,Nat.succ_mul,Nat.add_comm]
  refine ⟨by rw [shown,map_map]; rfl,fun _ member => ?_,fun i _ => ?_⟩
  · rw [shown] at member
    obtain ⟨_,-,rfl⟩ := mem_map.mp member
    exact length_take_le ..
  · rw [shown,map_map,map_map,getElem?_map,getElem?_map,getElem?_range (by omega),
      getElem?_range (by omega)]
    simp only [Option.map_some,Function.comp_apply,pageAt,drop_drop,Nat.succ_mul]
    congr 2
    simp [maxSearchPage]

/-- Three hundred rows take one request more. -/
theorem search_pages_two :
    let p : Paging := ⟨fun _ _ => false,510,60⟩
    let first := p.sendSearchPage (replicate 300 {}) 0 []
    ((first.2 :: p.more first.1 [{ now := 1 }]).map Page.rows).map List.length = [255,45] := by
  intro p _
  have pages := (search_pages p (replicate 300 {}) 0 [] [{ now := 1 }] (by simp) (by simp [Request.Before,p])).1
  rw [pages]
  decide +kernel

end Paging

end ENode.Ed2k
