import ENode.SearchMongo
import ENode.SearchManticore

/-! The engines' translations of one search expression compared: the SQL clause with the
memory engine's matcher, and the nodes each of them drops. -/
namespace ENode.Storage

open GoText ClauseReading

variable (u : Unicode)

section
variable (dialect : Dialect)

theorem buildSearchWhere_holds (expr : SearchExpr) (c : Clause) (kept : reduce u [] expr = .holds c) :
    buildSearchWhere u expr dialect = ((c.whereNode u dialect).sql,(c.whereNode u dialect).args) ∧
      (c.whereNode u dialect).sql ≠ "" ∧ ∀ leaf ∈ c.leaves, Supported u leaf.2 := by
  have supported : ∀ leaf ∈ c.leaves, Supported u leaf.2 := by
    intro leaf member
    have found : leaf ∈ (reduce u [] expr).leaves := by simpa [kept,Reduced.leaves] using member
    exact (reduce_leaves u expr [] found).2
  obtain ⟨unpruned,written⟩ := c.whereNode_kept u dialect supported
  refine ⟨?_,written,supported⟩
  simp [buildSearchWhere,buildSearchNode_reduce u dialect expr [],kept,Reduced.whereNode,unpruned]

theorem buildSearchWhere_empty (expr : SearchExpr)
    (dropped : reduce u [] expr = .pruned ∨ reduce u [] expr = .never) :
    buildSearchWhere u expr dialect = ("",[]) := by
  rcases dropped with h | h <;>
    simp [buildSearchWhere,buildSearchNode_reduce u dialect expr [],h,Reduced.whereNode,prunedNode,
      contradictionNode]

/-- The clause is empty exactly for a pruned or contradictory expression, and those are the
ones no assignment makes the matcher accept. -/
theorem buildSearchWhere_empty_iff (expr : SearchExpr) : ((buildSearchWhere u expr dialect).1 = "" ↔
      reduce u [] expr = .pruned ∨ reduce u [] expr = .never) ∧
    ((buildSearchWhere u expr dialect).1 = "" ↔ ∀ truth, verdict u truth expr = false) := by
  cases kept : reduce u [] expr with
  | pruned | never =>
    simp [buildSearchWhere_empty u dialect expr (by simp [kept]),verdict_reduce,kept,Reduced.accepts]
  | holds c =>
    obtain ⟨clause,written,_⟩ := buildSearchWhere_holds u dialect expr c kept
    obtain ⟨truth,holds⟩ := reduce_undecided u expr [] c kept true
    refine ⟨by simp [clause,written],?_⟩
    simp only [clause,written,false_iff,not_forall,verdict_reduce,kept,Reduced.accepts]
    exact ⟨truth,by simp [holds]⟩

/-- Read with each fragment as its leaf's truth value, the clause has the matcher's verdict;
it has no other reading, and every argument stands at its own leaf's placeholder. -/
theorem buildSearchWhere_reads (expr : SearchExpr)
    (written : (buildSearchWhere u expr dialect).1 ≠ "") (truth : Path → SearchExpr → Bool) :
    Reads (buildSearchWhere u expr dialect).1.toList (buildSearchWhere u expr dialect).2
      ((reduce u [] expr).leaves.map (leafPiece u dialect truth)) (verdict u truth expr) := by
  cases kept : reduce u [] expr with
  | pruned | never => simp [buildSearchWhere_empty u dialect expr (by simp [kept])] at written
  | holds c =>
    obtain ⟨clause,_,supported⟩ := buildSearchWhere_holds u dialect expr c kept
    rw [clause,verdict_reduce,kept]
    exact c.reads u dialect truth supported

theorem buildSearchWhere_placeholders (expr : SearchExpr) :
    placeholders (buildSearchWhere u expr dialect).1.toList = (buildSearchWhere u expr dialect).2.length ∧
    (buildSearchWhere u expr dialect).2 =
      (reduce u [] expr).leaves.flatMap (fun leaf => (buildSearchNode u dialect leaf.2).args) := by
  by_cases written : (buildSearchWhere u expr dialect).1 = ""
  · have dropped := (buildSearchWhere_empty_iff u dialect expr).1.mp written
    rw [buildSearchWhere_empty u dialect expr dropped]
    rcases dropped with h | h <;> simp [h,Reduced.leaves,placeholders]
  · have reads := buildSearchWhere_reads u dialect expr written (fun _ _ => true)
    refine ⟨reads.placeholders,?_⟩
    rw [reads.args,List.flatMap_map]
    rfl

end

/-- The SQL clause has the matcher's verdict under every assignment to the leaves, and the
five translations drop the same nodes. -/
theorem search_engines_agree (isContinuousScript : Char → Bool) (dialect : Dialect) (expr : SearchExpr) :
    let clause := buildSearchWhere u expr dialect
    let leaves := (reduce u [] expr).leaves
    (∀ truth : Path → SearchExpr → Bool, clause.1 ≠ "" →
      Reads clause.1.toList clause.2 (leaves.map (leafPiece u dialect truth)) (verdict u truth expr) ∧
      ∀ pieces value, Reads clause.1.toList clause.2 pieces value →
        pieces.map Piece.value = leaves.map (fun leaf => truth leaf.1 leaf.2) →
        value = verdict u truth expr) ∧
    (∀ file, searchMatch u expr file =
      verdict u (fun _ leaf => leafTruth u file (toLower u file.name) leaf) expr) ∧
    (clause.1 = "" ↔ ∀ truth, verdict u truth expr = false) ∧
    (clause.1 = "" ↔ reduce u [] expr = .pruned ∨ reduce u [] expr = .never) ∧
    placeholders clause.1.toList = clause.2.length ∧
    clause.2 = leaves.flatMap (fun leaf => (buildSearchNode u dialect leaf.2).args) ∧
    (buildSearchNode u dialect expr).prune = searchPrunes u expr ∧
    (mongoFilterNode u expr).prune = searchPrunes u expr ∧
    (manticoreNode u isContinuousScript expr).prune = searchPrunes u expr ∧
    ∀ minTok, (searchAnchor u minTok expr).prune = searchPrunes u expr := by
  have empty := buildSearchWhere_empty_iff u dialect expr
  have bound := buildSearchWhere_placeholders u dialect expr
  refine ⟨?_,?_,empty.2,empty.1,bound.1,bound.2,?_,?_,?_,?_⟩
  · intro truth written
    have reads := buildSearchWhere_reads u dialect expr written truth
    refine ⟨reads,fun _ _ other same => (other.unique reads).2 ?_⟩
    rw [same,List.map_map]
    rfl
  · intro _
    rw [searchMatch_reduce,verdict_reduce]
  · rw [searchPrunes_reduce u expr [],buildSearchNode_reduce u dialect expr []]
    exact (Reduced.whereNode_flags u dialect _ (fun _ h => (reduce_leaves u _ _ h).2)).1
  · rw [searchPrunes_reduce u expr [],(mongoFilterNode_shows u expr []).prune]
  · rw [searchPrunes_reduce u expr [],manticoreNode_prune u isContinuousScript expr []]
  · intro minTok
    rw [searchPrunes_reduce u expr [],searchAnchor_prune u minTok expr []]

end ENode.Storage
