import ENode.Mirror

/-! What the mirror is for: a ledger of who claims which file, from which walk and with
what counts. The mirror refines it, and its search answers as a scan of its files does. -/
namespace ENode.Storage

open GoText Slab SortedLists List

structure Claim where
  walk : Nat
  sources : Nat
  completed : Nat

/-- The claims by origin and file, and how the last report of a file described it. -/
@[ext] structure Ledger where
  claims : Nat → MapKey → Option Claim
  described : MapKey → Option File

namespace Ledger

def empty : Ledger := ⟨fun _ _ => none,fun _ => none⟩

def Holds (l : Ledger) (key : MapKey) : Prop := ∃ origin, (l.claims origin key).isSome = true

/-- What a report says of a file apart from its counts. -/
def metadata (f : File) : File := { Mirror.description f with sources := 0, completed := 0 }

open Classical in
/-- A file that is not held needs room. -/
noncomputable def putFile (maxFiles : Int) (origin walk : Nat) (l : Ledger) (f : File) : Ledger :=
  if f.hash.length ≠ hashLen ∨ f.name = [] then l
  else if l.Holds f.mapKey ∨ ({ key | l.Holds key }.ncard : Int) < maxFiles then
    { claims := fun o key => if o = origin ∧ key = f.mapKey then some ⟨walk,f.sources,f.completed⟩ else l.claims o key
      described := fun key => if key = f.mapKey then some (metadata f) else l.described key }
  else l

open Classical in
noncomputable def drop (gone : Nat → Claim → Bool) (l : Ledger) : Ledger :=
  let claims := fun o key => (l.claims o key).filter (fun c => !gone o c)
  { claims := claims
    described := fun key => if ∃ o, (claims o key).isSome = true then l.described key else none }

end Ledger

/-- The calls that change a mirror. -/
inductive MirrorOp where
  | put (origin walk : Nat) (files : List File)
  | sweep (origin walk : Nat)
  | drop (origin : Nat)

noncomputable def Ledger.step (maxFiles : Int) (l : Ledger) : MirrorOp → Ledger
  | .put origin walk files => files.foldl (putFile maxFiles origin walk) l
  | .sweep origin walk => l.drop (fun o c => o == origin && c.walk != walk)
  | .drop origin => l.drop (fun o _ => o == origin)

namespace Mirror

def step (u : Unicode) (m : Mirror) : MirrorOp → Mirror
  | .put origin walk files => (m.put u origin walk files).1
  | .sweep origin walk => (m.sweep u origin walk).1
  | .drop origin => (m.drop u origin).1

def claim (r : MirrorRef) : Claim := ⟨r.walk,r.sources,r.completed⟩

def ledger (m : Mirror) : Ledger where
  claims origin key := (m.files.lookup key).bind (fun id =>
    ((m.refsOf id).find? (fun r => r.origin == origin)).map claim)
  described key := (m.files.lookup key).map (fun id => Ledger.metadata (m.record id))

def liveFiles (m : Mirror) : List File :=
  ((List.range m.recs.length).map m.record).filter (fun f => decide (f.hash ≠ []))

section
variable {u : Unicode} {m : Mirror}

theorem holds_iff (valid : m.Valid u dead) (key : MapKey) : m.ledger.Holds key ↔ ∃ id, m.files.lookup key = some id := by
  constructor
  · rintro ⟨_,held⟩
    rcases Option.eq_none_or_eq_some (m.files.lookup key) with none_ | known
    · simp [ledger,none_] at held
    · exact known
  · rintro ⟨id,known⟩
    obtain ⟨live,_⟩ := (valid.keyed key id).mp known
    obtain ⟨r,_,refs⟩ := exists_cons_of_ne_nil ((valid.slots id).referenced.mp live)
    exact ⟨r.origin,by simp [ledger,known,refs]⟩

theorem holds_ncard (valid : m.Valid u dead) : { key | m.ledger.Holds key }.ncard = m.count := by
  have held : { key | m.ledger.Holds key } = (((GoMap.pairs m.files).map Prod.fst).toFinset : Set MapKey) := by
    ext key
    rw [Set.mem_ofPred_eq,holds_iff valid,Finset.mem_coe,mem_toFinset,mem_map]
    constructor
    · rintro ⟨id,known⟩
      exact ⟨(key,id),(GoMap.mem_pairs _ _ _).mpr known,rfl⟩
    · rintro ⟨⟨_,id⟩,member,rfl⟩
      exact ⟨id,(GoMap.mem_pairs _ _ _).mp member⟩
  rw [held,Set.ncard_coe_finset,toFinset_card_of_nodup (GoMap.pairs_keys_nodup _),length_map,valid.total]

variable {id : Nat}

theorem Writes.ledger_eq {refs : List MirrorRef}
    (writes : Writes m id key f refs m') (valid : m.Valid u dead) :
    (∀ o k, m'.ledger.claims o k = if k = key then (if f.hash = [] then none
      else (refs.find? (fun r => r.origin == o)).map claim) else m.ledger.claims o k) ∧
    ∀ k, m'.ledger.described k = if k = key then (if f.hash = [] then none else some (Ledger.metadata f))
      else m.ledger.described k := by
  have apart : ∀ k j, m.files.lookup k = some j → k ≠ key → j ≠ id := by
    rintro k j known other rfl
    obtain ⟨live,keyed⟩ := (valid.keyed k j).mp known
    exact other (keyed.symm.trans (writes.was live))
  constructor
  · intro _ k
    simp only [ledger]
    rw [writes.files]
    by_cases here : k = key
    · rw [if_pos here,if_pos here]
      split
      · rfl
      · rw [Option.bind_some,writes.refsOf,if_pos rfl]
    · rw [if_neg here,if_neg here]
      refine Option.bind_congr (fun j known => ?_)
      rw [writes.refsOf,if_neg (apart k j known here)]
  · intro k
    simp only [ledger]
    rw [writes.files]
    by_cases here : k = key
    · rw [if_pos here,if_pos here]
      split
      · rfl
      · rw [Option.map_some,writes.record,if_pos rfl]
    · rw [if_neg here,if_neg here]
      refine Option.map_congr (fun j known => ?_)
      rw [writes.record,if_neg (apart k j known here)]

/-- The ledger of a mirror that took a report. -/
theorem Writes.ledger_put {refs : List MirrorRef} {m' : Mirror} {file : File}
    (writes : Writes m id file.mapKey f refs m') (valid : m.Valid u dead) (filled : f.hash ≠ [])
    (described : Ledger.metadata f = Ledger.metadata file)
    (claims : ∀ o, (refs.find? (fun r => r.origin == o)).map claim =
      if o = origin then some ⟨walk,file.sources,file.completed⟩ else m.ledger.claims o file.mapKey) :
    m'.ledger = {
      claims := fun o key => if o = origin ∧ key = file.mapKey then some ⟨walk,file.sources,file.completed⟩
        else m.ledger.claims o key
      described := fun key => if key = file.mapKey then some (Ledger.metadata file) else m.ledger.described key } := by
  obtain ⟨claimed,said⟩ := writes.ledger_eq valid
  have first : m'.ledger.claims = fun o key => if o = origin ∧ key = file.mapKey
      then some ⟨walk,file.sources,file.completed⟩ else m.ledger.claims o key := by
    funext o key
    rw [claimed,if_neg filled,claims]
    by_cases here : key = file.mapKey
    · simp [here]
    · simp [here]
  have second : m'.ledger.described = fun key => if key = file.mapKey then some (Ledger.metadata file)
      else m.ledger.described key := by
    funext key
    rw [said,if_neg filled,described]
  rw [← first,← second]

theorem putFile_ledger (valid : m.Valid u []) (origin walk taken : Nat) (file : File) :
    let out := putFile u origin walk (m,taken) file
    out.1.Valid u [] ∧ out.1.maxFiles = m.maxFiles ∧ out.1.ledger = m.ledger.putFile m.maxFiles origin walk file := by
  intro out
  unfold Ledger.putFile
  by_cases malformed : file.hash.length ≠ hashLen ∨ file.name = []
  · have same : out = (m,taken) := if_pos malformed
    rw [same,if_pos malformed]
    exact ⟨valid,rfl,rfl⟩
  rw [if_neg malformed]
  have long : (description file).hash.length = hashLen := not_not.mp (not_or.mp malformed).1
  have filled : (description file).hash ≠ [] := fun empty => by rw [empty] at long; cases long
  rcases Option.eq_none_or_eq_some (m.files.lookup file.mapKey) with fresh | ⟨id,known⟩
  · have unheld : ¬m.ledger.Holds file.mapKey := by
      rw [holds_iff valid,fresh]
      simp
    rw [holds_ncard valid]
    by_cases full : (m.count : Int) ≥ m.maxFiles
    · have same : out = (m,taken) := by
        simp only [out,putFile,if_neg malformed]
        rw [show m.files.lookup (fileMapKey (description file).hash (description file).size) = none from fresh]
        exact if_pos full
      rw [same,if_neg (not_or.mpr ⟨unheld,by omega⟩)]
      exact ⟨valid,rfl,rfl⟩
    · have same : out = (m.addLocked u ⟨origin,walk,file.sources,file.completed⟩ (description file),taken + 1) := by
        simp only [out,putFile,if_neg malformed]
        rw [show m.files.lookup (fileMapKey (description file).hash (description file).size) = none from fresh]
        exact if_neg full
      obtain ⟨id,_,writes,valid'⟩ := add_valid (u := u) valid ⟨origin,walk,file.sources,file.completed⟩ long rfl
        ⟨rfl,rfl⟩ fresh (by omega)
      rw [same,if_pos (.inr (by omega))]
      refine ⟨valid',writes.room,Writes.ledger_put writes valid filled rfl (fun o => ?_)⟩
      by_cases own : o = origin
      · simp [own,claim]
      · simp [own,Ne.symm own,ledger,fresh]
  · have held : m.ledger.Holds file.mapKey := (holds_iff valid _).mpr ⟨id,known⟩
    have same : out = (m.renewLocked u id ⟨origin,walk,file.sources,file.completed⟩ (description file),taken + 1) := by
      simp only [out,putFile,if_neg malformed]
      rw [show m.files.lookup (fileMapKey (description file).hash (description file).size) = some id from known]
      rfl
    obtain ⟨writes,valid'⟩ := renew_valid valid ⟨origin,walk,file.sources,file.completed⟩ long rfl known
    rw [same,if_pos (.inl held)]
    refine ⟨valid',writes.room,Writes.ledger_put writes valid filled rfl (fun o => ?_)⟩
    rw [find_setRef]
    by_cases own : o = origin
    · simp [own,claim]
    · simp [own,ledger,known]

theorem find_filter (gone : MirrorRef → Bool) {l : List MirrorRef} (distinct : (l.map (·.origin)).Nodup) (o : Nat) :
    (l.filter (fun r => !gone r)).find? (fun r => r.origin == o) =
      (l.find? (fun r => r.origin == o)).filter (fun r => !gone r) := by
  induction l with
  | nil => rfl
  | cons r rest ih =>
    rw [map_cons,nodup_cons] at distinct
    have later := ih distinct.2
    by_cases own : r.origin = o
    · have absent : rest.find? (fun r => r.origin == o) = none := by
        refine find?_eq_none.mpr (fun _ member same => distinct.1 ?_)
        rw [own,← beq_iff_eq.mp same]
        exact mem_map_of_mem member
      rw [absent] at later
      cases dropped : gone r with
      | true => simpa [dropped,own,Option.filter] using later
      | false => simp [dropped,own,Option.filter]
    · cases dropped : gone r with
      | true | false => simpa [dropped,own] using later

/-- A claim as the sweep looks at it. -/
def survives (gone : MirrorRef → Bool) (o : Nat) (c : Claim) : Bool := !gone ⟨o,c.walk,c.sources,c.completed⟩

theorem find_claim (gone : MirrorRef → Bool) {l : List MirrorRef} (distinct : (l.map (·.origin)).Nodup) (o : Nat) :
    ((l.filter (fun r => !gone r)).find? (fun r => r.origin == o)).map claim =
      ((l.find? (fun r => r.origin == o)).map claim).filter (survives gone o) := by
  rw [find_filter gone distinct]
  cases found : l.find? (fun r => r.origin == o) with
  | none => rfl
  | some r =>
    have own : r.origin = o := by simpa using find?_some found
    subst own
    by_cases dropped : gone r = true
    · simp [survives,claim,dropped,Option.filter]
    · simp [survives,claim,dropped,Option.filter]

theorem claims_known (known : m.files.lookup key = some id) (o : Nat) :
    m.ledger.claims o key = ((m.refsOf id).find? (fun r => r.origin == o)).map claim := by
  simp [ledger,known]

/-- One turn of the sweep filters the claims on the file of its slot. -/
theorem dropSlot_ledger (valid : m.Valid u dead) (gone : MirrorRef → Bool) (id : Nat) :
    let out := dropSlot u gone (m,dead) id
    out.1.Valid u out.2 ∧ out.1.recs.length = m.recs.length ∧ out.1.maxFiles = m.maxFiles ∧
    (∀ key, m.files.lookup key ≠ some id → out.1.files.lookup key = m.files.lookup key) ∧
    (∀ o key, out.1.ledger.claims o key = if m.files.lookup key = some id
      then (m.ledger.claims o key).filter (survives gone o) else m.ledger.claims o key) ∧
    ∀ key d, out.1.ledger.described key = some d → m.ledger.described key = some d := by
  intro _
  obtain ⟨valid',recs,same | ⟨live,f,writes,rewritten⟩⟩ := dropSlot_spec valid gone id
  · obtain ⟨same,kept⟩ := same
    refine ⟨valid',recs,by rw [same],fun key _ => by rw [same],fun o key => ?_,fun key d => by rw [same]; exact (fun h => h)⟩
    · rw [same]
      split
      next known =>
        obtain ⟨live,_⟩ := (valid.keyed key id).mp known
        rw [claims_known known,← find_claim gone (valid.slots id).origins,kept live]
      · rfl
  · obtain ⟨claims,described⟩ := writes.ledger_eq valid
    have known := (valid.keyed _ id).mpr ⟨live,rfl⟩
    have own : ∀ key, m.files.lookup key = some id ↔ key = (m.record id).mapKey := by
      intro key
      rw [valid.keyed]
      exact ⟨fun h => h.2.symm,fun h => ⟨live,h.symm⟩⟩
    have origins := (valid.slots id).origins
    have slot := valid'.slots id
    have filled : f.hash = [] ↔ (m.refsOf id).filter (fun r => !gone r) = [] := by
      have referenced := slot.referenced
      rw [writes.record,if_pos rfl,writes.refsOf,if_pos rfl] at referenced
      exact not_iff_not.mp referenced
    refine ⟨valid',recs,writes.room,fun key other => ?_,fun o key => ?_,fun key _ => ?_⟩
    · rw [writes.files,if_neg (fun same => other ((own key).mpr same))]
    · rw [claims]
      by_cases here : key = (m.record id).mapKey
      · have known' := (own key).mpr here
        rw [if_pos here,if_pos known',claims_known known',← find_claim gone origins]
        split
        next empty => rw [filled.mp empty]; rfl
        · rfl
      · rw [if_neg here,if_neg (fun same => here ((own key).mp same))]
    · intro said
      rw [described] at said
      by_cases here : key = (m.record id).mapKey
      · have known' := (own key).mpr here
        rw [if_pos here] at said
        split at said
        · cases said
        next filled =>
          rw [← said,rewritten filled]
          simp [ledger,known',Ledger.metadata,withCounts,description]
      · rwa [if_neg here] at said

theorem dropFold_ledger (gone : MirrorRef → Bool) (ids : List Nat) (m : Mirror) (dead : List Nat) (valid : m.Valid u dead) :
    let out := ids.foldl (dropSlot u gone) (m,dead)
    out.1.Valid u out.2 ∧ out.1.maxFiles = m.maxFiles ∧
    (∀ o key, out.1.ledger.claims o key = if ∃ id ∈ ids, m.files.lookup key = some id
      then (m.ledger.claims o key).filter (survives gone o) else m.ledger.claims o key) ∧
    ∀ key d, out.1.ledger.described key = some d → m.ledger.described key = some d := by
  induction ids generalizing m dead with
  | nil => exact ⟨valid,rfl,fun o key => by simp,fun _ _ said => said⟩
  | cons id rest ih =>
    intro _
    obtain ⟨valid₁,_,room₁,others₁,claims₁,described₁⟩ := dropSlot_ledger valid gone id
    obtain ⟨valid₂,room₂,claims₂,described₂⟩ := ih _ _ valid₁
    refine ⟨valid₂,room₂.trans room₁,fun o key => (claims₂ o key).trans ?_,
      fun key d said => described₁ key d (described₂ key d said)⟩
    · by_cases here : m.files.lookup key = some id
      · rw [if_pos (⟨id,by simp,here⟩ : ∃ i ∈ id :: rest, m.files.lookup key = some i),claims₁,if_pos here]
        split
        · simp [Option.filter_filter]
        · rfl
      · have same : (∃ i ∈ id :: rest, m.files.lookup key = some i) ↔
            ∃ i ∈ rest, (dropSlot u gone (m,dead) id).1.files.lookup key = some i := by
          rw [others₁ key here]
          simp [here]
        rw [claims₁,if_neg here]
        simp only [same]

theorem reindex_valid (valid : m.Valid u dead) : (m.reindexLocked u).Valid u dead := by
  have names : (m.reindexLocked u).names = (m.recs.zipIdx.filter (fun f => decide (f.1.hash ≠ []))).foldl
      (fun x f => x.indexName u f.2 f.1.name) {} := by
    simp only [reindexLocked,foldl_filter,decide_eq_true_eq]
  have all := NameIndex.empty_covers.indexAll u Prod.snd (fun f : File × Nat => f.1.name)
    (m.recs.zipIdx.filter (fun f => decide (f.1.hash ≠ [])))
  rw [← names] at all
  refine { valid with listed := all.mono ?_ }
  rintro _ id ⟨live,word⟩
  have bound : id < m.recs.length := live_bound (m := m) live
  have read : m.recs[id]? = some (m.record id) := by
    rw [record,getD_eq_getElem?_getD,getElem?_eq_getElem bound]
    rfl
  exact .inr ⟨(m.record id,id),mem_filter.mpr ⟨mem_zipIdx_iff_getElem?.mpr read,decide_eq_true live⟩,word,rfl⟩

theorem release_valid (valid : m.Valid u dead) :
    (m.releaseLocked u dead).Valid u [] ∧ (m.releaseLocked u dead).maxFiles = m.maxFiles ∧
    (m.releaseLocked u dead).ledger = m.ledger := by
  have released : Valid u { m with
      names := m.names.purge (fun id => decide (id ∈ dead)), free := m.free ++ dead } [] := by
    refine { valid with vacant := ?_, distinct := ?_, listed := (valid.listed.purge _).mono ?_ }
    · rw [append_nil]
      exact valid.vacant
    · rw [append_nil]
      exact valid.distinct
    · rintro _ id ⟨live,word⟩
      have unused : id ∉ dead := fun gone => (valid.vacant id (mem_append_right _ gone)).2 live
      exact ⟨⟨live,word⟩,by simpa using unused⟩
  unfold releaseLocked
  dsimp only
  split
  · exact ⟨reindex_valid released,rfl,rfl⟩
  · exact ⟨released,rfl,rfl⟩

theorem dropRefs_ledger (valid : m.Valid u []) (gone : MirrorRef → Bool) :
    (m.dropRefs u gone).1.Valid u [] ∧ (m.dropRefs u gone).1.maxFiles = m.maxFiles ∧
    (m.dropRefs u gone).1.ledger = m.ledger.drop (fun o c => gone ⟨o,c.walk,c.sources,c.completed⟩) := by
  obtain ⟨swept,room,claims,described⟩ := dropFold_ledger gone (List.range m.recs.length) m [] valid
  unfold dropRefs
  generalize (List.range m.recs.length).foldl (dropSlot u gone) (m,[]) = out at swept room claims described
  have everywhere : ∀ o key, out.1.ledger.claims o key = (m.ledger.claims o key).filter (survives gone o) := by
    intro o key
    rw [claims]
    split
    · rfl
    next unknown =>
      rcases Option.eq_none_or_eq_some (m.files.lookup key) with none_ | ⟨id,known⟩
      · simp [ledger,none_]
      · have bound : id < m.recs.length := live_bound ((valid.keyed key id).mp known).1
        exact absurd ⟨id,mem_range.mpr bound,known⟩ unknown
  have ledgers : out.1.ledger = m.ledger.drop (fun o c => gone ⟨o,c.walk,c.sources,c.completed⟩) := by
    classical
    have first : out.1.ledger.claims = fun o key => (m.ledger.claims o key).filter (survives gone o) :=
      funext (fun o => funext (everywhere o))
    refine Ledger.ext first (funext (fun key => ?_))
    change _ = if ∃ o, ((m.ledger.claims o key).filter (survives gone o)).isSome = true
      then m.ledger.described key else none
    simp only [← everywhere]
    have holds : (∃ o, (out.1.ledger.claims o key).isSome = true) ↔ ∃ id, out.1.files.lookup key = some id :=
      holds_iff swept key
    rcases Option.eq_none_or_eq_some (out.1.files.lookup key) with none_ | ⟨id,known⟩
    · rw [if_neg (fun held => by obtain ⟨id,known⟩ := holds.mp held; rw [none_] at known; cases known)]
      simp [ledger,none_]
    · have said : out.1.ledger.described key = some (Ledger.metadata (out.1.record id)) := by simp [ledger,known]
      rw [if_pos (holds.mpr ⟨id,known⟩),said,described key _ said]
  dsimp only
  split
  next none_ =>
    rw [length_eq_zero_iff] at none_
    exact ⟨none_ ▸ swept,room,ledgers⟩
  · obtain ⟨valid',room',same⟩ := release_valid swept
    exact ⟨valid',room'.trans room,same.trans ledgers⟩

theorem step_ledger (valid : m.Valid u []) (op : MirrorOp) : (m.step u op).Valid u [] ∧
    (m.step u op).maxFiles = m.maxFiles ∧ (m.step u op).ledger = m.ledger.step m.maxFiles op := by
  cases op with
  | put origin walk files =>
    have folded : ∀ (l : List File) (a : Mirror) (taken : Nat), a.Valid u [] →
        (l.foldl (putFile u origin walk) (a,taken)).1.Valid u [] ∧
        (l.foldl (putFile u origin walk) (a,taken)).1.maxFiles = a.maxFiles ∧
        (l.foldl (putFile u origin walk) (a,taken)).1.ledger = l.foldl (Ledger.putFile a.maxFiles origin walk) a.ledger := by
      intro l
      induction l with
      | nil => exact fun a _ valid => ⟨valid,rfl,rfl⟩
      | cons f _ ih =>
        intro a taken valid
        obtain ⟨valid₁,room₁,ledger₁⟩ := putFile_ledger valid origin walk taken f
        obtain ⟨valid₂,room₂,ledger₂⟩ := ih (putFile u origin walk (a,taken) f).1 (putFile u origin walk (a,taken) f).2 valid₁
        refine ⟨valid₂,room₂.trans room₁,ledger₂.trans ?_⟩
        rw [room₁,ledger₁,foldl_cons]
    exact folded files m 0 valid
  | sweep | drop => exact dropRefs_ledger valid _

/-- The mirror refines the ledger. -/
theorem run_ledger (ops : List MirrorOp) (m : Mirror) (valid : m.Valid u []) :
    (ops.foldl (step u) m).Valid u [] ∧ (ops.foldl (step u) m).maxFiles = m.maxFiles ∧
    (ops.foldl (step u) m).ledger = ops.foldl (Ledger.step m.maxFiles) m.ledger := by
  induction ops generalizing m with
  | nil => exact ⟨valid,rfl,rfl⟩
  | cons op _ ih =>
    obtain ⟨valid₁,room₁,ledger₁⟩ := step_ledger valid op
    obtain ⟨valid₂,room₂,ledger₂⟩ := ih _ valid₁
    refine ⟨valid₂,room₂.trans room₁,ledger₂.trans ?_⟩
    rw [room₁,ledger₁,foldl_cons]

def hit (u : Unicode) (m : Mirror) (expr : SearchExpr) (id : Nat) : Option File :=
  if (m.record id).hash ≠ [] ∧ matchSearchExpr u expr (m.record id) = true then some (m.record id) else none

theorem searchIDs_eq (expr : SearchExpr) (limit : Int) (ids : List Nat) (out : List File)
    (short : (out.length : Int) < limit) :
    m.searchIDs u expr limit out ids = (out ++ ids.filterMap (m.hit u expr)).take limit.toNat := by
  induction ids generalizing out with
  | nil => rw [searchIDs,filterMap_nil,append_nil,take_of_length_le (by omega)]
  | cons id rest ih =>
    rw [searchIDs]
    by_cases accepted : (m.record id).hash ≠ [] ∧ matchSearchExpr u expr (m.record id) = true
    · have hits : m.hit u expr id = some (m.record id) := if_pos accepted
      rw [if_pos accepted,filterMap_cons_some hits,append_cons out _ (rest.filterMap _)]
      split
      next enough =>
        rw [length_append,length_singleton] at enough
        rw [take_append_of_le_length (by rw [length_append,length_singleton]; omega),
          take_of_length_le (by rw [length_append,length_singleton]; omega)]
      next more => exact ih _ (by omega)
    · have misses : m.hit u expr id = none := if_neg accepted
      rw [if_neg accepted,filterMap_cons_none misses,if_neg (by omega)]
      exact ih out short

theorem liveFiles_hits (m : Mirror) (expr : SearchExpr) :
    m.liveFiles.filter (matchSearchExpr u expr) = (List.range m.recs.length).filterMap (m.hit u expr) := by
  rw [liveFiles,filter_filter]
  induction List.range m.recs.length with
  | nil => rfl
  | cons id _ ih =>
    by_cases accepted : (m.record id).hash ≠ [] ∧ matchSearchExpr u expr (m.record id) = true
    · have hits : m.hit u expr id = some (m.record id) := if_pos accepted
      rw [filterMap_cons_some hits,map_cons,filter_cons_of_pos (by simp [accepted]),ih]
    · have misses : m.hit u expr id = none := if_neg accepted
      have rejected : ¬(matchSearchExpr u expr (m.record id) && decide ((m.record id).hash ≠ [])) = true := by
        rwa [Bool.and_eq_true,decide_eq_true_iff,and_comm]
      rw [filterMap_cons_none misses,map_cons,
        filter_cons_of_neg (p := fun f : File => matchSearchExpr u expr f && decide (f.hash ≠ [])) rejected,ih]

theorem Valid.indexed (valid : m.Valid u dead) (fits : m.names.words.length ≤ 2^32) (live : m.Live id) :
    Indexed u m.names (some m.hashIDsLocked) id (m.record id) := by
  refine ⟨fun w word => (valid.listed fits).2 w id ⟨live,word⟩,?_⟩
  rintro _ ⟨rfl⟩ _ sized
  refine mem_filter.mpr ⟨(valid.hashed _ id).mpr ⟨live,rfl⟩,?_⟩
  rcases sized with rfl | rfl <;> simp

/-- A search answers as a scan of the files does. -/
theorem search_eq (valid : m.Valid u dead) (fits : m.names.words.length ≤ 2^32) (sorter : SliceSort) (expr : SearchExpr) (limit : Int) :
    m.search u sorter expr limit = (m.liveFiles.filter (matchSearchExpr u expr)).take limit.toNat := by
  unfold search
  split
  next none_ =>
    rcases none_ with rfl | low | pruned
    · simp [matchSearchExpr]
    · rw [Int.toNat_of_nonpos low,take_zero]
    · have rejected : ∀ f, matchSearchExpr u expr f = false := by
        intro f
        rw [matchSearchExpr]
        split
        · rfl
        · exact MemoryEngine.searchMatch_pruned pruned f
      simp [rejected]
  next some_ =>
    obtain ⟨named,positive,_⟩ := not_or.mp some_ |>.imp id not_or.mp
    rw [liveFiles_hits]
    generalize narrowed : m.names.candidates sorter u (max candidateFloor (m.count / 8)) (some m.hashIDsLocked) expr = c
    obtain ⟨_,all⟩ := c
    refine (searchIDs_eq expr limit _ [] (by simpa using positive)).trans ?_
    rw [nil_append]
    congr 1
    cases all with
    | true => rfl
    | false =>
      obtain ⟨ascending,found⟩ := candidates_spec u sorter m.names (valid.listed fits).1 _ _ expr (by rw [narrowed])
      rw [narrowed] at ascending found
      refine MemoryEngine.ascending_filterMap_eq ascending pairwise_lt_range (fun id hits => ?_)
      rw [hit] at hits
      split at hits
      next accepted =>
        obtain ⟨unpruned,listed⟩ := found id _ (valid.indexed fits accepted.1)
        have matched := accepted.2
        rw [matchSearchExpr,if_neg named] at matched
        exact iff_of_true (listed (by simpa [searchMatch,unpruned] using matched))
          (mem_range.mpr (live_bound accepted.1))
      · cases hits

theorem mem_liveFiles (f : File) : f ∈ m.liveFiles ↔ ∃ id, m.Live id ∧ m.record id = f := by
  simp only [liveFiles,mem_filter,mem_map,mem_range,decide_eq_true_iff]
  constructor
  · rintro ⟨⟨id,_,rfl⟩,live⟩
    exact ⟨id,live,rfl⟩
  · rintro ⟨id,live,rfl⟩
    exact ⟨⟨id,live_bound live,rfl⟩,live⟩

theorem liveFiles_nodup (valid : m.Valid u dead) : (m.liveFiles.map File.mapKey).Nodup := by
  rw [liveFiles,filter_map,map_map]
  refine List.Nodup.map_on ?_ (nodup_range.filter _)
  intro i first j second same
  have live : (m.record i).hash ≠ [] := of_decide_eq_true (mem_filter.mp first).2
  have live' : (m.record j).hash ≠ [] := of_decide_eq_true (mem_filter.mp second).2
  have known := (valid.keyed _ i).mpr ⟨live,rfl⟩
  rw [show (m.record i).mapKey = (m.record j).mapKey from same,(valid.keyed _ j).mpr ⟨live',rfl⟩] at known
  exact (Option.some.inj known).symm

theorem liveFiles_length (valid : m.Valid u dead) : m.liveFiles.length = m.count := by
  have same : (m.liveFiles.map File.mapKey).Perm ((GoMap.pairs m.files).map Prod.fst) := by
    refine (perm_ext_iff_of_nodup (liveFiles_nodup valid) (GoMap.pairs_keys_nodup _)).mpr (fun _ => ?_)
    simp only [mem_map,mem_liveFiles]
    constructor
    · rintro ⟨_,⟨id,live,rfl⟩,rfl⟩
      exact ⟨(_,id),(GoMap.mem_pairs _ _ _).mpr ((valid.keyed _ id).mpr ⟨live,rfl⟩),rfl⟩
    · rintro ⟨⟨_,id⟩,member,rfl⟩
      obtain ⟨live,keyed⟩ := (valid.keyed _ id).mp ((GoMap.mem_pairs _ _ _).mp member)
      exact ⟨_,⟨id,live,rfl⟩,keyed⟩
  rw [valid.total,← length_map (f := Prod.fst),← same.length_eq,length_map]

theorem largest_greatest (field : MirrorRef → Nat) {refs : List MirrorRef} (some_ : refs ≠ []) :
    IsGreatest { n | ∃ r ∈ refs, field r = n } (largest field refs) := by
  have folded : ∀ (l : List MirrorRef) (n : Nat), n ≤ l.foldl (fun n r => max n (field r)) n ∧
      (∀ r ∈ l, field r ≤ l.foldl (fun n r => max n (field r)) n) ∧
      (l.foldl (fun n r => max n (field r)) n = n ∨ ∃ r ∈ l, field r = l.foldl (fun n r => max n (field r)) n) := by
    intro l
    induction l with
    | nil => simp
    | cons r rest ih =>
      intro n
      obtain ⟨above,all,attained⟩ := ih (max n (field r))
      rw [foldl_cons]
      refine ⟨le_trans (le_max_left _ _) above,?_,?_⟩
      · rintro r' (_ | _)
        · exact le_trans (le_max_right _ _) above
        · exact all r' (by assumption)
      · rcases attained with start | ⟨r',member,equal⟩
        · rcases max_choice n (field r) with old | new
          · exact .inl (start.trans old)
          · exact .inr ⟨r,by simp,(start.trans new).symm⟩
        · exact .inr ⟨r',.tail _ member,equal⟩
  obtain ⟨_,all,attained⟩ := folded refs 0
  refine ⟨?_,?_⟩
  · rcases attained with _ | found
    · obtain ⟨r,_,rfl⟩ := exists_cons_of_ne_nil some_
      have least := all r (by simp)
      exact ⟨r,by simp,by rw [largest]; omega⟩
    · exact found
  · rintro _ ⟨r,member,rfl⟩
    exact all r member

/-- The claims on a file are its references. -/
theorem claims_refs (valid : m.Valid u dead) (known : m.files.lookup key = some id)
    (field : Claim → Nat) : { n | ∃ o c, m.ledger.claims o key = some c ∧ field c = n } =
      { n | ∃ r ∈ m.refsOf id, field (claim r) = n } := by
  have claims : ∀ o, m.ledger.claims o key = ((m.refsOf id).find? (fun r => r.origin == o)).map claim := by
    intro o
    simp [ledger,known]
  ext n
  constructor
  · rintro ⟨_,_,claimed,rfl⟩
    rw [claims] at claimed
    obtain ⟨r,found,rfl⟩ := Option.map_eq_some_iff.mp claimed
    exact ⟨r,mem_of_find?_eq_some found,rfl⟩
  · rintro ⟨r,member,rfl⟩
    have found : (m.refsOf id).find? (fun r' => r'.origin == r.origin) = some r := by
      have some_ : ((m.refsOf id).find? (fun r' => r'.origin == r.origin)).isSome = true :=
        find?_isSome.mpr ⟨r,member,beq_self_eq_true r.origin⟩
      obtain ⟨r',first⟩ := Option.isSome_iff_exists.mp some_
      have own : r'.origin = r.origin := by simpa using find?_some first
      rw [first,inj_on_of_nodup_map (valid.slots id).origins (mem_of_find?_eq_some first) member own]
    exact ⟨r.origin,claim r,by rw [claims,found]; rfl,rfl⟩

/-- A file is held as the ledger describes it, with the largest counts claimed for it. -/
theorem mem_liveFiles_ledger (valid : m.Valid u dead) (f : File) : f ∈ m.liveFiles ↔
    m.ledger.Holds f.mapKey ∧ m.ledger.described f.mapKey = some { f with sources := 0, completed := 0 } ∧
    IsGreatest { n | ∃ o c, m.ledger.claims o f.mapKey = some c ∧ c.sources = n } f.sources ∧
    IsGreatest { n | ∃ o c, m.ledger.claims o f.mapKey = some c ∧ c.completed = n } f.completed := by
  have greatest : ∀ key id, m.files.lookup key = some id →
      IsGreatest { n | ∃ o c, m.ledger.claims o key = some c ∧ c.sources = n } (m.record id).sources ∧
      IsGreatest { n | ∃ o c, m.ledger.claims o key = some c ∧ c.completed = n } (m.record id).completed := by
    intro key id known
    obtain ⟨live,_⟩ := (valid.keyed key id).mp known
    obtain ⟨sources,completed⟩ := (valid.slots id).counted live
    have some_ := (valid.slots id).referenced.mp live
    rw [claims_refs valid known (·.sources),claims_refs valid known (·.completed),sources,completed]
    exact ⟨largest_greatest _ some_,largest_greatest _ some_⟩
  have described : ∀ id, m.Live id →
      Ledger.metadata (m.record id) = { m.record id with sources := 0, completed := 0 } :=
    fun id live => congrArg (fun f : File => { f with sources := 0, completed := 0 }) ((valid.slots id).shape live).2
  rw [mem_liveFiles]
  constructor
  · rintro ⟨id,live,rfl⟩
    have known := (valid.keyed _ id).mpr ⟨live,rfl⟩
    refine ⟨(holds_iff valid _).mpr ⟨id,known⟩,?_,greatest _ id known⟩
    simp only [ledger]
    rw [known,Option.map_some,described id live]
  · rintro ⟨held,said,sources,completed⟩
    obtain ⟨id,known⟩ := (holds_iff valid _).mp held
    obtain ⟨live,_⟩ := (valid.keyed _ id).mp known
    obtain ⟨sources',completed'⟩ := greatest _ id known
    simp only [ledger] at said
    rw [known,Option.map_some,described id live] at said
    refine ⟨id,live,?_⟩
    have same := congrArg (fun g : File => { g with sources := f.sources, completed := f.completed }) (Option.some.inj said)
    have counts : ({ m.record id with sources := f.sources, completed := f.completed } : File) = m.record id := by
      rw [← sources'.unique sources,← completed'.unique completed]
    exact counts.symm.trans same

theorem put_held (valid : m.Valid u []) (origin walk : Nat) {f : File} (held : m.ledger.Holds f.mapKey)
    (long : f.hash.length = hashLen) (named : f.name ≠ []) : (m.put u origin walk [f]).2 = 1 := by
  obtain ⟨id,known⟩ := (holds_iff valid _).mp held
  simp only [put,foldl_cons,foldl_nil,putFile,if_neg (not_or.mpr ⟨not_not.mpr long,named⟩)]
  rw [show m.files.lookup (fileMapKey (description f).hash (description f).size) = some id from known]

/-- After any calls the mirror is what the ledger of those calls says it should be, within
its bound, and while its word ids last it searches its files as a scan would. -/
theorem run_refines (u : Unicode) (sorter : SliceSort) (maxFiles : Int) (ops : List MirrorOp) :
    let m := ops.foldl (step u) { maxFiles := maxFiles }
    let l := ops.foldl (Ledger.step maxFiles) Ledger.empty
    m.ledger = l ∧ (m.liveFiles.map File.mapKey).Nodup ∧ (m.liveFiles.length : Int) ≤ max 0 maxFiles ∧
    (∀ f, f ∈ m.liveFiles ↔ l.Holds f.mapKey ∧
      l.described f.mapKey = some { f with sources := 0, completed := 0 } ∧
      IsGreatest { n | ∃ o c, l.claims o f.mapKey = some c ∧ c.sources = n } f.sources ∧
      IsGreatest { n | ∃ o c, l.claims o f.mapKey = some c ∧ c.completed = n } f.completed) ∧
    (∀ origin walk f, l.Holds f.mapKey → f.hash.length = hashLen → f.name ≠ [] → (m.put u origin walk [f]).2 = 1) ∧
    (∀ origin walk o key, (m.sweep u origin walk).1.ledger.claims o key =
      if o = origin then (l.claims o key).filter (fun c => c.walk == walk) else l.claims o key) ∧
    (m.names.words.length ≤ 2^32 →
      ∀ expr limit, m.search u sorter expr limit = (m.liveFiles.filter (matchSearchExpr u expr)).take limit.toNat) := by
  intro m l
  obtain ⟨valid,room,refines⟩ := run_ledger ops { maxFiles := maxFiles } (new_valid u maxFiles)
  have same : m.ledger = l := refines
  refine ⟨same,liveFiles_nodup valid,?_,fun f => same ▸ mem_liveFiles_ledger valid f,
    fun origin walk _ held => put_held valid origin walk (same ▸ held),fun origin _ o key => ?_,
    fun fits => search_eq valid fits sorter⟩
  · have bounded := valid.bounded
    rw [room] at bounded
    rw [liveFiles_length valid]
    exact bounded
  · rw [← same,sweep,(dropRefs_ledger valid _).2.2]
    change (m.ledger.claims o key).filter _ = _
    by_cases own : o = origin
    · rw [if_pos own,own]
      refine congrArg (fun p => (m.ledger.claims origin key).filter p) (funext (fun c => ?_))
      simp [bne]
    · rw [if_neg own]
      cases m.ledger.claims o key with
      | none => rfl
      | some _ => simp [Option.filter,own]

/-- A report of a held file without a name is left out. -/
theorem put_nameless :
    let f : File := { hash := replicate 16 1, name := lit "a", size := 5 }
    let m := (({ maxFiles := 10 } : Mirror).put Unicode.ascii 1 1 [f]).1
    m.liveFiles = [f] ∧ (m.put Unicode.ascii 1 2 [{ f with name := [] }]).2 = 0 := by
  decide +kernel

end

end Mirror

end ENode.Storage
