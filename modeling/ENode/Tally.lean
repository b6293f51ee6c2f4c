import ENode.GoMap

/-! Counting what nested maps hold. The values of a map are flattened into a list; a
tally is a map of counters that equals the counts taken over a list; a list of places fits
when it is short enough and no key of either side takes too many of them. -/
namespace ENode
open List

namespace GoMap

variable {K V α : Type}

/-- Everything the values of a map hold. -/
def flatVals (g : V → List α) (m : GoMap K V) : List α := (pairs m).flatMap (fun e => g e.2)


theorem flatVals_mapVals (g : W → List α) (f : V → W) (m : GoMap K V) :
    flatVals g (mapVals f m) = flatVals (fun v => g (f v)) m := by
  simp [flatVals,pairs,mapVals,flatMap_map]

theorem flatVals_mapVals_same (same : ∀ v, g (f v) = g v) (m : GoMap K V) :
    flatVals g (mapVals f m) = flatVals g m := by
  rw [flatVals_mapVals]
  simp only [same]

variable [DecidableEq K]

variable (m : GoMap K V)

theorem erase_insert (k : K) (v : V) : (m.insert k v).erase k = m.erase k := by
  apply AList.ext
  change kerase k ((⟨k,v⟩ : Sigma fun _ : K => V) :: m.entries.kerase k) = m.entries.kerase k
  exact kerase_cons_eq rfl

theorem pairs_insert (k : K) (v : V) : pairs (m.insert k v) = (k,v) :: pairs (m.erase k) := rfl

theorem pairs_split (held : m.lookup k = some v) : (pairs m).Perm ((k,v) :: pairs (m.erase k)) := by
  have nodup : ∀ a : GoMap K V, (pairs a).Nodup := fun a => (pairs_keys_nodup a).of_map
  rw [← pairs_insert]
  refine (perm_ext_iff_of_nodup (nodup _) (nodup _)).mpr ?_
  rintro ⟨_,_⟩
  rw [mem_pairs,mem_pairs,lookup_insert_ite]
  split
  next same => rw [same,held]
  · rfl

theorem pairs_erase_fresh (fresh : m.lookup k = none) : pairs (m.erase k) = pairs m := by
  have absent : k ∉ m.entries.keys := AList.lookup_eq_none.mp fresh
  change (m.entries.kerase k).map _ = m.entries.map _
  rw [kerase_of_notMem_keys absent]

theorem flatVals_insert (g : V → List α) (m : GoMap K V) (k : K) (v : V) :
    flatVals g (m.insert k v) = g v ++ flatVals g (m.erase k) := by
  rw [flatVals,pairs_insert,flatMap_cons]
  rfl

theorem flatVals_split (g : V → List α) (m : GoMap K V) (k : K) :
    (flatVals g m).Perm (((m.lookup k).map g).getD [] ++ flatVals g (m.erase k)) := by
  rcases Option.eq_none_or_eq_some (m.lookup k) with fresh | ⟨v,held⟩
  · rw [fresh,flatVals,flatVals,pairs_erase_fresh m fresh]
    exact List.Perm.refl _
  · rw [held]
    exact (pairs_split m held).flatMap_right _

theorem mem_flatVals (g : V → List α) (m : GoMap K V) (a : α) :
    a ∈ flatVals g m ↔ ∃ k v, m.lookup k = some v ∧ a ∈ g v := by
  simp only [flatVals,mem_flatMap,Prod.exists,mem_pairs]

theorem pairs_filter_ne [BEq K] [LawfulBEq K] (k : K) :
    ((pairs m).filter (fun e => e.1 != k)).Perm (pairs (m.erase k)) := by
  have nodup : ∀ a : GoMap K V, (pairs a).Nodup := fun a => (pairs_keys_nodup a).of_map
  refine (perm_ext_iff_of_nodup ((nodup m).filter _) (nodup _)).mpr ?_
  rintro ⟨j,_⟩
  rw [mem_filter,mem_pairs,mem_pairs,lookup_erase_ite]
  by_cases here : j = k
  · simp [here]
  · simp [here]

theorem flatVals_getD (g : V → List α) (m : GoMap K V) (k : K) (d : V) (empty : g d = []) :
    ((m.lookup k).map g).getD [] = g ((m.lookup k).getD d) := by
  cases m.lookup k with
  | none => exact empty.symm
  | some _ => rfl

/-- A value put under its key, and taken away once it is empty. -/
def setOrErase (m : GoMap K V) (k : K) (v : V) (empty : Bool) : GoMap K V := if empty then m.erase k else m.insert k v

theorem lookup_setOrErase (k j : K) (v : V) (empty : Bool) :
    (m.setOrErase k v empty).lookup j = if j = k then (if empty then none else some v) else m.lookup j := by
  unfold setOrErase
  split
  · rw [lookup_erase_ite]
  · rw [lookup_insert_ite]

theorem erase_setOrErase (k : K) (v : V) (empty : Bool) : (m.setOrErase k v empty).erase k = m.erase k := by
  unfold setOrErase
  split
  · exact AList.ext (kerase_of_notMem_keys (notMem_keys_kerase k m.nodupKeys))
  · exact erase_insert m k v

def All (P : K → V → Prop) (m : GoMap K V) : Prop := ∀ k v, m.lookup k = some v → P k v

variable {m : GoMap K V}

theorem All.setOrErase (all : m.All P)
    (new : b = false → P k v) : (m.setOrErase k v b).All P := by
  intro j w held
  rw [lookup_setOrErase] at held
  by_cases here : j = k
  · rw [if_pos here] at held
    cases b with
    | true => cases held
    | false =>
      cases held
      exact here ▸ new rfl
  · rw [if_neg here] at held
    exact all j w held

theorem All.erase (all : m.All P) (k : K) : All P (m.erase k) := by
  intro j w held
  rw [lookup_erase_ite] at held
  split at held
  · cases held
  · exact all j w held

theorem All.mapVals (all : m.All P)
    (keeps : ∀ k v, P k v → Q k (f v)) : (m.mapVals f).All Q := by
  intro k _ held
  rw [lookup_mapVals,Option.map_eq_some_iff] at held
  obtain ⟨v,held,rfl⟩ := held
  exact keeps k v (all k v held)

theorem flatVals_nodup {key : α → K × β}
    (each : m.All (fun k v => ((g v).map (fun a => (key a).2)).Nodup ∧ ∀ a ∈ g v, (key a).1 = k)) :
    ((flatVals g m).map key).Nodup := by
  rw [flatVals,map_flatMap]
  refine nodup_flatMap.mpr ⟨fun e there => ?_,?_⟩
  · have own := (each e.1 e.2 ((mem_pairs ..).mp there)).1
    rw [← Function.comp_def,← map_map] at own
    exact own.of_map
  · have apart := pairwise_map.mp (nodup_iff_pairwise_ne.mp (pairs_keys_nodup m))
    refine apart.imp_of_mem (fun {a b} there here other => ?_)
    intro _ inA inB
    obtain ⟨x,hx,rfl⟩ := mem_map.mp inA
    obtain ⟨y,hy,same⟩ := mem_map.mp inB
    have first := (each a.1 a.2 ((mem_pairs ..).mp there)).2 x hx
    have second := (each b.1 b.2 ((mem_pairs ..).mp here)).2 y hy
    exact other (first.symm.trans ((congrArg Prod.fst same).symm.trans second))

/-- A loop over a map that changes it only at the entry visited: each entry is met as it
was at the start. -/
theorem Visits.fold (visits : m.Visits order) (held : σ → GoMap K V)
    (step : σ → K × V → σ) (Inv : σ → Prop) (keeps : ∀ s e, Inv s → (held s).lookup e.1 = some e.2 →
      Inv (step s e) ∧ ∀ k, k ≠ e.1 → (held (step s e)).lookup k = (held s).lookup k) (start : held s = m) (inv : Inv s) :
    Inv (order.foldl step s) := by
  have loop : ∀ (rest : List (K × V)) (s : σ), (rest.map Prod.fst).Nodup →
      (∀ e ∈ rest, (held s).lookup e.1 = some e.2) → Inv s → Inv (rest.foldl step s) := by
    intro rest
    induction rest with
    | nil => exact fun s _ _ inv => inv
    | cons e _ ih =>
      intro s nodup there inv
      rw [map_cons,nodup_cons] at nodup
      obtain ⟨next,others⟩ := keeps s e inv (there e (.head _))
      refine ih _ nodup.2 (fun e' later => ?_) next
      have apart : e'.1 ≠ e.1 := fun same => nodup.1 (same ▸ mem_map_of_mem later)
      rw [others _ apart]
      exact there e' (.tail _ later)
  refine loop order s visits.keys_nodup (fun e met => ?_) inv
  rw [start]
  exact (visits.mem e.1 e.2).mp met

theorem flatVals_setOrErase (g : V → List α) (m : GoMap K V) (k : K) (v : V) (empty : Bool)
    (nothing : empty = true → g v = []) : flatVals g (m.setOrErase k v empty) = g v ++ flatVals g (m.erase k) := by
  unfold setOrErase
  split
  next yes => rw [nothing yes,nil_append]
  · exact flatVals_insert g m k v

/-- A counter map reads zero where it has no entry. -/
def tally (m : GoMap K Int) (k : K) : Int := (m.lookup k).getD 0

/-- `m[k] += d`. -/
def addTo (m : GoMap K Int) (k : K) (d : Int) : GoMap K Int := m.insert k (m.tally k + d)

/-- `m[k] += d`, with an entry that is not positive deleted. -/
def bump (m : GoMap K Int) (k : K) (d : Int) : GoMap K Int :=
  if m.tally k + d ≤ 0 then m.erase k else m.addTo k d

def dropNonPositive (m : GoMap K Int) : GoMap K Int := m.filterMapVals (fun n => if n ≤ 0 then none else some n)

/-- The counters are the counts over the list. -/
def Tallies [BEq K] (m : GoMap K Int) (l : List K) : Prop := ∀ k, m.tally k = l.count k

theorem tally_addTo (m : GoMap K Int) (k j : K) (d : Int) :
    (m.addTo k d).tally j = if j = k then m.tally k + d else m.tally j := by
  rw [tally,addTo,lookup_insert_ite]
  split <;> rfl

theorem tally_bump (m : GoMap K Int) (k j : K) (d : Int) :
    (m.bump k d).tally j = if j = k then max 0 (m.tally k + d) else m.tally j := by
  unfold bump
  split
  next low =>
    rw [tally,lookup_erase_ite,max_eq_left low]
    split <;> rfl
  next high => rw [tally_addTo,max_eq_right (Int.le_of_lt (Int.not_le.mp high))]

theorem tally_dropNonPositive (m : GoMap K Int) (j : K) : m.dropNonPositive.tally j = max 0 (m.tally j) := by
  rw [tally,tally,dropNonPositive,lookup_filterMapVals]
  cases m.lookup j with
  | none => rfl
  | some _ =>
    dsimp only [Option.bind_some]
    split
    next low => exact (max_eq_left low).symm
    next high => exact (max_eq_right (Int.le_of_lt (Int.not_le.mp high))).symm

namespace Tallies

variable [BEq K] {m : GoMap K Int} {l l' : List K} {k : K}

theorem perm (tallies : m.Tallies l) (same : l.Perm l') : m.Tallies l' := by
  intro _
  rw [tallies,same.count_eq]

theorem drop_nonPositive (tallies : m.Tallies l) : m.dropNonPositive.Tallies l := by
  intro _
  rw [tally_dropNonPositive,tallies]
  omega

variable [LawfulBEq K]

theorem addTo_one (tallies : m.Tallies l) : (m.addTo k 1).Tallies (k :: l) := by
  intro j
  rw [tally_addTo,tallies,tallies,count_cons]
  by_cases here : j = k
  · subst here; simp
  · simp [here,Ne.symm here]

theorem bump_one (tallies : m.Tallies l) : (m.bump k 1).Tallies (k :: l) := by
  intro j
  have added := tallies.addTo_one (k := k) j
  rw [tally_addTo] at added
  rw [tally_bump,← added]
  have counted := tallies k
  split
  · omega
  · rfl

theorem addTo_back (tallies : m.Tallies (k :: l)) : (m.addTo k (-1)).Tallies l := by
  intro j
  have own := tallies k
  have other := tallies j
  rw [count_cons] at own other
  rw [tally_addTo]
  by_cases here : j = k
  · subst here
    simp at own ⊢
    omega
  · simpa [here,Ne.symm here] using other

theorem bump_back (tallies : m.Tallies (k :: l)) : (m.bump k (-1)).Tallies l := by
  intro j
  have taken := tallies.addTo_back j
  rw [tally_addTo] at taken
  rw [tally_bump,← taken]
  have counted := tallies.addTo_back k
  rw [tally_addTo,if_pos rfl] at counted
  split
  · omega
  · rfl

theorem bump_all (gone : List K) (tallies : m.Tallies (gone ++ l)) :
    (gone.foldl (fun m k => m.bump k (-1)) m).Tallies l := by
  induction gone generalizing m with
  | nil => exact tallies
  | cons _ _ ih => exact ih tallies.bump_back

theorem addTo_back_all (gone : List K) (tallies : m.Tallies (gone ++ l)) :
    (gone.foldl (fun m k => m.addTo k (-1)) m).Tallies l := by
  induction gone generalizing m with
  | nil => exact tallies
  | cons _ _ ih => exact ih tallies.addTo_back

theorem addTo_all (come : List K) (tallies : m.Tallies l) :
    (come.foldl (fun m k => m.addTo k 1) m).Tallies (come ++ l) := by
  induction come generalizing m l with
  | nil => exact tallies
  | cons _ _ ih => exact (ih tallies.addTo_one).perm perm_middle

end Tallies

end GoMap

section
variable {α β : Type} {f : α → α} {g : α → Option β} {l : List α} {c : Nat}

theorem filterMap_modify (same : ∀ a, l[c]? = some a → g (f a) = g a) : (l.modify c f).filterMap g = l.filterMap g := by
  have maps : (l.modify c f).map g = l.map g := by
    refine ext_getElem? (fun _ => ?_)
    rw [getElem?_map,getElem?_map,getElem?_modify,Option.map_eq_map,Option.map_map]
    refine Option.map_congr (fun a here => ?_)
    dsimp only [Function.comp]
    split
    next this => exact same a (this ▸ here)
    · rfl
  have both := congrArg (filterMap id) maps
  rwa [filterMap_map,filterMap_map] at both

theorem filterMap_set (g : α → Option β) (b : α) (known : l[c]? = some a) :
    (l.filterMap g).Perm ((g a).toList ++ (l.eraseIdx c).filterMap g) ∧
      ((l.set c b).filterMap g).Perm ((g b).toList ++ (l.eraseIdx c).filterMap g) := by
  have split : ∀ (h : α) (t : List α), (h :: t).filterMap g = (g h).toList ++ t.filterMap g := by
    intro h _
    rw [filterMap_cons]
    cases g h <;> rfl
  obtain ⟨bound,rfl⟩ := List.getElem?_eq_some_iff.mp known
  rw [← split,← split]
  exact ⟨(getElem_cons_eraseIdx_perm bound).symm.filterMap g,(set_perm_cons_eraseIdx bound b).filterMap g⟩

end

section
variable {H S : Type} [BEq H] [BEq S]

/-- At most `total` places, and of one host or site at most as many as each may take. -/
structure Fits (total perHost perSite : Int) (l : List (H × S)) : Prop where
  length : (l.length : Int) ≤ total
  hosts : ∀ h, ((l.map Prod.fst).count h : Int) ≤ perHost
  sites : ∀ s, ((l.map Prod.snd).count s : Int) ≤ perSite

/-- One more place of the host and site fits. -/
structure Room (total perHost perSite : Int) (l : List (H × S)) (new : H × S) : Prop where
  length : (l.length : Int) < total
  host : ((l.map Prod.fst).count new.1 : Int) < perHost
  site : ((l.map Prod.snd).count new.2 : Int) < perSite

theorem Room.perm {new : H × S}
    (room : Room total perHost perSite l new) (same : l.Perm l') : Room total perHost perSite l' new :=
  ⟨same.length_eq ▸ room.length,(same.map _).count_eq new.1 ▸ room.host,(same.map _).count_eq new.2 ▸ room.site⟩

namespace Fits

variable {total perHost perSite : Int} {l l' : List (H × S)} {old new : H × S}

theorem nil (length : 0 < total) (hosts : 0 < perHost) (sites : 0 < perSite) :
    Fits total perHost perSite ([] : List (H × S)) :=
  ⟨Int.le_of_lt length,fun _ => Int.le_of_lt hosts,fun _ => Int.le_of_lt sites⟩

theorem perm (fits : Fits total perHost perSite l) (same : l.Perm l') : Fits total perHost perSite l' := by
  refine ⟨same.length_eq ▸ fits.length,fun h => ?_,fun s => ?_⟩
  · rw [← (same.map Prod.fst).count_eq]
    exact fits.hosts h
  · rw [← (same.map Prod.snd).count_eq]
    exact fits.sites s

theorem sublist (fits : Fits total perHost perSite l) (part : l'.Sublist l) : Fits total perHost perSite l' := by
  refine ⟨?_,fun h => ?_,fun s => ?_⟩
  · have := part.length_le
    have := fits.length
    omega
  · have := (part.map Prod.fst).count_le h
    have := fits.hosts h
    omega
  · have := (part.map Prod.snd).count_le s
    have := fits.sites s
    omega

theorem tail (fits : Fits total perHost perSite (old :: l)) : Fits total perHost perSite l :=
  fits.sublist (sublist_cons_self ..)

variable [LawfulBEq H] [LawfulBEq S]

theorem add (fits : Fits total perHost perSite l) (room : Room total perHost perSite l new) :
    Fits total perHost perSite (new :: l) := by
  refine ⟨?_,fun h => ?_,fun s => ?_⟩
  · have := room.length
    rw [length_cons]
    omega
  · have others := fits.hosts h
    have own := room.host
    rw [map_cons,count_cons]
    by_cases here : new.1 = h
    · subst here; simp; omega
    · simpa [here] using others
  · have others := fits.sites s
    have own := room.site
    rw [map_cons,count_cons]
    by_cases here : new.2 = s
    · subst here; simp; omega
    · simpa [here] using others

theorem room (fits : Fits total perHost perSite (old :: l)) (new : H × S)
    (host : old.1 ≠ new.1 → ((l.map Prod.fst).count new.1 : Int) < perHost)
    (site : old.2 ≠ new.2 → ((l.map Prod.snd).count new.2 : Int) < perSite) : Room total perHost perSite l new := by
  refine ⟨?_,?_,?_⟩
  · have := fits.length
    rw [length_cons] at this
    omega
  · by_cases same : old.1 = new.1
    · have := fits.hosts new.1
      rw [map_cons,same,count_cons_self] at this
      omega
    · exact host same
  · by_cases same : old.2 = new.2
    · have := fits.sites new.2
      rw [map_cons,same,count_cons_self] at this
      omega
    · exact site same

end Fits

end

end ENode
