import Mathlib

/-! Go maps as association lists without repeated keys. Lookup, assignment and deletion
are those of `AList`; this adds a map's values and keys transformed, and the orders in
which `range` may visit it. -/
namespace ENode
open List

/-- A Go map. The order of the entries stands for nothing: `GoMap.Visits` is what `range` promises. -/
abbrev GoMap (K V : Type) := AList (fun _ : K => V)

namespace GoMap

variable {K V W : Type}

def pairs (m : GoMap K V) : List (K × V) := m.entries.map (fun e => (e.1,e.2))

/-- `range` visits every entry once, in any order. -/
def Visits (m : GoMap K V) (order : List (K × V)) : Prop := order.Perm (pairs m)

def mapVals (f : V → W) (m : GoMap K V) : GoMap K W where
  entries := m.entries.map (fun e => ⟨e.1,f e.2⟩)
  nodupKeys := by
    have keys : (m.entries.map (fun e => (⟨e.1,f e.2⟩ : Sigma fun _ : K => W))).keys = m.entries.keys := by
      simp [keys,Function.comp_def]
    rw [List.NodupKeys,keys]
    exact m.nodupKeys

/-- The map with some values replaced and the other entries deleted. -/
def filterMapVals (f : V → Option W) (m : GoMap K V) : GoMap K W where
  entries := m.entries.filterMap (fun e => (f e.2).map (fun w => ⟨e.1,w⟩))
  nodupKeys := by
    have within : (m.entries.filterMap (fun e =>
        (f e.2).map (fun w => (⟨e.1,w⟩ : Sigma fun _ : K => W)))).keys.Sublist m.entries.keys := by
      induction m.entries with
      | nil => simp
      | cons e rest ih =>
        cases kept : f e.2 with
        | none => simpa [kept] using ih.cons e.1
        | some w => simpa [kept] using ih
    exact List.Nodup.sublist within m.nodupKeys

variable [DecidableEq K]

/-- A new map filled by ranging over `m` and assigning each value under its new key. -/
def rekey (f : K → K) (m : GoMap K V) : GoMap K V :=
  (pairs m).foldl (fun built e => built.insert (f e.1) e.2) ∅

variable (m : GoMap K V)

theorem lookup_insert_ite (k j : K) (v : V) :
    (m.insert k v).lookup j = if j = k then some v else m.lookup j := by
  by_cases same : j = k
  · subst same; simp
  · simp [same,AList.lookup_insert_ne same]

theorem lookup_erase_ite (k j : K) :
    (m.erase k).lookup j = if j = k then none else m.lookup j := by
  by_cases same : j = k
  · subst same; simp
  · simp [same,AList.lookup_erase_ne same]

theorem mem_pairs (k : K) (v : V) : (k,v) ∈ pairs m ↔ m.lookup k = some v := by
  have entry := AList.mem_lookup_iff (a := k) (b := v) (s := m)
  rw [Option.mem_def] at entry
  rw [entry,pairs,mem_map]
  constructor
  · rintro ⟨_,member,equal⟩
    obtain ⟨rfl,rfl⟩ := Prod.mk.inj equal
    exact member
  · exact fun member => ⟨_,member,rfl⟩

omit [DecidableEq K] in
theorem pairs_keys_nodup : ((pairs m).map Prod.fst).Nodup := by
  have keys : (pairs m).map Prod.fst = m.entries.keys := by simp [pairs,keys]
  rw [keys]
  exact m.nodupKeys

theorem Visits.mem {m : GoMap K V} (visits : m.Visits order) (k : K) (v : V) :
    (k,v) ∈ order ↔ m.lookup k = some v := by
  rw [visits.mem_iff,mem_pairs]

omit [DecidableEq K] in
theorem Visits.keys_nodup {m : GoMap K V} (visits : m.Visits order) :
    (order.map Prod.fst).Nodup := (visits.map Prod.fst).nodup_iff.mpr (pairs_keys_nodup m)

theorem pairs_insert_fresh (k : K) (v : V) (fresh : m.lookup k = none) :
    pairs (m.insert k v) = (k,v) :: pairs m := by
  have absent : k ∉ m := AList.lookup_eq_none.mp fresh
  rw [pairs,AList.insert_of_notMem absent]
  rfl

theorem pairs_erase_length (k : K) (held : m.lookup k = some v) :
    (pairs (m.erase k)).length = (pairs m).length - 1 := by
  have lengths : ∀ a : GoMap K V, (pairs a).length = a.keys.length := fun _ => by simp [pairs,AList.keys,keys]
  have member : k ∈ m.keys := AList.mem_keys.mp (AList.lookup_isSome.mp (by rw [held]; rfl))
  rw [lengths,lengths,AList.keys_erase,length_erase_of_mem member]

@[simp] theorem lookup_mapVals (f : V → W) (m : GoMap K V) (k : K) :
    (mapVals f m).lookup k = (m.lookup k).map f := by
  have pushed : ∀ entries : List (Sigma fun _ : K => V),
      dlookup k (entries.map (fun e => (⟨e.1,f e.2⟩ : Sigma fun _ : K => W))) =
        (dlookup k entries).map f := by
    intro entries
    induction entries with
    | nil => rfl
    | cons e _ ih =>
      obtain ⟨j,_⟩ := e
      by_cases same : k = j
      · subst same; simp
      · have other : ¬j = k := fun h => same h.symm
        simpa only [map_cons,dlookup,dif_neg other] using ih
  exact pushed m.entries

@[simp] theorem lookup_filterMapVals (f : V → Option W) (m : GoMap K V) (k : K) :
    (filterMapVals f m).lookup k = (m.lookup k).bind f := by
  apply Option.ext
  intro w
  rw [← mem_pairs,Option.bind_eq_some_iff]
  simp only [← mem_pairs,pairs,filterMapVals,mem_map,mem_filterMap]
  constructor
  · rintro ⟨_,⟨⟨j,v⟩,member,kept⟩,same⟩
    obtain ⟨_,value,rfl⟩ := Option.map_eq_some_iff.mp kept
    obtain ⟨rfl,rfl⟩ := Prod.mk.inj same
    exact ⟨v,⟨_,member,rfl⟩,value⟩
  · rintro ⟨_,⟨⟨j,_⟩,member,same⟩,value⟩
    obtain ⟨rfl,rfl⟩ := Prod.mk.inj same
    exact ⟨⟨j,w⟩,⟨_,member,by simp [value]⟩,rfl⟩

theorem lookup_filled (f : K → K) (order : List (K × V)) (built : GoMap K V)
    (distinct : (order.map (fun e => f e.1)).Nodup)
    (fresh : ∀ e ∈ order, built.lookup (f e.1) = none) (j : K) (v : V) :
    (order.foldl (fun built e => built.insert (f e.1) e.2) built).lookup j = some v ↔
      built.lookup j = some v ∨ ∃ k, (k,v) ∈ order ∧ f k = j := by
  induction order generalizing built with
  | nil => simp
  | cons e rest ih =>
    simp only [map_cons,nodup_cons,mem_map,not_exists,not_and] at distinct
    have later : ∀ e' ∈ rest, (built.insert (f e.1) e.2).lookup (f e'.1) = none := by
      intro e' member
      rw [lookup_insert_ite,if_neg (distinct.1 e' member)]
      exact fresh e' (.tail _ member)
    rw [foldl_cons,ih _ distinct.2 later,lookup_insert_ite]
    by_cases here : j = f e.1
    · subst here
      have vacant := fresh e (.head _)
      simp only [if_true,vacant,Option.some.injEq,reduceCtorEq,false_or]
      constructor
      · rintro (rfl | ⟨k,member,equal⟩)
        · exact ⟨e.1,by simp,rfl⟩
        · exact ⟨k,.tail _ member,equal⟩
      · rintro ⟨k,member,equal⟩
        rcases mem_cons.mp member with rfl | member
        · exact .inl rfl
        · exact absurd equal (distinct.1 (k,v) member)
    · simp only [here,if_false]
      constructor
      · rintro (old | ⟨k,member,equal⟩)
        · exact .inl old
        · exact .inr ⟨k,.tail _ member,equal⟩
      · rintro (old | ⟨k,member,equal⟩)
        · exact .inl old
        · rcases mem_cons.mp member with rfl | member
          · exact absurd equal.symm here
          · exact .inr ⟨k,member,equal⟩

theorem lookup_rekey (f : K → K) (m : GoMap K V)
    (injective : ∀ a b, (m.lookup a).isSome → (m.lookup b).isSome → f a = f b → a = b) (j : K) (v : V) :
    (rekey f m).lookup j = some v ↔ ∃ k, m.lookup k = some v ∧ f k = j := by
  have distinct : ((pairs m).map (fun e => f e.1)).Nodup := by
    have keys := pairs_keys_nodup m
    rw [show (pairs m).map (fun e => f e.1) = ((pairs m).map Prod.fst).map f by simp]
    refine List.Nodup.map_on ?_ keys
    intro _ ha _ hb equal
    obtain ⟨⟨_,va⟩,ma,rfl⟩ := mem_map.mp ha
    obtain ⟨⟨_,vb⟩,mb,rfl⟩ := mem_map.mp hb
    exact injective _ _ (by simp [(mem_pairs m _ va).mp ma]) (by simp [(mem_pairs m _ vb).mp mb]) equal
  rw [rekey,lookup_filled f (pairs m) ∅ distinct (by simp)]
  simp [mem_pairs]

end GoMap

end ENode
