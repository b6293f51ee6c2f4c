import Mathlib.Logic.Function.Basic
import Mathlib.Tactic.Common
import ENode.GoText

/-! The NAT registry: one candidate endpoint per user hash and address family, and an index from
an endpoint to the hash that holds it. A slot counts the time of its last sign of life in
32-bit milliseconds since the handler was made, the clock in nanoseconds; zero marks it empty. -/
namespace ENode.Rendezvous

open GoText

abbrev UserHash := Bytes

/-- An IPv6 address is its /64 network and the rest; an IPv4 one is the same in both spellings. -/
inductive IP where
  | v4 (address : Nat)
  | v6 (network interface : Nat)
  deriving DecidableEq

inductive Family where
  | v4 | v6
  deriving DecidableEq

/-- `remoteIsIPv6`. -/
def IP.family : IP → Family
  | .v4 _ => .v4
  | .v6 _ _ => .v6

structure Endpoint where
  ip : IP := .v6 0 0
  port : Nat := 0
  deriving DecidableEq

def Endpoint.family (ep : Endpoint) : Family := ep.ip.family

/-- One stored candidate; a zero `seen` is the empty slot. -/
structure Slot where
  ep : Endpoint := {}
  sock : Nat := 0
  seen : Nat := 0
  deriving DecidableEq

structure Entry where
  v4 : Slot := {}
  v6 : Slot := {}
  version : Nat := 0
  deriving DecidableEq

namespace Entry

def slot (e : Entry) : Family → Slot
  | .v4 => e.v4
  | .v6 => e.v6

def setSlot (e : Entry) (f : Family) (s : Slot) : Entry :=
  match f with
  | .v4 => { e with v4 := s }
  | .v6 => { e with v6 := s }

def vacant (e : Entry) : Bool := e.v4.seen = 0 ∧ e.v6.seen = 0

@[simp] theorem slot_setSlot (e : Entry) (f g : Family) (s : Slot) :
    (e.setSlot f s).slot g = if g = f then s else e.slot g := by
  cases f <;> cases g <;> rfl

@[simp] theorem slot_empty (f : Family) : ({} : Entry).slot f = {} := by cases f <;> rfl

@[simp] theorem slot_version (e : Entry) (f : Family) (version : Nat) :
    ({ e with version := version } : Entry).slot f = e.slot f := by cases f <;> rfl

theorem vacant_iff (e : Entry) : e.vacant = true ↔ ∀ f, (e.slot f).seen = 0 := by
  simp only [vacant,decide_eq_true_eq]
  exact ⟨fun both f => by cases f; exacts [both.1,both.2],fun each => ⟨each .v4,each .v6⟩⟩

end Entry

def millisecond : Nat := 1000000

/-- Milliseconds in 32 bits, never zero. -/
def tick (now : Nat) : Nat :=
  let t := now / millisecond % 2 ^ 32
  if t = 0 then 1 else t

/-- How long ago `seen` was, by the 32-bit difference of two ticks. -/
def natAge (now seen : Nat) : Nat := (now + 2 ^ 32 - seen) % 2 ^ 32 * millisecond

def liveSlot (ttl : Nat) (s : Slot) (nowTick : Nat) : Bool := s.seen ≠ 0 ∧ natAge nowTick s.seen < ttl

structure Registry where
  entries : UserHash → Option Entry := fun _ => none
  byAddr : Endpoint → Option UserHash := fun _ => none

/-- A candidate as `get` hands it out. -/
structure Candidate where
  addr : Endpoint
  sock : Nat
  deriving DecidableEq

structure ClientEntry where
  hash : UserHash := []
  v4 : Option Candidate := none
  v6 : Option Candidate := none
  version : Nat := 0
  deriving DecidableEq

/-- `familySlot`. -/
def ClientEntry.candidate (e : ClientEntry) : Family → Option Candidate
  | .v4 => e.v4
  | .v6 => e.v6

namespace Registry

/-- A hash's candidate for one family replaces its older one, and whoever else held the endpoint loses it. -/
def setSlotLocked (r : Registry) (hash : UserHash) (entry : Entry) (f : Family) (ep : Endpoint) (sock now : Nat) :
    Registry × Entry :=
  let slot := entry.slot f
  let byAddr := if slot.seen ≠ 0 ∧ slot.ep ≠ ep ∧ r.byAddr slot.ep = some hash
    then Function.update r.byAddr slot.ep none else r.byAddr
  let entries := match byAddr ep with
    | none => r.entries
    | some owner =>
      if owner = hash then r.entries
      else match r.entries owner with
        | none => r.entries
        | some other =>
          let other := if (other.slot f).ep = ep then other.setSlot f {} else other
          Function.update r.entries owner (if other.vacant then none else some other)
  ({ entries := entries,byAddr := Function.update byAddr ep (some hash) },entry.setSlot f ⟨ep,sock,now⟩)

def upsert (r : Registry) (hash : UserHash) (remote : Endpoint) (version sock now : Nat) : Registry :=
  let entry := (r.entries hash).getD {}
  let entry := if version > 0 then { entry with version := version } else entry
  let (r,entry) := r.setSlotLocked hash entry remote.family remote sock (tick now)
  { r with entries := Function.update r.entries hash (some entry) }

/-- A keepalive refreshes the live candidate it comes from, if there is one. -/
def touchByAddr (r : Registry) (ttl : Nat) (remote : Endpoint) (sock now : Nat) : Registry × Option UserHash :=
  match r.byAddr remote with
  | none => (r,none)
  | some owner =>
    match r.entries owner with
    | none => (r,none)
    | some entry =>
      let slot := entry.slot remote.family
      if ¬liveSlot ttl slot (tick now) ∨ slot.ep ≠ remote then (r,none)
      else
        let entry := entry.setSlot remote.family { slot with seen := tick now,sock := sock }
        ({ r with entries := Function.update r.entries owner (some entry) },some owner)

def candidateOf (ttl : Nat) (s : Slot) (nowTick : Nat) : Option Candidate :=
  if liveSlot ttl s nowTick then some ⟨s.ep,s.sock⟩ else none

def snapshot (ttl : Nat) (e : Entry) (hash : UserHash) (nowTick : Nat) : ClientEntry where
  hash := hash
  v4 := candidateOf ttl e.v4 nowTick
  v6 := candidateOf ttl e.v6 nowTick
  version := e.version

def get (r : Registry) (ttl : Nat) (hash : UserHash) (now : Nat) : Option ClientEntry :=
  match r.entries hash with
  | none => none
  | some e =>
    let snap := snapshot ttl e hash (tick now)
    if snap.v4 = none ∧ snap.v6 = none then none else some snap

/-- The slot of a family, emptied, and its index entry dropped. -/
def clearSlotLocked (r : Registry) (hash : UserHash) (entry : Entry) (f : Family) : Registry × Entry :=
  let byAddr := if r.byAddr (entry.slot f).ep = some hash
    then Function.update r.byAddr (entry.slot f).ep none else r.byAddr
  ({ r with byAddr := byAddr },entry.setSlot f {})

/-- What the sweep does to one family of the entry it visits. -/
def sweepSlot (ttl now : Nat) (hash : UserHash) (visit : Registry × Entry) (f : Family) : Registry × Entry :=
  if (visit.2.slot f).seen ≠ 0 ∧ ¬liveSlot ttl (visit.2.slot f) (tick now)
  then visit.1.clearSlotLocked hash visit.2 f else visit

def sweepEntry (ttl now : Nat) (r : Registry) (hash : UserHash) : Registry :=
  match r.entries hash with
  | none => r
  | some entry =>
    let visit := sweepSlot ttl now hash (sweepSlot ttl now hash (r,entry) .v4) .v6
    { visit.1 with entries := Function.update visit.1.entries hash (if visit.2.vacant then none else some visit.2) }

/-- The sweep, in the order in which `range` visits the entries. -/
def cleanup (r : Registry) (ttl now : Nat) (order : List UserHash) : Registry :=
  order.foldl (sweepEntry ttl now) r

def stored (r : Registry) (hash : UserHash) (f : Family) : Slot := ((r.entries hash).getD {}).slot f

end Registry

theorem tick_pos (now : Nat) : 0 < tick now := by
  simp only [tick]
  split <;> omega

/-- The index holds an endpoint exactly when the slot of its family does, for the hash it names. -/
structure Indexed (r : Registry) : Prop where
  owner : ∀ ep hash, r.byAddr ep = some hash ↔ (r.stored hash ep.family).seen ≠ 0 ∧ (r.stored hash ep.family).ep = ep
  family : ∀ hash f, (r.stored hash f).seen ≠ 0 → (r.stored hash f).ep.family = f
  blank : ∀ hash f, (r.stored hash f).seen = 0 → r.stored hash f = {}

namespace Registry

theorem stored_update (entries : UserHash → Option Entry) (byAddr : Endpoint → Option UserHash) (hash other : UserHash)
    (e : Option Entry) (f : Family) : stored ⟨Function.update entries hash e,byAddr⟩ other f =
      if other = hash then (e.getD {}).slot f else stored ⟨entries,byAddr⟩ other f := by
  simp only [stored,Function.update_apply]
  split <;> rfl

theorem vacant_slot {e : Entry} (blank : ∀ f, (e.slot f).seen = 0 → e.slot f = {}) (f : Family) :
    ((if e.vacant then none else some e : Option Entry).getD {}).slot f = e.slot f := by
  split
  next vacant => simp [blank f ((e.vacant_iff).mp vacant f)]
  · rfl

theorem get_candidate (r : Registry) (ttl : Nat) (hash : UserHash) (now : Nat) (f : Family) :
    (r.get ttl hash now).bind (·.candidate f) = candidateOf ttl (r.stored hash f) (tick now) := by
  cases there : r.entries hash with
  | none => simp [get,there,stored,candidateOf,liveSlot]
  | some e =>
    have slot : r.stored hash f = e.slot f := by simp [stored,there]
    simp only [get,there]
    by_cases neither : (snapshot ttl e hash (tick now)).v4 = none ∧ (snapshot ttl e hash (tick now)).v6 = none
    · rw [if_pos neither,slot]
      cases f
      · exact neither.1.symm
      · exact neither.2.symm
    · rw [if_neg neither,slot]
      cases f <;> rfl

theorem empty_indexed : Indexed {} where
  owner ep hash := by simp [stored]
  family hash f := by simp [stored]
  blank hash f := by simp [stored]

end Registry

theorem Indexed.unique (indexed : Indexed r)
    (held : (r.stored a f).seen ≠ 0) (also : (r.stored b g).seen ≠ 0) (same : (r.stored a f).ep = (r.stored b g).ep) :
    a = b ∧ f = g := by
  have familyA := indexed.family a f held
  have familyB := indexed.family b g also
  have families : f = g := by rw [← familyA,same,familyB]
  subst families
  have ownerA := (indexed.owner (r.stored a f).ep a).mpr (by rw [familyA]; exact ⟨held,rfl⟩)
  have ownerB := (indexed.owner (r.stored a f).ep b).mpr (by rw [familyA]; exact ⟨also,same.symm⟩)
  rw [ownerA] at ownerB
  exact ⟨Option.some.inj ownerB,rfl⟩

namespace Registry

variable {r : Registry} (indexed : Indexed r) (hash : UserHash) (remote : Endpoint)

/-- The index without the hash's older endpoint of the family. -/
def freed (r : Registry) (hash : UserHash) (remote : Endpoint) : Endpoint → Option UserHash :=
  if (r.stored hash remote.family).seen ≠ 0 ∧ (r.stored hash remote.family).ep ≠ remote ∧
      r.byAddr (r.stored hash remote.family).ep = some hash
  then Function.update r.byAddr (r.stored hash remote.family).ep none else r.byAddr

theorem freed_self (r : Registry) (hash : UserHash) (remote : Endpoint) : r.freed hash remote remote = r.byAddr remote := by
  unfold freed
  split
  next moved => rw [Function.update_of_ne (Ne.symm moved.2.1)]
  · rfl

/-- The entries without the slot of whoever else holds the endpoint. -/
def ousted (r : Registry) (hash : UserHash) (remote : Endpoint) : UserHash → Option Entry :=
  match r.byAddr remote with
  | none => r.entries
  | some owner =>
    if owner = hash then r.entries
    else match r.entries owner with
      | none => r.entries
      | some other =>
        let other := if (other.slot remote.family).ep = remote then other.setSlot remote.family {} else other
        Function.update r.entries owner (if other.vacant then none else some other)

theorem upsert_eq (version sock now : Nat) : ∃ entry : Entry,
    (∀ f, entry.slot f = if f = remote.family then ⟨remote,sock,tick now⟩ else r.stored hash f) ∧
    r.upsert hash remote version sock now = ⟨Function.update (r.ousted hash remote) hash (some entry),
        Function.update (r.freed hash remote) remote (some hash)⟩ := by
  let entry : Entry := if version > 0 then { (r.entries hash).getD {} with version := version }
    else (r.entries hash).getD {}
  have slots : ∀ f, entry.slot f = r.stored hash f := by
    intro f
    simp only [entry]
    split
    · exact Entry.slot_version ..
    · rfl
  refine ⟨entry.setSlot remote.family ⟨remote,sock,tick now⟩,fun _ => by rw [Entry.slot_setSlot,slots],?_⟩
  have free : (if (entry.slot remote.family).seen ≠ 0 ∧ (entry.slot remote.family).ep ≠ remote ∧
      r.byAddr (entry.slot remote.family).ep = some hash
      then Function.update r.byAddr (entry.slot remote.family).ep none else r.byAddr) = r.freed hash remote := by
    rw [slots]
    rfl
  change (let p := r.setSlotLocked hash entry remote.family remote sock (tick now)
    ({ p.1 with entries := Function.update p.1.entries hash (some p.2) } : Registry)) = _
  simp only [setSlotLocked,free,freed_self]
  rfl

include indexed

theorem ousted_stored (other : UserHash) (f : Family) : stored ⟨r.ousted hash remote,r.byAddr⟩ other f =
    if other ≠ hash ∧ f = remote.family ∧ (r.stored other f).seen ≠ 0 ∧ (r.stored other f).ep = remote then {}
    else r.stored other f := by
  unfold ousted
  split
  next free =>
    rw [if_neg]
    rintro ⟨-,rfl,seen,same⟩
    have owner := (indexed.owner remote other).mpr ⟨seen,same⟩
    rw [free] at owner
    cases owner
  next owner held =>
    have holds := (indexed.owner remote owner).mp held
    split
    next own =>
      rw [if_neg]
      rintro ⟨another,rfl,seen,same⟩
      have also := (indexed.owner remote other).mpr ⟨seen,same⟩
      rw [held] at also
      exact another ((Option.some.inj also).symm.trans own)
    next another =>
      cases there : r.entries owner with
      | none =>
        have empty : r.stored owner remote.family = {} := by simp [stored,there]
        exact absurd (by rw [empty]) holds.1
      | some e =>
        have slots : ∀ f, r.stored owner f = e.slot f := by simp [stored,there]
        rw [slots] at holds
        have left : ∀ f, (e.setSlot remote.family {}).slot f = if f = remote.family then {} else r.stored owner f := by
          intro f
          rw [Entry.slot_setSlot,slots]
        have blank : ∀ f, ((e.setSlot remote.family {}).slot f).seen = 0 → (e.setSlot remote.family {}).slot f = {} := by
          intro f
          rw [left]
          split
          · exact fun _ => rfl
          · exact indexed.blank owner f
        simp only [if_pos holds.2]
        rw [stored_update,vacant_slot blank,left]
        by_cases here : other = owner
        · subst here
          by_cases fam : f = remote.family
          · subst fam
            rw [if_pos rfl,if_pos rfl,if_pos ⟨another,rfl,by rw [slots]; exact holds.1,by rw [slots]; exact holds.2⟩]
          · rw [if_pos rfl,if_neg fam,if_neg (fun c => fam c.2.1)]
        · rw [if_neg here,if_neg]
          · rintro ⟨-,rfl,seen,same⟩
            have also := (indexed.owner remote other).mpr ⟨seen,same⟩
            rw [held] at also
            exact here (Option.some.inj also).symm

theorem upsert_stored (version sock now : Nat) (other : UserHash) (f : Family) :
    (r.upsert hash remote version sock now).stored other f =
      if other = hash ∧ f = remote.family then ⟨remote,sock,tick now⟩
      else if f = remote.family ∧ (r.stored other f).seen ≠ 0 ∧ (r.stored other f).ep = remote then {}
      else r.stored other f := by
  obtain ⟨entry,slots,eq⟩ := upsert_eq (r := r) hash remote version sock now
  have ousted := ousted_stored indexed hash remote other f
  rw [eq,stored_update]
  change (if other = hash then entry.slot f else stored ⟨r.ousted hash remote,r.byAddr⟩ other f) = _
  rw [ousted,slots]
  by_cases here : other = hash <;> by_cases fam : f = remote.family <;> simp [here,fam]

theorem upsert_byAddr (version sock now : Nat) (ep : Endpoint) : (r.upsert hash remote version sock now).byAddr ep =
      if ep = remote then some hash
      else if (r.stored hash remote.family).seen ≠ 0 ∧ (r.stored hash remote.family).ep = ep then none
      else r.byAddr ep := by
  obtain ⟨_,-,eq⟩ := upsert_eq (r := r) hash remote version sock now
  rw [eq]
  change Function.update (r.freed hash remote) remote (some hash) ep = _
  rw [Function.update_apply]
  split
  · rfl
  next other =>
    unfold freed
    by_cases seen : (r.stored hash remote.family).seen ≠ 0
    · have fam := indexed.family hash remote.family seen
      have held : r.byAddr (r.stored hash remote.family).ep = some hash :=
        (indexed.owner _ hash).mpr (by rw [fam]; exact ⟨seen,rfl⟩)
      by_cases same : (r.stored hash remote.family).ep = ep
      · rw [if_pos ⟨seen,by rw [same]; exact other,held⟩,if_pos ⟨seen,same⟩,← same,Function.update_self]
      · rw [if_neg (fun c : _ ∧ _ = ep => same c.2)]
        split
        · rw [Function.update_of_ne (Ne.symm same)]
        · rfl
    · rw [if_neg (fun c => seen c.1),if_neg (fun c => seen c.1)]

theorem upsert_indexed (version sock now : Nat) : Indexed (r.upsert hash remote version sock now) where
  owner ep other := by
    have before := indexed.owner ep other
    have mine := indexed.owner ep hash
    have fam := indexed.family hash remote.family
    have seen := (tick_pos now).ne'
    rw [upsert_byAddr indexed,upsert_stored indexed]
    grind
  family other f := by
    rw [upsert_stored indexed]
    split
    next mine => exact fun _ => mine.2.symm
    split
    · exact fun no => absurd rfl no
    · exact indexed.family other f
  blank other f := by
    rw [upsert_stored indexed]
    split
    · exact fun no => absurd no (tick_pos now).ne'
    split
    · exact fun _ => rfl
    · exact indexed.blank other f

omit indexed in
theorem liveSlot_seen (live : liveSlot ttl s nowTick = true) : s.seen ≠ 0 := by
  simp only [liveSlot,decide_eq_true_eq] at live
  exact live.1

/-- The hash whose live candidate of that family is the endpoint. -/
def keeps (r : Registry) (ttl : Nat) (remote : Endpoint) (now : Nat) (hash : UserHash) : Prop :=
  liveSlot ttl (r.stored hash remote.family) (tick now) = true ∧ (r.stored hash remote.family).ep = remote

theorem keeps_owner (holds : r.keeps ttl ep now owner) : r.byAddr ep = some owner :=
  (indexed.owner ep owner).mpr ⟨liveSlot_seen holds.1,holds.2⟩

variable (ttl sock now : Nat)

/-- A keepalive finds the hash that holds its source and refreshes that slot only. -/
theorem touchByAddr_cases :
    ((∀ hash, ¬r.keeps ttl remote now hash) ∧ r.touchByAddr ttl remote sock now = (r,none)) ∨
    ∃ (owner : UserHash) (e : Entry), r.keeps ttl remote now owner ∧ (∀ f, e.slot f = r.stored owner f) ∧
      r.touchByAddr ttl remote sock now = (⟨Function.update r.entries owner
          (some (e.setSlot remote.family { r.stored owner remote.family with seen := tick now,sock := sock })),
          r.byAddr⟩,some owner) := by
  unfold touchByAddr
  split
  next free =>
    refine .inl ⟨fun hash holds => ?_,rfl⟩
    rw [keeps_owner indexed holds] at free
    cases free
  next owner held =>
    split
    next gone =>
      refine .inl ⟨fun hash holds => ?_,rfl⟩
      have same : owner = hash := Option.some.inj (held.symm.trans (keeps_owner indexed holds))
      have seen := liveSlot_seen holds.1
      rw [← same] at seen
      exact seen (by simp [stored,gone])
    next e there =>
      have slots : ∀ f, e.slot f = r.stored owner f := by simp [stored,there]
      simp only [slots]
      split
      next stale =>
        refine .inl ⟨fun hash holds => ?_,rfl⟩
        have same : owner = hash := Option.some.inj (held.symm.trans (keeps_owner indexed holds))
        subst same
        rcases stale with dead | moved
        · exact dead holds.1
        · exact moved holds.2
      next fresh =>
        have holds : r.keeps ttl remote now owner := by
          rw [not_or,not_not,not_not] at fresh
          exact fresh
        exact .inr ⟨owner,e,holds,slots,rfl⟩

theorem touchByAddr_stored (hash : UserHash) (f : Family) : ((r.touchByAddr ttl remote sock now).1).stored hash f =
      if f = remote.family ∧ liveSlot ttl (r.stored hash f) (tick now) = true ∧ (r.stored hash f).ep = remote
      then { r.stored hash f with seen := tick now,sock := sock } else r.stored hash f := by
  obtain ⟨nobody,same⟩ | ⟨owner,_,holds,slots,eq⟩ := touchByAddr_cases indexed remote ttl sock now
  · rw [same,if_neg]
    rintro ⟨rfl,holds⟩
    exact nobody hash holds
  · rw [eq]
    change stored ⟨Function.update r.entries owner _,r.byAddr⟩ hash f = _
    rw [stored_update,Option.getD_some,Entry.slot_setSlot,slots]
    by_cases here : hash = owner
    · subst here
      by_cases fam : f = remote.family
      · subst fam
        rw [if_pos rfl,if_pos rfl,if_pos ⟨rfl,holds⟩]
      · rw [if_pos rfl,if_neg fam,if_neg (fun c => fam c.1)]
    · rw [if_neg here,if_neg]
      rintro ⟨rfl,also⟩
      exact here (Option.some.inj ((keeps_owner indexed also).symm.trans (keeps_owner indexed holds)))

theorem touchByAddr_byAddr : (r.touchByAddr ttl remote sock now).1.byAddr = r.byAddr := by
  obtain ⟨-,same⟩ | ⟨_,_,-,-,eq⟩ := touchByAddr_cases indexed remote ttl sock now
  · rw [same]
  · rw [eq]

theorem touchByAddr_matched (hash : UserHash) :
    (r.touchByAddr ttl remote sock now).2 = some hash ↔ r.keeps ttl remote now hash := by
  obtain ⟨nobody,same⟩ | ⟨owner,_,holds,-,eq⟩ := touchByAddr_cases indexed remote ttl sock now
  · rw [same]
    exact ⟨(absurd · (Option.some_ne_none hash).symm),fun holds => absurd holds (nobody hash)⟩
  · rw [eq]
    constructor
    · intro same
      rw [← Option.some.inj same]
      exact holds
    · exact fun also => (keeps_owner indexed holds).symm.trans (keeps_owner indexed also)

theorem touchByAddr_indexed : Indexed (r.touchByAddr ttl remote sock now).1 := by
  have seen := (tick_pos now).ne'
  constructor
  · intro ep hash
    rw [touchByAddr_byAddr indexed,touchByAddr_stored indexed,indexed.owner ep hash]
    split
    next kept => exact ⟨fun held => ⟨seen,held.2⟩,fun held => ⟨liveSlot_seen kept.2.1,held.2⟩⟩
    · rfl
  · intro hash f
    rw [touchByAddr_stored indexed]
    split
    next kept => exact fun _ => by rw [kept.1]; exact congrArg Endpoint.family (by rw [← kept.1]; exact kept.2.2)
    · exact indexed.family hash f
  · intro hash f
    rw [touchByAddr_stored indexed]
    split
    · exact fun no => absurd no seen
    · exact indexed.blank hash f

omit indexed in
/-- One family of the entry that is visited; the entry itself is written back later. -/
theorem sweepSlot_spec (ttl now : Nat) (visit : Registry × Entry) (f : Family) :
    (sweepSlot ttl now hash visit f).1.entries = visit.1.entries ∧ (∀ g, (sweepSlot ttl now hash visit f).2.slot g =
      if g = f ∧ (visit.2.slot f).seen ≠ 0 ∧ ¬liveSlot ttl (visit.2.slot f) (tick now) then {} else visit.2.slot g) ∧
    (∀ ep, (sweepSlot ttl now hash visit f).1.byAddr ep =
      if (visit.2.slot f).seen ≠ 0 ∧ ¬liveSlot ttl (visit.2.slot f) (tick now) ∧ ep = (visit.2.slot f).ep ∧
        visit.1.byAddr ep = some hash then none else visit.1.byAddr ep) := by
  simp only [sweepSlot]
  split
  next stale =>
    refine ⟨rfl,fun g => ?_,fun ep => ?_⟩
    · simp only [clearSlotLocked,Entry.slot_setSlot]
      by_cases here : g = f <;> simp [here,stale]
    · simp only [clearSlotLocked]
      by_cases held : visit.1.byAddr (visit.2.slot f).ep = some hash
      · rw [if_pos held,Function.update_apply]
        by_cases here : ep = (visit.2.slot f).ep
        · rw [if_pos here,if_pos ⟨stale.1,stale.2,here,by rw [here]; exact held⟩]
        · rw [if_neg here,if_neg (fun c => here c.2.2.1)]
      · rw [if_neg held,if_neg]
        rintro ⟨-,-,rfl,mine⟩
        exact held mine
  next kept =>
    refine ⟨rfl,fun _ => ?_,fun _ => ?_⟩
    · rw [if_neg (fun c => kept c.2)]
    · rw [if_neg (fun c => kept ⟨c.1,c.2.1⟩)]

theorem sweepEntry_spec (ttl now : Nat) : (∀ other f, (sweepEntry ttl now r hash).stored other f =
      if other = hash ∧ ¬liveSlot ttl (r.stored hash f) (tick now) then {} else r.stored other f) ∧
    (∀ ep, (sweepEntry ttl now r hash).byAddr ep =
      if r.byAddr ep = some hash ∧ ¬liveSlot ttl (r.stored hash ep.family) (tick now) then none else r.byAddr ep) := by
  unfold sweepEntry
  split
  next absent =>
    have empty : ∀ f, r.stored hash f = {} := by simp [stored,absent]
    constructor
    · intro other f
      split
      next here => rw [here.1,empty]
      · rfl
    · intro ep
      rw [if_neg]
      rintro ⟨held,-⟩
      have seen := ((indexed.owner ep hash).mp held).1
      rw [empty] at seen
      exact seen rfl
  next e there =>
    have slots : ∀ f, e.slot f = r.stored hash f := by simp [stored,there]
    obtain ⟨entries4,slots4,index4⟩ := sweepSlot_spec hash ttl now (r,e) .v4
    obtain ⟨entries6,_,_⟩ := sweepSlot_spec hash ttl now (sweepSlot ttl now hash (r,e) .v4) .v6
    generalize sweepSlot ttl now hash (r,e) .v4 = visit4 at *
    generalize sweepSlot ttl now hash visit4 .v6 = visit6 at *
    simp only [slots] at slots4 index4
    have blank := indexed.blank hash
    have after : ∀ f, visit6.2.slot f = if ¬liveSlot ttl (r.stored hash f) (tick now) then {} else r.stored hash f := by
      intro f
      have blankF := blank f
      cases f <;> grind
    have vacated : ∀ f, (visit6.2.slot f).seen = 0 → visit6.2.slot f = {} := by
      intro f
      have blankF := blank f
      rw [after]
      split <;> grind
    constructor
    · intro other _
      rw [stored_update,vacant_slot vacated,after,entries6,entries4]
      by_cases here : other = hash
      · subst here
        simp
      · rw [if_neg here,if_neg (fun c => here c.1)]
        rfl
    · intro ep
      have own := indexed.owner ep hash
      have fam4 := indexed.family hash .v4
      have fam6 := indexed.family hash .v6
      cases fam : ep.family <;> grind

theorem sweepEntry_indexed (ttl now : Nat) : Indexed (sweepEntry ttl now r hash) := by
  obtain ⟨stored,byAddr⟩ := sweepEntry_spec indexed hash ttl now
  constructor
  · intro ep other
    have own := indexed.owner ep other
    rw [stored,byAddr]
    grind
  · intro other f
    have fam := indexed.family other f
    rw [stored]
    grind
  · intro other f
    have blank := indexed.blank other f
    rw [stored]
    grind

omit indexed in
theorem cleanup_spec (indexed : Indexed r) (ttl now : Nat) (order : List UserHash) :
    Indexed (r.cleanup ttl now order) ∧ ∀ hash f, (r.cleanup ttl now order).stored hash f =
      if hash ∈ order ∧ ¬liveSlot ttl (r.stored hash f) (tick now) then {} else r.stored hash f := by
  induction order generalizing r with
  | nil => exact ⟨indexed,by simp [cleanup]⟩
  | cons first order ih =>
    have once := (sweepEntry_spec indexed first ttl now).1
    obtain ⟨kept,swept⟩ := ih (sweepEntry_indexed indexed first ttl now)
    refine ⟨kept,fun hash f => ?_⟩
    have rest := swept hash f
    have here := once hash f
    have empty : liveSlot ttl {} (tick now) = false := by simp [liveSlot]
    change ((sweepEntry ttl now r first).cleanup ttl now order).stored hash f = _
    rw [rest,here]
    simp only [List.mem_cons]
    grind

end Registry

end ENode.Rendezvous
