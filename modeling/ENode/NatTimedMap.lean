import ENode.NatRegistry

/-! What the registry is for: a map from a user hash and a family to an endpoint and the time it
was last heard of, in which an endpoint belongs to one hash and everything is forgotten after
the TTL. The registry refines it as long as the sweep runs once per TTL and the TTL is short
of half the range of the 32-bit tick. -/
namespace ENode.Rendezvous

open GoText

/-- Milliseconds since the handler was made, where an instant whose 32-bit tick is zero counts as the next. -/
def reading (now : Nat) : Nat :=
  let t := now / millisecond
  if t % 2 ^ 32 = 0 then t + 1 else t

theorem tick_eq (now : Nat) : tick now = reading now % 2 ^ 32 := by
  simp only [tick,reading]
  split <;> omega

theorem reading_mono (le : a ≤ b) : reading a ≤ reading b := by
  have quotient : a / millisecond ≤ b / millisecond := Nat.div_le_div_right le
  simp only [reading]
  split <;> split <;> omega

theorem reading_near (now : Nat) : now / millisecond ≤ reading now ∧ reading now ≤ now / millisecond + 1 := by
  simp only [reading]
  split <;> omega

theorem natAge_exact (past : seen ≤ now) (near : now - seen < 2 ^ 32) :
    natAge (now % 2 ^ 32) (seen % 2 ^ 32) = (now - seen) * millisecond := by
  simp only [natAge]
  congr 1
  omega

/-- For each hash and family an endpoint and when it was last heard of. -/
def TimedMap : Type := UserHash → Family → Option (Endpoint × Nat)

namespace TimedMap

def empty : TimedMap := fun _ _ => none

def fresh (ttl now heard : Nat) : Bool := (now - heard) * millisecond < ttl

/-- The endpoint is the hash's now, and nobody else's. -/
def register (m : TimedMap) (hash : UserHash) (remote : Endpoint) (now : Nat) : TimedMap := fun h f =>
  if f ≠ remote.family then m h f
  else if h = hash then some (remote,now)
  else if (m h f).map Prod.fst = some remote then none
  else m h f

/-- Whoever has the endpoint and was heard of in time is heard of again. -/
def keepalive (m : TimedMap) (ttl : Nat) (remote : Endpoint) (now : Nat) : TimedMap := fun h f =>
  (m h f).map fun e => if f = remote.family ∧ e.1 = remote ∧ fresh ttl now e.2 then (e.1,now) else e

def get (m : TimedMap) (ttl : Nat) (hash : UserHash) (f : Family) (now : Nat) : Option Endpoint :=
  (m hash f).bind fun e => if fresh ttl now e.2 then some e.1 else none

end TimedMap

/-- What reaches the registry; a sweep visits the entries in some order. -/
inductive Op where
  | register (hash : UserHash) (remote : Endpoint) (version sock : Nat)
  | keepalive (remote : Endpoint) (sock : Nat)
  | sweep (order : List UserHash)

def Registry.apply (ttl : Nat) (r : Registry) (now : Nat) : Op → Registry
  | .register hash remote version sock => r.upsert hash remote version sock now
  | .keepalive remote sock => (r.touchByAddr ttl remote sock now).1
  | .sweep order => r.cleanup ttl now order

/-- The map knows the time by the same clock and has nothing to sweep. -/
def TimedMap.apply (ttl : Nat) (m : TimedMap) (now : Nat) : Op → TimedMap
  | .register hash remote _ _ => m.register hash remote (reading now)
  | .keepalive remote _ => m.keepalive ttl remote (reading now)
  | .sweep _ => m

/-- When something last happened, and when the last sweep was. -/
structure Clock where
  now : Nat := 0
  swept : Nat := 0

def Clock.after (k : Clock) (now : Nat) : Op → Clock
  | .sweep _ => ⟨now,now⟩
  | _ => ⟨now,k.swept⟩

/-- The next instant: time does not go back, and a sweep is never more than one TTL ago. -/
def Clock.Reaches (k : Clock) (ttl now : Nat) : Prop := k.now ≤ now ∧ now ≤ k.swept + ttl

def Op.Complete (r : Registry) : Op → Prop
  | .sweep order => ∀ hash, r.entries hash ≠ none → hash ∈ order
  | _ => True

def Timely (ttl : Nat) : Registry → Clock → List (Nat × Op) → Prop
  | _, _, [] => True
  | r, k, (now,op) :: later =>
    k.Reaches ttl now ∧ op.Complete r ∧ Timely ttl (r.apply ttl now op) (k.after now op) later

def Registry.run (ttl : Nat) (ops : List (Nat × Op)) : Registry := ops.foldl (fun r e => r.apply ttl e.1 e.2) {}
def TimedMap.run (ttl : Nat) (ops : List (Nat × Op)) : TimedMap := ops.foldl (fun m e => m.apply ttl e.1 e.2) .empty
def Clock.run (ops : List (Nat × Op)) : Clock := ops.foldl (fun k e => k.after e.1 e.2) {}

/-- A stored slot is the map's entry, and was in time at the last sweep; what is stored no more was forgotten. -/
structure Tracks (ttl : Nat) (r : Registry) (m : TimedMap) (k : Clock) : Prop where
  indexed : Indexed r
  held : ∀ hash f, (r.stored hash f).seen ≠ 0 → ∃ heard, m hash f = some ((r.stored hash f).ep,heard) ∧
    (r.stored hash f).seen = heard % 2 ^ 32 ∧ heard ≤ reading k.now ∧ (reading k.swept - heard) * millisecond < ttl
  gone : ∀ hash f ep heard, (r.stored hash f).seen = 0 → m hash f = some (ep,heard) →
    ttl ≤ (reading k.now - heard) * millisecond
  past : k.swept ≤ k.now

/-- TTLs for which two of them fit in the range of the tick. -/
def Short (ttl : Nat) : Prop := 0 < ttl ∧ 2 * (ttl + 2 * millisecond) ≤ 2 ^ 32 * millisecond

section
variable {ttl : Nat} {r : Registry} {m : TimedMap} {k : Clock} {now : Nat}

theorem start_tracks : Tracks ttl {} .empty {} where
  indexed := Registry.empty_indexed
  held hash f := by simp [Registry.stored]
  gone hash f ep heard := by simp [TimedMap.empty]
  past := le_rfl

variable (short : Short ttl) (tracks : Tracks ttl r m k) (reaches : k.Reaches ttl now)

include short tracks reaches

omit tracks in
theorem slot_age {hash : UserHash} (seen : (r.stored hash f).seen = heard % 2 ^ 32)
    (past : heard ≤ reading k.now) (swept : (reading k.swept - heard) * millisecond < ttl) :
    natAge (tick now) (r.stored hash f).seen = (reading now - heard) * millisecond := by
  have later := reading_mono reaches.1
  have nowNear := reading_near now
  have sweptNear := reading_near k.swept
  have bound := reaches.2
  obtain ⟨-,_⟩ := short
  have near : reading now - heard < 2 ^ 32 := by
    simp only [millisecond] at *
    omega
  rw [tick_eq,seen,natAge_exact (past.trans later) near]

/-- A stored slot is live exactly when the map's entry is fresh. -/
theorem Tracks.live_iff (hash : UserHash) (f : Family) : liveSlot ttl (r.stored hash f) (tick now) = true ↔
      ∃ heard, m hash f = some ((r.stored hash f).ep,heard) ∧ TimedMap.fresh ttl (reading now) heard = true := by
  simp only [liveSlot,TimedMap.fresh,decide_eq_true_eq]
  constructor
  · rintro ⟨seen,young⟩
    obtain ⟨heard,entry,tickOf,past,swept⟩ := tracks.held hash f seen
    rw [slot_age short reaches tickOf past swept] at young
    exact ⟨heard,entry,young⟩
  · rintro ⟨heard,entry,young⟩
    by_cases seen : (r.stored hash f).seen = 0
    · have forgotten := tracks.gone hash f _ heard seen entry
      have later := reading_mono reaches.1
      have older : (reading k.now - heard) * millisecond ≤ (reading now - heard) * millisecond :=
        Nat.mul_le_mul_right _ (by omega)
      omega
    · obtain ⟨heard',entry',tickOf,past,swept⟩ := tracks.held hash f seen
      rw [entry] at entry'
      obtain rfl : heard = heard' := (Prod.mk.inj (Option.some.inj entry')).2
      rw [slot_age short reaches tickOf past swept]
      exact ⟨seen,young⟩

omit short in
theorem Tracks.stale {hash : UserHash} (seen : (r.stored hash f).seen = 0)
    (entry : m hash f = some (ep,heard)) : ttl ≤ (reading now - heard) * millisecond := by
  have forgotten := tracks.gone hash f ep heard seen entry
  have later := reading_mono reaches.1
  have longer : reading k.now - heard ≤ reading now - heard := Nat.sub_le_sub_right later heard
  exact forgotten.trans (Nat.mul_le_mul_right millisecond longer)

theorem Tracks.get_eq (hash : UserHash) (f : Family) :
    ((r.get ttl hash now).bind (·.candidate f)).map (·.addr) = m.get ttl hash f (reading now) := by
  have live := tracks.live_iff short reaches hash f
  rw [Registry.get_candidate,Registry.candidateOf,TimedMap.get]
  by_cases alive : liveSlot ttl (r.stored hash f) (tick now) = true
  · obtain ⟨heard,entry,young⟩ := live.mp alive
    rw [if_pos alive,entry,Option.bind_some,if_pos young,Option.map_some]
  · rw [if_neg alive,Option.map_none]
    cases entry : m hash f with
    | none => rw [Option.bind_none]
    | some e =>
      have forgotten : ¬TimedMap.fresh ttl (reading now) e.2 = true := by
        intro young
        by_cases seen : (r.stored hash f).seen = 0
        · have stale := tracks.stale reaches seen entry
          rw [TimedMap.fresh,decide_eq_true_eq] at young
          omega
        · obtain ⟨heard,held,-⟩ := tracks.held hash f seen
          rw [entry] at held
          obtain rfl := Option.some.inj held
          exact alive (live.mpr ⟨heard,entry,young⟩)
      rw [Option.bind_some,if_neg forgotten]

theorem Tracks.register (hash : UserHash) (remote : Endpoint) (version sock : Nat) :
    Tracks ttl (r.upsert hash remote version sock now) (m.register hash remote (reading now)) ⟨now,k.swept⟩ where
  indexed := Registry.upsert_indexed tracks.indexed hash remote version sock now
  past := tracks.past.trans reaches.1
  held other f := by
    rw [Registry.upsert_stored tracks.indexed]
    split
    next mine =>
      intro _
      have sweptBefore := reading_mono (tracks.past.trans reaches.1)
      refine ⟨reading now,by simp [TimedMap.register,mine],tick_eq now,le_rfl,?_⟩
      rw [Nat.sub_eq_zero_of_le sweptBefore,Nat.zero_mul]
      exact short.1
    next notMine =>
      split
      · exact fun no => absurd rfl no
      next kept =>
        intro seen
        obtain ⟨heard,entry,tickOf,past,swept⟩ := tracks.held other f seen
        refine ⟨heard,?_,tickOf,past.trans (reading_mono reaches.1),swept⟩
        simp only [TimedMap.register,entry,Option.map_some,Option.some.injEq]
        grind
  gone other f ep heard := by
    rw [Registry.upsert_stored tracks.indexed]
    intro _ entry
    have forgotten : (r.stored other f).seen = 0 → m other f = some (ep,heard) →
        ttl ≤ (reading now - heard) * millisecond := tracks.stale reaches
    have positive := (tick_pos now).ne'
    -- A slot that is emptied now was the map's entry too, so the map has nothing there either.
    have ousted : (r.stored other f).seen ≠ 0 → (r.stored other f).ep = remote → (m other f).map Prod.fst = some remote := by
      intro held same
      obtain ⟨_,there,-⟩ := tracks.held other f held
      rw [there,Option.map_some,same]
    simp only [TimedMap.register] at entry
    grind

theorem Tracks.keepalive (remote : Endpoint) (sock : Nat) :
    Tracks ttl (r.touchByAddr ttl remote sock now).1 (m.keepalive ttl remote (reading now)) ⟨now,k.swept⟩ where
  indexed := Registry.touchByAddr_indexed tracks.indexed remote ttl sock now
  past := tracks.past.trans reaches.1
  held hash f := by
    have live := tracks.live_iff short reaches hash f
    rw [Registry.touchByAddr_stored tracks.indexed]
    split
    next kept =>
      intro _
      obtain ⟨fam,alive,source⟩ := kept
      obtain ⟨heard,entry,young⟩ := live.mp alive
      have sweptBefore := reading_mono (tracks.past.trans reaches.1)
      have heardNow : m.keepalive ttl remote (reading now) hash f = some ((r.stored hash f).ep,reading now) := by
        rw [TimedMap.keepalive,entry,Option.map_some,if_pos ⟨fam,source,young⟩]
      refine ⟨reading now,heardNow,tick_eq now,le_rfl,?_⟩
      rw [Nat.sub_eq_zero_of_le sweptBefore,Nat.zero_mul]
      exact short.1
    next other =>
      intro seen
      obtain ⟨heard,entry,tickOf,past,swept⟩ := tracks.held hash f seen
      refine ⟨heard,?_,tickOf,past.trans (reading_mono reaches.1),swept⟩
      have unheard : ¬(f = remote.family ∧ (r.stored hash f).ep = remote ∧ TimedMap.fresh ttl (reading now) heard = true) :=
        fun c => other ⟨c.1,live.mpr ⟨heard,entry,c.2.2⟩,c.2.1⟩
      simp [TimedMap.keepalive,entry,unheard]
  gone hash f ep heard := by
    rw [Registry.touchByAddr_stored tracks.indexed]
    intro seen entry
    have empty : (r.stored hash f).seen = 0 := by
      split at seen
      · exact absurd seen (tick_pos now).ne'
      · exact seen
    simp only [TimedMap.keepalive,Option.map_eq_some_iff] at entry
    obtain ⟨e,there,after⟩ := entry
    have forgotten : ttl ≤ (reading now - e.2) * millisecond := tracks.stale reaches empty there
    have stale : TimedMap.fresh ttl (reading now) e.2 = false := by
      simp only [TimedMap.fresh,decide_eq_false_iff_not]
      omega
    rw [stale,if_neg (fun c => Bool.false_ne_true c.2.2)] at after
    rw [after] at forgotten
    exact forgotten

theorem Tracks.sweep {order : List UserHash} (complete : ∀ hash, r.entries hash ≠ none → hash ∈ order) :
    Tracks ttl (r.cleanup ttl now order) m ⟨now,now⟩ := by
  obtain ⟨indexed,swept⟩ := Registry.cleanup_spec tracks.indexed ttl now order
  have after : ∀ hash f, (r.cleanup ttl now order).stored hash f =
      if liveSlot ttl (r.stored hash f) (tick now) then r.stored hash f else {} := by
    intro hash f
    rw [swept]
    by_cases visited : hash ∈ order
    · by_cases live : liveSlot ttl (r.stored hash f) (tick now) = true <;> simp [visited,live]
    · have absent : r.entries hash = none := by
        by_contra present
        exact visited (complete hash present)
      simp [visited,Registry.stored,absent]
  refine ⟨indexed,?_,?_,le_rfl⟩
  · intro hash f
    rw [after]
    split
    next alive =>
      intro seen
      obtain ⟨heard,entry,tickOf,past,-⟩ := tracks.held hash f seen
      obtain ⟨heard',entry',young⟩ := (tracks.live_iff short reaches hash f).mp alive
      rw [entry] at entry'
      obtain rfl : heard = heard' := (Prod.mk.inj (Option.some.inj entry')).2
      simp only [TimedMap.fresh,decide_eq_true_eq] at young
      exact ⟨heard,entry,tickOf,past.trans (reading_mono reaches.1),young⟩
    · exact fun no => absurd rfl no
  · intro hash f _ heard
    rw [after]
    intro seen entry
    by_cases empty : (r.stored hash f).seen = 0
    · exact tracks.stale reaches empty entry
    · have dead : ¬liveSlot ttl (r.stored hash f) (tick now) = true := by
        intro alive
        rw [if_pos alive] at seen
        exact empty seen
      obtain ⟨_,entry',-⟩ := tracks.held hash f empty
      rw [entry] at entry'
      obtain ⟨-,rfl⟩ := Prod.mk.inj (Option.some.inj entry')
      have stale := fun young => dead ((tracks.live_iff short reaches hash f).mpr ⟨heard,entry'.symm ▸ entry,young⟩)
      simp only [TimedMap.fresh,decide_eq_true_eq] at stale
      exact Nat.not_lt.mp stale

theorem Tracks.step {op : Op} (complete : op.Complete r) :
    Tracks ttl (r.apply ttl now op) (m.apply ttl now op) (k.after now op) := by
  cases op with
  | register hash remote version sock => exact tracks.register short reaches hash remote version sock
  | keepalive remote sock => exact tracks.keepalive short reaches remote sock
  | sweep _ => exact tracks.sweep short reaches complete

end

theorem run_tracks (short : Short ttl) (timely : Timely ttl {} {} ops) :
    Tracks ttl (.run ttl ops) (.run ttl ops) (.run ops) := by
  have along : ∀ (ops : List (Nat × Op)) (r : Registry) (m : TimedMap) (k : Clock), Tracks ttl r m k →
      Timely ttl r k ops → Tracks ttl (ops.foldl (fun r e => r.apply ttl e.1 e.2) r)
        (ops.foldl (fun m e => m.apply ttl e.1 e.2) m) (ops.foldl (fun k e => k.after e.1 e.2) k) := by
    intro ops
    induction ops with
    | nil => exact fun r m k tracks _ => tracks
    | cons _ ops ih =>
      intro _ _ _ tracks timely
      obtain ⟨reaches,complete,later⟩ := timely
      exact ih _ _ _ (tracks.step short reaches complete) later
  exact along ops _ _ _ start_tracks timely

/-- The registry refines the timed map: after any operations, and at any later instant before the next
sweep is due, `get` is the map's, the index holds exactly what the slots hold, an endpoint has one
owner, and a keepalive from it refreshes that owner only. -/
theorem registry_refines_timed_map (ttl : Nat) (short : Short ttl) (ops : List (Nat × Op))
    (timely : Timely ttl {} {} ops) :
    (∀ ep hash, (Registry.run ttl ops).byAddr ep = some hash ↔
      ∃ e, (Registry.run ttl ops).entries hash = some e ∧ (e.slot ep.family).seen ≠ 0 ∧ (e.slot ep.family).ep = ep) ∧
    (∀ a b f g, ((Registry.run ttl ops).stored a f).seen ≠ 0 → ((Registry.run ttl ops).stored b g).seen ≠ 0 →
      ((Registry.run ttl ops).stored a f).ep = ((Registry.run ttl ops).stored b g).ep → a = b ∧ f = g) ∧
    ∀ now, (Clock.run ops).Reaches ttl now →
      (∀ hash f, (((Registry.run ttl ops).get ttl hash now).bind (·.candidate f)).map (·.addr) =
        (TimedMap.run ttl ops).get ttl hash f (reading now)) ∧
      ∀ remote sock, let touched := (Registry.run ttl ops).touchByAddr ttl remote sock now
        (∀ hash, touched.2 = some hash ↔
          (TimedMap.run ttl ops).get ttl hash remote.family (reading now) = some remote) ∧
        ∀ hash f, touched.1.stored hash f =
          if touched.2 = some hash ∧ f = remote.family
          then { (Registry.run ttl ops).stored hash f with seen := tick now,sock := sock }
          else (Registry.run ttl ops).stored hash f := by
  have tracks := run_tracks short timely
  generalize Registry.run ttl ops = r at *
  generalize TimedMap.run ttl ops = m at *
  refine ⟨fun ep hash => ?_,fun _ _ f _ => tracks.indexed.unique,fun now reaches => ⟨tracks.get_eq short reaches,?_⟩⟩
  · rw [tracks.indexed.owner ep hash]
    cases there : r.entries hash <;> simp [Registry.stored,there]
  · intro remote sock
    have matched := Registry.touchByAddr_matched tracks.indexed remote ttl sock now
    refine ⟨fun hash => ?_,fun hash _ => ?_⟩
    · have agree := tracks.get_eq short reaches hash remote.family
      rw [Registry.get_candidate,Registry.candidateOf] at agree
      rw [matched,← agree,Registry.keeps]
      split <;> simp [*]
    · rw [Registry.touchByAddr_stored tracks.indexed]
      refine if_congr ?_ rfl rfl
      rw [matched,Registry.keeps]
      constructor
      · rintro ⟨rfl,holds⟩
        exact ⟨holds,rfl⟩
      · rintro ⟨holds,rfl⟩
        exact ⟨rfl,holds⟩

def usualTTL : Nat := 90000000000

def somewhere : Endpoint := ⟨.v4 7,4662⟩

/-- The endpoint changes hands, its new owner is kept alive, and a sweep follows. -/
def handedOn : List (Nat × Op) :=
  [(1900000,.register [1] somewhere 0 0),(2000000000,.register [2] somewhere 0 0),(40000000000,.keepalive somewhere 0),
    (45000000000,.sweep [[1],[2]])]

theorem registry_refines_timed_map_handed : Short usualTTL ∧ Timely usualTTL {} {} handedOn ∧
    (Clock.run handedOn).Reaches usualTTL 120000000000 ∧
    (Registry.run usualTTL handedOn).get usualTTL [1] 120000000000 = none ∧
    (((Registry.run usualTTL handedOn).get usualTTL [2] 120000000000).bind (·.candidate .v4)).map (·.addr) = some somewhere ∧
    ((Registry.run usualTTL handedOn).touchByAddr usualTTL somewhere 0 120000000000).2 = some [2] := by
  have short : Short usualTTL := ⟨by decide,by decide⟩
  have timely : Timely usualTTL {} {} handedOn := by
    refine ⟨⟨by decide,by decide⟩,trivial,⟨by decide,by decide⟩,trivial,⟨by decide,by decide⟩,trivial,
      ⟨by decide,by decide⟩,?_,trivial⟩
    intro hash present
    by_contra other
    obtain ⟨first,second⟩ : hash ≠ [1] ∧ hash ≠ [2] := by simpa using other
    refine present ?_
    change Function.update (Function.update (Function.update (Function.update (fun _ => none) [1] _) [1] _) [2] _) [2] _ hash = none
    rw [Function.update_of_ne second,Function.update_of_ne second,Function.update_of_ne first,Function.update_of_ne first]
  have reaches : (Clock.run handedOn).Reaches usualTTL 120000000000 := ⟨by decide,by decide⟩
  obtain ⟨found,touched⟩ := (registry_refines_timed_map usualTTL short handedOn timely).2.2 120000000000 reaches
  exact ⟨short,timely,reaches,by decide +kernel,(found [2] .v4).trans (by decide +kernel),
    ((touched somewhere 0).1 [2]).mpr (by decide +kernel)⟩

/-- A registration 1.9 ms after the handler was made, and a sweep. -/
def registeredOnce (swept : Nat) : List (Nat × Op) := [(1900000,.register [1] somewhere 0 0),(swept,.sweep [[1]])]

theorem registeredOnce_timely (later : 1900000 ≤ swept) (due : swept ≤ ttl) :
    Timely ttl {} {} (registeredOnce swept) := by
  refine ⟨⟨Nat.zero_le _,?_⟩,trivial,⟨later,?_⟩,?_,trivial⟩
  · exact (Nat.zero_add ttl).symm ▸ later.trans due
  · exact (Nat.zero_add ttl).symm ▸ due
  intro hash present
  by_contra other
  rw [List.mem_singleton] at other
  refine present ?_
  change Function.update (fun _ => none) [1] _ hash = none
  rw [Function.update_of_ne other]

/-- 25 days. -/
def longTTL : Nat := 2160000000000000

/-- Ticks are whole milliseconds, so a candidate may be gone although less than one TTL has passed:
here 89999.2 ms of 90000. Under a TTL of 25 days one that was last swept after one of them is there
again after two, since the ticks have wrapped. -/
theorem expires_within_ttl :
    (Timely usualTTL {} {} (registeredOnce 45000000000) ∧
      (Clock.run (registeredOnce 45000000000)).Reaches usualTTL 90001100000 ∧ 90001100000 - 1900000 < usualTTL ∧
      (Registry.run usualTTL (registeredOnce 45000000000)).get usualTTL [1] 90001100000 = none) ∧
    Timely longTTL {} {} (registeredOnce longTTL) ∧
      (Clock.run (registeredOnce longTTL)).Reaches longTTL (2 * longTTL) ∧ longTTL ≤ 2 * longTTL - 1900000 ∧
      (Registry.run longTTL (registeredOnce longTTL)).get longTTL [1] (2 * longTTL) ≠ none :=
  ⟨⟨registeredOnce_timely (by decide) (by decide),⟨by decide,by decide⟩,by decide,by decide +kernel⟩,
    registeredOnce_timely (by decide) le_rfl,⟨by decide,by decide⟩,by decide,by decide +kernel⟩

end ENode.Rendezvous
