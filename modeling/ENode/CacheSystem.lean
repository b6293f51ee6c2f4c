import ENode.ResultCache

/-! Any number of callers on one cache. A caller that misses loads outside the lock and hands its
outcome to everyone who asked for the key meanwhile; the system is the same whether its cache is the
list with the map or the LRU map they stand for. -/
namespace ENode.Meta

/-- Who calls `Get`: a live search, a UDP search that only takes a hit, a search over a server link. -/
inductive Caller where
  | live | cachedOnly | serverLink
  deriving DecidableEq

inductive LoadError (E : Type) where
  | daemon (error : E)
  | context
  | notCached
  deriving DecidableEq

abbrev Outcome (V E : Type) := Except (LoadError E) V

/-- One daemon call that other callers for the same key wait on; `loader` is who makes it. -/
structure Call (V E : Type) where
  loader : Nat
  outcome : Option (Outcome V E) := none
  closed : Bool := false

/-- What `Get` returned and where it came from. -/
inductive Answer (K V E : Type) where
  | hit (entry : CacheEntry K V) (now : Int)
  | own (call : Nat) (outcome : Outcome V E)
  | shared (call : Nat) (outcome : Outcome V E)
  | gaveUp

/-- How far a `Get` is. `loaded` has its outcome and not the lock yet, `closing` has stored it. -/
inductive Progress (K V E : Type) where
  | waiting (call : Nat)
  | loading (call : Nat)
  | loaded (call : Nat) (outcome : Outcome V E) (size : Int)
  | closing (call : Nat) (outcome : Outcome V E)
  | returned (answer : Answer K V E)

/-- One call of `Get`; `ended` is its context, `callEnded` the one its load runs under. -/
structure Getter (K V E : Type) where
  key : K
  caller : Caller
  ended : Bool
  callEnded : Bool
  progress : Progress K V E

/-- Everything but the cache itself. `used` is when a key was last used. -/
structure Callers (K V E : Type) where
  inflight : GoMap K Nat := ∅
  calls : List (Call V E) := []
  getters : List (Getter K V E) := []
  used : K → Nat := fun _ => 0
  uses : Nat := 0

structure CacheSystem (C K V E : Type) where
  cache : C
  callers : Callers K V E := {}

structure CacheOps (C K V : Type) where
  lookup : Int → K → C → C × Option (CacheEntry K V)
  store : Int → K → V → Int → C → C
  shed : Int → (Int → Int) → C → C

/-- What can happen next. `share` is what `Shed` keeps of a number. -/
inductive CacheAction (K V E : Type) where
  | get (now : Int) (key : K) (caller : Caller)
  | endContext (getter : Nat)
  | endCall (getter : Nat)
  | loadEnds (getter : Nat) (outcome : Outcome V E)
  | finish (getter : Nat) (now : Int)
  | close (getter : Nat)
  | wake (getter : Nat)
  | giveUp (getter : Nat)
  | shed (now : Int) (share : Int → Int)

/-- How a load may end: without a daemon call it finds nothing, and it fails by its context only
after that has ended. -/
def Getter.may {K V E : Type} (g : Getter K V E) : Outcome V E → Bool
  | .ok _ => g.caller ≠ .cachedOnly
  | .error (.daemon _) => g.caller ≠ .cachedOnly
  | .error .context => decide (g.caller ≠ .cachedOnly) && g.callEnded
  | .error .notCached => g.caller = .cachedOnly

def Getter.endContext {K V E : Type} (g : Getter K V E) : Getter K V E := { g with ended := true, callEnded := true }

/-- Only a search over a server link loads under a context of its own. -/
def Getter.endCall {K V E : Type} (g : Getter K V E) : Getter K V E :=
  if g.caller = .serverLink then { g with callEnded := true } else g

def outcomeSize {V E : Type} (cfg : CacheConfig V) : Outcome V E → Int
  | .ok v => (cfg.size.elim 0 (· v) : Nat)
  | .error _ => 0

namespace Callers

section
variable {K V E : Type} [DecidableEq K]

def modifyGetter (s : Callers K V E) (i : Nat) (f : Getter K V E → Getter K V E) : Callers K V E :=
  { s with getters := s.getters.modify i f }

def setProgress (s : Callers K V E) (i : Nat) (p : Progress K V E) : Callers K V E :=
  s.modifyGetter i fun g => { g with progress := p }

def use (s : Callers K V E) (key : K) : Callers K V E :=
  { s with used := Function.update s.used key (s.uses + 1), uses := s.uses + 1 }

def arrive (s : Callers K V E) (key : K) (caller : Caller) (p : Progress K V E) : Callers K V E :=
  { s with getters := s.getters ++ [⟨key,caller,decide (caller = .cachedOnly),decide (caller = .cachedOnly),p⟩] }

/-- The lock section at the start of `Get`, with what the lookup found. -/
def get (s : Callers K V E) (now : Int) (key : K) (caller : Caller) (found : Option (CacheEntry K V)) : Callers K V E :=
  match found with
  | some entry => (s.use key).arrive key caller (.returned (.hit entry now))
  | none =>
    match s.inflight.lookup key with
    | some call => s.arrive key caller (.waiting call)
    | none =>
      { s.arrive key caller (.loading s.calls.length) with
        inflight := s.inflight.insert key s.calls.length
        calls := s.calls ++ [{ loader := s.getters.length }] }

/-- The load is back: its value is trimmed and sized outside the lock. -/
def loadEnds (cfg : CacheConfig V) (s : Callers K V E) (i call : Nat) (outcome : Outcome V E) : Callers K V E :=
  let outcome := outcome.map cfg.trim
  { s.setProgress i (.loaded call outcome (outcomeSize cfg outcome)) with
    calls := s.calls.modify call fun c => { c with outcome := some outcome } }

/-- The lock section at the end of `Get`; a stored value counts as a use of its key. -/
def finish (s : Callers K V E) (i : Nat) (key : K) (call : Nat) (outcome : Outcome V E) : Callers K V E :=
  let s := { s.setProgress i (.closing call outcome) with inflight := s.inflight.erase key }
  match outcome with
  | .ok _ => s.use key
  | .error _ => s

def close (s : Callers K V E) (i call : Nat) (outcome : Outcome V E) : Callers K V E :=
  { s.setProgress i (.returned (.own call outcome)) with
    calls := s.calls.modify call fun c => { c with closed := true } }

end

end Callers

def CacheOps.storeOutcome {C K V E : Type} (ops : CacheOps C K V) (now : Int) (key : K) (outcome : Outcome V E)
    (size : Int) (cache : C) : C :=
  match outcome with
  | .ok value => ops.store now key value size cache
  | .error _ => cache

namespace CacheSystem

section
variable {C K V E : Type} [DecidableEq K]

def step (ops : CacheOps C K V) (cfg : CacheConfig V) (s : CacheSystem C K V E) : CacheAction K V E → CacheSystem C K V E
  | .get now key caller =>
    let (cache,found) := ops.lookup now key s.cache
    ⟨cache,s.callers.get now key caller found⟩
  | .endContext i => { s with callers := s.callers.modifyGetter i Getter.endContext }
  | .endCall i => { s with callers := s.callers.modifyGetter i Getter.endCall }
  | .loadEnds i outcome =>
    match s.callers.getters[i]? with
    | some g =>
      match g.progress with
      | .loading call => if g.may outcome then { s with callers := s.callers.loadEnds cfg i call outcome } else s
      | _ => s
    | none => s
  | .finish i now =>
    match s.callers.getters[i]? with
    | some g =>
      match g.progress with
      | .loaded call outcome size =>
        ⟨ops.storeOutcome now g.key outcome size s.cache,s.callers.finish i g.key call outcome⟩
      | _ => s
    | none => s
  | .close i =>
    match s.callers.getters[i]? with
    | some g =>
      match g.progress with
      | .closing call outcome => { s with callers := s.callers.close i call outcome }
      | _ => s
    | none => s
  | .wake i =>
    match s.callers.getters[i]? with
    | some g =>
      match g.progress with
      | .waiting call =>
        match s.callers.calls[call]? with
        | some c =>
          match c.closed, c.outcome with
          | true, some outcome => { s with callers := s.callers.setProgress i (.returned (.shared call outcome)) }
          | _, _ => s
        | none => s
      | _ => s
    | none => s
  | .giveUp i =>
    match s.callers.getters[i]? with
    | some g =>
      match g.progress with
      | .waiting _ => if g.ended then { s with callers := s.callers.setProgress i (.returned .gaveUp) } else s
      | _ => s
    | none => s
  | .shed now share => { s with cache := ops.shed now share s.cache }

def run (ops : CacheOps C K V) (cfg : CacheConfig V) (s : CacheSystem C K V E) (actions : List (CacheAction K V E)) :
    CacheSystem C K V E := actions.foldl (step ops cfg) s

/-- What an action does, with all that made it possible. -/
inductive Effect (ops : CacheOps C K V) (cfg : CacheConfig V) (s : CacheSystem C K V E) :
    CacheAction K V E → CacheSystem C K V E → Prop where
  | nothing (a : CacheAction K V E) : Effect ops cfg s a s
  | get (now : Int) (key : K) (caller : Caller) : Effect ops cfg s (.get now key caller)
      ⟨(ops.lookup now key s.cache).1,s.callers.get now key caller (ops.lookup now key s.cache).2⟩
  | endContext (i : Nat) : Effect ops cfg s (.endContext i) ⟨s.cache,s.callers.modifyGetter i Getter.endContext⟩
  | endCall (i : Nat) : Effect ops cfg s (.endCall i) ⟨s.cache,s.callers.modifyGetter i Getter.endCall⟩
  | loadEnds (i : Nat) (outcome : Outcome V E) (g : Getter K V E) (call : Nat) :
      s.callers.getters[i]? = some g → g.progress = .loading call → g.may outcome = true →
      Effect ops cfg s (.loadEnds i outcome) ⟨s.cache,s.callers.loadEnds cfg i call outcome⟩
  | finish (i : Nat) (now : Int) (g : Getter K V E) (call : Nat) (outcome : Outcome V E) (size : Int) :
      s.callers.getters[i]? = some g → g.progress = .loaded call outcome size →
      Effect ops cfg s (.finish i now) ⟨ops.storeOutcome now g.key outcome size s.cache,s.callers.finish i g.key call outcome⟩
  | close (i : Nat) (g : Getter K V E) (call : Nat) (outcome : Outcome V E) :
      s.callers.getters[i]? = some g → g.progress = .closing call outcome →
      Effect ops cfg s (.close i) ⟨s.cache,s.callers.close i call outcome⟩
  | wake (i : Nat) (g : Getter K V E) (call : Nat) (c : Call V E) (outcome : Outcome V E) :
      s.callers.getters[i]? = some g → g.progress = .waiting call → s.callers.calls[call]? = some c → c.closed = true →
      c.outcome = some outcome →
      Effect ops cfg s (.wake i) ⟨s.cache,s.callers.setProgress i (.returned (.shared call outcome))⟩
  | giveUp (i : Nat) (g : Getter K V E) (call : Nat) :
      s.callers.getters[i]? = some g → g.progress = .waiting call → g.ended = true →
      Effect ops cfg s (.giveUp i) ⟨s.cache,s.callers.setProgress i (.returned .gaveUp)⟩
  | shed (now : Int) (share : Int → Int) : Effect ops cfg s (.shed now share) ⟨ops.shed now share s.cache,s.callers⟩

theorem step_effect (ops : CacheOps C K V) (cfg : CacheConfig V) (s : CacheSystem C K V E) (a : CacheAction K V E) :
    Effect ops cfg s a (s.step ops cfg a) := by
  cases a with
  | get now key caller => exact .get now key caller
  | endContext i => exact .endContext i
  | endCall i => exact .endCall i
  | shed now share => exact .shed now share
  | loadEnds i outcome =>
    unfold step
    dsimp only
    split
    next g found =>
      split
      next call progress =>
        split_ifs with may
        · exact .loadEnds i outcome g call found progress may
        · exact .nothing _
      · exact .nothing _
    · exact .nothing _
  | finish i now =>
    unfold step
    dsimp only
    split
    next g found =>
      split
      next call outcome size progress => exact .finish i now g call outcome size found progress
      · exact .nothing _
    · exact .nothing _
  | close i =>
    unfold step
    dsimp only
    split
    next g found =>
      split
      next call outcome progress => exact .close i g call outcome found progress
      · exact .nothing _
    · exact .nothing _
  | wake i =>
    unfold step
    dsimp only
    split
    next g found =>
      split
      next call progress =>
        split
        next c held =>
          split
          next outcome closed ended => exact .wake i g call c outcome found progress held closed ended
          · exact .nothing _
        · exact .nothing _
      · exact .nothing _
    · exact .nothing _
  | giveUp i =>
    unfold step
    dsimp only
    split
    next g found =>
      split
      next call progress =>
        split_ifs with ended
        · exact .giveUp i g call found progress ended
        · exact .nothing _
      · exact .nothing _
    · exact .nothing _

end

section
variable {K V E : Type} [DecidableEq K]

/-- The cache as the source has it. -/
def listOps (cfg : CacheConfig V) : CacheOps (Cache K V) K V where
  lookup now key c := c.lookupLocked now key
  store now key value size c := c.storeLocked cfg now key value size
  shed now share c := (c.shed cfg now share).1

/-- The LRU map in its place. -/
def lruOps (cfg : CacheConfig V) : CacheOps (LruMap K V) K V where
  lookup now key m := m.lookup now key
  store now key value size m := m.store cfg now key value size
  shed now share m := m.shed cfg now share

/-- The callers cannot tell the two caches apart. -/
structure Refines (s : CacheSystem (Cache K V) K V E) (m : CacheSystem (LruMap K V) K V E) : Prop where
  cache : s.cache.Holds m.cache
  callers : s.callers = m.callers

theorem Refines.step {s : CacheSystem (Cache K V) K V E} (refines : s.Refines m)
    (cfg : CacheConfig V) (a : CacheAction K V E) : (s.step (listOps cfg) cfg a).Refines (m.step (lruOps cfg) cfg a) := by
  obtain ⟨cache,callers⟩ := s
  obtain ⟨lru,_⟩ := m
  obtain ⟨held,same⟩ := refines
  dsimp only at held same
  subst same
  cases a with
  | get now key caller =>
    obtain ⟨after,found⟩ := held.lookupLocked now key
    refine ⟨after,?_⟩
    show callers.get now key caller (cache.lookupLocked now key).2 = callers.get now key caller (lru.lookup now key).2
    rw [found]
  | endContext | endCall => exact ⟨held,rfl⟩
  | shed now share => exact ⟨held.shed cfg now share,rfl⟩
  | finish _ now =>
    unfold CacheSystem.step
    dsimp only
    split
    next g _ =>
      split
      next outcome size _ =>
        refine ⟨?_,rfl⟩
        cases outcome with
        | error => exact held
        | ok value => exact held.storeLocked cfg now g.key value size
      · exact ⟨held,rfl⟩
    · exact ⟨held,rfl⟩
  | loadEnds | close | wake | giveUp =>
    -- these read nothing of the cache
    unfold CacheSystem.step
    dsimp only
    repeat' split
    all_goals exact ⟨held,rfl⟩

theorem Refines.run {s : CacheSystem (Cache K V) K V E} (refines : s.Refines m)
    (cfg : CacheConfig V) (actions : List (CacheAction K V E)) :
    (s.run (listOps cfg) cfg actions).Refines (m.run (lruOps cfg) cfg actions) := by
  induction actions generalizing s m with
  | nil => exact refines
  | cons a _ ih => exact ih (refines.step cfg a)

theorem refines_empty : (⟨{},{}⟩ : CacheSystem (Cache K V) K V E).Refines ⟨[],{}⟩ := ⟨.empty,rfl⟩

end

end CacheSystem

end ENode.Meta
