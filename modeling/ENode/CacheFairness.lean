import ENode.CacheRuns

/-! Whose fault an error of the cache is. A load runs under its caller's context and everyone who
waits on it gets its outcome, so a waiter is only as safe as the caller it waits on. -/
namespace ENode.Meta
open List

section
variable {K V E : Type}

/-- The load came back with what the daemon said. -/
def Call.Answered (c : Call V E) : Prop :=
  (∃ value, c.outcome = some (.ok value)) ∨ ∃ error, c.outcome = some (.error (.daemon error))

namespace Callers

/-- Nobody has been handed another caller's failure. -/
def Shared (s : Callers K V E) : Prop :=
  ∀ (i : Nat) (g : Getter K V E) (call : Nat) (error : LoadError E), s.getters[i]? = some g →
    g.progress = .returned (.shared call (.error error)) → g.ended = true ∨ ∃ e, error = .daemon e

/-- An error is the daemon's, or the caller's own context has ended. -/
structure Fair (s : Callers K V E) : Prop where
  own : ∀ (i : Nat) (g : Getter K V E) (call : Nat) (error : LoadError E), s.getters[i]? = some g →
    g.progress = .returned (.own call (.error error)) → g.ended = true ∨ g.callEnded = true ∨ ∃ e, error = .daemon e
  shared : s.Shared
  gaveUp : ∀ (i : Nat) (g : Getter K V E), s.getters[i]? = some g → g.progress = .returned .gaveUp → g.ended = true

/-- A caller whose context is alive waits only on loads that ask the daemon, and whose own context
is alive until the daemon has answered. -/
def Sheltered (s : Callers K V E) : Prop :=
  ∀ (i : Nat) (g : Getter K V E) (call : Nat) (c : Call V E) (l : Getter K V E), s.getters[i]? = some g →
    g.progress = .waiting call → g.ended = false → s.calls[call]? = some c → s.getters[c.loader]? = some l →
    l.caller ≠ .cachedOnly ∧ (l.callEnded = false ∨ c.Answered)

variable {s : Callers K V E}

theorem sheltered_of_alive (alive : (s.getters.all fun g => decide (g.caller ≠ .cachedOnly) && !g.callEnded) = true) : s.Sheltered := by
  intro _ _ _ _ l _ _ _ _ isLoader
  have good := all_eq_true.mp alive l (mem_of_getElem? isLoader)
  rw [Bool.and_eq_true,decide_eq_true_iff,Bool.not_eq_true'] at good
  exact ⟨good.1,.inl good.2⟩

theorem Shared.contexts (fair : s.Shared) (i : Nat)
    (progress : ∀ g, (f g).progress = g.progress) (ends : ∀ g, g.ended = true → (f g).ended = true) :
    (s.modifyGetter i f).Shared := by
  intro j _ call error found failed
  obtain ⟨g',held,rfl⟩ := getElem?_modify_some found
  split_ifs at failed ⊢
  · rw [progress] at failed
    exact (fair j g' call error held failed).imp_left (ends g')
  · exact fair j g' call error held failed

theorem Shared.moved (fair : s.Shared) (found : s.getters[i]? = some g)
    (mine : ∀ call error, p = .returned (.shared call (.error error)) → g.ended = true ∨ ∃ e, error = .daemon e) :
    (s.setProgress i p).Shared := by
  intro j _ call error held failed
  obtain ⟨h',before,rfl⟩ := getElem?_modify_some held
  split_ifs at failed ⊢ with here
  · subst here
    rw [found] at before
    cases before
    exact mine call error failed
  · exact fair j h' call error before failed

theorem Shared.arrive (fair : s.Shared) (key : K) (caller : Caller)
    (new : ∀ call outcome, p ≠ .returned (.shared call outcome)) : (s.arrive key caller p).Shared := by
  intro j h call error held failed
  rcases getElem?_concat_some held with before | ⟨rfl,rfl⟩
  · exact fair j h call error before failed
  · exact absurd failed (new call _)

variable [DecidableEq K]

theorem Shared.get (fair : s.Shared) (now : Int) (key : K) (caller : Caller) (found : Option (CacheEntry K V)) :
    (s.get now key caller found).Shared := by
  unfold Callers.get
  cases found with
  | some _ => exact Shared.arrive (s := s.use key) fair key caller fun _ _ no => by cases no
  | none =>
    dsimp only
    cases s.inflight.lookup key with
    | some | none => exact fair.arrive key caller fun _ _ no => by cases no

theorem Sheltered.answered (sheltered : s.Sheltered) (sound : s.Sound) {i call : Nat} (found : s.getters[i]? = some g)
    (waiting : g.progress = .waiting call)
    (isCall : s.calls[call]? = some c) (failed : c.outcome = some (.error error)) :
    g.ended = true ∨ ∃ e, error = .daemon e := by
  cases alive : g.ended with
  | true => exact .inl rfl
  | false =>
    refine .inr ?_
    obtain ⟨l,isLoader,context,notCached⟩ := sound.made call c isCall
    obtain ⟨asks,safe⟩ := sheltered i g call c l found waiting alive isCall isLoader
    cases error with
    | daemon e => exact ⟨e,rfl⟩
    | notCached => exact absurd (notCached failed) asks
    | context =>
      rcases safe with running | ⟨_,answer⟩ | ⟨_,answer⟩
      · rw [context failed] at running
        cases running
      · rw [failed] at answer
        cases answer
      · rw [failed] at answer
        cases answer

theorem Shared.fair (shared : s.Shared) (sound : s.Sound) : s.Fair := by
  refine ⟨fun i g call error found failed => ?_,shared,fun i g found gone => sound.ended i g found (.inr gone)⟩
  obtain ⟨c,isCall,outcome,loader⟩ := sound.own i g call _ found (.inr (.inr failed))
  obtain ⟨_,isLoader,context,notCached⟩ := sound.made call c isCall
  rw [loader,found] at isLoader
  cases isLoader
  cases error with
  | daemon e => exact .inr (.inr ⟨e,rfl⟩)
  | context => exact .inr (.inl (context outcome))
  | notCached => exact .inl (sound.ended i g found (.inl (notCached outcome)))

end Callers

namespace CacheSystem

variable {C : Type} [DecidableEq K]

theorem shared_step (ops : CacheOps C K V) (cfg : CacheConfig V) {s : CacheSystem C K V E} (a : CacheAction K V E)
    (sound : s.callers.Sound) (sheltered : s.callers.Sheltered) (fair : s.callers.Shared) :
    (s.step ops cfg a).callers.Shared := by
  have effect := s.step_effect ops cfg a
  generalize s.step ops cfg a = after at effect ⊢
  cases effect with
  | nothing | shed => exact fair
  | get now key caller => exact fair.get now key caller _
  | endContext i => exact fair.contexts i (fun _ => rfl) fun _ _ => rfl
  | endCall i => exact fair.contexts i (fun g => g.endCall_same.1) fun g => g.endCall_same.2.2.2.1
  | loadEnds i outcome g call found => exact fair.moved found fun _ _ no => by cases no
  | finish i _ g call outcome _ found =>
    have closing := fair.moved (p := .closing call outcome) found fun _ _ no => by cases no
    cases outcome <;> exact closing
  | close i g call outcome found => exact fair.moved found fun _ _ no => by cases no
  | giveUp i g call found => exact fair.moved found fun _ _ no => by cases no
  | wake _ _ _ _ _ found waiting isCall _ ended =>
    refine fair.moved found ?_
    rintro _ _ ⟨⟩
    exact sheltered.answered sound found waiting isCall ended

/-- In a run in which no live caller ever waits on a load that another caller's context or another
caller's wish for a hit can end, every error is the caller's own or the daemon's. -/
theorem errors_are_fair (cfg : CacheConfig V) (actions : List (CacheAction K V E))
    (sheltered : ∀ n, (run (listOps cfg) cfg ⟨{},{}⟩ (actions.take n) : CacheSystem (Cache K V) K V E).callers.Sheltered) :
    ∀ n, (run (listOps cfg) cfg ⟨{},{}⟩ (actions.take n) : CacheSystem (Cache K V) K V E).callers.Fair := by
  have sound : ∀ actions : List (CacheAction K V E),
      (run (listOps cfg) cfg ⟨{},{}⟩ actions : CacheSystem (Cache K V) K V E).callers.Sound := by
    intro actions
    rw [(refines_empty.run cfg actions).callers]
    exact (Tidy.empty.run actions).sound
  intro n
  refine Callers.Shared.fair ?_ (sound _)
  induction n with
  | zero => exact nofun
  | succ n ih =>
    rw [take_add_one]
    cases actions[n]? with
    | none =>
      rw [Option.toList_none,append_nil]
      exact ih
    | some a =>
      rw [run,Option.toList_some,foldl_append]
      exact shared_step (listOps cfg) cfg a (sound _) (sheltered n) ih

end CacheSystem

end

namespace CacheSystem

def smallCache : CacheConfig Nat := { limits := { maxEntries := 8 }, ttl := 60 }

/-- Two searches for one key: the second waits on the load of the first and gets what that gets. -/
def twoSearches (first : Caller) (between : List (CacheAction Nat Nat Unit)) (outcome : Outcome Nat Unit) :
    List (CacheAction Nat Nat Unit) :=
  [.get 0 7 first,.get 0 7 .live] ++ between ++ [.loadEnds 0 outcome,.finish 0 1,.close 0,.wake 1]

/-- The daemon refuses and both searches fail, as they should. -/
theorem errors_are_fair_refused : (run (listOps smallCache) smallCache ⟨{},{}⟩
    ((twoSearches .live [] (.error (.daemon ()))).take 6)).callers.Fair := by
  refine errors_are_fair smallCache _ (fun n => Callers.sheltered_of_alive ?_) 6
  rcases Nat.lt_or_ge n 6 with _ | late
  · interval_cases n <;> decide
  · rw [take_of_length_le late]
    decide

/-- The first caller's deadline passes, or it only wanted a hit, and the second one's search fails. -/
theorem another_callers_error :
    ¬(run (listOps smallCache) smallCache ⟨{},{}⟩ (twoSearches .live [.endContext 0] (.error .context))).callers.Fair ∧
    ¬(run (listOps smallCache) smallCache ⟨{},{}⟩ (twoSearches .cachedOnly [] (.error .notCached))).callers.Fair := by
  constructor
  · intro fair
    have blame := fair.shared 1 ⟨7,.live,false,false,.returned (.shared 0 (.error .context))⟩ 0 .context rfl rfl
    rcases blame with no | ⟨_,no⟩ <;> cases no
  · intro fair
    have blame := fair.shared 1 ⟨7,.live,false,false,.returned (.shared 0 (.error .notCached))⟩ 0 .notCached rfl rfl
    rcases blame with no | ⟨_,no⟩ <;> cases no

end CacheSystem

end ENode.Meta
