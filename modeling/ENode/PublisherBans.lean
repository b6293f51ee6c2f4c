import ENode.GoMap
import ENode.GoText

/-! The publisher bans under concurrent calls. Each call changes the list, sweeps it and only
then publishes the count it found, and a login is let in without a look at the list while
the published count is zero. -/
namespace ENode.ContentFilter

open GoText List

def hashSize : Nat := 16

/-- `net.IP.To4`: four bytes, or sixteen that map four. -/
def to4 (ip : Bytes) : Option Bytes :=
  if ip.length = 4 then some ip
  else if ip.length = 16 ∧ ip.take 12 = replicate 10 0 ++ [0xff,0xff] then some (ip.drop 12) else none

def hashKey (userHash : Bytes) : Bytes := if userHash.length ≠ hashSize then [] else lit "h" ++ userHash

/-- An IPv4 address exactly, an IPv6 address by its /64. -/
def ipKey (ip : Bytes) : Bytes :=
  match to4 ip with
  | some v4 => lit "4" ++ v4
  | none => if ip.length = 16 then lit "6" ++ ip.take 8 else []

structure Ban where
  call : Nat
  key : Bytes
  until_ : Int

inductive Stage where
  | idle
  | changed
  | swept (n : Nat)
  | returned
  deriving DecidableEq

def Stage.found : Stage → Option Nat
  | .swept n => some n
  | _ => none

/-- `bans` is what the calls set and no `Unban` has lifted, newest first; the code keeps only
`entries`. -/
structure Filter where
  clock : Int := 0
  entries : GoMap Bytes Int := ∅
  banCount : Nat := 0
  calls : Nat → Stage := fun _ => .idle
  bans : List Ban := []

/-- A step of a call under the lock, with the time it had read; or time passes. -/
inductive Event where
  | tick (now : Int)
  | add (call : Nat) (userHash ip : Bytes) (read duration : Int)
  | remove (call : Nat) (key : Bytes)
  | sweep (call : Nat) (read : Int)
  | store (call : Nat)

namespace Filter

def banKeys (userHash ip : Bytes) : List Bytes := [hashKey userHash,ipKey ip].filter (· ≠ [])

/-- `Ban`, `BanFor` and `Unban` change the list first, a reload starts with its sweep. -/
def due (f : Filter) : Event → Bool
  | .tick now => f.clock ≤ now
  | .add c _ _ read duration => f.calls c = .idle ∧ read ≤ f.clock ∧ 0 < duration
  | .remove c _ => f.calls c = .idle
  | .sweep c read => (f.calls c = .idle ∨ f.calls c = .changed) ∧ read ≤ f.clock
  | .store c => (f.calls c).found.isSome

def effect (f : Filter) : Event → Filter
  | .tick now => { f with clock := now }
  | .add c userHash ip read duration => { f with
      entries := (banKeys userHash ip).foldl (fun m k => m.insert k (read + duration)) f.entries
      bans := (banKeys userHash ip).map (fun k => ⟨c,k,read + duration⟩) ++ f.bans
      calls := Function.update f.calls c .changed }
  | .remove c key => { f with
      entries := f.entries.erase key
      bans := f.bans.filter (fun b => b.key ≠ key)
      calls := Function.update f.calls c .changed }
  | .sweep c read =>
    let entries := f.entries.filterMapVals (fun t => if read < t then some t else none)
    { f with entries := entries, calls := Function.update f.calls c (.swept (GoMap.pairs entries).length) }
  | .store c => { f with
      banCount := (f.calls c).found.getD 0
      calls := Function.update f.calls c .returned }

/-- An event that is not due changes nothing. -/
def step (f : Filter) (e : Event) : Filter := if f.due e then f.effect e else f

def run (events : List Event) : Filter := events.foldl step {}

def banned (f : Filter) (userHash ip : Bytes) : Bool :=
  f.banCount ≠ 0 && (banKeys userHash ip).any (fun k => (f.entries.lookup k).any (fun t => decide (f.clock < t)))

/-- The call has returned and its ban has neither expired nor been lifted. -/
def InForce (f : Filter) (b : Ban) : Prop := b ∈ f.bans ∧ f.calls b.call = .returned ∧ f.clock < b.until_

/-- Every ban in force is refused, by its hash and by its address. -/
def Refuses (f : Filter) : Prop :=
  ∀ b, f.InForce b → ∀ userHash ip, hashKey userHash = b.key ∨ ipKey ip = b.key → f.banned userHash ip = true

def newest (f : Filter) (key : Bytes) : Option Ban := f.bans.find? (fun b => b.key = key)

/-- The list holds the ban last set on each key, unless that has expired. -/
structure Lists (f : Filter) : Prop where
  keyed : ∀ b ∈ f.bans, b.key ≠ [] ∧ ∃ named, hashKey named = b.key ∨ ipKey named = b.key
  held : ∀ key, f.entries.lookup key = (f.newest key).map (·.until_) ∨
    f.entries.lookup key = none ∧ ∃ b, f.newest key = some b ∧ b.until_ ≤ f.clock

variable {f : Filter}

theorem add_lookup (keys : List Bytes) (t : Int) (m : GoMap Bytes Int) (key : Bytes) :
    (keys.foldl (fun m k => m.insert k t) m).lookup key = if key ∈ keys then some t else m.lookup key := by
  induction keys generalizing m with
  | nil => simp
  | cons k rest ih =>
    rw [foldl_cons,ih,GoMap.lookup_insert_ite]
    by_cases later : key ∈ rest
    · simp [later]
    · by_cases here : key = k <;> simp [later,here]

theorem add_newest (keys : List Bytes) (c : Nat) (t : Int) (bans : List Ban) (key : Bytes) :
    (keys.map (fun k => (⟨c,k,t⟩ : Ban)) ++ bans).find? (fun b => b.key = key) =
      if key ∈ keys then some ⟨c,key,t⟩ else bans.find? (fun b => b.key = key) := by
  induction keys with
  | nil => simp
  | cons k _ ih =>
    rw [map_cons,cons_append,find?_cons]
    by_cases here : k = key
    · simp [here]
    · simp only [here,decide_false,ih,mem_cons,Ne.symm here,false_or]

theorem remove_newest (bans : List Ban) (gone key : Bytes) :
    (bans.filter (fun b => b.key ≠ gone)).find? (fun b => b.key = key) =
      if key = gone then none else bans.find? (fun b => b.key = key) := by
  rw [find?_filter]
  split
  next same =>
    rw [find?_eq_none]
    simp [same]
  next other =>
    congr 1
    funext b
    by_cases here : b.key = key <;> simp [here,other]

theorem Lists.effect (lists : f.Lists) (due : f.due e = true) : (f.effect e).Lists := by
  cases e with
  | tick now =>
    have later : f.clock ≤ now := of_decide_eq_true due
    refine ⟨lists.keyed,fun key => (lists.held key).imp_right ?_⟩
    rintro ⟨none,b,found,past⟩
    exact ⟨none,b,found,past.trans later⟩
  | add c userHash ip read _ =>
    refine ⟨fun b member => ?_,fun key => ?_⟩
    · rcases mem_append.mp member with new | old
      · obtain ⟨_,inside,rfl⟩ := mem_map.mp new
        obtain ⟨among,some_⟩ := mem_filter.mp inside
        refine ⟨of_decide_eq_true some_,?_⟩
        rcases mem_pair.mp among with rfl | rfl
        · exact ⟨userHash,.inl rfl⟩
        · exact ⟨ip,.inr rfl⟩
      · exact lists.keyed b old
    · dsimp only [newest,Filter.effect]
      rw [add_lookup,add_newest]
      split
      · exact .inl rfl
      · exact lists.held key
  | remove c _ =>
    refine ⟨fun b member => lists.keyed b (mem_of_mem_filter member),fun key => ?_⟩
    dsimp only [newest,Filter.effect]
    rw [GoMap.lookup_erase_ite,remove_newest]
    split
    · exact .inl rfl
    · exact lists.held key
  | sweep c read =>
    have read_ : read ≤ f.clock := (of_decide_eq_true due).2
    refine ⟨lists.keyed,fun key => ?_⟩
    show (GoMap.filterMapVals _ _).lookup key = _ ∨ (GoMap.filterMapVals _ _).lookup key = none ∧ _
    rw [GoMap.lookup_filterMapVals]
    rcases lists.held key with held | ⟨none,rest⟩
    · rw [held]
      show _ = (f.newest key).map _ ∨ _ ∧ ∃ b, f.newest key = some b ∧ _
      cases f.newest key with
      | none => exact .inl rfl
      | some b =>
        by_cases running : read < b.until_
        · exact .inl (by simp [running])
        · exact .inr ⟨by simp [running],b,rfl,(not_lt.mp running).trans read_⟩
    · exact .inr ⟨by rw [none]; rfl,rest⟩
  | store _ => exact ⟨lists.keyed,lists.held⟩

theorem Lists.step (lists : f.Lists) (e : Event) : (f.step e).Lists := by
  unfold Filter.step
  split
  next due => exact lists.effect due
  · exact lists

theorem run_lists (events : List Event) : (run events).Lists :=
  foldlRecOn (motive := Lists) events _ ⟨by simp,fun _ => .inl rfl⟩ fun _ lists e _ => lists.step e

/-- A ban in force that no publication brings about was in force before. -/
theorem inForce_before (silent : ∀ c, e ≠ .store c) (inForce : (f.step e).InForce b) :
    f.InForce b ∧ (f.step e).banCount = f.banCount := by
  have other : ∀ (c : Nat) (stage : Stage), stage ≠ .returned → Function.update f.calls c stage b.call = .returned →
      b.call ≠ c ∧ f.calls b.call = .returned := by
    intro c _ unreturned returned
    by_cases mine : b.call = c
    · rw [mine,Function.update_self] at returned
      exact absurd returned unreturned
    · rw [Function.update_of_ne mine] at returned
      exact ⟨mine,returned⟩
  unfold Filter.step at inForce ⊢
  split at inForce
  next due =>
    rw [if_pos due]
    obtain ⟨member,returned,running⟩ := inForce
    cases e with
    | tick _ => exact ⟨⟨member,returned,lt_of_le_of_lt (of_decide_eq_true due) running⟩,rfl⟩
    | add c _ _ read _ =>
      obtain ⟨mine,before⟩ := other c .changed Stage.noConfusion returned
      rcases mem_append.mp member with new | old
      · obtain ⟨_,-,rfl⟩ := mem_map.mp new
        exact absurd rfl mine
      · exact ⟨⟨old,before,running⟩,rfl⟩
    | remove c _ => exact ⟨⟨mem_of_mem_filter member,(other c .changed Stage.noConfusion returned).2,running⟩,rfl⟩
    | sweep c _ => exact ⟨⟨member,(other c (.swept _) Stage.noConfusion returned).2,running⟩,rfl⟩
    | store c => exact absurd rfl (silent c)
  next undue =>
    rw [if_neg undue]
    exact ⟨inForce,rfl⟩

/-- A ban on its key is found as long as the count is not zero and the ban last set runs. -/
theorem banned_iff (lists : f.Lists) (inForce : f.InForce b)
    (named : hashKey userHash = b.key ∨ ipKey ip = b.key) (count : f.banCount ≠ 0)
    (runs : ∀ n, f.newest b.key = some n → f.clock < n.until_) : f.banned userHash ip = true := by
  have keyed := (lists.keyed b inForce.1).1
  have listed : b.key ∈ banKeys userHash ip := by
    rcases named with same | same <;> rw [← same] at keyed ⊢ <;> simp [banKeys,keyed]
  obtain ⟨n,found⟩ : ∃ n, f.newest b.key = some n := by
    refine Option.isSome_iff_exists.mp (find?_isSome.mpr ⟨b,inForce.1,by simp⟩)
  have later := runs n found
  have held : f.entries.lookup b.key = some n.until_ := by
    rcases lists.held b.key with held | ⟨-,_,found',past⟩
    · rw [held,found]
      rfl
    · rw [found] at found'
      obtain rfl := Option.some.inj found'
      exact absurd later (not_lt.mpr past)
  rw [banned,Bool.and_eq_true,decide_eq_true_eq,any_eq_true]
  exact ⟨count,b.key,listed,by simp [held,later]⟩

theorem not_refuses (lists : f.Lists) (inForce : f.InForce b) (found : f.newest b.key = some n)
    (past : n.until_ ≤ f.clock) : ¬f.Refuses := by
  intro refuses
  obtain ⟨some_,named,same⟩ := lists.keyed b inForce.1
  have expired : (f.entries.lookup b.key).any (fun t => decide (f.clock < t)) = false := by
    rcases lists.held b.key with held | ⟨none,-⟩
    · rw [held,found]
      simpa using past
    · rw [none]
      rfl
  have missed : ∀ userHash ip, banKeys userHash ip = [b.key] → f.banned userHash ip = false := by
    intro _ _ keys
    rw [banned,keys,any_cons,expired]
    simp
  rcases same with same | same
  · have keys : banKeys named [] = [b.key] := by simp [banKeys,same,some_,show ipKey [] = [] from rfl]
    exact absurd (refuses b inForce named [] (.inl same)) (by simp [missed _ _ keys])
  · have keys : banKeys [] named = [b.key] := by simp [banKeys,same,some_,show hashKey [] = [] from rfl]
    exact absurd (refuses b inForce [] named (.inr same)) (by simp [missed _ _ keys])

theorem run_concat (past : List Event) (e : Event) : run (past ++ [e]) = (run past).step e := by
  rw [run,foldl_append]
  rfl

/-- The bans in force are refused throughout a run exactly when no call publishes a count of
zero over one of them, and none is cut short by a later ban of its key. -/
theorem bans_refused_iff (events : List Event) :
    (∀ past, past <+: events → (run past).Refuses) ↔
      (∀ past c, past ++ [.store c] <+: events → ((run past).calls c).found = some 0 →
        ∀ b, ¬(run (past ++ [.store c])).InForce b) ∧
      ∀ past, past <+: events → ∀ b, (run past).InForce b →
        ∀ n, (run past).newest b.key = some n → (run past).clock < n.until_ := by
  constructor
  · intro refuses
    refine ⟨fun past c within zero b inForce => ?_,fun past within b inForce n found => ?_⟩
    · obtain ⟨-,named,same⟩ := (run_lists _).keyed b inForce.1
      have due : (run past).due (.store c) = true := by rw [due,zero]; rfl
      have none : (run (past ++ [.store c])).banCount = 0 := by
        rw [run_concat,step,if_pos due,effect,zero]
        rfl
      rcases same with same | same
      · exact absurd (refuses _ within b inForce named [] (.inl same)) (by simp [banned,none])
      · exact absurd (refuses _ within b inForce [] named (.inr same)) (by simp [banned,none])
    · by_contra past_
      exact not_refuses (run_lists past) inForce found (not_lt.mp past_) (refuses past within)
  · rintro ⟨published,lasting⟩ past within b inForce _ _ named
    refine banned_iff (run_lists past) inForce named ?_ (lasting past within b inForce)
    -- the count was last published while the ban was in force, or as its call returned
    clear named
    induction past using reverseRecOn with
    | nil => exact absurd inForce.1 (not_mem_nil)
    | append_singleton past e ih =>
      have before : past <+: events := (prefix_append past [e]).trans within
      by_cases silent : ∀ c, e ≠ .store c
      · have inForce' := inForce
        rw [run_concat] at inForce' ⊢
        obtain ⟨was,count⟩ := inForce_before silent inForce'
        rw [count]
        exact ih before was
      · push Not at silent
        obtain ⟨c,rfl⟩ := silent
        rcases h : ((run past).calls c).found with - | n
        · have undue : (run past).due (.store c) = false := by rw [due,h]; rfl
          have same : run (past ++ [.store c]) = run past := by
            rw [run_concat,step,undue]
            rfl
          rw [same] at inForce ⊢
          exact ih before inForce
        · have due : (run past).due (.store c) = true := by rw [due,h]; rfl
          have count : (run (past ++ [.store c])).banCount = n := by
            rw [run_concat,step,if_pos due,effect,h]
            rfl
          rw [count]
          rintro rfl
          exact published past c within h b inForce

/-- A reload sweeps the empty list, a ban is set and its call returns, and then the reload
publishes what it had found. -/
theorem ban_unpublished :
    let userHash := replicate 16 1
    let f := run [.sweep 0 0,.add 1 userHash [] 0 60,.sweep 1 0,.store 1,.store 0]
    (f.calls 1 = .returned ∧ f.clock = 0 ∧ f.entries.lookup (hashKey userHash) = some 60) ∧ f.banned userHash [] = false := by
  decide +kernel

end Filter

end ENode.ContentFilter
