import ENode.GoText

/-! The cached client and file counts. A caller of `Counts` finds a fresh reading, waits for the
refresh that runs, or runs one; a turn takes one caller to its next lock, channel or query. -/
namespace ENode.Ed2k

/-- Where a caller is. A channel is known by its number, and 0 is no channel. -/
inductive CountsCaller where
  | entering
  | waiting (channel : Nat)
  | querying
  | recording (clients files : Option Int)
  | returned (clients files : Int)

namespace CountsCaller

def refreshes : CountsCaller → Bool
  | .querying | .recording _ _ => true
  | _ => false

/-- What its queries have answered, when its next turn records it. -/
def reads : CountsCaller → Option Int × Option Int
  | .recording newClients newFiles => (newClients,newFiles)
  | _ => (none,none)

end CountsCaller

/-- Who goes on, how long after the turn before, and what the queries answer if it asks them. -/
structure CountsTurn (n : Nat) where
  caller : Fin n
  elapsed : Nat
  clients : Option Int := none
  files : Option Int := none

structure CounterCache (n : Nat) where
  now : Nat := 0
  clients : Int := 0
  files : Int := 0
  fetched : Option Nat := none
  refreshing : Bool := false
  done : Nat := 0
  channels : Nat := 0
  callers : Fin n → CountsCaller := fun _ => .entering

namespace CounterCache

variable {n : Nat}

def move (s : CounterCache n) (i : Fin n) (c : CountsCaller) : CounterCache n :=
  { s with callers := Function.update s.callers i c }

/-- The turn of a caller. Every channel made, but for the one in `done`, has been closed. -/
def counts (ttl : Nat) (turn : CountsTurn n) (s : CounterCache n) : CounterCache n :=
  match s.callers turn.caller with
  | .entering =>
    if s.fetched.any (fun t => decide (s.now - t < ttl)) then s.move turn.caller (.returned s.clients s.files)
    else if s.refreshing then s.move turn.caller (.waiting s.done)
    else { s with refreshing := true, done := s.channels + 1, channels := s.channels + 1 }.move turn.caller .querying
  | .waiting channel => if channel = 0 ∨ channel = s.done then s else s.move turn.caller .entering
  | .querying => s.move turn.caller (.recording turn.clients turn.files)
  | .recording newClients newFiles =>
    let clients := newClients.getD s.clients
    let files := newFiles.getD s.files
    { s with clients := clients, files := files, fetched := some s.now, refreshing := false, done := 0 }.move turn.caller
      (.returned clients files)
  | .returned _ _ => s

def step (ttl : Nat) (s : CounterCache n) (turn : CountsTurn n) : CounterCache n :=
  counts ttl turn { s with now := s.now + turn.elapsed }

/-- Only `who` refreshes, and the others can wait on its channel. -/
structure Sound (s : CounterCache n) (who : Option (Fin n)) : Prop where
  refreshes : ∀ i, (s.callers i).refreshes = true ↔ who = some i
  running : s.refreshing = who.isSome
  opened : s.done ≠ 0 ↔ who.isSome = true
  waits : ∀ i channel, s.callers i = .waiting channel → channel ≠ 0

/-- How far a caller is from its return; closing a channel sets its waiters back. -/
def left (n done : Nat) : CountsCaller → Nat
  | .entering => 2 * n + 4
  | .waiting channel => if channel = done then 2 * n + 3 else 2 * n + 5
  | .querying => 2 * n + 2
  | .recording _ _ => 2 * n + 1
  | .returned _ _ => 0

def place (s : CounterCache n) : (Fin n → CountsCaller) × Nat := (s.callers,s.done)

def work (s : CounterCache n) : Nat := ∑ i, left n s.done (s.callers i)

/-- A caller that its turn takes further. -/
def Free (done : Nat) : CountsCaller → Prop
  | .waiting channel => channel ≠ 0 ∧ channel ≠ done
  | .returned _ _ => False
  | _ => True

variable {ttl : Nat} {turn : CountsTurn n} {s s' : CounterCache n} {who who' : Option (Fin n)} {i : Fin n} {c : CountsCaller}

theorem Sound.pass (sound : s.Sound who) (elapsed : Nat) : ({ s with now := s.now + elapsed } : CounterCache n).Sound who :=
  ⟨sound.refreshes,sound.running,sound.opened,sound.waits⟩

theorem Sound.set (sound : s.Sound who) (moved : s'.callers = Function.update s.callers i c)
    (own : c.refreshes = true ↔ who' = some i) (others : ∀ j ≠ i, who' = some j ↔ who = some j)
    (running : s'.refreshing = who'.isSome) (opened : s'.done ≠ 0 ↔ who'.isSome = true)
    (waits : ∀ channel, c = .waiting channel → channel ≠ 0) : s'.Sound who' := by
  refine ⟨fun j => ?_,running,opened,fun j channel => ?_⟩ <;> rw [moved] <;> by_cases here : j = i
  · rw [here,Function.update_self]
    exact own
  · rw [Function.update_of_ne here,others j here]
    exact sound.refreshes j
  · rw [here,Function.update_self]
    exact waits channel
  · rw [Function.update_of_ne here]
    exact sound.waits j channel

theorem Sound.counts (sound : s.Sound who) : ∃ who, (s.counts ttl turn).Sound who := by
  have same : ∀ c : CountsCaller, c.refreshes = (s.callers turn.caller).refreshes →
      (∀ channel, c = .waiting channel → channel ≠ 0) → (s.move turn.caller c).Sound who := fun _ refreshes waits =>
    sound.set rfl (refreshes ▸ sound.refreshes _) (fun _ _ => Iff.rfl) sound.running sound.opened waits
  have own := sound.refreshes turn.caller
  fun_cases CounterCache.counts ttl turn s with
  | case1 here => exact ⟨who,same _ (by rw [here]; rfl) (by simp)⟩
  | case2 here _ running =>
    have opened := sound.opened.mpr (sound.running ▸ running)
    exact ⟨who,same _ (by rw [here]; rfl) (by simpa using opened)⟩
  | case3 here _ rests =>
    have none : who = none := by simpa [sound.running] using rests
    exact ⟨some turn.caller,sound.set rfl (by simp [CountsCaller.refreshes]) (fun j other => by simp [none,other.symm]) rfl
      (by simp [move]) (by simp)⟩
  | case4 | case8 => exact ⟨who,sound⟩
  | case5 _ here => exact ⟨who,same _ (by rw [here]; rfl) (by simp)⟩
  | case6 here => exact ⟨who,same _ (by rw [here]; rfl) (by simp)⟩
  | case7 _ _ here =>
    rw [here] at own
    exact ⟨none,sound.set rfl (by simp [CountsCaller.refreshes]) (fun _ other => by simp [own.mp rfl,other.symm]) rfl
      (by simp [move]) (by simp)⟩

theorem counts_reads : (s.counts ttl turn).clients = (s.callers turn.caller).reads.1.getD s.clients ∧
    (s.counts ttl turn).files = (s.callers turn.caller).reads.2.getD s.files := by
  fun_cases counts ttl turn s <;> simp_all [CountsCaller.reads,move]
  exact ⟨rfl,rfl⟩

theorem counts_returns {v w : Int} (returned : (s.counts ttl turn).callers i = .returned v w) :
    s.callers i = .returned v w ∨ v = (s.counts ttl turn).clients ∧ w = (s.counts ttl turn).files := by
  have moved : ∀ c, Function.update s.callers turn.caller c i = .returned v w → s.callers i = .returned v w ∨
      c = .returned v w := by
    intro _ held
    rw [Function.update_apply] at held
    split at held
    · exact .inr held
    · exact .inl held
  revert returned
  fun_cases counts ttl turn s with
  | case1 | case7 =>
    exact fun returned => (moved _ returned).imp_right fun same => (CountsCaller.returned.inj same).imp Eq.symm Eq.symm
  | case4 | case8 => exact .inl
  | case2 | case3 | case5 | case6 => exact fun returned => (moved _ returned).imp_right CountsCaller.noConfusion

/-- A turn that ends a refresh dates its reading, and one starts only on a stale reading. -/
theorem step_refresh (ttl : Nat) (s : CounterCache n) (turn : CountsTurn n) :
    let s' := s.step ttl turn
    s.now ≤ s'.now ∧
    (s'.refreshing = true ∨ s'.fetched = some s'.now ∨ s'.refreshing = s.refreshing ∧ s'.fetched = s.fetched) ∧
    (s.refreshing = false → s'.refreshing = true → ∀ f, s.fetched = some f → ttl ≤ s'.now - f) := by
  have later : s.now ≤ s.now + turn.elapsed := Nat.le_add_right ..
  unfold step
  fun_cases counts ttl turn { s with now := s.now + turn.elapsed } with
  | case3 _ old => exact ⟨later,.inl rfl,fun _ _ _ held => by simpa [move,held] using old⟩
  | case7 => exact ⟨later,.inr (.inl rfl),fun _ => Bool.noConfusion⟩
  | case1 | case2 | case4 | case5 | case6 | case8 =>
    exact ⟨later,.inr (.inr ⟨rfl,rfl⟩),fun rests runs => absurd (rests.symm.trans runs) Bool.false_ne_true⟩

/-- One caller gets nearer to its return by more than all the others can be set back. -/
theorem work_lt (moved : s'.callers = Function.update s.callers i c) (k : Nat)
    (own : left n s'.done c + n * k < left n s.done (s.callers i) + k)
    (others : ∀ j, left n s'.done (s.callers j) ≤ left n s.done (s.callers j) + k) : s'.work < s.work := by
  have each : ∀ j, left n s'.done (s'.callers j) + (if j = i then n * k + 1 else 0) ≤ left n s.done (s.callers j) + k := by
    intro j
    rw [moved,Function.update_apply]
    split
    next here => rw [here]; omega
    · exact others j
  have sum := Finset.sum_le_sum fun j (_ : j ∈ Finset.univ) => each j
  simp only [Finset.sum_add_distrib,Finset.sum_ite_eq',Finset.mem_univ,if_true,Finset.sum_const,Finset.card_univ,
    Fintype.card_fin,smul_eq_mul] at sum
  unfold work
  omega

theorem Sound.counts_work (sound : s.Sound who) (ttl : Nat) (turn : CountsTurn n) : (s.counts ttl turn).work < s.work ∨
    s.counts ttl turn = s ∧ ¬Free s.done (s.callers turn.caller) := by
  fun_cases CounterCache.counts ttl turn s with
  | case1 here => exact .inl (work_lt rfl 0 (by simp [here,left]) fun _ => Nat.le_refl _)
  | case2 here => exact .inl (work_lt rfl 0 (by simp [here,left,move]) fun _ => Nat.le_refl _)
  | case3 here _ rests =>
    refine .inl (work_lt rfl 0 (by simp [here,left]) fun j => ?_)
    cases at_ : s.callers j with
    | waiting channel =>
      have shut : channel ≠ s.done := by
        rintro rfl
        exact rests (sound.running ▸ sound.opened.mp (sound.waits j _ at_))
      simp only [left,if_neg shut]
      split <;> omega
    | entering | querying | recording | returned => exact Nat.le_refl _
  | case4 _ here _ => exact .inr ⟨rfl,by rw [here]; simp only [Free]; tauto⟩
  | case5 _ here opened =>
    exact .inl (work_lt rfl 0 (by simp [here,left,(not_or.mp opened).2]) fun _ => Nat.le_refl _)
  | case6 here => exact .inl (work_lt rfl 0 (by simp [here,left]) fun _ => Nat.le_refl _)
  | case7 _ _ here =>
    refine .inl (work_lt rfl 2 (by simp [here,left]; omega) fun j => ?_)
    cases s.callers j with
    | waiting _ =>
      simp only [left]
      split <;> split <;> omega
    | entering | querying | recording | returned => exact Nat.le_add_right ..
  | case8 _ _ here => exact .inr ⟨rfl,by rw [here]; exact id⟩

theorem Sound.step_work (sound : s.Sound who) (ttl : Nat) (turn : CountsTurn n) : (s.step ttl turn).work < s.work ∨
    (s.step ttl turn).place = s.place ∧ ¬Free s.done (s.callers turn.caller) := by
  rcases (sound.pass turn.elapsed).counts_work ttl turn with less | ⟨same,stuck⟩
  · exact .inl less
  · exact .inr ⟨(congrArg place same :),stuck⟩

/-- Until all have returned somebody can go on: who refreshes, or anybody else. -/
theorem Sound.free (sound : s.Sound who) (runs : ∀ v w, s.callers i ≠ .returned v w) : ∃ i, Free s.done (s.callers i) := by
  cases who with
  | some j =>
    have refreshes := (sound.refreshes j).mpr rfl
    refine ⟨j,?_⟩
    cases at_ : s.callers j <;> simp_all [CountsCaller.refreshes,Free]
  | none =>
    have shut : s.done = 0 := by simpa using sound.opened
    refine ⟨i,?_⟩
    cases at_ : s.callers i with
    | waiting channel => exact ⟨sound.waits i channel at_,shut ▸ sound.waits i channel at_⟩
    | returned v w => exact runs v w at_
    | entering | querying | recording => trivial

end CounterCache

/-- Any number of callers, and whose turn it is each time. -/
structure StatusFlood where
  ttl : Nat
  callers : Nat
  turn : Nat → CountsTurn callers

namespace StatusFlood

variable (r : StatusFlood)

def after : Nat → CounterCache r.callers
  | 0 => {}
  | t+1 => (after t).step r.ttl (r.turn t)

/-- The last successful reads of the two counts, 0 before the first. -/
def lastReads : Nat → Int × Int
  | 0 => (0,0)
  | t+1 =>
    let read := ((r.after t).callers (r.turn t).caller).reads
    (read.1.getD (lastReads t).1,read.2.getD (lastReads t).2)

def Starts (t : Nat) : Prop := (r.after t).refreshing = false ∧ (r.after (t + 1)).refreshing = true

theorem after_sound (t : Nat) : ∃ who, (r.after t).Sound who := by
  induction t with
  | zero => exact ⟨none,by simp [after,CountsCaller.refreshes],rfl,by simp [after],by simp [after]⟩
  | succ _ ih =>
    obtain ⟨_,sound⟩ := ih
    exact (sound.pass _).counts

theorem all_return (fair : ∀ i t, ∃ later, t ≤ later ∧ (r.turn later).caller = i) :
    ∃ t, ∀ i, ∃ v w, (r.after t).callers i = .returned v w := by
  -- where least is left to do no turn takes anybody further
  let t := Function.argmin fun t => (r.after t).work
  have turn : ∀ k, (r.after (t + k)).place = (r.after t).place → (r.after (t + k + 1)).place = (r.after t).place ∧
      ¬CounterCache.Free (r.after t).done ((r.after t).callers (r.turn (t + k)).caller) := by
    intro k same
    obtain ⟨callers,done⟩ := Prod.mk.inj same
    obtain ⟨who,sound⟩ := r.after_sound (t + k)
    rcases sound.step_work r.ttl (r.turn (t + k)) with less | ⟨stays,stuck⟩
    · have least := Function.argmin_le (fun t => (r.after t).work) (t + k + 1)
      have whole : (r.after (t + k)).work = (r.after t).work := by rw [CounterCache.work,CounterCache.work,callers,done]
      exact absurd (whole ▸ less) (Nat.not_lt.mpr least)
    · rw [callers,done] at stuck
      exact ⟨stays.trans same,stuck⟩
  have still : ∀ k, (r.after (t + k)).place = (r.after t).place := by
    intro k
    induction k with
    | zero => rfl
    | succ k ih => exact (turn k ih).1
  refine ⟨t,fun i => ?_⟩
  by_contra runs
  push Not at runs
  obtain ⟨_,sound⟩ := r.after_sound t
  obtain ⟨i,free⟩ := sound.free runs
  obtain ⟨_,le,rfl⟩ := fair i t
  obtain ⟨k,rfl⟩ := Nat.exists_eq_add_of_le le
  exact (turn k (still k)).2 free

theorem after_reads (t : Nat) : ((r.after t).clients,(r.after t).files) = r.lastReads t := by
  induction t with
  | zero => rfl
  | succ _ ih =>
    rw [lastReads,← ih]
    exact Prod.ext CounterCache.counts_reads.1 CounterCache.counts_reads.2

variable {r} in
theorem starts_apart {t later : Nat} (before : t < later) (first : r.Starts t) (second : r.Starts later) :
    (r.after (t + 1)).now + r.ttl ≤ (r.after (later + 1)).now := by
  -- once it has ended, a refresh has left a reading that is younger than its start
  have answered : ∀ k, (r.after (t + 1)).now ≤ (r.after (t + 1 + k)).now ∧ ((r.after (t + 1 + k)).refreshing = true ∨
      ∃ f, (r.after (t + 1 + k)).fetched = some f ∧ (r.after (t + 1)).now ≤ f) := by
    intro k
    induction k with
    | zero => exact ⟨Nat.le_refl _,.inl first.2⟩
    | succ k ih =>
      obtain ⟨since,state⟩ := ih
      obtain ⟨passed,runs | ended | same,-⟩ := (r.after (t + 1 + k)).step_refresh r.ttl (r.turn (t + 1 + k))
      · exact ⟨since.trans passed,.inl runs⟩
      · exact ⟨since.trans passed,.inr ⟨_,ended,since.trans passed⟩⟩
      · exact ⟨since.trans passed,state.imp same.1.trans (fun ⟨f,held,younger⟩ => ⟨f,same.2.trans held,younger⟩)⟩
  obtain ⟨k,rfl⟩ := Nat.exists_eq_add_of_le before
  obtain ⟨_,running | ⟨f,held,_⟩⟩ := answered k
  · exact absurd (second.1.symm.trans running) Bool.false_ne_true
  · obtain ⟨_,-,stale⟩ := (r.after (t + 1 + k)).step_refresh r.ttl (r.turn (t + 1 + k))
    have old := stale second.1 second.2 f held
    show _ ≤ ((r.after (t + 1 + k)).step r.ttl (r.turn (t + 1 + k))).now
    omega

/-- At most one refresh runs, two start at least the TTL apart, all callers return if each keeps
getting its turn, and what a call returns are the last successful reads. -/
theorem counts_once_per_ttl (r : StatusFlood) :
    (∀ t i j, ((r.after t).callers i).refreshes = true → ((r.after t).callers j).refreshes = true → i = j) ∧
    (∀ t later, t < later → r.Starts t → r.Starts later → (r.after (t + 1)).now + r.ttl ≤ (r.after (later + 1)).now) ∧
    ((∀ i t, ∃ later, t ≤ later ∧ (r.turn later).caller = i) → ∃ t, ∀ i, ∃ v w, (r.after t).callers i = .returned v w) ∧
    ∀ t i v w, (r.after (t + 1)).callers i = .returned v w → (r.after t).callers i ≠ .returned v w →
      (v,w) = r.lastReads (t + 1) := by
  refine ⟨fun t i j one other => ?_,fun _ _ => starts_apart,r.all_return,fun t i _ _ returned fresh => ?_⟩
  · obtain ⟨_,sound⟩ := r.after_sound t
    exact Option.some.inj (((sound.refreshes i).mp one).symm.trans ((sound.refreshes j).mp other))
  · rw [← after_reads]
    obtain ⟨rfl,rfl⟩ := (CounterCache.counts_returns returned).resolve_left fresh
    rfl

/-- Two callers in turn, every turn ten ticks after the one before. -/
def alternating : StatusFlood := ⟨20,2,fun t => ⟨⟨t % 2,Nat.mod_lt t Nat.two_pos⟩,10,some 3,none⟩⟩

/-- The second caller waits for the first, finds its reading stale and refreshes too; both return. -/
theorem counts_once_per_ttl_alternating :
    alternating.Starts 0 ∧ alternating.Starts 7 ∧ (alternating.after 1).now + 20 ≤ (alternating.after 8).now ∧
      ∃ t, ∀ i, ∃ v w, (alternating.after t).callers i = .returned v w := by
  obtain ⟨_,apart,returns,_⟩ := counts_once_per_ttl alternating
  have first : alternating.Starts 0 := ⟨rfl,rfl⟩
  have second : alternating.Starts 7 := ⟨by decide,by decide⟩
  refine ⟨first,second,apart 0 7 (by decide) first second,returns fun i t => ?_⟩
  refine ⟨2 * t + i,by omega,Fin.ext ?_⟩
  have few : i.val < 2 := i.isLt
  change (2 * t + i) % 2 = i
  omega

end StatusFlood

end ENode.Ed2k
