import Mathlib

/-! The keyed token bucket. A bucket is dropped once it has been idle long enough to be full
again, so a limiter that drops decides as one that never does, and what it grants within a
window is bounded by the burst and the refill. Times are nanoseconds. -/
namespace ENode.RateLimit
open List

def minute : Int := 60 * 10 ^ 9
def maxIdle : Int := 2 * minute

structure Bucket where
  tokens : ℚ
  last : Int

structure Limiter (K : Type) where
  perMinute : Int
  burst : Int
  lastGC : Int
  buckets : K → Option Bucket := fun _ => none

variable {K : Type}

/-- `NewBurst`: a burst of zero or less follows the rate. `zero` is the time nothing set yet. -/
def newBurst (perMinute burst zero : Int) : Limiter K :=
  { perMinute := perMinute, burst := if burst > 0 then burst else perMinute, lastGC := zero }

namespace Limiter

/-- How long a bucket takes to fill up, and at least `maxIdle`. -/
def idle (l : Limiter K) : Int :=
  if l.perMinute > 0 then max maxIdle ⌊(l.burst : ℚ) / l.perMinute * minute⌋ else maxIdle

/-- Drops the idle buckets, at most once per idle span. -/
def gc (l : Limiter K) (now : Int) : Limiter K :=
  if now - l.lastGC < l.idle then l
  else { l with lastGC := now, buckets := fun k => (l.buckets k).filter (fun b => !decide (now - b.last ≥ l.idle)) }

def earned (l : Limiter K) (span : Int) : ℚ := (span : ℚ) / minute * l.perMinute

def refilled (l : Limiter K) (b : Bucket) (now : Int) : ℚ := min (l.burst : ℚ) (b.tokens + l.earned (now - b.last))

section
variable [DecidableEq K]

def take (l : Limiter K) (now : Int) (key : K) : Limiter K × Bool :=
  let tokens := l.refilled ((l.buckets key).getD ⟨l.burst,now⟩) now
  if tokens < 1 then ({ l with buckets := Function.update l.buckets key (some ⟨tokens,now⟩) },false)
  else ({ l with buckets := Function.update l.buckets key (some ⟨tokens - 1,now⟩) },true)

def allow (l : Limiter K) (now : Int) (key : K) : Limiter K × Bool :=
  if l.perMinute ≤ 0 then (l,true) else (l.gc now).take now key

/-- The limiter that never drops a bucket. -/
def allowKeeping (l : Limiter K) (now : Int) (key : K) : Limiter K × Bool :=
  if l.perMinute ≤ 0 then (l,true) else l.take now key

end

def decisions (f : Limiter K → Int → K → Limiter K × Bool) : Limiter K → List (Int × K) → List Bool
  | _, [] => []
  | l, call :: rest => (f l call.1 call.2).2 :: decisions f (f l call.1 call.2).1 rest

/-- Limits with a rate, whose refill time is a whole number of ticks. -/
structure Limited (l : Limiter K) : Prop where
  rate : 0 < l.perMinute
  burst : 0 ≤ l.burst
  whole : l.perMinute ∣ l.burst * minute

def available (l : Limiter K) (key : K) (now : Int) : ℚ := ((l.buckets key).map (l.refilled · now)).getD l.burst

/-- Every bucket is at most as old as `now` and holds no debt. -/
def Dated (l : Limiter K) (now : Int) : Prop := ∀ k b, l.buckets k = some b → b.last ≤ now ∧ 0 ≤ b.tokens

variable {l m : Limiter K} {now : Int} {key : K}

theorem minute_pos : (0 : ℚ) < minute := by norm_num [minute]

theorem Limited.rate_pos (limited : l.Limited) : (0 : ℚ) < l.perMinute := by exact_mod_cast limited.rate

theorem earned_mono (limited : l.Limited) (le : a ≤ b) : l.earned a ≤ l.earned b := by
  have le : (a : ℚ) ≤ b := by exact_mod_cast le
  exact mul_le_mul_of_nonneg_right (div_le_div_of_nonneg_right le minute_pos.le) limited.rate_pos.le

theorem earned_nonneg (limited : l.Limited) (nonneg : 0 ≤ a) : 0 ≤ l.earned a := by
  simpa [earned] using earned_mono limited nonneg

theorem earned_add (l : Limiter K) (a b : Int) : l.earned (a + b) = l.earned a + l.earned b := by
  unfold earned
  push_cast
  ring

theorem available_le (l : Limiter K) (key : K) (now : Int) : l.available key now ≤ l.burst := by
  unfold available
  cases l.buckets key with
  | none => exact le_rfl
  | some _ => exact min_le_left ..

theorem Dated.later (dated : l.Dated now) (later : now ≤ now') : l.Dated now' :=
  fun k b held => ⟨(dated k b held).1.trans later,(dated k b held).2⟩

theorem Dated.available_nonneg (dated : l.Dated now) (limited : l.Limited) (key : K) : 0 ≤ l.available key now := by
  have burst : (0 : ℚ) ≤ l.burst := by exact_mod_cast limited.burst
  unfold available
  cases held : l.buckets key with
  | none => exact burst
  | some b =>
    obtain ⟨past,tokens⟩ := dated key b held
    exact le_min burst (add_nonneg tokens (earned_nonneg limited (Int.sub_nonneg.mpr past)))

theorem available_later (limited : l.Limited) (key : K) (later : now ≤ now') :
    l.available key now' ≤ l.available key now + l.earned (now' - now) := by
  have gain := earned_nonneg limited (Int.sub_nonneg.mpr later)
  unfold available
  cases l.buckets key with
  | none => simpa using gain
  | some b =>
    have split : now' - b.last = now - b.last + (now' - now) := by omega
    dsimp only [Option.map_some,Option.getD_some,refilled]
    rw [← min_add_add_right,split,earned_add,add_assoc]
    exact min_le_min (by linarith) le_rfl

theorem full_of_idle (limited : l.Limited) {b : Bucket} (tokens : 0 ≤ b.tokens) (long : l.idle ≤ now - b.last) :
    (l.burst : ℚ) ≤ b.tokens + l.earned (now - b.last) := by
  have rate := limited.rate_pos
  have minutes := minute_pos
  obtain ⟨ticks,whole⟩ := limited.whole
  have whole : (l.burst : ℚ) * minute = l.perMinute * ticks := by exact_mod_cast whole
  have refill : (l.burst : ℚ) / l.perMinute * minute = ticks := by
    field_simp
    linarith
  have filled : (l.burst : ℚ) = l.earned ticks := by
    rw [earned,← refill]
    field_simp
  rw [idle,if_pos limited.rate,refill,Int.floor_intCast] at long
  have gain := earned_mono limited ((le_max_right ..).trans long)
  linarith

/-- The two hold the same buckets, apart from full ones that the first has dropped. -/
structure Mirrors (l m : Limiter K) (now : Int) : Prop where
  rate : l.perMinute = m.perMinute
  burst : l.burst = m.burst
  same : ∀ k, l.buckets k = m.buckets k ∨
    l.buckets k = none ∧ ∃ b, m.buckets k = some b ∧ (m.burst : ℚ) ≤ b.tokens + m.earned (now - b.last)

theorem Mirrors.available (mirrors : l.Mirrors m now) (key : K) : l.available key now = m.available key now := by
  unfold Limiter.available
  rcases mirrors.same key with same | ⟨none,_,held,full⟩
  · simp only [same,refilled,earned,mirrors.rate,mirrors.burst]
  · rw [none,held,mirrors.burst]
    exact (min_eq_left full).symm

theorem Mirrors.later (mirrors : l.Mirrors m now) (limited : m.Limited) (later : now ≤ now') : l.Mirrors m now' := by
  refine ⟨mirrors.rate,mirrors.burst,fun k => (mirrors.same k).imp_right ?_⟩
  rintro ⟨none,b,held,_⟩
  have gain := earned_mono limited (Int.sub_le_sub_right later b.last)
  exact ⟨none,b,held,by linarith⟩

theorem Mirrors.gc (mirrors : l.Mirrors m now) (dated : m.Dated now) (limited : m.Limited) : (l.gc now).Mirrors m now := by
  have idle : l.idle = m.idle := by simp only [Limiter.idle,mirrors.rate,mirrors.burst]
  unfold Limiter.gc
  split
  · exact mirrors
  refine ⟨mirrors.rate,mirrors.burst,fun k => ?_⟩
  dsimp only
  rcases mirrors.same k with same | ⟨none,rest⟩
  · rw [same,idle]
    cases held : m.buckets k with
    | none => exact .inl rfl
    | some b =>
      by_cases old : now - b.last ≥ m.idle
      · exact .inr ⟨by simp [old],b,rfl,full_of_idle limited (dated k b held).2 old⟩
      · exact .inl (by simp [old])
  · rw [none]
    exact .inr ⟨rfl,rest⟩

variable [DecidableEq K]

theorem take_limits (l : Limiter K) (now : Int) (key : K) :
    (l.take now key).1.perMinute = l.perMinute ∧ (l.take now key).1.burst = l.burst := by
  unfold take
  dsimp only
  split <;> exact ⟨rfl,rfl⟩

theorem earned_take (l : Limiter K) (now : Int) (key : K) : (l.take now key).1.earned = l.earned := by
  funext span
  rw [earned,earned,(l.take_limits now key).1]

theorem take_eq (l : Limiter K) (now : Int) (key : K) : (l.take now key).2 = decide (1 ≤ l.available key now) ∧
      (l.take now key).1.buckets = Function.update l.buckets key
        (some ⟨l.available key now - if 1 ≤ l.available key now then 1 else 0,now⟩) := by
  have tokens : l.refilled ((l.buckets key).getD ⟨l.burst,now⟩) now = l.available key now := by
    unfold available
    cases l.buckets key with
    | none => simp [refilled,earned]
    | some _ => rfl
  unfold take
  rw [tokens]
  by_cases short : l.available key now < 1
  · simp [short,not_le.mpr short]
  · simp [short,not_lt.mp short]

theorem Limited.take (limited : l.Limited) (now : Int) (key : K) : (l.take now key).1.Limited := by
  obtain ⟨rate,burst⟩ := l.take_limits now key
  exact ⟨rate ▸ limited.rate,burst ▸ limited.burst,by rw [rate,burst]; exact limited.whole⟩

theorem Dated.take (dated : l.Dated now) (limited : l.Limited) (key : K) : (l.take now key).1.Dated now := by
  intro k b held
  rw [(l.take_eq now key).2] at held
  by_cases same : k = key
  · subst same
    rw [Function.update_self] at held
    obtain rfl := Option.some.inj held
    have nonneg := dated.available_nonneg limited k
    refine ⟨le_rfl,?_⟩
    dsimp only
    split <;> linarith
  · rw [Function.update_of_ne same] at held
    exact dated k b held

theorem Mirrors.take (mirrors : l.Mirrors m now) (key : K) :
    (l.take now key).2 = (m.take now key).2 ∧ (l.take now key).1.Mirrors (m.take now key).1 now := by
  obtain ⟨decided,buckets⟩ := l.take_eq now key
  obtain ⟨decided',buckets'⟩ := m.take_eq now key
  obtain ⟨rate,burst⟩ := l.take_limits now key
  obtain ⟨rate',burst'⟩ := m.take_limits now key
  refine ⟨by rw [decided,decided',mirrors.available],rate.trans (mirrors.rate.trans rate'.symm),
    burst.trans (mirrors.burst.trans burst'.symm),fun k => ?_⟩
  rw [buckets,buckets',mirrors.available,burst',earned_take]
  by_cases same : k = key
  · subst same
    rw [Function.update_self,Function.update_self]
    exact .inl rfl
  · rw [Function.update_of_ne same,Function.update_of_ne same]
    exact mirrors.same k

theorem allowKeeping_eq (limited : l.Limited) (now : Int) (key : K) : allowKeeping l now key = l.take now key :=
  if_neg (not_le.mpr limited.rate)

theorem decisions_eq {calls : List (Int × K)} (ordered : calls.Pairwise (fun a b => a.1 ≤ b.1))
    (mirrors : l.Mirrors m now) (dated : m.Dated now) (limited : m.Limited) (after : ∀ call ∈ calls, now ≤ call.1) :
    decisions allow l calls = decisions allowKeeping m calls := by
  induction calls generalizing l m now with
  | nil => rfl
  | cons call _ ih =>
    obtain ⟨first,ordered⟩ := pairwise_cons.mp ordered
    have at_ := after call (.head _)
    have dated := dated.later at_
    obtain ⟨same,next⟩ := ((mirrors.later limited at_).gc dated limited).take call.2
    have lets : allow l call.1 call.2 = (l.gc call.1).take call.1 call.2 :=
      if_neg (by rw [mirrors.rate]; exact not_le.mpr limited.rate)
    rw [decisions,decisions,lets,allowKeeping_eq limited,same]
    exact congrArg _ (ih ordered next (dated.take limited call.2) (limited.take call.1 call.2) first)

/-- The calls of a key in a window that were let through. -/
def granted (key : K) (start stop : Int) (calls : List (Int × K)) (decided : List Bool) : Nat :=
  (calls.zip decided).countP (fun c => c.1.2 = key ∧ start ≤ c.1.1 ∧ c.1.1 ≤ stop ∧ c.2 = true)

theorem granted_none (late : ∀ call ∈ calls, stop < call.1) (decided : List Bool) :
    granted key start stop calls decided = 0 := by
  rw [granted,countP_eq_zero]
  intro c member inside
  have after := late c.1 (of_mem_zip member).1
  have inside := of_decide_eq_true inside
  omega

/-- From any time on no more is granted than is there and will be earned. -/
theorem granted_from {calls : List (Int × K)} (ordered : calls.Pairwise (fun a b => a.1 ≤ b.1))
    (dated : l.Dated now) (limited : l.Limited) (after : ∀ call ∈ calls, now ≤ call.1) (before : now ≤ stop) :
    (granted key start stop calls (decisions allowKeeping l calls) : ℚ) ≤ l.available key now + l.earned (stop - now) := by
  have room := add_nonneg (dated.available_nonneg limited key) (earned_nonneg limited (Int.sub_nonneg.mpr before))
  induction calls generalizing l now with
  | nil => simpa [granted] using room
  | cons call rest ih =>
    obtain ⟨first,ordered⟩ := pairwise_cons.mp ordered
    have at_ := after call (.head _)
    by_cases late : stop < call.1
    · rw [granted_none (forall_mem_cons.mpr ⟨late,fun c later => late.trans_le (first c later)⟩)]
      exact_mod_cast room
    · have until_ := not_lt.mp late
      have dated := dated.later at_
      have grows := available_later limited key at_
      have there := dated.available_nonneg limited key
      have total : l.earned (stop - now) = l.earned (call.1 - now) + l.earned (stop - call.1) := by
        rw [← earned_add]
        congr 1
        omega
      have left := earned_nonneg limited (Int.sub_nonneg.mpr until_)
      obtain ⟨decided,buckets⟩ := l.take_eq call.1 call.2
      have next := dated.take limited call.2
      have spare := next.available_nonneg (limited.take call.1 call.2) key
      have later := ih ordered next (limited.take call.1 call.2) first until_ (by rw [earned_take]; exact add_nonneg spare left)
      rw [earned_take] at later
      rw [decisions,allowKeeping_eq limited,granted,zip_cons_cons,countP_cons,Nat.cast_add]
      by_cases mine : call.2 = key
      · -- the token taken is one less for the rest
        have after_ : (l.take call.1 call.2).1.available key call.1 ≤
            l.available key call.1 - if 1 ≤ l.available key call.1 then 1 else 0 := by
          rw [Limiter.available,buckets,mine,Function.update_self]
          simp [refilled,earned]
        rw [mine] at decided
        rw [granted] at later
        by_cases enough : 1 ≤ l.available key call.1
        · rw [if_pos enough] at after_
          split <;> push_cast <;> linarith
        · rw [if_neg enough] at after_
          rw [if_neg (by simp [mine,decided,enough])]
          push_cast
          linarith
      · have same : (l.take call.1 call.2).1.available key call.1 = l.available key call.1 := by
          rw [Limiter.available,Limiter.available,buckets,Function.update_of_ne (Ne.symm mine)]
          simp only [refilled,earned,(l.take_limits call.1 call.2).1,(l.take_limits call.1 call.2).2]
        rw [if_neg (by simp [mine])]
        rw [granted,same] at later
        push_cast
        linarith

theorem granted_window {calls : List (Int × K)} {start span : Int} (ordered : calls.Pairwise (fun a b => a.1 ≤ b.1))
    (dated : l.Dated now) (limited : l.Limited) (after : ∀ call ∈ calls, now ≤ call.1) (nonneg : 0 ≤ span) :
    (granted key start (start + span) calls (decisions allowKeeping l calls) : ℚ) ≤ l.burst + l.earned span := by
  have burst : (0 : ℚ) ≤ l.burst := by exact_mod_cast limited.burst
  have room := add_nonneg burst (earned_nonneg limited nonneg)
  induction calls generalizing l now with
  | nil => simpa [granted] using room
  | cons call rest ih =>
    obtain ⟨first,later⟩ := pairwise_cons.mp ordered
    have at_ := after call (.head _)
    have dated := dated.later at_
    by_cases early : call.1 < start
    · have size := (l.take_limits call.1 call.2).2
      have rest_ := ih later (dated.take limited call.2) (limited.take call.1 call.2) first
        (by rwa [size]) (by rw [size,earned_take]; exact room)
      rw [size,earned_take] at rest_
      rw [decisions,allowKeeping_eq limited,granted,zip_cons_cons,countP_cons,if_neg (by simp [early])]
      exact rest_
    · by_cases late : start + span < call.1
      · rw [granted_none (forall_mem_cons.mpr ⟨late,fun c after => late.trans_le (first c after)⟩)]
        exact_mod_cast room
      · have within : ∀ c ∈ call :: rest, call.1 ≤ c.1 := forall_mem_cons.mpr ⟨le_rfl,first⟩
        have bound : (granted key start _ _ _ : ℚ) ≤ _ :=
          granted_from ordered dated limited within (not_lt.mp late)
        have shorter := earned_mono limited (show start + span - call.1 ≤ span by omega)
        have most := l.available_le key call.1
        linarith

end Limiter

/-- Dropping idle buckets changes no decision, and no window of any key is granted more than
the burst and its refill. -/
theorem limiter_bounded [DecidableEq K] (perMinute burst zero : Int) (rate : 0 < perMinute)
    (whole : perMinute ∣ (newBurst (K := K) perMinute burst zero).burst * minute) (calls : List (Int × K))
    (ordered : calls.Pairwise (fun a b => a.1 ≤ b.1)) :
    let l : Limiter K := newBurst perMinute burst zero
    l.decisions Limiter.allow calls = l.decisions Limiter.allowKeeping calls ∧
      ∀ key start span, 0 ≤ span →
        (Limiter.granted key start (start + span) calls (l.decisions Limiter.allow calls) : ℚ) ≤
          l.burst + (span : ℚ) / minute * l.perMinute := by
  intro l
  have limited : l.Limited := by
    refine ⟨rate,?_,whole⟩
    unfold l newBurst
    dsimp only
    split <;> omega
  have dated : ∀ now, l.Dated now := nofun
  have first : ∃ now, ∀ call ∈ calls, now ≤ call.1 := by
    cases calls with
    | nil => exact ⟨0,by simp⟩
    | cons call _ => exact ⟨call.1,forall_mem_cons.mpr ⟨le_rfl,(pairwise_cons.mp ordered).1⟩⟩
  obtain ⟨now,after⟩ := first
  have mirrors : l.Mirrors l now := ⟨rfl,rfl,fun _ => .inl rfl⟩
  have same := Limiter.decisions_eq ordered mirrors (dated now) limited after
  refine ⟨same,fun _ _ _ nonneg => ?_⟩
  rw [same]
  exact Limiter.granted_window ordered (dated now) limited after nonneg

/-- Two keys with a bucket of one token each: the call of the second after three minutes drops the first
key's bucket, and the next calls of the first are decided as if it had filled up. -/
theorem limiter_bounded_dropped :
    let l : Limiter Bool := newBurst 1 1 0
    let calls := [(0,false),(0,false),(minute,true),(3 * minute,true),(3 * minute,false),(3 * minute,false)]
    ((calls.take 4).foldl (fun l call => (l.allow call.1 call.2).1) l).buckets false = none ∧
      l.decisions Limiter.allow calls = [true,false,true,true,true,false] ∧
      l.decisions Limiter.allow calls = l.decisions Limiter.allowKeeping calls ∧
      (Limiter.granted false 0 (0 + 3 * minute) calls (l.decisions Limiter.allow calls) : ℚ) ≤
        l.burst + ((3 * minute : Int) : ℚ) / minute * l.perMinute := by
  intro _ calls
  obtain ⟨same,bounded⟩ := limiter_bounded (K := Bool) 1 1 0 (by decide) (by decide) calls (by decide)
  exact ⟨by rw [← Option.isNone_iff_eq_none]; decide +kernel,by decide +kernel,same,bounded false 0 (3 * minute) (by decide)⟩

end ENode.RateLimit
