import ENode.CacheSystem

/-! What holds in every state of every run of the cache: one load per key at a time, no hit past its
time, the limits kept and the least recently used entries evicted first. -/
namespace ENode.Meta
open List

variable {K V E : Type} {g : Getter K V E} {i call : Nat} {outcome : Outcome V E}

section

namespace Progress

/-- The load is running, or back and not yet out of `inflight`. -/
def Runs (p : Progress K V E) (call : Nat) : Prop := p = .loading call ∨ ∃ outcome size, p = .loaded call outcome size

/-- The outcome the caller got from its own load. -/
def Own (p : Progress K V E) (call : Nat) (outcome : Outcome V E) : Prop :=
  (∃ size, p = .loaded call outcome size) ∨ p = .closing call outcome ∨ p = .returned (.own call outcome)

end Progress

theorem Getter.endCall_same (g : Getter K V E) : g.endCall.progress = g.progress ∧ g.endCall.key = g.key ∧
    g.endCall.caller = g.caller ∧ (g.ended = true → g.endCall.ended = true) ∧ (g.callEnded = true → g.endCall.callEnded = true) := by
  unfold Getter.endCall
  split_ifs
  · exact ⟨rfl,rfl,rfl,id,fun _ => rfl⟩
  · exact ⟨rfl,rfl,rfl,id,id⟩

/-- What the callers keep in step. -/
structure Callers.Sound [DecidableEq K] (s : Callers K V E) : Prop where
  made : ∀ (call : Nat) (c : Call V E), s.calls[call]? = some c → ∃ l : Getter K V E, s.getters[c.loader]? = some l ∧
    (c.outcome = some (.error .context) → l.callEnded = true) ∧
    (c.outcome = some (.error .notCached) → l.caller = .cachedOnly)
  runs : ∀ (i : Nat) (g : Getter K V E) (call : Nat), s.getters[i]? = some g → g.progress.Runs call →
    s.inflight.lookup g.key = some call ∧
    ∃ c : Call V E, s.calls[call]? = some c ∧ c.loader = i ∧ (g.progress = .loading call → c.outcome = none)
  own : ∀ (i : Nat) (g : Getter K V E) (call : Nat) (outcome : Outcome V E), s.getters[i]? = some g → g.progress.Own call outcome →
    ∃ c : Call V E, s.calls[call]? = some c ∧ c.outcome = some outcome ∧ c.loader = i
  shared : ∀ (i : Nat) (g : Getter K V E) (call : Nat) (outcome : Outcome V E), s.getters[i]? = some g →
    g.progress = .returned (.shared call outcome) → ∃ c : Call V E, s.calls[call]? = some c ∧ c.outcome = some outcome
  sized : ∀ (i : Nat) (g : Getter K V E) (call : Nat) (outcome : Outcome V E) (size : Int), s.getters[i]? = some g →
    g.progress = .loaded call outcome size → 0 ≤ size
  hits : ∀ (i : Nat) (g : Getter K V E) (entry : CacheEntry K V) (now : Int), s.getters[i]? = some g →
    g.progress = .returned (.hit entry now) → entry.key = g.key ∧ now < entry.expires
  ended : ∀ (i : Nat) (g : Getter K V E), s.getters[i]? = some g →
    g.caller = .cachedOnly ∨ g.progress = .returned .gaveUp → g.ended = true

variable {α : Type} {l : List α}

theorem getElem?_modify_some (found : (l.modify i f)[j]? = some b) :
    ∃ a, l[j]? = some a ∧ b = if i = j then f a else a := by
  rw [getElem?_modify] at found
  obtain ⟨a,held,rfl⟩ := Option.map_eq_some_iff.mp found
  exact ⟨a,held,rfl⟩

theorem getElem?_modify_of (f : α → α) (held : l[j]? = some a) :
    (l.modify i f)[j]? = some (if i = j then f a else a) := by
  rw [getElem?_modify,held]
  rfl

theorem getElem?_concat_some (found : (l ++ [a])[j]? = some b) :
    l[j]? = some b ∨ j = l.length ∧ b = a := by
  rcases Nat.lt_or_ge j l.length with inside | outside
  · rw [getElem?_append_left inside] at found
    exact .inl found
  · rw [getElem?_append_right outside] at found
    obtain ⟨short,equal⟩ := List.getElem?_eq_some_iff.mp found
    rw [length_singleton] at short
    have last : j = l.length := by omega
    refine .inr ⟨last,?_⟩
    rw [← equal]
    simp

theorem getElem?_concat_of {j : Nat} (b : α) (held : l[j]? = some a) : (l ++ [b])[j]? = some a := by
  rw [getElem?_append_left (List.getElem?_eq_some_iff.mp held).1,held]

/-- What the calls and the flights say of a caller that is so far. -/
def Progress.Told [DecidableEq K] (calls : List (Call V E)) (inflight : GoMap K Nat) (i : Nat) (key : K) (ended : Bool) :
    Progress K V E → Prop
  | .waiting _ => True
  | .loading call => inflight.lookup key = some call ∧ ∃ c : Call V E, calls[call]? = some c ∧ c.outcome = none ∧ c.loader = i
  | .loaded call outcome size => inflight.lookup key = some call ∧ 0 ≤ size ∧
    ∃ c : Call V E, calls[call]? = some c ∧ c.outcome = some outcome ∧ c.loader = i
  | .closing call outcome | .returned (.own call outcome) =>
    ∃ c : Call V E, calls[call]? = some c ∧ c.outcome = some outcome ∧ c.loader = i
  | .returned (.shared call outcome) => ∃ c : Call V E, calls[call]? = some c ∧ c.outcome = some outcome
  | .returned (.hit entry now) => entry.key = key ∧ now < entry.expires
  | .returned .gaveUp => ended = true

variable {p : Progress K V E}

/-- Calls that keep what a caller relies on, and its flight, keep what is said of it. -/
theorem Progress.Told.later [DecidableEq K] {inflight inflight' : GoMap K Nat}
    (told : p.Told calls inflight j key ended)
    (kept : ∀ (call : Nat) (c : Call V E), calls[call]? = some c → ∃ c' : Call V E, calls'[call]? = some c' ∧
      c'.loader = c.loader ∧ (c'.outcome = c.outcome ∨ c.outcome = none ∧ c.loader ≠ j))
    (flight : ∀ call, p.Runs call → inflight'.lookup key = some call) (ends : ended = true → ended' = true) :
    p.Told calls' inflight' j key ended' := by
  have own : ∀ {call : Nat} {o : Option (Outcome V E)}, (∃ c : Call V E, calls[call]? = some c ∧ c.outcome = o ∧ c.loader = j) →
      ∃ c : Call V E, calls'[call]? = some c ∧ c.outcome = o ∧ c.loader = j := by
    rintro call _ ⟨c,held,rfl,rfl⟩
    obtain ⟨c',held',loader,outcome⟩ := kept call c held
    exact ⟨c',held',outcome.resolve_right fun other => other.2 rfl,loader⟩
  cases p with
  | waiting => trivial
  | loading call => exact ⟨flight call (.inl rfl),own told.2⟩
  | loaded call outcome size => exact ⟨flight call (.inr ⟨outcome,size,rfl⟩),told.2.1,own told.2.2⟩
  | closing => exact own told
  | returned answer =>
    cases answer with
    | own => exact own told
    | hit => exact told
    | gaveUp => exact ends told
    | shared call _ =>
      obtain ⟨c,held,isOutcome⟩ := told
      obtain ⟨c',held',_,same | ⟨none_,_⟩⟩ := kept call c held
      · exact ⟨c',held',same.trans isOutcome⟩
      · rw [none_] at isOutcome
        cases isOutcome

namespace Callers.Sound

variable [DecidableEq K] {s : Callers K V E}

theorem told (sound : s.Sound) (found : s.getters[i]? = some g) :
    g.progress.Told s.calls s.inflight i g.key g.ended := by
  cases progress : g.progress with
  | waiting => trivial
  | loading call =>
    obtain ⟨flight,c,held,loader,fresh⟩ := sound.runs i g call found (.inl progress)
    exact ⟨flight,c,held,fresh progress,loader⟩
  | loaded call outcome size =>
    exact ⟨(sound.runs i g call found (.inr ⟨outcome,size,progress⟩)).1,sound.sized i g call outcome size found progress,
      sound.own i g call outcome found (.inl ⟨size,progress⟩)⟩
  | closing call outcome => exact sound.own i g call outcome found (.inr (.inl progress))
  | returned answer =>
    cases answer with
    | own call outcome => exact sound.own i g call outcome found (.inr (.inr progress))
    | hit entry now => exact sound.hits i g entry now found progress
    | gaveUp => exact sound.ended i g found (.inr progress)
    | shared call outcome => exact sound.shared i g call outcome found progress

theorem of_told (made : ∀ (call : Nat) (c : Call V E), s.calls[call]? = some c → ∃ l : Getter K V E,
      s.getters[c.loader]? = some l ∧ (c.outcome = some (.error .context) → l.callEnded = true) ∧
      (c.outcome = some (.error .notCached) → l.caller = .cachedOnly))
    (told : ∀ (i : Nat) (g : Getter K V E), s.getters[i]? = some g → g.progress.Told s.calls s.inflight i g.key g.ended)
    (only : ∀ (i : Nat) (g : Getter K V E), s.getters[i]? = some g → g.caller = .cachedOnly → g.ended = true) : s.Sound := by
  refine ⟨made,fun i g call found runs => ?_,fun i g call outcome found own => ?_,fun i g call outcome found is => ?_,
    fun i g _ outcome size found is => ?_,fun i g _ _ found is => ?_,fun i g found cause => ?_⟩
  all_goals have said := told i g found
  · rcases runs with is | ⟨_,size,is⟩
    all_goals rw [is] at said
    · obtain ⟨flight,c,held,fresh,loader⟩ := said
      exact ⟨flight,c,held,loader,fun _ => fresh⟩
    · obtain ⟨flight,_,c,held,_,loader⟩ := said
      exact ⟨flight,c,held,loader,fun no => by rw [is] at no; cases no⟩
  · rcases own with ⟨_,is⟩ | is | is
    all_goals rw [is] at said
    · exact said.2.2
    · exact said
    · exact said
  · rw [is] at said
    exact said
  · rw [is] at said
    exact said.2.1
  · rw [is] at said
    exact said
  · rcases cause with isOnly | is
    · exact only i g found isOnly
    · rw [is] at said
      exact said

theorem one_load (sound : s.Sound) (first : s.getters[i]? = some g)
    (second : s.getters[j]? = some h) (runs : g.progress.Runs call) (runs' : h.progress.Runs call') (same : g.key = h.key) : i = j := by
  obtain ⟨flight,_,held,loader,_⟩ := sound.runs i g call first runs
  obtain ⟨flight',_,held',loader',_⟩ := sound.runs j h call' second runs'
  rw [same,flight'] at flight
  cases flight
  rw [held] at held'
  cases held'
  rw [← loader,loader']

theorem empty : ({} : Callers K V E).Sound := by
  refine ⟨?_,?_,?_,?_,?_,?_,?_⟩ <;> simp

section
variable (sound : s.Sound)
include sound

theorem flight (j : Nat) (h : Getter K V E) (call : Nat) (held : s.getters[j]? = some h)
    (runs : h.progress.Runs call) : s.inflight.lookup h.key = some call := (sound.runs j h call held runs).1

/-- A change of contexts: nothing else of a caller changes and a context that has ended stays so. -/
theorem contexts (i : Nat)
    (progress : ∀ g, (f g).progress = g.progress) (key : ∀ g, (f g).key = g.key) (caller : ∀ g, (f g).caller = g.caller)
    (ends : ∀ g, g.ended = true → (f g).ended = true) (callEnds : ∀ g, g.callEnded = true → (f g).callEnded = true) :
    (s.modifyGetter i f).Sound := by
  refine of_told (fun call c held => ?_) (fun j g found => ?_) (fun j _ found isOnly => ?_)
  · obtain ⟨l,loader,context,notCached⟩ := sound.made call c held
    refine ⟨_,getElem?_modify_of f loader,?_⟩
    split_ifs
    · exact ⟨fun failed => callEnds l (context failed),fun failed => (caller l).trans (notCached failed)⟩
    · exact ⟨context,notCached⟩
  · obtain ⟨g',held,rfl⟩ := getElem?_modify_some found
    have before := sound.told held
    split_ifs
    · rw [progress,key]
      exact before.later (fun _ c held => ⟨c,held,rfl,.inl rfl⟩) (fun call runs => sound.flight j g' call held runs) (ends g')
    · exact before
  · obtain ⟨g',held,rfl⟩ := getElem?_modify_some found
    split_ifs at isOnly ⊢
    · exact ends g' (sound.ended j g' held (.inl ((caller g').symm.trans isOnly)))
    · exact sound.ended j g' held (.inl isOnly)

theorem use (key : K) : (s.use key).Sound :=
  ⟨sound.made,sound.runs,sound.own,sound.shared,sound.sized,sound.hits,sound.ended⟩

/-- One caller moves on. Its call may get its outcome, and nothing that another caller relies on
changes. -/
theorem moved {calls : List (Call V E)} {inflight : GoMap K Nat} (found : s.getters[i]? = some g)
    (made : ∀ (call : Nat) (c' : Call V E), calls[call]? = some c' → ∃ c : Call V E, s.calls[call]? = some c ∧
      c'.loader = c.loader ∧ (c'.outcome = c.outcome ∨ c.loader = i ∧ ∃ o, c'.outcome = some o ∧ g.may o = true))
    (kept : ∀ (call : Nat) (c : Call V E), s.calls[call]? = some c → ∃ c' : Call V E, calls[call]? = some c' ∧
      c'.loader = c.loader ∧ (c'.outcome = c.outcome ∨ c.outcome = none ∧ c.loader = i))
    (flights : ∀ (j : Nat) (h : Getter K V E) (call : Nat), j ≠ i → s.getters[j]? = some h → h.progress.Runs call →
      inflight.lookup h.key = some call) (told : p.Told calls inflight i g.key g.ended) :
    ({ s.setProgress i p with calls := calls, inflight := inflight } : Callers K V E).Sound := by
  have same : ∀ (j : Nat) (h' : Getter K V E), (s.setProgress i p).getters[j]? = some h' →
      (j = i ∧ h' = { g with progress := p }) ∨ (j ≠ i ∧ s.getters[j]? = some h') := by
    intro j _ held
    obtain ⟨h,before,rfl⟩ := getElem?_modify_some held
    split_ifs with here
    · subst here
      rw [found] at before
      cases before
      exact .inl ⟨rfl,rfl⟩
    · exact .inr ⟨Ne.symm here,before⟩
  refine of_told (fun call c' held => ?_) (fun j h held => ?_) (fun j h held isOnly => ?_)
  · obtain ⟨c,before,loader,outcome⟩ := made call c' held
    obtain ⟨l,isLoader,context,notCached⟩ := sound.made call c before
    rw [loader]
    refine ⟨_,getElem?_modify_of _ isLoader,?_⟩
    have flags : ∀ q : Getter K V E, (if i = c.loader then { q with progress := p } else q).callEnded = q.callEnded ∧
        (if i = c.loader then { q with progress := p } else q).caller = q.caller := fun _ => by
      split_ifs <;> exact ⟨rfl,rfl⟩
    rw [(flags l).1,(flags l).2]
    rcases outcome with old | ⟨mine,_,new,may⟩
    · rw [old]
      exact ⟨context,notCached⟩
    · rw [new]
      rw [mine,found] at isLoader
      cases isLoader
      constructor
      · rintro ⟨⟩
        simp only [Getter.may,Bool.and_eq_true] at may
        exact may.2
      · rintro ⟨⟩
        simpa [Getter.may] using may
  · rcases same j h held with ⟨rfl,rfl⟩ | ⟨other,before⟩
    · exact told
    · refine (sound.told before).later (fun call c isCall => ?_) (fun call runs => flights j h call other before runs) id
      obtain ⟨c',isCall',loader,outcome⟩ := kept call c isCall
      exact ⟨c',isCall',loader,outcome.imp_right fun fresh => ⟨fresh.1,fresh.2.trans_ne other.symm⟩⟩
  · rcases same j h held with ⟨rfl,rfl⟩ | ⟨_,before⟩
    · exact sound.ended j g found (.inl isOnly)
    · exact sound.ended j h before (.inl isOnly)

theorem stepped (found : s.getters[i]? = some g)
    (told : p.Told s.calls s.inflight i g.key g.ended) : (s.setProgress i p).Sound :=
  sound.moved found (fun _ c held => ⟨c,held,rfl,.inl rfl⟩) (fun _ c held => ⟨c,held,rfl,.inl rfl⟩)
    (fun j h call _ => sound.flight j h call) told

end

omit [DecidableEq K] in
theorem may_map (g : Getter K V E) (f : V → V) (outcome : Outcome V E) : g.may (outcome.map f) = g.may outcome := by
  cases outcome with
  | ok => rfl
  | error e => cases e <;> rfl

section
variable (sound : s.Sound)
include sound

theorem loadEnds (cfg : CacheConfig V)
    (found : s.getters[i]? = some g) (loading : g.progress = .loading call) (may : g.may outcome = true) :
    (s.loadEnds cfg i call outcome).Sound := by
  obtain ⟨flight,_,isCall,loader,fresh⟩ := sound.runs i g call found (.inl loading)
  refine sound.moved found ?_ ?_ (fun j h call' _ => sound.flight j h call') ?_
  · intro call' _ held
    obtain ⟨d,before,rfl⟩ := getElem?_modify_some held
    refine ⟨d,before,?_⟩
    split_ifs with here
    · subst here
      rw [isCall] at before
      cases before
      exact ⟨rfl,.inr ⟨loader,_,rfl,(may_map g cfg.trim outcome).trans may⟩⟩
    · exact ⟨rfl,.inl rfl⟩
  · intro _ _ before
    refine ⟨_,getElem?_modify_of _ before,?_⟩
    split_ifs with here
    · subst here
      rw [isCall] at before
      cases before
      exact ⟨rfl,.inr ⟨fresh loading,loader⟩⟩
    · exact ⟨rfl,.inl rfl⟩
  · refine ⟨flight,?_,_,getElem?_modify_of _ isCall,?_⟩
    · unfold outcomeSize
      split
      · exact Int.natCast_nonneg _
      · exact Int.le_refl 0
    · rw [if_pos rfl]
      exact ⟨rfl,loader⟩

theorem finish (found : s.getters[i]? = some g) (loaded : g.progress = .loaded call outcome size) :
    (s.finish i g.key call outcome).Sound := by
  have closing : ({ s.setProgress i (.closing call outcome) with inflight := s.inflight.erase g.key } : Callers K V E).Sound := by
    refine sound.moved found (fun _ c held => ⟨c,held,rfl,.inl rfl⟩) (fun _ c held => ⟨c,held,rfl,.inl rfl⟩) ?_
      (sound.own i g call outcome found (.inl ⟨size,loaded⟩))
    intro j h call' other held runs
    have apart : g.key ≠ h.key := fun same =>
      other (sound.one_load held found runs (.inr ⟨outcome,size,loaded⟩) same.symm)
    rw [AList.lookup_erase_ne apart.symm]
    exact sound.flight j h call' held runs
  unfold Callers.finish
  cases outcome with
  | ok => exact closing.use g.key
  | error => exact closing

theorem close (found : s.getters[i]? = some g) (closing : g.progress = .closing call outcome) :
    (s.close i call outcome).Sound := by
  obtain ⟨_,isCall,ended,loader⟩ := sound.own i g call outcome found (.inr (.inl closing))
  have kept : ∀ {d : Call V E} {call' : Nat}, (if call = call' then { d with closed := true } else d).loader = d.loader ∧
      (if call = call' then { d with closed := true } else d).outcome = d.outcome := by
    intro d call'
    split_ifs <;> exact ⟨rfl,rfl⟩
  refine sound.moved found ?_ ?_ (fun j h call' _ => sound.flight j h call') ?_
  · intro call' _ held
    obtain ⟨d,before,rfl⟩ := getElem?_modify_some held
    exact ⟨d,before,kept.1,.inl kept.2⟩
  · exact fun _ _ before => ⟨_,getElem?_modify_of _ before,kept.1,.inl kept.2⟩
  · exact ⟨_,getElem?_modify_of _ isCall,kept.2.trans ended,kept.1.trans loader⟩

/-- A caller comes in, on its own or with a call that it makes. -/
theorem arrive {key : K} (more : List (Call V E)) {inflight : GoMap K Nat}
    (fresh : ∀ (j : Nat) (c : Call V E), more[j]? = some c → c.loader = s.getters.length ∧ c.outcome = none)
    (flights : ∀ (j : Nat) (h : Getter K V E) (call : Nat), s.getters[j]? = some h → h.progress.Runs call →
      inflight.lookup h.key = some call)
    (told : p.Told (s.calls ++ more) inflight s.getters.length key (decide (caller = .cachedOnly))) :
    ({ s.arrive key caller p with calls := s.calls ++ more, inflight := inflight } : Callers K V E).Sound := by
  refine of_told (fun call c held => ?_) (fun j h held => ?_) (fun j h held isOnly => ?_)
  · rcases Nat.lt_or_ge call s.calls.length with inside | outside
    · rw [getElem?_append_left inside] at held
      obtain ⟨l,loader,blame⟩ := sound.made call c held
      exact ⟨l,getElem?_concat_of _ loader,blame⟩
    · rw [getElem?_append_right outside] at held
      obtain ⟨loader,outcome⟩ := fresh _ c held
      rw [loader,outcome]
      exact ⟨_,getElem?_concat_length,by simp,by simp⟩
  · rcases getElem?_concat_some held with before | ⟨rfl,rfl⟩
    · refine (sound.told before).later (fun call c isCall => ⟨c,?_,rfl,.inl rfl⟩) (fun call => flights j h call before) id
      exact (getElem?_append_left (List.getElem?_eq_some_iff.mp isCall).1).trans isCall
    · exact told
  · rcases getElem?_concat_some held with before | ⟨rfl,rfl⟩
    · exact sound.ended j h before (.inl isOnly)
    · exact decide_eq_true isOnly

theorem joins (caller : Caller)
    (told : p.Told s.calls s.inflight s.getters.length key (decide (caller = .cachedOnly))) : (s.arrive key caller p).Sound := by
  rw [← append_nil s.calls] at told
  have landed : ({ s.arrive key caller p with calls := s.calls ++ [], inflight := s.inflight } : Callers K V E).Sound :=
    sound.arrive [] (fun _ _ no => by simp at no) sound.flight told
  rw [append_nil] at landed
  exact landed

theorem get (now : Int) (key : K) (caller : Caller)
    (valid : ∀ entry, found = some entry → entry.key = key ∧ now < entry.expires) : (s.get now key caller found).Sound := by
  unfold Callers.get
  cases found with
  | some entry => exact (sound.use key).joins caller (valid entry rfl)
  | none =>
    dsimp only
    cases flight : s.inflight.lookup key with
    | some call => exact sound.joins caller trivial
    | none =>
      refine sound.arrive [_] ?_ ?_ ⟨AList.lookup_insert _,_,getElem?_concat_length,rfl,rfl⟩
      · intro j _ held
        rw [getElem?_singleton] at held
        split_ifs at held
        cases held
        exact ⟨rfl,rfl⟩
      · intro j h call held runs
        have before := sound.flight j h call held runs
        have apart : h.key ≠ key := by
          intro same
          rw [same,flight] at before
          cases before
        rw [AList.lookup_insert_ne apart]
        exact before

end

end Callers.Sound

end

def CacheAction.clock {K V E : Type} : CacheAction K V E → Option Int
  | .get now _ _ | .finish _ now | .shed now _ => some now
  | _ => none

namespace CacheSystem

section
variable [DecidableEq K] {cfg : CacheConfig V} {m : CacheSystem (LruMap K V) K V E}

/-- What the LRU map and its callers keep. -/
structure Tidy (cfg : CacheConfig V) (m : CacheSystem (LruMap K V) K V E) : Prop where
  keys : (m.cache.map CacheEntry.key).Nodup
  bounded : m.cache.Bounded cfg
  recent : Lru.Recent CacheEntry.key m.callers.used m.cache
  past : ∀ key, m.callers.used key ≤ m.callers.uses
  sound : m.callers.Sound

/-- The entry leaves because it has expired or a load replaces it, or it was used before all that stay. -/
def Leaves (m : CacheSystem (LruMap K V) K V E) (a : CacheAction K V E) (m' : CacheSystem (LruMap K V) K V E)
    (e : CacheEntry K V) : Prop :=
  (∃ now, a.clock = some now ∧ e.expires ≤ now) ∨
  (∃ i now, ∃ g : Getter K V E, a = .finish i now ∧ m.callers.getters[i]? = some g ∧ g.key = e.key) ∨
  ∀ e' ∈ m'.cache, m'.callers.used e.key < m'.callers.used e'.key

namespace Tidy

theorem empty : (⟨[],{}⟩ : CacheSystem (LruMap K V) K V E).Tidy cfg :=
  ⟨nodup_nil,LruMap.bounded_empty,List.Pairwise.nil,fun _ => le_rfl,.empty⟩

theorem front (tidy : m.Tidy cfg) (e : CacheEntry K V) :
    Lru.Recent CacheEntry.key (m.callers.use e.key).used (e :: Lru.without CacheEntry.key m.cache e.key) :=
  tidy.recent.front (fun key => Nat.lt_succ_of_le (tidy.past key)) e

theorem past_use (tidy : m.Tidy cfg) (key key' : K) : (m.callers.use key).used key' ≤ (m.callers.use key).uses := by
  show Function.update m.callers.used key (m.callers.uses + 1) key' ≤ m.callers.uses + 1
  rw [Function.update_apply]
  split_ifs
  · exact le_rfl
  · exact (tidy.past key').trans (Nat.le_succ _)

theorem callersOnly (tidy : m.Tidy cfg) {callers : Callers K V E} (used : callers.used = m.callers.used)
    (uses : callers.uses = m.callers.uses) (sound : callers.Sound) : (⟨m.cache,callers⟩ : CacheSystem _ K V E).Tidy cfg := by
  refine ⟨tidy.keys,tidy.bounded,?_,fun key => ?_,sound⟩
  · show Lru.Recent CacheEntry.key callers.used m.cache
    rw [used]
    exact tidy.recent
  · show callers.used key ≤ callers.uses
    rw [used,uses]
    exact tidy.past key

theorem get_none (s : Callers K V E) (now : Int) (key : K) (caller : Caller) :
    (s.get now key caller none).used = s.used ∧ (s.get now key caller none).uses = s.uses := by
  unfold Callers.get
  dsimp only
  cases s.inflight.lookup key <;> exact ⟨rfl,rfl⟩

theorem get (tidy : m.Tidy cfg) (now : Int) (key : K) (caller : Caller) :
    (⟨(m.cache.lookup now key).1,m.callers.get now key caller (m.cache.lookup now key).2⟩ : CacheSystem _ K V E).Tidy cfg := by
  have bounded := tidy.bounded.lookup tidy.keys now key
  rcases m.cache.lookup_cases now key with same | ⟨e,inside,rfl,_,same⟩ | ⟨e,_,rfl,alive,same⟩ <;>
    rw [same] at bounded ⊢
  · obtain ⟨used,uses⟩ := get_none m.callers now key caller
    exact tidy.callersOnly used uses (tidy.sound.get now key caller (by simp))
  · obtain ⟨used,uses⟩ := get_none m.callers now e.key caller
    have fewer : (⟨Lru.without CacheEntry.key m.cache e.key,m.callers⟩ : CacheSystem (LruMap K V) K V E).Tidy cfg :=
      ⟨((Lru.without_sublist m.cache e.key).map _).nodup tidy.keys,bounded,
        tidy.recent.sublist (Lru.without_sublist ..),tidy.past,tidy.sound⟩
    exact fewer.callersOnly used uses (tidy.sound.get now e.key caller (by simp))
  · have sound : (m.callers.get now e.key caller (some e)).Sound := by
      refine tidy.sound.get now e.key caller ?_
      rintro _ ⟨⟩
      exact ⟨rfl,alive⟩
    exact ⟨Lru.keys_cons tidy.keys e,bounded,tidy.front e,tidy.past_use e.key,sound⟩

theorem finish (tidy : m.Tidy cfg) (now : Int)
    (found : m.callers.getters[i]? = some g) (loaded : g.progress = .loaded call outcome size) :
    (⟨(lruOps cfg).storeOutcome now g.key outcome size m.cache,m.callers.finish i g.key call outcome⟩ :
      CacheSystem _ K V E).Tidy cfg := by
  have sound := tidy.sound.finish found loaded
  have sized := tidy.sound.sized i g call outcome size found loaded
  cases outcome with
  | error => exact tidy.callersOnly rfl rfl sound
  | ok value =>
    have bounded := tidy.bounded.store now g.key value sized
    have front := tidy.front { key := g.key, value := value, bytes := size, expires := now + cfg.ttl }
    have distinct := Lru.keys_cons tidy.keys { key := g.key, value := value, bytes := size, expires := now + cfg.ttl }
    have part : (m.cache.store cfg now g.key value size).Sublist
        ({ key := g.key, value := value, bytes := size, expires := now + cfg.ttl } :: Lru.without CacheEntry.key m.cache g.key) := by
      unfold LruMap.store
      dsimp only
      split_ifs
      · exact sublist_cons_self _ _
      · exact (Lru.trim_isPrefix CacheEntry.bytes _ _).sublist
    exact ⟨(part.map _).nodup distinct,bounded,front.sublist part,tidy.past_use g.key,sound⟩

theorem step (tidy : m.Tidy cfg) (a : CacheAction K V E) : (m.step (lruOps cfg) cfg a).Tidy cfg := by
  have effect := m.step_effect (lruOps cfg) cfg a
  generalize m.step (lruOps cfg) cfg a = after at effect ⊢
  cases effect with
  | nothing => exact tidy
  | get now key caller => exact tidy.get now key caller
  | endContext i =>
    exact tidy.callersOnly rfl rfl (tidy.sound.contexts i (fun _ => rfl) (fun _ => rfl) (fun _ => rfl) (fun _ _ => rfl) (fun _ _ => rfl))
  | endCall i =>
    exact tidy.callersOnly rfl rfl (tidy.sound.contexts i (fun g => (g.endCall_same).1) (fun g => (g.endCall_same).2.1)
      (fun g => (g.endCall_same).2.2.1) (fun g => (g.endCall_same).2.2.2.1) (fun g => (g.endCall_same).2.2.2.2))
  | loadEnds i outcome g call found loading may => exact tidy.callersOnly rfl rfl (tidy.sound.loadEnds cfg found loading may)
  | finish i now g call outcome _ found loaded => exact tidy.finish now found loaded
  | close i g call outcome found closing => exact tidy.callersOnly rfl rfl (tidy.sound.close found closing)
  | wake i g call c _ found waiting isCall _ ended => exact tidy.callersOnly rfl rfl (tidy.sound.stepped found ⟨c,isCall,ended⟩)
  | giveUp _ _ _ found _ ended => exact tidy.callersOnly rfl rfl (tidy.sound.stepped found ended)
  | shed now share =>
    have part := m.cache.shed_sublist cfg now share
    exact ⟨(part.map _).nodup tidy.keys,tidy.bounded.sublist part,tidy.recent.sublist part,tidy.past,tidy.sound⟩

theorem run (actions : List (CacheAction K V E)) (tidy : m.Tidy cfg) : (m.run (lruOps cfg) cfg actions).Tidy cfg := by
  induction actions generalizing m with
  | nil => exact tidy
  | cons a _ ih => exact ih (tidy.step a)

/-- The least recently used entries leave first. -/
theorem leaves (tidy : m.Tidy cfg) (a : CacheAction K V E) (inside : e ∈ m.cache)
    (gone : e ∉ (m.step (lruOps cfg) cfg a).cache) : m.Leaves a (m.step (lruOps cfg) cfg a) e := by
  have effect := m.step_effect (lruOps cfg) cfg a
  generalize m.step (lruOps cfg) cfg a = after at gone effect ⊢
  cases effect with
  | get now key _ =>
    rw [show (lruOps cfg).lookup now key m.cache = m.cache.lookup now key from rfl] at gone
    rcases m.cache.lookup_cases now key with same | ⟨x,member,rfl,expired,same⟩ | ⟨x,member,rfl,alive,same⟩ <;> rw [same] at gone
    · exact absurd inside gone
    · have isKey : e.key = x.key := by
        by_contra other
        exact gone (mem_filter.mpr ⟨inside,decide_eq_true other⟩)
      rw [inj_on_of_nodup_map tidy.keys inside member isKey]
      exact .inl ⟨now,rfl,expired⟩
    · exact absurd ((LruMap.front_perm tidy.keys member).mem_iff.mpr inside) gone
  | finish i now g _ outcome size found _ =>
    by_cases replaced : g.key = e.key
    · exact .inr (.inl ⟨i,now,g,rfl,found,replaced⟩)
    cases outcome with
    | error => exact absurd inside gone
    | ok value =>
      have stays : e ∈ Lru.without CacheEntry.key m.cache g.key := mem_filter.mpr ⟨inside,decide_eq_true (Ne.symm replaced)⟩
      refine .inr (.inr fun e' kept => ?_)
      rw [show (lruOps cfg).storeOutcome now g.key (.ok value : Outcome V E) size m.cache = m.cache.store cfg now g.key value size from rfl]
        at gone kept
      unfold LruMap.store at gone kept
      dsimp only at gone kept
      split_ifs at gone kept with large
      · exact absurd stays gone
      · have front := tidy.front { key := g.key, value := value, bytes := size, expires := now + cfg.ttl }
        exact front.dropped (Lru.trim_isPrefix CacheEntry.bytes _ _) (.tail _ stays) gone kept
  | shed now _ =>
    by_cases alive : now < e.expires
    · have live : e ∈ m.cache.filter fun e => decide (now < e.expires) := mem_filter.mpr ⟨inside,decide_eq_true alive⟩
      exact .inr (.inr fun _ kept => (tidy.recent.sublist filter_sublist).dropped (Lru.trim_isPrefix CacheEntry.bytes _ _) live gone kept)
    · exact .inl ⟨now,rfl,Int.not_lt.mp alive⟩
  | nothing | endContext | endCall | loadEnds | close | wake | giveUp => exact absurd inside gone

end Tidy

/-- Everything promised of the cache, in the terms of its list and its map. -/
structure Orderly (cfg : CacheConfig V) (s : CacheSystem (Cache K V) K V E) : Prop where
  keys : (s.cache.order.map fun el => el.entry.key).Nodup
  entries : ∀ key el, s.cache.entries.lookup key = some el ↔ el ∈ s.cache.order ∧ el.entry.key = key
  bytes : s.cache.bytes = (s.cache.order.map fun el => el.entry.bytes).sum
  count : s.cache.order.length ≤ cfg.limits.maxEntries
  size : 0 < cfg.limits.maxBytes → s.cache.bytes ≤ cfg.limits.maxBytes
  hits : ∀ (i : Nat) (g : Getter K V E) (entry : CacheEntry K V) (now : Int), s.callers.getters[i]? = some g →
    g.progress = .returned (.hit entry now) → entry.key = g.key ∧ now < entry.expires
  loads : ∀ (i j : Nat) (g h : Getter K V E) (call call' : Nat), s.callers.getters[i]? = some g → s.callers.getters[j]? = some h →
    g.progress = .loading call → h.progress = .loading call' → g.key = h.key → i = j
  evicts : ∀ (a : CacheAction K V E) (el : Element K V), el ∈ s.cache.order →
    el.entry ∉ (s.step (listOps cfg) cfg a).cache.order.map Element.entry →
    (∃ now, a.clock = some now ∧ el.entry.expires ≤ now) ∨
    (∃ i now, ∃ g : Getter K V E, a = .finish i now ∧ s.callers.getters[i]? = some g ∧ g.key = el.entry.key) ∨
    ∀ el' ∈ (s.step (listOps cfg) cfg a).cache.order,
      (s.step (listOps cfg) cfg a).callers.used el.entry.key < (s.step (listOps cfg) cfg a).callers.used el'.entry.key

theorem Refines.orderly {s : CacheSystem (Cache K V) K V E} (refines : s.Refines m) (tidy : m.Tidy cfg) : s.Orderly cfg := by
  obtain ⟨few,_⟩ := (LruMap.overLimits_iff ..).mp tidy.bounded.fits
  refine ⟨?_,refines.cache.entries,?_,?_,?_,?_,?_,?_⟩
  · have distinct := refines.cache.keys
    rwa [← refines.cache.order,map_map] at distinct
  · rw [refines.cache.bytes,Lru.total,← refines.cache.order,map_map]
    rfl
  · rwa [← refines.cache.order,length_map] at few
  · rwa [refines.cache.bytes]
  · rw [refines.callers]
    exact tidy.sound.hits
  · rw [refines.callers]
    exact fun _ _ _ _ _ _ first second loading loading' same => tidy.sound.one_load first second (.inl loading) (.inl loading') same
  · intro a _ inside gone
    have after := refines.step cfg a
    rw [after.cache.order] at gone
    have leaves := tidy.leaves a (refines.cache.mem_entry inside) gone
    rw [after.callers,refines.callers]
    exact leaves.imp_right (Or.imp_right fun older el' kept => older el'.entry (after.cache.mem_entry kept))

/-- In every interleaving of `Get` and `Shed` the cache is the bounded LRU map with expiry and one
load per key. -/
theorem cache_refines_lru (cfg : CacheConfig V) (actions : List (CacheAction K V E)) :
    (run (listOps cfg) cfg ⟨{},{}⟩ actions : CacheSystem (Cache K V) K V E).Refines (run (lruOps cfg) cfg ⟨[],{}⟩ actions) ∧
    (run (listOps cfg) cfg ⟨{},{}⟩ actions : CacheSystem (Cache K V) K V E).Orderly cfg := by
  have refines := refines_empty.run (E := E) cfg actions
  exact ⟨refines,refines.orderly (Tidy.empty.run actions)⟩

end

end CacheSystem

end ENode.Meta
