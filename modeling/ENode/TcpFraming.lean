import ENode.TcpSession

/-! Framing does not depend on how the stream was cut. A round over the first part of a
chunk either ends the session, waits for the second part, or leaves it as excess; so two
parts read one after the other show what the whole shows. -/
namespace ENode.Ed2k

open GoText List

variable {σ ρ : Type} {h : Handlers σ ρ}

theorem Closed.of_prefix (closed : Closed events) (after : events <+: later) :
    Closed later := closed.imp (fun _ there => after.subset there)

theorem observed_append (closed : Closed events) (more : List (Event ρ)) :
    observed (events ++ more) = observed events := by
  induction events with
  | nil => obtain ⟨_,there⟩ := closed; cases there
  | cons e _ ih =>
    cases e with
    | closed reason => rfl
    | dispatched _ =>
      obtain ⟨reason,there⟩ := closed
      have later := mem_of_ne_of_mem (by simp) there
      rw [cons_append,observed,observed,ih ⟨reason,later⟩]

theorem observed_prefix (closed : Closed events) (after : events <+: later) :
    observed later = observed events := by
  obtain ⟨more,rfl⟩ := after
  exact observed_append closed more

/-- A session without obfuscation, or one that turned out to use none. -/
def Plain (crypt : Option TCPCrypt) : Prop := ∀ t, crypt = some t → t.state = .none

/-- Events are only added, the login gate is only tripped by a close, and plaintext stays
plaintext. -/
structure Session.Goes (c c' : Session σ ρ) : Prop where
  events : c.events <+: c'.events
  gate : c'.loginGateTripped = true → c.loginGateTripped = true ∨ Closed c'.events
  plain : Plain c.crypt → Plain c'.crypt

namespace Session.Goes

variable {c c' : Session σ ρ}

theorem refl (c : Session σ ρ) : c.Goes c := ⟨prefix_refl _,Or.inl,id⟩

theorem trans (first : c.Goes c') (second : c'.Goes c'') : c.Goes c'' := by
  refine ⟨first.events.trans second.events,fun tripped => ?_,second.plain ∘ first.plain⟩
  rcases second.gate tripped with before | closed
  · exact (first.gate before).imp_right (fun closed => closed.of_prefix second.events)
  · exact .inr closed

section
variable (c : Session σ ρ)

theorem close (reason : CloseReason ρ) : c.Goes (c.closeWithReason reason) :=
  ⟨prefix_append ..,Or.inl,id⟩

theorem write (data : Bytes) : c.Goes (c.writeRaw data) := by
  refine ⟨prefix_refl _,Or.inl,fun plain => ?_⟩
  unfold writeRaw
  cases crypt : c.crypt with
  | none => exact nofun
  | some t =>
    have state := plain t crypt
    simp only [TCPCrypt.encrypt,state,reduceCtorEq,reduceIte]
    exact crypt ▸ plain

theorem requireLogin : c.Goes (c.requireLogin h).1 := by
  unfold Session.requireLogin
  split
  · exact refl c
  split
  · exact refl c
  have told := write { c with loginGateTripped := true } h.notLoggedInMessage
  exact ⟨prefix_append ..,fun _ => .inr ⟨.notLoggedIn,by simp [closeWithReason]⟩,told.plain⟩

theorem dispatch (opcode : UInt8) (data : Bytes) : c.Goes (c.dispatch h opcode data) := by
  unfold Session.dispatch
  refine foldlRecOn (motive := fun c' => c.Goes c') _ _ ⟨prefix_refl _,Or.inl,id⟩ ?_
  intro c' goes effect _
  cases effect with
  | write data => exact goes.trans (write c' data)
  | close _ => exact goes.trans (close c' _)

theorem handleED2K (opcode : UInt8) (data : Bytes) : c.Goes (c.handleED2K h opcode data) := by
  unfold Session.handleED2K
  have gate := requireLogin (h := h) c
  split
  · exact dispatch ..
  split
  next allowed =>
    rw [allowed] at gate
    exact gate.trans (dispatch ..)
  next refused =>
    rw [refused] at gate
    exact gate

theorem handlePacket (frame : Frame) : c.Goes (c.handlePacket h frame) := by
  have dispatched : c.Goes { c with events := c.events ++ [.dispatched frame] } := ⟨prefix_append ..,Or.inl,id⟩
  refine dispatched.trans ?_
  unfold Session.handlePacket
  dsimp only
  split
  · exact handleED2K ..
  split
  · split
    · exact close ..
    · exact refl _
    · exact handleED2K ..
  · exact refl _

theorem preLoginHeaderAllowed (header : Bytes) : c.Goes (c.preLoginHeaderAllowed h header).1 := by
  unfold Session.preLoginHeaderAllowed
  split
  · exact refl c
  split
  · exact close ..
  split
  · exact requireLogin c
  · exact refl c

end

end Session.Goes

variable {p : Packet}

namespace Packet

theorem append_append {a : Bytes} (short : a.length < p.size - p.recv.length) (b : Bytes) :
    (p.append a).append b = p.append (a ++ b) := by
  have left : p.size - (p.recv ++ a).length = p.size - p.recv.length - a.length := by
    rw [length_append]
    omega
  rw [append_waiting short]
  by_cases more : b.length < p.size - p.recv.length - a.length
  · have whole : (a ++ b).length < p.size - p.recv.length := by
      rw [length_append]
      omega
    rw [append_waiting whole,append_waiting (left ▸ more),append_assoc]
  · have whole : p.size - p.recv.length ≤ (a ++ b).length := by
      rw [length_append]
      omega
    have taken : (a ++ b).take (p.size - p.recv.length) = a ++ b.take (p.size - p.recv.length - a.length) := by
      rw [take_append,take_of_length_le (by omega)]
    have dropped : (a ++ b).drop (p.size - p.recv.length) = b.drop (p.size - p.recv.length - a.length) := by
      rw [drop_append,drop_eq_nil_of_le (by omega),nil_append]
    have same : (p.size - p.recv.length - a.length < b.length) = (p.size - p.recv.length < (a ++ b).length) := by
      rw [length_append]
      exact propext (by omega)
    rw [append_ready whole,append_ready (by dsimp only; omega)]
    simp only [left,taken,dropped,same,append_assoc]

def spent (p : Packet) : Packet :=
  { p with data := [], recv := [], status := .new, hasExcess := false, excess := [] }

end Packet

def excessOf (rest : Bytes) : Option Bytes := if rest.isEmpty then none else some rest

namespace TcpClient

theorem finishPacket_short (c : TcpClient σ ρ) {chunk : Bytes} (short : chunk.length < p.size - p.recv.length) :
    ({ c with packet := p.append chunk }).finishPacket h = ({ c with packet := p.append chunk },none) := by
  refine if_pos ?_
  rw [Packet.append_waiting short]
  exact nofun

theorem finishPacket_full (c : TcpClient σ ρ) {chunk : Bytes} (stale : p.excess = [])
    (enough : p.size - p.recv.length ≤ chunk.length) : ({ c with packet := p.append chunk }).finishPacket h =
      ({ c with
          toSession := c.toSession.handlePacket h ⟨p.protocol,p.code,p.recv ++ chunk.take (p.size - p.recv.length)⟩
          packet := p.spent },
        excessOf (chunk.drop (p.size - p.recv.length))) := by
  rw [Packet.append_ready enough,finishPacket,if_neg (by simp)]
  dsimp only [Packet.release]
  by_cases more : p.size - p.recv.length < chunk.length
  · have filled : (chunk.drop (p.size - p.recv.length)).isEmpty = false := by
      rw [isEmpty_eq_false_iff,← length_pos_iff,length_drop]
      omega
    rw [if_pos more,decide_eq_true more,filled,excessOf,filled]
    rfl
  · have empty : chunk.drop (p.size - p.recv.length) = [] := drop_eq_nil_of_le (by omega)
    rw [if_neg more,decide_eq_false more,empty,stale]
    rfl

/-- The payload filled from a first part, and from both. -/
theorem finishPacket_append (c : TcpClient σ ρ) (stale : p.excess = []) (headerBuf : c.headerBuf = [])
    (a b : Bytes) : (({ c with packet := p.append a }).finishPacket h = ({ c with packet := p.append a },none) ∧
        (p.append a).status = .waitingData ∧ p.append (a ++ b) = (p.append a).append b) ∨
      ∃ c1 rest, c1.packet.status = .new ∧ c1.headerBuf = [] ∧
        ({ c with packet := p.append a }).finishPacket h = (c1,excessOf rest) ∧
        ({ c with packet := p.append (a ++ b) }).finishPacket h = (c1,excessOf (rest ++ b)) := by
  by_cases short : a.length < p.size - p.recv.length
  · refine .inl ⟨c.finishPacket_short short,?_,(Packet.append_append short b).symm⟩
    rw [Packet.append_waiting short]
  · have enough := Nat.le_of_not_lt short
    have whole : p.size - p.recv.length ≤ (a ++ b).length := by
      rw [length_append]
      omega
    refine .inr ⟨_,_,?_,?_,c.finishPacket_full stale enough,?_⟩
    · rfl
    · exact headerBuf
    · rw [c.finishPacket_full stale whole,take_append_of_le_length enough,drop_append_of_le_length enough]

structure Open (c : TcpClient σ ρ) : Prop where
  gate : c.loginGateTripped = false
  stale : c.packet.excess = []
  short : c.headerBuf.length < packetHeaderSize
  known : c.headerBuf ≠ [] → isProtocol (c.headerBuf.getD 0 0) = true
  between : c.packet.status ≠ .new → c.headerBuf = []
  waits : c.packet.status = .waitingData → c.packet.recv.length < c.packet.size

variable {c : TcpClient σ ρ}

theorem processRound_nil (new : c.packet.status = .new) (buf : c.headerBuf = []) :
    c.processRound h [] = (c,none) := by
  obtain ⟨_,_,_⟩ := c
  dsimp only at new buf
  subst buf
  rw [processRound,new]
  rfl

theorem processHeader_keeps (c : TcpClient σ ρ) (filled : data ≠ [])
    (known : isProtocol (data.getD 0 0) = true) (short : data.length < packetHeaderSize) :
    c.processHeader h data = ({ c with headerBuf := data },none) := by
  rw [processHeader,if_neg (by simpa using filled),if_neg (by simpa using known),if_pos short]

theorem processHeader_unknown (c : TcpClient σ ρ) (filled : data ≠ [])
    (unknown : ¬isProtocol (data.getD 0 0) = true) (more : Bytes) :
    c.processHeader h (data ++ more) = ({ c with toSession := c.toSession.closeWithReason .unknownProtocol },none) := by
  have first : (data ++ more).getD 0 0 = data.getD 0 0 := getD_append _ _ _ _ (length_pos_iff.mpr filled)
  rw [processHeader,if_neg (by simp [filled]),first,if_pos (by simpa using unknown)]

/-- A round over the first part closes the session, waits for the second, or leaves it to the
next round. -/
theorem processRound_append (live : c.Open) (a b : Bytes) :
    (∃ c1, Closed c1.events ∧ c.processRound h a = (c1,none) ∧ c.processRound h (a ++ b) = (c1,none)) ∨
    (∃ c1, c.processRound h a = (c1,none) ∧ c1.processRound h b = c.processRound h (a ++ b)) ∨
    ∃ c1 rest, c1.packet.status = .new ∧ c1.headerBuf = [] ∧ c.processRound h a = (c1,excessOf rest) ∧
      c.processRound h (a ++ b) = (c1,excessOf (rest ++ b)) := by
  cases status : c.packet.status with
  | new =>
    have round : ∀ data, c.processRound h data = ({ c with headerBuf := [] }).processHeader h (c.headerBuf ++ data) := by
      intro data
      rw [processRound,status]
    by_cases whole : packetHeaderSize ≤ (c.headerBuf ++ a).length
    · rcases processHeader_whole (h := h) { c with headerBuf := [] } whole with ⟨c1,closed,same⟩ | ⟨p,-,stale,fills⟩
      · refine .inl ⟨c1,closed live.gate,?_,?_⟩
        · rw [round,← same [],append_nil]
        · rw [round,← append_assoc,same]
      · have stale : p.excess = [] := stale.trans live.stale
        have first := fills []
        rw [append_nil,append_nil,← round] at first
        have both := fills b
        rw [append_assoc,← round] at both
        rcases finishPacket_append (h := h) { c with headerBuf := [] } stale rfl
            ((c.headerBuf ++ a).drop packetHeaderSize) b with ⟨short,waiting,joined⟩ | ⟨c1,rest,new,buf,part,all⟩
        · refine .inr (.inl ⟨_,first.trans short,?_⟩)
          rw [both,joined,processRound]
          dsimp only
          rw [waiting]
        · exact .inr (.inr ⟨c1,rest,new,buf,first.trans part,both.trans all⟩)
    · rcases eq_nil_or_concat (c.headerBuf ++ a) with empty | ⟨_,_,filled⟩
      · obtain ⟨buf,rfl⟩ := append_eq_nil_iff.mp empty
        exact .inr (.inl ⟨c,processRound_nil status buf,rfl⟩)
      · have filled : c.headerBuf ++ a ≠ [] := by simp [filled]
        have short := Nat.lt_of_not_le whole
        by_cases known : isProtocol ((c.headerBuf ++ a).getD 0 0) = true
        · refine .inr (.inl ⟨{ c with headerBuf := c.headerBuf ++ a },?_,?_⟩)
          · rw [round,processHeader_keeps _ filled known short]
          · rw [round,processRound,status,append_assoc]
        · exact .inl ⟨_,closed_closeWithReason ..,
            (round a).trans (append_nil (c.headerBuf ++ a) ▸ processHeader_unknown _ filled known []),
            (round _).trans (append_assoc c.headerBuf a b ▸ processHeader_unknown _ filled known b)⟩
  | waitingData =>
    have round : ∀ data, c.processRound h data = ({ c with packet := c.packet.append data }).finishPacket h := by
      intro data
      rw [processRound,status]
    have buf : c.headerBuf = [] := live.between (by rw [status]; exact nofun)
    rcases finishPacket_append (h := h) c live.stale buf a b with ⟨short,waiting,joined⟩ | ⟨c1,rest,new,buf,part,all⟩
    · refine .inr (.inl ⟨_,(round a).trans short,?_⟩)
      rw [round,joined,processRound]
      dsimp only
      rw [waiting]
    · exact .inr (.inr ⟨c1,rest,new,buf,(round a).trans part,(round _).trans all⟩)
  | ready | cryptNegotiating =>
    have round : ∀ data, c.processRound h data = (c,none) := by
      intro _
      rw [processRound,status]
    exact .inr (.inl ⟨c,round a,by rw [round,round]⟩)

variable {c c' : TcpClient σ ρ}

theorem processPacketData_none (round : c.processRound h data = (c',none)) : c.processPacketData h data = c' := by
  rw [processPacketData,round]

theorem processPacketData_some (round : c.processRound h data = (c',some excess)) :
    c.processPacketData h data = c'.processPacketData h excess := by
  rw [processPacketData,round]

theorem processPacketData_congr (same : c.processRound h a = c'.processRound h b) :
    c.processPacketData h a = c'.processPacketData h b := by
  rcases round : c'.processRound h b with ⟨_,_ | _⟩
  · rw [processPacketData_none round,processPacketData_none (same.trans round)]
  · rw [processPacketData_some round,processPacketData_some (same.trans round)]

theorem processPacketData_nil (new : c.packet.status = .new) (buf : c.headerBuf = []) :
    c.processPacketData h [] = c := processPacketData_none (processRound_nil new buf)

theorem processPacketData_excessOf {c c1 : TcpClient σ ρ} (new : c1.packet.status = .new)
    (buf : c1.headerBuf = []) (round : c.processRound h data = (c1,excessOf rest)) :
    c.processPacketData h data = c1.processPacketData h rest := by
  rw [excessOf] at round
  split at round
  next empty => rw [processPacketData_none round,isEmpty_iff.mp empty,processPacketData_nil new buf]
  · exact processPacketData_some round

theorem finishPacket_goes (c : TcpClient σ ρ) : c.toSession.Goes (c.finishPacket h).1.toSession := by
  unfold finishPacket
  split
  · exact .refl _
  dsimp only
  split
  · exact .handlePacket ..
  · exact .handlePacket ..

theorem processRound_goes (c : TcpClient σ ρ) (data : Bytes) :
    c.toSession.Goes (c.processRound h data).1.toSession := by
  unfold processRound
  split
  · unfold processHeader
    split
    · exact .refl _
    split
    · exact .close ..
    split
    · exact .refl _
    have allowed := Session.Goes.preLoginHeaderAllowed (h := h) c.toSession (c.headerBuf ++ data)
    dsimp only
    split
    · exact allowed
    split
    · exact allowed.trans (.close ..)
    exact allowed.trans (finishPacket_goes ⟨(c.toSession.preLoginHeaderAllowed h (c.headerBuf ++ data)).1,
      (c.packet.init (c.headerBuf ++ data)).1,[]⟩)
  · exact finishPacket_goes { c with packet := c.packet.append data }
  · exact .refl _

theorem processPacketData_goes (c : TcpClient σ ρ) (data : Bytes) :
    c.toSession.Goes (c.processPacketData h data).toSession := by
  fun_induction processPacketData h c data with
  | case1 c data c' round =>
    have goes := processRound_goes (h := h) c data
    rw [round] at goes
    exact goes
  | case2 c data _ _ round ih =>
    have goes := processRound_goes (h := h) c data
    rw [round] at goes
    exact goes.trans ih

theorem observed_processPacketData (closed : Closed c.events) (data : Bytes) :
    observed (c.processPacketData h data).events = observed c.events :=
  observed_prefix closed (c.processPacketData_goes data).events

/-- A session at rest is closed or ready for the next chunk. -/
def Rests (c : TcpClient σ ρ) : Prop := Closed c.events ∨ c.Open

theorem open_of_goes (gate : c.loginGateTripped = false) (goes : c.toSession.Goes c'.toSession)
    (stale : c'.packet.excess = []) (short : c'.headerBuf.length < packetHeaderSize)
    (known : c'.headerBuf ≠ [] → isProtocol (c'.headerBuf.getD 0 0) = true)
    (between : c'.packet.status ≠ .new → c'.headerBuf = [])
    (waits : c'.packet.status = .waitingData → c'.packet.recv.length < c'.packet.size) : c'.Rests := by
  cases tripped : c'.loginGateTripped with
  | false => exact .inr ⟨tripped,stale,short,known,between,waits⟩
  | true => exact .inl ((goes.gate tripped).resolve_left (by rw [gate]; exact nofun))

theorem finishPacket_rests (gate : c.loginGateTripped = false) (stale : p.excess = [])
    (buf : c.headerBuf = []) (chunk : Bytes) : (({ c with packet := p.append chunk }).finishPacket h).1.Rests := by
  have goes := finishPacket_goes (h := h) { c with packet := p.append chunk }
  have none : c.headerBuf ≠ [] → isProtocol (c.headerBuf.getD 0 0) = true := fun some => absurd buf some
  have short : c.headerBuf.length < packetHeaderSize := by rw [buf]; decide
  by_cases less : chunk.length < p.size - p.recv.length
  · rw [finishPacket_short _ less] at goes ⊢
    have waiting := Packet.append_waiting less
    refine open_of_goes gate goes ?_ short none (fun _ => buf) (fun _ => ?_)
    · rw [waiting]
      exact stale
    · rw [waiting]
      dsimp only
      rw [length_append]
      omega
  · rw [finishPacket_full _ stale (Nat.le_of_not_lt less)] at goes ⊢
    exact open_of_goes gate goes rfl short none (fun _ => buf) nofun

theorem processRound_rests (live : c.Open) (data : Bytes) : (c.processRound h data).1.Rests := by
  have goes := processRound_goes (h := h) c data
  cases status : c.packet.status with
  | new =>
    have round : c.processRound h data = ({ c with headerBuf := [] }).processHeader h (c.headerBuf ++ data) := by
      rw [processRound,status]
    rw [round] at goes ⊢
    by_cases whole : packetHeaderSize ≤ (c.headerBuf ++ data).length
    · rcases processHeader_whole (h := h) { c with headerBuf := [] } whole with ⟨c1,closed,same⟩ | ⟨p,-,stale,fills⟩
      · rw [← append_nil (c.headerBuf ++ data),same]
        exact .inl (closed live.gate)
      · rw [← append_nil (c.headerBuf ++ data),fills]
        exact finishPacket_rests (c := { c with headerBuf := [] }) live.gate (stale.trans live.stale) rfl _
    · have short := Nat.lt_of_not_le whole
      by_cases filled : c.headerBuf ++ data = []
      · rw [filled]
        exact .inr ⟨live.gate,live.stale,Nat.succ_pos 5,fun some => absurd rfl some,fun _ => rfl,live.waits⟩
      · by_cases known : isProtocol ((c.headerBuf ++ data).getD 0 0) = true
        · rw [processHeader_keeps _ filled known short] at goes ⊢
          exact open_of_goes live.gate goes live.stale short (fun _ => known) (fun other => absurd status other) live.waits
        · have unknown := processHeader_unknown (h := h) { c with headerBuf := [] } filled known []
          rw [append_nil] at unknown
          rw [unknown]
          exact .inl (closed_closeWithReason ..)
  | waitingData =>
    have round : c.processRound h data = ({ c with packet := c.packet.append data }).finishPacket h := by
      rw [processRound,status]
    rw [round]
    exact finishPacket_rests live.gate live.stale (live.between (by rw [status]; exact nofun)) data
  | ready | cryptNegotiating =>
    rw [processRound,status]
    exact .inr live

theorem processPacketData_rests (rests : c.Rests) (data : Bytes) : (c.processPacketData h data).Rests := by
  have round_rests : ∀ {c : TcpClient σ ρ} (data : Bytes), c.Rests → (c.processRound h data).1.Rests := by
    rintro c data (closed | live)
    · exact .inl (closed.of_prefix (c.processRound_goes data).events)
    · exact processRound_rests live data
  fun_induction processPacketData h c data with
  | case1 c data c' round =>
    have next := round_rests data rests
    rwa [round] at next
  | case2 _ data _ _ round ih =>
    have next := round_rests data rests
    rw [round] at next
    exact ih next

/-- Two parts one after the other show what the whole shows. -/
theorem observed_append_chunk (rests : c.Rests) (a b : Bytes) :
    observed ((c.processPacketData h a).processPacketData h b).events =
      observed (c.processPacketData h (a ++ b)).events := by
  -- The excess of the first part is shorter, so the induction is on what is left to do of it.
  induction left : c.work a using Nat.strong_induction_on generalizing c a with
  | _ _ ih =>
    rcases rests with closed | live
    · have first := closed.of_prefix (c.processPacketData_goes (h := h) a).events
      rw [observed_processPacketData first,observed_processPacketData closed,observed_processPacketData closed]
    · rcases processRound_append (h := h) live a b with
        ⟨c1,closed,part,whole⟩ | ⟨c1,part,whole⟩ | ⟨c1,rest,new,buf,part,whole⟩
      · rw [processPacketData_none part,processPacketData_none whole,observed_processPacketData closed]
      · rw [processPacketData_none part,processPacketData_congr whole]
      · rw [processPacketData_excessOf new buf part,processPacketData_excessOf new buf whole]
        have next := processRound_rests (h := h) live a
        rw [part] at next
        by_cases empty : rest = []
        · rw [empty,processPacketData_nil new buf,nil_append]
        · rw [excessOf,if_neg (by simpa using empty)] at part
          exact ih (c1.work rest) (left ▸ work_decreases part) next rest rfl

theorem observed_processPacketData_nil (rests : c.Rests) :
    observed (c.processPacketData h []).events = observed c.events := by
  rcases rests with closed | live
  · exact observed_processPacketData closed []
  · cases status : c.packet.status with
    | new =>
      by_cases buf : c.headerBuf = []
      · rw [processPacketData_nil status buf]
      · have round : c.processRound h [] = (c,none) := by
          rw [processRound,status,append_nil]
          exact processHeader_keeps { c with headerBuf := [] } buf (live.known buf) live.short
        rw [processPacketData_none round]
    | waitingData =>
      have short : ([] : Bytes).length < c.packet.size - c.packet.recv.length := by
        have := live.waits status
        rw [length_nil]
        omega
      have round : c.processRound h [] = ({ c with packet := c.packet.append [] },none) := by
        rw [processRound,status]
        exact finishPacket_short c short
      rw [processPacketData_none round]
    | ready | cryptNegotiating => rw [processPacketData_none (by rw [processRound,status])]

theorem handleBytes_plain (plain : Plain c.crypt) (md5 : Bytes → Bytes) (draws : Draws) (data : Bytes) :
    c.handleBytes h md5 draws data = c.processPacketData h data := by
  unfold handleBytes
  split
  · rfl
  next t crypt => rw [plain t crypt]

/-- Whatever the chunks, a plaintext session shows what reading their bytes at once shows. -/
theorem observed_feed (md5 : Bytes → Bytes) (draws : Draws) (chunks : List Bytes) (rests : c.Rests)
    (plain : Plain c.crypt) :
    observed (chunks.foldl (handleBytes h md5 draws) c).events = observed (c.handleBytes h md5 draws chunks.flatten).events := by
  refine Stream.observe_foldl (fun c : TcpClient σ ρ => observed c.events)
    (fun c : TcpClient σ ρ => c.Rests ∧ Plain c.crypt)
    (fun c data inv => ?_) (fun c inv => ?_) (fun c a b inv => ?_) chunks ⟨rests,plain⟩
  · rw [handleBytes_plain inv.2]
    exact ⟨processPacketData_rests inv.1 data,(c.processPacketData_goes data).plain inv.2⟩
  · rw [handleBytes_plain inv.2]
    exact observed_processPacketData_nil inv.1
  · have next := (c.processPacketData_goes (h := h) a).plain inv.2
    rw [handleBytes_plain inv.2,handleBytes_plain next,handleBytes_plain inv.2]
    exact observed_append_chunk inv.1 a b

/-- The packets dispatched before a session is first closed, and why it is closed, are the
same for every two ways of cutting its stream. -/
theorem framing_independent (h : Handlers σ ρ) (md5 : Bytes → Bytes) (draws : Draws) (state : σ) (crypt : Option TCPCrypt)
    (plain : Plain crypt) (first second : List Bytes) (same : first.flatten = second.flatten) :
    observed (first.foldl (handleBytes h md5 draws) { state := state, crypt := crypt }).events =
      observed (second.foldl (handleBytes h md5 draws) { state := state, crypt := crypt }).events := by
  have rests : TcpClient.Rests (ρ := ρ) { state := state, crypt := crypt } :=
    .inr ⟨rfl,rfl,Nat.succ_pos 5,fun some => absurd rfl some,fun _ => rfl,nofun⟩
  rw [observed_feed md5 draws first rests plain,observed_feed md5 draws second rests plain,same]

/-- A login cut into single bytes. -/
theorem framing_independent_login :
    observed (([[0xe3,1,0,0,0,0x01]] : List Bytes).foldl (handleBytes (ρ := Unit)
        ⟨fun logged => logged,fun _ => .error .corrupt,fun _ _ _ => (true,[]),[]⟩ id ⟨none,none⟩) { state := false }).events =
      observed (([[0xe3],[1],[0],[0],[0],[0x01]] : List Bytes).foldl (handleBytes (ρ := Unit)
        ⟨fun logged => logged,fun _ => .error .corrupt,fun _ _ _ => (true,[]),[]⟩ id ⟨none,none⟩) { state := false }).events :=
  framing_independent _ id ⟨none,none⟩ false none nofun _ _ rfl

end TcpClient

end ENode.Ed2k
