import ENode.SessionRuntime

/-! Which NAT keepalives of a session are believed. The mac, `natProofMAC` in the source, is a
parameter. The history alone says what is: the token in force and what was accepted under it. -/
namespace ENode.Ed2k

open GoText ByteNumbers

structure NatSessionState where
  token : Bytes := List.replicate 16 0
  hasToken : Bool := false
  counter : Nat := 0
  obfuscated : Bool := false

structure NatCallbackTarget (Client : Type) where
  client : Client
  ipv4 : Nat
  sessionIP : Option Address

/-- A datagram, and what the runtime knows of its sessions when it is read. -/
structure NatKeepalive (Client : Type) where
  foreignCallbackEnabled : Bool
  sessionByHash : Bytes → Option Client
  idOf : Client → Nat
  natCallbackPeer : Nat → Option (NatCallbackTarget Client)
  remote : Address
  port : Int
  payload : Bytes
  obfuscated : Bool

inductive NatEvent (Client : Type) where
  | keepalive (k : NatKeepalive Client)
  | issue (c : Client) (token : Bytes)
  | release (c : Client)

def natProofLen : Nat := 36

namespace NatKeepalive

variable {Client : Type} (k : NatKeepalive Client)

def hash : Bytes := k.payload.take 16
def rest : Bytes := k.payload.drop 16
def counter : Nat := leValue (k.rest.take 4)
def isProof : Bool := decide (16 + k.rest.length = natProofLen)

/-- The session a keepalive is for, if the runtime has one. -/
def target [DecidableEq Client] : Option (NatCallbackTarget Client) :=
  if !k.foreignCallbackEnabled || decide (k.port ≤ 0) || decide (k.port > 0xffff) then none
  else if k.hash.length ≠ 16 then none
  else (k.sessionByHash k.hash).bind fun c => (k.natCallbackPeer (k.idOf c)).filter fun target => target.client = c

def sameIP (target : NatCallbackTarget Client) : Bool :=
  match k.remote with
  | .v4 ip => ip == target.ipv4
  | .v6 _ => target.sessionIP == some k.remote

end NatKeepalive

variable {Client : Type} [DecidableEq Client]

def setToken (n : GoMap Client NatSessionState) (c : Client) (token : Bytes) : GoMap Client NatSessionState :=
  n.insert c { token := token, hasToken := true }

def dropSession (n : GoMap Client NatSessionState) (c : Client) : GoMap Client NatSessionState := n.erase c

/-- A session without state reads as one with the empty state. -/
def natState (n : GoMap Client NatSessionState) (c : Client) : NatSessionState := (n.lookup c).getD {}

section
variable (mac : Bytes → Bytes → Nat → Bytes)

/-- The counter of a good proof, none without one, or why it is no keepalive at all. -/
def checkProof (st : NatSessionState) (k : NatKeepalive Client) : Except String (Option Nat) :=
  if k.isProof then
    if !st.hasToken then .error "proof-without-token"
    else if mac st.token k.hash k.counter ≠ (k.rest.take 20).drop 4 then .error "proof-bad"
    else if k.counter ≤ st.counter then .error "proof-replay"
    else .ok (some k.counter)
  else .ok none

/-- The sessions after it, whether it is accepted, whether it proves an address, and why it is not. -/
def checkKeepalive (n : GoMap Client NatSessionState) (c : Client) (k : NatKeepalive Client) (sameIP : Bool) :
    GoMap Client NatSessionState × Bool × Bool × String :=
  let st := natState n c
  match checkProof mac st k with
  | .error why => (n,false,false,why)
  | .ok proof =>
    if !k.obfuscated && proof.isNone && st.obfuscated then (n,false,false,"plain-after-obfuscated")
    else if !sameIP && proof.isNone then (n,false,false,"wrong-address")
    else if (n.lookup c).isNone && !k.obfuscated then (n,true,false,"")
    else (n.insert c { st with counter := proof.getD st.counter, obfuscated := st.obfuscated || k.obfuscated },
      true,proof.isSome && !sameIP,"")

def udpNatKeepalive (n : GoMap Client NatSessionState) (k : NatKeepalive Client) :
    GoMap Client NatSessionState × Bool × Bool × String :=
  match k.target with
  | none => (n,false,false,"")
  | some target => checkKeepalive mac n target.client k (k.sameIP target)

/-- The state after a history, newest event first. -/
def natSessions : List (NatEvent Client) → GoMap Client NatSessionState
  | [] => ∅
  | .keepalive k :: past => (udpNatKeepalive mac (natSessions past) k).1
  | .issue c token :: past => setToken (natSessions past) c token
  | .release c :: past => dropSession (natSessions past) c

/-- Read after the history, it is accepted as one of the session. -/
def Believed (past : List (NatEvent Client)) (c : Client) (k : NatKeepalive Client) : Bool :=
  k.target.any (fun target => target.client = c) && (udpNatKeepalive mac (natSessions mac past) k).2.1

/-- The keepalives of a session accepted since it was last issued a token or released. -/
def acceptedSince (c : Client) : List (NatEvent Client) → List (NatKeepalive Client)
  | [] => []
  | .keepalive k :: past => if Believed mac past c k then k :: acceptedSince c past else acceptedSince c past
  | .issue d _ :: past | .release d :: past => if d = c then [] else acceptedSince c past

/-- The token in force: issued last, and the session has not been released since. -/
def tokenOf (c : Client) : List (NatEvent Client) → Option Bytes
  | [] => none
  | .keepalive _ :: past => tokenOf c past
  | .issue d token :: past => if d = c then some token else tokenOf c past
  | .release d :: past => if d = c then none else tokenOf c past

/-- It has the mac of the token in force and a counter above all that were accepted under it. -/
def Proves (past : List (NatEvent Client)) (c : Client) (k : NatKeepalive Client) : Prop :=
  (∃ token, tokenOf c past = some token ∧ mac token k.hash k.counter = (k.rest.take 20).drop 4) ∧
    ∀ a ∈ acceptedSince mac c past, a.isProof = true → a.counter < k.counter

/-- What a session in this state accepts. -/
def NatSessionState.believes (st : NatSessionState) (k : NatKeepalive Client) (sameIP : Bool) : Bool :=
  if k.isProof then
    st.hasToken && decide (mac st.token k.hash k.counter = (k.rest.take 20).drop 4) && decide (st.counter < k.counter)
  else sameIP && (k.obfuscated || !st.obfuscated)

def NatSessionState.accept (st : NatSessionState) (k : NatKeepalive Client) : NatSessionState := { st with
  counter := if k.isProof then k.counter else st.counter, obfuscated := st.obfuscated || k.obfuscated }

theorem checkKeepalive_spec (n : GoMap Client NatSessionState) (c d : Client) (k : NatKeepalive Client) (sameIP : Bool) :
    let out := checkKeepalive mac n c k sameIP
    let believes := (natState n c).believes mac k sameIP
    out.2.1 = believes ∧ natState out.1 d = if d = c ∧ believes = true then (natState n c).accept k else natState n d := by
  have written : ∀ st, natState (n.insert c st) d = if d = c then st else natState n d := by
    intro _
    rw [natState,GoMap.lookup_insert_ite]
    split <;> rfl
  -- without a state nothing is written for a plain keepalive, and there is no token
  have absent : (n.lookup c).isNone = true → natState n c = {} := by
    intro none_
    rw [natState,Option.isNone_iff_eq_none.mp none_,Option.getD_none]
  unfold checkKeepalive checkProof NatSessionState.believes
  by_cases form : k.isProof = true
  · cases token : (natState n c).hasToken with
    | false => simp [form,token]
    | true =>
      have known : (n.lookup c).isNone = false := by
        by_contra none_
        rw [absent (by simpa using none_)] at token
        cases token
      by_cases good : mac (natState n c).token k.hash k.counter = (k.rest.take 20).drop 4
      · by_cases newer : (natState n c).counter < k.counter
        · simp [form,token,good,newer,Nat.not_le.mpr newer,known,written,NatSessionState.accept]
        · simp [form,token,good,newer,Nat.not_lt.mp newer]
      · simp [form,token,good]
  · cases known : (n.lookup c).isNone with
    | true =>
      have empty := absent known
      cases sameIP <;> cases hidden : k.obfuscated <;> simp [form,hidden,written,NatSessionState.accept,empty]
      exact fun same => same ▸ empty
    | false =>
      cases sameIP <;> cases hidden : k.obfuscated <;> cases veil : (natState n c).obfuscated <;>
        simp [form,hidden,written,NatSessionState.accept,veil]

section
variable (past : List (NatEvent Client)) (c : Client) (k : NatKeepalive Client)

theorem believed_eq : Believed mac past c k = k.target.any fun target => decide (target.client = c) &&
    (natState (natSessions mac past) c).believes mac k (k.sameIP target) := by
  unfold Believed udpNatKeepalive
  cases k.target with
  | none => rfl
  | some target =>
    by_cases own : target.client = c
    · simp [own,checkKeepalive_spec mac (natSessions mac past) c c k]
    · simp [own]

theorem natState_keepalive : natState (natSessions mac (.keepalive k :: past)) c =
    if Believed mac past c k then (natState (natSessions mac past) c).accept k else natState (natSessions mac past) c := by
  rw [believed_eq,natSessions,udpNatKeepalive]
  cases k.target with
  | none => rfl
  | some target =>
    rw [(checkKeepalive_spec mac _ target.client c k _).2]
    by_cases own : target.client = c
    · simp [own]
    · simp [own,Ne.symm own]

/-- The state of a session says what its history says. -/
structure Recalls (st : NatSessionState) : Prop where
  token : tokenOf c past = if st.hasToken then some st.token else none
  counters : ∀ a ∈ acceptedSince mac c past, a.isProof = true → a.counter ≤ st.counter
  veil : st.obfuscated = (acceptedSince mac c past).any (·.obfuscated)

theorem recalls : Recalls mac past c (natState (natSessions mac past) c) := by
  induction past with
  | nil => exact ⟨rfl,by simp [acceptedSince],rfl⟩
  | cons e past ih =>
    cases e with
    | keepalive k =>
      rw [natState_keepalive]
      split
      next accepted =>
        refine ⟨ih.token,?_,by simp [acceptedSince,accepted,NatSessionState.accept,ih.veil,Bool.or_comm]⟩
        rw [acceptedSince,if_pos accepted]
        intro a member form
        rcases List.mem_cons.mp member with rfl | earlier
        · simp [NatSessionState.accept,form]
        · have below := ih.counters a earlier form
          rw [believed_eq,Option.any_eq_true] at accepted
          obtain ⟨_,-,believed⟩ := accepted
          by_cases proof : k.isProof = true
          · simp [NatSessionState.believes,proof] at believed
            simp [NatSessionState.accept,proof]
            omega
          · simp [NatSessionState.accept,proof,below]
      next refused =>
        refine ⟨ih.token,?_,?_⟩ <;> rw [acceptedSince,if_neg refused]
        exacts [ih.counters,ih.veil]
    | issue d token | release d =>
      by_cases here : d = c
      · refine ⟨?_,?_,?_⟩ <;> simp [natSessions,setToken,dropSession,natState,tokenOf,acceptedSince,here]
      · have same : ∀ token, natState (setToken (natSessions mac past) d token) c = natState (natSessions mac past) c ∧
            natState (dropSession (natSessions mac past) d) c = natState (natSessions mac past) c := by
          simp [setToken,dropSession,natState,AList.lookup_insert_ne (Ne.symm here),AList.lookup_erase_ne (Ne.symm here)]
        refine ⟨?_,?_,?_⟩ <;> simp only [natSessions,tokenOf,acceptedSince,here,if_false,(same _).1,(same []).2]
        exacts [ih.token,ih.counters,ih.veil]

end

end

variable {mac : Bytes → Bytes → Nat → Bytes} {past : List (NatEvent Client)} {c : Client} {k : NatKeepalive Client}

theorem proves_of_believed (accepts : Believed mac past c k = true) (form : k.isProof = true) : Proves mac past c k := by
  have knows := recalls mac past c
  rw [believed_eq,Option.any_eq_true] at accepts
  obtain ⟨_,-,believed⟩ := accepts
  simp only [NatSessionState.believes,form,if_true,Bool.and_eq_true,decide_eq_true_eq] at believed
  obtain ⟨-,⟨token,good⟩,newer⟩ := believed
  exact ⟨⟨_,by rw [knows.token,if_pos token],good⟩,fun a earlier proof => (knows.counters a earlier proof).trans_lt newer⟩

theorem proofs_rise (mac : Bytes → Bytes → Nat → Bytes) (past : List (NatEvent Client)) (c : Client) :
    ((acceptedSince mac c past).filter (·.isProof)).Pairwise (fun later earlier => earlier.counter < later.counter) := by
  induction past with
  | nil => exact List.Pairwise.nil
  | cons e _ ih =>
    cases e with
    | keepalive _ =>
      rw [acceptedSince]
      split_ifs with accepted
      · rw [List.filter_cons]
        split_ifs with form
        · refine List.Pairwise.cons (fun a earlier => ?_) ih
          obtain ⟨within,proof⟩ := List.mem_filter.mp earlier
          exact (proves_of_believed accepted form).2 a within proof
        · exact ih
      · exact ih
    | issue d | release _ =>
      rw [acceptedSince]
      split_ifs
      · exact List.Pairwise.nil
      · exact ih

/-- A keepalive accepted from an address that is not the session's is a proof, as is a plain one
accepted after an obfuscated one; and of the proofs accepted under one token each has a counter
above those before it. -/
theorem keepalives_unforged (mac : Bytes → Bytes → Nat → Bytes) (past : List (NatEvent Client)) (c : Client) :
    (∀ k, Believed mac past c k = true → ∃ target, k.target = some target ∧ target.client = c ∧
      (k.sameIP target = false → k.isProof = true) ∧
      (k.obfuscated = false → (∃ a ∈ acceptedSince mac c past, a.obfuscated = true) → k.isProof = true) ∧
      (k.isProof = true → Proves mac past c k)) ∧
    ((acceptedSince mac c past).filter (·.isProof)).Pairwise (fun later earlier => earlier.counter < later.counter) := by
  refine ⟨fun _ accepts => ?_,proofs_rise mac past c⟩
  have proves := proves_of_believed accepts
  rw [believed_eq,Option.any_eq_true] at accepts
  obtain ⟨target,meant,believed⟩ := accepts
  rw [Bool.and_eq_true,decide_eq_true_iff] at believed
  refine ⟨target,meant,believed.1,fun away => ?_,fun plain veiled => ?_,proves⟩
  · by_contra form
    simp [NatSessionState.believes,form,away] at believed
  · by_contra form
    have veil := (recalls mac past c).veil
    rw [List.any_eq_true.mpr veiled] at veil
    simp [NatSessionState.believes,form,plain,veil] at believed

end ENode.Ed2k
