import CompostRpc.Resynchronisation

/-!
# Pairing of replies in a Python client

The payload that a call returns should come from its reply. The code compares the transaction
number only, and that with the first item in the queue, so a message without the response flag,
one with another identifier or an old one can be taken for the reply.
-/

namespace CompostRpc
open TransitionRun

variable {rpcs : Rpcs}

/-- What the call returns comes from a message received after the request was sent, with the
response flag, the identifier and the transaction number of the request. -/
def FinishedCall.Paired (received : List (Except PyError (List UInt8))) (r : FinishedCall) : Prop :=
  ∀ p, r.result = .ok p → ∃ d msgBytes msg, r.taken = some d ∧ r.call.sentAt ≤ d.stamp ∧
    received[d.stamp]? = some (.ok msgBytes) ∧ Msg.unpack msgBytes = .ok msg ∧
      r.call.isReply msg ∧ msg.payload = p

/-- A message with the transaction number of a call is its reply, if it is the first in the
queue since the request was sent. -/
def FinishedCall.OnlyReplies (r : FinishedCall) : Prop :=
  r.alive = true → ∀ d msg, r.call.front = some d → d.item = .ok msg →
    msg.header.txn = r.call.txn → r.call.isReply msg ∧ r.call.sentAt ≤ d.stamp

namespace Client

theorem Comes.unpack {received : List (Except PyError (List UInt8))} {d : Delivered} {msg : Msg}
    (h : Comes rpcs received d) (hmsg : d.item = .ok msg) :
    ∃ msgBytes, received[d.stamp]? = some (.ok msgBytes) ∧ Msg.unpack msgBytes = .ok msg := by
  obtain ⟨outcome, hreceived, hput⟩ := h
  rw [hmsg] at hput
  obtain ⟨msgBytes, rfl, hunpack, -⟩ := unpack_of_classify_put hput
  exact ⟨msgBytes, hreceived, hunpack⟩

theorem Settled.paired_iff {received : List (Except PyError (List UInt8))} {r : FinishedCall}
    (h : Settled rpcs received r) : r.Paired received ↔ r.OnlyReplies := by
  constructor
  · intro hpaired halive d msg hfront hmsg htxn
    have hresult : r.result = .ok msg.payload :=
      h.result_eq_ok.mpr ⟨halive, d, hfront, msg, hmsg, htxn, rfl⟩
    obtain ⟨d', msgBytes, msg', htaken, hstamp, hreceived, hunpack, hreply, -⟩ :=
      hpaired _ hresult
    rw [h.taken_eq, halive, if_pos rfl, hfront] at htaken
    obtain rfl := Option.some.inj htaken
    obtain ⟨msgBytes', hreceived', hunpack'⟩ := (h.front_comes d hfront).unpack hmsg
    obtain rfl : msgBytes' = msgBytes :=
      Except.ok.inj (Option.some.inj (hreceived'.symm.trans hreceived))
    obtain rfl : msg = msg' := Except.ok.inj (hunpack'.symm.trans hunpack)
    exact ⟨hreply, hstamp⟩
  · intro honly p hp
    obtain ⟨halive, d, hfront, msg, hmsg, htxn, hpayload⟩ := h.result_eq_ok.mp hp
    obtain ⟨hreply, hstamp⟩ := honly halive d msg hfront hmsg htxn
    obtain ⟨msgBytes, hreceived, hunpack⟩ := (h.front_comes d hfront).unpack hmsg
    refine ⟨d, msgBytes, msg, ?_, hstamp, hreceived, hunpack, hreply, hpayload⟩
    rw [h.taken_eq, halive, if_pos rfl, hfront]

/-- In every run, what the calls return comes from their replies if and only if only replies are
first in the queue with the transaction number of a call. -/
theorem paired_iff_onlyReplies {s : Client} {es : List SessionEvent}
    (hrun : run (Client.step rpcs) init es = some s) :
    (∀ r ∈ s.finished, r.Paired s.received) ↔ ∀ r ∈ s.finished, r.OnlyReplies :=
  forall₂_congr fun r hr => ((consistent_of_run hrun).settled r hr).paired_iff

set_option maxRecDepth 10000 in
theorem paired_answeredPing :
    ∃ s, run (Client.step pingRpcs) init answeredPing = some s ∧
      s.finished.map FinishedCall.result = [.ok []] ∧
        ∀ r ∈ s.finished, r.Paired s.received := by
  refine ⟨_, rfl, rfl, (@paired_iff_onlyReplies pingRpcs _ answeredPing rfl).mpr ?_⟩
  intro r hr _ d msg hfront hmsg _
  obtain rfl := List.mem_singleton.mp hr
  obtain rfl := Option.some.inj hfront
  obtain rfl := Except.ok.inj hmsg
  exact ⟨⟨rfl, rfl, rfl⟩, Nat.le_refl 0⟩

def twoRpcs : Rpcs := fun rpcId => if rpcId = 1 ∨ rpcId = 2 then some .nil else none

def crossedPing : List SessionEvent :=
  [.rpc 1 [] false, .checkListener, .receive (.ok [1, 2, 0, 2, 7, 7, 7, 7]) false false, .get]

set_option maxRecDepth 10000 in
/-- A call returns the payload of a message without the response flag and with another
identifier. -/
theorem not_paired_crossedPing :
    ¬ ∀ (rpcs : Rpcs) (es : List SessionEvent) (s : Client),
        run (Client.step rpcs) init es = some s →
          ∀ r ∈ s.finished, r.Paired s.received := by
  intro h
  have hcrossed := h twoRpcs crossedPing _ rfl _ (.head _) [7, 7, 7, 7] rfl
  obtain ⟨d, msgBytes, msg, htaken, -, hreceived, hunpack, hreply, -⟩ := hcrossed
  obtain rfl := Option.some.inj htaken
  obtain rfl := Except.ok.inj (Option.some.inj hreceived)
  obtain rfl := Except.ok.inj hunpack
  exact absurd hreply.1 (by decide)

end Client

end CompostRpc
