import CompostRpc.TransitionRun
import Mathlib.Logic.Function.Basic
import Mathlib.Data.UInt

/-!
# The session of a C# client

Any number of calls run `InvokeRawRpcAsync`, and one task runs `ReadMessagesAsync`. They meet in the
table of pending transactions, a slot for each number. A step is what happens under one lock, or the
decision of `Task.WhenAny` between the response and the timeout, or a continuation after it.
-/

namespace CompostRpc
open TransitionRun

structure CsMessage where
  txn : UInt8
  rpcId : UInt16
  resp : Bool
  payload : List UInt8

inductive Response
  | pending
  | set (msg : CsMessage)
  | canceled

inductive CallPhase
  | aquired | added | written | timedOut | finished
  deriving DecidableEq

structure CsCall where
  txnID : UInt8
  phase : CallPhase
  response : Response

structure Transaction where
  call : ℕ
  txnID : UInt8

inductive RemovalCause
  | response (txn : UInt8)
  | timeout (call : ℕ)
  | clear

structure Removal where
  transaction : Transaction
  cause : RemovalCause

/-- The transaction that the read task holds is the one it fetched and has not completed yet. -/
structure CsSession where
  txnCounter : UInt8
  txnDict : UInt8 → Option Transaction
  calls : List CsCall
  fetched : Option (Transaction × CsMessage)
  removed : List Removal

inductive CsEvent
  | aquire
  | addTransaction (call : ℕ)
  | writeMessage (call : ℕ) (throws : Bool)
  | timeout (call : ℕ)
  | timeoutRemove (call : ℕ)
  | complete (call : ℕ)
  | readMessage (msg : CsMessage)
  | setResponse
  | clearTransactions

def CsCall.trySet (c : CsCall) (response : Response) : CsCall :=
  match c.response with
  | .pending => { c with response := response }
  | _ => c

def CsCall.enter (c : CsCall) (phase : CallPhase) : CsCall := { c with phase := phase }

namespace CsSession

def init : CsSession := ⟨1, fun _ => none, [], none, []⟩

def updateCall (s : CsSession) (k : ℕ) (f : CsCall → CsCall) : CsSession :=
  { s with calls := s.calls.modify k f }

def nextCounter (txnCounter : UInt8) : UInt8 :=
  UInt8.ofNat (if txnCounter.toNat + 1 = 0 then 1 else txnCounter.toNat + 1)

def aquireNextTxnId (s : CsSession) : CsSession :=
  { s with
    txnCounter := nextCounter s.txnCounter
    calls := s.calls ++ [⟨s.txnCounter, .aquired, .pending⟩] }

def setSlot (s : CsSession) (i : UInt8) (t : Option Transaction) : CsSession :=
  { s with txnDict := Function.update s.txnDict i t }

def addTransaction (s : CsSession) (k : ℕ) (c : CsCall) : CsSession :=
  match s.txnDict c.txnID with
  | some _ => s.updateCall k (·.enter .finished)
  | none => (s.updateCall k (·.enter .added)).setSlot c.txnID (some ⟨k, c.txnID⟩)

def fetchAndRemoveTransaction (s : CsSession) (txnId : UInt8) (cause : RemovalCause) :
    CsSession :=
  { s.setSlot txnId none with
    removed := s.removed ++ (s.txnDict txnId).toList.map fun t => ⟨t, cause⟩ }

/-- Only a response reaches the table; other messages are notifications or are dropped. -/
def readMessage (s : CsSession) (msg : CsMessage) : CsSession :=
  if msg.resp then
    { s.fetchAndRemoveTransaction msg.txn (.response msg.txn) with
      fetched := (s.txnDict msg.txn).map fun t => (t, msg) }
  else s

def clearSlot (s : CsSession) (i : UInt8) : CsSession :=
  match s.txnDict i with
  | some t => (s.updateCall t.call (·.trySet .canceled)).fetchAndRemoveTransaction i .clear
  | none => s

def clearTransactions (s : CsSession) : CsSession :=
  ((List.range 256).map UInt8.ofNat).foldl clearSlot s

/-- The call number `k`, if it is in the phase. -/
def callIn (s : CsSession) (k : ℕ) (phase : CallPhase) : Option CsCall :=
  s.calls[k]?.filter fun c => c.phase = phase

def step (s : CsSession) : CsEvent → Option CsSession
  | .aquire => some s.aquireNextTxnId
  | .addTransaction k => (s.callIn k .aquired).map fun c => s.addTransaction k c
  | .writeMessage k throws =>
    (s.callIn k .added).map fun _ =>
      s.updateCall k (·.enter (if throws then .finished else .written))
  | .timeout k =>
    (s.callIn k .written).bind fun c =>
      match c.response with
      | .pending => some (s.updateCall k (·.enter .timedOut))
      | _ => none
  | .timeoutRemove k =>
    (s.callIn k .timedOut).map fun c =>
      (s.updateCall k (·.enter .finished)).fetchAndRemoveTransaction c.txnID (.timeout k)
  | .complete k =>
    (s.callIn k .written).bind fun c =>
      match c.response with
      | .pending => none
      | _ => some (s.updateCall k (·.enter .finished))
  | .readMessage msg =>
    match s.fetched with
    | some _ => none
    | none => some (s.readMessage msg)
  | .setResponse =>
    s.fetched.map fun (t, msg) =>
      { s.updateCall t.call (·.trySet (.set msg)) with fetched := none }
  | .clearTransactions => some s.clearTransactions

@[simp] theorem setSlot_txnDict_self (s : CsSession) (i : UInt8) (t : Option Transaction) :
    (s.setSlot i t).txnDict i = t := Function.update_self ..

theorem setSlot_txnDict_of_ne (s : CsSession) {i j : UInt8} (t : Option Transaction) (h : j ≠ i) :
    (s.setSlot i t).txnDict j = s.txnDict j := Function.update_of_ne h ..

@[simp] theorem updateCall_calls_length (s : CsSession) (k : ℕ) (f : CsCall → CsCall) :
    (s.updateCall k f).calls.length = s.calls.length := List.length_modify ..

theorem getElem?_updateCall {s : CsSession} {k : ℕ} {c : CsCall} (h : s.calls[k]? = some c)
    (f : CsCall → CsCall) : (s.updateCall k f).calls[k]? = some (f c) := by
  simp [updateCall, h]

theorem getElem?_updateCall_of_ne (s : CsSession) {j k : ℕ} (h : j ≠ k) (f : CsCall → CsCall) :
    (s.updateCall k f).calls[j]? = s.calls[j]? := by
  simp [updateCall, h.symm]

theorem callIn_eq_some {s : CsSession} {k : ℕ} {phase : CallPhase} {c : CsCall}
    (h : s.callIn k phase = some c) : s.calls[k]? = some c ∧ c.phase = phase := by
  obtain ⟨hcall, hphase⟩ := Option.filter_eq_some_iff.mp h
  exact ⟨hcall, of_decide_eq_true hphase⟩

inductive Stepped (s : CsSession) : CsEvent → CsSession → Prop
  | aquire : Stepped s .aquire s.aquireNextTxnId
  | addTransaction {k : ℕ} {c : CsCall} (hcall : s.calls[k]? = some c)
    (hphase : c.phase = .aquired) :
    Stepped s (.addTransaction k) (s.addTransaction k c)
  | writeMessage {k : ℕ} {c : CsCall} {phase : CallPhase} (hcall : s.calls[k]? = some c)
    (hphase : c.phase = .added) (throws : Bool)
    (hnext : phase = if throws then .finished else .written) :
    Stepped s (.writeMessage k throws) (s.updateCall k (·.enter phase))
  | timeout {k : ℕ} {c : CsCall} (hcall : s.calls[k]? = some c) (hphase : c.phase = .written)
    (hresponse : c.response = .pending) :
    Stepped s (.timeout k) (s.updateCall k (·.enter .timedOut))
  | timeoutRemove {k : ℕ} {c : CsCall} (hcall : s.calls[k]? = some c)
    (hphase : c.phase = .timedOut) :
    Stepped s (.timeoutRemove k)
      ((s.updateCall k (·.enter .finished)).fetchAndRemoveTransaction c.txnID (.timeout k))
  | complete {k : ℕ} {c : CsCall} (hcall : s.calls[k]? = some c) (hphase : c.phase = .written)
    (hresponse : c.response ≠ .pending) :
    Stepped s (.complete k) (s.updateCall k (·.enter .finished))
  | readMessage (msg : CsMessage) (hfetched : s.fetched = none) :
    Stepped s (.readMessage msg) (s.readMessage msg)
  | setResponse {t : Transaction} {msg : CsMessage} (hfetched : s.fetched = some (t, msg)) :
    Stepped s .setResponse { s.updateCall t.call (·.trySet (.set msg)) with fetched := none }
  | clearTransactions : Stepped s .clearTransactions s.clearTransactions

theorem stepped_of_step {s s' : CsSession} {e : CsEvent} (h : step s e = some s') :
    Stepped s e s' := by
  cases e with
  | aquire =>
    obtain rfl := Option.some.inj h
    exact .aquire
  | addTransaction k =>
    obtain ⟨c, hc, rfl⟩ := Option.map_eq_some_iff.mp h
    obtain ⟨hcall, hphase⟩ := callIn_eq_some hc
    exact .addTransaction hcall hphase
  | writeMessage k throws =>
    obtain ⟨c, hc, rfl⟩ := Option.map_eq_some_iff.mp h
    obtain ⟨hcall, hphase⟩ := callIn_eq_some hc
    exact .writeMessage hcall hphase throws rfl
  | timeout k =>
    obtain ⟨c, hc, hresponse⟩ := Option.bind_eq_some_iff.mp h
    obtain ⟨hcall, hphase⟩ := callIn_eq_some hc
    split at hresponse
    · rename_i hpending
      obtain rfl := Option.some.inj hresponse
      exact .timeout hcall hphase hpending
    · cases hresponse
  | timeoutRemove k =>
    obtain ⟨c, hc, rfl⟩ := Option.map_eq_some_iff.mp h
    obtain ⟨hcall, hphase⟩ := callIn_eq_some hc
    exact .timeoutRemove hcall hphase
  | complete k =>
    obtain ⟨c, hc, hresponse⟩ := Option.bind_eq_some_iff.mp h
    obtain ⟨hcall, hphase⟩ := callIn_eq_some hc
    split at hresponse
    · cases hresponse
    · rename_i hcompleted
      obtain rfl := Option.some.inj hresponse
      exact .complete hcall hphase hcompleted
  | readMessage msg =>
    simp only [step] at h
    split at h
    · cases h
    · rename_i hfetched
      obtain rfl := Option.some.inj h
      exact .readMessage msg hfetched
  | setResponse =>
    obtain ⟨⟨t, msg⟩, hfetched, rfl⟩ := Option.map_eq_some_iff.mp h
    exact .setResponse hfetched
  | clearTransactions =>
    obtain rfl := Option.some.inj h
    exact .clearTransactions

/-- The call that an event is a step of, and its phase before. -/
def phaseBefore : CsEvent → Option (ℕ × CallPhase)
  | .addTransaction k => some (k, .aquired)
  | .writeMessage k _ => some (k, .added)
  | .timeout k | .complete k => some (k, .written)
  | .timeoutRemove k => some (k, .timedOut)
  | .aquire | .readMessage _ | .setResponse | .clearTransactions => none

theorem phase_of_step {s s' : CsSession} {e : CsEvent} (h : step s e = some s') {k : ℕ}
    {phase : CallPhase} (hbefore : phaseBefore e = some (k, phase)) :
    ∃ c, s.calls[k]? = some c ∧ c.phase = phase := by
  cases stepped_of_step h with
  | addTransaction hcall hphase | writeMessage hcall hphase | timeout hcall hphase
  | timeoutRemove hcall hphase | complete hcall hphase =>
    obtain ⟨rfl, rfl⟩ := Prod.mk.inj (Option.some.inj hbefore)
    exact ⟨_, hcall, hphase⟩
  | aquire | readMessage | setResponse | clearTransactions => cases hbefore

end CsSession

end CompostRpc
