import Hermod.TraceForwarder

/-!
The handle through which traces are put into the queue of a forwarder. There are two ways
to send a trace, one of which waits for room in the queue.
-/
namespace Hermod.ForwarderHandle

open ProtocolTypes TraceForwarder

inductive ForwarderError
  | io (error : String)
  | multiplexer (error : String)
  | handshakeRefused
  | unexpectedHandshake
  | connectionClosed
  | queueFull
  deriving DecidableEq

def ForwarderError.display : ForwarderError → String
  | .io error => "IO error: " ++ error
  | .multiplexer error => "Multiplexer error: " ++ error
  | .handshakeRefused => "Handshake refused"
  | .unexpectedHandshake => "Unexpected handshake message"
  | .connectionClosed => "Connection closed unexpectedly"
  | .queueFull => "Trace queue full, dropping traces"

/-- Sending waits for room in the queue; it fails when nobody receives any more. -/
def send (queueSize : ℕ) (f : Forwarder) (trace : TraceObject) :
    Option (Except ForwarderError Forwarder) :=
  if f.status = .finished then some (.error .queueFull)
  else (f.step queueSize (.accept trace)).map .ok

def trySend (queueSize : ℕ) (f : Forwarder) (trace : TraceObject) :
    Except ForwarderError Forwarder :=
  match f.step queueSize (.accept trace) with
  | some f => .ok f
  | none => .error .queueFull

def CanSend (queueSize : ℕ) (f : Forwarder) : Prop :=
  f.status = .finished ∨ f.queue.length < queueSize

theorem send_isSome_iff {queueSize : ℕ} {f : Forwarder} {trace : TraceObject} :
    (send queueSize f trace).isSome ↔ CanSend queueSize f := by
  unfold send CanSend
  by_cases hfinished : f.status = .finished
  · simp [hfinished]
  · by_cases hroom : f.queue.length < queueSize
    · simp [Forwarder.step, hfinished, hroom]
    · simp [Forwarder.step, hfinished, hroom]

/-- With a full queue, sending fails only when nobody receives any more. -/
theorem send_queueFull_iff {queueSize : ℕ} {f : Forwarder} (trace : TraceObject)
    (hfull : queueSize ≤ f.queue.length) :
    send queueSize f trace = some (.error .queueFull) ↔ f.status = .finished := by
  unfold send
  by_cases hfinished : f.status = .finished
  · simp [hfinished]
  · have hroom : ¬ f.queue.length < queueSize := Nat.not_lt.mpr hfull
    simp [Forwarder.step, hfinished, hroom]

theorem send_error {queueSize : ℕ} {f : Forwarder} {trace : TraceObject} {e : ForwarderError}
    (h : send queueSize f trace = some (.error e)) : f.status = .finished := by
  by_contra hfinished
  simp [send, hfinished] at h

/-- A trace that is sent is at the end of the queue. -/
theorem send_ok {queueSize : ℕ} {f f' : Forwarder} {trace : TraceObject}
    (h : send queueSize f trace = some (.ok f')) :
    f.status ≠ .finished ∧ f'.status = f.status ∧ f'.queue = f.queue ++ [trace] := by
  unfold send at h
  split at h
  · cases h
  · rename_i hfinished
    obtain ⟨f'', haccept, hok⟩ := Option.map_eq_some_iff.mp h
    rw [Except.ok.injEq] at hok
    subst hok
    simp only [Forwarder.step] at haccept
    split at haccept
    · rw [← Option.some.inj haccept]
      exact ⟨hfinished, rfl, rfl⟩
    · cases haccept

def Open (queueSize : ℕ) (f : Forwarder) : Prop :=
  f.status ≠ .finished ∧ f.queue.length < queueSize

instance (queueSize : ℕ) (f : Forwarder) : Decidable (Open queueSize f) :=
  inferInstanceAs (Decidable (_ ∧ _))

theorem trySend_of_open {queueSize : ℕ} {f : Forwarder} (trace : TraceObject)
    (h : Open queueSize f) : trySend queueSize f trace =
      .ok { f with queue := f.queue ++ [trace], accepted := f.accepted ++ [trace] } := by
  rw [Open] at h
  simp [trySend, Forwarder.step, h]

/-- Trying to send fails at once where sending waits, or fails. -/
theorem trySend_of_not_open {queueSize : ℕ} {f : Forwarder} (trace : TraceObject)
    (h : ¬ Open queueSize f) : trySend queueSize f trace = .error .queueFull := by
  rw [Open] at h
  simp only [trySend, Forwarder.step, if_neg h]

end Hermod.ForwarderHandle
