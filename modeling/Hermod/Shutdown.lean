import Hermod.TraceForwarder

/-!
When the queue of a forwarder is closed. It is closed once it has no sender left, and the
forwarder keeps one for itself, to make handles from, as long as it runs. After its users
have gone it waits for a trace for ever.
-/
namespace Hermod.Shutdown

open ProtocolTypes TraceForwardClient TraceForwarder Transitions

inductive Received
  | trace (t : TraceObject)
  | closed
  /-- The receive waits. -/
  | pending
  deriving DecidableEq

def recv (queue : List TraceObject) (senders : ℕ) : Received :=
  match queue with
  | t :: _ => .trace t
  | [] => if senders = 0 then .closed else .pending

/-- A forwarder with the senders of its queue that are alive. How many of them are the
handles of users is kept as history. -/
structure Process where
  forwarder : Forwarder
  isRunning : Bool
  senders : ℕ
  users : ℕ
  deriving DecidableEq

inductive Event
  /-- A user gets a handle from the forwarder. -/
  | handle
  | clone
  | drop
  | send (t : TraceObject)
  /-- `run` takes over the forwarder. -/
  | run
  | connect
  | handshake (accepted : Bool)
  | recv
  | wire (e : WireEvent)

namespace Process

def new : Process := ⟨Forwarder.start, false, 1, 0⟩

/-- The forwarder goes on. When `run` returns, it is dropped with its sender. -/
def proceed (s : Process) (f : Forwarder) : Process :=
  { s with forwarder := f, senders := if f.status = .finished then s.senders - 1 else s.senders }

/-- The first receive of a batch waits. -/
def receive (queueSize : ℕ) (s : Process) : Option Process :=
  match s.forwarder.status with
  | .serving session =>
    match session.phase, recv s.forwarder.queue s.senders with
    | .waiting, .closed =>
      some (s.proceed { s.forwarder with
        status := .finished, past := s.forwarder.past ++ [session] })
    | .waiting, .pending => none
    | _, _ => (s.forwarder.step queueSize .recv).map s.proceed
  | _ => none

def step (queueSize : ℕ) (s : Process) : Event → Option Process
  | .handle =>
    if s.isRunning then none
    else some { s with senders := s.senders + 1, users := s.users + 1 }
  | .clone =>
    if 0 < s.users then some { s with senders := s.senders + 1, users := s.users + 1 } else none
  | .drop =>
    if 0 < s.users then some { s with senders := s.senders - 1, users := s.users - 1 } else none
  | .send t =>
    if 0 < s.users then
      (s.forwarder.step queueSize (.accept t)).map fun f => { s with forwarder := f }
    else none
  | .run => if s.isRunning then none else some { s with isRunning := true }
  | .connect =>
    if s.isRunning then (s.forwarder.step queueSize .connect).map s.proceed else none
  | .handshake accepted => (s.forwarder.step queueSize (.handshake accepted)).map s.proceed
  | .recv => s.receive queueSize
  | .wire e => (s.forwarder.step queueSize (.wire e)).map s.proceed

end Process

/-- Beside the users the forwarder has a sender until `run` returns. -/
structure Owned (s : Process) : Prop where
  counted : s.forwarder.status ≠ .finished → s.senders = s.users + 1
  started : s.forwarder.status ≠ .disconnected → s.isRunning = true

def AtReceive (f : Forwarder) : Prop :=
  ∃ session, f.status = .serving session ∧ session.phase = .waiting

structure Abandoned (s : Process) : Prop where
  gone : s.users = 0
  drained : s.forwarder.queue = []

section Steps

variable {queueSize : ℕ} {s s' : Process} {f : Forwarder} {e : Event}

theorem owned_new : Owned Process.new := ⟨fun _ => rfl, fun h => absurd rfl h⟩

/-- A forwarder that has finished does nothing more. -/
theorem not_finished_of_step {e : TraceForwarder.Event}
    (h : s.forwarder.step queueSize e = some f) : s.forwarder.status ≠ .finished := by
  intro hfinished
  cases e <;> simp [Forwarder.step, hfinished] at h

theorem not_disconnected_of_handshake {accepted : Bool}
    (h : s.forwarder.step queueSize (.handshake accepted) = some f) :
    s.forwarder.status ≠ .disconnected := by
  intro hdisconnected
  simp [Forwarder.step, hdisconnected] at h

theorem not_disconnected_of_wire {e : WireEvent}
    (h : s.forwarder.step queueSize (.wire e) = some f) :
    s.forwarder.status ≠ .disconnected := by
  intro hdisconnected
  simp [Forwarder.step, hdisconnected] at h

/-- A receive is made in a session, and the forwarder goes on. -/
theorem receive_cases (h : s.receive queueSize = some s') :
    (∃ session, s.forwarder.status = .serving session) ∧ ∃ f, s' = s.proceed f := by
  rw [Process.receive] at h
  split at h
  · rename_i session hserving
    refine ⟨⟨session, hserving⟩, ?_⟩
    split at h
    · exact ⟨_, (Option.some.inj h).symm⟩
    · cases h
    · obtain ⟨f, -, rfl⟩ := Option.map_eq_some_iff.mp h
      exact ⟨f, rfl⟩
  · cases h

theorem Owned.proceed (ho : Owned s) (hbefore : s.forwarder.status ≠ .finished)
    (hrunning : s.isRunning = true) (f : Forwarder) : Owned (s.proceed f) where
  counted hafter := by
    have hcounted := ho.counted hbefore
    simp only [Process.proceed] at hafter ⊢
    rw [if_neg hafter, hcounted]
  started _ := hrunning

/-- The forwarder keeps a sender of its own while it runs. -/
theorem Owned.step (ho : Owned s) (h : s.step queueSize e = some s') : Owned s' := by
  have hcounted := ho.counted
  have hstarted := ho.started
  cases e with
  | handle =>
    simp only [Process.step, Option.ite_none_left_eq_some, Option.some.injEq] at h
    obtain ⟨-, rfl⟩ := h
    exact ⟨fun hs => congrArg (· + 1) (hcounted hs), hstarted⟩
  | clone =>
    simp only [Process.step, Option.ite_none_right_eq_some, Option.some.injEq] at h
    obtain ⟨-, rfl⟩ := h
    exact ⟨fun hs => congrArg (· + 1) (hcounted hs), hstarted⟩
  | drop =>
    simp only [Process.step, Option.ite_none_right_eq_some, Option.some.injEq] at h
    obtain ⟨husers, rfl⟩ := h
    refine ⟨?_, hstarted⟩
    intro hs
    have hsenders := hcounted hs
    simp only
    omega
  | send t =>
    simp only [Process.step, Option.ite_none_right_eq_some, Option.map_eq_some_iff] at h
    obtain ⟨-, f, haccept, rfl⟩ := h
    have hstatus : f.status = s.forwarder.status := by
      simp only [Forwarder.step, Option.ite_none_right_eq_some, Option.some.injEq] at haccept
      rw [← haccept.2]
    exact ⟨by rwa [hstatus], by rwa [hstatus]⟩
  | run =>
    simp only [Process.step, Option.ite_none_left_eq_some, Option.some.injEq] at h
    obtain ⟨-, rfl⟩ := h
    exact ⟨hcounted, fun _ => rfl⟩
  | connect =>
    simp only [Process.step, Option.ite_none_right_eq_some, Option.map_eq_some_iff] at h
    obtain ⟨hrunning, f, hconnect, rfl⟩ := h
    exact ho.proceed (not_finished_of_step hconnect) hrunning f
  | handshake accepted =>
    obtain ⟨f, hhandshake, rfl⟩ := Option.map_eq_some_iff.mp h
    exact ho.proceed (not_finished_of_step hhandshake)
      (hstarted (not_disconnected_of_handshake hhandshake)) f
  | recv =>
    obtain ⟨⟨session, hserving⟩, f, rfl⟩ := receive_cases h
    exact ho.proceed (by rw [hserving]; exact Status.noConfusion)
      (hstarted (by rw [hserving]; exact Status.noConfusion)) f
  | wire e =>
    obtain ⟨f, hwire, rfl⟩ := Option.map_eq_some_iff.mp h
    exact ho.proceed (not_finished_of_step hwire)
      (hstarted (not_disconnected_of_wire hwire)) f

/-- With the sender of the forwarder alive, the receive waits. -/
theorem recv_pending (ho : Owned s) (hreceives : AtReceive s.forwarder) (h : Abandoned s) :
    recv s.forwarder.queue s.senders = .pending := by
  obtain ⟨session, hserving, -⟩ := hreceives
  have hsenders := ho.counted (by rw [hserving]; exact Status.noConfusion)
  rw [h.drained, recv, if_neg (by omega)]

/-- Nothing but messages of the acceptor arrives any more, and they are not looked at. -/
theorem Abandoned.step (ho : Owned s) (hreceives : AtReceive s.forwarder) (h : Abandoned s)
    (hstep : s.step queueSize e = some s') : AtReceive s'.forwarder ∧ Abandoned s' := by
  have hpending := recv_pending ho hreceives h
  obtain ⟨session, hserving, hwaiting⟩ := hreceives
  have hrunning := ho.started (by rw [hserving]; exact Status.noConfusion)
  have hgone := h.gone
  cases e with
  | handle => simp [Process.step, hrunning] at hstep
  | clone => simp [Process.step, hgone] at hstep
  | drop => simp [Process.step, hgone] at hstep
  | send t => simp [Process.step, hgone] at hstep
  | run => simp [Process.step, hrunning] at hstep
  | connect => simp [Process.step, Forwarder.step, hserving] at hstep
  | handshake accepted => simp [Process.step, Forwarder.step, hserving] at hstep
  | recv => simp [Process.step, Process.receive, hserving, hwaiting, hpending] at hstep
  | wire e =>
    cases e with
    | arrive m =>
      simp only [Process.step, Forwarder.step, hserving, Session.onWire, hwaiting,
        Option.map_some, Option.some.injEq] at hstep
      subst hstep
      exact ⟨⟨_, rfl, rfl⟩, h.gone, h.drained⟩
    | handle => simp [Process.step, Forwarder.step, hserving, Session.onWire, hwaiting] at hstep
    | recvFailed =>
      simp [Process.step, Forwarder.step, hserving, Session.onWire, hwaiting] at hstep
    | sendFailed handed =>
      simp [Process.step, Forwarder.step, hserving, Session.onWire, hwaiting] at hstep

end Steps

/-- Whatever led there, a session loop that receives after all users have gone and the queue
is drained does not find the channel closed, then or ever after: it waits. -/
theorem waits_forever {queueSize : ℕ} {es : List Event} {s : Process}
    (hrun : run (Process.step queueSize) Process.new es = some s)
    (hreceives : AtReceive s.forwarder) (h : Abandoned s) :
    recv s.forwarder.queue s.senders = .pending ∧
      ∀ es' s', run (Process.step queueSize) s es' = some s' →
        AtReceive s'.forwarder ∧ recv s'.forwarder.queue s'.senders = .pending := by
  have howned : Owned s := run_invariant (fun s e s' ho hs => ho.step hs) owned_new hrun
  refine ⟨recv_pending howned hreceives h, ?_⟩
  intro es' s' hrun'
  have hlater : Owned s' ∧ AtReceive s'.forwarder ∧ Abandoned s' :=
    run_invariant (I := fun s => Owned s ∧ AtReceive s.forwarder ∧ Abandoned s)
      (fun s e s' hI hs => ⟨hI.1.step hs, hI.2.2.step hI.1 hI.2.1 hs⟩)
      ⟨howned, hreceives, h⟩ hrun'
  exact ⟨hlater.2.1, recv_pending hlater.1 hlater.2.1 hlater.2.2⟩

def handleDropped : List Event := [.handle, .run, .connect, .handshake true, .drop]

theorem waits_forever_handle_dropped :
    ∃ s, run (Process.step 10) Process.new handleDropped = some s ∧
      recv s.forwarder.queue s.senders = .pending :=
  ⟨_, rfl, (@waits_forever 10 handleDropped _ rfl ⟨_, rfl, rfl⟩ ⟨rfl, rfl⟩).1⟩

/-- The receive after that does not find the channel closed. -/
theorem handle_dropped_not_closed :
    ∃ s, run (Process.step 10) Process.new handleDropped = some s ∧
      AtReceive s.forwarder ∧ Abandoned s ∧ recv s.forwarder.queue s.senders ≠ .closed :=
  ⟨_, rfl, ⟨_, rfl, rfl⟩, ⟨rfl, rfl⟩, by decide⟩

end Hermod.Shutdown
