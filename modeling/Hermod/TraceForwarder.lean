import Hermod.TraceForwardClient
import Hermod.Transitions

/-!
The trace forwarder: a bounded queue that applications fill, and a loop that connects,
serves one session after another and reconnects when a session fails. The events are
those of the applications, of the network and of the forwarder's own task, in any
order. The sessions that have ended are kept as history.
-/
namespace Hermod.TraceForwarder

open ProtocolTypes ProtocolMessages TraceForwardClient Transitions

inductive Status
  | disconnected
  | handshaking
  | serving (session : Session)
  /-- `run` has returned. -/
  | finished
  deriving DecidableEq

structure Forwarder where
  status : Status
  queue : List TraceObject
  accepted : List TraceObject
  past : List Session
  deriving DecidableEq

inductive Event
  /-- A `send` or `try_send` of an application returns `Ok`. -/
  | accept (t : TraceObject)
  | connect
  | handshake (accepted : Bool)
  /-- The session loop receives from the queue, waiting for the first trace only. -/
  | recv
  | wire (e : WireEvent)
  deriving DecidableEq

namespace Forwarder

def start : Forwarder := ⟨.disconnected, [], [], []⟩

def current (f : Forwarder) : Option Session :=
  match f.status with
  | .serving s => some s
  | _ => none

def sessions (f : Forwarder) : List Session := f.past ++ f.current.toList

def allSent (f : Forwarder) : List TraceObject := (f.sessions.map Session.sent).flatten

def batch (f : Forwarder) : List TraceObject := (f.current.map fun s => s.phase.batch).getD []

def pending (f : Forwarder) : List TraceObject := f.batch ++ f.queue

/-- Go on with the session, or leave it: `Done` ends `run`, an error makes it reconnect. -/
def afterWire (f : Forwarder) (s : Session) : Forwarder :=
  match s.phase with
  | .ended .connectionClosed => { f with status := .finished, past := f.past ++ [s] }
  | .ended _ => { f with status := .disconnected, past := f.past ++ [s] }
  | _ => { f with status := .serving s }

def step (queueSize : ℕ) (f : Forwarder) : Event → Option Forwarder
  | .accept t =>
    if f.status ≠ .finished ∧ f.queue.length < queueSize then
      some { f with queue := f.queue ++ [t], accepted := f.accepted ++ [t] }
    else none
  | .connect =>
    if f.status = .disconnected then some { f with status := .handshaking } else none
  | .handshake accepted =>
    if f.status = .handshaking then
      some { f with status := if accepted then .serving Session.start else .disconnected }
    else none
  | .recv =>
    match f.status with
    | .serving s =>
      match f.queue with
      | t :: queue => (s.take [t]).map fun s' => { f with status := .serving s', queue := queue }
      | [] => s.drained.map fun s' => { f with status := .serving s' }
    | _ => none
  | .wire e =>
    match f.status with
    | .serving s => (s.onWire e).map fun s' => f.afterWire s'
    | _ => none

inductive Stepped (f : Forwarder) : Event → Forwarder → Prop
  | accept (t : TraceObject) :
      Stepped f (.accept t) { f with queue := f.queue ++ [t], accepted := f.accepted ++ [t] }
  | connect (hs : f.current = none) : Stepped f .connect { f with status := .handshaking }
  | established (hs : f.current = none) :
      Stepped f (.handshake true) { f with status := .serving Session.start }
  | refused (hs : f.current = none) :
      Stepped f (.handshake false) { f with status := .disconnected }
  | recv {s s' : Session} {t : TraceObject} {queue : List TraceObject}
      (hs : f.status = .serving s) (hq : f.queue = t :: queue) (ht : s.take [t] = some s') :
      Stepped f .recv { f with status := .serving s', queue := queue }
  | drained {s s' : Session} (hs : f.status = .serving s) (hd : s.drained = some s') :
      Stepped f .recv { f with status := .serving s' }
  | wire {s s' : Session} {e : WireEvent} (hs : f.status = .serving s)
      (hw : s.onWire e = some s') : Stepped f (.wire e) (f.afterWire s')

/-- Each event changes a forwarder in one of the ways. -/
theorem step_spec {queueSize : ℕ} {f f' : Forwarder} {e : Event}
    (h : f.step queueSize e = some f') : Stepped f e f' := by
  cases e with
  | accept t =>
    simp only [step] at h
    split at h
    · rw [← Option.some.inj h]
      exact Stepped.accept t
    · cases h
  | connect =>
    simp only [step] at h
    split at h
    · rename_i hs
      rw [← Option.some.inj h]
      exact Stepped.connect (by rw [current, hs])
    · cases h
  | handshake accepted =>
    simp only [step] at h
    split at h
    · rename_i hs
      rw [← Option.some.inj h]
      cases accepted
      · exact Stepped.refused (by rw [current, hs])
      · exact Stepped.established (by rw [current, hs])
    · cases h
  | recv =>
    simp only [step] at h
    split at h
    · rename_i s hs
      split at h
      · rename_i t queue hq
        obtain ⟨s', ht, rfl⟩ := Option.map_eq_some_iff.mp h
        exact Stepped.recv hs hq ht
      · obtain ⟨s', hd, rfl⟩ := Option.map_eq_some_iff.mp h
        exact Stepped.drained hs hd
    · cases h
  | wire e =>
    simp only [step] at h
    split at h
    · rename_i s hs
      obtain ⟨s', hw, rfl⟩ := Option.map_eq_some_iff.mp h
      exact Stepped.wire hs hw
    · cases h

theorem current_serving {f : Forwarder} {s : Session} (hs : f.status = .serving s) :
    f.current = some s := by rw [current, hs]

/-- A session that has ended goes to the past, and any other is served on. -/
theorem afterWire_cases (f : Forwarder) (s : Session) :
    ((∃ e, s.phase = .ended e) ∧ (f.afterWire s).current = none ∧
        (f.afterWire s).past = f.past ++ [s]) ∨
      ((∀ e, s.phase ≠ .ended e) ∧ f.afterWire s = { f with status := .serving s }) := by
  unfold afterWire
  split
  · rename_i hp
    exact Or.inl ⟨⟨_, hp⟩, rfl, rfl⟩
  · rename_i e hp _
    exact Or.inl ⟨⟨_, ‹_›⟩, rfl, rfl⟩
  · rename_i hp
    exact Or.inr ⟨fun e he => hp e he, rfl⟩

@[simp] theorem afterWire_sessions (f : Forwarder) (s : Session) :
    (f.afterWire s).sessions = f.past ++ [s] := by
  rcases afterWire_cases f s with ⟨-, hc, hp⟩ | ⟨-, h⟩
  · rw [sessions, hc, hp, Option.toList_none, List.append_nil]
  · rw [h]
    rfl

@[simp] theorem afterWire_queue (f : Forwarder) (s : Session) :
    (f.afterWire s).queue = f.queue := by
  unfold afterWire
  split <;> rfl

@[simp] theorem afterWire_accepted (f : Forwarder) (s : Session) :
    (f.afterWire s).accepted = f.accepted := by
  unfold afterWire
  split <;> rfl

def accepts : Event → List TraceObject
  | .accept t => [t]
  | _ => []

/-- Only an accepted trace is added to the history. -/
theorem accepted_of_step {queueSize : ℕ} {f f' : Forwarder} {e : Event}
    (h : f.step queueSize e = some f') : f'.accepted = f.accepted ++ accepts e := by
  cases step_spec h with
  | accept t => rfl
  | connect hs => exact (List.append_nil _).symm
  | established hs => exact (List.append_nil _).symm
  | refused hs => exact (List.append_nil _).symm
  | recv hs hq ht => exact (List.append_nil _).symm
  | drained hs hd => exact (List.append_nil _).symm
  | wire hs hw => exact (afterWire_accepted ..).trans (List.append_nil _).symm

/-! Nothing is sent twice, reordered or invented. -/

/-- Since the sessions `old` had ended and the traces `before` had been taken, every
accepted trace has been taken by a later session or is in the queue, and every later
session has kept its order. -/
def OrderedSince (old : List Session) (before : List TraceObject) (f : Forwarder) : Prop :=
  ∃ ended later, f.past = old ++ ended ∧
    f.accepted = before ++ later ∧
    later = ((ended ++ f.current.toList).map (·.taken)).flatten ++ f.queue ∧
    ∀ s ∈ ended ++ f.current.toList, s.Ordered

theorem orderedSince_start : OrderedSince [] [] start :=
  ⟨[], [], rfl, rfl, rfl, fun _ h => absurd h List.not_mem_nil⟩

/-- The session that is served moves on, with the queue it takes from. -/
theorem OrderedSince.serve {old : List Session} {before : List TraceObject} {f f' : Forwarder}
    {s s' : Session} (hf : OrderedSince old before f) (hs : f.status = .serving s)
    (hs' : s'.Ordered) (htaken : s'.taken ++ f'.queue = s.taken ++ f.queue)
    (hacc' : f'.accepted = f.accepted) (hsess : f'.sessions = f.past ++ [s'])
    (hpast' : ∃ ended, f'.past = f.past ++ ended) : OrderedSince old before f' := by
  obtain ⟨ended, later, hpast, hacc, hlater, hord⟩ := hf
  obtain ⟨ended', hended'⟩ := hpast'
  have hsplit : ended' ++ f'.current.toList = [s'] := by
    rw [sessions, hended', List.append_assoc] at hsess
    exact List.append_cancel_left hsess
  refine ⟨ended ++ ended', later, ?_, ?_, ?_, ?_⟩
  · rw [hended', hpast, List.append_assoc]
  · rw [hacc', hacc]
  · rw [hlater, List.append_assoc, hsplit, current_serving hs]
    simp only [Option.toList_some, List.map_append, List.map_cons, List.map_nil,
      List.flatten_append, List.flatten_cons, List.flatten_nil, List.append_nil,
      List.append_assoc, htaken]
  · rw [List.append_assoc, hsplit]
    intro u hu
    rcases List.mem_append.mp hu with hu | hu
    · exact hord u (List.mem_append_left _ hu)
    · rwa [List.mem_singleton.mp hu]

theorem OrderedSince.current_ordered {old : List Session} {before : List TraceObject}
    {f : Forwarder} {s : Session} (hf : OrderedSince old before f) (hs : f.status = .serving s) :
    s.Ordered := by
  obtain ⟨ended, later, -, -, -, hord⟩ := hf
  apply hord s
  rw [current_serving hs]
  exact List.mem_append_right _ (List.mem_singleton_self s)

/-- Later sessions keep the order, by cases on the event. -/
theorem OrderedSince.step {queueSize : ℕ} {old : List Session} {before : List TraceObject}
    {f f' : Forwarder} {e : Event} (hf : OrderedSince old before f)
    (h : f.step queueSize e = some f') : OrderedSince old before f' := by
  cases step_spec h with
  | accept t =>
    obtain ⟨ended, later, hpast, hacc, hlater, hord⟩ := hf
    refine ⟨ended, later ++ [t], hpast, ?_, ?_, hord⟩
    · simp only [hacc, List.append_assoc]
    · rw [hlater, List.append_assoc]
      rfl
  | connect hs =>
    obtain ⟨ended, later, hpast, hacc, hlater, hord⟩ := hf
    rw [hs] at hlater hord
    exact ⟨ended, later, hpast, hacc, hlater, hord⟩
  | established hs =>
    obtain ⟨ended, later, hpast, hacc, hlater, hord⟩ := hf
    rw [hs] at hlater hord
    refine ⟨ended, later, hpast, hacc, ?_, ?_⟩
    · simpa [current, Session.start] using hlater
    · intro s hs'
      rcases List.mem_append.mp hs' with hs' | hs'
      · exact hord s (List.mem_append_left _ hs')
      · rw [List.mem_singleton.mp hs']
        exact Session.ordered_start
  | refused hs =>
    obtain ⟨ended, later, hpast, hacc, hlater, hord⟩ := hf
    rw [hs] at hlater hord
    exact ⟨ended, later, hpast, hacc, hlater, hord⟩
  | @recv s s' t queue hs hq ht =>
    refine hf.serve hs ((hf.current_ordered hs).take ht) ?_ rfl rfl ⟨[], (List.append_nil _).symm⟩
    obtain ⟨-, rfl⟩ := Session.take_spec ht
    simp only [hq, List.append_assoc, List.cons_append, List.nil_append]
  | @drained s s' hs hd =>
    refine hf.serve hs ((hf.current_ordered hs).drained hd) ?_ rfl rfl
      ⟨[], (List.append_nil _).symm⟩
    obtain ⟨batch, -, rfl⟩ := Session.drained_spec hd
    rfl
  | @wire s s' e hs hw =>
    refine hf.serve hs ((hf.current_ordered hs).onWire hw) ?_ (afterWire_accepted f s')
      (afterWire_sessions f s') ?_
    · rw [Session.onWire_taken hw, afterWire_queue]
    · rcases afterWire_cases f s' with ⟨-, -, hp⟩ | ⟨-, h'⟩
      · exact ⟨[s'], hp⟩
      · exact ⟨[], by rw [h', List.append_nil]⟩

theorem OrderedSince.run {queueSize : ℕ} {old : List Session} {before : List TraceObject}
    {f g : Forwarder} {es : List Event} (hf : OrderedSince old before f)
    (h : run (Forwarder.step queueSize) f es = some g) : OrderedSince old before g :=
  run_invariant (fun _ _ _ hs hstep => OrderedSince.step hs hstep) hf h

theorem flatten_sublist {sessions : List Session} (h : ∀ s ∈ sessions, s.Ordered) :
    (sessions.map Session.sent).flatten.Sublist (sessions.map (·.taken)).flatten := by
  induction sessions with
  | nil => exact List.Sublist.refl _
  | cons s sessions ih =>
    have hs := h s (List.mem_cons_self ..)
    have htail := ih fun t ht => h t (List.mem_cons_of_mem _ ht)
    exact hs.sent_sublist.append htail

/-- The replies sent since, with what is still held, are in the order of acceptance. -/
theorem OrderedSince.sent_sublist {old : List Session} {before : List TraceObject} {f : Forwarder}
    (hf : OrderedSince old before f) :
    ∃ sent later, f.allSent = (old.map Session.sent).flatten ++ sent ∧
      f.accepted = before ++ later ∧ (sent ++ f.pending).Sublist later := by
  obtain ⟨ended, later, hpast, hacc, hlater, hord⟩ := hf
  refine ⟨((ended ++ f.current.toList).map Session.sent).flatten, later, ?_, hacc, ?_⟩
  · simp only [allSent, sessions, hpast, List.append_assoc, List.map_append, List.flatten_append]
  · rw [hlater, pending, ← List.append_assoc]
    refine List.Sublist.append ?_ (List.Sublist.refl _)
    have hended := flatten_sublist fun s hs => hord s (List.mem_append_left _ hs)
    cases hc : f.current with
    | none =>
      simpa [batch, hc] using hended
    | some s =>
      have hs := hord s (List.mem_append_right _ (by rw [hc]; exact List.mem_singleton_self s))
      simpa [batch, hc] using hended.append hs

/-! Runs in which no session fails. -/

def Healthy : Event → Prop
  | .wire e => Session.Healthy e
  | _ => True

def Fits (f : Forwarder) : Event → Prop
  | .wire e => ∀ s, f.status = .serving s → s.Fits e
  | _ => True

/-- What was sent and what is held is what was accepted, in order. -/
def Conserved (f : Forwarder) : Prop := f.allSent ++ f.pending = f.accepted

structure Running (f : Forwarder) : Prop where
  noPast : f.past = []
  ordered : OrderedSince [] [] f
  session : ∀ s, f.status = .serving s → s.Running

theorem running_start : Running start :=
  ⟨rfl, orderedSince_start, fun _ h => by cases h⟩

/-- In such a run the forwarder has lost nothing exactly when its session has not. -/
theorem Running.conserved_iff {f : Forwarder} (hf : Running f) :
    f.Conserved ↔ ∀ s, f.status = .serving s → s.Conserved := by
  obtain ⟨ended, later, hpast, hacc, hlater, -⟩ := hf.ordered
  rw [hf.noPast] at hpast
  obtain rfl := (List.append_eq_nil_iff.mp hpast.symm).2
  rw [Conserved, hacc, hlater, allSent, pending, sessions, hf.noPast, batch, current]
  split
  · rename_i s hs
    rw [hs]
    simp [Session.Conserved, ← List.append_assoc]
  · rename_i hs
    refine iff_of_true ?_ fun s hserv => (hs s hserv).elim
    simp

/-- The session that is served decides what happens to the forwarder. -/
theorem Running.serve {f f' : Forwarder} {s s' : Session} {P : Prop} (hf : Running f)
    (hordered : OrderedSince [] [] f') (hs : f.status = .serving s)
    (hs' : f'.status = .serving s') (hpast : f'.past = f.past) (hrun : s'.Running)
    (hstep : s'.Conserved ↔ s.Conserved ∧ P) :
    Running f' ∧ (f'.Conserved ↔ f.Conserved ∧ P) := by
  have hf' : Running f' := by
    refine ⟨hpast.trans hf.noPast, hordered, fun t ht => ?_⟩
    rw [hs', Status.serving.injEq] at ht
    exact ht ▸ hrun
  refine ⟨hf', ?_⟩
  rw [hf'.conserved_iff, hf.conserved_iff]
  simpa only [hs, hs', Status.serving.injEq, forall_eq'] using hstep

/-- Where no session is served, one that begins has lost nothing yet. -/
theorem Running.idle {f f' : Forwarder} (hf : Running f) (hordered : OrderedSince [] [] f')
    (hs : f.current = none) (hs' : ∀ s, f'.status = .serving s → s = Session.start)
    (hpast : f'.past = f.past) :
    Running f' ∧ (f'.Conserved ↔ f.Conserved) := by
  have hf' : Running f' :=
    ⟨hpast.trans hf.noPast, hordered, fun s hserv => hs' s hserv ▸ Session.running_start⟩
  refine ⟨hf', ?_⟩
  rw [hf'.conserved_iff, hf.conserved_iff]
  refine iff_of_true (fun s hserv => ?_) fun s hserv => ?_
  · rw [hs' s hserv]
    rfl
  · rw [current_serving hserv] at hs
    cases hs

/-- A healthy step loses nothing but what a request does not ask for. -/
theorem Running.step {queueSize : ℕ} {f f' : Forwarder} {e : Event} (hf : Running f)
    (he : Healthy e) (h : f.step queueSize e = some f') :
    Running f' ∧ (f'.Conserved ↔ f.Conserved ∧ f.Fits e) := by
  have hordered := hf.ordered.step h
  cases step_spec h with
  | accept t =>
    have hf' : Running { f with queue := f.queue ++ [t], accepted := f.accepted ++ [t] } :=
      ⟨hf.noPast, hordered, hf.session⟩
    refine ⟨hf', ?_⟩
    rw [hf'.conserved_iff, hf.conserved_iff]
    exact (and_iff_left trivial).symm
  | connect hs =>
    have hidle := hf.idle hordered hs (fun s hserv => by cases hserv) rfl
    exact ⟨hidle.1, hidle.2.trans (and_iff_left trivial).symm⟩
  | established hs =>
    have hidle := hf.idle hordered hs (fun s hserv => (Status.serving.inj hserv).symm) rfl
    exact ⟨hidle.1, hidle.2.trans (and_iff_left trivial).symm⟩
  | refused hs =>
    have hidle := hf.idle hordered hs (fun s hserv => by cases hserv) rfl
    exact ⟨hidle.1, hidle.2.trans (and_iff_left trivial).symm⟩
  | @recv s s' t queue hs hq ht =>
    obtain ⟨hrun, hstep⟩ := (hf.session s hs).take ht
    exact hf.serve hordered hs rfl rfl hrun (hstep.trans (and_iff_left trivial).symm)
  | @drained s s' hs hd =>
    obtain ⟨hrun, hstep⟩ := (hf.session s hs).drained hd
    exact hf.serve hordered hs rfl rfl hrun (hstep.trans (and_iff_left trivial).symm)
  | @wire s s' e hs hw =>
    obtain ⟨hrun, hstep⟩ := (hf.session s hs).onWire he hw
    have hfits : s.Fits e ↔ f.Fits (.wire e) := by
      simp only [Fits, hs, Status.serving.injEq, forall_eq']
    rcases afterWire_cases f s' with ⟨⟨err, herr⟩, -⟩ | ⟨-, h'⟩
    · exact absurd herr (hrun.alive err)
    · rw [h'] at hordered ⊢
      exact hf.serve hordered hs rfl rfl hrun (hstep.trans (and_congr_right fun _ => hfits))

/-- In a run without a failing session nothing is lost, and the order is kept, exactly
when every request that was answered had room for the whole batch. -/
theorem conserved_iff_along {queueSize : ℕ} {f : Forwarder} {es : List Event}
    (h : run (Forwarder.step queueSize) start es = some f) (he : ∀ e ∈ es, Healthy e) :
    f.Conserved ↔ Along (Forwarder.step queueSize) Fits start es := by
  have hrun := run_iff_along (I := Running) (H := fun _ e => Healthy e) (P := Fits)
    (fun _ _ _ hs hH hstep => hs.step hH hstep) running_start (along_of_forall start he) h
  rw [hrun]
  exact and_iff_right rfl

/-! A round trip that fails. -/

/-- `handle_request` fails before it has a reply: it receives nothing, or a message
that is neither a request nor `Done`. -/
def FailsUnanswered (s : Session) : WireEvent → Prop
  | .recvFailed => True
  | .handle => ∃ reply inbox, s.inbox = .traceObjectsReply reply :: inbox
  | _ => False

/-- A failure without a reply ends the session with an error. -/
theorem FailsUnanswered.ended {s s' : Session} {e : WireEvent} (he : FailsUnanswered s e)
    (h : s.onWire e = some s') :
    s'.replies = s.replies ∧ ∃ err, s'.phase = .ended err ∧ err ≠ .connectionClosed := by
  cases Session.onWire_spec h with
  | arrive m => exact he.elim
  | reply hp hi =>
    obtain ⟨reply, inbox', hi'⟩ := he
    rw [hi, List.cons.injEq] at hi'
    cases hi'.1
  | refuse hp hi hm =>
    obtain ⟨reply, inbox', hi'⟩ := he
    rw [hi, List.cons.injEq] at hi'
    rw [hi'.1] at hm
    cases hm
    exact ⟨rfl, _, rfl, by simp⟩
  | recvFailed hp => exact ⟨rfl, _, rfl, by simp⟩
  | sendFailed handed hp hi => exact he.elim

theorem afterWire_failed {f : Forwarder} {s : Session} {err : ClientError}
    (hs : s.phase = .ended err) (herr : err ≠ .connectionClosed) :
    f.afterWire s = { f with status := .disconnected, past := f.past ++ [s] } := by
  unfold afterWire
  split
  · rename_i hp
    rw [hs, Phase.ended.injEq] at hp
    exact absurd hp herr
  · rfl
  · rename_i hp
    exact absurd hs (hp err)

def Loaded (f : Forwarder) : Prop := ∀ s, f.status = .serving s → s.Loaded

theorem Loaded.step {queueSize : ℕ} {f f' : Forwarder} {e : Event} (hf : Loaded f)
    (h : f.step queueSize e = some f') : Loaded f' := by
  intro u hu
  cases step_spec h with
  | accept t => exact hf u hu
  | connect hs => cases hu
  | established hs =>
    cases hu
    exact Session.loaded_start
  | refused hs => cases hu
  | @recv s s' t queue hs hq ht =>
    cases hu
    exact Session.Loaded.take (List.cons_ne_nil t []) ht
  | @drained s s' hs hd =>
    cases hu
    exact (hf s hs).drained hd
  | @wire s s' e hs hw =>
    have hs' := (hf s hs).onWire hw
    rcases afterWire_cases f s' with ⟨-, hnone, -⟩ | ⟨-, h'⟩
    · rw [current_serving hu] at hnone
      cases hnone
    · rw [h', Status.serving.injEq] at hu
      exact hu ▸ hs'

/-- Accepted traces are only ever added. -/
theorem accepted_mono {queueSize : ℕ} {f g : Forwarder} {es : List Event}
    (h : run (Forwarder.step queueSize) f es = some g) : ∃ acc, g.accepted = f.accepted ++ acc := by
  refine run_invariant (I := fun g => ∃ acc, g.accepted = f.accepted ++ acc) ?_
    ⟨[], (List.append_nil _).symm⟩ h
  rintro s e s' ⟨acc, hacc⟩ hstep
  cases step_spec hstep with
  | accept t => exact ⟨acc ++ [t], by rw [← List.append_assoc, ← hacc]⟩
  | connect hs => exact ⟨acc, hacc⟩
  | established hs => exact ⟨acc, hacc⟩
  | refused hs => exact ⟨acc, hacc⟩
  | recv hs hq ht => exact ⟨acc, hacc⟩
  | drained hs hd => exact ⟨acc, hacc⟩
  | wire hs hw => exact ⟨acc, by rw [afterWire_accepted, hacc]⟩

/-- Between two sessions everything that was accepted is taken or in the queue, and
only what is in the queue, or accepted later, is ever sent again. -/
theorem sent_after_disconnect {queueSize : ℕ} {f : Forwarder} (hf : OrderedSince [] [] f)
    (hc : f.current = none) {g : Forwarder} {es : List Event}
    (h : run (Forwarder.step queueSize) f es = some g) :
    ∃ sent acc, g.allSent = f.allSent ++ sent ∧ g.accepted = f.accepted ++ acc ∧
      (sent ++ g.pending).Sublist (f.queue ++ acc) := by
  obtain ⟨ended, later, hpast, hacc, hlater, -⟩ := hf
  have hsince : OrderedSince f.past (ended.map (·.taken)).flatten f := by
    refine ⟨[], f.queue, (List.append_nil _).symm, ?_, ?_, ?_⟩
    · rw [hacc, hlater, hc, Option.toList_none, List.append_nil, List.nil_append]
    · rw [hc]
      rfl
    · rw [hc]
      exact fun s hs => absurd hs List.not_mem_nil
  obtain ⟨sent, rest, hsent, hrest, hsub⟩ := (hsince.run h).sent_sublist
  obtain ⟨acc, hmono⟩ := accepted_mono h
  refine ⟨sent, acc, ?_, hmono, ?_⟩
  · rw [hsent, allSent, sessions, hc, Option.toList_none, List.append_nil]
  · rw [hmono, hacc, hlater, hc, Option.toList_none, List.append_nil, List.nil_append,
      List.append_assoc] at hrest
    rwa [List.append_cancel_left hrest]

/-- Whenever a round trip fails unanswered, the batch is gone: the forwarder holds the
queue alone, and whatever it sends later comes from the queue or was accepted later. -/
theorem failed_round_trip_drops_batch {queueSize : ℕ} {es : List Event} {f f' : Forwarder}
    {s : Session} {batch : List TraceObject} {e : WireEvent}
    (h : run (Forwarder.step queueSize) start es = some f) (hs : f.status = .serving s)
    (hp : s.phase = .requesting batch) (he : FailsUnanswered s e)
    (h' : f.step queueSize (.wire e) = some f') :
    f'.pending = f.queue ∧ f'.pending ≠ batch ++ f.queue ∧
      ∀ later g, run (Forwarder.step queueSize) f' later = some g →
        ∃ sent acc, g.allSent = f'.allSent ++ sent ∧ g.accepted = f'.accepted ++ acc ∧
          (sent ++ g.pending).Sublist (f.queue ++ acc) := by
  have hordered : OrderedSince [] [] f := orderedSince_start.run h
  have hloaded : Loaded f :=
    run_invariant (fun _ _ _ hs hstep => Loaded.step hs hstep) (fun _ h => by cases h) h
  have hordered' := hordered.step h'
  cases step_spec h' with
  | @wire s₁ s' e hs₁ hw =>
    rw [hs, Status.serving.injEq] at hs₁
    subst hs₁
    obtain ⟨-, err, hphase, herr⟩ := he.ended hw
    rw [afterWire_failed hphase herr] at hordered' ⊢
    refine ⟨rfl, fun heq => ?_, fun later g hg => sent_after_disconnect hordered' rfl hg⟩
    have hlen := congrArg List.length heq
    have hpos := List.length_pos_of_ne_nil (hloaded s hs batch (Or.inr hp))
    change f.queue.length = (batch ++ f.queue).length at hlen
    rw [List.length_append] at hlen
    omega

def oneBatch (t u : TraceObject) : List Event :=
  [.accept t, .connect, .handshake true, .recv, .recv, .accept u]

/-- Receiving a request fails with one trace in the batch and another in the queue. -/
theorem failed_round_trip_drops_batch_one :
    let t : TraceObject := ⟨none, "{}", ["Test"], .info, .dNormal, ⟨0, 0, by decide⟩, "host", "1"⟩
    ∃ f f', run (Forwarder.step 10) start (oneBatch t t) = some f ∧
      f.step 10 (.wire .recvFailed) = some f' ∧ f'.pending = f.queue ∧
      f'.pending ≠ [t] ++ f.queue := by
  intro t
  refine ⟨_, _, rfl, rfl, ?_⟩
  have hdrop := @failed_round_trip_drops_batch 10 (oneBatch t t) _ _ _ [t] .recvFailed rfl rfl rfl
    trivial rfl
  exact ⟨hdrop.1, hdrop.2.1⟩

/-- The next connection sends what was queued later and never the batch. -/
theorem reconnect_skips_batch :
    let t : TraceObject := ⟨none, "{}", ["Test"], .info, .dNormal, ⟨0, 0, by decide⟩, "host", "1"⟩
    let u : TraceObject := { t with toMachine := "[]" }
    ∃ f f' g, run (Forwarder.step 10) start (oneBatch t u) = some f ∧
      f.step 10 (.wire .recvFailed) = some f' ∧
      run (Forwarder.step 10) f' [.connect, .handshake true, .recv, .recv,
        .wire (.arrive (.traceObjectsRequest ⟨true, 100⟩)), .wire .handle] = some g ∧
      f'.pending ≠ [t] ++ f.queue ∧ g.allSent = [u] ∧ g.pending = [] := by
  intro t u
  refine ⟨_, _, _, rfl, rfl, rfl, fun heq => ?_, rfl, rfl⟩
  have hlen := congrArg List.length heq
  exact absurd hlen (by decide)

end Forwarder

end Hermod.TraceForwarder
