import Hermod.ReForwarder
import Hermod.Service

/-!
When a session answers what is due. A request that does not block and `Done` are due at
once, but the session loop looks at its messages only with a batch in its hands. A session
is a server whose budget is the batches it has or can take up without another trace.
-/
namespace Hermod.Responsiveness

open ProtocolTypes ProtocolMessages TraceForwardClient Transitions Service

def Urgent : Message → Prop
  | .traceObjectsRequest req => req.blocking = false
  | .traceObjectsReply _ => False
  | .done => True

def Ends : Message → Prop
  | .traceObjectsRequest _ => False
  | .traceObjectsReply _ => True
  | .done => True

/-- The batches for which a session can answer a message: the one it holds, and one more
where traces are queued behind it. While draining these are taken into the same batch,
except for `late`. -/
def atHand (queued late : ℕ) : Phase → ℕ
  | .waiting => queued
  | .draining _ => 1 + late
  | .requesting _ => 1 + queued
  | .ended _ => 0

def nextBatch {α : Type} (queue : List α) : ℕ := min 1 queue.length

def stepsLeft : Phase → ℕ
  | .waiting => 2
  | .draining _ => 1
  | _ => 0

def unconsumed (s : Session) : Option (List Message) :=
  match s.phase with
  | .ended _ => none
  | _ => some s.inbox

/-! What the steps of a session do. -/

theorem unconsumed_eq_some {s : Session} {ms : List Message} :
    unconsumed s = some ms ↔ s.inbox = ms ∧ ∀ e, s.phase ≠ .ended e := by
  unfold unconsumed
  split
  · rename_i hp
    simp [hp]
  · rename_i hp
    simpa using fun _ => hp

/-- Taking a batch leaves the messages where they are. -/
theorem take_unconsumed {s s' : Session} {traces : List TraceObject}
    (h : s.take traces = some s') : unconsumed s' = unconsumed s ∧
      (∃ batch, s'.phase = .draining batch) ∧
      (s.phase = .waiting ∨ ∃ batch, s.phase = .draining batch) := by
  obtain ⟨hp, rfl⟩ := Session.take_spec h
  refine ⟨?_, ⟨_, rfl⟩, hp⟩
  rcases hp with hp | ⟨batch, hp⟩
  · simp [unconsumed, hp]
  · simp [unconsumed, hp]

theorem drained_unconsumed {s s' : Session} (h : s.drained = some s') :
    unconsumed s' = unconsumed s ∧ (∃ batch, s.phase = .draining batch) ∧
      ∃ batch, s'.phase = .requesting batch := by
  obtain ⟨batch, hp, rfl⟩ := Session.drained_spec h
  exact ⟨by simp [unconsumed, hp], ⟨batch, hp⟩, batch, rfl⟩

theorem handleRequest_error {batch : List TraceObject} {m : Message} {e : ClientError}
    (h : handleRequest batch m = .error e) : Ends m := by
  cases m with
  | traceObjectsRequest req => cases h
  | traceObjectsReply reply => trivial
  | done => trivial

/-- A message is answered or ends the session. -/
theorem handle_spec {s s' : Session} (h : s.onWire .handle = some s') :
    ∃ batch m rest, s.phase = .requesting batch ∧ unconsumed s = some (m :: rest) ∧
      ((Ends m ∧ unconsumed s' = none) ∨
        (¬ Ends m ∧ s'.phase = .waiting ∧ unconsumed s' = some rest)) := by
  cases Session.onWire_spec h with
  | @reply batch req inbox hp hi =>
    exact ⟨batch, _, inbox, hp, unconsumed_eq_some.mpr ⟨hi, by simp [hp]⟩,
      Or.inr ⟨id, rfl, rfl⟩⟩
  | @refuse batch m e inbox hp hi hm =>
    exact ⟨batch, m, inbox, hp, unconsumed_eq_some.mpr ⟨hi, by simp [hp]⟩,
      Or.inl ⟨handleRequest_error hm, rfl⟩⟩

/-- A session that waits for a message consumes the next one. -/
theorem handle_enabled {s : Session} {batch : List TraceObject} {m : Message}
    {rest : List Message} (hp : s.phase = .requesting batch) (hi : s.inbox = m :: rest) :
    (s.onWire .handle).isSome := by
  simp only [Session.onWire, hp, hi]
  split
  · rfl
  · rfl

theorem arrive_spec {s s' : Session} {m : Message} (h : s.onWire (.arrive m) = some s') :
    unconsumed s = some s.inbox ∧ unconsumed s' = some (s.inbox ++ [m]) ∧ s'.phase = s.phase := by
  simp only [Session.onWire] at h
  split at h
  · cases h
  · rename_i hp
    rw [← Option.some.inj h]
    refine ⟨unconsumed_eq_some.mpr ⟨rfl, hp⟩, unconsumed_eq_some.mpr ⟨rfl, hp⟩, rfl⟩

theorem failed_spec {s s' : Session} {e : WireEvent} (h : s.onWire e = some s')
    (harrive : ∀ m, e ≠ .arrive m) (hhandle : e ≠ .handle) : unconsumed s' = none := by
  cases Session.onWire_spec h with
  | arrive m => exact absurd rfl (harrive m)
  | reply hp hi => exact absurd rfl hhandle
  | refuse hp hi hm => exact absurd rfl hhandle
  | recvFailed hp => rfl
  | sendFailed handed hp hi => rfl

/-! The forwarder. -/

namespace Forwarder

open TraceForwarder

def inbox (f : Forwarder) : Option (List Message) := f.current.bind unconsumed

/-- The messages that the session of a forwarder can consume without a new trace. -/
def budget (f : Forwarder) : ℕ :=
  (f.current.map fun s => atHand (nextBatch f.queue) 0 s.phase).getD 0

def work (f : Forwarder) : ℕ :=
  (f.current.map fun s => stepsLeft s.phase).getD 0 + f.queue.length

def arrives : TraceForwarder.Event → Option Message
  | .wire (.arrive m) => some m
  | _ => none

def server (queueSize : ℕ) : Server Forwarder TraceForwarder.Event Message where
  step := Forwarder.step queueSize
  own e := e = .recv ∨ e = .wire .handle
  arrives := arrives
  inbox := inbox
  ends := Ends
  urgent := Urgent

theorem inbox_serving {f : Forwarder} {s : Session} (hs : f.status = .serving s) :
    inbox f = unconsumed s := by
  rw [inbox, Forwarder.current_serving hs]
  rfl

theorem budget_serving {f : Forwarder} {s : Session} (hs : f.status = .serving s) :
    budget f = atHand (nextBatch f.queue) 0 s.phase := by
  rw [budget, Forwarder.current_serving hs]
  rfl

theorem work_serving {f : Forwarder} {s : Session} (hs : f.status = .serving s) :
    work f = stepsLeft s.phase + f.queue.length := by
  rw [work, Forwarder.current_serving hs]
  rfl

/-- Where the session goes on, the forwarder serves it with the same queue. -/
theorem inbox_afterWire (f : Forwarder) (s : Session) : inbox (f.afterWire s) = unconsumed s ∧
    ((∀ e, s.phase ≠ .ended e) → (f.afterWire s).status = .serving s) := by
  rcases Forwarder.afterWire_cases f s with ⟨⟨e, he⟩, hcurrent, -⟩ | ⟨hne, hafter⟩
  · refine ⟨?_, fun hne => absurd he (hne e)⟩
    simp [inbox, hcurrent, unconsumed, he]
  · rw [hafter]
    exact ⟨inbox_serving rfl, fun _ => rfl⟩

/-- What a receive finds in the queue of a forwarder. -/
theorem recv_spec {queueSize : ℕ} {f f' : Forwarder} (h : f.step queueSize .recv = some f') :
    ∃ s s', f.status = .serving s ∧ f'.status = .serving s' ∧
      ((∃ t, f.queue = t :: f'.queue ∧ s.take [t] = some s') ∨
        (f.queue = [] ∧ f'.queue = [] ∧ s.drained = some s')) := by
  simp only [Forwarder.step] at h
  split at h
  · rename_i s hs
    split at h
    · rename_i t queue hq
      obtain ⟨s', ht, rfl⟩ := Option.map_eq_some_iff.mp h
      exact ⟨s, s', hs, rfl, Or.inl ⟨t, hq, ht⟩⟩
    · rename_i hq
      obtain ⟨s', hd, rfl⟩ := Option.map_eq_some_iff.mp h
      exact ⟨s, s', hs, rfl, Or.inr ⟨hq, hq, hd⟩⟩
  · cases h

theorem wire_spec {queueSize : ℕ} {f f' : Forwarder} {e : WireEvent}
    (h : f.step queueSize (.wire e) = some f') :
    ∃ s s', f.status = .serving s ∧ s.onWire e = some s' ∧ f' = f.afterWire s' := by
  cases Forwarder.step_spec h with
  | @wire s s' e hs hw => exact ⟨s, s', hs, hw, rfl⟩

/-- Receiving keeps the messages and the budget, and goes on. -/
theorem recv_keeps {queueSize : ℕ} {f f' : Forwarder} (h : f.step queueSize .recv = some f') :
    inbox f' = inbox f ∧ budget f' = budget f ∧ work f' < work f := by
  obtain ⟨s, s', hs, hs', hrecv⟩ := recv_spec h
  rw [inbox_serving hs, inbox_serving hs', budget_serving hs, budget_serving hs',
    work_serving hs, work_serving hs']
  rcases hrecv with ⟨t, hq, ht⟩ | ⟨hq, hq', hd⟩
  · obtain ⟨hsame, ⟨batch, hp'⟩, hp⟩ := take_unconsumed ht
    rw [hp', hq]
    rcases hp with hp | ⟨batch', hp⟩
    · rw [hp]
      refine ⟨hsame, ?_, ?_⟩
      · simp [atHand, nextBatch]
      · simp only [stepsLeft, List.length_cons]
        omega
    · rw [hp]
      refine ⟨hsame, rfl, ?_⟩
      simp [stepsLeft]
  · obtain ⟨hsame, ⟨batch, hp⟩, batch', hp'⟩ := drained_unconsumed hd
    rw [hp, hp', hq, hq']
    exact ⟨hsame, rfl, by simp [stepsLeft]⟩

/-- Handling a message takes it and one of the batches at hand. -/
theorem handle_keeps {queueSize : ℕ} {f f' : Forwarder}
    (h : f.step queueSize (.wire .handle) = some f') :
    ∃ m rest, inbox f = some (m :: rest) ∧ 0 < budget f ∧
      ((Ends m ∧ inbox f' = none) ∨
        (¬ Ends m ∧ inbox f' = some rest ∧ budget f' + 1 = budget f)) := by
  obtain ⟨s, s', hs, hw, rfl⟩ := wire_spec h
  obtain ⟨batch, m, rest, hp, hi, hm⟩ := handle_spec hw
  obtain ⟨hinbox, hserving⟩ := inbox_afterWire f s'
  rw [inbox_serving hs, budget_serving hs, hinbox, hp]
  refine ⟨m, rest, hi, by simp [atHand], ?_⟩
  rcases hm with ⟨hends, hnone⟩ | ⟨hends, hwait, hrest⟩
  · exact Or.inl ⟨hends, hnone⟩
  · refine Or.inr ⟨hends, hrest, ?_⟩
    rw [budget_serving (hserving (by simp [hwait])), Forwarder.afterWire_queue, hwait]
    exact Nat.add_comm ..

/-- With a message and a batch at hand there is a step. -/
theorem exists_step {queueSize : ℕ} {f : Forwarder} {m : Message} {rest : List Message}
    (hi : inbox f = some (m :: rest)) (hb : 0 < budget f) :
    (f.step queueSize .recv).isSome ∨ (f.step queueSize (.wire .handle)).isSome := by
  cases hstatus : f.status with
  | serving s =>
    rw [inbox_serving hstatus] at hi
    rw [budget_serving hstatus] at hb
    obtain ⟨hinbox, hne⟩ := unconsumed_eq_some.mp hi
    cases hp : s.phase with
    | waiting =>
      rw [hp] at hb
      cases hq : f.queue with
      | nil =>
        rw [hq] at hb
        exact absurd hb (by simp [atHand, nextBatch])
      | cons t queue => exact Or.inl (by simp [Forwarder.step, hstatus, hq, Session.take, hp])
    | draining batch =>
      cases hq : f.queue with
      | nil => exact Or.inl (by simp [Forwarder.step, hstatus, hq, Session.drained, hp])
      | cons t queue => exact Or.inl (by simp [Forwarder.step, hstatus, hq, Session.take, hp])
    | requesting batch =>
      have hhandle := handle_enabled hp hinbox
      exact Or.inr (by simp [Forwarder.step, hstatus, hhandle])
    | ended e => exact absurd hp (hne e)
  | disconnected => simp [inbox, Forwarder.current, hstatus] at hi
  | handshaking => simp [inbox, Forwarder.current, hstatus] at hi
  | finished => simp [inbox, Forwarder.current, hstatus] at hi

theorem arrive_keeps {queueSize : ℕ} {f f' : Forwarder} {m : Message}
    (h : f.step queueSize (.wire (.arrive m)) = some f') :
    ∃ ms, inbox f = some ms ∧ inbox f' = some (ms ++ [m]) ∧ budget f' = budget f := by
  obtain ⟨s, s', hs, hw, rfl⟩ := wire_spec h
  obtain ⟨hi, hi', hp⟩ := arrive_spec hw
  obtain ⟨hinbox, hserving⟩ := inbox_afterWire f s'
  have hne : ∀ e, s'.phase ≠ .ended e := (unconsumed_eq_some.mp hi').2
  refine ⟨s.inbox, (inbox_serving hs).trans hi, hinbox.trans hi', ?_⟩
  rw [budget_serving (hserving hne), budget_serving hs, Forwarder.afterWire_queue, hp]

theorem atHand_mono {q q' : ℕ} {p : Phase} (h : q ≤ q') : atHand q 0 p ≤ atHand q' 0 p := by
  cases p with
  | waiting => exact h
  | draining batch => exact Nat.le_refl _
  | requesting batch => exact Nat.add_le_add_left h 1
  | ended e => exact Nat.le_refl _

/-- No other step takes a message or a batch, unless it ends a session or begins one. -/
theorem other_keeps {queueSize : ℕ} {f f' : Forwarder} {e : TraceForwarder.Event}
    (hrecv : e ≠ .recv) (hhandle : e ≠ .wire .handle) (harrives : arrives e = none)
    (h : f.step queueSize e = some f') :
    inbox f' = none ∨ inbox f' = some [] ∨ (inbox f' = inbox f ∧ budget f ≤ budget f') := by
  cases Forwarder.step_spec h with
  | accept t =>
    refine Or.inr (Or.inr ⟨rfl, ?_⟩)
    cases hstatus : f.status with
    | serving s =>
      rw [budget_serving (s := s) hstatus, budget_serving (s := s) rfl]
      apply atHand_mono
      simp only [nextBatch, List.length_append]
      omega
    | disconnected => simp [budget, Forwarder.current, hstatus]
    | handshaking => simp [budget, Forwarder.current, hstatus]
    | finished => simp [budget, Forwarder.current, hstatus]
  | connect hs => exact Or.inl rfl
  | established hs => exact Or.inr (Or.inl rfl)
  | refused hs => exact Or.inl rfl
  | recv hs hq ht => exact absurd rfl hrecv
  | drained hs hd => exact absurd rfl hrecv
  | @wire s s' w hs hw =>
    refine Or.inl ((inbox_afterWire f s').1.trans (failed_spec hw ?_ ?_))
    · intro m hm
      rw [hm] at harrives
      cases harrives
    · intro hw'
      exact hhandle (congrArg _ hw')

/-- Either session loop works its messages off within its budget. -/
theorem budgeted (queueSize : ℕ) : (server queueSize).Budgeted budget work where
  own f e f' he h := by
    replace h : f.step queueSize e = some f' := h
    rcases he with rfl | rfl
    · obtain ⟨hsame, hkeep, -⟩ := recv_keeps h
      exact Or.inl ⟨hsame, hkeep⟩
    · exact Or.inr (handle_keeps h)
  arrive f e f' m harr h := by
    replace h : f.step queueSize e = some f' := h
    cases e with
    | wire w =>
      cases w with
      | arrive m' =>
        obtain rfl : m' = m := Option.some.inj harr
        exact arrive_keeps h
      | _ => cases harr
    | _ => cases harr
  other f e f' hown harr h :=
    other_keeps (fun he => hown (Or.inl he)) (fun he => hown (Or.inr he)) harr h
  progress f m rest hi hb := by
    have henabled : (f.step queueSize .recv).isSome ∨ (f.step queueSize (.wire .handle)).isSome :=
      exists_step hi hb
    rcases henabled with h | h
    · obtain ⟨f', h⟩ := Option.isSome_iff_exists.mp h
      exact ⟨.recv, f', Or.inl rfl, h, fun _ => (recv_keeps h).2.2⟩
    · obtain ⟨f', h⟩ := Option.isSome_iff_exists.mp h
      refine ⟨.wire .handle, f', Or.inr rfl, h, fun hsame => ?_⟩
      obtain ⟨m', rest', hi', -, htook⟩ := handle_keeps h
      replace hsame : inbox f' = some (m' :: rest') := hsame.trans hi'
      rcases htook with ⟨-, hnone⟩ | ⟨-, hrest, -⟩
      · rw [hnone] at hsame
        cases hsame
      · rw [hrest, Option.some.injEq] at hsame
        exact absurd hsame.symm (List.cons_ne_self m' rest')

end Forwarder

/-! One downstream of the accepting re-forwarder. -/

namespace Downstream

open ReForwarder

def inbox (d : Downstream) : Option (List Message) := unconsumed d.session

/-- A lag that is reported while draining leaves the batches after it for the next round. -/
def budget (d : Downstream) : ℕ :=
  atHand (nextBatch d.buffer) (if 0 < d.missed then nextBatch d.buffer else 0) d.session.phase

def work (d : Downstream) : ℕ := stepsLeft d.session.phase + d.buffer.length + d.missed

def arrives : ReForwarder.Event → Option Message
  | .wire (.arrive m) => some m
  | _ => none

def server (capacity : ℕ) : Server Downstream ReForwarder.Event Message where
  step := Downstream.step capacity
  own e := e = .recv ∨ e = .wire .handle
  arrives := arrives
  inbox := inbox
  ends := Ends
  urgent := Urgent

theorem receive_keeps {d d' : Downstream} {batch : List TraceObject}
    {buffer : List (List TraceObject)} (hb : d.buffer = batch :: buffer) (hm : d.missed = 0)
    (h : d.receive batch buffer = some d') :
    inbox d' = inbox d ∧ budget d' = budget d ∧ work d' < work d := by
  obtain ⟨s, hs, rfl⟩ := Option.map_eq_some_iff.mp h
  obtain ⟨hsame, ⟨batch', hp'⟩, hp⟩ := take_unconsumed hs
  refine ⟨hsame, ?_, ?_⟩
  · rcases hp with hp | ⟨batch'', hp⟩
    · simp [budget, hp', hp, hb, hm, atHand, nextBatch]
    · simp [budget, hp', hp, hm, atHand]
  · rcases hp with hp | ⟨batch'', hp⟩
    · simp only [work, hp', hp, hb, stepsLeft, List.length_cons]
      omega
    · simp only [work, hp', hp, hb, stepsLeft, List.length_cons]
      omega

/-- The draining ends: nothing is left, or a lag is reported. -/
theorem drained_keeps {d : Downstream} {s : Session} (h : d.session.drained = some s)
    (hrest : 0 < d.missed ∨ d.buffer = []) :
    inbox { d with session := s, missed := 0 } = inbox d ∧
      budget { d with session := s, missed := 0 } = budget d ∧
      work { d with session := s, missed := 0 } < work d := by
  obtain ⟨hsame, ⟨batch, hp⟩, batch', hp'⟩ := drained_unconsumed h
  refine ⟨hsame, ?_, ?_⟩
  · rcases hrest with hm | hb
    · simp [budget, hp', hp, hm, atHand]
    · simp [budget, hp', hp, hb, atHand, nextBatch]
  · simp only [work, hp', hp, stepsLeft]
    omega

theorem recv_keeps {capacity : ℕ} {d d' : Downstream} (h : d.step capacity .recv = some d') :
    inbox d' = inbox d ∧ budget d' = budget d ∧ work d' < work d := by
  simp only [Downstream.step] at h
  split at h
  · rename_i hp
    split at h
    · rename_i hm
      rw [← Option.some.inj h]
      refine ⟨rfl, by simp [budget, hp, atHand], ?_⟩
      simp only [work]
      omega
    · rename_i hm
      split at h
      · rename_i batch buffer hb
        exact receive_keeps hb (Nat.eq_zero_of_not_pos hm) h
      · cases h
  · split at h
    · rename_i hm
      obtain ⟨s, hs, rfl⟩ := Option.map_eq_some_iff.mp h
      exact drained_keeps hs (Or.inl hm)
    · rename_i hm
      have hm : d.missed = 0 := Nat.eq_zero_of_not_pos hm
      split at h
      · rename_i batch buffer hb
        exact receive_keeps hb hm h
      · rename_i hb
        obtain ⟨s, hs, rfl⟩ := Option.map_eq_some_iff.mp h
        have hkeep := drained_keeps hs (Or.inr hb)
        rw [← hm] at hkeep
        exact hkeep
  · cases h

theorem wire_spec {capacity : ℕ} {d d' : Downstream} {e : WireEvent}
    (h : d.step capacity (.wire e) = some d') :
    ∃ s, d.session.onWire e = some s ∧ d' = { d with session := s } := by
  obtain ⟨s, hs, rfl⟩ := Option.map_eq_some_iff.mp h
  exact ⟨s, hs, rfl⟩

theorem handle_keeps {capacity : ℕ} {d d' : Downstream}
    (h : d.step capacity (.wire .handle) = some d') :
    ∃ m rest, inbox d = some (m :: rest) ∧ 0 < budget d ∧
      ((Ends m ∧ inbox d' = none) ∨
        (¬ Ends m ∧ inbox d' = some rest ∧ budget d' + 1 = budget d)) := by
  obtain ⟨s, hw, rfl⟩ := wire_spec h
  obtain ⟨batch, m, rest, hp, hi, hm⟩ := handle_spec hw
  refine ⟨m, rest, hi, by simp [budget, hp, atHand], ?_⟩
  rcases hm with ⟨hends, hnone⟩ | ⟨hends, hwait, hrest⟩
  · exact Or.inl ⟨hends, hnone⟩
  · refine Or.inr ⟨hends, hrest, ?_⟩
    simp only [budget, hp, hwait, atHand]
    omega

theorem exists_step {capacity : ℕ} {d : Downstream} {m : Message} {rest : List Message}
    (hi : inbox d = some (m :: rest)) (hb : 0 < budget d) :
    (d.step capacity .recv).isSome ∨ (d.step capacity (.wire .handle)).isSome := by
  obtain ⟨hinbox, hne⟩ := unconsumed_eq_some.mp hi
  cases hp : d.session.phase with
  | waiting =>
    left
    rw [budget, hp] at hb
    by_cases hm : 0 < d.missed
    · simp [Downstream.step, hp, hm]
    · cases hbuf : d.buffer with
      | nil =>
        rw [hbuf] at hb
        exact absurd hb (by simp [atHand, nextBatch])
      | cons batch buffer =>
        simp [Downstream.step, hp, hm, hbuf, Downstream.receive, Session.take]
  | draining batch =>
    left
    by_cases hm : 0 < d.missed
    · simp [Downstream.step, hp, hm, Session.drained]
    · cases hbuf : d.buffer with
      | nil => simp [Downstream.step, hp, hm, hbuf, Session.drained]
      | cons batch buffer =>
        simp [Downstream.step, hp, hm, hbuf, Downstream.receive, Session.take]
  | requesting batch =>
    have hhandle := handle_enabled hp hinbox
    exact Or.inr (by simp [Downstream.step, hhandle])
  | ended e => exact absurd hp (hne e)

theorem arrive_keeps {capacity : ℕ} {d d' : Downstream} {m : Message}
    (h : d.step capacity (.wire (.arrive m)) = some d') :
    ∃ ms, inbox d = some ms ∧ inbox d' = some (ms ++ [m]) ∧ budget d' = budget d := by
  obtain ⟨s, hw, rfl⟩ := wire_spec h
  obtain ⟨hi, hi', hp⟩ := arrive_spec hw
  exact ⟨d.session.inbox, hi, hi', by simp only [budget, hp]⟩

theorem broadcast_keeps {capacity : ℕ} {d d' : Downstream} {batch : List TraceObject}
    (h : d.step capacity (.broadcast batch) = some d') :
    inbox d' = inbox d ∧ budget d ≤ budget d' := by
  have hspec : d'.session = d.session ∧ nextBatch d.buffer ≤ nextBatch d'.buffer ∧
      d.missed ≤ d'.missed := by
    simp only [Downstream.step] at h
    split at h
    · rw [← Option.some.inj h]
      exact ⟨rfl, by simp only [nextBatch, List.length_append]; omega, Nat.le_refl _⟩
    · rw [← Option.some.inj h]
      refine ⟨rfl, ?_, Nat.le_succ _⟩
      simp only [nextBatch, List.length_append, List.length_singleton]
      omega
  obtain ⟨hs, hbuf, hm⟩ := hspec
  refine ⟨by rw [inbox, inbox, hs], ?_⟩
  rw [budget, budget, hs]
  cases d.session.phase with
  | waiting => exact hbuf
  | draining batch =>
    simp only [atHand]
    split
    · rw [if_pos (by omega)]
      omega
    · omega
  | requesting batch =>
    simp only [atHand]
    omega
  | ended e => exact Nat.le_refl _

theorem budgeted (capacity : ℕ) : (server capacity).Budgeted budget work where
  own d e d' he h := by
    replace h : d.step capacity e = some d' := h
    rcases he with rfl | rfl
    · obtain ⟨hsame, hkeep, -⟩ := recv_keeps h
      exact Or.inl ⟨hsame, hkeep⟩
    · exact Or.inr (handle_keeps h)
  arrive d e d' m harr h := by
    replace h : d.step capacity e = some d' := h
    cases e with
    | wire w =>
      cases w with
      | arrive m' =>
        obtain rfl : m' = m := Option.some.inj harr
        exact arrive_keeps h
      | _ => cases harr
    | _ => cases harr
  other d e d' hown harr h := by
    replace h : d.step capacity e = some d' := h
    cases e with
    | broadcast batch => exact Or.inr (Or.inr (broadcast_keeps h))
    | recv => exact absurd (Or.inl rfl) hown
    | wire w =>
      obtain ⟨s, hw, rfl⟩ := wire_spec h
      refine Or.inl (failed_spec hw ?_ ?_)
      · intro m hm
        rw [hm] at harr
        cases harr
      · intro hw'
        exact hown (Or.inr (congrArg _ hw'))
  progress d m rest hi hb := by
    have henabled : (d.step capacity .recv).isSome ∨ (d.step capacity (.wire .handle)).isSome :=
      exists_step hi hb
    rcases henabled with h | h
    · obtain ⟨d', h⟩ := Option.isSome_iff_exists.mp h
      exact ⟨.recv, d', Or.inl rfl, h, fun _ => (recv_keeps h).2.2⟩
    · obtain ⟨d', h⟩ := Option.isSome_iff_exists.mp h
      refine ⟨.wire .handle, d', Or.inr rfl, h, fun hsame => ?_⟩
      obtain ⟨m', rest', hi', -, htook⟩ := handle_keeps h
      replace hsame : inbox d' = some (m' :: rest') := hsame.trans hi'
      rcases htook with ⟨-, hnone⟩ | ⟨-, hrest, -⟩
      · rw [hnone] at hsame
        cases hsame
      · rw [hrest, Option.some.injEq] at hsame
        exact absurd hsame.symm (List.cons_ne_self m' rest')

end Downstream

/-- At every moment of a session, of the forwarder or of a downstream, what is due can be
consumed without another trace exactly when each such message arrived while there were
more batches at hand than messages before it, or one of those ends the session. -/
theorem responsive_iff_inTime (queueSize capacity : ℕ) :
    (∀ es t, run (TraceForwarder.Forwarder.step queueSize) .start es = some t →
      ((∀ f, Reached (TraceForwarder.Forwarder.step queueSize) .start es f →
          (Forwarder.server queueSize).Responsive f) ↔
        Along (TraceForwarder.Forwarder.step queueSize)
          ((Forwarder.server queueSize).InTime Forwarder.budget) .start es)) ∧
    (∀ es t, run (ReForwarder.Downstream.step capacity) .start es = some t →
      ((∀ d, Reached (ReForwarder.Downstream.step capacity) .start es d →
          (Downstream.server capacity).Responsive d) ↔
        Along (ReForwarder.Downstream.step capacity)
          ((Downstream.server capacity).InTime Downstream.budget) .start es)) :=
  ⟨fun _ _ h => (Forwarder.budgeted queueSize).reached_responsive_iff
      (Server.responsive_of_none rfl) h,
    fun _ _ h => (Downstream.budgeted capacity).reached_responsive_iff
      (Server.responsive_of_nil rfl) h⟩

def early (m : Message) : List TraceForwarder.Event :=
  [.connect, .handshake true, .wire (.arrive m)]

theorem responsive_iff_inTime_early :
    ∃ f d, run (TraceForwarder.Forwarder.step 10) .start (early .done) = some f ∧
      run (ReForwarder.Downstream.step 16) .start [.wire (.arrive .done)] = some d ∧
      ((∀ g, Reached (TraceForwarder.Forwarder.step 10) .start (early .done) g →
          (Forwarder.server 10).Responsive g) ↔
        Along (TraceForwarder.Forwarder.step 10)
          ((Forwarder.server 10).InTime Forwarder.budget) .start (early .done)) ∧
      ((∀ g, Reached (ReForwarder.Downstream.step 16) .start [.wire (.arrive .done)] g →
          (Downstream.server 16).Responsive g) ↔
        Along (ReForwarder.Downstream.step 16)
          ((Downstream.server 16).InTime Downstream.budget) .start [.wire (.arrive .done)]) :=
  ⟨_, _, rfl, rfl, (responsive_iff_inTime 10 16).1 (early .done) _ rfl,
    (responsive_iff_inTime 10 16).2 [.wire (.arrive .done)] _ rfl⟩

theorem not_covered_zero {σ ε : Type} {sv : Server σ ε Message} (hu : sv.urgent = Urgent)
    {m : Message} (hm : Urgent m) : ¬ sv.Covered 0 [m] := by
  intro h
  rcases h with ⟨m', hm', -⟩ | hnone
  · exact absurd hm' List.not_mem_nil
  · exact hnone m (List.mem_singleton_self m) (hu ▸ hm)

/-- Without a trace, neither loop gets to a `Done` or to a request that does not block. -/
theorem early_not_responsive (m : Message) (hm : Urgent m) :
    (∃ f, run (TraceForwarder.Forwarder.step 10) .start (early m) = some f ∧
      ¬ (Forwarder.server 10).Responsive f) ∧
    (∃ d, run (ReForwarder.Downstream.step 16) .start [.wire (.arrive m)] = some d ∧
      ¬ (Downstream.server 16).Responsive d) := by
  refine ⟨⟨_, rfl, ?_⟩, ⟨_, rfl, ?_⟩⟩
  · rw [(Forwarder.budgeted 10).responsive_iff rfl]
    exact not_covered_zero rfl hm
  · rw [(Downstream.budgeted 16).responsive_iff rfl]
    exact not_covered_zero rfl hm

theorem done_not_responsive :
    ∃ f, run (TraceForwarder.Forwarder.step 10) .start (early .done) = some f ∧
      ¬ (Forwarder.server 10).Responsive f :=
  (early_not_responsive .done trivial).1

end Hermod.Responsiveness
