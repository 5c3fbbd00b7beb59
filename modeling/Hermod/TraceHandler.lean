import Hermod.ForwarderHandle
import Hermod.LogWriter
import Hermod.ReForwarder

/-!
What a tracer does with the traces it receives: each batch is logged, forwarded through
the queue of an outbound forwarder, and its metrics are pushed. The batches of several
nodes are handled at the same time, and all of them send to the same queue.
-/
namespace Hermod.TraceHandler

open ProtocolTypes TraceForwardClient TraceForwarder ForwarderHandle ReForwarder TracerState
  LogWriter Transitions

inductive LogMode
  | fileMode
  | journalMode
  deriving DecidableEq

structure LoggingParams where
  logRoot : Path
  logMode : LogMode
  logFormat : LogFormat
  deriving DecidableEq

structure Config where
  queueSize : ℕ
  namespaceFilters : NamespaceFilters
  logging : List LoggingParams
  nodeName : ℕ → NodeId

inductive Output
  | writeTraces (key : LogKey) (traces : List TraceObject)
  | writeToJournal (nodeName : NodeId) (traces : List TraceObject)
  | pushTraceMetrics (traces : List TraceObject)

def LoggingParams.output (params : LoggingParams) (nodeName : NodeId)
    (traces : List TraceObject) : Output :=
  match params.logMode with
  | .fileMode => .writeTraces ⟨nodeName, params.logRoot, params.logFormat⟩ traces
  | .journalMode => .writeToJournal nodeName traces

inductive Stage
  | idle
  | logging (params : List LoggingParams) (traces : List TraceObject)
  /-- In `ReForwarder::forward`, with `filtered` left to be sent. -/
  | forwarding (filtered traces : List TraceObject)
  | metrics (traces : List TraceObject)
  deriving DecidableEq

def Stage.Sending : Stage → Prop
  | .forwarding (_ :: _) _ => True
  | _ => False

/-- The outbound forwarder and the handlers of the nodes. The calls made for each node
are kept as history. -/
structure Tracer where
  forwarder : Forwarder
  handlers : ℕ → Stage
  outputs : ℕ → List Output

inductive Event
  /-- The trace loop of node `i` has received a batch. -/
  | begin (i : ℕ) (traces : List TraceObject)
  /-- The handler of node `i` takes its next step. -/
  | handle (i : ℕ)
  /-- A step of the forwarder or of the network. -/
  | forwarder (e : TraceForwarder.Event)

namespace Tracer

def start : Tracer := ⟨Forwarder.start, fun _ => .idle, fun _ => []⟩

def setStage (s : Tracer) (i : ℕ) (stage : Stage) : Tracer :=
  { s with handlers := Function.update s.handlers i stage }

@[simp] theorem setStage_forwarder (s : Tracer) (i : ℕ) (stage : Stage) :
    (s.setStage i stage).forwarder = s.forwarder := rfl

@[simp] theorem setStage_outputs (s : Tracer) (i : ℕ) (stage : Stage) :
    (s.setStage i stage).outputs = s.outputs := rfl

@[simp] theorem setStage_self (s : Tracer) (i : ℕ) (stage : Stage) :
    (s.setStage i stage).handlers i = stage := Function.update_self ..

@[simp] theorem setStage_of_ne (s : Tracer) {i j : ℕ} (stage : Stage) (hj : j ≠ i) :
    (s.setStage i stage).handlers j = s.handlers j := Function.update_of_ne hj ..

def record (s : Tracer) (i : ℕ) (output : Output) : Tracer :=
  { s with outputs := Function.update s.outputs i (s.outputs i ++ [output]) }

/-- Traces are accepted from the handlers only. -/
def ownStep : TraceForwarder.Event → Bool
  | .accept _ => false
  | _ => true

def handle (cfg : Config) (s : Tracer) (i : ℕ) : Option Tracer :=
  match s.handlers i with
  | .idle => none
  | .logging (params :: rest) traces =>
    some ((s.record i (params.output (cfg.nodeName i) traces)).setStage i (.logging rest traces))
  | .logging [] traces =>
    some (s.setStage i (.forwarding (traces.filter (matchesFilter cfg.namespaceFilters)) traces))
  | .forwarding (trace :: rest) traces =>
    (send cfg.queueSize s.forwarder trace).map fun result =>
      match result with
      | .ok f => setStage { s with forwarder := f } i (.forwarding rest traces)
      -- The error is logged and the next trace is tried.
      | .error _ => s.setStage i (.forwarding rest traces)
  | .forwarding [] traces => some (s.setStage i (.metrics traces))
  | .metrics traces => some ((s.record i (.pushTraceMetrics traces)).setStage i .idle)

def step (cfg : Config) (s : Tracer) : Event → Option Tracer
  | .begin i traces =>
    match s.handlers i with
    | .idle => some (s.setStage i (.logging cfg.logging traces))
    | _ => none
  | .handle i => s.handle cfg i
  | .forwarder e =>
    if ownStep e then (s.forwarder.step cfg.queueSize e).map fun f => { s with forwarder := f }
    else none

/-- Every handler with a batch can take its next step. -/
def NoStall (cfg : Config) (s : Tracer) : Prop :=
  ∀ i, s.handlers i ≠ .idle → (s.step cfg (.handle i)).isSome

/-- A batch that comes to be forwarded has nothing to send, or finds room in the queue. A
trace that is sent leaves room behind it, or nothing that waits to be sent. -/
def Clear (cfg : Config) (s : Tracer) : Event → Prop
  | .handle i =>
    match s.handlers i with
    | .logging [] traces =>
      traces.filter (matchesFilter cfg.namespaceFilters) = [] ∨ CanSend cfg.queueSize s.forwarder
    | .forwarding (_ :: rest) _ =>
      s.forwarder.status = .finished ∨ s.forwarder.queue.length + 1 < cfg.queueSize ∨
        (rest = [] ∧ ∀ j, j ≠ i → ¬ (s.handlers j).Sending)
    | _ => True
  | _ => True

/-! What stalls a handler. -/

/-- Nothing but accepting a trace takes the room from the queue. -/
theorem canSend_step {queueSize : ℕ} {f f' : Forwarder} {e : TraceForwarder.Event}
    (hf : CanSend queueSize f) (he : ownStep e = true) (h : f.step queueSize e = some f') :
    CanSend queueSize f' := by
  have hqueue : f.status ≠ .finished ∧ f'.queue.length ≤ f.queue.length := by
    cases Forwarder.step_spec h with
    | accept t => cases he
    | connect hs =>
      refine ⟨?_, Nat.le_refl _⟩
      intro hfinished
      simp [Forwarder.step, hfinished] at h
    | established hs =>
      refine ⟨?_, Nat.le_refl _⟩
      intro hfinished
      simp [Forwarder.step, hfinished] at h
    | refused hs =>
      refine ⟨?_, Nat.le_refl _⟩
      intro hfinished
      simp [Forwarder.step, hfinished] at h
    | recv hs hq ht =>
      refine ⟨by simp [hs], ?_⟩
      rw [hq]
      exact Nat.le_succ _
    | drained hs hd => exact ⟨by simp [hs], Nat.le_refl _⟩
    | wire hs hw =>
      refine ⟨by simp [hs], ?_⟩
      rw [Forwarder.afterWire_queue]
  rcases hf with hfinished | hroom
  · exact absurd hfinished hqueue.1
  · exact Or.inr (by omega)

/-- A handler waits only where it sends into a full queue. -/
theorem handle_isSome_iff {cfg : Config} {s : Tracer} {i : ℕ} (hi : s.handlers i ≠ .idle) :
    (s.handle cfg i).isSome ↔
      ((s.handlers i).Sending → CanSend cfg.queueSize s.forwarder) := by
  unfold handle
  cases hstage : s.handlers i with
  | idle => exact absurd hstage hi
  | logging params traces =>
    cases params with
    | nil => simp [Stage.Sending]
    | cons params rest => simp [Stage.Sending]
  | forwarding filtered traces =>
    cases filtered with
    | nil => simp [Stage.Sending]
    | cons trace rest => simp [Stage.Sending, send_isSome_iff]
  | metrics traces => simp [Stage.Sending]

/-- All handlers go on where those that send find room. -/
theorem noStall_iff {cfg : Config} {s : Tracer} :
    NoStall cfg s ↔ ∀ i, (s.handlers i).Sending → CanSend cfg.queueSize s.forwarder := by
  constructor
  · intro h i hsending
    have hi : s.handlers i ≠ .idle := by
      intro hidle
      rw [hidle] at hsending
      exact hsending
    exact (handle_isSome_iff hi).mp (h i hi) hsending
  · intro h i hi
    exact (handle_isSome_iff hi).mpr (h i)

/-- Moving one handler stalls nothing if it can send, and the others still can. -/
theorem noStall_setStage_iff {cfg : Config} {s : Tracer} {i : ℕ} {stage : Stage} :
    NoStall cfg (s.setStage i stage) ↔ (stage.Sending → CanSend cfg.queueSize s.forwarder) ∧
      ∀ j, j ≠ i → (s.handlers j).Sending → CanSend cfg.queueSize s.forwarder := by
  rw [noStall_iff]
  constructor
  · intro h
    refine ⟨by simpa using h i, ?_⟩
    intro j hj
    simpa [hj] using h j
  · intro h j
    by_cases hj : j = i
    · subst hj
      simpa using h.1
    · simpa [hj] using h.2 j hj

/-- After a trace has been sent the others need room behind it. -/
theorem noStall_sent_iff {cfg : Config} {s : Tracer} {i : ℕ} {f : Forwarder} {trace : TraceObject}
    {rest traces : List TraceObject} (h : send cfg.queueSize s.forwarder trace = some (.ok f)) :
    NoStall cfg (setStage { s with forwarder := f } i (.forwarding rest traces)) ↔
      s.forwarder.status = .finished ∨ s.forwarder.queue.length + 1 < cfg.queueSize ∨
        (rest = [] ∧ ∀ j, j ≠ i → ¬ (s.handlers j).Sending) := by
  obtain ⟨hfinished, hstatus, hqueue⟩ := send_ok h
  have hcan : CanSend cfg.queueSize f ↔ s.forwarder.queue.length + 1 < cfg.queueSize := by
    rw [CanSend, hstatus, hqueue, List.length_append, List.length_singleton,
      or_iff_right hfinished]
  rw [noStall_setStage_iff]
  simp only [hcan, hfinished, false_or]
  by_cases hspace : s.forwarder.queue.length + 1 < cfg.queueSize
  · simp [hspace]
  · cases rest with
    | nil => simp [hspace, Stage.Sending]
    | cons trace' rest => simp [hspace, Stage.Sending]

theorem noStall_handle_iff {cfg : Config} {s s' : Tracer} {i : ℕ} (hs : NoStall cfg s)
    (h : s.handle cfg i = some s') : NoStall cfg s' ↔ Clear cfg s (.handle i) := by
  have hothers : ∀ j, j ≠ i → (s.handlers j).Sending → CanSend cfg.queueSize s.forwarder :=
    fun j _ => noStall_iff.mp hs j
  unfold handle at h
  cases hstage : s.handlers i with
  | idle =>
    rw [hstage] at h
    cases h
  | logging params traces =>
    rw [hstage] at h
    cases params with
    | cons params rest =>
      rw [← Option.some.inj h]
      refine iff_of_true ?_ (by simp [Clear, hstage])
      exact noStall_setStage_iff.mpr ⟨False.elim, hothers⟩
    | nil =>
      rw [← Option.some.inj h, noStall_setStage_iff, and_iff_left hothers]
      simp only [Clear, hstage]
      cases traces.filter (matchesFilter cfg.namespaceFilters) with
      | nil => simp [Stage.Sending]
      | cons trace rest => simp [Stage.Sending]
  | metrics traces =>
    rw [hstage] at h
    rw [← Option.some.inj h]
    refine iff_of_true ?_ (by simp [Clear, hstage])
    exact noStall_setStage_iff.mpr ⟨False.elim, hothers⟩
  | forwarding filtered traces =>
    rw [hstage] at h
    cases filtered with
    | nil =>
      rw [← Option.some.inj h]
      refine iff_of_true ?_ (by simp [Clear, hstage])
      exact noStall_setStage_iff.mpr ⟨False.elim, hothers⟩
    | cons trace rest =>
      obtain ⟨result, hsend, rfl⟩ := Option.map_eq_some_iff.mp h
      simp only [Clear, hstage]
      cases result with
      | error e =>
        have hfinished := send_error hsend
        refine iff_of_true (noStall_setStage_iff.mpr ⟨fun _ => Or.inl hfinished, hothers⟩) ?_
        exact Or.inl hfinished
      | ok f => exact noStall_sent_iff hsend

/-- A step leaves no handler waiting exactly when it is clear. -/
theorem noStall_step_iff {cfg : Config} {s s' : Tracer} {e : Event} (hs : NoStall cfg s)
    (h : s.step cfg e = some s') : NoStall cfg s' ↔ Clear cfg s e := by
  cases e with
  | begin i traces =>
    refine iff_of_true ?_ trivial
    simp only [step] at h
    split at h
    · rw [← Option.some.inj h]
      exact noStall_setStage_iff.mpr ⟨False.elim, fun j _ => noStall_iff.mp hs j⟩
    · cases h
  | handle i => exact noStall_handle_iff hs h
  | forwarder e =>
    refine iff_of_true ?_ trivial
    simp only [step] at h
    split at h
    · rename_i he
      obtain ⟨f, hf, rfl⟩ := Option.map_eq_some_iff.mp h
      rw [noStall_iff]
      intro i hsending
      exact canSend_step (noStall_iff.mp hs i hsending) he hf
    · cases h

theorem noStall_start (cfg : Config) : NoStall cfg start :=
  fun _ h => absurd rfl h

/-! A handler that is never made to wait finishes its batch. -/

def toSend (cfg : Config) : Stage → List TraceObject
  | .logging _ traces => traces.filter (matchesFilter cfg.namespaceFilters)
  | .forwarding filtered _ => filtered
  | _ => []

def toOutput (nodeName : NodeId) : Stage → List Output
  | .idle => []
  | .logging params traces =>
    params.map (fun params => params.output nodeName traces) ++ [.pushTraceMetrics traces]
  | .forwarding _ traces => [.pushTraceMetrics traces]
  | .metrics traces => [.pushTraceMetrics traces]

/-- Steps of the handler alone lead to where it has made all its calls. -/
def Finishes (cfg : Config) (s : Tracer) (i : ℕ) : Prop :=
  ∃ n t, run (Tracer.step cfg) s (List.replicate n (.handle i)) = some t ∧
    t.handlers i = .idle ∧
    t.outputs i = s.outputs i ++ toOutput (cfg.nodeName i) (s.handlers i)

/-- One step of the handler, and what it still has to call. -/
theorem Finishes.step {cfg : Config} {s : Tracer} {i : ℕ} (s' : Tracer)
    (h : s.handle cfg i = some s')
    (hout : s'.outputs i ++ toOutput (cfg.nodeName i) (s'.handlers i) =
      s.outputs i ++ toOutput (cfg.nodeName i) (s.handlers i))
    (hs' : Finishes cfg s' i) : Finishes cfg s i := by
  obtain ⟨n, t, hrun, hidle, ht⟩ := hs'
  refine ⟨n + 1, t, ?_, hidle, ht.trans hout⟩
  rw [List.replicate_succ]
  exact run_cons_iff.mpr ⟨s', h, hrun⟩

theorem finishes_metrics {cfg : Config} {s : Tracer} {i : ℕ} {traces : List TraceObject}
    (hs : s.handlers i = .metrics traces) : Finishes cfg s i := by
  refine Finishes.step ((s.record i (.pushTraceMetrics traces)).setStage i .idle) ?_ ?_
    ⟨0, _, rfl, setStage_self .., ?_⟩
  · simp [handle, hs]
  · simp [record, toOutput, hs]
  · simp [toOutput]

/-- With room for all its traces a handler comes to its end. -/
theorem finishes_forwarding {cfg : Config} {s : Tracer} {i : ℕ}
    {filtered traces : List TraceObject} (hs : s.handlers i = .forwarding filtered traces)
    (hroom : s.forwarder.status = .finished ∨
      s.forwarder.queue.length + filtered.length ≤ cfg.queueSize) : Finishes cfg s i := by
  induction filtered generalizing s with
  | nil =>
    refine Finishes.step (s.setStage i (.metrics traces)) ?_ ?_
      (finishes_metrics (setStage_self ..))
    · simp [handle, hs]
    · simp [toOutput, hs]
  | cons trace rest ih =>
    have hcan : CanSend cfg.queueSize s.forwarder := by
      rcases hroom with hfinished | hroom
      · exact Or.inl hfinished
      · refine Or.inr ?_
        rw [List.length_cons] at hroom
        omega
    have hsome : (send cfg.queueSize s.forwarder trace).isSome := send_isSome_iff.mpr hcan
    obtain ⟨result, hsend⟩ := Option.isSome_iff_exists.mp hsome
    cases result with
    | error e =>
      have hfinished := send_error hsend
      refine Finishes.step (s.setStage i (.forwarding rest traces)) ?_ ?_
        (ih (setStage_self ..) (Or.inl hfinished))
      · simp [handle, hs, hsend]
      · simp [toOutput, hs]
    | ok f =>
      obtain ⟨hfinished, -, hqueue⟩ := send_ok hsend
      refine Finishes.step (setStage { s with forwarder := f } i (.forwarding rest traces))
        ?_ ?_ (ih (setStage_self ..) (Or.inr ?_))
      · simp [handle, hs, hsend]
      · simp [toOutput, hs]
      · have hlen := hroom.resolve_left hfinished
        rw [List.length_cons] at hlen
        rw [setStage_forwarder, hqueue, List.length_append, List.length_singleton]
        omega

theorem finishes_logging {cfg : Config} {s : Tracer} {i : ℕ} {params : List LoggingParams}
    {traces : List TraceObject} (hs : s.handlers i = .logging params traces)
    (hroom : s.forwarder.status = .finished ∨ s.forwarder.queue.length +
      (toSend cfg (.logging params traces)).length ≤ cfg.queueSize) : Finishes cfg s i := by
  induction params generalizing s with
  | nil =>
    refine Finishes.step (s.setStage i (.forwarding (toSend cfg (.logging [] traces)) traces))
      ?_ ?_ (finishes_forwarding (setStage_self ..) hroom)
    · simp [handle, hs, toSend]
    · simp [toOutput, hs]
  | cons params rest ih =>
    refine Finishes.step ((s.record i (params.output (cfg.nodeName i) traces)).setStage i
      (.logging rest traces)) ?_ ?_ (ih (setStage_self ..) hroom)
    · simp [handle, hs]
    · simp [record, toOutput, hs]

/-- With room in the queue for what is left to send, or with nobody to receive it, a
handler logs its batch, forwards or drops it and pushes its metrics. -/
theorem finishes_of_room {cfg : Config} {s : Tracer} {i : ℕ}
    (hroom : s.forwarder.status = .finished ∨
      s.forwarder.queue.length + (toSend cfg (s.handlers i)).length ≤ cfg.queueSize) :
    Finishes cfg s i := by
  cases hs : s.handlers i with
  | idle => exact ⟨0, s, rfl, hs, by simp [toOutput, hs]⟩
  | logging params traces => exact finishes_logging hs (hs ▸ hroom)
  | forwarding filtered traces => exact finishes_forwarding hs (by rwa [hs] at hroom)
  | metrics traces => exact finishes_metrics hs

end Tracer

/-- With a full queue `send` returns an error exactly when nobody receives any more, and
in all other states it waits. At every moment each handler with a batch can take a step
exactly when the queue was clear whenever there was something to send. -/
theorem send_and_handle_iff (cfg : Config) :
    (∀ (f : Forwarder) (trace : TraceObject), cfg.queueSize ≤ f.queue.length →
      (send cfg.queueSize f trace = some (.error .queueFull) ↔ f.status = .finished)) ∧
    (∀ es t, run (Tracer.step cfg) .start es = some t →
      ((∀ s, Reached (Tracer.step cfg) .start es s → Tracer.NoStall cfg s) ↔
        Along (Tracer.step cfg) (Tracer.Clear cfg) .start es)) :=
  ⟨fun _ trace hfull => send_queueFull_iff trace hfull,
    fun _ _ h => reached_iff_along (I := fun _ => True)
      (fun _ _ _ _ hs hstep => ⟨trivial, Tracer.noStall_step_iff hs hstep⟩) trivial
      (Tracer.noStall_start cfg) h⟩

def smallQueue : Config := ⟨1, none, [], fun _ => "node"⟩

def batchOfTwo (trace : TraceObject) : List Event :=
  [.begin 0 [trace, trace], .handle 0, .handle 0]

theorem send_and_handle_iff_two :
    let t : TraceObject := ⟨none, "{}", ["Test"], .info, .dNormal, ⟨0, 0, by decide⟩, "host", "1"⟩
    let full : Forwarder := ⟨.finished, [t], [t], []⟩
    (send 1 full t = some (.error .queueFull) ↔ full.status = .finished) ∧
      ∃ s, run (Tracer.step smallQueue) .start (batchOfTwo t) = some s ∧
        ((∀ s, Reached (Tracer.step smallQueue) .start (batchOfTwo t) s →
            Tracer.NoStall smallQueue s) ↔
          Along (Tracer.step smallQueue) (Tracer.Clear smallQueue) .start (batchOfTwo t)) := by
  intro t full
  refine ⟨(send_and_handle_iff smallQueue).1 full t (by decide), _, rfl, ?_⟩
  exact (send_and_handle_iff smallQueue).2 (batchOfTwo t) _ rfl

/-- The first trace fills the queue, and the second one waits in `send`. -/
theorem batch_of_two_stalls :
    let t : TraceObject := ⟨none, "{}", ["Test"], .info, .dNormal, ⟨0, 0, by decide⟩, "host", "1"⟩
    ∃ s, run (Tracer.step smallQueue) .start (batchOfTwo t) = some s ∧
      send smallQueue.queueSize s.forwarder t ≠ some (.error .queueFull) ∧
      ¬ Tracer.NoStall smallQueue s := by
  intro t
  refine ⟨_, rfl, by decide, ?_⟩
  intro h
  exact absurd (h 0 (by decide)) (by decide)

end Hermod.TraceHandler
