import Hermod.TraceForwarder

/-!
How many traces a forwarder holds. The queue is bounded by its size, and the batch that a
session has drained from it is held beside it.
-/
namespace Hermod.Buffering

open ProtocolTypes ProtocolMessages TraceForwardClient TraceForwarder Transitions

def Bounded (queueSize : ℕ) (f : Forwarder) : Prop := f.pending.length ≤ queueSize

/-- A trace that is accepted while a batch is held finds room beside the batch. -/
def Spares (queueSize : ℕ) (f : Forwarder) : TraceForwarder.Event → Prop
  | .accept _ => f.batch = [] ∨ f.batch.length + f.queue.length < queueSize
  | _ => True

theorem pending_length (f : Forwarder) : f.pending.length = f.batch.length + f.queue.length :=
  List.length_append

theorem batch_serving {f : Forwarder} {s : Session} (hs : f.status = .serving s) :
    f.batch = s.phase.batch := by
  rw [Forwarder.batch, Forwarder.current_serving hs]
  rfl

theorem batch_of_current_none {f : Forwarder} (hs : f.current = none) : f.batch = [] := by
  rw [Forwarder.batch, hs]
  rfl

theorem batch_afterWire (f : Forwarder) (s : Session) : (f.afterWire s).batch = s.phase.batch := by
  rcases Forwarder.afterWire_cases f s with ⟨⟨e, he⟩, hcurrent, -⟩ | ⟨-, hafter⟩
  · rw [batch_of_current_none hcurrent, he]
    rfl
  · rw [hafter]
    rfl

/-- A wire event keeps the batch or lets it go. -/
theorem onWire_batch_le {s s' : Session} {e : WireEvent} (h : s.onWire e = some s') :
    s'.phase.batch.length ≤ s.phase.batch.length := by
  cases Session.onWire_spec h with
  | arrive m => exact Nat.le_refl _
  | reply hp hi => exact Nat.zero_le _
  | refuse hp hi hm => exact Nat.zero_le _
  | recvFailed hp => exact Nat.zero_le _
  | sendFailed handed hp hi => exact Nat.zero_le _

theorem accept_spec {queueSize : ℕ} {f f' : Forwarder} {t : TraceObject}
    (h : f.step queueSize (.accept t) = some f') :
    f.queue.length < queueSize ∧ f'.pending.length = f.pending.length + 1 := by
  simp only [Forwarder.step] at h
  split at h
  · rename_i hroom
    rw [← Option.some.inj h]
    refine ⟨hroom.2, ?_⟩
    simp only [pending_length, List.length_append, List.length_singleton]
    exact (Nat.add_assoc ..).symm
  · cases h

/-- Only an accepted trace makes the forwarder hold more. -/
theorem pending_step_le {queueSize : ℕ} {f f' : Forwarder} {e : TraceForwarder.Event}
    (he : ∀ t, e ≠ .accept t) (h : f.step queueSize e = some f') :
    f'.pending.length ≤ f.pending.length := by
  rw [pending_length, pending_length]
  cases Forwarder.step_spec h with
  | accept t => exact absurd rfl (he t)
  | connect hs =>
    rw [batch_of_current_none rfl]
    exact Nat.add_le_add_right (Nat.zero_le _) _
  | established hs =>
    rw [batch_serving rfl]
    exact Nat.add_le_add_right (Nat.zero_le _) _
  | refused hs =>
    rw [batch_of_current_none rfl]
    exact Nat.add_le_add_right (Nat.zero_le _) _
  | @recv s s' t queue hs hq ht =>
    obtain ⟨-, rfl⟩ := Session.take_spec ht
    rw [batch_serving hs, batch_serving rfl, hq]
    simp only [Phase.batch, List.length_append, List.length_cons, List.length_nil]
    omega
  | @drained s s' hs hd =>
    obtain ⟨batch, hp, rfl⟩ := Session.drained_spec hd
    rw [batch_serving hs, batch_serving rfl, hp]
    exact Nat.le_refl _
  | @wire s s' e hs hw =>
    rw [batch_afterWire, batch_serving hs, Forwarder.afterWire_queue]
    exact Nat.add_le_add_right (onWire_batch_le hw) _

/-- Only an accepted trace can take the forwarder over the bound. -/
theorem bounded_step_iff {queueSize : ℕ} {f f' : Forwarder} {e : TraceForwarder.Event}
    (hf : Bounded queueSize f) (h : f.step queueSize e = some f') :
    Bounded queueSize f' ↔ Spares queueSize f e := by
  cases e with
  | accept t =>
    obtain ⟨hroom, hpending⟩ := accept_spec h
    rw [Bounded, hpending, pending_length, Spares, ← List.length_eq_zero_iff]
    omega
  | connect => exact iff_of_true ((pending_step_le (fun t ht => by cases ht) h).trans hf) trivial
  | handshake accepted =>
    exact iff_of_true ((pending_step_le (fun t ht => by cases ht) h).trans hf) trivial
  | recv => exact iff_of_true ((pending_step_le (fun t ht => by cases ht) h).trans hf) trivial
  | wire w => exact iff_of_true ((pending_step_le (fun t ht => by cases ht) h).trans hf) trivial

/-- At every moment the forwarder holds no more traces than the queue has room for exactly
when the traces accepted beside a batch find room for both. -/
theorem bounded_iff_spares (queueSize : ℕ) {es : List TraceForwarder.Event} {t : Forwarder}
    (h : run (Forwarder.step queueSize) .start es = some t) :
    (∀ f, Reached (Forwarder.step queueSize) .start es f → f.pending.length ≤ queueSize) ↔
      Along (Forwarder.step queueSize) (Spares queueSize) .start es :=
  reached_iff_along (I := fun _ => True) (Q := Bounded queueSize)
    (fun _ _ _ _ hf hstep => ⟨trivial, bounded_step_iff hf hstep⟩) trivial (Nat.zero_le _) h

def besideBatch (t : TraceObject) : List TraceForwarder.Event :=
  [.connect, .handshake true, .accept t, .recv, .accept t]

theorem bounded_iff_spares_two :
    let t : TraceObject := ⟨none, "{}", ["Test"], .info, .dNormal, ⟨0, 0, by decide⟩, "host", "1"⟩
    ∃ f, run (Forwarder.step 2) .start (besideBatch t) = some f ∧
      ((∀ f, Reached (Forwarder.step 2) .start (besideBatch t) f → f.pending.length ≤ 2) ↔
        Along (Forwarder.step 2) (Spares 2) .start (besideBatch t)) := by
  intro t
  exact ⟨_, rfl, @bounded_iff_spares 2 (besideBatch t) _ rfl⟩

/-- With room for one trace, two are held. -/
theorem beside_batch_exceeds :
    let t : TraceObject := ⟨none, "{}", ["Test"], .info, .dNormal, ⟨0, 0, by decide⟩, "host", "1"⟩
    ∃ f, run (Forwarder.step 1) .start (besideBatch t) = some f ∧ 1 < f.pending.length := by
  intro t
  exact ⟨_, rfl, by decide⟩

/-! While a session drains its queue, traces can be accepted without end. -/

/-- The session has drained `n` traces and left nothing in the queue. -/
def Drained (n : ℕ) (f : Forwarder) : Prop :=
  f.queue = [] ∧ ∃ s, f.status = .serving s ∧ s.phase.batch.length = n ∧
    (s.phase = .waiting ∨ ∃ batch, s.phase = .draining batch)

theorem Drained.accept_recv {queueSize n : ℕ} {f : Forwarder} (hsize : 0 < queueSize)
    (hf : Drained n f) (t : TraceObject) :
    ∃ f', run (Forwarder.step queueSize) f [.accept t, .recv] = some f' ∧ Drained (n + 1) f' := by
  obtain ⟨hq, s, hs, hlen, hp⟩ := hf
  obtain ⟨s', hs'⟩ : ∃ s', s.take [t] = some s' := by
    rcases hp with hp | ⟨batch, hp⟩
    · exact ⟨_, by simp only [Session.take, hp]; rfl⟩
    · exact ⟨_, by simp only [Session.take, hp]; rfl⟩
  have haccept : f.step queueSize (.accept t) =
      some { f with queue := [t], accepted := f.accepted ++ [t] } := by
    simp [Forwarder.step, hs, hq, hsize]
  refine ⟨{ f with status := .serving s', queue := [], accepted := f.accepted ++ [t] }, ?_, rfl, s',
    rfl, ?_⟩
  · rw [run_cons_iff]
    refine ⟨_, haccept, ?_⟩
    simp [run, Forwarder.step, hs, hs']
  · obtain ⟨-, rfl⟩ := Session.take_spec hs'
    refine ⟨?_, Or.inr ⟨_, rfl⟩⟩
    show (s.phase.batch ++ [t]).length = n + 1
    rw [List.length_append, hlen, List.length_singleton]

/-- However small the queue, a forwarder can come to hold any number of traces. -/
theorem pending_unbounded {queueSize : ℕ} (hsize : 0 < queueSize) (t : TraceObject) (n : ℕ) :
    ∃ es f, run (Forwarder.step queueSize) .start es = some f ∧ f.pending.length = n := by
  have hdrained : ∃ es f, run (Forwarder.step queueSize) .start es = some f ∧ Drained n f := by
    induction n with
    | zero => exact ⟨[.connect, .handshake true], _, rfl, rfl, Session.start, rfl, rfl, Or.inl rfl⟩
    | succ n ih =>
      obtain ⟨es, f, hrun, hf⟩ := ih
      obtain ⟨f', hrun', hf'⟩ := hf.accept_recv hsize t
      exact ⟨es ++ [.accept t, .recv], f', run_append hrun hrun', hf'⟩
  obtain ⟨es, f, hrun, hq, s, hs, hlen, -⟩ := hdrained
  refine ⟨es, f, hrun, ?_⟩
  rw [pending_length, batch_serving hs, hlen, hq]
  rfl

end Hermod.Buffering
