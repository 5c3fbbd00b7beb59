import Hermod.Confidentiality
import Hermod.Delivery
import Hermod.OrderedWork
import Hermod.TraceAcceptor

/-!
The tasks of an application dispatch their messages at the same time. Each goes through the
backends of its message one after the other, between the backends of the other tasks, and hands
the forwarder what is due for the messages that have passed the filters, in their order. A task
that runs alone does what one call of `dispatch` does.
-/
namespace Hermod.Applications

open Confidentiality Delivery Dispatcher DispatcherConfig EkgBackend OrderedWork ProtocolTypes
  Transitions
open TraceAcceptor.System (ofConnection ofConnection_append ofConnection_map)
open TraceForwarder (Forwarder)

variable {R : Type}

/-- A call of `dispatch` that has passed the filters, with the backends that are left. -/
structure Task where
  privacy : Privacy
  msg : DispatchMessage
  left : List BackendConfig

def Task.start (c : Setup R) (msg : LogMessage) (env : Surroundings) : Task :=
  ⟨msg.privacy, format c.config c.hostname msg env, c.config.backendsFor msg.ns.complete⟩

def Task.toHand (c : Setup R) (task : Task) : List TraceObject :=
  (task.left.filter fun b => b = .forwarder ∧ receives c.registered task.privacy b).map
    fun _ => task.msg.traceObject

/-- A node whose tasks dispatch at the same time. The messages of each task that have passed the
filters are kept as history, and the traces that were handed to the forwarder. -/
structure Application (R : Type) where
  node : Node R
  tasks : ℕ → Option Task
  panicked : ℕ → Bool
  passed : ℕ → List (LogMessage × Surroundings)
  handed : List (ℕ × TraceObject)

inductive Call
  /-- Task `j` calls `dispatch`. -/
  | dispatch (j : ℕ) (msg : LogMessage) (env : Surroundings)
  /-- Its call goes on to the next backend. -/
  | backend (j : ℕ)
  /-- The DataPoint task answers a request. -/
  | dataPoint (names : List String)

namespace Application

def start (c : Setup R) : Application R :=
  ⟨.start c, fun _ => none, fun _ => false, fun _ => [], []⟩

def setTask (s : Application R) (j : ℕ) (task : Option Task) : Application R :=
  { s with tasks := Function.update s.tasks j task }

def setForwarder (s : Application R) (f : Forwarder) : Application R :=
  { s with node := { s.node with forwarder := f } }

def dispatch (c : Setup R) (s : Application R) (j : ℕ) (msg : LogMessage) (env : Surroundings) :
    Option (Application R) :=
  if s.panicked j ∨ (s.tasks j).isSome then none
  else
    let passed := passFilters c.config s.node.limiters msg env
    let s := { s with node := { s.node with limiters := passed.2 } }
    if passed.1 then
      some { s.setTask j (some (.start c msg env)) with
        passed := Function.update s.passed j (s.passed j ++ [(msg, env)]) }
    else some s

/-- A panic ends the task. -/
def backend (c : Setup R) (s : Application R) (j : ℕ) : Option (Application R) :=
  match s.tasks j with
  | none => none
  | some ⟨_, _, []⟩ => some (s.setTask j none)
  | some ⟨privacy, msg, b :: left⟩ =>
    let rest := s.setTask j (some ⟨privacy, msg, left⟩)
    if privacy = .confidential ∧ b = .forwarder then some rest
    else
      match Node.backend c privacy msg (.of b) with
      | none => some rest
      | some call =>
        let handed := if b = .forwarder then s.handed ++ [(j, msg.traceObject)] else s.handed
        let result := call s.node
        if result.isPanic then
          some { s.setTask j none with
            node := result.state
            handed := handed
            panicked := Function.update s.panicked j true }
        else some { rest with node := result.state, handed := handed }

def step (c : Setup R) (s : Application R) : Call → Option (Application R)
  | .dispatch j msg env => s.dispatch c j msg env
  | .backend j => s.backend c j
  | .dataPoint names => some { s with node := { s.node with
      answers := s.node.answers ++ [s.node.answer c names] } }

end Application

/-! What a backend does to the node. -/

section Backends

variable {c : Setup R} {privacy : Privacy} {msg : DispatchMessage} {b : BackendConfig}
  {call : Node R → Called (Node R)}

theorem registered_of_call (h : Node.backend c privacy msg (.of b) = some call) :
    c.registered (.of b) = true := by
  unfold Node.backend at h
  split at h
  · assumption
  · cases h

theorem registered_of_none (h : Node.backend c privacy msg (.of b) = none) :
    c.registered (.of b) = false := by
  by_contra hregistered
  unfold Node.backend at h
  rw [if_pos (by simpa using hregistered)] at h
  cases b with
  | forwarder => cases h
  | stdout format => cases format <;> cases h
  | ekgBackend => cases h
  | datapointBackend => cases h

theorem call_forwarder (h : Node.backend c privacy msg (.of .forwarder) = some call) :
    call = Node.trySend c msg := by
  have hregistered := registered_of_call h
  unfold Node.backend at h
  rw [if_pos hregistered] at h
  exact (Option.some.inj h).symm

/-- The other backends leave the forwarder alone. -/
theorem call_other (hb : b ≠ .forwarder) (h : Node.backend c privacy msg (.of b) = some call)
    (s : Node R) : (call s).state.forwarder = s.forwarder := by
  have hregistered := registered_of_call h
  unfold Node.backend at h
  rw [if_pos hregistered] at h
  cases b with
  | forwarder => exact absurd rfl hb
  | stdout format => cases format <;> rw [← Option.some.inj h] <;> rfl
  | ekgBackend =>
    rw [← Option.some.inj h, Called.state_map]
  | datapointBackend =>
    rw [← Option.some.inj h]
    rfl

theorem trySend_isPanic (s : Node R) : (Node.trySend c msg s).isPanic = false := by
  unfold Node.trySend
  split <;> rfl

/-- The forwarder takes the trace, or the queue has no room for it. -/
theorem trySend_forwarder (s : Node R) :
    (Node.trySend c msg s).state.forwarder = s.forwarder ∨
      s.forwarder.step c.queueSize (.accept msg.traceObject) =
        some (Node.trySend c msg s).state.forwarder := by
  unfold Node.trySend
  split
  · rename_i f hf
    exact Or.inr hf
  · exact Or.inl rfl

end Backends

/-! What a task hands to the forwarder. -/

section Tasks

variable {c : Setup R} {privacy : Privacy} {msg : DispatchMessage} {b : BackendConfig}
  {left : List BackendConfig}

theorem toHand_other (h : b ≠ .forwarder ∨ receives c.registered privacy b = false) :
    Task.toHand c ⟨privacy, msg, b :: left⟩ = Task.toHand c ⟨privacy, msg, left⟩ := by
  unfold Task.toHand
  rw [List.filter_cons_of_neg]
  rcases h with hb | hreceives
  · simp [hb]
  · simp [hreceives]

theorem toHand_forwarder (h : receives c.registered privacy .forwarder = true) :
    Task.toHand c ⟨privacy, msg, .forwarder :: left⟩ =
      msg.traceObject :: Task.toHand c ⟨privacy, msg, left⟩ := by
  unfold Task.toHand
  rw [List.filter_cons_of_pos (by simp [h])]
  rfl

end Tasks

namespace Application

inductive Moved (c : Setup R) (s : Application R) (j : ℕ) : Application R → Prop
  | returns {privacy : Privacy} {msg : DispatchMessage}
      (htask : s.tasks j = some ⟨privacy, msg, []⟩) : Moved c s j (s.setTask j none)
  | passes {privacy : Privacy} {msg : DispatchMessage} {b : BackendConfig}
      {left : List BackendConfig} (htask : s.tasks j = some ⟨privacy, msg, b :: left⟩)
      (hreceives : receives c.registered privacy b = false) :
      Moved c s j (s.setTask j (some ⟨privacy, msg, left⟩))
  | hands {privacy : Privacy} {msg : DispatchMessage} {left : List BackendConfig}
      (htask : s.tasks j = some ⟨privacy, msg, .forwarder :: left⟩)
      (hreceives : receives c.registered privacy .forwarder = true) :
      Moved c s j { s.setTask j (some ⟨privacy, msg, left⟩) with
        node := (Node.trySend c msg s.node).state
        handed := s.handed ++ [(j, msg.traceObject)] }
  | calls {privacy : Privacy} {msg : DispatchMessage} {b : BackendConfig}
      {left : List BackendConfig} {call : Node R → Called (Node R)}
      (htask : s.tasks j = some ⟨privacy, msg, b :: left⟩) (hb : b ≠ .forwarder)
      (hcall : Node.backend c privacy msg (.of b) = some call) :
      Moved c s j { s.setTask j (some ⟨privacy, msg, left⟩) with node := (call s.node).state }
  | panics {privacy : Privacy} {msg : DispatchMessage} {b : BackendConfig}
      {left : List BackendConfig} {call : Node R → Called (Node R)}
      (htask : s.tasks j = some ⟨privacy, msg, b :: left⟩) (hb : b ≠ .forwarder)
      (hcall : Node.backend c privacy msg (.of b) = some call) :
      Moved c s j { s.setTask j none with
        node := (call s.node).state
        panicked := Function.update s.panicked j true }

/-- Each call of a backend moves one task on. -/
theorem backend_spec {c : Setup R} {s s' : Application R} {j : ℕ}
    (h : s.backend c j = some s') : Moved c s j s' := by
  unfold Application.backend at h
  split at h
  · cases h
  · rename_i htask
    rw [← Option.some.inj h]
    exact Moved.returns htask
  · rename_i privacy msg b left htask
    simp only at h
    split at h
    · rename_i hsecret
      rw [← Option.some.inj h]
      exact Moved.passes htask (by simp [receives, hsecret])
    · rename_i hopen
      split at h
      · rename_i hnone
        rw [← Option.some.inj h]
        exact Moved.passes htask (by simp [receives, registered_of_none hnone])
      · rename_i call hcall
        by_cases hb : b = .forwarder
        · subst hb
          have hpublic : ¬ privacy = .confidential := fun hp => hopen ⟨hp, rfl⟩
          rw [call_forwarder hcall, trySend_isPanic, if_neg Bool.false_ne_true, if_pos rfl] at h
          rw [← Option.some.inj h]
          exact Moved.hands htask (by simp [receives, registered_of_call hcall, hpublic])
        · rw [if_neg hb] at h
          split at h
          · rw [← Option.some.inj h]
            exact Moved.panics htask hb hcall
          · rw [← Option.some.inj h]
            exact Moved.calls htask hb hcall

abbrev ofTask (j : ℕ) (handed : List (ℕ × TraceObject)) : List TraceObject :=
  ofConnection j handed

/-- What a task is to hand to the forwarder for messages that have passed the filters. -/
def due (c : Setup R) (passed : List (LogMessage × Surroundings)) : List TraceObject :=
  passed.flatMap fun p => (Task.start c p.1 p.2).toHand c

def left (c : Setup R) (task : Option Task) : List TraceObject :=
  (task.map fun task => task.toHand c).getD []

structure Inv (c : Setup R) (s : Application R) : Prop where
  accepted : s.node.forwarder.accepted.Sublist (s.handed.map Prod.snd)
  idle : ∀ j, s.panicked j = true → s.tasks j = none
  served : ∀ j, Served (ofTask j s.handed) (left c (s.tasks j)) (due c (s.passed j))
    (s.panicked j = true)

variable {c : Setup R} {s s' : Application R} {j : ℕ}

theorem inv_start (c : Setup R) : Inv c (start c) where
  accepted := List.Sublist.refl _
  idle _ _ := rfl
  served _ := ⟨[], rfl, fun hne => absurd rfl hne⟩

/-- One task moves on, and the node with it. -/
theorem Inv.move (hs : Inv c s) {node : Node R} {task : Option Task} {panicked : ℕ → Bool}
    {handed : List TraceObject}
    (haccepted : ∃ more, node.forwarder.accepted = s.node.forwarder.accepted ++ more ∧
      more.Sublist handed)
    (hpanicked : ∀ k, k ≠ j → panicked k = s.panicked k)
    (hidle : panicked j = true → task = none)
    (hserved : Served (ofTask j s.handed ++ handed) (left c task) (due c (s.passed j))
      (panicked j = true)) :
    Inv c { s.setTask j task with
      node := node
      panicked := panicked
      handed := s.handed ++ handed.map fun trace => (j, trace) } := by
  have hhanded : ∀ k, ofTask k (s.handed ++ handed.map fun trace => (j, trace)) =
      ofTask k s.handed ++ if k = j then handed else [] := by
    intro k
    rw [ofTask, ofConnection_append, ofConnection_map]
  refine ⟨?_, fun k hk => ?_, fun k => ?_⟩
  · obtain ⟨more, hmore, hsublist⟩ := haccepted
    have hsnd : (handed.map fun trace => (j, trace)).map Prod.snd = handed := by
      rw [List.map_map]
      exact List.map_id _
    simp only [hmore, List.map_append, hsnd]
    exact hs.accepted.append hsublist
  · by_cases hkj : k = j
    · subst hkj
      simp only [setTask, Function.update_self]
      exact hidle hk
    · simp only [hpanicked k hkj] at hk
      simp only [setTask, Function.update_of_ne hkj]
      exact hs.idle k hk
  · simp only [hhanded]
    by_cases hkj : k = j
    · subst hkj
      simp only [setTask, Function.update_self, if_true]
      exact hserved
    · simp only [setTask, Function.update_of_ne hkj, if_neg hkj, List.append_nil, hpanicked k hkj]
      exact hs.served k

/-- A task moves on and hands nothing over. -/
theorem Inv.unhanded (hs : Inv c s) {node : Node R} {task : Option Task} {panicked : ℕ → Bool}
    (hforwarder : node.forwarder = s.node.forwarder)
    (hpanicked : ∀ k, k ≠ j → panicked k = s.panicked k)
    (hidle : panicked j = true → task = none)
    (hserved : Served (ofTask j s.handed) (left c task) (due c (s.passed j))
      (panicked j = true)) :
    Inv c { s.setTask j task with node := node, panicked := panicked } := by
  have hmoved := @Inv.move R c s j hs node task panicked [] ⟨[], by simp [hforwarder], by simp⟩
    hpanicked hidle (by rwa [List.append_nil])
  rwa [List.map_nil, List.append_nil] at hmoved

theorem Inv.backend (hs : Inv c s) (h : s.backend c j = some s') : Inv c s' := by
  have hserved := hs.served j
  have hgoing : ∀ {task}, s.tasks j = some task → ¬ s.panicked j = true := by
    intro task htask hpanicked
    rw [hs.idle j hpanicked] at htask
    cases htask
  cases backend_spec h with
  | returns htask =>
    rw [htask] at hserved
    exact hs.unhanded rfl (fun _ _ => rfl) (fun _ => rfl) hserved
  | passes htask hreceives =>
    rw [htask, left, Option.map_some, toHand_other (Or.inr hreceives)] at hserved
    exact hs.unhanded rfl (fun _ _ => rfl) (fun hp => absurd hp (hgoing htask)) hserved
  | @hands privacy msg rest htask hreceives =>
    rw [htask, left, Option.map_some, toHand_forwarder hreceives] at hserved
    have hadvanced : Served (ofTask j s.handed ++ [msg.traceObject])
        (left c (some ⟨privacy, msg, rest⟩)) (due c (s.passed j)) (s.panicked j = true) :=
      Served.advance _ hserved (hgoing htask)
    refine hs.move ?_ (fun _ _ => rfl) (fun hp => absurd hp (hgoing htask)) hadvanced
    rcases @trySend_forwarder R c msg s.node with hfull | htaken
    · exact ⟨[], by rw [hfull, List.append_nil], List.nil_sublist _⟩
    · exact ⟨[msg.traceObject], Forwarder.accepted_of_step htaken, List.Sublist.refl _⟩
  | calls htask hb hcall =>
    rw [htask, left, Option.map_some, toHand_other (Or.inl hb)] at hserved
    exact hs.unhanded (call_other hb hcall s.node) (fun _ _ => rfl)
      (fun hp => absurd hp (hgoing htask)) hserved
  | @panics privacy msg b rest call htask hb hcall =>
    rw [htask, left, Option.map_some, toHand_other (Or.inl hb), ← List.append_nil (Task.toHand ..)]
      at hserved
    exact hs.unhanded (call_other hb hcall s.node) (fun k hk => Function.update_of_ne hk _ _)
      (fun _ => rfl)
      (hserved.drop _ (fun _ => Function.update_self ..) fun _ => Function.update_self ..)

/-- A message that passes the filters is to be handed over, after what came before. -/
theorem Inv.dispatch (hs : Inv c s) {msg : LogMessage} {env : Surroundings}
    (h : s.dispatch c j msg env = some s') : Inv c s' := by
  unfold Application.dispatch at h
  split at h
  · cases h
  · rename_i hfree
    obtain ⟨hgoing, hnone⟩ := not_or.mp hfree
    have htask : s.tasks j = none := by
      cases htask : s.tasks j with
      | none => rfl
      | some task => simp [htask] at hnone
    simp only at h
    split at h
    · rw [← Option.some.inj h]
      refine ⟨hs.accepted, fun k hk => ?_, fun k => ?_⟩
      · have hkj : k ≠ j := by
          rintro rfl
          exact hgoing hk
        simp only [setTask, Function.update_of_ne hkj]
        exact hs.idle k hk
      · by_cases hkj : k = j
        · subst hkj
          have hserved := hs.served k
          rw [htask] at hserved
          have harrived := hserved.arrive ((Task.start c msg env).toHand c)
          simpa [setTask, due, left] using harrived
        · simpa [setTask, hkj] using hs.served k
    · rw [← Option.some.inj h]
      exact ⟨hs.accepted, hs.idle, hs.served⟩

theorem Inv.step (hs : Inv c s) {call : Call} (h : s.step c call = some s') : Inv c s' := by
  cases call with
  | dispatch j msg env => exact hs.dispatch h
  | backend j => exact hs.backend h
  | dataPoint names =>
    rw [← Option.some.inj h]
    exact ⟨hs.accepted, hs.idle, hs.served⟩

/-- The forwarder and the network work on. -/
theorem Inv.setForwarder (hs : Inv c s) {f : Forwarder}
    (haccepted : f.accepted = s.node.forwarder.accepted) : Inv c (s.setForwarder f) where
  accepted := by
    show f.accepted.Sublist _
    rw [haccepted]
    exact hs.accepted
  idle := hs.idle
  served := hs.served

/-- A backend neither reads nor writes the limiters. -/
theorem call_limiters {privacy : Privacy} {msg : DispatchMessage} {key : BackendConfigKey}
    {call : Node R → Called (Node R)} (h : Node.backend c privacy msg key = some call)
    (s : Node R) (limiters : Limiters) :
    call { s with limiters := limiters } =
      (call s).map fun s => { s with limiters := limiters } := by
  unfold Node.backend at h
  split at h
  · cases key with
    | forwarder =>
      rw [← Option.some.inj h]
      simp only [Node.trySend]
      split <;> rfl
    | ekg =>
      rw [← Option.some.inj h]
      simp only [Called.map_map]
    | datapoint => rw [← Option.some.inj h]; rfl
    | stdoutColoured => rw [← Option.some.inj h]; rfl
    | stdoutUncoloured => rw [← Option.some.inj h]; rfl
    | stdoutMachine => rw [← Option.some.inj h]; rfl
  · cases h

theorem send_limiters (privacy : Privacy) (msg : DispatchMessage) (bs : List BackendConfig)
    (s : Node R) (limiters : Limiters) :
    (send privacy (Node.backend c privacy msg) bs { s with limiters := limiters }).state =
      { (send privacy (Node.backend c privacy msg) bs s).state with limiters := limiters } := by
  induction bs generalizing s with
  | nil => rfl
  | cons b bs ih =>
    by_cases hsecret : privacy = .confidential ∧ b = .forwarder
    · rw [send_skip (Or.inl hsecret), send_skip (Or.inl hsecret)]
      exact ih s
    · cases hcall : Node.backend c privacy msg (.of b) with
      | none =>
        rw [send_skip (Or.inr hcall), send_skip (Or.inr hcall)]
        exact ih s
      | some call =>
        rw [send_call hsecret hcall, send_call hsecret hcall, call_limiters hcall,
          Called.isPanic_map, Called.state_map]
        split
        · rfl
        · exact ih _

/-- The backends that are left are called one after the other. -/
theorem send_alone {privacy : Privacy} {msg : DispatchMessage} (bs : List BackendConfig)
    {s : Application R} (htask : s.tasks j = some ⟨privacy, msg, bs⟩) :
    ∃ n s', run (Application.step c) s (List.replicate n (.backend j)) = some s' ∧
      s'.tasks j = none ∧
      s'.node = (send privacy (Node.backend c privacy msg) bs s.node).state := by
  induction bs generalizing s with
  | nil =>
    refine ⟨1, s.setTask j none, ?_, Function.update_self .., rfl⟩
    simp [run, Application.step, Application.backend, htask]
  | cons b bs ih =>
    have hgoes : ∀ {s₁ : Application R}, s.backend c j = some s₁ →
        s₁.tasks j = some ⟨privacy, msg, bs⟩ →
        ∃ n s', run (Application.step c) s (List.replicate n (.backend j)) = some s' ∧
          s'.tasks j = none ∧
          s'.node = (send privacy (Node.backend c privacy msg) bs s₁.node).state := by
      intro s₁ hstep htask₁
      obtain ⟨n, s', hrun, hnone, hnode⟩ := ih htask₁
      exact ⟨n + 1, s', run_cons_iff.mpr ⟨s₁, hstep, hrun⟩, hnone, hnode⟩
    by_cases hsecret : privacy = .confidential ∧ b = .forwarder
    · rw [send_skip (Or.inl hsecret)]
      refine @hgoes (s.setTask j (some ⟨privacy, msg, bs⟩)) ?_ (Function.update_self ..)
      simp only [Application.backend, htask, if_pos hsecret]
    · cases hcall : Node.backend c privacy msg (.of b) with
      | none =>
        rw [send_skip (Or.inr hcall)]
        refine @hgoes (s.setTask j (some ⟨privacy, msg, bs⟩)) ?_ (Function.update_self ..)
        simp only [Application.backend, htask, if_neg hsecret, hcall]
      | some call =>
        rw [send_call hsecret hcall]
        have hstep : s.backend c j = some (if (call s.node).isPanic then
            { s.setTask j none with
              node := (call s.node).state
              handed := if b = .forwarder then s.handed ++ [(j, msg.traceObject)] else s.handed
              panicked := Function.update s.panicked j true }
            else { s.setTask j (some ⟨privacy, msg, bs⟩) with
              node := (call s.node).state
              handed := if b = .forwarder then s.handed ++ [(j, msg.traceObject)]
                else s.handed }) := by
          simp only [Application.backend, htask, if_neg hsecret, hcall]
          split <;> rfl
        by_cases hpanic : (call s.node).isPanic
        · rw [if_pos hpanic] at hstep ⊢
          exact ⟨1, _, run_cons_iff.mpr ⟨_, hstep, rfl⟩, Function.update_self .., rfl⟩
        · rw [if_neg hpanic] at hstep ⊢
          exact hgoes hstep (Function.update_self ..)

/-- A task whose backends are called one after the other does what `dispatch` does. -/
theorem dispatch_alone {msg : LogMessage} {env : Surroundings} {s : Application R}
    (hgoing : s.panicked j = false) (hfree : s.tasks j = none) :
    ∃ n s', run (Application.step c) s (.dispatch j msg env :: List.replicate n (.backend j)) =
        some s' ∧
      s'.tasks j = none ∧ s.node.step c (.dispatch msg env) = some s'.node := by
  have hcalled : ¬ (s.panicked j = true ∨ (s.tasks j).isSome = true) := by
    simp [hgoing, hfree]
  cases hpass : (passFilters c.config s.node.limiters msg env).1 with
  | false =>
    refine ⟨0, { s with node := { s.node with
      limiters := (passFilters c.config s.node.limiters msg env).2 } }, ?_, hfree, ?_⟩
    · simp [run, Application.step, Application.dispatch, if_neg hcalled, hpass]
    · rw [Node.step, dispatch_dropped hpass]
      rfl
  | true =>
    let s₁ : Application R := { s.setTask j (some (.start c msg env)) with
      node := { s.node with limiters := (passFilters c.config s.node.limiters msg env).2 }
      passed := Function.update s.passed j (s.passed j ++ [(msg, env)]) }
    have htask : s₁.tasks j = some (.start c msg env) := Function.update_self ..
    obtain ⟨n, s', hrun, hnone, hnode⟩ := send_alone (c := c) _ htask
    refine ⟨n, s', run_cons_iff.mpr ⟨s₁, ?_, hrun⟩, hnone, ?_⟩
    · simp only [Application.step, Application.dispatch, if_neg hcalled, hpass]
      rfl
    · have hsent := hnode.trans (send_limiters _ _ _ s.node _)
      rw [Node.step, dispatch_passed hpass, hsent]

end Application

end Hermod.Applications
