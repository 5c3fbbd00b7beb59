import Hermod.DataPointMessages
import Hermod.Dispatcher
import Hermod.TraceForwarder

/-!
A node: the dispatcher with its backends and the trace forwarder that shares the queue
and the data point store with them. Two runs of a node are compared that differ in what
Confidential messages carry. They are told apart by the data points that such a message
has stored, and by a panic of the metrics backend, which cuts a dispatch short.
-/
namespace Hermod.Confidentiality

open Cbor Decoding DataPointMessages Dispatcher DispatcherConfig EkgBackend TraceForwarder
  Transitions
open TracerState (Unicode)

variable {R : Type}

structure Setup (R : Type) where
  unicode : Unicode
  prometheus : Prometheus R
  config : TraceConfig
  hostname : String
  registered : BackendConfigKey → Bool
  queueSize : ℕ
  nodeInfo : Option Bytes
  registry : R

/-- The answers to DataPoint requests are kept as history, and so are the names whose
value a Confidential message stored. -/
structure Node (R : Type) where
  limiters : Limiters
  forwarder : Forwarder
  store : String → Option Bytes
  ekg : Ekg R
  secret : String → Bool
  answers : List DataPointMessage

inductive Event
  | dispatch (msg : LogMessage) (env : Surroundings)
  | forwarder (e : TraceForwarder.Event)
  /-- The DataPoint task answers a request. -/
  | dataPoint (names : List String)

namespace Node

def start (c : Setup R) : Node R :=
  ⟨fun _ => none, Forwarder.start, fun _ => none, ⟨c.registry, fun _ => none, fun _ => none⟩,
    fun _ => false, []⟩

/-- Whether the queue was full is reported, and nothing else follows from it. -/
def trySend (c : Setup R) (msg : DispatchMessage) (s : Node R) : Called (Node R) :=
  match s.forwarder.step c.queueSize (.accept msg.traceObject) with
  | some f => .ok { s with forwarder := f }
  | none => .err s

def put (privacy : Privacy) (msg : DispatchMessage) (s : Node R) : Node R :=
  let key := ".".intercalate msg.traceObject.toNamespace
  { s with
    store := Function.update s.store key (some (utf8 msg.traceObject.toMachine))
    secret := Function.update s.secret key (privacy = .confidential) }

def backend (c : Setup R) (privacy : Privacy) (msg : DispatchMessage) (key : BackendConfigKey) :
    Option (Node R → Called (Node R)) :=
  if c.registered key then
    match key with
    | .forwarder => some (trySend c msg)
    | .ekg => some fun s =>
        (s.ekg.dispatch c.unicode c.prometheus msg.metrics).map fun ekg => { s with ekg := ekg }
    | .datapoint => some fun s => .ok (s.put privacy msg)
    | _ => some .ok
  else none

def answer (c : Setup R) (s : Node R) (names : List String) : DataPointMessage :=
  .reply (names.map fun n => (n, if n = "NodeInfo" then c.nodeInfo else s.store n))

/-- A dispatch that panics has had its effect up to there. -/
def step (c : Setup R) (s : Node R) : Event → Option (Node R)
  | .dispatch msg env =>
    let result :=
      dispatch c.config c.hostname (backend c msg.privacy) s.limiters s msg env
    some { result.2.state with limiters := result.1 }
  | .forwarder e => (s.forwarder.step c.queueSize e).map fun f => { s with forwarder := f }
  | .dataPoint names => some { s with answers := s.answers ++ [s.answer c names] }

end Node

def SameButSecret : Event → Event → Prop
  | .dispatch m env, .dispatch m' env' =>
    env = env' ∧ m.ns = m'.ns ∧ m.severity = m'.severity ∧ m.privacy = m'.privacy ∧
      (m.privacy = .public_ → m = m')
  | e, e' => e = e'

/-- Neither call of the metrics backend panics, or both are the same call. -/
def SamePanics (p : Prometheus R) (ekg : Ekg R) (ms : List Metric) (ekg' : Ekg R)
    (ms' : List Metric) : Prop :=
  ((∃ arity, ekg.Settled arity ∧ ∀ m ∈ ms, Ekg.Fits p arity m) ∧
      ∃ arity, ekg'.Settled arity ∧ ∀ m ∈ ms', Ekg.Fits p arity m) ∨
    (ekg = ekg' ∧ ms = ms')

/-- No request names a data point that a Confidential message stored last, and the
metrics backend is not made to panic in one run alone. -/
def Safe (c : Setup R) (p : Node R × Node R) : Event × Event → Prop
  | (.dataPoint names, _) => ∀ n ∈ names, n ≠ "NodeInfo" → p.1.secret n = false
  | (.dispatch m _, .dispatch m' _) =>
    c.registered .ekg = true → .ekgBackend ∈ c.config.backendsFor m.ns.complete →
      SamePanics c.prometheus p.1.ekg m.asMetrics p.2.ekg m'.asMetrics
  | _ => True

structure Alike (s s' : Node R) : Prop where
  limiters : s.limiters = s'.limiters
  forwarder : s.forwarder = s'.forwarder
  answers : s.answers = s'.answers
  secret : s.secret = s'.secret
  store : ∀ n, s.secret n = false → s.store n = s'.store n

/-- Calls of the metrics backend that panic alike still do so afterwards. -/
theorem samePanics_dispatch {u : Unicode} {p : Prometheus R} {ekg ekg' : Ekg R}
    {ms ms' : List Metric} (h : SamePanics p ekg ms ekg' ms') :
    (ekg.dispatch u p ms).isPanic = (ekg'.dispatch u p ms').isPanic ∧
      SamePanics p (ekg.dispatch u p ms).state ms (ekg'.dispatch u p ms').state ms' := by
  rcases h with ⟨⟨arity, hekg, hms⟩, arity', hekg', hms'⟩ | ⟨rfl, rfl⟩
  · obtain ⟨hpanic, hstate⟩ := Ekg.dispatch_settled (u := u) hekg hms
    obtain ⟨hpanic', hstate'⟩ := Ekg.dispatch_settled (u := u) hekg' hms'
    exact ⟨hpanic.trans hpanic'.symm, Or.inl ⟨⟨arity, hstate, hms⟩, arity', hstate', hms'⟩⟩
  · exact ⟨rfl, Or.inr ⟨rfl, rfl⟩⟩

section Alike

variable {c : Setup R} {s s' : Node R}

/-- A Confidential message leaves only what is secret different. -/
theorem Alike.put (h : Alike s s') {privacy : Privacy} {dm dm' : DispatchMessage}
    (hns : dm.traceObject.toNamespace = dm'.traceObject.toNamespace)
    (hpublic : privacy = .public_ → dm = dm') : Alike (s.put privacy dm) (s'.put privacy dm') where
  limiters := h.limiters
  forwarder := h.forwarder
  answers := h.answers
  secret := by
    simp only [Node.put]
    rw [hns, h.secret]
  store n hn := by
    simp only [Node.put, Function.update_apply] at hn ⊢
    rw [← hns]
    split
    · rename_i hkey
      rw [if_pos hkey] at hn
      cases privacy with
      | public_ => rw [hpublic rfl]
      | confidential => cases hn
    · rename_i hkey
      rw [if_neg hkey] at hn
      exact h.store n hn

theorem Alike.trySend (h : Alike s s') (dm : DispatchMessage) :
    (Node.trySend c dm s).isPanic = (Node.trySend c dm s').isPanic ∧
      Alike (Node.trySend c dm s).state (Node.trySend c dm s').state ∧
      (Node.trySend c dm s).state.ekg = s.ekg ∧ (Node.trySend c dm s').state.ekg = s'.ekg := by
  unfold Node.trySend
  rw [← h.forwarder]
  split
  · exact ⟨rfl, ⟨h.limiters, rfl, h.answers, h.secret, h.store⟩, rfl, rfl⟩
  · exact ⟨rfl, h, rfl, rfl⟩

/-- One backend keeps two nodes alike. -/
theorem backend_alike (h : Alike s s') {privacy : Privacy} {dm dm' : DispatchMessage}
    (hns : dm.traceObject.toNamespace = dm'.traceObject.toNamespace)
    (hpublic : privacy = .public_ → dm = dm') {b : BackendConfig}
    (hsent : ¬ (privacy = .confidential ∧ b = .forwarder))
    (hreg : c.registered (.of b) = true)
    {P : Prop} (hekg : b = .ekgBackend → P)
    (hpanics : P → SamePanics c.prometheus s.ekg dm.metrics s'.ekg dm'.metrics) :
    ∃ call call', Node.backend c privacy dm (.of b) = some call ∧
      Node.backend c privacy dm' (.of b) = some call' ∧
      (call s).isPanic = (call' s').isPanic ∧ Alike (call s).state (call' s').state ∧
      (P → SamePanics c.prometheus (call s).state.ekg dm.metrics (call' s').state.ekg
        dm'.metrics) := by
  cases b with
  | forwarder =>
    cases privacy with
    | confidential => exact absurd ⟨rfl, rfl⟩ hsent
    | public_ =>
      obtain rfl := hpublic rfl
      refine ⟨Node.trySend c dm, Node.trySend c dm, if_pos hreg, if_pos hreg, ?_⟩
      obtain ⟨hpanic, halike, hekg, hekg'⟩ := h.trySend (c := c) dm
      rw [hekg, hekg']
      exact ⟨hpanic, halike, hpanics⟩
  | stdout format =>
    refine ⟨.ok, .ok, ?_, ?_, rfl, h, hpanics⟩
    · cases format <;> exact if_pos hreg
    · cases format <;> exact if_pos hreg
  | ekgBackend =>
    refine ⟨_, _, if_pos hreg, if_pos hreg, ?_⟩
    simp only [Called.isPanic_map, Called.state_map]
    obtain ⟨hpanic, hafter⟩ := samePanics_dispatch (u := c.unicode) (hpanics (hekg rfl))
    exact ⟨hpanic, ⟨h.limiters, h.forwarder, h.answers, h.secret, h.store⟩, fun _ => hafter⟩
  | datapointBackend =>
    exact ⟨_, _, if_pos hreg, if_pos hreg, rfl, h.put hns hpublic, hpanics⟩

/-- The backends one after the other, up to a panic of both runs. -/
theorem send_alike (h : Alike s s') {privacy : Privacy} {dm dm' : DispatchMessage}
    (hns : dm.traceObject.toNamespace = dm'.traceObject.toNamespace)
    (hpublic : privacy = .public_ → dm = dm') {bs : List BackendConfig}
    (hpanics : c.registered .ekg = true → .ekgBackend ∈ bs →
      SamePanics c.prometheus s.ekg dm.metrics s'.ekg dm'.metrics) :
    Alike (send privacy (Node.backend c privacy dm) bs s).state
      (send privacy (Node.backend c privacy dm') bs s').state := by
  induction bs generalizing s s' with
  | nil => exact h
  | cons b bs ih =>
    have hrest : c.registered .ekg = true → .ekgBackend ∈ bs →
        SamePanics c.prometheus s.ekg dm.metrics s'.ekg dm'.metrics :=
      fun hreg hb => hpanics hreg (List.mem_cons_of_mem b hb)
    by_cases hsent : privacy = .confidential ∧ b = .forwarder
    · rw [send_skip (Or.inl hsent), send_skip (Or.inl hsent)]
      exact ih h hrest
    · cases hreg : c.registered (.of b) with
      | false =>
        have hnone : ∀ dm, Node.backend c privacy dm (.of b) = none := fun dm =>
          if_neg (by rw [hreg]; exact Bool.false_ne_true)
        rw [send_skip (Or.inr (hnone dm)), send_skip (Or.inr (hnone dm'))]
        exact ih h hrest
      | true =>
        obtain ⟨call, call', hcall, hcall', hpanic, halike, hafter⟩ :=
          backend_alike h hns hpublic hsent hreg
            (P := c.registered .ekg = true ∧ .ekgBackend ∈ b :: bs)
            (fun hb => by subst hb; exact ⟨hreg, List.mem_cons_self ..⟩)
            (fun hP => hpanics hP.1 hP.2)
        rw [send_call hsent hcall, send_call hsent hcall', ← hpanic]
        split
        · exact halike
        · exact ih halike fun hreg hb => hafter ⟨hreg, List.mem_cons_of_mem b hb⟩

theorem Alike.answer (h : Alike s s') {names : List String}
    (hsafe : ∀ n ∈ names, n ≠ "NodeInfo" → s.secret n = false) :
    s.answer c names = s'.answer c names := by
  unfold Node.answer
  refine congrArg DataPointMessage.reply (List.map_congr_left fun n hn => ?_)
  by_cases hinfo : n = "NodeInfo"
  · rw [if_pos hinfo, if_pos hinfo]
  · rw [if_neg hinfo, if_neg hinfo, h.store n (hsafe n hn hinfo)]

/-- What a dispatch admits does not depend on what the message carries. -/
theorem passFilters_congr {config : TraceConfig} {limiters : Limiters} {m m' : LogMessage}
    {env : Surroundings} (hns : m.ns = m'.ns) (hsev : m.severity = m'.severity) :
    passFilters config limiters m env = passFilters config limiters m' env := by
  unfold passFilters
  rw [hns, hsev]

/-- One message dispatched in both runs keeps the nodes alike. -/
theorem dispatch_alike (h : Alike s s') {m m' : LogMessage} {env : Surroundings}
    (hsame : SameButSecret (.dispatch m env) (.dispatch m' env))
    (hsafe : Safe c (s, s') (.dispatch m env, .dispatch m' env)) {t t' : Node R}
    (hstep : s.step c (.dispatch m env) = some t)
    (hstep' : s'.step c (.dispatch m' env) = some t') : Alike t t' := by
  obtain ⟨-, hns, hsev, hprivacy, hpublic⟩ := hsame
  rw [Node.step, Option.some.injEq] at hstep hstep'
  subst hstep hstep'
  have hfilters : passFilters c.config s.limiters m env =
      passFilters c.config s'.limiters m' env := by
    rw [passFilters_congr hns hsev, h.limiters]
  cases hpass : (passFilters c.config s.limiters m env).1 with
  | true =>
    have hsent : Alike
        (send m.privacy (Node.backend c m.privacy (format c.config c.hostname m env))
          (c.config.backendsFor m.ns.complete) s).state
        (send m.privacy (Node.backend c m.privacy (format c.config c.hostname m' env))
          (c.config.backendsFor m.ns.complete) s').state := by
      refine send_alike h ?_ ?_ hsafe
      · simp only [format, hns]
      · intro hp
        rw [hpublic hp]
    rw [dispatch_passed hpass, dispatch_passed (hfilters ▸ hpass), ← hfilters, ← hprivacy, ← hns]
    exact ⟨rfl, hsent.forwarder, hsent.answers, hsent.secret, hsent.store⟩
  | false =>
    rw [dispatch_dropped hpass, dispatch_dropped (hfilters ▸ hpass), ← hfilters]
    exact ⟨rfl, h.forwarder, h.answers, h.secret, h.store⟩

/-- A step of both runs keeps the nodes alike. -/
theorem step_alike {p q : Node R × Node R} {e : Event × Event} (h : Alike p.1 p.2)
    (hsame : SameButSecret e.1 e.2) (hsafe : Safe c p e)
    (hstep : pairStep (Node.step c) p e = some q) : Alike q.1 q.2 := by
  obtain ⟨hfst, hsnd⟩ := pairStep_iff.mp hstep
  obtain ⟨s, s'⟩ := p
  obtain ⟨e, e'⟩ := e
  cases e with
  | dispatch m env =>
    cases e' with
    | dispatch m' env' =>
      obtain rfl := hsame.1
      exact dispatch_alike h hsame hsafe hfst hsnd
    | forwarder e => cases hsame
    | dataPoint names => cases hsame
  | forwarder e =>
    obtain rfl : Event.forwarder e = e' := by cases e' <;> exact hsame
    rw [Node.step] at hfst hsnd
    obtain ⟨f, hf, hq⟩ := Option.map_eq_some_iff.mp hfst
    obtain ⟨f', hf', hq'⟩ := Option.map_eq_some_iff.mp hsnd
    rw [← hq, ← hq']
    have hff : f = f' := by
      rw [h.forwarder, hf', Option.some.injEq] at hf
      exact hf.symm
    exact ⟨h.limiters, hff, h.answers, h.secret, h.store⟩
  | dataPoint names =>
    obtain rfl : Event.dataPoint names = e' := by cases e' <;> exact hsame
    rw [Node.step, Option.some.injEq] at hfst hsnd
    rw [← hfst, ← hsnd]
    refine ⟨h.limiters, h.forwarder, ?_, h.secret, h.store⟩
    exact congrArg₂ (fun as a => as ++ [a]) h.answers (h.answer hsafe)

theorem alike_start (c : Setup R) : Alike (Node.start c) (Node.start c) :=
  ⟨rfl, rfl, rfl, rfl, fun _ _ => rfl⟩

end Alike

/-- Two runs that differ only in what Confidential messages carry send the same replies,
when no request reads what such a message stored and the metrics backend is not made to
panic in one of them alone. -/
theorem replies_eq_of_safe {c : Setup R} {es : List (Event × Event)} {s s' : Node R}
    (hsame : ∀ e ∈ es, SameButSecret e.1 e.2)
    (hrun : run (Node.step c) (Node.start c) (es.map Prod.fst) = some s)
    (hrun' : run (Node.step c) (Node.start c) (es.map Prod.snd) = some s')
    (hsafe : Along (pairStep (Node.step c)) (Safe c) (Node.start c, Node.start c) es) :
    s.forwarder.sessions.map (·.replies) = s'.forwarder.sessions.map (·.replies) ∧
      s.answers = s'.answers := by
  have hpair : run (pairStep (Node.step c)) (Node.start c, Node.start c) es = some (s, s') :=
    run_pair hrun hrun'
  have hsame' : Along (pairStep (Node.step c)) (fun _ e => SameButSecret e.1 e.2)
      (Node.start c, Node.start c) es := along_of_forall _ hsame
  have halike : Alike s s' :=
    run_invariant_along (I := fun p : Node R × Node R => Alike p.1 p.2)
      (fun p e q h hP hstep => step_alike h hP.1 hP.2 hstep) (alike_start c)
      (hsame'.and hsafe) hpair
  exact ⟨by rw [halike.forwarder], halike.answers⟩

/-- A node with every backend, and a namespace that is routed to the data points only. -/
def secretSetup : Setup Unit where
  unicode := .ascii
  prometheus := ⟨fun _ _ _ _ => some (), false⟩
  config := ⟨AList.insert ["Secret"] [.backends [.datapointBackend]] ∅⟩
  hostname := "host"
  registered _ := true
  queueSize := 10
  nodeInfo := none
  registry := ()

def confidential (ns machine : String) (metrics : List Metric) : LogMessage :=
  ⟨⟨[], [ns]⟩, some .error, .confidential, fun _ => machine, "", metrics⟩

def atEpoch : Surroundings := ⟨0, 0, ⟨0, 0, by decide⟩, "1"⟩

def secretOne : Event := .dispatch (confidential "Secret" "\x7b\"k\":1\x7d" []) atEpoch

def secretTwo : Event := .dispatch (confidential "Secret" "\x7b\"k\":2\x7d" []) atEpoch

def openSetup : Setup Unit :=
  { secretSetup with
    config := ⟨AList.insert ["Open"] [.backends [.forwarder, .datapointBackend]]
      secretSetup.config.options⟩ }

def openMessage : LogMessage :=
  { confidential "Open" "\x7b\x7d" [] with privacy := .public_ }

/-- After the event a Public message is logged, and its trace is forwarded. -/
def openAfter (secret : Event) : List Event :=
  [secret, .dispatch openMessage atEpoch, .forwarder .connect, .forwarder (.handshake true),
    .forwarder .recv, .forwarder .recv,
    .forwarder (.wire (.arrive (.traceObjectsRequest ⟨true, 100⟩))), .forwarder (.wire .handle)]

theorem safe_openAfter :
    ∀ e ∈ (openAfter secretOne).zip (openAfter secretTwo), ∀ p, Safe openSetup p e := by
  intro e he p
  have hno : ∀ ns ∈ [["Secret"], ["Open"]],
      BackendConfig.ekgBackend ∉ openSetup.config.backendsFor ns := by
    decide
  simp only [openAfter, List.zip_cons_cons, List.zip_nil_right, List.mem_cons, List.not_mem_nil,
    or_false] at he
  rcases he with rfl | rfl | rfl | rfl | rfl | rfl | rfl | rfl
  · exact fun _ hekg => absurd hekg (hno ["Secret"] (by decide))
  · exact fun _ hekg => absurd hekg (hno ["Open"] (by decide))
  all_goals trivial

theorem replies_eq_of_safe_open :
    ∃ s s', run (Node.step openSetup) (Node.start openSetup)
          (openAfter secretOne ++ [.dataPoint ["Open", "NodeInfo"]]) = some s ∧
      run (Node.step openSetup) (Node.start openSetup)
          (openAfter secretTwo ++ [.dataPoint ["Open", "NodeInfo"]]) = some s' ∧
      (s.forwarder.sessions.map (·.replies) = s'.forwarder.sessions.map (·.replies) ∧
        s.answers = s'.answers) ∧
      s.forwarder.sessions.map (fun x => x.replies.map fun r => r.traceObjects.length) = [[1]] ∧
      s.answers = [.reply [("Open", some (utf8 "\x7b\x7d")), ("NodeInfo", none)]] := by
  let es := (openAfter secretOne).zip (openAfter secretTwo)
  let read : Event := .dataPoint ["Open", "NodeInfo"]
  obtain ⟨s, hrun, hsent⟩ : ∃ s, run (Node.step openSetup) (Node.start openSetup)
        (openAfter secretOne ++ [read]) = some s ∧
      s.forwarder.sessions.map (fun x => x.replies.map fun r => r.traceObjects.length) = [[1]] ∧
      s.answers = [.reply [("Open", some (utf8 "\x7b\x7d")), ("NodeInfo", none)]] :=
    ⟨_, rfl, by decide +kernel, by decide +kernel⟩
  obtain ⟨s', hrun'⟩ : ∃ s', run (Node.step openSetup) (Node.start openSetup)
      (openAfter secretTwo ++ [read]) = some s' := ⟨_, rfl⟩
  have hsame : ∀ e ∈ es ++ [(read, read)], SameButSecret e.1 e.2 := by
    simp [es, read, openAfter, SameButSecret, secretOne, secretTwo, confidential]
  have hsafe : Along (pairStep (Node.step openSetup)) (Safe openSetup)
      (Node.start openSetup, Node.start openSetup) (es ++ [(read, read)]) := by
    refine Along.append ?_ ?_
    · exact (along_of_forall (H := fun e => ∀ p, Safe openSetup p e) _ safe_openAfter).of_invariant
        (I := fun _ => True) (fun p e _ h => h p) (fun _ _ _ _ _ _ => trivial) trivial
    · intro q hq
      have hopen : (run (pairStep (Node.step openSetup))
          (Node.start openSetup, Node.start openSetup) es).map (fun p => p.1.secret "Open") =
            some false := by
        decide +kernel
      rw [hq, Option.map_some, Option.some.injEq] at hopen
      refine ⟨?_, fun _ _ => trivial⟩
      intro n hn hne
      rcases List.mem_cons.mp hn with rfl | hn
      · exact hopen
      · exact absurd (List.mem_singleton.mp hn) hne
  have heq := @replies_eq_of_safe Unit openSetup (es ++ [(read, read)]) s s' hsame hrun hrun' hsafe
  exact ⟨s, s', hrun, hrun', heq, hsent⟩

/-- The data point of a Confidential message is read by a request. -/
theorem data_point_tells_apart :
    SameButSecret secretOne secretTwo ∧
      ∃ s s', run (Node.step secretSetup) (Node.start secretSetup)
          [secretOne, .dataPoint ["Secret"]] = some s ∧
        run (Node.step secretSetup) (Node.start secretSetup)
          [secretTwo, .dataPoint ["Secret"]] = some s' ∧
        s.answers ≠ s'.answers := by
  refine ⟨⟨rfl, rfl, rfl, rfl, fun h => by cases h⟩, _, _, rfl, rfl, ?_⟩
  decide

/-- With the default backends, a gauge that a Confidential message registered makes a Public
message panic before it reaches the forwarder. -/
example :
    let publicMsg : LogMessage := { confidential "Open" "\x7b\x7d" [.intM "m" 1] with
      privacy := .public_ }
    let hidden (ms : List Metric) := (run (Node.step secretSetup) (Node.start secretSetup)
      [.dispatch (confidential "Open" "\x7b\x7d" ms) atEpoch, .dispatch publicMsg atEpoch]).map
        fun s => s.forwarder.queue.length
    hidden [] = some 1 ∧ hidden [.prometheusM "m" [("a", "b")]] = some 0 := by
  decide

end Hermod.Confidentiality
