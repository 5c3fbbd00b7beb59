import Hermod.Dispatcher

/-!
Which backends get a message. The calls are logged together with the message that they hand
over. What is logged does not depend on how the backends answer: a message that passes the
filters goes to each backend of its namespace, as often as it is listed there, if the backend
is registered and may have it.
-/
namespace Hermod.Delivery

open DispatcherConfig Dispatcher EkgBackend

variable {W : Type}

structure Backend (W : Type) where
  dispatch : DispatchMessage → W → Called W
  returns : ∀ msg w, (dispatch msg w).isPanic = false

abbrev Backends (W : Type) := BackendConfigKey → Option (Backend W)

abbrev Log := List (BackendConfigKey × DispatchMessage)

def plain (backends : Backends W) (msg : DispatchMessage) (key : BackendConfigKey) :
    Option (W → Called W) :=
  (backends key).map fun b => b.dispatch msg

def logged (backends : Backends W) (msg : DispatchMessage) (key : BackendConfigKey) :
    Option (W × Log → Called (W × Log)) :=
  (backends key).map fun b s => (b.dispatch msg s.1).map fun w => (w, s.2 ++ [(key, msg)])

def registered (backends : Backends W) (key : BackendConfigKey) : Bool := (backends key).isSome

def isSevere (config : TraceConfig) (msg : LogMessage) : Bool :=
  (config.severityFor msg.ns.complete).passes (msg.severity.getD .debug)

def bucket (limiters : Limiters) (msg : LogMessage) (env : Surroundings) (maxFreq : ℚ) :
    TokenBucket :=
  (limiters msg.ns.complete).getD (.new maxFreq env.bucketCreated)

def isAdmitted (config : TraceConfig) (limiters : Limiters) (msg : LogMessage)
    (env : Surroundings) : Bool :=
  match config.limiterFor msg.ns.complete with
  | none => true
  | some maxFreq => ((bucket limiters msg env maxFreq).tryAcquire env.acquired).1

def receives (registered : BackendConfigKey → Bool) (privacy : Privacy) (b : BackendConfig) :
    Bool :=
  registered (.of b) && !(privacy = .confidential ∧ b = .forwarder)

def deliveries (config : TraceConfig) (hostname : String) (registered : BackendConfigKey → Bool)
    (limiters : Limiters) (msg : LogMessage) (env : Surroundings) : Log :=
  if isSevere config msg && isAdmitted config limiters msg env then
    ((config.backendsFor msg.ns.complete).filter (receives registered msg.privacy)).map
      fun b => (.of b, format config hostname msg env)
  else []

def calls (key : BackendConfigKey) (log : Log) : ℕ := log.countP fun call => call.1 = key

/-- The limiters are those before, except that the bucket of the namespace was asked where
there is one and the message passed the severity filter. -/
structure Acquires (config : TraceConfig) (msg : LogMessage) (env : Surroundings)
    (limiters limiters' : Limiters) : Prop where
  frame : ∀ ns, ns ≠ msg.ns.complete → limiters' ns = limiters ns
  unasked : isSevere config msg = false ∨ config.limiterFor msg.ns.complete = none →
    limiters' = limiters
  asked : ∀ maxFreq, isSevere config msg = true →
    config.limiterFor msg.ns.complete = some maxFreq →
      limiters' msg.ns.complete =
        some ((bucket limiters msg env maxFreq).tryAcquire env.acquired).2

section Filters

variable {config : TraceConfig} {limiters : Limiters} {msg : LogMessage} {env : Surroundings}

theorem passFilters_dropped (h : isSevere config msg = false) :
    passFilters config limiters msg env = (false, limiters) := by
  rw [isSevere] at h
  simp only [passFilters, h, Bool.false_eq_true, if_false]

theorem passFilters_unlimited (h : isSevere config msg = true)
    (hlimit : config.limiterFor msg.ns.complete = none) :
    passFilters config limiters msg env = (true, limiters) := by
  rw [isSevere] at h
  simp only [passFilters, if_pos h, hlimit]

theorem passFilters_limited (h : isSevere config msg = true) {maxFreq : ℚ}
    (hlimit : config.limiterFor msg.ns.complete = some maxFreq) :
    passFilters config limiters msg env =
      (((bucket limiters msg env maxFreq).tryAcquire env.acquired).1,
        Function.update limiters msg.ns.complete
          (some ((bucket limiters msg env maxFreq).tryAcquire env.acquired).2)) := by
  rw [isSevere] at h
  simp only [passFilters, if_pos h, hlimit, bucket]

/-- The bucket is asked only after the severity filter. -/
theorem passFilters_spec (config : TraceConfig) (limiters : Limiters) (msg : LogMessage)
    (env : Surroundings) :
    (passFilters config limiters msg env).1 =
        (isSevere config msg && isAdmitted config limiters msg env) ∧
      Acquires config msg env limiters (passFilters config limiters msg env).2 := by
  cases hsevere : isSevere config msg with
  | false =>
    rw [passFilters_dropped hsevere]
    refine ⟨rfl, fun _ _ => rfl, fun _ => rfl, ?_⟩
    intro _ hpassed
    rw [hsevere] at hpassed
    cases hpassed
  | true =>
    cases hlimit : config.limiterFor msg.ns.complete with
    | none =>
      rw [passFilters_unlimited hsevere hlimit, isAdmitted, hlimit]
      refine ⟨rfl, fun _ _ => rfl, fun _ => rfl, ?_⟩
      intro maxFreq _ hsome
      rw [hlimit] at hsome
      cases hsome
    | some maxFreq =>
      rw [passFilters_limited hsevere hlimit, isAdmitted, hlimit]
      refine ⟨rfl, fun ns hns => Function.update_of_ne hns _ _, ?_, ?_⟩
      · intro hunasked
        simp [hsevere, hlimit] at hunasked
      · intro maxFreq' _ hsome
        rw [hlimit, Option.some.injEq] at hsome
        rw [← hsome]
        exact Function.update_self ..

end Filters

section Send

variable {backends : Backends W} {privacy : Privacy} {msg : DispatchMessage}

/-- The call of a backend that returns leads on to the next one. -/
theorem send_returns {σ : Type} {backend : BackendConfigKey → Option (σ → Called σ)}
    {b : BackendConfig} {bs : List BackendConfig} {s : σ} {call : σ → Called σ}
    (h : ¬ (privacy = .confidential ∧ b = .forwarder)) (hcall : backend (.of b) = some call)
    (hreturns : (call s).isPanic = false) :
    send privacy backend (b :: bs) s = send privacy backend bs (call s).state := by
  rw [send_call h hcall, hreturns]
  rfl

theorem receives_eq_false_iff {b : BackendConfig} :
    receives (registered backends) privacy b = false ↔
      (privacy = .confidential ∧ b = .forwarder) ∨ backends (.of b) = none := by
  by_cases hsecret : privacy = .confidential ∧ b = .forwarder
  · simp [receives, hsecret]
  · simp [receives, registered, hsecret]

/-- The calls that the loop logs, whatever they answer. Without the log it is the same loop. -/
theorem send_logged (backends : Backends W) (privacy : Privacy) (msg : DispatchMessage)
    (bs : List BackendConfig) (w : W) (log : Log) :
    ∃ w', send privacy (plain backends msg) bs w = .ok w' ∧
      send privacy (logged backends msg) bs (w, log) =
        .ok (w', log ++ (bs.filter (receives (registered backends) privacy)).map
          fun b => (.of b, msg)) := by
  induction bs generalizing w log with
  | nil => exact ⟨w, rfl, by simp [send]⟩
  | cons b bs ih =>
    cases hreceives : receives (registered backends) privacy b with
    | false =>
      have hskip := receives_eq_false_iff.mp hreceives
      have hplain : send privacy (plain backends msg) (b :: bs) w =
          send privacy (plain backends msg) bs w :=
        send_skip (hskip.imp_right fun hb => by rw [plain, hb]; rfl)
      have hlogged : send privacy (logged backends msg) (b :: bs) (w, log) =
          send privacy (logged backends msg) bs (w, log) :=
        send_skip (hskip.imp_right fun hb => by rw [logged, hb]; rfl)
      rw [hplain, hlogged, List.filter_cons, hreceives]
      exact ih w log
    | true =>
      have hcalled := receives_eq_false_iff.not.mp (Bool.not_eq_false _ ▸ hreceives)
      rw [not_or] at hcalled
      obtain ⟨hsecret, hregistered⟩ := hcalled
      obtain ⟨backend, hb⟩ := Option.ne_none_iff_exists'.mp hregistered
      have hreturns := backend.returns msg w
      obtain ⟨w', hplain, hlogged⟩ := ih (backend.dispatch msg w).state (log ++ [(.of b, msg)])
      refine ⟨w', ?_, ?_⟩
      · rw [send_returns hsecret (by rw [plain, hb]; rfl) hreturns, hplain]
      · rw [send_returns hsecret (by rw [logged, hb]; rfl)
          (by rw [Called.isPanic_map]; exact hreturns), Called.state_map, hlogged,
          List.filter_cons, hreceives, List.append_assoc]
        rfl

end Send

/-- A backend is called once for each time that it is listed, if it may have the message. -/
theorem calls_map (registered : BackendConfigKey → Bool) (privacy : Privacy)
    (msg : DispatchMessage) (b : BackendConfig) (bs : List BackendConfig) :
    calls (.of b) ((bs.filter (receives registered privacy)).map fun b => (.of b, msg)) =
      if receives registered privacy b then bs.count b else 0 := by
  induction bs with
  | nil => simp [calls]
  | cons b' bs ih =>
    rw [calls] at ih ⊢
    by_cases heq : b' = b
    · subst heq
      by_cases hreceives : receives registered privacy b' = true
      · simp [hreceives] at ih ⊢
        omega
      · simp [hreceives] at ih ⊢
        exact ih
    · have hkey : BackendConfigKey.of b' ≠ .of b :=
        fun h => heq (BackendConfigKey.of_injective h)
      by_cases hreceives : receives registered privacy b' = true
      · simpa [hreceives, hkey, heq] using ih
      · simpa [hreceives, heq] using ih

/-- However the backends answer, each of them is called with the formatted message as often
as its namespace lists it, if the message passes the severity filter and the token bucket, the
backend is registered, and it is not the forwarder for a Confidential message. Otherwise it is
not called. Of the dispatcher only the token bucket of the namespace changes, if the message
passes the severity filter. -/
theorem dispatch_delivers (config : TraceConfig) (hostname : String) (backends : Backends W)
    (limiters : Limiters) (w : W) (log : Log) (msg : LogMessage) (env : Surroundings) :
    (∃ w', (dispatch config hostname (plain backends) limiters w msg env).2 = .ok w' ∧
      (dispatch config hostname (logged backends) limiters (w, log) msg env).2 =
        .ok (w', log ++ deliveries config hostname (registered backends) limiters msg env)) ∧
    (∀ b, calls (.of b) (deliveries config hostname (registered backends) limiters msg env) =
      if isSevere config msg && isAdmitted config limiters msg env &&
          receives (registered backends) msg.privacy b then
        (config.backendsFor msg.ns.complete).count b
      else 0) ∧
    (∀ call ∈ deliveries config hostname (registered backends) limiters msg env,
      call.2 = format config hostname msg env) ∧
    Acquires config msg env limiters
      (dispatch config hostname (plain backends) limiters w msg env).1 := by
  obtain ⟨hfilters, hacquires⟩ := passFilters_spec config limiters msg env
  by_cases hpassed : (passFilters config limiters msg env).1 = true
  · have hboth : (isSevere config msg && isAdmitted config limiters msg env) = true := by
      rw [← hfilters, hpassed]
    rw [dispatch_passed hpassed, dispatch_passed hpassed, deliveries, if_pos hboth, hboth]
    refine ⟨send_logged .., ?_, ?_, hacquires⟩
    · intro b
      exact calls_map ..
    · intro call hcall
      obtain ⟨b, -, rfl⟩ := List.mem_map.mp hcall
      rfl
  · have hdropped : (passFilters config limiters msg env).1 = false := by simpa using hpassed
    have hneither : (isSevere config msg && isAdmitted config limiters msg env) = false := by
      rw [← hfilters, hdropped]
    have hnone : deliveries config hostname (registered backends) limiters msg env = [] := by
      rw [deliveries, hneither]
      rfl
    rw [dispatch_dropped hdropped, dispatch_dropped hdropped, hnone, hneither, List.append_nil]
    refine ⟨⟨w, rfl, rfl⟩, fun _ => rfl, ?_, hacquires⟩
    intro call hcall
    cases hcall

def listedTwice : TraceConfig :=
  ⟨AList.insert [] [.backends [.stdout .machineFormat, .stdout .machineFormat]] ∅⟩

def urgent : LogMessage := ⟨⟨[], ["Urgent"]⟩, some .error, .public_, fun _ => "\x7b\x7d", "", []⟩

def alwaysOk : Backends Unit := fun _ => some ⟨fun _ w => .ok w, fun _ _ => rfl⟩

/-- A backend that is listed twice is called twice. -/
theorem listed_twice_called_twice :
    isSevere listedTwice urgent = true ∧
      isAdmitted listedTwice (fun _ => none) urgent ⟨0, 0, ⟨0, 0, by decide⟩, "1"⟩ = true ∧
      .stdout .machineFormat ∈ listedTwice.backendsFor urgent.ns.complete ∧
      receives (registered alwaysOk) urgent.privacy (.stdout .machineFormat) = true ∧
      ∃ log, (dispatch listedTwice "host" (logged alwaysOk) (fun _ => none) ((), []) urgent
          ⟨0, 0, ⟨0, 0, by decide⟩, "1"⟩).2 = .ok ((), log) ∧
        calls .stdoutMachine log = 2 := by
  refine ⟨by decide, by decide, by decide, by decide, _, rfl, ?_⟩
  decide

end Hermod.Delivery
