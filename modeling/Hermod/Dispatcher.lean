import Hermod.DispatcherConfig
import Hermod.EkgBackend
import Mathlib.Logic.Function.Basic

/-!
The dispatcher. A message passes the severity filter and the rate limiter of its
namespace, is formatted once, and goes to the configured backends in order. Instants are
nanoseconds and tokens are exact.
-/
namespace Hermod.Dispatcher

open ProtocolTypes DispatcherConfig EkgBackend

structure TokenBucket where
  tokens : ℚ
  maxTokens : ℚ
  refillRate : ℚ
  lastRefill : ℕ
  deriving DecidableEq

namespace TokenBucket

def new (maxFreq : ℚ) (now : ℕ) : TokenBucket := ⟨maxFreq, maxFreq, maxFreq, now⟩

/-- A clock that went back counts as no time. -/
def refill (b : TokenBucket) (now : ℕ) : TokenBucket :=
  let elapsed : ℚ := ((now - b.lastRefill : ℕ) : ℚ) / 10 ^ 9
  { b with tokens := min (b.tokens + elapsed * b.refillRate) b.maxTokens, lastRefill := now }

def tryAcquire (b : TokenBucket) (now : ℕ) : Bool × TokenBucket :=
  let b := b.refill now
  if 1 ≤ b.tokens then (true, { b with tokens := b.tokens - 1 }) else (false, b)

end TokenBucket

inductive Privacy
  | public_
  | confidential
  deriving DecidableEq

structure Namespace where
  nsPrefix : List String
  nsInner : List String
  deriving DecidableEq

def Namespace.complete (ns : Namespace) : List String := ns.nsPrefix ++ ns.nsInner

/-- What a message says about itself. Its JSON object is given by the text written for it. -/
structure LogMessage where
  ns : Namespace
  severity : Option Severity
  privacy : Privacy
  forMachine : DetailLevel → String
  forHuman : String
  asMetrics : List Metric

structure DispatchMessage where
  traceObject : TraceObject
  human : String
  machine : String
  metrics : List Metric
  detail : DetailLevel
  deriving DecidableEq

inductive BackendConfigKey
  | forwarder
  | stdoutColoured
  | stdoutUncoloured
  | stdoutMachine
  | ekg
  | datapoint
  deriving DecidableEq

def BackendConfigKey.of : BackendConfig → BackendConfigKey
  | .forwarder => forwarder
  | .stdout .humanFormatColoured => stdoutColoured
  | .stdout .humanFormatUncoloured => stdoutUncoloured
  | .stdout .machineFormat => stdoutMachine
  | .ekgBackend => ekg
  | .datapointBackend => datapoint

theorem BackendConfigKey.of_injective : Function.Injective BackendConfigKey.of := by
  intro b b' h
  rcases b with _ | (_ | _ | _) | _ | _ <;> rcases b' with _ | (_ | _ | _) | _ | _ <;>
    first | rfl | cases h

abbrev Limiters := List String → Option TokenBucket

/-- What a call reads from its surroundings: the clocks and the thread it runs on. -/
structure Surroundings where
  bucketCreated : ℕ
  acquired : ℕ
  now : DateTime
  threadId : String
  deriving DecidableEq

def passFilters (config : TraceConfig) (limiters : Limiters) (msg : LogMessage)
    (env : Surroundings) : Bool × Limiters :=
  let ns := msg.ns.complete
  if (config.severityFor ns).passes (msg.severity.getD .debug) then
    match config.limiterFor ns with
    | none => (true, limiters)
    | some maxFreq =>
      let bucket := (limiters ns).getD (.new maxFreq env.bucketCreated)
      let acquired := bucket.tryAcquire env.acquired
      (acquired.1, Function.update limiters ns (some acquired.2))
  else (false, limiters)

def format (config : TraceConfig) (hostname : String) (msg : LogMessage) (env : Surroundings) :
    DispatchMessage :=
  let ns := msg.ns.complete
  let detail := config.detailFor ns
  let human := msg.forHuman
  let machine := msg.forMachine detail
  { traceObject :=
      { toHuman := if human = "" then none else some human
        toMachine := machine
        toNamespace := ns
        toSeverity := msg.severity.getD .debug
        toDetails := detail
        toTimestamp := env.now
        toHostname := hostname
        toThreadId := env.threadId }
    human := human
    machine := machine
    metrics := msg.asMetrics
    detail := detail }

variable {σ : Type}

/-- The backends in order. A failing one is reported and skipped, and a panic leaves the
loop. Confidential messages must not go to the forwarder. -/
def send (privacy : Privacy) (backend : BackendConfigKey → Option (σ → Called σ)) :
    List BackendConfig → σ → Called σ
  | [], s => .ok s
  | backendCfg :: rest, s =>
    if privacy = .confidential ∧ backendCfg = .forwarder then send privacy backend rest s
    else
      match backend (.of backendCfg) with
      | none => send privacy backend rest s
      | some call =>
        match call s with
        | .ok s => send privacy backend rest s
        | .err s => send privacy backend rest s
        | .panicked s => .panicked s

/-- The forwarder does not see a Confidential message, and an unknown backend is passed over. -/
theorem send_skip {privacy : Privacy} {backend : BackendConfigKey → Option (σ → Called σ)}
    {b : BackendConfig} {bs : List BackendConfig} {s : σ}
    (h : privacy = .confidential ∧ b = .forwarder ∨ backend (.of b) = none) :
    send privacy backend (b :: bs) s = send privacy backend bs s := by
  rw [send]
  split
  · rfl
  · rename_i hno
    rw [h.resolve_left hno]

theorem send_call {privacy : Privacy} {backend : BackendConfigKey → Option (σ → Called σ)}
    {b : BackendConfig} {bs : List BackendConfig} {s : σ} {call : σ → Called σ}
    (h : ¬ (privacy = .confidential ∧ b = .forwarder)) (hcall : backend (.of b) = some call) :
    send privacy backend (b :: bs) s =
      if (call s).isPanic then .panicked (call s).state
      else send privacy backend bs (call s).state := by
  rw [send, if_neg h, hcall]
  cases hs : call s <;> simp [Called.isPanic, Called.state, hs]

def dispatch (config : TraceConfig) (hostname : String)
    (backend : DispatchMessage → BackendConfigKey → Option (σ → Called σ)) (limiters : Limiters)
    (s : σ) (msg : LogMessage) (env : Surroundings) : Limiters × Called σ :=
  let passed := passFilters config limiters msg env
  if passed.1 then
    let dispatchMsg := format config hostname msg env
    (passed.2,
      send msg.privacy (backend dispatchMsg) (config.backendsFor msg.ns.complete) s)
  else (passed.2, .ok s)

section Dispatch

variable {config : TraceConfig} {hostname : String}
  {backend : DispatchMessage → BackendConfigKey → Option (σ → Called σ)} {limiters : Limiters}
  {s : σ} {msg : LogMessage} {env : Surroundings}

theorem dispatch_passed (h : (passFilters config limiters msg env).1 = true) :
    dispatch config hostname backend limiters s msg env =
      ((passFilters config limiters msg env).2,
        send msg.privacy (backend (format config hostname msg env))
          (config.backendsFor msg.ns.complete) s) :=
  if_pos h

theorem dispatch_dropped (h : (passFilters config limiters msg env).1 = false) :
    dispatch config hostname backend limiters s msg env =
      ((passFilters config limiters msg env).2, .ok s) :=
  if_neg (by rw [h]; exact Bool.false_ne_true)

end Dispatch

end Hermod.Dispatcher
