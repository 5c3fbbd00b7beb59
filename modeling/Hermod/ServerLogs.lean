import Hermod.MachineLog
import Hermod.TraceHandler
import Hermod.TraceProtocol

/-!
From the forwarders to the log files. For each connection the server asks for traces, and
logs the traces of a reply with each of its logging configurations before it asks again.
All connections share one writer, whose files are rotated in between. What the machine log
of a node holds for a connection are the traces that its forwarder sent, in their order.
-/
namespace Hermod.ServerLogs

open AppendOnlyLog LogWriter MachineLog ProtocolTypes TraceHandler TraceProtocol Transitions
open TextLines (Text)
open TracerState (NodeId Unicode)

structure Config where
  logging : List LoggingParams
  requestCount : UInt16
  nodeName : ℕ → NodeId

def fileKey (nodeName : NodeId) (params : LoggingParams) : Option LogKey :=
  match params.logMode with
  | .fileMode => some ⟨nodeName, params.logRoot, params.logFormat⟩
  | .journalMode => none

def Config.keys (cfg : Config) (i : ℕ) : List LogKey :=
  cfg.logging.filterMap (fileKey (cfg.nodeName i))

inductive Loop
  | requesting
  /-- In `handle_traces`, with the parameters that are left. -/
  | handling (params : List LoggingParams) (traces : List TraceObject)
  | ended

inductive Call
  | write (i : ℕ) (key : LogKey) (traces : List TraceObject) (now mtime : ℤ)
  | rotate (key : LogKey) (limitBytes : ℕ) (now mtime : ℤ)
  deriving DecidableEq

def Call.event : Call → Rotation.Event
  | .write _ key traces now mtime => .write key traces now mtime
  | .rotate key limitBytes now mtime => .rotate key limitBytes now mtime

/-- The calls of the writer are kept as history. -/
structure System where
  exchanges : ℕ → Exchange
  loops : ℕ → Loop
  writer : LogWriter.System
  calls : List Call

inductive Event
  /-- The forwarder of connection `i` answers its next message. -/
  | answer (i : ℕ) (traces : List TraceObject)
  | request (i : ℕ)
  | receive (i : ℕ)
  /-- `handle_traces` goes on with the next parameters. -/
  | log (i : ℕ) (now mtime : ℤ)
  | handled (i : ℕ)
  | rotate (key : LogKey) (limitBytes : ℕ) (now mtime : ℤ)
  /-- The connection ends where its loop waits. -/
  | close (i : ℕ)

namespace System

def start (fs : Fs) : System := ⟨fun _ => .start, fun _ => .requesting, .start fs, []⟩

def setExchange (s : System) (i : ℕ) (x : Exchange) : System :=
  { s with exchanges := Function.update s.exchanges i x }

def setLoop (s : System) (i : ℕ) (loop : Loop) : System :=
  { s with loops := Function.update s.loops i loop }

def call (u : Unicode) (F : Formats) (s : System) (c : Call) : Option System :=
  (Rotation.step u F s.writer c.event).map fun writer =>
    { s with writer := writer, calls := s.calls ++ [c] }

def afterReply (cfg : Config) : Except String (List TraceObject) → Loop
  | .ok traces => .handling cfg.logging traces
  | .error _ => .ended

def step (cfg : Config) (u : Unicode) (F : Formats) (s : System) : Event → Option System
  | .answer i traces => ((s.exchanges i).step (.handleRequest traces)).map (s.setExchange i)
  | .request i =>
    match s.loops i with
    | .requesting =>
      ((s.exchanges i).step (.requestTraces cfg.requestCount)).map (s.setExchange i)
    | _ => none
  | .receive i =>
    match s.loops i, (s.exchanges i).toAcceptor with
    | .requesting, m :: _ => ((s.exchanges i).step .receive).map fun x =>
        (s.setExchange i x).setLoop i (afterReply cfg (acceptReply m))
    | _, _ => none
  | .log i now mtime =>
    match s.loops i with
    | .handling (params :: rest) traces =>
      match fileKey (cfg.nodeName i) params with
      | some key => (s.call u F (.write i key traces now mtime)).map fun s =>
          s.setLoop i (.handling rest traces)
      | none => some (s.setLoop i (.handling rest traces))
    | _ => none
  | .handled i =>
    match s.loops i with
    | .handling [] _ => some (s.setLoop i .requesting)
    | _ => none
  | .rotate key limitBytes now mtime => s.call u F (.rotate key limitBytes now mtime)
  | .close i =>
    match s.loops i with
    | .handling (_ :: _) _ => none
    | _ => some (s.setLoop i .ended)

end System

/-! What the calls write. -/

def batches (key : LogKey) (i : ℕ) (calls : List Call) : List (List TraceObject) :=
  calls.filterMap fun c =>
    match c with
    | .write j k traces _ _ => if j = i ∧ k = key then some traces else none
    | .rotate .. => none

def entries (key : LogKey) (calls : List Call) : List (ℕ × TraceObject) :=
  calls.flatMap fun c =>
    match c with
    | .write i k traces _ _ => if k = key then traces.map (i, ·) else []
    | .rotate .. => []

/-- Without their connections the entries are the traces written under the key. -/
theorem map_snd_entries (key : LogKey) (calls : List Call) :
    (entries key calls).map Prod.snd = (calls.map Call.event).flatMap (tracesOf key) := by
  rw [entries, List.map_flatMap, List.flatMap_map]
  apply List.flatMap_congr
  intro c _
  cases c with
  | write i k traces now mtime =>
    by_cases hk : k = key
    · simp [hk, Call.event, tracesOf]
    · simp [hk, Call.event, tracesOf]
  | rotate k limitBytes now mtime => rfl

/-- The entries of a connection are its batches. -/
theorem filter_entries (key : LogKey) (i : ℕ) (calls : List Call) :
    ((entries key calls).filter fun e => e.1 = i).map Prod.snd =
      (batches key i calls).flatten := by
  induction calls with
  | nil => rfl
  | cons c calls ih =>
    rw [entries, List.flatMap_cons, ← entries, List.filter_append, List.map_append, ih]
    cases c with
    | write j k traces now mtime =>
      by_cases hk : k = key
      · by_cases hj : j = i
        · simp [batches, hk, hj, List.filter_map, Function.comp_def]
        · simp [batches, hk, hj, List.filter_map, Function.comp_def]
      · simp [batches, hk]
    | rotate k limitBytes now mtime => simp [batches]

theorem batches_concat (key : LogKey) (i : ℕ) (calls : List Call) (c : Call) :
    batches key i (calls ++ [c]) = batches key i calls ++ batches key i [c] :=
  List.filterMap_append

/-! What a run keeps. -/

namespace System

def pending (cfg : Config) (key : LogKey) (i : ℕ) : Loop → List (List TraceObject)
  | .handling params traces =>
    if key ∈ params.filterMap (fileKey (cfg.nodeName i)) then [traces] else []
  | _ => []

/-- What a connection has received is what it has written under each of its keys, and the
batch that it is about to write. -/
structure Inv (cfg : Config) (u : Unicode) (F : Formats) (fs : Fs) (s : System) : Prop where
  writer : run (Rotation.step u F) (.start fs) (s.calls.map Call.event) = some s.writer
  returns : ∀ i, (s.exchanges i).Returns
  left : ∀ i params traces, s.loops i = .handling params traces → params <:+ cfg.logging
  own : ∀ (key : LogKey) i, key.nodeId ≠ cfg.nodeName i → batches key i s.calls = []
  received : ∀ key i, (cfg.keys i).count key = 1 → (s.exchanges i).received =
    (batches key i s.calls ++ pending cfg key i (s.loops i)).map .ok

variable {cfg : Config} {u : Unicode} {F : Formats} {fs : Fs} {s : System}

theorem inv_start (cfg : Config) (u : Unicode) (F : Formats) (fs : Fs) :
    Inv cfg u F fs (start fs) where
  writer := rfl
  returns _ := Exchange.returns_start
  left _ _ _ h := by cases h
  own _ _ _ := rfl
  received _ _ _ := rfl

/-- A step of the exchange that returns nothing. -/
theorem Inv.exchange (hs : Inv cfg u F fs s) {i : ℕ} {x : Exchange} (hx : x.Returns)
    (hreceived : x.received = (s.exchanges i).received) :
    Inv cfg u F fs (s.setExchange i x) := by
  refine ⟨hs.writer, fun j => ?_, hs.left, hs.own, fun key j hkey => ?_⟩
  · by_cases hj : j = i
    · subst hj
      simpa [setExchange] using hx
    · simpa [setExchange, hj] using hs.returns j
  · by_cases hj : j = i
    · subst hj
      simpa [setExchange, hreceived] using hs.received key j hkey
    · simpa [setExchange, hj] using hs.received key j hkey

/-- The loop goes on with nothing less to write. -/
theorem Inv.loop (hs : Inv cfg u F fs s) {i : ℕ} {loop : Loop}
    (hleft : ∀ params traces, loop = .handling params traces → params <:+ cfg.logging)
    (hpending : ∀ key, (cfg.keys i).count key = 1 →
      pending cfg key i loop = pending cfg key i (s.loops i)) :
    Inv cfg u F fs (s.setLoop i loop) := by
  refine ⟨hs.writer, hs.returns, fun j params traces hj => ?_, hs.own, fun key j hkey => ?_⟩
  · by_cases hne : j = i
    · subst hne
      apply hleft params traces
      simpa [setLoop] using hj
    · apply hs.left j params traces
      simpa [setLoop, hne] using hj
  · by_cases hne : j = i
    · subst hne
      simpa [setLoop, hpending key hkey] using hs.received key j hkey
    · simpa [setLoop, hne] using hs.received key j hkey

theorem Inv.call (hs : Inv cfg u F fs s) {s' : System} {c : Call} (h : s.call u F c = some s') :
    run (Rotation.step u F) (.start fs) (s'.calls.map Call.event) = some s'.writer ∧
      s'.exchanges = s.exchanges ∧ s'.loops = s.loops ∧ s'.calls = s.calls ++ [c] := by
  obtain ⟨writer, hstep, rfl⟩ := Option.map_eq_some_iff.mp h
  refine ⟨?_, rfl, rfl, rfl⟩
  rw [List.map_append, List.map_singleton]
  exact run_concat_iff.mpr ⟨s.writer, hs.writer, hstep⟩

/-- The key of the next parameters is not among those of the rest. -/
theorem notMem_rest {i : ℕ} {key : LogKey} {params : LoggingParams} {rest : List LoggingParams}
    (hleft : params :: rest <:+ cfg.logging) (hkey : (cfg.keys i).count key = 1)
    (hparams : fileKey (cfg.nodeName i) params = some key) :
    key ∉ rest.filterMap (fileKey (cfg.nodeName i)) := by
  have hsub : ((params :: rest).filterMap (fileKey (cfg.nodeName i))).Sublist (cfg.keys i) :=
    hleft.sublist.filterMap _
  have hcount := hsub.count_le key
  rw [hkey, List.filterMap_cons_some hparams, List.count_cons_self] at hcount
  intro hmem
  have hpos := List.count_pos_iff.mpr hmem
  omega

/-- A batch that is written under one of the keys is one pending batch less. -/
theorem Inv.log (hs : Inv cfg u F fs s) {i : ℕ} {now mtime : ℤ} {s' : System}
    {params : LoggingParams} {rest : List LoggingParams} {traces : List TraceObject}
    {written : LogKey} (hloop : s.loops i = .handling (params :: rest) traces)
    (hparams : fileKey (cfg.nodeName i) params = some written)
    (h : s.call u F (.write i written traces now mtime) = some s') :
    Inv cfg u F fs (s'.setLoop i (.handling rest traces)) := by
  have hleft := hs.left i _ _ hloop
  obtain ⟨hwriter, hexchanges, hloops, hcalls⟩ := hs.call h
  have hnode : written.nodeId = cfg.nodeName i := by
    unfold fileKey at hparams
    split at hparams
    · rw [← Option.some.inj hparams]
    · cases hparams
  refine ⟨hwriter, fun j => ?_, fun j params' traces' hj => ?_, fun key j hne => ?_,
    fun key j hkey => ?_⟩
  · show (s'.exchanges j).Returns
    rw [hexchanges]
    exact hs.returns j
  · by_cases hji : j = i
    · subst hji
      simp only [setLoop, Function.update_self, Loop.handling.injEq] at hj
      rw [← hj.1]
      exact (List.suffix_cons params rest).trans hleft
    · simp only [setLoop, Function.update_of_ne hji, hloops] at hj
      exact hs.left j _ _ hj
  · show batches key j s'.calls = []
    rw [hcalls, batches_concat, hs.own key j hne, List.nil_append]
    have hno : ¬ (i = j ∧ written = key) := by
      rintro ⟨rfl, rfl⟩
      exact hne hnode
    exact List.filterMap_cons_none (if_neg hno)
  · show (s'.exchanges j).received =
      (batches key j s'.calls ++ pending cfg key j (Function.update s'.loops i _ j)).map .ok
    rw [hexchanges, hcalls, hloops, hs.received key j hkey, batches_concat]
    by_cases hji : j = i
    · subst hji
      rw [Function.update_self, hloop]
      by_cases hk : written = key
      · subst hk
        have hrest := notMem_rest hleft hkey hparams
        simp [batches, pending, hparams, hrest]
      · simp [batches, pending, hk, hparams, Ne.symm hk]
    · rw [Function.update_of_ne hji]
      simp [batches, Ne.symm hji]

/-- A reply that is received is not an error. -/
theorem exists_traces {x : Exchange} (hx : x.Returns) {m : ProtocolMessages.Message}
    {rest : List ProtocolMessages.Message} (hm : x.toAcceptor = m :: rest) :
    ∃ traces, acceptReply m = .ok traces := by
  have hmem : acceptReply m ∈ (x.log.filterMap Exchange.reply?).map Except.ok := by
    rw [← hx.replies, hm]
    simp
  obtain ⟨traces, -, htraces⟩ := List.mem_map.mp hmem
  exact ⟨traces, htraces.symm⟩

/-- What a loop receives is the next reply of its forwarder. -/
theorem Inv.receive (hs : Inv cfg u F fs s) {i : ℕ} {m : ProtocolMessages.Message}
    {rest : List ProtocolMessages.Message} {x : Exchange} (hloop : s.loops i = .requesting)
    (hm : (s.exchanges i).toAcceptor = m :: rest) (h : (s.exchanges i).step .receive = some x) :
    Inv cfg u F fs ((s.setExchange i x).setLoop i (afterReply cfg (acceptReply m))) := by
  obtain ⟨traces, htraces⟩ := exists_traces (hs.returns i) hm
  have hreceived : x.received = (s.exchanges i).received ++ [.ok traces] := by
    simp only [Exchange.step, hm] at h
    split at h
    · rename_i hm'
      cases hm'
      rw [← Option.some.inj h, ← htraces]
    · cases h
  rw [htraces, afterReply]
  refine ⟨hs.writer, fun j => ?_, fun j params' traces' hj => ?_, hs.own, fun key j hkey => ?_⟩
  · by_cases hji : j = i
    · subst hji
      simpa [setLoop, setExchange] using (hs.returns j).step h
    · simpa [setLoop, setExchange, hji] using hs.returns j
  · by_cases hji : j = i
    · subst hji
      simp only [setLoop, Function.update_self, Loop.handling.injEq] at hj
      rw [← hj.1]
    · simp only [setLoop, Function.update_of_ne hji] at hj
      exact hs.left j _ _ hj
  · by_cases hji : j = i
    · subst hji
      have hmem : key ∈ cfg.keys j := List.count_pos_iff.mp (by omega)
      have hbefore := hs.received key j hkey
      rw [hloop] at hbefore
      simp only [setLoop, setExchange, Function.update_self, hreceived, hbefore]
      rw [Config.keys] at hmem
      simp [pending, hmem]
    · simpa [setLoop, setExchange, hji] using hs.received key j hkey

theorem Inv.step (hs : Inv cfg u F fs s) {s' : System} {e : Event}
    (h : s.step cfg u F e = some s') : Inv cfg u F fs s' := by
  cases e with
  | answer i traces =>
    obtain ⟨x, hx, rfl⟩ := Option.map_eq_some_iff.mp h
    apply hs.exchange ((hs.returns i).step hx)
    simp only [Exchange.step] at hx
    split at hx
    · cases hx
    · split at hx
      · split at hx
        · rw [← Option.some.inj hx]
        · rw [← Option.some.inj hx]
      · cases hx
  | request i =>
    simp only [System.step] at h
    split at h
    · obtain ⟨x, hx, rfl⟩ := Option.map_eq_some_iff.mp h
      apply hs.exchange ((hs.returns i).step hx)
      simp only [Exchange.step] at hx
      split at hx
      · rw [← Option.some.inj hx]
      · cases hx
    · cases h
  | receive i =>
    simp only [System.step] at h
    split at h
    · rename_i m rest hloop hm
      obtain ⟨x, hx, rfl⟩ := Option.map_eq_some_iff.mp h
      exact hs.receive hloop hm hx
    · cases h
  | log i now mtime =>
    simp only [System.step] at h
    split at h
    · rename_i params rest traces hloop
      split at h
      · rename_i key hparams
        obtain ⟨s'', hcall, rfl⟩ := Option.map_eq_some_iff.mp h
        exact hs.log hloop hparams hcall
      · rename_i hparams
        rw [← Option.some.inj h]
        apply hs.loop
        · intro params' traces' heq
          rw [Loop.handling.injEq] at heq
          rw [← heq.1]
          exact (List.suffix_cons params rest).trans (hs.left i _ _ hloop)
        · intro key _
          rw [hloop]
          simp [pending, hparams]
    · cases h
  | handled i =>
    simp only [System.step] at h
    split at h
    · rename_i traces hloop
      rw [← Option.some.inj h]
      apply hs.loop
      · intro params' traces' heq
        cases heq
      · intro key _
        rw [hloop]
        rfl
    · cases h
  | rotate key limitBytes now mtime =>
    obtain ⟨hwriter, hexchanges, hloops, hcalls⟩ := hs.call h
    have hsame : ∀ key' i, batches key' i s'.calls = batches key' i s.calls := by
      intro key' i
      rw [hcalls, batches_concat]
      exact List.append_nil _
    refine ⟨hwriter, fun i => ?_, fun i => ?_, fun key' i hne => ?_, fun key' i hkey => ?_⟩
    · rw [hexchanges]
      exact hs.returns i
    · rw [hloops]
      exact hs.left i
    · rw [hsame]
      exact hs.own key' i hne
    · rw [hexchanges, hloops, hsame]
      exact hs.received key' i hkey
  | close i =>
    simp only [System.step] at h
    split at h
    · cases h
    · rename_i hloop
      rw [← Option.some.inj h]
      apply hs.loop
      · intro params' traces' heq
        cases heq
      · intro key _
        cases hl : s.loops i with
        | handling params traces =>
          cases params with
          | nil => rfl
          | cons p ps => exact absurd hl (hloop p ps traces)
        | _ => rfl

def replies (s : System) (i : ℕ) : List (List TraceObject) :=
  (s.exchanges i).log.filterMap Exchange.reply?

/-- The loop waits, and no reply is on its way to it. -/
def Settled (s : System) (i : ℕ) : Prop :=
  s.loops i = .requesting ∧ (s.exchanges i).toAcceptor = []

theorem ok_injective : Function.Injective (Except.ok : List TraceObject → Except String _) := by
  intro traces traces' h
  exact Except.ok.inj h

/-- What a connection has written under a key are its replies from the first on. -/
theorem Inv.batches_first (hs : Inv cfg u F fs s) {key : LogKey} {i : ℕ}
    (hkey : (cfg.keys i).count key = 1) :
    batches key i s.calls <+: s.replies i ∧
      (s.Settled i → batches key i s.calls = s.replies i) := by
  have hreturns := (hs.returns i).replies
  rw [hs.received key i hkey] at hreturns
  constructor
  · apply (List.prefix_map_iff_of_injective ok_injective).mp
    rw [replies, ← hreturns, List.map_append, List.append_assoc]
    exact List.prefix_append _ _
  · intro hsettled
    obtain ⟨hloop, hempty⟩ := hsettled
    apply List.map_injective_iff.mpr ok_injective
    rw [hloop, hempty] at hreturns
    simpa [pending, replies] using hreturns

end System

/-- The entries of a connection are the first of its replies, and all of them when it has
settled. Connections of other nodes have none. -/
def Holds (cfg : Config) (s : System) (key : LogKey) (es : List (ℕ × TraceObject)) (i : ℕ) :
    Prop :=
  let own := (es.filter fun e => e.1 = i).map Prod.snd
  if cfg.nodeName i = key.nodeId then
    ∃ n, own = ((s.replies i).take n).flatten ∧ (s.Settled i → n = (s.replies i).length)
  else own = []

/-- A key that is listed once gets every batch once. -/
theorem System.Inv.holds {cfg : Config} {u : Unicode} {F : Formats} {fs : Fs} {s : System}
    (hs : System.Inv cfg u F fs s) {key : LogKey}
    (honce : ∀ i, cfg.nodeName i = key.nodeId → (cfg.keys i).count key = 1) (i : ℕ) :
    Holds cfg s key (entries key s.calls) i := by
  rw [Holds, filter_entries]
  split
  · rename_i hnode
    obtain ⟨hpre, hall⟩ := hs.batches_first (honce i hnode)
    refine ⟨(batches key i s.calls).length, ?_, fun hsettled => by rw [hall hsettled]⟩
    rw [← List.prefix_iff_eq_take.mp hpre]
  · rename_i hnode
    rw [hs.own key i (Ne.symm hnode)]
    rfl

/-- The machine log of a node is read as what it held before and what the calls have written
under its key. -/
theorem System.Inv.readLog_eq {finite : Text → Bool} {parse : String → Option DateTime}
    {stamp : ℤ → String} {time rfc3339 : DateTime → String} {cfg : Config} {u : Unicode}
    {keys : List LogKey} {fs : Fs} {s : System}
    (hdistinct : LogWriter.System.Distinct u keys)
    (hinv : System.Inv cfg u (LogLines.formats stamp time rfc3339) fs s)
    (hkeys : ∀ c ∈ s.calls, c.event.key ∈ keys)
    (hclock : (s.calls.map Call.event).Pairwise fun e e' => clock e ≤ clock e')
    (hstamps : StampsOrdered (LogLines.formats stamp time rfc3339) (s.calls.map Call.event))
    (hearlier : ∀ key ∈ keys, ∀ name, Taken u fs key name →
      ∀ c ∈ s.calls, name ≤ key.filename (stamp (clock c.event)))
    {key : LogKey} (hkey : key ∈ keys) (hformat : key.logFormat = .forMachine)
    (honce : ∀ i, cfg.nodeName i = key.nodeId → (cfg.keys i).count key = 1)
    (hclosed : ¬ TextLines.Open (contents u fs key))
    (htimes : ∀ i, cfg.nodeName i = key.nodeId → ∀ batch ∈ s.replies i, ∀ trace ∈ batch,
      parse (rfc3339 trace.toTimestamp) = some trace.toTimestamp) :
    readLog finite parse (contents u s.writer.fs key) =
      readLog finite parse (contents u fs key) ++
        (entries key s.calls).map fun e => some e.2 := by
  have hevents : ∀ e ∈ s.calls.map Call.event, e.key ∈ keys ∧ NoPruning e ∧
      ∀ key ∈ keys, ∀ name, Taken u fs key name → name ≤ key.filename (stamp (clock e)) := by
    intro e he
    obtain ⟨c, hc, rfl⟩ := List.mem_map.mp he
    refine ⟨hkeys c hc, ?_, fun key hkey name htaken => hearlier key hkey name htaken c hc⟩
    cases c with
    | write i k traces now mtime => trivial
    | rotate k limitBytes now mtime => trivial
  have hread : ∀ trace ∈ (entries key s.calls).map Prod.snd,
      parse (rfc3339 trace.toTimestamp) = some trace.toTimestamp := by
    intro trace htrace
    obtain ⟨⟨i, t⟩, he, rfl⟩ := List.mem_map.mp htrace
    have hown : t ∈ ((entries key s.calls).filter fun e => e.1 = i).map Prod.snd :=
      List.mem_map.mpr ⟨(i, t), List.mem_filter.mpr ⟨he, decide_eq_true rfl⟩, rfl⟩
    have hi := hinv.holds honce i
    rw [Holds] at hi
    split at hi
    · rename_i hnode
      obtain ⟨n, hfirst, -⟩ := hi
      rw [hfirst] at hown
      obtain ⟨batch, hbatch, ht⟩ := List.mem_flatten.mp hown
      exact htimes i hnode batch (List.mem_of_mem_take hbatch) t ht
    · rw [hi] at hown
      cases hown
  rw [contents_eq_append_lines hdistinct (fun e he => (hevents e he).1)
    (fun e he => (hevents e he).2.1) hclock hstamps
    (fun key hkey name htaken e he => (hevents e he).2.2 key hkey name htaken) hinv.writer hkey,
    hformat, ← map_snd_entries, readLog_append_lines hclosed hread, List.map_map]
  rfl

def twoNodes : Config := ⟨[⟨["logs"], .fileMode, .forMachine⟩, ⟨["logs"], .journalMode, .forHuman⟩],
  100, fun i => if i = 0 then "a" else "b"⟩

end Hermod.ServerLogs
