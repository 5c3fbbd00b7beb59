import Hermod.CborHeads
import Hermod.DataPointMessages
import Hermod.ProtocolTypes
import Hermod.Transitions
import Mathlib.Logic.Function.Basic

/-!
The store of data points, written by the backend of the dispatcher and read by the tasks
that reply to requests. The store is keyed by the namespaces joined with dots. A task looks
up the names of a request one by one, and messages may be dispatched between two of them.
-/
namespace Hermod.DataPoints

open Decoding DataPointMessages ProtocolTypes Transitions

abbrev Store := String → Option Bytes

namespace Store

def put (store : Store) (name : String) (value : Bytes) : Store :=
  Function.update store name (some value)

def get (store : Store) (name : String) : Option Bytes := store name

end Store

def key (trace : TraceObject) : String := ".".intercalate trace.toNamespace

def machineBytes (trace : TraceObject) : Bytes := Cbor.utf8 trace.toMachine

def dispatch (store : Store) (trace : TraceObject) : Store :=
  store.put (key trace) (machineBytes trace)

/-- A request with the items looked up so far. The numbers of messages that had been
dispatched when it came and at each look-up are kept as history. -/
structure Serving where
  names : List String
  received : ℕ
  items : List (String × Option Bytes)
  times : List ℕ
  deriving DecidableEq

inductive Task
  | waiting
  | serving (request : Serving)
  | ended
  deriving DecidableEq

/-- The store and the tasks that share it. The messages dispatched and the replies sent,
each with the number of messages dispatched by then, are kept as history. -/
structure System where
  store : Store
  tasks : ℕ → Task
  dispatched : List TraceObject
  replies : List (Serving × ℕ)

inductive Event
  | dispatch (trace : TraceObject)
  | request (task : ℕ) (names : List String)
  | lookUp (task : ℕ)
  | reply (task : ℕ)
  /-- The channel of the task fails or is closed. -/
  | close (task : ℕ)

namespace System

def start : System := ⟨fun _ => none, fun _ => .waiting, [], []⟩

def setTask (s : System) (i : ℕ) (task : Task) : System :=
  { s with tasks := Function.update s.tasks i task }

def valueOf (nodeInfo : Option Bytes) (store : Store) (name : String) : Option Bytes :=
  if name = "NodeInfo" then nodeInfo else store.get name

def step (nodeInfo : Option Bytes) (s : System) : Event → Option System
  | .dispatch trace =>
    some { s with store := dispatch s.store trace, dispatched := s.dispatched ++ [trace] }
  | .request i names =>
    match s.tasks i with
    | .waiting => some (s.setTask i (.serving ⟨names, s.dispatched.length, [], []⟩))
    | _ => none
  | .lookUp i =>
    match s.tasks i with
    | .serving r =>
      match r.names.drop r.items.length with
      | n :: _ =>
        let items := r.items ++ [(n, valueOf nodeInfo s.store n)]
        some (s.setTask i (.serving
          { r with items := items, times := r.times ++ [s.dispatched.length] }))
      | [] => none
    | _ => none
  | .reply i =>
    match s.tasks i with
    | .serving r =>
      if r.items.length = r.names.length then
        let s := s.setTask i .waiting
        some { s with replies := s.replies ++ [(r, s.dispatched.length)] }
      else none
    | _ => none
  | .close i => some (s.setTask i .ended)

end System

def latest (traces : List TraceObject) (name : String) : Option Bytes :=
  (traces.filter fun trace => key trace = name).getLast?.map machineBytes

/-- The value of the latest message of the namespace itself. -/
def latestUnder (traces : List TraceObject) (ns : List String) : Option Bytes :=
  (traces.filter fun trace => trace.toNamespace = ns).getLast?.map machineBytes

/-- The items are those of the first names, each with the value that its name had at a time
between the request and `now`. -/
structure Faithful (traces : List TraceObject) (now : ℕ) (r : Serving) : Prop where
  names : r.items.map Prod.fst = r.names.take r.items.length
  bounded : now ≤ traces.length
  started : r.received ≤ now
  times : r.times.length = r.items.length
  order : (r.received :: r.times).Pairwise (· ≤ ·)
  done : ∀ t ∈ r.times, t ≤ now
  values : ∀ (i : ℕ) n v t, r.items[i]? = some (n, v) → r.times[i]? = some t →
    n ≠ "NodeInfo" → v = latest (traces.take t) n

/-- The store holds the latest value of every name, and every reply, sent or in the making,
is faithful to what has been dispatched. -/
structure Inv (s : System) : Prop where
  store : ∀ name, s.store name = latest s.dispatched name
  serving : ∀ i r, s.tasks i = .serving r → Faithful s.dispatched s.dispatched.length r
  replies : ∀ p ∈ s.replies, Faithful s.dispatched p.2 p.1 ∧ p.1.items.length = p.1.names.length

theorem latest_append_singleton (traces : List TraceObject) (trace : TraceObject) (name : String) :
    latest (traces ++ [trace]) name =
      if key trace = name then some (machineBytes trace) else latest traces name := by
  unfold latest
  by_cases h : key trace = name
  · simp [List.filter_append, h]
  · simp [List.filter_append, h]

/-- Messages that are dispatched later do not touch what was read. -/
theorem Faithful.append {traces : List TraceObject} {now : ℕ} {r : Serving}
    (h : Faithful traces now r) (more : List TraceObject) : Faithful (traces ++ more) now r := by
  have hbounded := h.bounded
  refine { h with bounded := ?_, values := ?_ }
  · rw [List.length_append]
    omega
  · intro i n v t hi ht hn
    have hle := h.done t (List.mem_of_getElem? ht)
    rw [List.take_append_of_le_length (by omega)]
    exact h.values i n v t hi ht hn

theorem Faithful.later {traces : List TraceObject} {now later : ℕ} {r : Serving}
    (h : Faithful traces now r) (hle : now ≤ later) (hlater : later ≤ traces.length) :
    Faithful traces later r :=
  { h with
    bounded := hlater
    started := h.started.trans hle
    done := fun t ht => (h.done t ht).trans hle }

/-- A request with nothing looked up yet is faithful. -/
theorem faithful_request (traces : List TraceObject) (names : List String) :
    Faithful traces traces.length ⟨names, traces.length, [], []⟩ where
  names := rfl
  bounded := le_refl _
  started := le_refl _
  times := rfl
  order := by simp
  done := by simp
  values := by simp

/-- Looking up the next name now. -/
theorem Faithful.lookUp {traces : List TraceObject} {r : Serving} {nodeInfo : Option Bytes}
    {store : Store} (h : Faithful traces traces.length r)
    (hstore : ∀ name, store name = latest traces name) {n : String} {rest : List String}
    (hnext : r.names.drop r.items.length = n :: rest) :
    Faithful traces traces.length
      { r with
        items := r.items ++ [(n, System.valueOf nodeInfo store n)]
        times := r.times ++ [traces.length] } := by
  have hlt : r.items.length < r.names.length := by
    by_contra hge
    rw [List.drop_eq_nil_of_le (by omega)] at hnext
    cases hnext
  have hn : r.names[r.items.length]? = some n := by
    have hhead := congrArg List.head? hnext
    simpa using hhead
  refine { h with names := ?_, times := ?_, order := ?_, done := ?_, values := ?_ }
  · rw [List.map_append, h.names, List.length_append, List.length_singleton, List.take_add_one, hn]
    rfl
  · simp [h.times]
  · rw [← List.cons_append, List.pairwise_append]
    refine ⟨h.order, List.pairwise_singleton _ _, ?_⟩
    intro t ht t' ht'
    rw [List.mem_singleton.mp ht']
    rcases List.mem_cons.mp ht with rfl | ht
    · exact h.started
    · exact h.done t ht
  · intro t ht
    rcases List.mem_append.mp ht with ht | ht
    · exact h.done t ht
    · exact (List.mem_singleton.mp ht).le
  · intro i m v t hi ht hm
    rcases Nat.lt_trichotomy i r.items.length with hlt' | heq | hgt
    · rw [List.getElem?_append_left hlt'] at hi
      rw [List.getElem?_append_left (by rw [h.times]; exact hlt')] at ht
      exact h.values i m v t hi ht hm
    · subst heq
      rw [List.getElem?_concat_length, Option.some.injEq, Prod.mk.injEq] at hi
      rw [← h.times, List.getElem?_concat_length, Option.some.injEq] at ht
      obtain ⟨rfl, rfl⟩ := hi
      rw [← ht, List.take_length, System.valueOf, if_neg hm]
      exact hstore n
    · rw [List.getElem?_eq_none (by rw [List.length_append, List.length_singleton]; omega)] at hi
      cases hi

section Step

variable {nodeInfo : Option Bytes} {s s' : System}

theorem inv_start : Inv System.start where
  store := fun _ => rfl
  serving := by
    intro i r hr
    cases hr
  replies := by simp [System.start]

theorem Inv.setTask (hs : Inv s) (i : ℕ) {task : Task}
    (htask : ∀ r, task = .serving r → Faithful s.dispatched s.dispatched.length r) :
    Inv (s.setTask i task) := by
  refine ⟨hs.store, ?_, hs.replies⟩
  intro j r hr
  by_cases hj : j = i
  · subst hj
    have hself : (s.setTask j task).tasks j = task := Function.update_self ..
    rw [hself] at hr
    exact htask r hr
  · have hother : (s.setTask i task).tasks j = s.tasks j := Function.update_of_ne hj ..
    rw [hother] at hr
    exact hs.serving j r hr

/-- The store then holds the new value of its name, and the others as before. -/
theorem Inv.dispatch (hs : Inv s) (trace : TraceObject) :
    Inv { s with
      store := DataPoints.dispatch s.store trace
      dispatched := s.dispatched ++ [trace] } := by
  constructor
  · intro name
    rw [latest_append_singleton]
    by_cases h : key trace = name
    · subst h
      rw [if_pos rfl]
      exact Function.update_self ..
    · rw [if_neg h, ← hs.store]
      exact Function.update_of_ne (fun heq => h heq.symm) ..
  · intro i r hr
    have hfaithful := (hs.serving i r hr).append [trace]
    refine hfaithful.later ?_ le_rfl
    rw [List.length_append]
    omega
  · intro p hp
    obtain ⟨hfaithful, hlength⟩ := hs.replies p hp
    exact ⟨hfaithful.append [trace], hlength⟩

theorem Inv.step (hs : Inv s) {e : Event} (h : System.step nodeInfo s e = some s') : Inv s' := by
  cases e with
  | dispatch trace =>
    rw [System.step, Option.some.injEq] at h
    rw [← h]
    exact hs.dispatch trace
  | request i names =>
    rw [System.step] at h
    cases htask : s.tasks i with
    | waiting =>
      simp only [htask, Option.some.injEq] at h
      rw [← h]
      refine hs.setTask i fun r hr => ?_
      cases hr
      exact faithful_request s.dispatched names
    | serving r => simp [htask] at h
    | ended => simp [htask] at h
  | lookUp i =>
    rw [System.step] at h
    cases htask : s.tasks i with
    | waiting => simp [htask] at h
    | serving r =>
      simp only [htask] at h
      cases hnext : r.names.drop r.items.length with
      | nil => simp [hnext] at h
      | cons n rest =>
        simp only [hnext, Option.some.injEq] at h
        rw [← h]
        refine hs.setTask i fun r' hr => ?_
        cases hr
        exact (hs.serving i r htask).lookUp hs.store hnext
    | ended => simp [htask] at h
  | reply i =>
    rw [System.step] at h
    cases htask : s.tasks i with
    | waiting => simp [htask] at h
    | serving r =>
      simp only [htask] at h
      by_cases hdone : r.items.length = r.names.length
      · rw [if_pos hdone, Option.some.injEq] at h
        rw [← h]
        have hwaiting : Inv (s.setTask i .waiting) := hs.setTask i fun r hr => by cases hr
        refine ⟨hwaiting.store, hwaiting.serving, ?_⟩
        intro p hp
        rcases List.mem_append.mp hp with hp | hp
        · exact hwaiting.replies p hp
        · rw [List.mem_singleton.mp hp]
          exact ⟨hs.serving i r htask, hdone⟩
      · rw [if_neg hdone] at h
        cases h
    | ended => simp [htask] at h
  | close i =>
    rw [System.step, Option.some.injEq] at h
    rw [← h]
    exact hs.setTask i fun r hr => by cases hr

end Step

/-- A name that only one namespace joins to is read as that namespace. -/
theorem latest_eq_latestUnder {traces : List TraceObject} {ns : List String}
    (h : ∀ trace ∈ traces, key trace = ".".intercalate ns → trace.toNamespace = ns) :
    latest traces (".".intercalate ns) = latestUnder traces ns := by
  unfold latest latestUnder
  congr 2
  apply List.filter_congr
  intro trace htrace
  rw [decide_eq_decide]
  constructor
  · exact h trace htrace
  · intro hns
    rw [key, hns]

/-- In every run each reply has one item for each requested name, in order, and the item of
a name other than `NodeInfo` carries the value of the latest message dispatched, before the
name was looked up, under a namespace that joins to it. -/
theorem replies_read_latest {nodeInfo : Option Bytes} {es : List Event} {s : System}
    (h : run (System.step nodeInfo) System.start es = some s) :
    ∀ p ∈ s.replies, p.1.items.map Prod.fst = p.1.names ∧
      p.1.times.length = p.1.items.length ∧ (p.1.received :: p.1.times).Pairwise (· ≤ ·) ∧
      (∀ t ∈ p.1.times, t ≤ p.2) ∧
      ∀ (i : ℕ) n v t, p.1.items[i]? = some (n, v) → p.1.times[i]? = some t → n ≠ "NodeInfo" →
        v = latest (s.dispatched.take t) n ∧
        ∀ ns, n = ".".intercalate ns →
          (∀ trace ∈ s.dispatched.take t, key trace = n → trace.toNamespace = ns) →
          v = latestUnder (s.dispatched.take t) ns := by
  intro p hp
  have hinv : Inv s := run_invariant (fun _ _ _ hs he => hs.step he) inv_start h
  obtain ⟨hfaithful, hlength⟩ := hinv.replies p hp
  refine ⟨?_, hfaithful.times, hfaithful.order, hfaithful.done, ?_⟩
  · rw [hfaithful.names, hlength, List.take_length]
  · intro i n v t hi ht hn
    have hv := hfaithful.values i n v t hi ht hn
    refine ⟨hv, ?_⟩
    rintro ns rfl honly
    rw [hv]
    exact latest_eq_latestUnder honly

def askTwice (trace : TraceObject) (name : String) : List Event :=
  [.dispatch trace, .request 0 [name, name], .lookUp 0, .lookUp 0, .reply 0]

/-- Between the two a second message is dispatched. -/
theorem replies_read_latest_twice :
    let t : TraceObject := ⟨none, "1", ["a", "b"], .info, .dNormal, ⟨0, 0, by decide⟩, "host", "1"⟩
    let es : List Event := [.dispatch t, .request 0 ["a.b", "a.b"], .lookUp 0,
      .dispatch { t with toMachine := "2" }, .lookUp 0, .reply 0]
    ∃ s p, run (System.step none) System.start es = some s ∧ p ∈ s.replies ∧
      p.1.items = [("a.b", some (Cbor.utf8 "1")), ("a.b", some (Cbor.utf8 "2"))] ∧
      p.1.items.map Prod.fst = p.1.names ∧
      ∀ (i : ℕ) n v t, p.1.items[i]? = some (n, v) → p.1.times[i]? = some t → n ≠ "NodeInfo" →
        v = latest (s.dispatched.take t) n := by
  intro t es
  obtain ⟨s, hrun, hreplies⟩ : ∃ s, run (System.step none) System.start es = some s ∧
      s.replies.map (fun p => p.1.items) =
        [[("a.b", some (Cbor.utf8 "1")), ("a.b", some (Cbor.utf8 "2"))]] := ⟨_, rfl, rfl⟩
  obtain ⟨p, hp, hitems⟩ : ∃ p ∈ s.replies,
      p.1.items = [("a.b", some (Cbor.utf8 "1")), ("a.b", some (Cbor.utf8 "2"))] := by
    apply List.mem_map.mp
    rw [hreplies]
    exact List.mem_singleton_self _
  obtain ⟨hnames, -, -, -, hvalues⟩ := replies_read_latest hrun p hp
  exact ⟨s, p, hrun, hp, hitems, hnames, fun i n v t hi ht hn => (hvalues i n v t hi ht hn).1⟩

/-- The namespace of the one segment `a.b` is answered with the value of the namespace of
the segments `a` and `b`. -/
theorem dotted_segment_reads_other :
    ¬ ∀ (nodeInfo : Option Bytes) (es : List Event) (s : System),
      run (System.step nodeInfo) System.start es = some s →
      ∀ p ∈ s.replies, ∀ (i : ℕ) n v t, p.1.items[i]? = some (n, v) → p.1.times[i]? = some t →
        n ≠ "NodeInfo" → ∀ ns, n = ".".intercalate ns →
          v = latestUnder (s.dispatched.take t) ns := by
  intro hall
  let t : TraceObject := ⟨none, "1", ["a", "b"], .info, .dNormal, ⟨0, 0, by decide⟩, "host", "1"⟩
  have hread := hall none (askTwice t "a.b") _ rfl _ (List.mem_singleton_self _) 0 "a.b"
    (some (Cbor.utf8 "1")) 1 (by decide +kernel) (by decide +kernel) (by decide) ["a.b"]
    (by decide)
  have hnone : latestUnder ([t].take 1) ["a.b"] = none := by decide +kernel
  have heq : some (Cbor.utf8 "1") = latestUnder ([t].take 1) ["a.b"] := hread
  rw [hnone] at heq
  cases heq

end Hermod.DataPoints
