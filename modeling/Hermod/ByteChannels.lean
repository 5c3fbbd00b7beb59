import Hermod.Streaming
import Hermod.Transitions
import Mathlib.Logic.Function.Basic

/-!
Two parties that talk over streams of bytes. What a party sends is written behind what is
still on its way, any number of bytes arrive at a time, and a party takes a message as soon
as its receive buffer begins with one. Over that the same two parties with a queue of
messages in each direction: every run with bytes is a run with messages in which nothing is
rejected, and every run with messages can be had with bytes.
-/
namespace Hermod.ByteChannels

open Decoding Transitions
open Decoding.Decoder (Parses append_eq_encoding)

/-- A format of messages. `Fits` are those that the encoder can write. -/
structure Codec (μ : Type) where
  encode : μ → Bytes
  decoder : Decoder μ
  Fits : μ → Prop
  parses : ∀ {m}, Fits m → Parses decoder (encode m) m
  waits : decoder.run [] = .error .endOfInput

/-- One direction: the bytes on their way and those in the receive buffer. -/
structure Channel where
  wire : Bytes
  buffer : Bytes

inductive Received (μ : Type)
  /-- The buffer holds no complete message. -/
  | waiting
  | message (m : μ) (c : Channel)
  | rejected (e : DecodeError)

namespace Channel

def empty : Channel := ⟨[], []⟩

def send (c : Channel) (bytes : Bytes) : Channel := ⟨c.wire ++ bytes, c.buffer⟩

def arrive (c : Channel) (n : ℕ) : Channel := ⟨c.wire.drop n, c.buffer ++ c.wire.take n⟩

def receive {μ : Type} (d : Decoder μ) (c : Channel) : Received μ :=
  match d.run c.buffer with
  | .ok (m, rest) => .message m ⟨c.wire, rest⟩
  | .error .endOfInput => .waiting
  | .error e => .rejected e

end Channel

section Carries

variable {μ : Type} {codec : Codec μ}

def Codec.encodeAll (codec : Codec μ) (ms : List μ) : Bytes := ms.flatMap codec.encode

structure Carries (codec : Codec μ) (c : Channel) (ms : List μ) : Prop where
  bytes : c.buffer ++ c.wire = codec.encodeAll ms
  fits : ∀ m ∈ ms, codec.Fits m

theorem carries_empty (codec : Codec μ) : Carries codec .empty [] :=
  ⟨rfl, fun _ h => absurd h List.not_mem_nil⟩

/-- What is sent goes to the end of the bytes, and of the messages. -/
theorem Carries.send {c : Channel} {ms sent : List μ} (h : Carries codec c ms)
    (hfits : ∀ m ∈ sent, codec.Fits m) :
    Carries codec (c.send (codec.encodeAll sent)) (ms ++ sent) := by
  refine ⟨?_, ?_⟩
  · rw [Channel.send, ← List.append_assoc, h.bytes, Codec.encodeAll, Codec.encodeAll,
      Codec.encodeAll, List.flatMap_append]
  · intro m hm
    rcases List.mem_append.mp hm with hm | hm
    · exact h.fits m hm
    · exact hfits m hm

theorem Carries.arrive {c : Channel} {ms : List μ} (h : Carries codec c ms) (n : ℕ) :
    Carries codec (c.arrive n) ms := by
  refine ⟨?_, h.fits⟩
  rw [Channel.arrive, List.append_assoc, List.take_append_drop, h.bytes]

/-- What is received of a channel is its first message, or nothing for want of bytes. -/
theorem Carries.receive {c : Channel} {ms : List μ} (h : Carries codec c ms) :
    c.receive codec.decoder = .waiting ∨
      ∃ m rest c', ms = m :: rest ∧ c.receive codec.decoder = .message m c' ∧
        Carries codec c' rest := by
  have hbytes := h.bytes
  unfold Channel.receive
  cases ms with
  | nil =>
    rw [Codec.encodeAll, List.flatMap_nil, List.append_eq_nil_iff] at hbytes
    rw [hbytes.1, codec.waits]
    exact Or.inl rfl
  | cons m rest =>
    have hparses := codec.parses (h.fits m (List.mem_cons_self ..))
    rw [Codec.encodeAll, List.flatMap_cons] at hbytes
    rcases append_eq_encoding hbytes with ⟨q, hq, henc, -⟩ | ⟨left, hbuf, hrest⟩
    · -- the buffer ends inside the first message
      rw [henc] at hparses
      rw [hparses.prefix_run hq]
      exact Or.inl rfl
    · have hrun := hparses left
      rw [← hbuf] at hrun
      rw [hrun]
      refine Or.inr ⟨m, rest, ⟨c.wire, left⟩, rfl, rfl, hrest.symm, ?_⟩
      intro m' hm'
      exact h.fits m' (List.mem_cons_of_mem _ hm')

/-- Once all bytes have arrived, the first message is received. -/
theorem Carries.receive_arrived {c : Channel} {m : μ} {rest : List μ}
    (h : Carries codec c (m :: rest)) (hwire : c.wire = []) :
    ∃ c', c.receive codec.decoder = .message m c' ∧ Carries codec c' rest := by
  have hbytes := h.bytes
  rw [hwire, List.append_nil, Codec.encodeAll, List.flatMap_cons] at hbytes
  have hrun := codec.parses (h.fits m (List.mem_cons_self ..)) (codec.encodeAll rest)
  refine ⟨⟨c.wire, codec.encodeAll rest⟩, ?_, ?_, ?_⟩
  · rw [Channel.receive, hbytes]
    show (match codec.decoder.run (codec.encode m ++ codec.encodeAll rest) with
      | .ok (m, rest) => Received.message m ⟨c.wire, rest⟩
      | .error .endOfInput => .waiting
      | .error e => .rejected e) = _
    rw [hrun]
  · rw [hwire, List.append_nil]
  · intro m' hm'
    exact h.fits m' (List.mem_cons_of_mem _ hm')

end Carries

/-! Bytes that anyone may have written. -/

/-- What a decoder takes off a stream of bytes, message by message, and the bytes left. -/
inductive Decodes {μ : Type} (d : Decoder μ) : Bytes → List μ → Bytes → Prop
  | nil (bytes : Bytes) : Decodes d bytes [] bytes
  | cons {bytes mid rest : Bytes} {m : μ} {ms : List μ} (hrun : d.run bytes = .ok (m, mid))
      (h : Decodes d mid ms rest) : Decodes d bytes (m :: ms) rest

section Decodes

variable {μ ν : Type} {d : Decoder μ} {bytes rest rest' : Bytes} {m : μ} {ms : List μ}

theorem Decodes.concat (h : Decodes d bytes ms rest) (hrun : d.run rest = .ok (m, rest')) :
    Decodes d bytes (ms ++ [m]) rest' := by
  induction h with
  | nil bytes => exact Decodes.cons hrun (Decodes.nil rest')
  | cons hrun' _ ih => exact Decodes.cons hrun' (ih hrun)

/-- More bytes change nothing about the messages. -/
theorem Decodes.extend (h : Decodes d bytes ms rest) (more : Bytes) :
    Decodes d (bytes ++ more) ms (rest ++ more) := by
  induction h with
  | nil bytes => exact Decodes.nil _
  | cons hrun _ ih => exact Decodes.cons (d.extend hrun more) ih

/-- Of a stream of encodings, however much of it there is, the messages that were encoded are
taken, in order. -/
theorem Decodes.of_encodings {R : ν → μ → Prop} {ps : List (ν × Bytes)}
    (hwaits : d.run [] = .error .endOfInput)
    (hps : ∀ p ∈ ps, ∃ m, R p.1 m ∧ Decoder.Parses d p.2 m) (h : Decodes d bytes ms rest)
    {more : Bytes} (hbytes : bytes ++ more = Decoder.encodings ps) :
    ∃ done todo, ps = done ++ todo ∧ List.Forall₂ (fun p m => R p.1 m) done ms ∧
      rest ++ more = Decoder.encodings todo := by
  induction h generalizing ps with
  | nil bytes => exact ⟨[], ps, rfl, List.Forall₂.nil, hbytes⟩
  | @cons bytes mid rest m ms hrun _ ih =>
    have hrun' := d.extend hrun more
    cases ps with
    | nil =>
      rw [Decoder.encodings_nil, List.append_eq_nil_iff] at hbytes
      rw [hbytes.1, hwaits] at hrun
      cases hrun
    | cons p ps =>
      obtain ⟨m', hR, hparses⟩ := hps p (List.mem_cons_self ..)
      have hfirst := hparses (Decoder.encodings ps)
      rw [hbytes, Decoder.encodings_cons, hfirst, Except.ok.injEq, Prod.mk.injEq] at hrun'
      obtain ⟨rfl, hmid⟩ := hrun'
      obtain ⟨done, todo, rfl, hall, hrest⟩ :=
        ih (fun q hq => hps q (List.mem_cons_of_mem _ hq)) hmid.symm
      exact ⟨p :: done, todo, rfl, List.Forall₂.cons hR hall, hrest⟩

end Decodes

namespace Channel

def bytes (c : Channel) : Bytes := c.buffer ++ c.wire

variable {μ : Type} {d : Decoder μ} {c c' : Channel} {m : μ} {e : DecodeError}

theorem bytes_send (c : Channel) (sent : Bytes) : (c.send sent).bytes = c.bytes ++ sent := by
  rw [bytes, bytes, send, List.append_assoc]

theorem bytes_arrive (c : Channel) (n : ℕ) : (c.arrive n).bytes = c.bytes := by
  rw [bytes, bytes, arrive, List.append_assoc, List.take_append_drop]

/-- What is received is what the decoder makes of the whole stream. -/
theorem run_of_message (h : c.receive d = .message m c') :
    d.run c.bytes = .ok (m, c'.bytes) := by
  unfold receive at h
  split at h
  · rename_i m' rest hrun
    rw [Received.message.injEq] at h
    obtain ⟨rfl, rfl⟩ := h
    exact d.extend hrun c.wire
  · cases h
  · cases h

/-- Bytes are rejected only where the decoder fails for another reason than their end. -/
theorem run_of_rejected (h : c.receive d = .rejected e) :
    d.run c.bytes = .error e ∧ e ≠ .endOfInput := by
  unfold receive at h
  split at h
  · cases h
  · cases h
  · rename_i e' hne hrun
    rw [Received.rejected.injEq] at h
    subst h
    exact ⟨d.stable hrun hne c.wire, hne⟩

/-- Once all bytes have arrived, only too few of them make the receiver wait. -/
theorem receive_ne_waiting (h : d.run c.bytes ≠ .error .endOfInput) :
    (c.arrive c.wire.length).receive d ≠ .waiting := by
  intro hwait
  unfold receive at hwait
  split at hwait
  · cases hwait
  · rename_i hrun
    rw [arrive, List.take_length] at hrun
    exact h hrun
  · cases hwait

end Channel

/-! The two parties. -/

inductive Side
  | left
  | right
  deriving DecidableEq

def Side.other : Side → Side
  | left => right
  | right => left

/-- What a party does of its own accord, with a message, and with bytes that are no message.
It sends the messages that it returns with its state. -/
structure Party (σ ι μ : Type) where
  act : σ → ι → Option (σ × List μ)
  receive : σ → ι → μ → Option (σ × List μ)
  reject : σ → ι → DecodeError → Option σ

section Systems

variable {σ ι : Side → Type} {μ : Type}

/-- The parties, with the messages on their way to each. All messages that have been sent are
kept as history. -/
structure Talk (σ : Side → Type) (μ : Type) where
  states : (b : Side) → σ b
  queues : Side → List μ
  log : List μ

inductive Event (ι : Side → Type)
  | acts (b : Side) (i : ι b)
  | receives (b : Side) (i : ι b)

namespace Talk

def start (states : (b : Side) → σ b) : Talk σ μ := ⟨states, fun _ => [], []⟩

def move (s : Talk σ μ) (b : Side) (r : σ b × List μ) : Talk σ μ :=
  ⟨Function.update s.states b r.1,
    Function.update s.queues b.other (s.queues b.other ++ r.2), s.log ++ r.2⟩

def step (P : (b : Side) → Party (σ b) (ι b) μ) (s : Talk σ μ) : Event ι → Option (Talk σ μ)
  | .acts b i => ((P b).act (s.states b) i).map (s.move b)
  | .receives b i =>
    match s.queues b with
    | [] => none
    | m :: rest =>
      ((P b).receive (s.states b) i m).map
        (Talk.move { s with queues := Function.update s.queues b rest } b)

end Talk

/-- The same with bytes on their way. -/
structure Wired (σ : Side → Type) (μ : Type) where
  states : (b : Side) → σ b
  channels : Side → Channel
  log : List μ

inductive WiredEvent (ι : Side → Type)
  | acts (b : Side) (i : ι b)
  | receives (b : Side) (i : ι b)
  /-- The next `n` bytes to a party arrive. -/
  | arrives (b : Side) (n : ℕ)

def WiredEvent.talk : WiredEvent ι → Option (Event ι)
  | .acts b i => some (.acts b i)
  | .receives b i => some (.receives b i)
  | .arrives _ _ => none

namespace Wired

def start (states : (b : Side) → σ b) : Wired σ μ := ⟨states, fun _ => .empty, []⟩

def move (codec : Codec μ) (s : Wired σ μ) (b : Side) (r : σ b × List μ) : Wired σ μ :=
  ⟨Function.update s.states b r.1,
    Function.update s.channels b.other ((s.channels b.other).send (codec.encodeAll r.2)),
    s.log ++ r.2⟩

def step (codec : Codec μ) (P : (b : Side) → Party (σ b) (ι b) μ) (s : Wired σ μ) :
    WiredEvent ι → Option (Wired σ μ)
  | .acts b i => ((P b).act (s.states b) i).map (s.move codec b)
  | .receives b i =>
    match (s.channels b).receive codec.decoder with
    | .waiting => none
    | .message m c =>
      ((P b).receive (s.states b) i m).map
        (Wired.move codec { s with channels := Function.update s.channels b c } b)
    | .rejected e =>
      ((P b).reject (s.states b) i e).map fun x =>
        { s with states := Function.update s.states b x }
  | .arrives b n =>
    some { s with channels := Function.update s.channels b ((s.channels b).arrive n) }

def Clean (codec : Codec μ) (s : Wired σ μ) : WiredEvent ι → Prop
  | .receives b _ => ∀ e, (s.channels b).receive codec.decoder ≠ .rejected e
  | _ => True

end Wired

structure Matches (codec : Codec μ) (s : Wired σ μ) (t : Talk σ μ) : Prop where
  states : s.states = t.states
  log : s.log = t.log
  carries : ∀ b, Carries codec (s.channels b) (t.queues b)

variable {codec : Codec μ} {P : (b : Side) → Party (σ b) (ι b) μ}

theorem matches_start (codec : Codec μ) (states : (b : Side) → σ b) :
    Matches codec (Wired.start states) (Talk.start states) :=
  ⟨rfl, rfl, fun _ => carries_empty codec⟩

/-- A party that moves on in both keeps them matched. -/
theorem Matches.move {s : Wired σ μ} {t : Talk σ μ} (h : Matches codec s t) (b : Side)
    {r : σ b × List μ} (hfits : ∀ m ∈ r.2, codec.Fits m) :
    Matches codec (s.move codec b r) (t.move b r) := by
  refine ⟨?_, ?_, fun b' => ?_⟩
  · rw [Wired.move, Talk.move, h.states]
  · rw [Wired.move, Talk.move, h.log]
  · simp only [Wired.move, Talk.move]
    by_cases hb : b' = b.other
    · subst hb
      rw [Function.update_self, Function.update_self]
      exact (h.carries b.other).send hfits
    · rw [Function.update_of_ne hb, Function.update_of_ne hb]
      exact h.carries b'

/-- One channel changes, and with it the queue that it carries. -/
theorem Matches.update {s : Wired σ μ} {t : Talk σ μ} (h : Matches codec s t) {b : Side}
    {c : Channel} {ms : List μ} (hc : Carries codec c ms) :
    Matches codec { s with channels := Function.update s.channels b c }
      { t with queues := Function.update t.queues b ms } := by
  refine ⟨h.states, h.log, fun b' => ?_⟩
  simp only
  by_cases hb : b' = b
  · subst hb
    rw [Function.update_self, Function.update_self]
    exact hc
  · rw [Function.update_of_ne hb, Function.update_of_ne hb]
    exact h.carries b'

/-- A step with bytes is a step with messages, or bytes that arrive. -/
theorem Matches.wired_step {s s' : Wired σ μ} {t : Talk σ μ} {e : WiredEvent ι}
    (h : Matches codec s t) (hfits : ∀ m ∈ s'.log, codec.Fits m)
    (hstep : s.step codec P e = some s') :
    s.Clean codec e ∧
      ∃ t', run (Talk.step P) t e.talk.toList = some t' ∧ Matches codec s' t' := by
  cases e with
  | acts b i =>
    obtain ⟨r, hr, rfl⟩ := Option.map_eq_some_iff.mp hstep
    refine ⟨trivial, t.move b r, ?_, h.move b ?_⟩
    · rw [h.states] at hr
      simp [WiredEvent.talk, run, Talk.step, hr]
    · exact fun m hm => hfits m (List.mem_append_right _ hm)
  | receives b i =>
    simp only [Wired.step] at hstep
    rcases (h.carries b).receive with hwait | ⟨m, rest, c, hqueue, hmessage, hcarries⟩
    · rw [hwait] at hstep
      cases hstep
    · rw [hmessage] at hstep
      obtain ⟨r, hr, rfl⟩ := Option.map_eq_some_iff.mp hstep
      have hmoved := (h.update (b := b) hcarries).move b (r := r)
        fun m hm => hfits m (List.mem_append_right _ hm)
      refine ⟨?_, _, ?_, hmoved⟩
      · intro e he
        rw [hmessage] at he
        cases he
      · rw [h.states] at hr
        simp [WiredEvent.talk, run, Talk.step, hqueue, hr]
  | arrives b n =>
    refine ⟨trivial, t, rfl, ?_⟩
    have hupdated := h.update (b := b) ((h.carries b).arrive n)
    rw [Function.update_eq_self] at hupdated
    rw [← Option.some.inj hstep]
    exact hupdated

/-- The history grows. -/
theorem wired_step_log {s s' : Wired σ μ} {e : WiredEvent ι}
    (h : s.step codec P e = some s') : ∃ more, s'.log = s.log ++ more := by
  cases e with
  | acts b i =>
    obtain ⟨r, -, rfl⟩ := Option.map_eq_some_iff.mp h
    exact ⟨r.2, rfl⟩
  | receives b i =>
    simp only [Wired.step] at h
    split at h
    · cases h
    · obtain ⟨r, -, rfl⟩ := Option.map_eq_some_iff.mp h
      exact ⟨r.2, rfl⟩
    · obtain ⟨x, -, rfl⟩ := Option.map_eq_some_iff.mp h
      exact ⟨[], (List.append_nil _).symm⟩
  | arrives b n =>
    rw [← Option.some.inj h]
    exact ⟨[], (List.append_nil _).symm⟩

theorem talk_step_log {t t' : Talk σ μ} {e : Event ι} (h : t.step P e = some t') :
    ∃ more, t'.log = t.log ++ more := by
  cases e with
  | acts b i =>
    obtain ⟨r, -, rfl⟩ := Option.map_eq_some_iff.mp h
    exact ⟨r.2, rfl⟩
  | receives b i =>
    simp only [Talk.step] at h
    split at h
    · cases h
    · obtain ⟨r, -, rfl⟩ := Option.map_eq_some_iff.mp h
      exact ⟨r.2, rfl⟩

/-- What every step adds to a history, a run adds to it. -/
theorem log_of_run {α ε β : Type} {step : α → ε → Option α} {log : α → List β}
    (hstep : ∀ {s s' : α} {e : ε}, step s e = some s' → ∃ more, log s' = log s ++ more)
    {s s' : α} {es : List ε} (h : run step s es = some s') : log s ⊆ log s' := by
  refine run_invariant (I := fun u => log s ⊆ log u) ?_ (List.Subset.refl _) h
  intro u e u' hu he
  obtain ⟨more, hmore⟩ := hstep he
  rw [hmore]
  exact List.Subset.trans hu (List.subset_append_left ..)

/-- Every run with bytes is a run with messages, in which nothing is rejected. -/
theorem Matches.wired_run {s s' : Wired σ μ} {t : Talk σ μ} {es : List (WiredEvent ι)}
    (h : Matches codec s t) (hfits : ∀ m ∈ s'.log, codec.Fits m)
    (hrun : run (Wired.step codec P) s es = some s') :
    Along (Wired.step codec P) (Wired.Clean codec) s es ∧
      ∃ t', run (Talk.step P) t (es.filterMap WiredEvent.talk) = some t' ∧
        Matches codec s' t' := by
  induction es generalizing s t with
  | nil =>
    obtain rfl : s = s' := Option.some.inj hrun
    exact ⟨trivial, t, rfl, h⟩
  | cons e es ih =>
    obtain ⟨m, hstep, hrest⟩ := run_cons_iff.mp hrun
    have hsent : m.log ⊆ s'.log := log_of_run wired_step_log hrest
    obtain ⟨hclean, u, hu, hmatches⟩ := h.wired_step (fun x hx => hfits x (hsent hx)) hstep
    obtain ⟨hall, t', ht', hmatches'⟩ := ih hmatches hrest
    refine ⟨⟨hclean, ?_⟩, t', ?_, hmatches'⟩
    · intro m' hm'
      rw [hstep, Option.some.injEq] at hm'
      exact hm' ▸ hall
    · cases htalk : e.talk with
      | none =>
        rw [List.filterMap_cons_none htalk]
        rw [htalk] at hu
        obtain rfl : t = u := Option.some.inj hu
        exact ht'
      | some e' =>
        rw [List.filterMap_cons_some htalk]
        rw [htalk] at hu
        exact run_append hu ht'

/-- A step with messages is a step with bytes, before which all bytes arrive. -/
theorem Matches.talk_step {s : Wired σ μ} {t t' : Talk σ μ} {e : Event ι}
    (h : Matches codec s t) (hfits : ∀ m ∈ t'.log, codec.Fits m)
    (hstep : t.step P e = some t') :
    ∃ es s', es.filterMap WiredEvent.talk = [e] ∧ run (Wired.step codec P) s es = some s' ∧
      Matches codec s' t' := by
  cases e with
  | acts b i =>
    obtain ⟨r, hr, rfl⟩ := Option.map_eq_some_iff.mp hstep
    refine ⟨[.acts b i], s.move codec b r, rfl, ?_, h.move b ?_⟩
    · rw [← h.states] at hr
      simp [run, Wired.step, hr]
    · exact fun m hm => hfits m (List.mem_append_right _ hm)
  | receives b i =>
    simp only [Talk.step] at hstep
    cases hqueue : t.queues b with
    | nil =>
      rw [hqueue] at hstep
      cases hstep
    | cons m rest =>
      rw [hqueue] at hstep
      obtain ⟨r, hr, rfl⟩ := Option.map_eq_some_iff.mp hstep
      have hcarries := (h.carries b).arrive (s.channels b).wire.length
      rw [hqueue] at hcarries
      obtain ⟨c, hmessage, hrest⟩ := hcarries.receive_arrived List.drop_length
      have hmoved := (h.update (b := b) hrest).move b (r := r)
        fun m hm => hfits m (List.mem_append_right _ hm)
      refine ⟨[.arrives b (s.channels b).wire.length, .receives b i], _, rfl, ?_, hmoved⟩
      rw [← h.states] at hr
      simp [run, Wired.step, hmessage, hr]

/-- Every run with messages that can be written can be had with bytes. -/
theorem Matches.talk_run {s : Wired σ μ} {t t' : Talk σ μ} {es : List (Event ι)}
    (h : Matches codec s t) (hfits : ∀ m ∈ t'.log, codec.Fits m)
    (hrun : run (Talk.step P) t es = some t') :
    ∃ es' s', es'.filterMap WiredEvent.talk = es ∧
      run (Wired.step codec P) s es' = some s' ∧ Matches codec s' t' := by
  induction es generalizing s t with
  | nil =>
    obtain rfl : t = t' := Option.some.inj hrun
    exact ⟨[], s, rfl, rfl, h⟩
  | cons e es ih =>
    obtain ⟨u, hstep, hrest⟩ := run_cons_iff.mp hrun
    have hsent : u.log ⊆ t'.log := log_of_run talk_step_log hrest
    obtain ⟨es₁, s₁, hes₁, hrun₁, hmatches₁⟩ := h.talk_step (fun m hm => hfits m (hsent hm)) hstep
    obtain ⟨es₂, s₂, hes₂, hrun₂, hmatches₂⟩ := ih hmatches₁ hrest
    refine ⟨es₁ ++ es₂, s₂, ?_, run_append hrun₁ hrun₂, hmatches₂⟩
    rw [List.filterMap_append, hes₁, hes₂, List.singleton_append]

end Systems

end Hermod.ByteChannels
