import Hermod.Decoding
import Mathlib.Data.List.Forall2

/-!
Receiving messages over a stream cut into chunks. `Parses d enc a` says that `d`
reads exactly `enc` as `a`, whatever follows. Such an encoding is prefix-free for
`d`: every strict prefix asks for more input. A receiver that appends chunks to a
buffer and drains complete messages therefore returns exactly the messages sent.
-/
namespace Hermod.Decoding

namespace Decoder

variable {α β : Type}

def Parses (d : Decoder α) (enc : Bytes) (a : α) : Prop :=
  ∀ rest, d.run (enc ++ rest) = .ok (a, rest)

theorem Parses.run {d : Decoder α} {enc : Bytes} {a : α} (h : Parses d enc a) :
    d.run enc = .ok (a, []) := by
  simpa only [List.append_nil] using h []

theorem parses_pure (a : α) : Parses (pure a) [] a := fun _ => rfl

theorem Parses.bind {x : Decoder α} {f : α → Decoder β} {e e' : Bytes} {a : α} {b : β}
    (hx : Parses x e a) (hf : Parses (f a) e' b) : Parses (x >>= f) (e ++ e') b := by
  intro rest
  simp only [List.append_assoc, bind_run, hx (e' ++ rest), hf rest]

theorem Parses.map {x : Decoder α} {e : Bytes} {a : α} (g : α → β) (hx : Parses x e a) :
    Parses (g <$> x) e (g a) := by
  intro rest
  simp only [map_run, hx rest]

def encodings (ps : List (α × Bytes)) : Bytes := (ps.map Prod.snd).flatten

@[simp] theorem encodings_nil : encodings ([] : List (α × Bytes)) = [] := rfl

@[simp] theorem encodings_cons (p : α × Bytes) (ps : List (α × Bytes)) :
    encodings (p :: ps) = p.2 ++ encodings ps := rfl

/-- As many encodings as items are read one after the other. -/
theorem parses_times {item : Decoder α} (ps : List (α × Bytes))
    (h : ∀ p ∈ ps, Parses item p.2 p.1) :
    Parses (times item ps.length) (encodings ps) (ps.map Prod.fst) := by
  induction ps with
  | nil => exact parses_pure []
  | cons p ps ih =>
    have hp := h p (List.mem_cons_self ..)
    have hps := ih fun q hq => h q (List.mem_cons_of_mem _ hq)
    intro rest
    simp only [encodings_cons, List.length_cons, times, List.append_assoc, bind_run,
      hp (encodings ps ++ rest), hps rest, pure_run, List.map_cons]

theorem parses_untilByteFuel {stop : UInt8} {item : Decoder α} (ps : List (α × Bytes))
    (h : ∀ p ∈ ps, Parses item p.2 p.1)
    (hstop : ∀ p ∈ ps, ∃ b bs, p.2 = b :: bs ∧ b ≠ stop) :
    Parses (untilByteFuel stop item (ps.length + 1)) (encodings ps ++ [stop])
      (ps.map Prod.fst) := by
  induction ps with
  | nil =>
    intro rest
    show (untilByteFuel stop item 1).run (stop :: rest) = .ok ([], rest)
    rw [untilByteFuel_succ_cons, if_pos rfl]
  | cons p ps ih =>
    have hp := h p (List.mem_cons_self ..)
    have hps := ih (fun q hq => h q (List.mem_cons_of_mem _ hq))
      (fun q hq => hstop q (List.mem_cons_of_mem _ hq))
    obtain ⟨b, bs, hb, hne⟩ := hstop p (List.mem_cons_self ..)
    intro rest
    have hrun := hp (encodings ps ++ [stop] ++ rest)
    have hloop := hps rest
    rw [hb, List.cons_append] at hrun
    simp only [encodings_cons, List.length_cons, hb, List.cons_append, List.append_assoc]
      at hrun hloop ⊢
    rw [untilByteFuel_succ_cons, if_neg hne]
    simp only [bind_run, map_run, hrun, hloop, List.map_cons]

/-- Encodings that are not empty bound the number of elements. -/
theorem length_le_encodings (ps : List (α × Bytes)) (h : ∀ p ∈ ps, p.2 ≠ []) :
    ps.length ≤ (encodings ps).length := by
  induction ps with
  | nil => exact Nat.le_refl 0
  | cons p ps ih =>
    have hp := List.length_pos_of_ne_nil (h p (List.mem_cons_self ..))
    have hps := ih fun q hq => h q (List.mem_cons_of_mem _ hq)
    simp only [List.length_cons, encodings_cons, List.length_append]
    omega

/-- A list written up to a stop byte that starts no element is read back. -/
theorem parses_untilByte {stop : UInt8} {item : Decoder α} (ps : List (α × Bytes))
    (h : ∀ p ∈ ps, Parses item p.2 p.1)
    (hstop : ∀ p ∈ ps, ∃ b bs, p.2 = b :: bs ∧ b ≠ stop) :
    Parses (untilByte stop item) (encodings ps ++ [stop]) (ps.map Prod.fst) := by
  intro rest
  have hne : ∀ p ∈ ps, p.2 ≠ [] := by
    intro p hp
    obtain ⟨b, bs, hb, -⟩ := hstop p hp
    simp [hb]
  have hlen := length_le_encodings ps hne
  apply byLength_of_ok _ (parses_untilByteFuel ps h hstop rest)
  simp only [List.length_append, List.length_singleton]
  omega

/-- A strict prefix of an encoding neither decodes nor is rejected. -/
theorem Parses.prefix_run {d : Decoder α} {p q : Bytes} {a : α} (h : Parses d (p ++ q) a)
    (hq : q ≠ []) : d.run p = .error .endOfInput := by
  have hfull := h.run
  cases hp : d.run p with
  | ok r =>
    obtain ⟨b, rest⟩ := r
    rw [d.extend hp q] at hfull
    simp only [Except.ok.injEq, Prod.mk.injEq, List.append_eq_nil_iff] at hfull
    exact absurd hfull.2.2 hq
  | error e =>
    by_cases he : e = .endOfInput
    · rw [he]
    · rw [d.stable hp he q] at hfull
      cases hfull

/-- Two encodings that `d` reads at the start of the same input agree. -/
theorem Parses.unique {d : Decoder α} {e e' rest rest' : Bytes} {a b : α} (h : Parses d e a)
    (h' : Parses d e' b) (heq : e ++ rest = e' ++ rest') : a = b ∧ e = e' ∧ rest = rest' := by
  have hrun := h rest
  rw [heq, h' rest'] at hrun
  simp only [Except.ok.injEq, Prod.mk.injEq] at hrun
  obtain ⟨hab, hrest⟩ := hrun
  subst hrest
  exact ⟨hab.symm, List.append_cancel_right heq, rfl⟩

/-- What has arrived of a stream that starts with an encoding either lacks a part of it or
holds all of it. -/
theorem append_eq_encoding {buffer later enc more : Bytes} (heq : buffer ++ later = enc ++ more) :
    (∃ q, q ≠ [] ∧ enc = buffer ++ q ∧ later = q ++ more) ∨
      ∃ rest, buffer = enc ++ rest ∧ more = rest ++ later := by
  rcases List.append_eq_append_iff.mp heq with ⟨q, hq, hlater⟩ | ⟨rest, hbuf, hmore⟩
  · by_cases hnil : q = []
    · subst hnil
      rw [List.append_nil] at hq
      rw [List.nil_append] at hlater
      exact Or.inr ⟨[], by rw [List.append_nil, hq], by rw [hlater, List.nil_append]⟩
    · exact Or.inl ⟨q, hnil, hq, hlater⟩
  · exact Or.inr ⟨rest, hbuf, hmore⟩

/-- Decode complete messages from the front of the buffer until `d` asks for more
input, or rejects the buffer. -/
def drain (d : Decoder α) : ℕ → Bytes → List α × Except DecodeError Bytes
  | _, [] => ([], .ok [])
  | 0, b :: bs => ([], .ok (b :: bs))
  | fuel + 1, b :: bs =>
    match d.run (b :: bs) with
    | .ok (a, rest) => (a :: (drain d fuel rest).1, (drain d fuel rest).2)
    | .error .endOfInput => ([], .ok (b :: bs))
    | .error e => ([], .error e)

/-- Append each chunk to the buffer and drain it. The outcome is the messages
received in order with the bytes left in the buffer, or the error that ended it. -/
def receive (d : Decoder α) : Bytes → List Bytes → List α × Except DecodeError Bytes
  | buffer, [] => ([], .ok buffer)
  | buffer, chunk :: chunks =>
    match drain d (buffer ++ chunk).length (buffer ++ chunk) with
    | (as, .ok rest) => (as ++ (receive d rest chunks).1, (receive d rest chunks).2)
    | (as, .error e) => (as, .error e)

/-- The buffer holds no complete encoding of what is still to come. -/
def Waiting (buffer : Bytes) : List (α × Bytes) → Prop
  | [] => buffer = []
  | p :: _ => ∃ q, q ≠ [] ∧ buffer ++ q = p.2

theorem waiting_nil (ps : List (α × Bytes)) (hne : ∀ p ∈ ps, p.2 ≠ []) : Waiting [] ps := by
  cases ps with
  | nil => rfl
  | cons p ps => exact ⟨p.2, hne p (List.mem_cons_self ..), rfl⟩

theorem Waiting.eq_nil {buffer : Bytes} {ps : List (α × Bytes)} (h : Waiting buffer ps)
    (heq : buffer = encodings ps) : ps = [] := by
  cases ps with
  | nil => rfl
  | cons p ps =>
    obtain ⟨q, hq, hp⟩ := h
    have h1 := congrArg List.length heq
    have h2 := congrArg List.length hp
    have h3 := List.length_pos_of_ne_nil hq
    simp only [encodings_cons, List.length_append] at h1 h2
    omega

/-- Draining takes the complete encodings from the front and leaves a part of the next. -/
theorem drain_encodings {d : Decoder α} (ps : List (α × Bytes))
    (h : ∀ p ∈ ps, Parses d p.2 p.1) (hne : ∀ p ∈ ps, p.2 ≠ []) {buffer later : Bytes}
    (heq : buffer ++ later = encodings ps) {fuel : ℕ} (hfuel : buffer.length ≤ fuel) :
    ∃ done todo rest, ps = done ++ todo ∧
      drain d fuel buffer = (done.map Prod.fst, .ok rest) ∧
      rest ++ later = encodings todo ∧ Waiting rest todo := by
  induction ps generalizing buffer fuel with
  | nil =>
    simp only [encodings_nil, List.append_eq_nil_iff] at heq
    obtain ⟨rfl, rfl⟩ := heq
    exact ⟨[], [], [], rfl, by unfold drain; rfl, rfl, rfl⟩
  | cons p ps ih =>
    have hp := h p (List.mem_cons_self ..)
    have hne' : ∀ q ∈ ps, q.2 ≠ [] := fun q hq => hne q (List.mem_cons_of_mem _ hq)
    cases buffer with
    | nil => exact ⟨[], p :: ps, [], rfl, by unfold drain; rfl, heq, waiting_nil _ hne⟩
    | cons b bs =>
      obtain ⟨fuel, rfl⟩ : ∃ k, fuel = k + 1 :=
        ⟨fuel - 1, by simp only [List.length_cons] at hfuel; omega⟩
      rw [encodings_cons] at heq
      rcases append_eq_encoding heq with ⟨q, hq, henc, -⟩ | ⟨rest, hbuf, hrest⟩
      · -- The buffer ends inside the first encoding.
        have hrun := hp
        rw [henc] at hrun
        refine ⟨[], p :: ps, b :: bs, rfl, ?_, heq, q, hq, henc.symm⟩
        simp only [drain, hrun.prefix_run hq, List.map_nil]
      · have hrun := hp rest
        rw [← hbuf] at hrun
        have hlen : rest.length ≤ fuel := by
          have h1 := congrArg List.length hbuf
          have h2 := List.length_pos_of_ne_nil (hne p (List.mem_cons_self ..))
          simp only [List.length_append] at h1
          omega
        obtain ⟨done, todo, left, hps, hdrain, hleft, hwait⟩ :=
          ih (fun q hq => h q (List.mem_cons_of_mem _ hq)) hne' hrest.symm hlen
        refine ⟨p :: done, todo, left, by rw [hps]; rfl, ?_, hleft, hwait⟩
        simp only [drain, hrun, hdrain, List.map_cons]

/-- However the bytes are cut, the messages come out in order, by induction on the chunks. -/
theorem receive_from {d : Decoder α} (ps : List (α × Bytes))
    (h : ∀ p ∈ ps, Parses d p.2 p.1) (hne : ∀ p ∈ ps, p.2 ≠ []) (chunks : List Bytes)
    (buffer : Bytes) (heq : buffer ++ chunks.flatten = encodings ps)
    (hwait : Waiting buffer ps) :
    receive d buffer chunks = (ps.map Prod.fst, .ok []) := by
  induction chunks generalizing ps buffer with
  | nil =>
    rw [List.flatten_nil, List.append_nil] at heq
    have hps := hwait.eq_nil heq
    subst hps
    subst heq
    rfl
  | cons chunk chunks ih =>
    rw [List.flatten_cons, ← List.append_assoc] at heq
    obtain ⟨done, todo, rest, hps, hdrain, hrest, htodo⟩ :=
      drain_encodings ps h hne heq (Nat.le_refl (buffer ++ chunk).length)
    subst hps
    have hloop : receive d rest chunks = (todo.map Prod.fst, .ok []) :=
      ih todo (fun q hq => h q (List.mem_append_right _ hq))
        (fun q hq => hne q (List.mem_append_right _ hq)) rest hrest htodo
    rw [receive, hdrain]
    simp only [hloop, List.map_append]

/-- However the encodings are cut into chunks, the messages come back in order and
the buffer ends empty. -/
theorem receive_encodings {d : Decoder α} (ps : List (α × Bytes))
    (h : ∀ p ∈ ps, Parses d p.2 p.1) (hne : ∀ p ∈ ps, p.2 ≠ []) (chunks : List Bytes)
    (heq : chunks.flatten = encodings ps) :
    receive d [] chunks = (ps.map Prod.fst, .ok []) :=
  receive_from ps h hne chunks [] heq (waiting_nil ps hne)

/-- What the receiver makes of encodings that are read up to a relation `R` between the
message sent and the message read. -/
theorem receive_related {γ : Type} {d : Decoder α} {R : γ → α → Prop} (sent : List (γ × Bytes))
    (h : ∀ p ∈ sent, ∃ a, R p.1 a ∧ Parses d p.2 a) (hwait : d.run [] = .error .endOfInput)
    (chunks : List Bytes) (heq : chunks.flatten = (sent.map Prod.snd).flatten) :
    (∃ received, receive d [] chunks = (received, .ok []) ∧
      List.Forall₂ (fun p a => R p.1 a) sent received) ∧
    ∀ p ∈ sent, ∀ pre suffix, p.2 = pre ++ suffix → suffix ≠ [] →
      d.run pre = .error .endOfInput := by
  have hreads : ∃ ps : List (α × Bytes), ps.map Prod.snd = sent.map Prod.snd ∧
      (∀ p ∈ ps, Parses d p.2 p.1) ∧
      List.Forall₂ (fun p a => R p.1 a) sent (ps.map Prod.fst) := by
    clear heq
    induction sent with
    | nil => exact ⟨[], rfl, fun _ hp => absurd hp List.not_mem_nil, List.Forall₂.nil⟩
    | cons p sent ih =>
      obtain ⟨a, hR, hparses⟩ := h p (List.mem_cons_self ..)
      obtain ⟨ps, hsnd, hps, hall⟩ := ih fun q hq => h q (List.mem_cons_of_mem _ hq)
      refine ⟨(a, p.2) :: ps, by rw [List.map_cons, List.map_cons, hsnd], ?_,
        List.Forall₂.cons hR hall⟩
      intro q hq
      rcases List.mem_cons.mp hq with rfl | hq
      · exact hparses
      · exact hps q hq
  constructor
  · obtain ⟨ps, hsnd, hps, hall⟩ := hreads
    have hne : ∀ p ∈ ps, p.2 ≠ [] := by
      intro p hp hnil
      have hrun := (hps p hp).run
      rw [hnil, hwait] at hrun
      cases hrun
    exact ⟨ps.map Prod.fst, receive_encodings ps hps hne chunks (by rw [heq, encodings, hsnd]),
      hall⟩
  · intro p hp pre suffix hsplit hne
    obtain ⟨a, -, hparses⟩ := h p hp
    rw [hsplit] at hparses
    exact hparses.prefix_run hne

/-- A receiver whose decoder reads each encoding as the message it was made from. -/
theorem receive_mapped {γ : Type} {d : Decoder α} {f : γ → α} (sent : List (γ × Bytes))
    (h : ∀ p ∈ sent, Parses d p.2 (f p.1)) (hwait : d.run [] = .error .endOfInput)
    (chunks : List Bytes) (heq : chunks.flatten = (sent.map Prod.snd).flatten) :
    receive d [] chunks = (sent.map fun p => f p.1, .ok []) ∧
      ∀ p ∈ sent, ∀ pre suffix, p.2 = pre ++ suffix → suffix ≠ [] →
        d.run pre = .error .endOfInput := by
  have hreads : ∀ p ∈ sent, ∃ a, f p.1 = a ∧ Parses d p.2 a := fun p hp => ⟨_, rfl, h p hp⟩
  obtain ⟨⟨received, hrun, hall⟩, hprefixes⟩ :=
    receive_related (R := fun c a => f c = a) sent hreads hwait chunks heq
  have hsent : sent.map (fun p => f p.1) = received :=
    List.forall₂_eq_eq_eq ▸ List.forall₂_map_left_iff.mpr hall
  exact ⟨by rw [hrun, hsent], hprefixes⟩

/-- Append chunks to the buffer until a complete message stands at its front. The outcome
is the message with the bytes left in the buffer and the chunks not yet taken. -/
def receiveOne (d : Decoder α) : Bytes → List Bytes → Except DecodeError (α × Bytes × List Bytes)
  | _, [] => .error .endOfInput
  | buffer, chunk :: chunks =>
    match d.run (buffer ++ chunk) with
    | .ok (a, rest) => .ok (a, rest, chunks)
    | .error .endOfInput => receiveOne d (buffer ++ chunk) chunks
    | .error e => .error e

/-- Chunks are taken until the message is complete, and no further. -/
theorem receiveOne_from {d : Decoder α} {enc more : Bytes} {a : α} (h : Parses d enc a)
    (chunks : List Bytes) (buffer : Bytes) (heq : buffer ++ chunks.flatten = enc ++ more)
    (hwait : buffer.length < enc.length) :
    ∃ rest later, receiveOne d buffer chunks = .ok (a, rest, later) ∧
      rest ++ later.flatten = more := by
  induction chunks generalizing buffer with
  | nil =>
    have hlen := congrArg List.length heq
    simp only [List.flatten_nil, List.append_nil, List.length_append] at hlen
    omega
  | cons chunk chunks ih =>
    rw [List.flatten_cons, ← List.append_assoc] at heq
    rcases append_eq_encoding heq with ⟨q, hq, henc, -⟩ | ⟨rest, hbuf, hmore⟩
    · have hshort : (buffer ++ chunk).length < enc.length := by
        have hpos := List.length_pos_of_ne_nil hq
        have hlen := congrArg List.length henc
        rw [List.length_append] at hlen
        omega
      obtain ⟨rest, later, hrun, hrest⟩ := ih (buffer ++ chunk) heq hshort
      refine ⟨rest, later, ?_, hrest⟩
      rw [henc] at h
      rw [receiveOne, h.prefix_run hq]
      exact hrun
    · refine ⟨rest, chunks, ?_, hmore.symm⟩
      rw [receiveOne, hbuf, h rest]

end Decoder

end Hermod.Decoding
