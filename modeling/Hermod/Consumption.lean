import Hermod.Streaming
import Mathlib.Algebra.Group.Nat.Defs

/-!
What a successful decoder has consumed. `Reads d P` says that every success of `d`
splits the input into the bytes used and the bytes left, with `P` relating the result
to the bytes used. The rules follow the way decoders are assembled. A decoder that
never looks past the bytes it uses is `Local`: the used bytes alone determine it. `Yields d S`
says what `d` can return at all.
-/
namespace Hermod.Decoding

namespace Decoder

variable {α β : Type}

def Reads (d : Decoder α) (P : α → Bytes → Prop) : Prop :=
  ∀ bs a rest, d.run bs = .ok (a, rest) → ∃ used, bs = used ++ rest ∧ P a used

theorem Reads.mono {d : Decoder α} {P Q : α → Bytes → Prop} (h : Reads d P)
    (hPQ : ∀ a used, P a used → Q a used) : Reads d Q := by
  intro bs a rest hrun
  obtain ⟨used, hbs, hP⟩ := h bs a rest hrun
  exact ⟨used, hbs, hPQ a used hP⟩

theorem reads_pure {a : α} {P : α → Bytes → Prop} (h : P a []) : Reads (pure a) P := by
  intro bs b rest hrun
  cases hrun
  exact ⟨[], rfl, h⟩

theorem reads_fail {e : DecodeError} {P : α → Bytes → Prop} : Reads (fail e) P := by
  intro bs a rest hrun
  cases hrun

/-- What two decoders read, one after the other. -/
theorem Reads.bind {x : Decoder α} {f : α → Decoder β} {P : α → Bytes → Prop}
    {Q : β → Bytes → Prop} (hx : Reads x P)
    (hf : ∀ a used, P a used → Reads (f a) fun b more => Q b (used ++ more)) :
    Reads (x >>= f) Q := by
  intro bs b rest hrun
  obtain ⟨a, mid, ha, hb⟩ := bind_ok_iff.mp hrun
  obtain ⟨used, rfl, hP⟩ := hx bs a mid ha
  obtain ⟨more, rfl, hQ⟩ := hf a used hP _ _ _ hb
  exact ⟨used ++ more, (List.append_assoc ..).symm, hQ⟩

theorem Reads.map {x : Decoder α} {g : α → β} {P : α → Bytes → Prop} {Q : β → Bytes → Prop}
    (hx : Reads x P) (hPQ : ∀ a used, P a used → Q (g a) used) : Reads (g <$> x) Q := by
  rw [← bind_pure_comp]
  exact hx.bind fun a used hP => reads_pure (by simpa only [List.append_nil] using hPQ a used hP)

theorem reads_ite {p : Prop} [Decidable p] {x y : Decoder α} {P : α → Bytes → Prop}
    (hx : p → Reads x P) (hy : ¬ p → Reads y P) : Reads (if p then x else y) P := by
  by_cases hp : p
  · rw [if_pos hp]
    exact hx hp
  · rw [if_neg hp]
    exact hy hp

theorem byte_reads : Reads byte fun b used => used = [b] := by
  intro bs b rest hrun
  cases bs with
  | nil => cases hrun
  | cons c cs =>
    cases hrun
    exact ⟨[b], rfl, rfl⟩

/-- Looking ahead consumes nothing but fixes the first byte that is consumed next. -/
theorem peek_bind_reads {f : UInt8 → Decoder β} {Q : β → Bytes → Prop}
    (hf : ∀ b bs c rest, (f b).run (b :: bs) = .ok (c, rest) →
      ∃ used, b :: bs = used ++ rest ∧ Q c used) : Reads (peek >>= f) Q := by
  intro bs c rest hrun
  cases bs with
  | nil => cases hrun
  | cons b bs => exact hf b bs c rest hrun

theorem take_reads (n : ℕ) : Reads (take n) fun a used => used = a ∧ a.length = n := by
  intro bs a rest hrun
  rw [take_run] at hrun
  split at hrun
  · rename_i hn
    cases hrun
    exact ⟨bs.take n, (List.take_append_drop n bs).symm, rfl, List.length_take_of_le hn⟩
  · cases hrun

/-- A fixed number of items uses as many parts. -/
theorem Reads.times {item : Decoder α} {P : α → Bytes → Prop} (h : Reads item P) (n : ℕ) :
    Reads (times item n) fun as used =>
      as.length = n ∧ ∃ parts : List Bytes, used = parts.flatten ∧ List.Forall₂ P as parts := by
  induction n with
  | zero => exact reads_pure ⟨rfl, [], rfl, List.Forall₂.nil⟩
  | succ n ih =>
    apply h.bind
    intro a used hP
    apply ih.bind
    intro as more hused
    obtain ⟨hlen, parts, rfl, hparts⟩ := hused
    apply reads_pure
    refine ⟨by simp only [List.length_cons, hlen], used :: parts, ?_, List.Forall₂.cons hP hparts⟩
    simp only [List.append_nil, List.flatten_cons]

/-- The parts of the items end with the stop byte. -/
theorem Reads.untilByteFuel {item : Decoder α} {P : α → Bytes → Prop} (h : Reads item P)
    (stop : UInt8) (n : ℕ) :
    Reads (untilByteFuel stop item n) fun as used =>
      ∃ parts : List Bytes, used = parts.flatten ++ [stop] ∧ List.Forall₂ P as parts := by
  induction n with
  | zero => exact reads_fail
  | succ n ih =>
    intro bs as rest hrun
    cases bs with
    | nil => cases hrun
    | cons b bs =>
      rw [untilByteFuel_succ_cons] at hrun
      split at hrun
      · rename_i hb
        cases hrun
        exact ⟨[stop], by rw [hb]; rfl, [], rfl, List.Forall₂.nil⟩
      · have hround : Reads
            ((List.cons <$> item) >>= fun f => f <$> Decoder.untilByteFuel stop item n)
            fun as used => ∃ parts : List Bytes, used = parts.flatten ++ [stop] ∧
              List.Forall₂ P as parts := by
          rw [map_eq_pure_bind, bind_assoc]
          apply h.bind
          intro a used hP
          rw [pure_bind]
          apply ih.map
          intro as more hused
          obtain ⟨parts, rfl, hparts⟩ := hused
          exact ⟨used :: parts, by simp only [List.flatten_cons, List.append_assoc],
            List.Forall₂.cons hP hparts⟩
        exact hround (b :: bs) as rest hrun

theorem Reads.untilByte {item : Decoder α} {P : α → Bytes → Prop} (h : Reads item P)
    (stop : UInt8) :
    Reads (untilByte stop item) fun as used =>
      ∃ parts : List Bytes, used = parts.flatten ++ [stop] ∧ List.Forall₂ P as parts := by
  intro bs as rest hrun
  obtain ⟨n, hn⟩ := byLength_ok hrun
  exact h.untilByteFuel stop n bs as rest hn

/-- What holds of every part of a list that was read piece by piece. -/
theorem forall_parts {P : α → Bytes → Prop} {Q : Bytes → Prop} {as : List α} {parts : List Bytes}
    (h : List.Forall₂ P as parts) (hPQ : ∀ a used, P a used → Q used) : ∀ p ∈ parts, Q p := by
  induction h with
  | nil => exact fun p hp => absurd hp List.not_mem_nil
  | cons hp _ ih =>
    intro q hq
    rcases List.mem_cons.mp hq with rfl | hq
    · exact hPQ _ _ hp
    · exact ih q hq

/-- The bytes used determine the result, whatever follows them. -/
def Local (d : Decoder α) : Prop := Reads d fun a used => Parses d used a

theorem local_pure (a : α) : Local (pure a : Decoder α) := reads_pure (parses_pure a)

theorem local_fail (e : DecodeError) : Local (fail e : Decoder α) := reads_fail

theorem byte_local : Local byte := byte_reads.mono fun b used h => by
  subst h
  exact fun rest => rfl

theorem take_local (n : ℕ) : Local (take n) := (take_reads n).mono fun a used h => by
  obtain ⟨rfl, hlen⟩ := h
  exact fun rest => take_run_append used rest hlen

theorem Local.bind {x : Decoder α} {f : α → Decoder β} (hx : Local x) (hf : ∀ a, Local (f a)) :
    Local (x >>= f) :=
  Reads.bind hx fun a _ ha => (hf a).mono fun _ _ hb => ha.bind hb

theorem Local.map {x : Decoder α} (hx : Local x) (g : α → β) : Local (g <$> x) :=
  Reads.map hx fun _ _ ha => ha.map g

/-- A decoder that uses no byte without need: `y` answers wherever `x` does. -/
theorem Parses.below {x y : Decoder α} {e : Bytes} {a : α} (hxy : Below x y) (h : Parses x e a) :
    Parses y e a := fun rest => hxy.of_ok (h rest)

/-! What a decoder can return. -/

/-- From a buffer that a process can hold, the decoder takes values with `S` only. -/
def Yields (d : Decoder α) (S : α → Prop) : Prop :=
  ∀ bs a rest, d.run bs = .ok (a, rest) → bs.length < 2 ^ 64 → S a

variable {d : Decoder α} {f : α → Decoder β} {S : α → Prop} {T : β → Prop}

theorem yields_any (d : Decoder α) : Yields d fun _ => True :=
  fun _ _ _ _ _ => trivial

theorem Yields.imp {S' : α → Prop} (h : Yields d S) (himp : ∀ a, S a → S' a) : Yields d S' :=
  fun bs a rest hrun hlen => himp a (h bs a rest hrun hlen)

theorem yields_pure {a : α} (h : S a) : Yields (pure a) S := by
  intro bs b rest hrun _
  cases hrun
  exact h

theorem yields_fail {e : DecodeError} : Yields (fail e) S := by
  intro bs a rest hrun _
  cases hrun

theorem yields_ite {p : Prop} [Decidable p] {x y : Decoder α} (hx : p → Yields x S)
    (hy : ¬ p → Yields y S) : Yields (if p then x else y) S := by
  by_cases hp : p
  · rw [if_pos hp]
    exact hx hp
  · rw [if_neg hp]
    exact hy hp

theorem Yields.bind (hd : Yields d S) (hf : ∀ a, S a → Yields (f a) T) :
    Yields (d >>= f) T := by
  intro bs b rest hrun hlen
  obtain ⟨a, mid, ha, hb⟩ := bind_ok_iff.mp hrun
  have hmid := (d.suffix ha).length_le
  exact hf a (hd bs a mid ha hlen) mid b rest hb (by omega)

theorem Yields.map {g : α → β} (hd : Yields d S) (hg : ∀ a, S a → T (g a)) :
    Yields (g <$> d) T := by
  rw [← bind_pure_comp]
  exact hd.bind fun a ha => yields_pure (hg a ha)

/-- What the used bytes imply of a value they imply of it where there are not too many. -/
theorem yields_of_reads {P : α → Bytes → Prop} (h : Reads d P)
    (hP : ∀ a used, P a used → used.length < 2 ^ 64 → S a) : Yields d S := by
  intro bs a rest hrun hlen
  obtain ⟨used, rfl, hused⟩ := h bs a rest hrun
  rw [List.length_append] at hlen
  exact hP a used hused (by omega)

theorem Yields.times (h : Yields d S) (n : ℕ) :
    Yields (times d n) fun as => as.length = n ∧ ∀ a ∈ as, S a := by
  induction n with
  | zero => exact yields_pure ⟨rfl, fun _ ha => absurd ha List.not_mem_nil⟩
  | succ n ih =>
    refine h.bind fun a ha => ih.bind fun as has => yields_pure ⟨?_, ?_⟩
    · rw [List.length_cons, has.1]
    · exact List.forall_mem_cons.mpr ⟨ha, has.2⟩

/-- Each element of the loop takes at least a byte, and so does its end. -/
theorem Yields.untilByteFuel (h : Yields d S) (hd : Consuming d) (stop : UInt8) (n : ℕ)
    {bs : Bytes} {as : List α} {rest : Bytes}
    (hrun : (untilByteFuel stop d n).run bs = .ok (as, rest)) (hlen : bs.length < 2 ^ 64) :
    as.length < bs.length ∧ ∀ a ∈ as, S a := by
  induction n generalizing bs as with
  | zero => cases hrun
  | succ n ih =>
    cases bs with
    | nil => cases hrun
    | cons b bs =>
      rw [untilByteFuel_succ_cons] at hrun
      split at hrun
      · cases hrun
        exact ⟨Nat.succ_pos _, fun _ ha => absurd ha List.not_mem_nil⟩
      · rw [map_eq_pure_bind, bind_assoc] at hrun
        obtain ⟨a, mid, ha, hrun⟩ := bind_ok_iff.mp hrun
        rw [pure_bind, map_eq_pure_bind] at hrun
        obtain ⟨more, left, hmore, hrun⟩ := bind_ok_iff.mp hrun
        cases hrun
        have hmid := hd ha
        obtain ⟨hcount, hall⟩ := ih hmore (by omega)
        refine ⟨?_, List.forall_mem_cons.mpr ⟨h _ _ _ ha hlen, hall⟩⟩
        rw [List.length_cons]
        omega

end Decoder

end Hermod.Decoding
