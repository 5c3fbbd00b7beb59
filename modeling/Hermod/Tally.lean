import Hermod.Decoding
import Mathlib.Algebra.Ring.Nat

/-!
Decoders that count the elements they decode, up to an error where they fail. An element
counts where its bytes are not all taken up by elements within it. The count is then at most
what the decoder has consumed, so that no length that is declared in the input can drive it.
-/
namespace Hermod.Decoding

open Decoder

variable {α β : Type}

/-- What is left of the input. After an error that is nothing. -/
def left : Except DecodeError (α × Bytes) → ℕ
  | .ok (_, rest) => rest.length
  | .error _ => 0

def onSuccess (count : α → Bytes → ℕ) : Except DecodeError (α × Bytes) → ℕ
  | .ok (a, rest) => count a rest
  | .error _ => 0

structure Tally (α : Type) where
  decoder : Decoder α
  count : Bytes → ℕ
  bound : ∀ bs, count bs + left (decoder.run bs) ≤ bs.length

theorem left_le (d : Decoder α) (bs : Bytes) : left (d.run bs) ≤ bs.length := by
  cases h : d.run bs with
  | error e => exact Nat.zero_le _
  | ok p => exact (d.suffix h).length_le

namespace Decoder

theorem Consuming.bind {x : Decoder α} (hx : Consuming x) (f : α → Decoder β) :
    Consuming (x >>= f) := by
  intro bs b rest h
  obtain ⟨a, mid, ha, hb⟩ := bind_ok_iff.mp h
  have hmid := hx ha
  have hrest := ((f a).suffix hb).length_le
  omega

theorem Consuming.map {x : Decoder α} (hx : Consuming x) (g : α → β) : Consuming (g <$> x) := by
  rw [map_eq_pure_bind]
  exact hx.bind _

theorem byte_consuming : Consuming byte := by
  intro bs b rest h
  cases bs with
  | nil => cases h
  | cons c bs =>
    cases h
    exact Nat.lt_succ_self _

end Decoder

namespace Tally

protected def pure (a : α) : Tally α where
  decoder := pure a
  count _ := 0
  bound bs := by rw [pure_run, left, Nat.zero_add]

protected def bind (x : Tally α) (f : α → Tally β) : Tally β where
  decoder := x.decoder >>= fun a => (f a).decoder
  count bs := x.count bs + onSuccess (fun a => (f a).count) (x.decoder.run bs)
  bound bs := by
    have hx := x.bound bs
    rw [bind_run]
    cases hrun : x.decoder.run bs with
    | error e =>
      rw [hrun] at hx
      exact hx
    | ok p =>
      have hf := (f p.1).bound p.2
      rw [hrun, left] at hx
      rw [onSuccess]
      simp only
      omega

instance : Monad Tally where
  pure := Tally.pure
  bind := Tally.bind

def fail (e : DecodeError) : Tally α where
  decoder := Decoder.fail e
  count _ := 0
  bound bs := by rw [fail_run, left, Nat.zero_add]; exact Nat.zero_le _

def plain (d : Decoder α) : Tally α where
  decoder := d
  count _ := 0
  bound bs := by
    rw [Nat.zero_add]
    exact left_le d bs

/-- Every success leaves a byte for the element itself. -/
def Spares (x : Tally α) : Prop :=
  ∀ bs a rest, x.decoder.run bs = .ok (a, rest) → x.count bs + rest.length < bs.length

def element (x : Tally α) (h : x.Spares) : Tally α where
  decoder := x.decoder
  count bs := x.count bs + onSuccess (fun _ _ => 1) (x.decoder.run bs)
  bound bs := by
    have hx := x.bound bs
    cases hrun : x.decoder.run bs with
    | error e =>
      rw [hrun] at hx
      exact hx
    | ok p =>
      have hspares := h bs p.1 p.2 hrun
      rw [left, onSuccess]
      omega

def times (x : Tally α) : ℕ → Tally (List α)
  | 0 => pure []
  | n + 1 => do
    let a ← x
    let as ← times x n
    pure (a :: as)

def untilByteFuel (stop : UInt8) (x : Tally α) : ℕ → Tally (List α)
  | 0 => fail .endOfInput
  | fuel + 1 => do
    let b ← plain peek
    if b = stop then
      let _ ← plain byte
      pure []
    else
      let a ← x
      let as ← untilByteFuel stop x fuel
      pure (a :: as)

section Decoders

@[simp] theorem decoder_pure (a : α) : (pure a : Tally α).decoder = pure a := rfl

@[simp] theorem decoder_fail (e : DecodeError) : (fail e : Tally α).decoder = Decoder.fail e := rfl

@[simp] theorem decoder_bind (x : Tally α) (f : α → Tally β) :
    (x >>= f).decoder = x.decoder >>= fun a => (f a).decoder := rfl

@[simp] theorem decoder_plain (d : Decoder α) : (plain d).decoder = d := rfl

@[simp] theorem decoder_element (x : Tally α) (h : x.Spares) : (element x h).decoder = x.decoder :=
  rfl

theorem decoder_ite {p : Prop} [Decidable p] (x y : Tally α) :
    (if p then x else y).decoder = if p then x.decoder else y.decoder := apply_ite decoder p x y

@[simp] theorem decoder_times (x : Tally α) (n : ℕ) :
    (x.times n).decoder = Decoder.times x.decoder n := by
  induction n with
  | zero => rfl
  | succ n ih => simp only [times, Decoder.times, decoder_bind, ih, decoder_pure]

theorem decoder_untilByteFuel (stop : UInt8) (x : Tally α) (n : ℕ) :
    (untilByteFuel stop x n).decoder = Decoder.untilByteFuel stop x.decoder n := by
  induction n with
  | zero => rfl
  | succ n ih =>
    simp only [untilByteFuel, Decoder.untilByteFuel, decoder_bind, decoder_plain, decoder_ite, ih,
      decoder_pure]

end Decoders

def untilByte (stop : UInt8) (x : Tally α) : Tally (List α) where
  decoder := Decoder.untilByte stop x.decoder
  count bs := (untilByteFuel stop x bs.length).count bs
  bound bs := by
    have hfuel := (untilByteFuel stop x bs.length).bound bs
    rwa [decoder_untilByteFuel] at hfuel

@[simp] theorem decoder_untilByte (stop : UInt8) (x : Tally α) :
    (untilByte stop x).decoder = Decoder.untilByte stop x.decoder := rfl

section Counts

variable {x : Tally α}

theorem count_bind (x : Tally α) (f : α → Tally β) (bs : Bytes) :
    (x >>= f).count bs =
      x.count bs + onSuccess (fun a => (f a).count) (x.decoder.run bs) := rfl

theorem Spares.consuming (h : x.Spares) : Consuming x.decoder := by
  intro bs a rest hrun
  have hspares := h bs a rest hrun
  omega

theorem spares_plain {d : Decoder α} (h : Consuming d) : (plain d).Spares := by
  intro bs a rest hrun
  have hconsumed := h hrun
  simp only [plain, Nat.zero_add]
  exact hconsumed

theorem Spares.bind (h : x.Spares) (f : α → Tally β) : (x >>= f).Spares := by
  intro bs b rest hrun
  obtain ⟨a, mid, ha, hb⟩ := bind_ok_iff.mp hrun
  have hspares := h bs a mid ha
  have hbound := (f a).bound mid
  rw [hb, left] at hbound
  rw [count_bind, ha, onSuccess]
  omega

/-- What only puts a result together counts nothing. -/
theorem count_bind_pure (x : Tally α) (g : α → β) (bs : Bytes) :
    (x >>= fun a => pure (g a)).count bs = x.count bs := by
  rw [count_bind]
  cases x.decoder.run bs with
  | error e => rfl
  | ok p => rfl

theorem count_untilByteFuel_cons (stop : UInt8) (x : Tally α) (n : ℕ) (b : UInt8) (bs : Bytes) :
    (untilByteFuel stop x (n + 1)).count (b :: bs) =
      if b = stop then 0
      else x.count (b :: bs) +
        onSuccess (fun _ => (untilByteFuel stop x n).count) (x.decoder.run (b :: bs)) := by
  have hpeek : (plain peek).count (b :: bs) = 0 := rfl
  rw [untilByteFuel, count_bind, hpeek, decoder_plain, peek_run_cons, Nat.zero_add, onSuccess]
  by_cases hb : b = stop
  · rw [if_pos hb, if_pos hb]
    exact count_bind_pure (plain byte) _ _
  · rw [if_neg hb, if_neg hb, count_bind]
    cases x.decoder.run (b :: bs) with
    | error e => rfl
    | ok p => exact congrArg (x.count (b :: bs) + ·) (count_bind_pure _ _ _)

theorem count_untilByteFuel_saturated (stop : UInt8) (hx : Consuming x.decoder) {n : ℕ}
    {bs : Bytes} (h : bs.length ≤ n) :
    (untilByteFuel stop x (n + 1)).count bs = (untilByteFuel stop x n).count bs := by
  induction n generalizing bs with
  | zero =>
    have hbs : bs = [] := List.length_eq_zero_iff.mp (by omega)
    subst hbs
    rfl
  | succ n ih =>
    cases bs with
    | nil => rfl
    | cons b bs =>
      rw [count_untilByteFuel_cons, count_untilByteFuel_cons]
      split
      · rfl
      · cases hrun : x.decoder.run (b :: bs) with
        | error e => rfl
        | ok p =>
          have hlt := hx hrun
          simp only [List.length_cons] at h hlt
          exact congrArg (x.count (b :: bs) + ·) (@ih p.2 (by omega))

/-- With elements that consume, the fuel never stops the counting. -/
theorem count_untilByteFuel_eq (stop : UInt8) (hx : Consuming x.decoder) {n : ℕ} {bs : Bytes}
    (h : bs.length ≤ n) : (untilByteFuel stop x n).count bs = (untilByte stop x).count bs := by
  obtain ⟨k, rfl⟩ := Nat.exists_eq_add_of_le h
  clear h
  induction k with
  | zero => rfl
  | succ k ih =>
    rw [← ih]
    exact count_untilByteFuel_saturated stop hx (Nat.le_add_right _ _)

/-- The counting loop without a bound on the rounds. -/
theorem count_untilByte_cons (stop : UInt8) (hx : Consuming x.decoder) (b : UInt8) (bs : Bytes) :
    (untilByte stop x).count (b :: bs) =
      if b = stop then 0
      else x.count (b :: bs) +
        onSuccess (fun _ => (untilByte stop x).count) (x.decoder.run (b :: bs)) := by
  rw [← count_untilByteFuel_eq stop hx (Nat.le_succ (b :: bs).length), count_untilByteFuel_cons]
  split
  · rfl
  · cases hrun : x.decoder.run (b :: bs) with
    | error e => rfl
    | ok p =>
      have hlt := hx hrun
      have hloop := @count_untilByteFuel_eq _ _ stop hx (b :: bs).length p.2 (by omega)
      exact congrArg (x.count (b :: bs) + ·) hloop

end Counts

/-! What was counted, where the decoder succeeds. -/

section Success

variable {x : Tally α} {S T : α → ℕ → Prop}

def Counts (x : Tally α) (S : α → ℕ → Prop) : Prop :=
  ∀ bs a rest, x.decoder.run bs = .ok (a, rest) → S a (x.count bs)

theorem counts_pure {a : α} (h : S a 0) : Counts (pure a) S := by
  intro bs b rest hrun
  cases hrun
  exact h

theorem counts_fail {e : DecodeError} : Counts (fail e) S := by
  intro bs a rest hrun
  cases hrun

theorem counts_plain {d : Decoder α} (h : ∀ a, S a 0) : Counts (plain d) S :=
  fun _ a _ _ => h a

theorem Counts.bind {f : α → Tally β} {T : β → ℕ → Prop} (hx : Counts x S)
    (hf : ∀ a n, S a n → Counts (f a) fun b m => T b (n + m)) : Counts (x >>= f) T := by
  intro bs b rest hrun
  obtain ⟨a, mid, ha, hb⟩ := bind_ok_iff.mp hrun
  rw [count_bind, ha]
  exact hf a _ (hx bs a mid ha) mid b rest hb

theorem Counts.plain_bind {d : Decoder α} {f : α → Tally β} {T : β → ℕ → Prop}
    (hf : ∀ a, Counts (f a) T) : Counts (plain d >>= f) T := by
  have hplain : Counts (plain d) fun _ n => n = 0 := counts_plain fun _ => rfl
  refine hplain.bind ?_
  intro a n hn
  subst hn
  simpa only [Nat.zero_add] using hf a

theorem Counts.element (hx : Counts x S) (h : x.Spares) (hT : ∀ a n, S a n → T a (n + 1)) :
    Counts (element x h) T := by
  intro bs a rest hrun
  have hcount : (Tally.element x h).count bs = x.count bs + 1 := by
    rw [decoder_element] at hrun
    simp only [Tally.element, hrun, onSuccess]
  rw [hcount]
  exact hT a _ (hx bs a rest hrun)

/-- A fixed number of items counts the sum over them. -/
theorem counts_times {size : α → ℕ} (hx : Counts x fun a n => n = size a) (n : ℕ) :
    Counts (x.times n) fun as m => m = (as.map size).sum := by
  induction n with
  | zero => exact counts_pure rfl
  | succ n ih =>
    refine hx.bind ?_
    intro a k hk
    refine ih.bind ?_
    intro as m hm
    apply counts_pure
    rw [hk, hm, List.map_cons, List.sum_cons, Nat.add_zero]

/-- A loop counts the sum over its items. -/
theorem counts_untilByteFuel {size : α → ℕ} (hx : Counts x fun a n => n = size a) (stop : UInt8)
    (n : ℕ) : Counts (untilByteFuel stop x n) fun as m => m = (as.map size).sum := by
  induction n with
  | zero => exact counts_fail
  | succ n ih =>
    rw [untilByteFuel]
    refine Counts.plain_bind ?_
    intro b
    split
    · exact Counts.plain_bind fun _ => counts_pure rfl
    · refine hx.bind ?_
      intro a k hk
      refine ih.bind ?_
      intro as m hm
      apply counts_pure
      rw [hk, hm, List.map_cons, List.sum_cons, Nat.add_zero]

theorem counts_untilByte {size : α → ℕ} (hx : Counts x fun a n => n = size a) (stop : UInt8) :
    Counts (untilByte stop x) fun as m => m = (as.map size).sum := by
  intro bs as rest hrun
  apply counts_untilByteFuel hx stop bs.length bs as rest
  rw [decoder_untilByteFuel]
  exact hrun

end Success

end Tally

end Hermod.Decoding
