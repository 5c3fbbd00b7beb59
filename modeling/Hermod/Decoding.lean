import Mathlib.Data.List.Basic
import Mathlib.Data.List.Infix
import Mathlib.Tactic.Common

/-!
Decoders that run over a growing receive buffer. A decoder consumes a prefix of
the buffer, reports that the input ended too early, or rejects it for good. The
three laws carried by the structure say what more input can change: an accepted
prefix stays accepted, a rejection stays a rejection, and only an early end of
input is revised. Everything assembled from decoders by bind satisfies the laws
by construction, so prefix-freeness and streaming need no proof per format.
-/
namespace Hermod.Decoding

abbrev Bytes := List UInt8

inductive DecodeError
  | endOfInput
  | typeMismatch
  | overflow
  | utf8
  | message (text : String)
  deriving DecidableEq, Repr

structure Decoder (α : Type) where
  run : Bytes → Except DecodeError (α × Bytes)
  suffix : ∀ {bs a rest}, run bs = .ok (a, rest) → rest <:+ bs
  extend : ∀ {bs a rest}, run bs = .ok (a, rest) →
    ∀ ext, run (bs ++ ext) = .ok (a, rest ++ ext)
  stable : ∀ {bs e}, run bs = .error e → e ≠ .endOfInput →
    ∀ ext, run (bs ++ ext) = .error e

namespace Decoder

variable {α β γ : Type}

theorem ext_run {x y : Decoder α} (h : ∀ bs, x.run bs = y.run bs) : x = y := by
  cases x
  cases y
  have hrun := funext h
  dsimp only at hrun
  subst hrun
  rfl

protected def pure (a : α) : Decoder α where
  run bs := .ok (a, bs)
  suffix h := by cases h; exact List.suffix_refl _
  extend h ext := by cases h; rfl
  stable h := by cases h

protected def bind (x : Decoder α) (f : α → Decoder β) : Decoder β where
  run bs :=
    match x.run bs with
    | .ok (a, mid) => (f a).run mid
    | .error e => .error e
  suffix {bs b rest} h := by
    cases hx : x.run bs with
    | error e => simp [hx] at h
    | ok p =>
      obtain ⟨a, mid⟩ := p
      simp only [hx] at h
      exact ((f a).suffix h).trans (x.suffix hx)
  extend {bs b rest} h ext := by
    cases hx : x.run bs with
    | error e => simp [hx] at h
    | ok p =>
      obtain ⟨a, mid⟩ := p
      simp only [hx] at h
      simp only [x.extend hx ext]
      exact (f a).extend h ext
  stable {bs e} h he ext := by
    cases hx : x.run bs with
    | error e' =>
      simp only [hx, Except.error.injEq] at h
      subst h
      simp only [x.stable hx he ext]
    | ok p =>
      obtain ⟨a, mid⟩ := p
      simp only [hx] at h
      simp only [x.extend hx ext]
      exact (f a).stable h he ext

instance : Monad Decoder where
  pure := Decoder.pure
  bind := Decoder.bind

def fail (e : DecodeError) : Decoder α where
  run _ := .error e
  suffix h := by cases h
  extend h := by cases h
  stable h _ _ := h

@[simp] theorem pure_run (a : α) (bs : Bytes) :
    (pure a : Decoder α).run bs = .ok (a, bs) := rfl

@[simp] theorem fail_run (e : DecodeError) (bs : Bytes) :
    (fail e : Decoder α).run bs = .error e := rfl

@[simp] theorem bind_run (x : Decoder α) (f : α → Decoder β) (bs : Bytes) :
    (x >>= f).run bs =
      match x.run bs with
      | .ok (a, mid) => (f a).run mid
      | .error e => .error e := rfl

/-- Success of a sequence is success of both parts. -/
theorem bind_ok_iff {x : Decoder α} {f : α → Decoder β} {bs rest : Bytes} {b : β} :
    (x >>= f).run bs = .ok (b, rest) ↔
      ∃ a mid, x.run bs = .ok (a, mid) ∧ (f a).run mid = .ok (b, rest) := by
  rw [bind_run]
  constructor
  · intro h
    cases hx : x.run bs with
    | error e => simp [hx] at h
    | ok p => exact ⟨p.1, p.2, rfl, by simpa only [hx] using h⟩
  · intro h'
    obtain ⟨a, mid, hx, hf⟩ := h'
    simpa only [hx] using hf

theorem id_map_run (x : Decoder α) : id <$> x = x := by
  apply ext_run
  intro bs
  show (match x.run bs with
    | .ok (a, mid) => .ok (a, mid)
    | .error e => .error e) = x.run bs
  rcases x.run bs with e | ⟨a, rest⟩
  · rfl
  · rfl

theorem bind_assoc_run (x : Decoder α) (f : α → Decoder β) (g : β → Decoder γ) :
    x >>= f >>= g = x >>= fun a => f a >>= g := by
  apply ext_run
  intro bs
  simp only [bind_run]
  rcases x.run bs with e | ⟨a, rest⟩
  · rfl
  · rfl

instance : LawfulMonad Decoder :=
  LawfulMonad.mk' Decoder (fun x => id_map_run x) (fun _ _ => rfl)
    (fun x f g => bind_assoc_run x f g)

@[simp] theorem map_run (g : α → β) (x : Decoder α) (bs : Bytes) :
    (g <$> x).run bs =
      match x.run bs with
      | .ok (a, rest) => .ok (g a, rest)
      | .error e => .error e := rfl

def byte : Decoder UInt8 where
  run
    | [] => .error .endOfInput
    | b :: bs => .ok (b, bs)
  suffix {bs a rest} h := by
    cases bs with
    | nil => cases h
    | cons b bs => cases h; exact List.suffix_cons _ _
  extend {bs a rest} h ext := by
    cases bs with
    | nil => cases h
    | cons b bs => cases h; rfl
  stable {bs e} h he := by
    cases bs with
    | nil => cases h; exact absurd rfl he
    | cons b bs => cases h

def peek : Decoder UInt8 where
  run
    | [] => .error .endOfInput
    | b :: bs => .ok (b, b :: bs)
  suffix {bs a rest} h := by
    cases bs with
    | nil => cases h
    | cons b bs => cases h; exact List.suffix_refl _
  extend {bs a rest} h ext := by
    cases bs with
    | nil => cases h
    | cons b bs => cases h; rfl
  stable {bs e} h he := by
    cases bs with
    | nil => cases h; exact absurd rfl he
    | cons b bs => cases h

def take (n : ℕ) : Decoder Bytes where
  run bs := if n ≤ bs.length then .ok (bs.take n, bs.drop n) else .error .endOfInput
  suffix {bs a rest} h := by
    split at h
    · cases h; exact List.drop_suffix n bs
    · cases h
  extend {bs a rest} h ext := by
    split at h
    · rename_i hn
      cases h
      have hn' : n ≤ (bs ++ ext).length := by rw [List.length_append]; omega
      rw [if_pos hn', List.take_append_of_le_length hn, List.drop_append_of_le_length hn]
    · cases h
  stable {bs e} h he := by
    split at h
    · cases h
    · cases h; exact absurd rfl he

@[simp] theorem byte_run_nil : byte.run [] = .error .endOfInput := rfl

@[simp] theorem byte_run_cons (b : UInt8) (bs : Bytes) : byte.run (b :: bs) = .ok (b, bs) := rfl

@[simp] theorem peek_run_nil : peek.run [] = .error .endOfInput := rfl

@[simp] theorem peek_run_cons (b : UInt8) (bs : Bytes) :
    peek.run (b :: bs) = .ok (b, b :: bs) := rfl

theorem take_run (n : ℕ) (bs : Bytes) :
    (take n).run bs =
      if n ≤ bs.length then .ok (bs.take n, bs.drop n) else .error .endOfInput := rfl

theorem take_run_append (a bs : Bytes) {n : ℕ} (h : a.length = n) :
    (take n).run (a ++ bs) = .ok (a, bs) := by
  subst h
  rw [take_run, if_pos (by rw [List.length_append]; omega), List.take_left, List.drop_left]

/-! Fuelled definitions: an early end of input is the least outcome. -/

/-- `y` answers as `x` does wherever `x` does not ask for more input. -/
def Below (x y : Decoder α) : Prop :=
  ∀ bs, x.run bs = .error .endOfInput ∨ x.run bs = y.run bs

theorem Below.refl (x : Decoder α) : Below x x := fun _ => Or.inr rfl

theorem below_fail (y : Decoder α) : Below (fail .endOfInput) y := fun _ => Or.inl rfl

theorem Below.trans {x y z : Decoder α} (hxy : Below x y) (hyz : Below y z) : Below x z := by
  intro bs
  rcases hxy bs with h | h
  · exact Or.inl h
  · rw [h]
    exact hyz bs

/-- Where both parts answer alike, so does the sequence. -/
theorem Below.bind {x y : Decoder α} {f g : α → Decoder β} (hxy : Below x y)
    (hfg : ∀ a, Below (f a) (g a)) : Below (x >>= f) (y >>= g) := by
  intro bs
  simp only [bind_run]
  rcases hxy bs with h | h
  · rw [h]
    exact Or.inl rfl
  · rw [h]
    cases y.run bs with
    | error e => exact Or.inr rfl
    | ok p => exact hfg p.1 p.2

theorem Below.of_ok {x y : Decoder α} (h : Below x y) {bs rest : Bytes} {a : α}
    (hx : x.run bs = .ok (a, rest)) : y.run bs = .ok (a, rest) := by
  rcases h bs with h | h
  · rw [hx] at h
    cases h
  · rw [← h, hx]

theorem Below.of_error {x y : Decoder α} (h : Below x y) {bs : Bytes} {e : DecodeError}
    (hx : x.run bs = .error e) (he : e ≠ .endOfInput) : y.run bs = .error e := by
  rcases h bs with h | h
  · rw [hx] at h
    cases h
    exact absurd rfl he
  · rw [← h, hx]

theorem below_add {F : ℕ → Decoder α} (hF : ∀ n, Below (F n) (F (n + 1))) (n k : ℕ) :
    Below (F n) (F (n + k)) := by
  induction k with
  | zero => exact Below.refl _
  | succ k ih => exact ih.trans (hF (n + k))

theorem below_le {F : ℕ → Decoder α} (hF : ∀ n, Below (F n) (F (n + 1))) {m n : ℕ}
    (h : m ≤ n) : Below (F m) (F n) := by
  obtain ⟨k, rfl⟩ := Nat.exists_eq_add_of_le h
  exact below_add hF m k

/-- Run a fuelled decoder with the buffer's length as its fuel. -/
def byLength (F : ℕ → Decoder α) (hF : ∀ n, Below (F n) (F (n + 1))) : Decoder α where
  run bs := (F bs.length).run bs
  suffix {bs a rest} h := (F bs.length).suffix h
  extend {bs a rest} h ext := by
    rw [List.length_append]
    exact (below_add hF _ _).of_ok ((F bs.length).extend h ext)
  stable {bs e} h he ext := by
    rw [List.length_append]
    exact (below_add hF _ _).of_error ((F bs.length).stable h he ext) he

theorem byLength_of_ok {F : ℕ → Decoder α} {hF : ∀ n, Below (F n) (F (n + 1))} {n : ℕ}
    {bs rest : Bytes} {a : α} (hn : n ≤ bs.length) (h : (F n).run bs = .ok (a, rest)) :
    (byLength F hF).run bs = .ok (a, rest) :=
  (below_le hF hn).of_ok h

theorem byLength_ok {F : ℕ → Decoder α} {hF : ∀ n, Below (F n) (F (n + 1))}
    {bs rest : Bytes} {a : α} (h : (byLength F hF).run bs = .ok (a, rest)) :
    ∃ n, (F n).run bs = .ok (a, rest) := ⟨bs.length, h⟩

/-! Loops over the elements of a list. -/

def times (item : Decoder α) : ℕ → Decoder (List α)
  | 0 => pure []
  | n + 1 => do
    let a ← item
    let as ← times item n
    pure (a :: as)

def untilByteFuel (stop : UInt8) (item : Decoder α) : ℕ → Decoder (List α)
  | 0 => fail .endOfInput
  | fuel + 1 => do
    let b ← peek
    if b = stop then
      let _ ← byte
      pure []
    else
      let a ← item
      let as ← untilByteFuel stop item fuel
      pure (a :: as)

/-- More fuel changes an answer only where the loop asked for more input. -/
theorem untilByteFuel_below (stop : UInt8) (item : Decoder α) (n : ℕ) :
    Below (untilByteFuel stop item n) (untilByteFuel stop item (n + 1)) := by
  induction n with
  | zero => exact below_fail _
  | succ n ih =>
    unfold untilByteFuel
    apply (Below.refl peek).bind
    intro b
    split
    · exact Below.refl _
    · exact (Below.refl item).bind fun a => ih.bind fun as => Below.refl _

/-- Run `item` until the next byte is `stop`, which is consumed as well. The
buffer's length bounds the number of rounds: see `untilByte_unfold`. -/
def untilByte (stop : UInt8) (item : Decoder α) : Decoder (List α) :=
  byLength (untilByteFuel stop item) (untilByteFuel_below stop item)

def Consuming (x : Decoder α) : Prop :=
  ∀ {bs a rest}, x.run bs = .ok (a, rest) → rest.length < bs.length

theorem untilByteFuel_succ_cons (stop : UInt8) (item : Decoder α) (n : ℕ) (b : UInt8)
    (bs : Bytes) :
    (untilByteFuel stop item (n + 1)).run (b :: bs) =
      if b = stop then .ok ([], bs)
      else ((List.cons <$> item) >>= fun f => f <$> untilByteFuel stop item n).run (b :: bs) := by
  rw [untilByteFuel, bind_run, peek_run_cons]
  by_cases hb : b = stop
  · simp only [if_pos hb, bind_run, byte_run_cons, pure_run]
  · simp only [if_neg hb, bind_run, map_run]
    cases item.run (b :: bs) with
    | error e => rfl
    | ok p => rfl

/-- With a consuming item the fuel is never what stops the loop. -/
theorem untilByteFuel_saturated (stop : UInt8) {item : Decoder α} (hitem : Consuming item)
    {n : ℕ} {bs : Bytes} (h : bs.length ≤ n) :
    (untilByteFuel stop item (n + 1)).run bs = (untilByteFuel stop item n).run bs := by
  induction n generalizing bs with
  | zero =>
    have hbs : bs = [] := List.length_eq_zero_iff.mp (by omega)
    subst hbs
    rfl
  | succ n ih =>
    cases bs with
    | nil => rfl
    | cons b bs =>
      rw [untilByteFuel_succ_cons, untilByteFuel_succ_cons]
      split
      · rfl
      · simp only [bind_run, map_run]
        cases hi : item.run (b :: bs) with
        | error e => rfl
        | ok p =>
          have hlt := hitem hi
          simp only [List.length_cons] at h hlt
          have hloop := @ih p.2 (by omega)
          simp only [hloop]

/-- Fuel beyond the length of the input changes nothing. -/
theorem untilByteFuel_eq (stop : UInt8) {item : Decoder α} (hitem : Consuming item)
    {n : ℕ} {bs : Bytes} (h : bs.length ≤ n) :
    (untilByteFuel stop item n).run bs = (untilByte stop item).run bs := by
  obtain ⟨k, rfl⟩ := Nat.exists_eq_add_of_le h
  clear h
  induction k with
  | zero => rfl
  | succ k ih =>
    rw [← ih]
    exact untilByteFuel_saturated stop hitem (Nat.le_add_right _ _)

/-- The loop as the source writes it, without a bound on the rounds. -/
theorem untilByte_unfold (stop : UInt8) {item : Decoder α} (hitem : Consuming item) (b : UInt8)
    (bs : Bytes) :
    (untilByte stop item).run (b :: bs) =
      if b = stop then .ok ([], bs)
      else ((List.cons <$> item) >>= fun f => f <$> untilByte stop item).run (b :: bs) := by
  rw [← untilByteFuel_eq stop hitem (Nat.le_succ (b :: bs).length), untilByteFuel_succ_cons]
  split
  · rfl
  · simp only [bind_run, map_run]
    cases hi : item.run (b :: bs) with
    | error e => rfl
    | ok p =>
      have hlt := hitem hi
      have hloop := @untilByteFuel_eq _ stop _ hitem (b :: bs).length p.2 (by omega)
      simp only [hloop]

end Decoder

end Hermod.Decoding
