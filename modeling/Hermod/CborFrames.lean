import Hermod.CborReaders

/-!
Declared array lengths counted off against the items that follow them. A decoder
that reads an array head apart from the elements may stop before the array is full,
or go on after it is. What it meets is recorded as events; counting the declared
lengths down along the events decides whether the bytes used are one complete item.
-/
namespace Hermod.Cbor

open Decoding Decoder

/-- What a decoder meets: an array head with the declared length, an item read as a
whole, or the break that ends an indefinite array. -/
inductive Event
  | header (len : Option ℕ)
  | item
  | stop
  deriving DecidableEq, Repr

/-- An array that is not complete: `more` items are due after the next one, or any
number of items up to a break. -/
inductive Frame
  | counted (more : ℕ)
  | untilBreak
  deriving DecidableEq, Repr

def openArray : Option ℕ → List Frame → List Frame
  | none, fs => .untilBreak :: fs
  | some 0, fs => fs
  | some (n + 1), fs => .counted n :: fs

/-- Use up one item of the innermost open array; nothing may follow the last one. -/
def slot : List Frame → Option (List Frame)
  | [] => none
  | .counted more :: fs => some (openArray (some more) fs)
  | .untilBreak :: fs => some (.untilBreak :: fs)

def closeBreak : List Frame → Option (List Frame)
  | .untilBreak :: fs => some fs
  | _ => none

def advance (fs : List Frame) : Event → Option (List Frame)
  | .header len => (slot fs).map (openArray len)
  | .item => slot fs
  | .stop => closeBreak fs

def follow (fs : List Frame) : List Event → Option (List Frame)
  | [] => some fs
  | e :: es => (advance fs e).bind fun fs' => follow fs' es

/-- Counted down along the events, the declared lengths come to an end exactly with
the last event: one item is due at the start and nothing is left open. -/
def LengthsAgree (es : List Event) : Prop := follow [.counted 0] es = some []

instance (es : List Event) : Decidable (LengthsAgree es) := by
  unfold LengthsAgree
  infer_instance

theorem follow_append (fs : List Frame) (es es' : List Event) :
    follow fs (es ++ es') = (follow fs es).bind fun fs' => follow fs' es' := by
  induction es generalizing fs with
  | nil => rfl
  | cons e es ih =>
    rw [List.cons_append, follow, follow, Option.bind_assoc]
    exact congrArg _ (funext fun fs' => ih fs')

/-! The bytes that complete what is open. -/

def Completes : List Frame → Bytes → Prop
  | [], bs => bs = []
  | .counted more :: fs, bs => ∃ a b, bs = a ++ b ∧ Items (more + 1) a ∧ Completes fs b
  | .untilBreak :: fs, bs => ∃ k a b, bs = a ++ breakByte :: b ∧ Items k a ∧ Completes fs b

theorem items_zero_iff {bs : Bytes} : Items 0 bs ↔ bs = [] := by
  rw [items_iff]
  constructor
  · intro h'
    obtain ⟨parts, hlen, rfl, -⟩ := h'
    rw [List.length_eq_zero_iff.mp hlen, List.flatten_nil]
  · intro heq
    subst heq
    exact ⟨[], rfl, rfl, fun _ h => absurd h List.not_mem_nil⟩

/-- The first of the items, and the others. -/
theorem items_succ_iff {n : ℕ} {bs : Bytes} :
    Items (n + 1) bs ↔ ∃ v more, bs = v ++ more ∧ WellFormed v ∧ Items n more := by
  constructor
  · intro h
    obtain ⟨parts, hlen, rfl, hparts⟩ := items_iff.mp h
    obtain ⟨v, parts, rfl⟩ := List.exists_cons_of_length_eq_add_one hlen
    refine ⟨v, parts.flatten, rfl, hparts v (List.mem_cons_self ..), ?_⟩
    exact items_iff.mpr ⟨parts, by simpa using hlen, rfl,
      fun p hp => hparts p (List.mem_cons_of_mem _ hp)⟩
  · intro h'
    obtain ⟨v, more, rfl, hv, hmore⟩ := h'
    rw [Nat.add_comm]
    exact Items.append hv hmore

/-- An array with a length takes its items first. -/
theorem completes_openArray (n : ℕ) (fs : List Frame) (bs : Bytes) :
    Completes (openArray (some n) fs) bs ↔
      ∃ a b, bs = a ++ b ∧ Items n a ∧ Completes fs b := by
  cases n with
  | succ n => exact Iff.rfl
  | zero =>
    constructor
    · intro h
      exact ⟨[], bs, rfl, Items.nil, h⟩
    · intro h'
      obtain ⟨a, b, rfl, ha, hb⟩ := h'
      rw [items_zero_iff.mp ha, List.nil_append]
      exact hb

theorem NoBreak.ne {bs t : Bytes} (h : NoBreak bs) : bs ≠ breakByte :: t := by
  intro h'
  subst h'
  obtain ⟨b, t', heq, hb⟩ := h
  rw [List.cons.injEq] at heq
  exact hb heq.1.symm

/-- An item uses up its slot. -/
theorem completes_item {u : Bytes} (hu : WellFormed u) (fs : List Frame) (bs : Bytes) :
    Completes fs (u ++ bs) ↔ ∃ fs', slot fs = some fs' ∧ Completes fs' bs := by
  rcases fs with _ | ⟨more | _, fs⟩
  · constructor
    · intro h
      have hpos := hu.noBreak.length_pos
      have hlen := congrArg List.length (show u ++ bs = [] from h)
      rw [List.length_append, List.length_nil] at hlen
      omega
    · intro h'
      obtain ⟨_, h, _⟩ := h'
      cases h
  · simp only [slot, Option.some.injEq, exists_eq_left', completes_openArray, Completes]
    constructor
    · intro h'
      obtain ⟨a, b, heq, ha, hb⟩ := h'
      obtain ⟨v, a, rfl, hv, hmore⟩ := items_succ_iff.mp ha
      rw [List.append_assoc] at heq
      obtain ⟨rfl, rfl⟩ := hu.unique hv heq
      exact ⟨a, b, rfl, hmore, hb⟩
    · intro h'
      obtain ⟨a, b, rfl, ha, hb⟩ := h'
      exact ⟨u ++ a, b, by rw [List.append_assoc], items_succ_iff.mpr ⟨u, a, rfl, hu, ha⟩, hb⟩
  · simp only [slot, Option.some.injEq, exists_eq_left', Completes]
    constructor
    · intro h'
      obtain ⟨k, a, b, heq, ha, hb⟩ := h'
      rcases k with _ | k
      · rw [items_zero_iff.mp ha, List.nil_append] at heq
        exact absurd heq (hu.noBreak.append bs).ne
      · obtain ⟨v, a, rfl, hv, hmore⟩ := items_succ_iff.mp ha
        rw [List.append_assoc] at heq
        obtain ⟨rfl, rfl⟩ := hu.unique hv heq
        exact ⟨k, a, b, rfl, hmore, hb⟩
    · intro h'
      obtain ⟨k, a, b, rfl, ha, hb⟩ := h'
      exact ⟨k + 1, u ++ a, b, by rw [List.append_assoc],
        items_succ_iff.mpr ⟨u, a, rfl, hu, ha⟩, hb⟩

/-- A break closes the array that is open. -/
theorem completes_break (fs : List Frame) (bs : Bytes) :
    Completes fs (breakByte :: bs) ↔ ∃ fs', closeBreak fs = some fs' ∧ Completes fs' bs := by
  rcases fs with _ | ⟨more | _, fs⟩
  · simp only [Completes, closeBreak, reduceCtorEq, false_and, exists_false]
  · simp only [Completes, closeBreak, reduceCtorEq, false_and, exists_false, iff_false]
    intro h'
    obtain ⟨a, b, heq, ha, -⟩ := h'
    obtain ⟨v, a, rfl, hv, -⟩ := items_succ_iff.mp ha
    exact ((hv.noBreak.append a).append b).ne heq.symm
  · simp only [Completes, closeBreak, Option.some.injEq, exists_eq_left']
    constructor
    · intro h'
      obtain ⟨k, a, b, heq, ha, hb⟩ := h'
      rcases k with _ | k
      · rw [items_zero_iff.mp ha, List.nil_append, List.cons.injEq] at heq
        rwa [heq.2]
      · obtain ⟨v, a, rfl, hv, -⟩ := items_succ_iff.mp ha
        exact absurd heq.symm ((hv.noBreak.append a).append _).ne
    · intro h
      exact ⟨0, [], bs, rfl, Items.nil, h⟩

/-- Where more is due, an input that does not start with a break starts with an item. -/
theorem Completes.first {fs : List Frame} {bs : Bytes} (h : Completes fs bs) (hb : NoBreak bs) :
    ∃ v more, bs = v ++ more ∧ WellFormed v := by
  rcases fs with _ | ⟨more | _, fs⟩
  · have hpos := hb.length_pos
    rw [show bs = [] from h, List.length_nil] at hpos
    omega
  · obtain ⟨a, b, rfl, ha, -⟩ := h
    obtain ⟨v, a, rfl, hv, -⟩ := items_succ_iff.mp ha
    exact ⟨v, a ++ b, List.append_assoc .., hv⟩
  · obtain ⟨k, a, b, rfl, ha, -⟩ := h
    rcases k with _ | k
    · rw [items_zero_iff.mp ha, List.nil_append] at hb
      exact absurd rfl hb.ne
    · obtain ⟨v, a, rfl, hv, -⟩ := items_succ_iff.mp ha
      exact ⟨v, a ++ breakByte :: b, List.append_assoc .., hv⟩

/-! An item that starts with an array head is that array. -/

theorem IsHead.major_unique {major major' : ℕ} {arg arg' : Option ℕ} {h h' rest rest' : Bytes}
    (hh : IsHead major arg h) (hh' : IsHead major' arg' h') (heq : h ++ rest = h' ++ rest') :
    major = major' := by
  obtain ⟨b, t, rfl, hm, -⟩ := hh.cons
  obtain ⟨b', t', rfl, hm', -⟩ := hh'.cons
  rw [List.cons_append, List.cons_append, List.cons.injEq] at heq
  rw [← hm, ← hm', heq.1]

theorem Atom.head {a : Bytes} (h : Atom a) :
    ∃ major arg h more, a = h ++ more ∧ IsHead major arg h ∧ major ≠ 4 := by
  rcases h with ⟨hm, hh⟩ | ⟨hm, n, head, payload, hh, -, rfl⟩ | ⟨hm, hh, -⟩ | ⟨hh, -⟩
  · exact ⟨_, _, a, [], (List.append_nil a).symm, hh, by omega⟩
  · exact ⟨_, _, head, payload, rfl, hh, by omega⟩
  · exact ⟨_, _, _, _, rfl, hh, by omega⟩
  · exact ⟨_, _, a, [], (List.append_nil a).symm, hh, by omega⟩

def Body : Option ℕ → Bytes → Prop
  | some n, bs => Items n bs
  | none, bs => ∃ k inner, bs = inner ++ [breakByte] ∧ Items k inner

theorem Body.wellFormed {len : Option ℕ} {h bs : Bytes} (hh : IsHead 4 len h) (hb : Body len bs) :
    WellFormed (h ++ bs) := by
  rcases len with _ | n
  · obtain ⟨k, inner, rfl, hi⟩ := hb
    exact Items.arrayIndefinite hh hi Items.nil
  · have hitems := Items.array hh hb Items.nil
    rwa [List.append_nil] at hitems

/-- An item that begins with an array head ends with the body of the array. -/
theorem WellFormed.body {len : Option ℕ} {h v rest rest' : Bytes} (hv : WellFormed v)
    (hh : IsHead 4 len h) (heq : v ++ rest = h ++ rest') :
    ∃ inner, v = h ++ inner ∧ Body len inner := by
  unfold WellFormed at hv
  cases hv with
  | atom ha hs =>
    obtain ⟨major, arg, h', more, rfl, hh', hm⟩ := ha.head
    simp only [List.append_assoc] at heq
    exact absurd (hh'.major_unique hh heq) hm
  | array hh' hi hs =>
    obtain rfl := items_zero_iff.mp hs
    simp only [List.append_assoc, List.append_nil] at heq ⊢
    obtain ⟨hlen, rfl, -⟩ := Parses.unique hh' hh heq
    subst hlen
    exact ⟨_, rfl, hi⟩
  | arrayIndefinite hh' hi hs =>
    obtain rfl := items_zero_iff.mp hs
    simp only [List.append_assoc] at heq ⊢
    obtain ⟨hlen, rfl, -⟩ := Parses.unique hh' hh heq
    subst hlen
    exact ⟨_, rfl, _, _, rfl, hi⟩
  | map hh' hi hs =>
    simp only [List.append_assoc] at heq
    exact absurd (hh'.major_unique hh heq) (by omega)
  | mapIndefinite hh' hi hs =>
    simp only [List.append_assoc] at heq
    exact absurd (hh'.major_unique hh heq) (by omega)
  | tag hh' hs =>
    simp only [List.append_assoc] at heq
    exact absurd (hh'.major_unique hh heq) (by omega)

/-- The elements of an array come before what is still due outside it. -/
theorem completes_body (len : Option ℕ) (fs : List Frame) (bs : Bytes) :
    Completes (openArray len fs) bs ↔ ∃ a b, bs = a ++ b ∧ Body len a ∧ Completes fs b := by
  rcases len with _ | n
  · constructor
    · intro h
      obtain ⟨k, a, b, rfl, ha, hb⟩ := h
      exact ⟨a ++ [breakByte], b, List.append_cons .., ⟨k, a, rfl, ha⟩, hb⟩
    · intro h
      obtain ⟨_, b, rfl, ⟨k, a, rfl, ha⟩, hb⟩ := h
      exact ⟨k, a, b, (List.append_cons ..).symm, ha, hb⟩
  · exact completes_openArray n fs bs

theorem completes_header {len : Option ℕ} {h : Bytes} (hh : IsHead 4 len h) (fs : List Frame)
    (bs : Bytes) :
    Completes fs (h ++ bs) ↔ ∃ fs', slot fs = some fs' ∧ Completes (openArray len fs') bs := by
  constructor
  · intro hc
    obtain ⟨v, more, heq, hv⟩ := hc.first (hh.noBreak (by omega) bs)
    obtain ⟨inner, rfl, hinner⟩ := hv.body hh heq.symm
    rw [heq] at hc
    obtain ⟨fs', hslot, hfs'⟩ := (completes_item hv fs more).mp hc
    rw [List.append_assoc] at heq
    obtain rfl := List.append_cancel_left heq
    exact ⟨fs', hslot, (completes_body len fs' _).mpr ⟨inner, more, rfl, hinner, hfs'⟩⟩
  · intro h'
    obtain ⟨fs', hslot, hbody⟩ := h'
    obtain ⟨inner, more, rfl, hinner, hfs'⟩ := (completes_body len fs' bs).mp hbody
    rw [← List.append_assoc]
    exact (completes_item (hinner.wellFormed hh) fs more).mpr ⟨fs', hslot, hfs'⟩

/-! Bytes that amount to events. -/

/-- Reading `used` changes what is open as the events say. -/
def Traces (used : Bytes) (es : List Event) : Prop :=
  ∀ fs bs, Completes fs (used ++ bs) ↔ ∃ fs', follow fs es = some fs' ∧ Completes fs' bs

theorem traces_nil : Traces [] [] := by
  intro fs bs
  simp only [follow, Option.some.injEq, exists_eq_left', List.nil_append]

/-- Two readings, one after the other. -/
theorem Traces.append {u u' : Bytes} {es es' : List Event} (h : Traces u es)
    (h' : Traces u' es') : Traces (u ++ u') (es ++ es') := by
  intro fs bs
  rw [List.append_assoc, h fs, follow_append]
  constructor
  · rintro ⟨fs', hfs', hc⟩
    obtain ⟨fs'', hfs'', hc⟩ := (h' fs' bs).mp hc
    exact ⟨fs'', by rw [hfs', Option.bind_some, hfs''], hc⟩
  · rintro ⟨fs'', hbind, hc⟩
    obtain ⟨fs', hfs', hfs''⟩ := Option.bind_eq_some_iff.mp hbind
    exact ⟨fs', hfs', (h' fs' bs).mpr ⟨fs'', hfs'', hc⟩⟩

theorem follow_singleton (fs : List Frame) (e : Event) : follow fs [e] = advance fs e := by
  exact Option.bind_fun_some _

theorem traces_item {u : Bytes} (hu : WellFormed u) : Traces u [.item] := by
  intro fs bs
  rw [follow_singleton]
  exact completes_item hu fs bs

theorem traces_header {len : Option ℕ} {h : Bytes} (hh : IsHead 4 len h) :
    Traces h [.header len] := by
  intro fs bs
  rw [follow_singleton, completes_header hh, advance]
  constructor
  · intro h'
    obtain ⟨fs', hslot, hc⟩ := h'
    exact ⟨openArray len fs', by rw [hslot, Option.map_some], hc⟩
  · intro h'
    obtain ⟨_, hmap, hc⟩ := h'
    obtain ⟨fs', hslot, rfl⟩ := Option.map_eq_some_iff.mp hmap
    exact ⟨fs', hslot, hc⟩

theorem traces_stop : Traces [breakByte] [.stop] := by
  intro fs bs
  rw [follow_singleton]
  exact completes_break fs bs

theorem traces_flatten {ess : List (List Event)} {parts : List Bytes}
    (h : List.Forall₂ (fun es used => Traces used es) ess parts) :
    Traces parts.flatten ess.flatten := by
  induction h with
  | nil => exact traces_nil
  | cons hp _ ih => exact hp.append ih

theorem completes_nil_iff {fs : List Frame} : Completes fs [] ↔ fs = [] := by
  constructor
  · intro h
    rcases fs with _ | ⟨more | _, fs⟩
    · rfl
    · obtain ⟨a, b, heq, ha, -⟩ := h
      obtain ⟨rfl, -⟩ := List.append_eq_nil_iff.mp heq.symm
      obtain ⟨v, more, heq, hv, -⟩ := items_succ_iff.mp ha
      obtain ⟨rfl, -⟩ := List.append_eq_nil_iff.mp heq.symm
      exact absurd hv.noBreak.length_pos (Nat.lt_irrefl 0)
    · obtain ⟨k, a, b, heq, -⟩ := h
      exact absurd heq.symm (by simp)
  · intro h'
    subst h'
    rfl

/-- The bytes used are one complete item exactly when the declared lengths agree
with what was read. -/
theorem Traces.wellFormed_iff {used : Bytes} {es : List Event} (h : Traces used es) :
    WellFormed used ↔ LengthsAgree es := by
  have hstart : WellFormed used ↔ Completes [.counted 0] (used ++ []) := by
    rw [List.append_nil]
    constructor
    · intro hu
      exact ⟨used, [], (List.append_nil used).symm, hu, rfl⟩
    · intro h'
      obtain ⟨a, b, rfl, ha, rfl⟩ := h'
      rwa [List.append_nil]
  rw [hstart, h]
  constructor
  · intro h'
    obtain ⟨fs', hfs', hc⟩ := h'
    rwa [completes_nil_iff.mp hc] at hfs'
  · intro hagree
    exact ⟨[], hagree, rfl⟩

/-! Which lengths agree with the two shapes without a list. -/

theorem lengthsAgree_single_iff (len : Option ℕ) :
    LengthsAgree [.header len, .item] ↔ len = some 1 := by
  rcases len with _ | _ | _ | n <;>
    simp [LengthsAgree, follow, advance, slot, openArray]

/-- An inner array that ends early or late has to be made up for by the outer one. -/
theorem lengthsAgree_nested_iff (outer inner : Option ℕ) :
    LengthsAgree [.header outer, .item, .item, .header inner, .item, .item] ↔
      ∃ a b, outer = some a ∧ inner = some b ∧ a + b = 5 ∧ b ≤ 2 := by
  constructor
  · intro h
    rcases outer with _ | a
    · rcases inner with _ | _ | _ | _ | b <;>
        simp [LengthsAgree, follow, advance, slot, openArray] at h
    · rcases inner with _ | _ | _ | _ | b <;> rcases a with _ | _ | _ | _ | _ | _ | a <;>
        simp [LengthsAgree, follow, advance, slot, openArray] at h ⊢
  · intro h'
    obtain ⟨a, b, rfl, rfl, hab, hb⟩ := h'
    have hcases : (a = 5 ∧ b = 0) ∨ (a = 4 ∧ b = 1) ∨ (a = 3 ∧ b = 2) := by omega
    rcases hcases with ⟨rfl, rfl⟩ | ⟨rfl, rfl⟩ | ⟨rfl, rfl⟩
    · rfl
    · rfl
    · rfl

end Hermod.Cbor
