import Hermod.CborHeads
import Hermod.Consumption
import Mathlib.Data.List.Forall2

/-!
Well-formed CBOR data items (RFC 8949, section 5.3 and appendix C) and the reader
that skips one. `Items n bs` says that `bs` is exactly `n` data items, one after the
other; a well-formed item is the case of one. Skipping accepts exactly the
well-formed items, so no item is a strict prefix of another.
-/
namespace Hermod.Cbor

open Decoding Decoder

/-- The bytes of a head, in any width; `none` is the indefinite-length form. -/
def IsHead (major : ℕ) (arg : Option ℕ) (h : Bytes) : Prop := Parses (headOf major) h arg

/-- The additional information alone says how many bytes are read. -/
theorem unsigned_local (info : ℕ) : Local (unsigned info) := by
  unfold unsigned
  split
  · exact local_pure _
  · split
    · exact (take_local 1).map beNat
    · split
      · exact (take_local 2).map beNat
      · split
        · exact (take_local 4).map beNat
        · split
          · exact (take_local 8).map beNat
          · exact local_fail _

theorem headOf_local (major : ℕ) : Local (headOf major) := by
  apply byte_local.bind
  intro b
  split
  · split
    · exact local_pure none
    · exact (unsigned_local _).map some
  · exact local_fail _

theorem headOf_reads (major : ℕ) : Reads (headOf major) fun arg h => IsHead major arg h :=
  headOf_local major

/-- A head starts with a byte of its major type, and ends there when indefinite. -/
theorem IsHead.cons {major : ℕ} {arg : Option ℕ} {h : Bytes} (hh : IsHead major arg h) :
    ∃ b t, h = b :: t ∧ majorOf b = major ∧ (arg = none ↔ infoOf b = 31) ∧
      (arg = none → t = []) := by
  have hrun := hh.run
  cases h with
  | nil => cases hrun
  | cons b t =>
    refine ⟨b, t, rfl, ?_⟩
    by_cases hb : majorOf b = major
    · rw [headOf_run_cons hb] at hrun
      split at hrun
      · rename_i hi
        cases hrun
        exact ⟨hb, by simp only [hi], fun _ => rfl⟩
      · rename_i hi
        rw [map_run] at hrun
        rcases hu : (unsigned (infoOf b)).run t with e | ⟨n, rest⟩
        · rw [hu] at hrun
          cases hrun
        · rw [hu] at hrun
          cases hrun
          exact ⟨hb, ⟨nofun, fun h => absurd h hi⟩, nofun⟩
    · rw [headOf, bind_run, byte_run_cons] at hrun
      simp only [if_neg hb, fail_run] at hrun
      cases hrun

theorem majorOf_breakByte : majorOf breakByte = 7 := rfl

theorem infoOf_breakByte : infoOf breakByte = 31 := rfl

theorem IsHead.ne_break {major : ℕ} {arg : Option ℕ} {h : Bytes} (hh : IsHead major arg h)
    (hbreak : major ≠ 7 ∨ arg ≠ none) : ∃ b t, h = b :: t ∧ b ≠ breakByte := by
  obtain ⟨b, t, rfl, hm, harg, -⟩ := hh.cons
  refine ⟨b, t, rfl, ?_⟩
  intro heq
  subst heq
  rw [majorOf_breakByte] at hm
  rw [infoOf_breakByte] at harg
  rcases hbreak with h | h
  · exact h hm.symm
  · exact h (harg.mpr rfl)

theorem isHead_head {major n : ℕ} (hm : major < 8) (hn : n < 2 ^ 64) :
    IsHead major (some n) (head major n) := headOf_run_head hm hn

/-- An unsigned integer is read from a head of any width. -/
theorem IsHead.parses_uint {max n : ℕ} {h : Bytes} (hh : IsHead 0 (some n) h) (hn : n ≤ max) :
    Parses (uint max) h n := by
  intro rest
  simp only [uint, bind_run, hh rest, if_pos hn, pure_run]

def IsString (major : ℕ) (s : Bytes) : Prop :=
  ∃ n h payload, IsHead major (some n) h ∧ payload.length = n ∧ s = h ++ payload

/-- Items without nested items. Text is not required to be valid UTF-8, and a simple
value below 32 has no two-byte form. -/
inductive Atom : Bytes → Prop
  | int {major n : ℕ} {h : Bytes} (hm : major ≤ 1) (hh : IsHead major (some n) h) : Atom h
  | string {major : ℕ} {s : Bytes} (hm : major = 2 ∨ major = 3) (hs : IsString major s) : Atom s
  | chunked {major : ℕ} {h : Bytes} {chunks : List Bytes} (hm : major = 2 ∨ major = 3)
      (hh : IsHead major none h) (hc : ∀ c ∈ chunks, IsString major c) :
      Atom (h ++ (chunks.flatten ++ [breakByte]))
  | simple {n : ℕ} {h : Bytes} (hh : IsHead 7 (some n) h) (hn : h.head? = some 0xf8 → 32 ≤ n) :
      Atom h

inductive Items : ℕ → Bytes → Prop
  | nil : Items 0 []
  | atom {n : ℕ} {a bs : Bytes} (ha : Atom a) (hs : Items n bs) : Items (n + 1) (a ++ bs)
  | array {n k : ℕ} {h inner bs : Bytes} (hh : IsHead 4 (some k) h) (hi : Items k inner)
      (hs : Items n bs) : Items (n + 1) (h ++ (inner ++ bs))
  | arrayIndefinite {n k : ℕ} {h inner bs : Bytes} (hh : IsHead 4 none h) (hi : Items k inner)
      (hs : Items n bs) : Items (n + 1) (h ++ (inner ++ breakByte :: bs))
  | map {n k : ℕ} {h inner bs : Bytes} (hh : IsHead 5 (some k) h) (hi : Items (2 * k) inner)
      (hs : Items n bs) : Items (n + 1) (h ++ (inner ++ bs))
  | mapIndefinite {n k : ℕ} {h inner bs : Bytes} (hh : IsHead 5 none h)
      (hi : Items (2 * k) inner) (hs : Items n bs) : Items (n + 1) (h ++ (inner ++ breakByte :: bs))
  | tag {n t : ℕ} {h bs : Bytes} (hh : IsHead 6 (some t) h) (hs : Items (n + 1) bs) :
      Items (n + 1) (h ++ bs)

def WellFormed (bs : Bytes) : Prop := Items 1 bs

theorem Atom.wellFormed {a : Bytes} (h : Atom a) : WellFormed a := by
  have hi := Items.atom h Items.nil
  rwa [List.append_nil] at hi

theorem Items.append {m n : ℕ} {a b : Bytes} (ha : Items m a) (hb : Items n b) :
    Items (m + n) (a ++ b) := by
  induction ha with
  | nil => simpa only [Nat.zero_add, List.nil_append] using hb
  | atom ha _ ih =>
    rw [List.append_assoc, Nat.add_right_comm]
    exact Items.atom ha ih
  | array hh hi _ _ ih =>
    rw [List.append_assoc, List.append_assoc, Nat.add_right_comm]
    exact Items.array hh hi ih
  | arrayIndefinite hh hi _ _ ih =>
    rw [List.append_assoc, List.append_assoc, List.cons_append, Nat.add_right_comm]
    exact Items.arrayIndefinite hh hi ih
  | map hh hi _ _ ih =>
    rw [List.append_assoc, List.append_assoc, Nat.add_right_comm]
    exact Items.map hh hi ih
  | mapIndefinite hh hi _ _ ih =>
    rw [List.append_assoc, List.append_assoc, List.cons_append, Nat.add_right_comm]
    exact Items.mapIndefinite hh hi ih
  | tag hh _ ih =>
    rw [Nat.add_right_comm] at ih ⊢
    rw [List.append_assoc]
    exact Items.tag hh ih

/-- Parts of `k` items each make items together. -/
theorem items_flatten {k : ℕ} {parts : List Bytes} (h : ∀ p ∈ parts, Items k p) :
    Items (k * parts.length) parts.flatten := by
  induction parts with
  | nil => exact Items.nil
  | cons p parts ih =>
    have hp := h p (List.mem_cons_self ..)
    have hps := ih fun q hq => h q (List.mem_cons_of_mem _ hq)
    rw [List.length_cons, List.flatten_cons, Nat.mul_add, Nat.mul_one, Nat.add_comm]
    exact Items.append hp hps

/-! Skipping one item. -/

def discard {α : Type} (x : Decoder α) : Decoder Unit := (fun _ => ()) <$> x

def skipChunk (major : ℕ) : Decoder Unit := do
  match ← headOf major with
  | none => fail .typeMismatch
  | some n => discard (take n)

def skipContent (item : Decoder Unit) (b : UInt8) : Option ℕ → Decoder Unit
  | some n =>
    if majorOf b ≤ 1 then pure ()
    else if majorOf b ≤ 3 then discard (take n)
    else if majorOf b = 4 then discard (times item n)
    else if majorOf b = 5 then discard (times item (2 * n))
    else if majorOf b = 6 then item
    else if b = 0xf8 ∧ n < 32 then fail .typeMismatch
    else pure ()
  | none =>
    if majorOf b = 2 ∨ majorOf b = 3 then discard (untilByte breakByte (skipChunk (majorOf b)))
    else if majorOf b = 4 then discard (untilByte breakByte item)
    else if majorOf b = 5 then discard (untilByte breakByte (item >>= fun _ => item))
    else fail .typeMismatch

/-- Skip one item nested at most `fuel` deep. -/
def skipFuel : ℕ → Decoder Unit
  | 0 => fail .endOfInput
  | fuel + 1 => do
    let b ← peek
    let arg ← headOf (majorOf b)
    skipContent (skipFuel fuel) b arg

theorem times_below {α : Type} {x y : Decoder α} (h : Below x y) (n : ℕ) :
    Below (times x n) (times y n) := by
  induction n with
  | zero => exact Below.refl _
  | succ n ih => exact h.bind fun a => ih.bind fun as => Below.refl _

/-- Where the items answer alike, so does the loop over them. -/
theorem untilByteFuel_below_item {α : Type} {x y : Decoder α} (h : Below x y) (stop : UInt8)
    (n : ℕ) : Below (untilByteFuel stop x n) (untilByteFuel stop y n) := by
  induction n with
  | zero => exact Below.refl _
  | succ n ih =>
    apply (Below.refl peek).bind
    intro b
    split
    · exact Below.refl _
    · exact h.bind fun a => ih.bind fun as => Below.refl _

theorem untilByte_below {α : Type} {x y : Decoder α} (h : Below x y) (stop : UInt8) :
    Below (untilByte stop x) (untilByte stop y) :=
  fun bs => untilByteFuel_below_item h stop bs.length bs

theorem Below.discard {α : Type} {x y : Decoder α} (h : Below x y) :
    Below (discard x) (discard y) := by
  unfold Cbor.discard
  rw [map_eq_pure_bind, map_eq_pure_bind]
  exact h.bind fun _ => Below.refl _

theorem below_ite {α : Type} {p : Prop} [Decidable p] {x x' y y' : Decoder α}
    (hx : Below x x') (hy : Below y y') : Below (if p then x else y) (if p then x' else y') := by
  by_cases hp : p
  · rwa [if_pos hp, if_pos hp]
  · rwa [if_neg hp, if_neg hp]

theorem skipContent_below {x y : Decoder Unit} (h : Below x y) (b : UInt8) (arg : Option ℕ) :
    Below (skipContent x b arg) (skipContent y b arg) := by
  rcases arg with _ | n
  · simp only [skipContent]
    refine below_ite (Below.refl _) (below_ite ?_ (below_ite ?_ (Below.refl _)))
    · exact Below.discard (untilByte_below h breakByte)
    · exact Below.discard (untilByte_below (h.bind fun _ => h) breakByte)
  · simp only [skipContent]
    refine below_ite (Below.refl _) (below_ite (Below.refl _)
      (below_ite ?_ (below_ite ?_ (below_ite h (Below.refl _)))))
    · exact Below.discard (times_below h n)
    · exact Below.discard (times_below h (2 * n))

theorem skipFuel_below (n : ℕ) : Below (skipFuel n) (skipFuel (n + 1)) := by
  induction n with
  | zero => exact below_fail _
  | succ n ih =>
    exact (Below.refl peek).bind fun b => (Below.refl _).bind fun arg => skipContent_below ih b arg

def skipItem : Decoder Unit := byLength skipFuel skipFuel_below

/-- Skip one data item, or the break byte where there is one. -/
def skip : Decoder Unit := do
  if ← atBreak then discard byte else skipItem

/-! Every well-formed item is skipped. -/

def NoBreak (bs : Bytes) : Prop := ∃ b t, bs = b :: t ∧ b ≠ breakByte

theorem NoBreak.append {bs : Bytes} (h : NoBreak bs) (more : Bytes) : NoBreak (bs ++ more) := by
  obtain ⟨b, t, rfl, hb⟩ := h
  exact ⟨b, t ++ more, rfl, hb⟩

theorem NoBreak.length_pos {bs : Bytes} (h : NoBreak bs) : 0 < bs.length := by
  obtain ⟨b, t, rfl, -⟩ := h
  simp only [List.length_cons]
  omega

def Elements (item : Decoder Unit) (n : ℕ) (bs : Bytes) : Prop :=
  ∃ ps : List (Unit × Bytes), ps.length = n ∧ encodings ps = bs ∧
    ∀ p ∈ ps, Parses item p.2 p.1 ∧ NoBreak p.2

theorem elements_nil (item : Decoder Unit) : Elements item 0 [] :=
  ⟨[], rfl, rfl, fun _ h => absurd h List.not_mem_nil⟩

theorem Elements.cons {item : Decoder Unit} {n : ℕ} {p bs : Bytes} (hp : Parses item p ())
    (hb : NoBreak p) (h : Elements item n bs) : Elements item (n + 1) (p ++ bs) := by
  obtain ⟨ps, rfl, rfl, hps⟩ := h
  refine ⟨((), p) :: ps, rfl, rfl, ?_⟩
  intro q hq
  rcases List.mem_cons.mp hq with rfl | hq
  · exact ⟨hp, hb⟩
  · exact hps q hq

theorem Elements.uncons {item : Decoder Unit} {n : ℕ} {bs : Bytes} (h : Elements item (n + 1) bs) :
    ∃ p more, bs = p ++ more ∧ Parses item p () ∧ NoBreak p ∧ Elements item n more := by
  obtain ⟨ps, hlen, rfl, hps⟩ := h
  obtain ⟨⟨u, p⟩, ps, rfl⟩ := List.exists_cons_of_length_eq_add_one hlen
  obtain ⟨hp, hb⟩ := hps (u, p) (List.mem_cons_self ..)
  exact ⟨p, encodings ps, rfl, hp, hb, ps, by simpa using hlen, rfl,
    fun q hq => hps q (List.mem_cons_of_mem _ hq)⟩

theorem Elements.below {x y : Decoder Unit} (hxy : Below x y) {n : ℕ} {bs : Bytes}
    (h : Elements x n bs) : Elements y n bs := by
  obtain ⟨ps, hlen, hbs, hps⟩ := h
  exact ⟨ps, hlen, hbs, fun p hp => ⟨(hps p hp).1.below hxy, (hps p hp).2⟩⟩

/-- An even number of items is read pair by pair. -/
theorem Elements.pairs {item : Decoder Unit} {n : ℕ} {bs : Bytes}
    (h : Elements item (2 * n) bs) : Elements (item >>= fun _ => item) n bs := by
  induction n generalizing bs with
  | zero =>
    obtain ⟨ps, hlen, rfl, -⟩ := h
    obtain rfl := List.length_eq_zero_iff.mp hlen
    exact elements_nil _
  | succ n ih =>
    obtain ⟨p, more, rfl, hp, hb, h⟩ := h.uncons
    obtain ⟨q, more, rfl, hq, -, h⟩ := h.uncons
    rw [← List.append_assoc]
    exact Elements.cons (hp.bind hq) (hb.append q) (ih h)

theorem Elements.times {item : Decoder Unit} {n : ℕ} {bs : Bytes} (h : Elements item n bs) :
    Parses (discard (times item n)) bs () := by
  obtain ⟨ps, rfl, rfl, hps⟩ := h
  exact (parses_times ps fun p hp => (hps p hp).1).map _

theorem Elements.untilByte {item : Decoder Unit} {n : ℕ} {bs : Bytes} (h : Elements item n bs) :
    Parses (discard (untilByte breakByte item)) (bs ++ [breakByte]) () := by
  obtain ⟨ps, -, rfl, hps⟩ := h
  exact (parses_untilByte ps (fun p hp => (hps p hp).1) fun p hp => (hps p hp).2).map _

theorem parses_skipChunk {major : ℕ} {s : Bytes} (h : IsString major s) :
    Parses (skipChunk major) s () := by
  obtain ⟨n, head, payload, hh, hlen, rfl⟩ := h
  have htake : Parses (take n) payload payload := fun rest => take_run_append payload rest hlen
  exact Parses.bind hh (htake.map _)

theorem IsString.noBreak {major : ℕ} {s : Bytes} (h : IsString major s) : NoBreak s := by
  obtain ⟨n, head, payload, hh, -, rfl⟩ := h
  exact NoBreak.append (hh.ne_break (Or.inr (Option.some_ne_none n))) payload

theorem elements_chunks {major : ℕ} {chunks : List Bytes} (h : ∀ c ∈ chunks, IsString major c) :
    Elements (skipChunk major) chunks.length chunks.flatten := by
  induction chunks with
  | nil => exact elements_nil _
  | cons c chunks ih =>
    have hc := h c (List.mem_cons_self ..)
    have hcs := ih fun d hd => h d (List.mem_cons_of_mem _ hd)
    exact Elements.cons (parses_skipChunk hc) hc.noBreak hcs

/-- An item is skipped by its head and its content. -/
theorem parses_skipFuel {fuel major : ℕ} {arg : Option ℕ} {h content : Bytes}
    (hh : IsHead major arg h)
    (hc : ∀ b, majorOf b = major → h.head? = some b →
      Parses (skipContent (skipFuel fuel) b arg) content ()) :
    Parses (skipFuel (fuel + 1)) (h ++ content) () := by
  obtain ⟨b, t, rfl, hm, -⟩ := hh.cons
  subst hm
  intro rest
  have hrun := hh (content ++ rest)
  rw [List.cons_append] at hrun
  rw [List.append_assoc, List.cons_append]
  simp only [skipFuel, bind_run, peek_run_cons, hrun]
  exact hc b rfl rfl rest

theorem Atom.noBreak {a : Bytes} (h : Atom a) : NoBreak a := by
  rcases h with ⟨-, hh⟩ | ⟨-, hs⟩ | ⟨hm, hh, -⟩ | ⟨hh, -⟩
  · exact hh.ne_break (Or.inr (Option.some_ne_none _))
  · exact hs.noBreak
  · exact NoBreak.append (hh.ne_break (Or.inl (by omega))) _
  · exact hh.ne_break (Or.inr (Option.some_ne_none _))

theorem Atom.skipped {a : Bytes} (h : Atom a) (fuel : ℕ) :
    Parses (skipFuel (fuel + 1)) a () := by
  rcases h with ⟨hm, hh⟩ | ⟨hm, n, head, payload, hh, hlen, rfl⟩ | @⟨major, _, _, hm, hh, hc⟩ |
    ⟨hh, hn⟩
  · rw [← List.append_nil a]
    refine parses_skipFuel hh fun b hb _ => ?_
    rw [skipContent, if_pos (by omega)]
    exact parses_pure ()
  · refine parses_skipFuel hh fun b hb _ => ?_
    rw [skipContent, if_neg (by omega), if_pos (by omega)]
    have htake : Parses (take n) payload payload := fun rest => take_run_append payload rest hlen
    exact htake.map _
  · refine parses_skipFuel hh fun b hb _ => ?_
    rw [skipContent, if_pos (by omega), hb]
    exact (elements_chunks hc).untilByte
  · rw [← List.append_nil a]
    refine parses_skipFuel hh fun b hb hhead => ?_
    rw [skipContent, if_neg (by omega), if_neg (by omega), if_neg (by omega), if_neg (by omega),
      if_neg (by omega), if_neg]
    · exact parses_pure ()
    · intro h'
      obtain ⟨rfl, hlt⟩ := h'
      have := hn hhead
      omega

theorem IsHead.noBreak {major : ℕ} {arg : Option ℕ} {h : Bytes} (hh : IsHead major arg h)
    (hm : major ≠ 7) (content : Bytes) : NoBreak (h ++ content) :=
  NoBreak.append (hh.ne_break (Or.inl hm)) content

theorem IsHead.length_pos {major : ℕ} {arg : Option ℕ} {h : Bytes} (hh : IsHead major arg h) :
    0 < h.length := by
  obtain ⟨b, t, rfl, -⟩ := hh.cons
  simp only [List.length_cons]
  omega

theorem skipFuel_below_of_le {k m : ℕ} (h : k ≤ m) : Below (skipFuel k) (skipFuel m) :=
  below_le skipFuel_below h

/-- A head with its content is one piece in front of the others. -/
theorem IsHead.elements {n major k l : ℕ} {arg : Option ℕ} {h content bs : Bytes}
    (hh : IsHead major arg h) (hm : major ≠ 7) (hl : l ≤ content.length + bs.length)
    (hk : k ≤ content.length + bs.length)
    (hc : ∀ b, majorOf b = major → Parses (skipContent (skipFuel l) b arg) content ())
    (hs : Elements (skipFuel k) n bs) :
    Elements (skipFuel (h ++ content ++ bs).length) (n + 1) (h ++ content ++ bs) := by
  have hpos := hh.length_pos
  have hskip := parses_skipFuel hh fun b hb _ => hc b hb
  rw [List.length_append, List.length_append]
  apply Elements.cons
  · exact hskip.below (skipFuel_below_of_le (by omega))
  · exact hh.noBreak hm content
  · exact hs.below (skipFuel_below_of_le (by omega))

/-- The pieces of an input of `n` items, each skipped within the length of the input. -/
theorem Items.elements {n : ℕ} {bs : Bytes} (h : Items n bs) :
    Elements (skipFuel bs.length) n bs := by
  induction h with
  | nil => exact elements_nil _
  | @atom n a bs ha _ ih =>
    have hpos := ha.noBreak.length_pos
    rw [List.length_append]
    refine Elements.cons ?_ ha.noBreak (ih.below (skipFuel_below_of_le (by omega)))
    exact (ha.skipped 0).below (skipFuel_below_of_le (by omega))
  | @array n k h inner bs hh _ _ ihi ihs =>
    rw [← List.append_assoc]
    refine hh.elements (l := inner.length) (by omega) (by omega) (by omega) (fun b hb => ?_) ihs
    rw [skipContent, if_neg (by omega), if_neg (by omega), if_pos hb]
    exact ihi.times
  | @arrayIndefinite n k h inner bs hh _ _ ihi ihs =>
    have hlength : (inner ++ [breakByte]).length = inner.length + 1 := List.length_append
    rw [List.append_cons, ← List.append_assoc]
    refine hh.elements (l := inner.length) (by omega) (by omega) (by omega) (fun b hb => ?_) ihs
    rw [skipContent, if_neg (by omega), if_pos hb]
    exact ihi.untilByte
  | @map n k h inner bs hh _ _ ihi ihs =>
    rw [← List.append_assoc]
    refine hh.elements (l := inner.length) (by omega) (by omega) (by omega) (fun b hb => ?_) ihs
    rw [skipContent, if_neg (by omega), if_neg (by omega), if_neg (by omega), if_pos hb]
    exact ihi.times
  | @mapIndefinite n k h inner bs hh _ _ ihi ihs =>
    have hlength : (inner ++ [breakByte]).length = inner.length + 1 := List.length_append
    rw [List.append_cons, ← List.append_assoc]
    refine hh.elements (l := inner.length) (by omega) (by omega) (by omega) (fun b hb => ?_) ihs
    rw [skipContent, if_neg (by omega), if_neg (by omega), if_pos hb]
    exact ihi.pairs.untilByte
  | @tag n t h bs hh _ ih =>
    obtain ⟨p, more, rfl, hp, hb, hmore⟩ := ih.uncons
    have hlength : (p ++ more).length = p.length + more.length := List.length_append
    rw [← List.append_assoc]
    refine hh.elements (l := (p ++ more).length) (by omega) (by omega) (by omega)
      (fun b hb => ?_) hmore
    rw [skipContent, if_neg (by omega), if_neg (by omega), if_neg (by omega), if_neg (by omega),
      if_pos hb]
    exact hp

/-! Only well-formed items are skipped. -/

theorem majorOf_lt (b : UInt8) : majorOf b < 8 := by
  have hb := b.toNat_lt
  unfold majorOf
  omega

theorem Reads.discard {α : Type} {x : Decoder α} {P : α → Bytes → Prop} {Q : Bytes → Prop}
    (h : Reads x P) (hPQ : ∀ a used, P a used → Q used) : Reads (discard x) fun _ used => Q used :=
  Reads.map h hPQ

theorem skipChunk_reads (major : ℕ) :
    Reads (skipChunk major) fun _ used => IsString major used := by
  apply (headOf_reads major).bind
  intro arg h hh
  cases arg with
  | none => exact reads_fail
  | some n =>
    refine Reads.discard (take_reads n) ?_
    intro a used hused
    obtain ⟨rfl, hlen⟩ := hused
    exact ⟨n, h, used, hh, hlen, rfl⟩

theorem items_of_forall₂ {α : Type} {k : ℕ} {as : List α} {parts : List Bytes}
    (h : List.Forall₂ (fun _ used => Items k used) as parts) :
    Items (k * as.length) parts.flatten := by
  rw [h.length_eq]
  exact items_flatten (forall_parts h fun _ _ hp => hp)

/-- Behind a head without an argument, up to the break byte. -/
theorem skipContent_none_reads {item : Decoder Unit}
    (hi : Reads item fun _ used => WellFormed used) {b : UInt8} {h : Bytes}
    (hh : IsHead (majorOf b) none h) :
    Reads (skipContent item b none) fun _ used => WellFormed (h ++ used) := by
  rw [skipContent]
  split
  · rename_i hm
    refine Reads.discard ((skipChunk_reads _).untilByte breakByte) ?_
    intro as used hused
    obtain ⟨parts, rfl, hparts⟩ := hused
    exact (Atom.chunked hm hh (forall_parts hparts fun _ _ hc => hc)).wellFormed
  · split
    · rename_i hm
      rw [hm] at hh
      refine Reads.discard (hi.untilByte breakByte) ?_
      intro as used hused
      obtain ⟨parts, rfl, hparts⟩ := hused
      have hinner := items_of_forall₂ hparts
      exact Items.arrayIndefinite hh hinner Items.nil
    · split
      · rename_i hm
        rw [hm] at hh
        have hpair : Reads (item >>= fun _ => item) fun _ used => Items 2 used :=
          hi.bind fun _ _ ha => hi.mono fun _ _ hb => Items.append ha hb
        refine Reads.discard (hpair.untilByte breakByte) ?_
        intro as used hused
        obtain ⟨parts, rfl, hparts⟩ := hused
        exact Items.mapIndefinite hh (items_of_forall₂ hparts) Items.nil
      · exact reads_fail

/-- Behind a head with an argument, by the head's major type. -/
theorem skipContent_some_reads {item : Decoder Unit}
    (hi : Reads item fun _ used => WellFormed used) {b : UInt8} {n : ℕ} {h : Bytes}
    (hh : IsHead (majorOf b) (some n) h) (hb : h.head? = some b) :
    Reads (skipContent item b (some n)) fun _ used => WellFormed (h ++ used) := by
  have hlt := majorOf_lt b
  rw [skipContent]
  split
  · rename_i hm
    refine reads_pure ?_
    rw [List.append_nil]
    exact (Atom.int hm hh).wellFormed
  · split
    · rename_i hm
      refine Reads.discard (take_reads n) ?_
      intro a used hused
      obtain ⟨rfl, hlen⟩ := hused
      exact (Atom.string (by omega) ⟨n, h, used, hh, hlen, rfl⟩).wellFormed
    · split
      · rename_i hm
        rw [hm] at hh
        refine Reads.discard (hi.times n) ?_
        intro as used hused
        obtain ⟨rfl, parts, rfl, hparts⟩ := hused
        have hinner := items_of_forall₂ hparts
        rw [Nat.one_mul] at hinner
        have hitems := Items.array hh hinner Items.nil
        rwa [List.append_nil] at hitems
      · split
        · rename_i hm
          rw [hm] at hh
          refine Reads.discard (hi.times (2 * n)) ?_
          intro as used hused
          obtain ⟨hlen, parts, rfl, hparts⟩ := hused
          have hinner := items_of_forall₂ hparts
          rw [Nat.one_mul, hlen] at hinner
          have hitems := Items.map hh hinner Items.nil
          rwa [List.append_nil] at hitems
        · split
          · rename_i hm
            rw [hm] at hh
            exact hi.mono fun _ used hu => Items.tag hh hu
          · split
            · exact reads_fail
            · rename_i hsimple
              have hm : majorOf b = 7 := by omega
              rw [hm] at hh
              refine reads_pure ?_
              rw [List.append_nil]
              refine (Atom.simple hh fun h8 => ?_).wellFormed
              rw [hb, Option.some.injEq] at h8
              by_contra hlt'
              exact hsimple ⟨h8, by omega⟩

theorem skipContent_reads {item : Decoder Unit} (hi : Reads item fun _ used => WellFormed used)
    {b : UInt8} {arg : Option ℕ} {h : Bytes} (hh : IsHead (majorOf b) arg h)
    (hb : h.head? = some b) :
    Reads (skipContent item b arg) fun _ used => WellFormed (h ++ used) := by
  cases arg with
  | none => exact skipContent_none_reads hi hh
  | some n => exact skipContent_some_reads hi hh hb

/-- What is skipped is one complete item, by induction on the depth. -/
theorem skipFuel_reads (fuel : ℕ) : Reads (skipFuel fuel) fun _ used => WellFormed used := by
  induction fuel with
  | zero => exact reads_fail
  | succ fuel ih =>
    apply peek_bind_reads
    intro b bs c rest hrun
    obtain ⟨arg, mid, harg, hcontent⟩ := bind_ok_iff.mp hrun
    obtain ⟨h, hbs, hh⟩ := headOf_reads _ _ _ _ harg
    have hb : h.head? = some b := by
      obtain ⟨b', t, rfl, -⟩ := hh.cons
      rw [List.cons_append, List.cons.injEq] at hbs
      rw [List.head?_cons, hbs.1]
    obtain ⟨used, rfl, hwf⟩ := skipContent_reads ih hh hb _ _ _ hcontent
    exact ⟨h ++ used, by rw [hbs, List.append_assoc], hwf⟩

theorem skipItem_reads : Reads skipItem fun _ used => WellFormed used := by
  intro bs a rest hrun
  obtain ⟨n, hn⟩ := byLength_ok hrun
  exact skipFuel_reads n bs a rest hn

theorem WellFormed.skipped {bs : Bytes} (h : WellFormed bs) : Parses skipItem bs () := by
  obtain ⟨p, more, rfl, hp, -, hmore⟩ := (Items.elements h).uncons
  obtain ⟨ps, hlen, rfl, -⟩ := hmore
  obtain rfl := List.length_eq_zero_iff.mp hlen
  simp only [encodings_nil, List.append_nil] at hp ⊢
  exact fun rest => byLength_of_ok (by simp only [List.length_append]; omega) (hp rest)

/-- Items in a row are the concatenation of well-formed items, in one way only. -/
theorem items_iff {n : ℕ} {bs : Bytes} :
    Items n bs ↔ ∃ parts : List Bytes, parts.length = n ∧ bs = parts.flatten ∧
      ∀ p ∈ parts, WellFormed p := by
  constructor
  · intro h
    obtain ⟨ps, rfl, rfl, hps⟩ := h.elements
    refine ⟨ps.map Prod.snd, List.length_map _, rfl, ?_⟩
    intro q hq
    obtain ⟨p, hp, rfl⟩ := List.mem_map.mp hq
    obtain ⟨used, hused, hwf⟩ := skipFuel_reads _ _ _ _ (hps p hp).1.run
    rwa [hused, List.append_nil]
  · intro h'
    obtain ⟨parts, rfl, rfl, hparts⟩ := h'
    have hitems := items_flatten hparts
    rwa [Nat.one_mul] at hitems

theorem WellFormed.noBreak {bs : Bytes} (h : WellFormed bs) : NoBreak bs := by
  obtain ⟨p, more, rfl, -, hb, -⟩ := (Items.elements h).uncons
  exact hb.append more

theorem WellFormed.parses_skip {bs : Bytes} (h : WellFormed bs) : Parses skip bs () := by
  obtain ⟨b, t, hbs, hb⟩ := h.noBreak
  intro rest
  have hskip := h.skipped rest
  rw [hbs, List.cons_append] at hskip ⊢
  simp only [skip, atBreak, bind_run, peek_run_cons, pure_run, beq_eq_false_iff_ne.mpr hb,
    Bool.false_eq_true, if_false, hskip]

/-- No well-formed item is a strict prefix of another. -/
theorem WellFormed.unique {u v rest rest' : Bytes} (hu : WellFormed u) (hv : WellFormed v)
    (heq : u ++ rest = v ++ rest') : u = v ∧ rest = rest' :=
  (hu.skipped.unique hv.skipped heq).2

end Hermod.Cbor
