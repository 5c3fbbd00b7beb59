import Hermod.CborItems

/-!
What the primitive readers consume. Every reader of a single value uses exactly one
well-formed item, so only array heads, which are read apart from their elements, can
leave an item incomplete.
-/
namespace Hermod.Cbor

open Decoding Decoder

/-- Every success uses exactly one data item. -/
def ReadsItem {α : Type} (d : Decoder α) : Prop := Reads d fun _ used => WellFormed used

theorem ReadsItem.map {α β : Type} {x : Decoder α} (hx : ReadsItem x) (g : α → β) :
    ReadsItem (g <$> x) := Reads.map hx fun _ _ h => h

theorem isHead_int {major n : ℕ} {h : Bytes} (hm : major ≤ 1) (hh : IsHead major (some n) h) :
    WellFormed h := (Atom.int hm hh).wellFormed

theorem uint_reads (max : ℕ) : ReadsItem (uint max) := by
  apply (headOf_reads 0).bind
  intro arg h hh
  cases arg with
  | none => exact reads_fail
  | some n =>
    refine reads_ite (fun _ => reads_pure ?_) fun _ => reads_fail
    rw [List.append_nil]
    exact isHead_int (by omega) hh

theorem u8_reads : ReadsItem u8 := uint_reads _

theorem u16_reads : ReadsItem u16 := uint_reads _

theorem u64_reads : ReadsItem u64 := uint_reads _

theorem i64_reads : ReadsItem i64 := by
  apply peek_bind_reads
  intro b bs c rest hrun
  suffices h : ReadsItem (if majorOf b = 1 then _ else _) from h _ _ _ hrun
  refine reads_ite (fun _ => ?_) fun _ => ?_
  · apply (headOf_reads 1).bind
    intro arg h hh
    cases arg with
    | none => exact reads_fail
    | some n =>
      refine reads_ite (fun _ => reads_pure ?_) fun _ => reads_fail
      rw [List.append_nil]
      exact isHead_int (by omega) hh
  · apply (uint_reads _).bind
    intro n h hh
    apply reads_pure
    rwa [List.append_nil]

theorem isHead_simple {b : UInt8} {arg : Bytes} {n : ℕ} (hb : majorOf b = 7) (hi : infoOf b ≠ 31)
    (h8 : b ≠ 0xf8) (harg : Parses (unsigned (infoOf b)) arg n) : WellFormed (b :: arg) := by
  have hh : IsHead 7 (some n) (b :: arg) := by
    intro rest
    rw [List.cons_append, headOf_run_cons hb, if_neg hi, map_run, harg rest]
  refine (Atom.simple hh fun hhead => ?_).wellFormed
  rw [List.head?_cons, Option.some.injEq] at hhead
  exact absurd hhead h8

theorem bool_reads : ReadsItem bool := by
  apply byte_reads.bind
  intro b used heq
  subst heq
  refine reads_ite (fun hb => reads_pure ?_) fun _ =>
    reads_ite (fun hb => reads_pure ?_) fun _ => reads_fail
  · subst hb
    exact @isHead_simple _ [] 20 rfl (by decide) (by decide) (parses_pure 20)
  · subst hb
    exact @isHead_simple _ [] 21 rfl (by decide) (by decide) (parses_pure 21)

theorem isString_reads {major : ℕ} {n : ℕ} {h : Bytes} (hh : IsHead major (some n) h) :
    Reads (take n) fun _ more => IsString major (h ++ more) := by
  refine (take_reads n).mono ?_
  intro a used hused
  obtain ⟨rfl, hlen⟩ := hused
  exact ⟨n, h, used, hh, hlen, rfl⟩

theorem bytes_reads : Reads bytes fun _ used => IsString 2 used := by
  apply (headOf_reads 2).bind
  intro arg h hh
  cases arg with
  | none => exact reads_fail
  | some n => exact isString_reads hh

theorem bytesIter_reads : ReadsItem bytesIter := by
  apply (headOf_reads 2).bind
  intro arg h hh
  cases arg with
  | none =>
    refine (bytes_reads.untilByte breakByte).map ?_
    intro as used hused
    obtain ⟨parts, rfl, hparts⟩ := hused
    exact (Atom.chunked (Or.inl rfl) hh (forall_parts hparts fun _ _ hc => hc)).wellFormed
  | some n => exact (isString_reads hh).mono fun _ _ hs => (Atom.string (Or.inl rfl) hs).wellFormed

theorem str_reads : ReadsItem str := by
  apply (headOf_reads 3).bind
  intro arg h hh
  cases arg with
  | none => exact reads_fail
  | some n =>
    apply (isString_reads hh).bind
    intro bs more hs
    cases String.fromUTF8? ⟨bs.toArray⟩ with
    | none => exact reads_fail
    | some s =>
      apply reads_pure
      rw [List.append_nil]
      exact (Atom.string (Or.inr rfl) hs).wellFormed

theorem beUInt_reads {b : UInt8} {k : ℕ} (hb : majorOf b = 7) (hi : infoOf b ≠ 31)
    (h8 : b ≠ 0xf8) (hk : unsigned (infoOf b) = beUInt k) :
    Reads (beUInt k) fun _ used => WellFormed (b :: used) := by
  refine ((take_local k).map beNat).mono ?_
  intro n used hn
  exact isHead_simple hb hi h8 (by rw [hk]; exact hn)

theorem f64_reads : ReadsItem f64 := by
  apply byte_reads.bind
  intro b used heq
  subst heq
  refine reads_ite ?_ fun _ => reads_ite ?_ fun _ => reads_ite ?_ fun _ => reads_fail
  · intro heq
    subst heq
    exact (@beUInt_reads 0xf9 2 rfl (by decide) (by decide) rfl).map fun _ _ h => h
  · intro heq
    subst heq
    exact (@beUInt_reads 0xfa 4 rfl (by decide) (by decide) rfl).map fun _ _ h => h
  · intro heq
    subst heq
    exact (@beUInt_reads 0xfb 8 rfl (by decide) (by decide) rfl).map fun _ _ h => h

theorem tag_reads : Reads tag fun t h => IsHead 6 (some t) h := by
  apply (headOf_reads 6).bind
  intro arg h hh
  cases arg with
  | none => exact reads_fail
  | some n =>
    apply reads_pure
    rwa [List.append_nil]

/-! The numbers that heads carry. -/

theorem beNat_lt (bs : Bytes) : beNat bs < 256 ^ bs.length := by
  induction bs using List.reverseRecOn with
  | nil => exact Nat.one_pos
  | append_singleton bs b ih =>
    have hb := b.toNat_lt
    rw [beNat_append_singleton, List.length_append, List.length_singleton, Nat.pow_succ]
    omega

theorem beUInt_lt {k : ℕ} (hk : k ≤ 8) : Reads (beUInt k) fun n _ => n < 2 ^ 64 := by
  refine (take_reads k).map ?_
  intro a used hused
  obtain ⟨-, rfl⟩ := hused
  calc beNat a < 256 ^ a.length := beNat_lt a
    _ ≤ 256 ^ 8 := Nat.pow_le_pow_right (by omega) hk
    _ = 2 ^ 64 := by norm_num

theorem unsigned_lt (info : ℕ) : Reads (unsigned info) fun n _ => n < 2 ^ 64 := by
  unfold unsigned
  refine reads_ite (fun _ => reads_pure (by omega)) fun _ => reads_ite (fun _ => ?_) fun _ =>
    reads_ite (fun _ => ?_) fun _ => reads_ite (fun _ => ?_) fun _ =>
      reads_ite (fun _ => ?_) fun _ => reads_fail
  all_goals exact beUInt_lt (by omega)

theorem headOf_lt (major : ℕ) :
    Reads (headOf major) fun arg _ => ∀ n, arg = some n → n < 2 ^ 64 := by
  refine byte_reads.bind fun b _ _ => reads_ite (fun _ => ?_) fun _ => reads_fail
  refine reads_ite (fun _ => reads_pure nofun) fun _ => (unsigned_lt _).map ?_
  intro n _ hn m hm
  rwa [← Option.some.inj hm]

theorem IsHead.lt {major n : ℕ} {h : Bytes} (hh : IsHead major (some n) h) : n < 2 ^ 64 := by
  obtain ⟨-, -, hlt⟩ := headOf_lt major h (some n) [] (Parses.run hh)
  exact hlt n rfl

theorem uint_readsHead (max : ℕ) : Reads (uint max) fun n h => IsHead 0 (some n) h := by
  apply (headOf_reads 0).bind
  intro arg h hh
  cases arg with
  | none => exact reads_fail
  | some n =>
    refine reads_ite (fun _ => reads_pure ?_) fun _ => reads_fail
    rwa [List.append_nil]

theorem ReadsItem.wellFormed {α : Type} {d : Decoder α} (hd : ReadsItem d) {bs : Bytes} {a : α}
    (h : Parses d bs a) : WellFormed bs := by
  obtain ⟨used, hused, hwf⟩ := hd bs a [] h.run
  rwa [hused, List.append_nil]

end Hermod.Cbor
