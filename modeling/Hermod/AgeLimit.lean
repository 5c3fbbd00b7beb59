import Mathlib.Tactic.NormNum
import Hermod.Rotation

/-!
The age limit of the pruning against the age that a file really has. The configured
number of hours is cast to a signed number before it is made a duration, so the upper
end of its range wraps to a negative limit and the part in between is a panic; and the
modification time is taken in whole seconds and not before the epoch.
-/
namespace Hermod.AgeLimit

open ProtocolTypes Rotation
open LogWriter (Dir)

def longest : ℕ := 2562047788015

/-- The times that the clock can show, in nanoseconds. -/
def Instant (now : ℤ) : Prop :=
  -8334601228800 * 10 ^ 9 ≤ now ∧ now < 8210266876800 * 10 ^ 9

/-- The modification times that a file can have: their seconds are 64 bits wide. -/
def Modified (mtime : ℤ) : Prop := -2 ^ 63 * 10 ^ 9 ≤ mtime ∧ mtime < 2 ^ 63 * 10 ^ 9

/-- The file is older than the hours of the limit, which is off where it is zero. -/
def Expired (maxAgeHours : UInt64) (now mtime : ℤ) : Prop :=
  0 < maxAgeHours ∧ maxAgeHours.toNat * 3600 * 10 ^ 9 < now - mtime

def Meets (maxAgeHours : UInt64) (now mtime : ℤ) : Prop :=
  ∃ age, maxAge maxAgeHours = some age ∧
    (TooOld maxAgeHours age now mtime ↔ Expired maxAgeHours now mtime)

def Deletes (maxAgeHours : UInt64) (now mtime : ℤ) : Prop :=
  ∃ age, maxAge maxAgeHours = some age ∧ TooOld maxAgeHours age now mtime

def Removes (d : Dir) (extension : String) (maxAgeHours : UInt64) (keepFilesNum : UInt32)
    (now : ℤ) (listing : List String) (name : String) : Prop :=
  d.lookup name ≠ none ∧ ∃ d', pruneDir d extension maxAgeHours keepFilesNum now listing = some d' ∧
    d'.lookup name = none

def RemovesNoMore (smaller larger : UInt64) : Prop :=
  ∀ (d : Dir) (extension : String) (keepFilesNum : UInt32) (now : ℤ) (listing : List String)
    (name : String), Instant now →
    (∀ n mtime, (d.lookup n).bind modified = some mtime → Modified mtime) →
    listing.Perm d.keys → Removes d extension larger keepFilesNum now listing name →
    Removes d extension smaller keepFilesNum now listing name

def recorded (mtime : ℤ) : ℤ := max mtime 0 / 10 ^ 9 * 10 ^ 9

/-- The limit falls between the age of the file and the age by its recorded time. -/
def Rounded (limit now mtime : ℤ) : Prop :=
  now - max mtime (recorded mtime) ≤ limit ∧ limit < now - min mtime (recorded mtime)

/-- There is no limit, or it is a duration and no rounding decides, or it has wrapped and
the file is dated that far in the future. -/
def Accurate (maxAgeHours : UInt64) (now mtime : ℤ) : Prop :=
  maxAgeHours = 0 ∨
  maxAgeHours.toNat ≤ longest ∧ ¬ Rounded (maxAgeHours.toNat * 3600 * 10 ^ 9) now mtime ∨
  2 ^ 64 ≤ maxAgeHours.toNat + longest ∧ recorded mtime < 8210266876800 * 10 ^ 9 ∧
    now + (2 ^ 64 - maxAgeHours.toNat) * 3600 * 10 ^ 9 ≤ recorded mtime

theorem instant_zero : Instant 0 := by
  unfold Instant
  omega

theorem modified_zero : Modified 0 := by
  unfold Modified
  omega

theorem toInt_toInt64 (n : UInt64) :
    n.toInt64.toInt = if n.toNat < 2 ^ 63 then (n.toNat : ℤ) else n.toNat - 2 ^ 64 := by
  have hbits : n.toInt64.toInt = n.toBitVec.toInt := rfl
  rw [hbits, BitVec.toInt_eq_toNat_cond, UInt64.toNat_toBitVec]
  by_cases hn : n.toNat < 2 ^ 63
  · rw [if_pos hn, if_pos (by omega)]
  · rw [if_neg hn, if_neg (by omega)]
    rfl

section Limit

variable {maxAgeHours : UInt64}

theorem maxAge_of_le (h : maxAgeHours.toNat ≤ longest) :
    maxAge maxAgeHours = some ((maxAgeHours.toNat : ℤ) * 3600 * 10 ^ 9) := by
  unfold longest at h
  have hlt : maxAgeHours.toNat < 2 ^ 63 := by omega
  have habs : |(maxAgeHours.toNat : ℤ) * 3600| ≤ 9223372036854775 := by
    rw [abs_le]
    omega
  rw [maxAge, toInt_toInt64, if_pos hlt, hours, if_pos habs]

/-- Beyond the signed range the cast gives a negative limit. -/
theorem maxAge_of_wrapped (h : 2 ^ 64 ≤ maxAgeHours.toNat + longest) :
    maxAge maxAgeHours = some (((maxAgeHours.toNat : ℤ) - 2 ^ 64) * 3600 * 10 ^ 9) := by
  unfold longest at h
  have hge : ¬ maxAgeHours.toNat < 2 ^ 63 := by omega
  have hlt := maxAgeHours.toNat_lt
  have habs : |((maxAgeHours.toNat : ℤ) - 2 ^ 64) * 3600| ≤ 9223372036854775 := by
    rw [abs_le]
    omega
  rw [maxAge, toInt_toInt64, if_neg hge, hours, if_pos habs]

/-- A limit that is too long for a duration, but does not wrap into one, panics. -/
theorem maxAge_of_between (hlow : longest < maxAgeHours.toNat)
    (hhigh : maxAgeHours.toNat + longest < 2 ^ 64) : maxAge maxAgeHours = none := by
  unfold longest at hlow hhigh
  rw [maxAge, toInt_toInt64, hours, if_neg]
  rw [abs_le]
  by_cases hlt : maxAgeHours.toNat < 2 ^ 63
  · rw [if_pos hlt]
    omega
  · rw [if_neg hlt]
    omega

end Limit

/-- A file dated beyond the calendar counts as new. -/
theorem fileAge_eq (now mtime : ℤ) :
    fileAge now mtime =
      if recorded mtime < 8210266876800 * 10 ^ 9 then now - recorded mtime else 0 := by
  have hvalid : ValidTimestamp (max mtime 0 / 10 ^ 9) 0 ↔
      recorded mtime < 8210266876800 * 10 ^ 9 := by
    simp only [ValidTimestamp, recorded]
    omega
  unfold fileAge DateTime.fromTimestamp
  by_cases h : recorded mtime < 8210266876800 * 10 ^ 9
  · simp only [dif_pos (hvalid.mpr h), if_pos h]
    rfl
  · simp only [dif_neg (mt hvalid.mp h), if_neg h]

section Age

variable {maxAgeHours : UInt64} {now mtime : ℤ}

theorem tooOld_iff (maxAgeHours : UInt64) (age now mtime : ℤ) :
    TooOld maxAgeHours age now mtime ↔ 0 < maxAgeHours.toNat ∧
      age < if recorded mtime < 8210266876800 * 10 ^ 9 then now - recorded mtime else 0 := by
  rw [TooOld, fileAge_eq, UInt64.lt_iff_toNat_lt]
  rfl

theorem expired_iff (maxAgeHours : UInt64) (now mtime : ℤ) :
    Expired maxAgeHours now mtime ↔ 0 < maxAgeHours.toNat ∧
      maxAgeHours.toNat * 3600 * 10 ^ 9 < now - mtime := by
  rw [Expired, UInt64.lt_iff_toNat_lt]
  rfl

theorem meets_iff_of_some {age : ℤ} (hage : maxAge maxAgeHours = some age) :
    Meets maxAgeHours now mtime ↔
      (TooOld maxAgeHours age now mtime ↔ Expired maxAgeHours now mtime) := by
  simp [Meets, hage]

theorem deletes_iff_of_some {age : ℤ} (hage : maxAge maxAgeHours = some age) :
    Deletes maxAgeHours now mtime ↔ TooOld maxAgeHours age now mtime := by
  simp [Deletes, hage]

theorem not_deletes_of_none (hage : maxAge maxAgeHours = none) :
    ¬ Deletes maxAgeHours now mtime := by
  simp [Deletes, hage]

/-- A limit that is a duration is met up to the rounding of the modification time. -/
theorem meets_iff_of_le (hnow : Instant now) (h : maxAgeHours.toNat ≤ longest) :
    Meets maxAgeHours now mtime ↔
      maxAgeHours.toNat = 0 ∨ ¬ Rounded (maxAgeHours.toNat * 3600 * 10 ^ 9) now mtime := by
  rw [meets_iff_of_some (maxAge_of_le h), tooOld_iff, expired_iff, Rounded]
  obtain ⟨-, hnow⟩ := hnow
  by_cases hcal : recorded mtime < 8210266876800 * 10 ^ 9
  · rw [if_pos hcal]
    omega
  · rw [if_neg hcal]
    have hle : recorded mtime ≤ mtime := by
      unfold recorded at hcal ⊢
      omega
    omega

/-- A limit that has wrapped is negative, while no file can be as old as it says. -/
theorem meets_iff_of_wrapped (hnow : Instant now) (hmtime : Modified mtime)
    (h : 2 ^ 64 ≤ maxAgeHours.toNat + longest) :
    Meets maxAgeHours now mtime ↔ recorded mtime < 8210266876800 * 10 ^ 9 ∧
      now + (2 ^ 64 - maxAgeHours.toNat) * 3600 * 10 ^ 9 ≤ recorded mtime := by
  rw [meets_iff_of_some (maxAge_of_wrapped h), tooOld_iff, expired_iff]
  unfold longest at h
  have hlt := maxAgeHours.toNat_lt
  obtain ⟨-, hnow⟩ := hnow
  obtain ⟨hmtime, -⟩ := hmtime
  have hyoung : ¬ (maxAgeHours.toNat : ℤ) * 3600 * 10 ^ 9 < now - mtime := by omega
  by_cases hcal : recorded mtime < 8210266876800 * 10 ^ 9
  · rw [if_pos hcal]
    omega
  · rw [if_neg hcal]
    omega

/-- A limit marks what has expired exactly when it is accurate. -/
theorem meets_iff (hnow : Instant now) (hmtime : Modified mtime) :
    Meets maxAgeHours now mtime ↔ Accurate maxAgeHours now mtime := by
  have hzero : maxAgeHours = 0 ↔ maxAgeHours.toNat = 0 := by
    rw [← UInt64.toNat_inj]
    rfl
  rw [Accurate, hzero]
  by_cases hlow : maxAgeHours.toNat ≤ longest
  · have hnot : ¬ 2 ^ 64 ≤ maxAgeHours.toNat + longest := by
      unfold longest at hlow ⊢
      omega
    rw [meets_iff_of_le hnow hlow]
    simp only [hlow, hnot, true_and, false_and, or_false]
  · have hpos : maxAgeHours.toNat ≠ 0 := by omega
    by_cases hhigh : 2 ^ 64 ≤ maxAgeHours.toNat + longest
    · rw [meets_iff_of_wrapped hnow hmtime hhigh]
      simp only [hlow, hhigh, hpos, true_and, false_and, false_or]
    · have hnone : maxAge maxAgeHours = none :=
        maxAge_of_between (by omega) (by omega)
      have hno : ¬ Meets maxAgeHours now mtime := by simp [Meets, hnone]
      simp only [hno, hlow, hhigh, hpos, false_and, or_false]

end Age

/-- A pass removes what the limit or the rank marks, but for directories. -/
theorem removes_iff {d : Dir} {extension : String} {maxAgeHours : UInt64} {keepFilesNum : UInt32}
    {now : ℤ} {listing : List String} {name : String} :
    Removes d extension maxAgeHours keepFilesNum now listing name ↔ d.lookup name ≠ none ∧
      ∃ age, maxAge maxAgeHours = some age ∧
        (d.lookup name).any LogWriter.Entry.isDirectory = false ∧
          ∃ f ∈ ((files d extension listing).insertionSort NotOlder).zipIdx, f.1.1 = name ∧
            (TooOld maxAgeHours age now f.1.2 ∨ ExceedsCount keepFilesNum f.2) := by
  refine and_congr_right fun hname => ?_
  constructor
  · rintro ⟨d', hprune, hnone⟩
    obtain ⟨age, hage, rfl⟩ := Option.map_eq_some_iff.mp hprune
    rw [lookup_removeMarked_eq_none_iff _ _ hname] at hnone
    obtain ⟨hdir, f, hf, hfname, hmark⟩ := hnone
    exact ⟨age, hage, hdir, f, hf, hfname, of_decide_eq_true hmark⟩
  · rintro ⟨age, hage, hdir, f, hf, hfname, hmark⟩
    refine ⟨_, Option.map_eq_some_iff.mpr ⟨age, hage, rfl⟩, ?_⟩
    rw [lookup_removeMarked_eq_none_iff _ _ hname]
    exact ⟨hdir, f, hf, hfname, decide_eq_true hmark⟩

def single (mtime : ℤ) : Dir := AList.singleton "node-0.log" (.file ⟨0, "", mtime⟩)

/-- The only file, which the count spares, is removed where it is deleted for its age. -/
theorem removes_single_iff (maxAgeHours : UInt64) (now mtime : ℤ) :
    Removes (single mtime) "log" maxAgeHours 1 now ["node-0.log"] "node-0.log" ↔
      Deletes maxAgeHours now mtime := by
  have hlog : isLogName "log" "node-0.log" = true := by decide
  have hentry : (single mtime).lookup "node-0.log" = some (.file ⟨0, "", mtime⟩) := rfl
  have hfiles : files (single mtime) "log" ["node-0.log"] = [("node-0.log", mtime)] := by
    simp [files, hlog, hentry, modified]
  have hcount : ¬ ExceedsCount 1 0 := by decide
  rw [removes_iff, hentry, hfiles]
  simp [Deletes, hcount, LogWriter.Entry.isDirectory]

/-- Where the larger limit has not wrapped, or both have, it marks no more files. -/
theorem tooOld_mono {h h' : UInt64} (hpos : 0 < h) (hle : h ≤ h')
    (hcases : h'.toNat + longest < 2 ^ 64 ∨ 2 ^ 64 ≤ h.toNat + longest) {age' : ℤ}
    (hage' : maxAge h' = some age') :
    ∃ age, maxAge h = some age ∧
      ∀ now mtime, TooOld h' age' now mtime → TooOld h age now mtime := by
  rw [UInt64.lt_iff_toNat_lt] at hpos
  rw [UInt64.le_iff_toNat_le] at hle
  have hpos : 0 < h.toNat := hpos
  by_cases hwrapped : 2 ^ 64 ≤ h.toNat + longest
  · have hwrapped' : 2 ^ 64 ≤ h'.toNat + longest := by omega
    rw [maxAge_of_wrapped hwrapped', Option.some.injEq] at hage'
    refine ⟨_, maxAge_of_wrapped hwrapped, fun now mtime hold => ?_⟩
    rw [tooOld_iff] at hold ⊢
    omega
  · have hsmall : h'.toNat + longest < 2 ^ 64 := by omega
    by_cases hlow : h'.toNat ≤ longest
    · rw [maxAge_of_le hlow, Option.some.injEq] at hage'
      refine ⟨_, maxAge_of_le (by omega), fun now mtime hold => ?_⟩
      rw [tooOld_iff] at hold ⊢
      omega
    · rw [maxAge_of_between (by omega) hsmall] at hage'
      cases hage'

/-- A larger limit removes no more than a smaller one exactly when it has not wrapped or
both have. -/
theorem removesNoMore_iff {h h' : UInt64} (hpos : 0 < h) (hle : h ≤ h') :
    RemovesNoMore h h' ↔ h'.toNat + longest < 2 ^ 64 ∨ 2 ^ 64 ≤ h.toNat + longest := by
  constructor
  · intro hmono
    by_contra hno
    simp only [not_or, Nat.not_lt, Nat.not_le] at hno
    obtain ⟨hwrapped, hsmall⟩ := hno
    -- a file modified this instant
    have hnew : Deletes h' 0 0 := by
      rw [deletes_iff_of_some (maxAge_of_wrapped hwrapped), tooOld_iff]
      rw [UInt64.lt_iff_toNat_lt] at hpos
      rw [UInt64.le_iff_toNat_le] at hle
      have hpos : 0 < h.toNat := hpos
      have hlt := h'.toNat_lt
      simp only [recorded]
      omega
    have hdated : ∀ n mtime, ((single 0).lookup n).bind modified = some mtime → Modified mtime := by
      intro n mtime hmtime
      by_cases hn : n = "node-0.log"
      · subst hn
        have hzero : 0 = mtime := Option.some.inj hmtime
        rw [← hzero]
        exact modified_zero
      · have hnone : (single 0).lookup n = none := by
          simp [single, AList.lookup_eq_none, AList.mem_keys, AList.keys, Ne.symm, hn]
        rw [hnone] at hmtime
        cases hmtime
    have hdel := hmono (single 0) "log" 1 0 ["node-0.log"] "node-0.log" instant_zero hdated
      (List.Perm.refl _) ((removes_single_iff h' 0 0).mpr hnew)
    rw [removes_single_iff] at hdel
    by_cases hlow : h.toNat ≤ longest
    · rw [deletes_iff_of_some (maxAge_of_le hlow), tooOld_iff] at hdel
      simp only [recorded] at hdel
      omega
    · exact not_deletes_of_none (maxAge_of_between (by omega) hsmall) hdel
  · intro hcases d extension keepFilesNum now listing name _ _ _ hremoves
    rw [removes_iff] at hremoves ⊢
    obtain ⟨hname, age', hage', hdir, f, hf, hfname, hmark⟩ := hremoves
    obtain ⟨age, hage, hold⟩ := tooOld_mono hpos hle hcases hage'
    exact ⟨hname, age, hage, hdir, f, hf, hfname, hmark.imp_left (hold now f.1.2)⟩

/-- When a limit marks what has expired, and when a larger one removes no more. -/
theorem age_limit (h : UInt64) :
    (∀ now mtime, Instant now → Modified mtime → (Meets h now mtime ↔ Accurate h now mtime)) ∧
      ∀ h', 0 < h → h ≤ h' →
        (RemovesNoMore h h' ↔ h'.toNat + longest < 2 ^ 64 ∨ 2 ^ 64 ≤ h.toNat + longest) :=
  ⟨fun _ _ hnow hmtime => meets_iff hnow hmtime, fun _ hpos hle => removesNoMore_iff hpos hle⟩

theorem age_limit_day :
    (Meets 24 (25 * 3600 * 10 ^ 9) 0 ↔ Accurate 24 (25 * 3600 * 10 ^ 9) 0) ∧
      (RemovesNoMore 24 48 ↔
        (48 : UInt64).toNat + longest < 2 ^ 64 ∨ 2 ^ 64 ≤ (24 : UInt64).toNat + longest) :=
  ⟨(age_limit 24).1 _ _ (by unfold Instant; omega) modified_zero,
    (age_limit 24).2 48 (by decide) (by decide)⟩

/-- Under the largest limit a file modified this instant is too old, which it is not under
a limit of an hour; and a limit of 2562047788016 hours is a panic. -/
theorem largest_limit_deletes :
    ¬ Meets 18446744073709551615 0 0 ∧ Deletes 18446744073709551615 0 0 ∧ ¬ Deletes 1 0 0 ∧
      ∀ now mtime, ¬ Meets 2562047788016 now mtime := by
  have hlargest : maxAge 18446744073709551615 = some (-3600 * 10 ^ 9) := by decide +kernel
  have hhour : maxAge 1 = some (3600 * 10 ^ 9) := by decide +kernel
  have hpanic : maxAge 2562047788016 = none := by decide +kernel
  have hold : TooOld 18446744073709551615 (-3600 * 10 ^ 9) 0 0 := by decide +kernel
  refine ⟨?_, ⟨_, hlargest, hold⟩, ?_, ?_⟩
  · rw [meets_iff_of_some hlargest]
    intro hiff
    have hexpired := hiff.mp hold
    rw [expired_iff] at hexpired
    omega
  · rw [deletes_iff_of_some hhour]
    decide +kernel
  · intro now mtime hmeets
    obtain ⟨age, hage, -⟩ := hmeets
    rw [hpanic] at hage
    cases hage

end Hermod.AgeLimit
