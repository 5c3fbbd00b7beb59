import Hermod.Dispatcher
import Mathlib.Algebra.Order.Ring.Rat
import Mathlib.Tactic.Linarith

/-!
What a token bucket lets through. The bucket never holds more than it was created with,
which is one second's worth of its rate; so in any window it admits at most that much and
what the window refills. A bucket of less than one token, on the other hand, admits nothing.
-/
namespace Hermod.RateLimiter

open Dispatcher DispatcherConfig

def seconds (instant : ℕ) : ℚ := instant / 10 ^ 9

theorem seconds_mono {a b : ℕ} (h : a ≤ b) : seconds a ≤ seconds b := by
  unfold seconds
  gcongr

theorem seconds_sub {a b : ℕ} (h : a ≤ b) :
    ((b - a : ℕ) : ℚ) / 10 ^ 9 = seconds b - seconds a := by
  rw [Nat.cast_sub h, seconds, seconds, sub_div]

/-- A bucket of rate `f` in a state it can be in. -/
structure Within (f : ℚ) (b : TokenBucket) : Prop where
  capacity : b.maxTokens = f
  rate : b.refillRate = f
  nonneg : 0 ≤ b.tokens
  le : b.tokens ≤ f

variable {f : ℚ} {b : TokenBucket}

theorem within_new (hf : 0 ≤ f) (created : ℕ) : Within f (.new f created) :=
  ⟨rfl, rfl, hf, le_refl f⟩

theorem refill_tokens (h : Within f b) (now : ℕ) :
    (b.refill now).tokens = min (b.tokens + ((now - b.lastRefill : ℕ) : ℚ) / 10 ^ 9 * f) f := by
  rw [TokenBucket.refill, h.rate, h.capacity]

/-- Refilling stays within the capacity. -/
theorem Within.refill (hf : 0 ≤ f) (h : Within f b) (now : ℕ) : Within f (b.refill now) where
  capacity := h.capacity
  rate := h.rate
  nonneg := by
    have htokens := h.nonneg
    have helapsed : (0 : ℚ) ≤ ((now - b.lastRefill : ℕ) : ℚ) / 10 ^ 9 :=
      div_nonneg (Nat.cast_nonneg _) (by norm_num)
    have hgain := mul_nonneg helapsed hf
    rw [refill_tokens h]
    exact le_min (by linarith) hf
  le := by
    rw [refill_tokens h]
    exact min_le_right _ _

/-- What a call answers and how many tokens it leaves of those it finds after the refill. -/
theorem tryAcquire_cases (b : TokenBucket) (now : ℕ) :
    1 ≤ (b.refill now).tokens ∧ (b.tryAcquire now).1 = true ∧
        (b.tryAcquire now).2 = { b.refill now with tokens := (b.refill now).tokens - 1 } ∨
      (b.refill now).tokens < 1 ∧ (b.tryAcquire now).1 = false ∧
        (b.tryAcquire now).2 = b.refill now := by
  by_cases h : 1 ≤ (b.refill now).tokens
  · exact Or.inl ⟨h, by simp only [TokenBucket.tryAcquire, if_pos h, and_self]⟩
  · exact Or.inr ⟨not_le.mp h, by simp only [TokenBucket.tryAcquire, if_neg h, and_self]⟩

theorem Within.tryAcquire (hf : 0 ≤ f) (h : Within f b) (now : ℕ) :
    Within f (b.tryAcquire now).2 := by
  have hrefill := h.refill hf now
  rcases tryAcquire_cases b now with ⟨hone, -, hb⟩ | ⟨-, -, hb⟩
  · rw [hb]
    have hle := hrefill.le
    exact ⟨hrefill.capacity, hrefill.rate, by simp only; linarith, by simp only; linarith⟩
  · rwa [hb]

@[simp] theorem lastRefill_tryAcquire (b : TokenBucket) (now : ℕ) :
    (b.tryAcquire now).2.lastRefill = now := by
  rcases tryAcquire_cases b now with ⟨-, -, hb⟩ | ⟨-, -, hb⟩
  · rw [hb]
    rfl
  · rw [hb]
    rfl

def after (b : TokenBucket) (instants : List ℕ) : TokenBucket :=
  instants.foldl (fun b now => (b.tryAcquire now).2) b

theorem within_after (hf : 0 ≤ f) (h : Within f b) (instants : List ℕ) :
    Within f (after b instants) := by
  induction instants generalizing b with
  | nil => exact h
  | cons now instants ih => exact ih (h.tryAcquire hf now)

theorem after_concat (b : TokenBucket) (instants : List ℕ) (now : ℕ) :
    after b (instants ++ [now]) = ((after b instants).tryAcquire now).2 := by
  rw [after, List.foldl_append]
  rfl

/-- After a pause that refills one token, a call is admitted exactly when the bucket can
hold one: `f` is the rate, and the capacity as well. -/
theorem tryAcquire_after_pause_iff (hf : 0 < f) (created : ℕ) (history : List ℕ) (last now : ℕ)
    (hpause : 1 / f ≤ seconds now - seconds last) :
    ((after (.new f created) (history ++ [last])).tryAcquire now).1 = true ↔ 1 ≤ f := by
  have hwithin := within_after hf.le (within_new hf.le created) (history ++ [last])
  have hlast : (after (.new f created) (history ++ [last])).lastRefill = last := by
    rw [after_concat, lastRefill_tryAcquire]
  generalize after (.new f created) (history ++ [last]) = b at hwithin hlast
  have hle : last ≤ now := by
    by_contra hlt
    have hmono := seconds_mono (by omega : now ≤ last)
    have hpos := one_div_pos.mpr hf
    linarith
  have htokens := refill_tokens hwithin now
  have hgained : 1 ≤ (seconds now - seconds last) * f := (div_le_iff₀ hf).mp hpause
  rw [hlast, seconds_sub hle] at htokens
  have hnonneg := hwithin.nonneg
  have hfull : 1 ≤ (b.refill now).tokens ↔ 1 ≤ f := by
    rw [htokens, le_min_iff]
    exact and_iff_right (by linarith)
  rcases tryAcquire_cases b now with ⟨hone, hanswer, -⟩ | ⟨hone, hanswer, -⟩
  · exact iff_of_true hanswer (hfull.mp hone)
  · refine iff_of_false (by simp [hanswer]) fun h => ?_
    have := hfull.mpr h
    linarith

/-- At a rate of one message in two seconds, a call after two quiet seconds is dropped. -/
theorem half_starves :
    (0 : ℚ) < 1 / 2 ∧ 1 / (1 / 2) ≤ seconds 2000000000 - seconds 0 ∧
      ((after (.new (1 / 2) 0) [0]).tryAcquire 2000000000).1 = false := by
  refine ⟨by norm_num, by norm_num [seconds], ?_⟩
  norm_num [after, TokenBucket.tryAcquire, TokenBucket.refill, TokenBucket.new]

/-- At two messages a second, a call after a quiet second is admitted. -/
theorem tryAcquire_after_pause_iff_two :
    ((after (.new 2 0) ([0, 0] ++ [0])).tryAcquire 1000000000).1 = true :=
  (tryAcquire_after_pause_iff (by norm_num) 0 [0, 0] 0 1000000000
    (by norm_num [seconds])).mpr (by norm_num)

def answers (b : TokenBucket) : List ℕ → List (ℕ × Bool)
  | [] => []
  | now :: later => (now, (b.tryAcquire now).1) :: answers (b.tryAcquire now).2 later

def inWindow (s t : ℚ) (call : ℕ × Bool) : Bool :=
  call.2 && decide (s ≤ seconds call.1 ∧ seconds call.1 ≤ t)

def admitted (b : TokenBucket) (instants : List ℕ) (s t : ℚ) : ℕ :=
  (answers b instants).countP (inWindow s t)

theorem admitted_cons (b : TokenBucket) (now : ℕ) (later : List ℕ) (s t : ℚ) :
    admitted b (now :: later) s t =
      admitted (b.tryAcquire now).2 later s t +
        if inWindow s t (now, (b.tryAcquire now).1) then 1 else 0 := by
  rw [admitted, answers, List.countP_cons]
  rfl

/-- Nothing that comes after the window counts. -/
theorem admitted_eq_zero {instants : List ℕ} {s t : ℚ} (b : TokenBucket)
    (h : ∀ n ∈ instants, t < seconds n) : admitted b instants s t = 0 := by
  induction instants generalizing b with
  | nil => rfl
  | cons now later ih =>
    have hnow := h now (List.mem_cons_self ..)
    have hout : inWindow s t (now, (b.tryAcquire now).1) = false := by
      have hnot := not_le.mpr hnow
      simp [inWindow, hnot]
    rw [admitted_cons, ih _ fun n hn => h n (List.mem_cons_of_mem _ hn), hout]
    rfl

/-- A call pays for what it admits out of the tokens it finds. -/
theorem paid (b : TokenBucket) (now : ℕ) (s t : ℚ) :
    (if inWindow s t (now, (b.tryAcquire now).1) then 1 else 0 : ℕ) +
      (b.tryAcquire now).2.tokens ≤ (b.refill now).tokens := by
  rcases tryAcquire_cases b now with ⟨-, hanswer, hb⟩ | ⟨-, hanswer, hb⟩
  · rw [hb]
    split
    · simp
    · simp
  · have hout : inWindow s t (now, false) = false := by simp [inWindow]
    rw [hanswer, hb, hout]
    simp

/-- From a state on, at most the tokens at hand and those refilled until `t` are spent. -/
theorem admitted_le_of_tokens (hf : 0 ≤ f) (h : Within f b) {instants : List ℕ}
    (hsorted : instants.Pairwise (· ≤ ·)) (hlast : ∀ n ∈ instants, b.lastRefill ≤ n) {s t : ℚ}
    (ht : seconds b.lastRefill ≤ t) :
    (admitted b instants s t : ℚ) ≤ b.tokens + (t - seconds b.lastRefill) * f := by
  induction instants generalizing b with
  | nil =>
    have hnonneg := h.nonneg
    have hgain := mul_nonneg (sub_nonneg.mpr ht) hf
    simp only [admitted, answers, List.countP_nil, Nat.cast_zero]
    linarith
  | cons now later ih =>
    rw [List.pairwise_cons] at hsorted
    have hnow := hlast now (List.mem_cons_self ..)
    by_cases hin : seconds now ≤ t
    · have hloop := ih (h.tryAcquire hf now) hsorted.2
        (by simpa only [lastRefill_tryAcquire] using hsorted.1)
        (by simpa only [lastRefill_tryAcquire] using hin)
      have hpaid := paid b now s t
      have hrefill : (b.refill now).tokens ≤
          b.tokens + (seconds now - seconds b.lastRefill) * f := by
        rw [refill_tokens h, seconds_sub hnow]
        exact min_le_left _ _
      rw [lastRefill_tryAcquire] at hloop
      rw [admitted_cons, Nat.cast_add]
      linarith
    · have hout : ∀ n ∈ now :: later, t < seconds n := by
        intro n hn
        rcases List.mem_cons.mp hn with rfl | hn
        · exact not_le.mp hin
        · exact lt_of_lt_of_le (not_le.mp hin) (seconds_mono (hsorted.1 n hn))
      have hnonneg := h.nonneg
      have hgain := mul_nonneg (sub_nonneg.mpr ht) hf
      rw [admitted_eq_zero b hout]
      simp only [Nat.cast_zero]
      linarith

/-- In a window the bucket admits at most what it can hold and what is refilled meanwhile. -/
theorem admitted_le (hf : 0 ≤ f) (h : Within f b) {instants : List ℕ}
    (hsorted : instants.Pairwise (· ≤ ·)) {s t : ℚ} (hst : s ≤ t) :
    (admitted b instants s t : ℚ) ≤ f * (1 + (t - s)) := by
  have hgain := mul_nonneg hf (sub_nonneg.mpr hst)
  induction instants generalizing b with
  | nil =>
    simp only [admitted, answers, List.countP_nil, Nat.cast_zero]
    linarith
  | cons now later ih =>
    rw [List.pairwise_cons] at hsorted
    by_cases hbefore : seconds now < s
    · -- The window has not begun.
      have hout : inWindow s t (now, (b.tryAcquire now).1) = false := by
        have hnot := not_le.mpr hbefore
        simp [inWindow, hnot]
      rw [admitted_cons, hout]
      exact ih (h.tryAcquire hf now) hsorted.2
    · by_cases hin : seconds now ≤ t
      · -- The first call in the window finds at most a full bucket.
        have hfull := (h.refill hf now).le
        have hpaid := paid b now s t
        have hrest := @admitted_le_of_tokens f _ hf (h.tryAcquire hf now) later hsorted.2
          (by simpa only [lastRefill_tryAcquire] using hsorted.1) s t
          (by simpa only [lastRefill_tryAcquire] using hin)
        have hshorter : (t - seconds now) * f ≤ f * (t - s) := by
          rw [mul_comm]
          exact mul_le_mul_of_nonneg_left (by linarith) hf
        rw [lastRefill_tryAcquire] at hrest
        rw [admitted_cons, Nat.cast_add]
        linarith
      · have hout : ∀ n ∈ now :: later, t < seconds n := by
          intro n hn
          rcases List.mem_cons.mp hn with rfl | hn
          · exact not_le.mp hin
          · exact lt_of_lt_of_le (not_le.mp hin) (seconds_mono (hsorted.1 n hn))
        rw [admitted_eq_zero b hout]
        simp only [Nat.cast_zero]
        linarith

/-! Threads that dispatch hold the lock of the limiters while they call one, so that their
calls come one after the other, in the order in which they get the lock. -/

abbrev Call := LogMessage × Surroundings

def passed (config : TraceConfig) : Limiters → List Call → List (Call × Bool)
  | _, [] => []
  | limiters, c :: cs =>
    (c, (passFilters config limiters c.1 c.2).1) ::
      passed config (passFilters config limiters c.1 c.2).2 cs

def limitersAfter (config : TraceConfig) (limiters : Limiters) (cs : List Call) : Limiters :=
  cs.foldl (fun limiters c => (passFilters config limiters c.1 c.2).2) limiters

def reaches (config : TraceConfig) (ns : List String) (c : Call) : Bool :=
  decide (c.1.ns.complete = ns) && (config.severityFor ns).passes (c.1.severity.getD .debug)

def instantsOf (config : TraceConfig) (ns : List String) (cs : List Call) : List ℕ :=
  (cs.filter (reaches config ns)).map fun c => c.2.acquired

def passedIn (ns : List String) (s t : ℚ) (r : Call × Bool) : Bool :=
  decide (r.1.1.ns.complete = ns) && inWindow s t (r.1.2.acquired, r.2)

def passedCount (config : TraceConfig) (limiters : Limiters) (cs : List Call)
    (ns : List String) (s t : ℚ) : ℕ := (passed config limiters cs).countP (passedIn ns s t)

section Dispatch

variable {config : TraceConfig} {ns : List String} {limiters : Limiters} {c : Call}

theorem instantsOf_cons_of_pos (hc : reaches config ns c = true) (cs : List Call) :
    instantsOf config ns (c :: cs) = c.2.acquired :: instantsOf config ns cs := by
  simp only [instantsOf, List.filter_cons, hc, if_true, List.map_cons]

theorem instantsOf_cons_of_neg (hc : reaches config ns c = false) (cs : List Call) :
    instantsOf config ns (c :: cs) = instantsOf config ns cs := by
  simp only [instantsOf, List.filter_cons, hc, Bool.false_eq_true, if_false]

/-- A call that reaches the limiter asks its bucket. -/
theorem passFilters_reaches (hlimit : config.limiterFor ns = some f)
    (hc : reaches config ns c = true) :
    passFilters config limiters c.1 c.2 =
      ((((limiters ns).getD (.new f c.2.bucketCreated)).tryAcquire c.2.acquired).1,
        Function.update limiters ns
          (some (((limiters ns).getD (.new f c.2.bucketCreated)).tryAcquire c.2.acquired).2)) := by
  simp only [reaches, Bool.and_eq_true, decide_eq_true_eq] at hc
  obtain ⟨rfl, hsev⟩ := hc
  simp only [passFilters, if_pos hsev, hlimit]

/-- Any other call leaves the bucket alone. -/
theorem passFilters_other (hc : reaches config ns c = false) (s t : ℚ) :
    (passFilters config limiters c.1 c.2).2 ns = limiters ns ∧
      passedIn ns s t (c, (passFilters config limiters c.1 c.2).1) = false := by
  by_cases hns : c.1.ns.complete = ns
  · subst hns
    have hsev : ¬ (config.severityFor c.1.ns.complete).passes
        (c.1.severity.getD .debug) = true := by
      simpa [reaches] using hc
    simp [passFilters, if_neg hsev, passedIn, inWindow]
  · have hne : ns ≠ c.1.ns.complete := fun h => hns h.symm
    refine ⟨?_, by simp [passedIn, hns]⟩
    simp only [passFilters]
    split
    · split
      · rfl
      · exact Function.update_of_ne hne _ _
    · rfl

def Finds (f : ℚ) (limiters : Limiters) (ns : List String) (b : TokenBucket) : Prop :=
  limiters ns = some b ∨ limiters ns = none ∧ ∃ created, b = .new f created

/-- The dispatcher lets through what the bucket of the namespace admits. -/
theorem passedCount_eq (hlimit : config.limiterFor ns = some f) (s t : ℚ) (cs : List Call)
    (limiters : Limiters) :
    ∃ b, Finds f limiters ns b ∧
      passedCount config limiters cs ns s t = admitted b (instantsOf config ns cs) s t := by
  induction cs generalizing limiters with
  | nil =>
    cases hb : limiters ns with
    | some b => exact ⟨b, Or.inl hb, rfl⟩
    | none => exact ⟨.new f 0, Or.inr ⟨hb, 0, rfl⟩, rfl⟩
  | cons c cs ih =>
    obtain ⟨b, hb, hcount⟩ := ih (passFilters config limiters c.1 c.2).2
    rw [passedCount] at hcount
    by_cases hc : reaches config ns c = true
    · refine ⟨(limiters ns).getD (.new f c.2.bucketCreated), ?_, ?_⟩
      · cases hl : limiters ns with
        | some b' => exact Or.inl hl
        | none => exact Or.inr ⟨hl, _, rfl⟩
      · have hns : c.1.ns.complete = ns := by
          simp only [reaches, Bool.and_eq_true, decide_eq_true_eq] at hc
          exact hc.1
        rw [passFilters_reaches hlimit hc] at hb hcount
        have hnext : b = (((limiters ns).getD (.new f c.2.bucketCreated)).tryAcquire
            c.2.acquired).2 := by
          simpa [Finds, eq_comm] using hb
        subst hnext
        rw [passedCount, passed, List.countP_cons, passFilters_reaches hlimit hc, hcount,
          instantsOf_cons_of_pos hc, admitted_cons]
        simp only [passedIn, hns, decide_true, Bool.true_and]
    · have hc' : reaches config ns c = false := by simpa using hc
      have hother : (passFilters config limiters c.1 c.2).2 ns = limiters ns ∧
          passedIn ns s t (c, (passFilters config limiters c.1 c.2).1) = false :=
        passFilters_other hc' s t
      obtain ⟨hsame, hout⟩ := hother
      refine ⟨b, by rwa [Finds, hsame] at hb, ?_⟩
      rw [passedCount, passed, List.countP_cons, hout, hcount, instantsOf_cons_of_neg hc']
      rfl

/-- Over all calls the bucket stays within its capacity. -/
theorem within_limitersAfter (hf : 0 ≤ f) (hlimit : config.limiterFor ns = some f)
    (cs : List Call) (h : ∀ b, limiters ns = some b → Within f b) :
    ∀ b, limitersAfter config limiters cs ns = some b → Within f b := by
  induction cs generalizing limiters with
  | nil => exact h
  | cons c cs ih =>
    apply ih
    intro b hb
    by_cases hc : reaches config ns c = true
    · simp only [passFilters_reaches hlimit hc, Function.update_self, Option.some.injEq] at hb
      subst hb
      apply Within.tryAcquire hf
      cases hl : limiters ns with
      | some b' => exact h b' hl
      | none => exact within_new hf _
    · have hc' : reaches config ns c = false := by simpa using hc
      simp only [(passFilters_other hc' 0 0).1] at hb
      exact h b hb

end Dispatch

/-- A rate of `f` is kept in every window, by the bucket and by the dispatcher that any number
of threads call, and the tokens never leave the range from zero to `f`. -/
theorem rate_kept (hf : 0 ≤ f) (s t : ℚ) (hst : s ≤ t) :
    (∀ created (instants : List ℕ), instants.Pairwise (· ≤ ·) →
      (admitted (.new f created) instants s t : ℚ) ≤ f * (1 + (t - s)) ∧
      0 ≤ (after (.new f created) instants).tokens ∧
      (after (.new f created) instants).tokens ≤ f) ∧
    ∀ (config : TraceConfig) (ns : List String) (cs : List Call),
      config.limiterFor ns = some f → (instantsOf config ns cs).Pairwise (· ≤ ·) →
      (passedCount config (fun _ => none) cs ns s t : ℚ) ≤ f * (1 + (t - s)) ∧
      ∀ b, limitersAfter config (fun _ => none) cs ns = some b → 0 ≤ b.tokens ∧ b.tokens ≤ f := by
  constructor
  · intro created instants hsorted
    have hwithin := within_after hf (within_new hf created) instants
    exact ⟨admitted_le hf (within_new hf created) hsorted hst, hwithin.nonneg, hwithin.le⟩
  · intro config ns cs hlimit hsorted
    constructor
    · obtain ⟨b, hb, hcount⟩ := passedCount_eq hlimit s t cs fun _ => none
      obtain ⟨created, rfl⟩ : ∃ created, b = .new f created := by
        simpa [Finds] using hb
      rw [hcount]
      exact admitted_le hf (within_new hf created) hsorted hst
    · intro b hb
      have hwithin := within_limitersAfter hf hlimit cs (fun _ h => by cases h) b hb
      exact ⟨hwithin.nonneg, hwithin.le⟩

/-- In one second at a rate of two, at most four calls are admitted. -/
theorem rate_kept_two : admitted (.new 2 0) [0, 0, 0, 500000000, 900000000] 0 1 ≤ 4 := by
  have hkept := ((rate_kept (f := 2) (by norm_num) 0 1 (by norm_num)).1 0
    [0, 0, 0, 500000000, 900000000] (by decide)).1
  norm_num at hkept
  exact_mod_cast hkept

end Hermod.RateLimiter
