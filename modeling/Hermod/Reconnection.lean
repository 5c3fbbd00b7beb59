import Hermod.ForwarderHandle

/-!
How long the two reconnecting loops wait. The forwarder doubles its delay after every failed
attempt and never goes back to one second. The loop of the acceptor goes back to one second
whenever it gets a connection, even if the handshake then fails.
-/
namespace Hermod.Reconnection

open ForwarderHandle

inductive Attempt
  /-- There is no connection. -/
  | unreachable (error : String)
  /-- The connection breaks during the handshake. -/
  | broken (error : String)
  | refused
  | unexpected
  /-- The handshake is accepted, and the session fails later. -/
  | failed
  /-- The handshake is accepted, and the session ends in order. -/
  | finished
  deriving DecidableEq

namespace Attempt

def connectAndRun : Attempt → Except ForwarderError Unit
  | unreachable error => .error (.io error)
  | broken error => .error (.multiplexer error)
  | refused => .error .handshakeRefused
  | unexpected => .error .unexpectedHandshake
  | failed => .error .connectionClosed
  | finished => .ok ()

def isEstablished : Attempt → Bool
  | failed => true
  | finished => true
  | _ => false

def isConnected : Attempt → Bool
  | unreachable _ => false
  | _ => true

end Attempt

open Attempt

/-- The delays that `run` sleeps. Doubling wraps around where it does not panic. -/
def runDelays (maxReconnectDelay reconnectDelay : UInt64) : List Attempt → List UInt64
  | [] => []
  | a :: later =>
    match a.connectAndRun with
    | .ok () => []
    | .error _ =>
      reconnectDelay ::
        runDelays maxReconnectDelay (min (reconnectDelay * 2) maxReconnectDelay) later

def run (maxReconnectDelay : UInt64) (attempts : List Attempt) : List UInt64 :=
  runDelays maxReconnectDelay 1 attempts

/-- The delays that the loop of the acceptor sleeps, after every attempt. -/
def retryDelays (delay : UInt64) : List Attempt → List UInt64
  | [] => []
  | a :: later =>
    let delay := if a.isConnected then 1 else delay
    delay :: retryDelays (min (delay * 2) 45) later

def connectWithRetry (attempts : List Attempt) : List UInt64 := retryDelays 1 attempts

def retried (attempts : List Attempt) : List Attempt :=
  attempts.takeWhile fun a => a ≠ .finished

/-! The schedule: one second at first and after a session, and otherwise twice as long as
before, up to the maximum. -/

def nextDelay (max : ℕ) (previous : Option ℕ) (a : Attempt) : ℕ :=
  if a.isEstablished then 1
  else
    match previous with
    | none => 1
    | some previous => min (2 * previous) max

def schedule (max : ℕ) (previous : Option ℕ) : List Attempt → List ℕ
  | [] => []
  | a :: later =>
    nextDelay max previous a :: schedule max (some (nextDelay max previous a)) later

/-- The delays are those of the schedule and within the bounds, and none overflows when it
is doubled. -/
structure Follows (max : UInt64) (previous : Option ℕ) (attempts : List Attempt)
    (delays : List UInt64) : Prop where
  scheduled : delays.map UInt64.toNat = schedule max.toNat previous attempts
  bounded : ∀ d ∈ delays, 1 ≤ d.toNat ∧ d.toNat ≤ max.toNat
  fits : ∀ d ∈ delays, d.toNat * 2 < 2 ^ 64

section Delays

variable {max delay : UInt64} {previous : Option ℕ} {a : Attempt} {later attempts : List Attempt}
  {delays : List UInt64}

theorem toNat_doubled (h : delay.toNat * 2 < 2 ^ 64) (max : UInt64) :
    (min (delay * 2) max).toNat = min (2 * delay.toNat) max.toNat := by
  have htwo : (2 : UInt64).toNat = 2 := rfl
  rw [UInt64.toNat_min, UInt64.toNat_mul, htwo, Nat.mod_eq_of_lt h, Nat.mul_comm]

theorem follows_nil (max : UInt64) (previous : Option ℕ) : Follows max previous [] [] :=
  ⟨rfl, fun _ h => absurd h List.not_mem_nil, fun _ h => absurd h List.not_mem_nil⟩

/-- The schedule of one attempt, and that of the later ones. -/
theorem follows_cons_iff :
    Follows max previous (a :: later) (delay :: delays) ↔
      delay.toNat = nextDelay max.toNat previous a ∧
        (1 ≤ delay.toNat ∧ delay.toNat ≤ max.toNat) ∧ delay.toNat * 2 < 2 ^ 64 ∧
        Follows max (some delay.toNat) later delays := by
  constructor
  · intro h
    have hscheduled := h.scheduled
    have hbounded := List.forall_mem_cons.mp h.bounded
    have hfits := List.forall_mem_cons.mp h.fits
    rw [List.map_cons, schedule, List.cons.injEq] at hscheduled
    obtain ⟨hhead, htail⟩ := hscheduled
    refine ⟨hhead, hbounded.1, hfits.1, ?_, hbounded.2, hfits.2⟩
    rw [htail, hhead]
  · intro h
    obtain ⟨hhead, hbounded, hfits, hlater⟩ := h
    refine ⟨?_, List.forall_mem_cons.mpr ⟨hbounded, hlater.bounded⟩,
      List.forall_mem_cons.mpr ⟨hfits, hlater.fits⟩⟩
    rw [List.map_cons, schedule, hlater.scheduled, hhead]

theorem retried_finished (later : List Attempt) : retried (.finished :: later) = [] := by
  simp [retried]

theorem retried_cons (h : a ≠ .finished) (later : List Attempt) :
    retried (a :: later) = a :: retried later := by
  simp [retried, h]

/-- The next delay is the double of this one, up to the maximum. -/
theorem runDelays_cons (h : a ≠ .finished) (max delay : UInt64) (later : List Attempt) :
    runDelays max delay (a :: later) =
      delay :: runDelays max (min (delay * 2) max) later := by
  cases a with
  | finished => exact absurd rfl h
  | unreachable error => rfl
  | broken error => rfl
  | refused => rfl
  | unexpected => rfl
  | failed => rfl

/-- The delays after `previous` can be doubled `n` times before they overflow. -/
def Room (max previous n : ℕ) : Prop := max < 2 ^ 63 ∨ n = 0 ∨ 2 ^ n * previous < 2 ^ 63

/-- Room for one more doubling. -/
theorem room_succ_iff {max previous delay n : ℕ}
    (hdelay : delay = min (2 * previous) max) :
    Room max previous (n + 1) ↔ delay * 2 < 2 ^ 64 ∧ Room max delay n := by
  unfold Room
  have hpow : 2 ^ (n + 1) * previous = 2 ^ n * (2 * previous) := by
    rw [pow_succ, Nat.mul_assoc]
  rw [hpow]
  by_cases hsmall : max < 2 ^ 63
  · exact iff_of_true (Or.inl hsmall) ⟨by omega, Or.inl hsmall⟩
  · rw [or_iff_right hsmall, or_iff_right hsmall, or_iff_right (Nat.succ_ne_zero n)]
    by_cases hdoubled : 2 * previous < 2 ^ 63
    · have hfits : delay * 2 < 2 ^ 64 := by omega
      have heq : delay = 2 * previous := by omega
      have hzero : n = 0 → 2 ^ n * (2 * previous) < 2 ^ 63 := by
        intro hn
        rw [hn]
        omega
      rw [and_iff_right hfits, heq, or_iff_right_of_imp hzero]
    · have hpositive : 1 ≤ 2 ^ n := Nat.one_le_two_pow
      have hgrows := Nat.mul_le_mul_right (2 * previous) hpositive
      constructor
      · intro h
        omega
      · intro h
        exact absurd h.1 (by omega)

/-- After a first delay the loop goes on by the schedule unless there is a session, which
only a maximum of one second hides, or so many attempts that the doubling overflows. -/
theorem follows_later_iff (attempts : List Attempt) {max delay : UInt64} {previous : ℕ}
    (hpos : 1 ≤ previous) (hle : previous ≤ max.toNat)
    (hdelay : delay.toNat = min (2 * previous) max.toNat) :
    Follows max (some previous) (retried attempts) (runDelays max delay attempts) ↔
      max.toNat = 1 ∨ (∀ a ∈ retried attempts, a.isEstablished = false) ∧
        Room max.toNat previous (retried attempts).length := by
  induction attempts generalizing delay previous with
  | nil =>
    exact iff_of_true (follows_nil ..)
      (Or.inr ⟨by simp [retried], Or.inr (Or.inl (by simp [retried]))⟩)
  | cons a later ih =>
    by_cases hfinished : a = .finished
    · subst hfinished
      rw [retried_finished]
      exact iff_of_true (follows_nil ..) (Or.inr ⟨by simp, Or.inr (Or.inl rfl)⟩)
    · rw [retried_cons hfinished, runDelays_cons hfinished, follows_cons_iff,
        List.forall_mem_cons, List.length_cons, room_succ_iff hdelay]
      have hlater : delay.toNat * 2 < 2 ^ 64 →
          (Follows max (some delay.toNat) (retried later)
              (runDelays max (min (delay * 2) max) later) ↔
            max.toNat = 1 ∨ (∀ a ∈ retried later, a.isEstablished = false) ∧
              Room max.toNat delay.toNat (retried later).length) := by
        intro hfits
        exact ih (by omega) (by omega) (toNat_doubled hfits max)
      cases hestablished : a.isEstablished with
      | true =>
        have hnext : nextDelay max.toNat (some previous) a = 1 := by
          rw [nextDelay, if_pos hestablished]
        rw [hnext]
        constructor
        · intro h
          exact Or.inl (by omega)
        · intro h
          have hone : max.toNat = 1 := h.resolve_right fun h' => absurd h'.1.1 (by decide)
          have hfits : delay.toNat * 2 < 2 ^ 64 := by omega
          exact ⟨by omega, by omega, hfits, (hlater hfits).mpr (Or.inl hone)⟩
      | false =>
        have hnext : nextDelay max.toNat (some previous) a = delay.toNat := by
          rw [nextDelay, hestablished, hdelay]
          rfl
        rw [hnext]
        constructor
        · intro h
          obtain ⟨-, -, hfits, hrest⟩ := h
          exact ((hlater hfits).mp hrest).imp_right fun h' => ⟨⟨rfl, h'.1⟩, hfits, h'.2⟩
        · intro h
          have hfits : delay.toNat * 2 < 2 ^ 64 := by
            rcases h with hone | h
            · omega
            · exact h.2.1
          refine ⟨rfl, by omega, hfits, (hlater hfits).mpr ?_⟩
          exact h.imp_right fun h' => ⟨h'.1.2, h'.2.2⟩

theorem retryDelays_connected (h : a.isConnected = true) (delay : UInt64)
    (later : List Attempt) :
    retryDelays delay (a :: later) = 1 :: retryDelays (min (1 * 2) 45) later := by
  simp only [retryDelays, if_pos h]

theorem retryDelays_unreachable (h : a.isConnected = false) (delay : UInt64)
    (later : List Attempt) :
    retryDelays delay (a :: later) = delay :: retryDelays (min (delay * 2) 45) later := by
  simp only [retryDelays, h, Bool.false_eq_true, if_false]

/-- The loop of the acceptor goes by the schedule unless a connection without a session makes
it go back to one second. -/
theorem follows_retry_later_iff (attempts : List Attempt) {delay : UInt64} {previous : ℕ}
    (hpos : 1 ≤ previous) (hle : previous ≤ 45) (hdelay : delay.toNat = min (2 * previous) 45) :
    Follows 45 (some previous) attempts (retryDelays delay attempts) ↔
      ∀ a ∈ attempts, a.isConnected = true → a.isEstablished = true := by
  induction attempts generalizing delay previous with
  | nil => exact iff_of_true (follows_nil ..) (by simp)
  | cons a later ih =>
    have hmax : (45 : UInt64).toNat = 45 := rfl
    have hone : (1 : UInt64).toNat = 1 := rfl
    rw [List.forall_mem_cons]
    by_cases hconnected : a.isConnected = true
    · have hlater := @ih (min (1 * 2) 45) 1 (by omega) (by omega) rfl
      rw [retryDelays_connected hconnected, follows_cons_iff, hone, hlater, hmax, nextDelay]
      by_cases hestablished : a.isEstablished = true
      · rw [if_pos hestablished]
        constructor
        · intro h
          exact ⟨fun _ => hestablished, h.2.2.2⟩
        · intro h
          exact ⟨rfl, by omega, by omega, h.2⟩
      · rw [if_neg hestablished]
        constructor
        · intro h
          omega
        · intro h
          exact absurd (h.1 hconnected) hestablished
    · have hunreachable : a.isConnected = false := by simpa using hconnected
      have hestablished : a.isEstablished = false := by
        cases a with
        | unreachable error => rfl
        | _ => cases hunreachable
      have hfits : delay.toNat * 2 < 2 ^ 64 := by omega
      have hdoubled : (min (delay * 2) 45).toNat = min (2 * delay.toNat) 45 :=
        toNat_doubled hfits 45
      have hlater := @ih (min (delay * 2) 45) delay.toNat (by omega) (by omega) hdoubled
      rw [retryDelays_unreachable hunreachable, follows_cons_iff, hlater, hmax, nextDelay,
        hestablished]
      simp only [Bool.false_eq_true, if_false]
      constructor
      · intro h
        exact ⟨fun h' => absurd h' hconnected, h.2.2.2⟩
      · intro h
        exact ⟨hdelay, by omega, hfits, h.2⟩

theorem nextDelay_first (max : ℕ) (a : Attempt) : nextDelay max none a = 1 := by
  rw [nextDelay]
  split
  · rfl
  · rfl

/-- When `run` follows the schedule: all delays are one, or no attempt after the first is
established and no delay overflows. -/
theorem follows_run_iff (hmax : 1 ≤ max.toNat) (attempts : List Attempt) :
    Follows max none (retried attempts) (run max attempts) ↔
      max.toNat = 1 ∨ (∀ a ∈ (retried attempts).tail, a.isEstablished = false) ∧
        (max.toNat < 2 ^ 63 ∨ (retried attempts).length < 64) := by
  have hone : (1 : UInt64).toNat = 1 := rfl
  cases attempts with
  | nil => exact iff_of_true (follows_nil ..) (Or.inr ⟨by simp [retried], by simp [retried]⟩)
  | cons a later =>
    by_cases hfinished : a = .finished
    · subst hfinished
      rw [retried_finished]
      exact iff_of_true (follows_nil ..) (Or.inr ⟨by simp, by simp⟩)
    · have hlater := @follows_later_iff later max (min (1 * 2) max) 1 (by omega) hmax
        (by rw [UInt64.toNat_min]; rfl)
      have hroom : Room max.toNat 1 (retried later).length ↔
          max.toNat < 2 ^ 63 ∨ (retried later).length + 1 < 64 := by
        rw [Room, Nat.mul_one, Nat.pow_lt_pow_iff_right (by omega)]
        omega
      rw [run, retried_cons hfinished, runDelays_cons hfinished, follows_cons_iff, hone,
        nextDelay_first, hlater, hroom, List.tail_cons, List.length_cons]
      constructor
      · intro h
        exact h.2.2.2
      · intro h
        exact ⟨rfl, by omega, by omega, h⟩

/-- The acceptor follows the schedule unless a later attempt connects and fails in its handshake.
-/
theorem follows_connectWithRetry_iff (attempts : List Attempt) :
    Follows 45 none attempts (connectWithRetry attempts) ↔
      ∀ a ∈ attempts.tail, a.isConnected = true → a.isEstablished = true := by
  have hone : (1 : UInt64).toNat = 1 := rfl
  have hmax : (45 : UInt64).toNat = 45 := rfl
  cases attempts with
  | nil => exact iff_of_true (follows_nil ..) (by simp)
  | cons a later =>
    have hdelay : (if a.isConnected = true then 1 else 1 : UInt64) = 1 := ite_self 1
    have hlater := @follows_retry_later_iff later (min (1 * 2) 45) 1 (by omega) (by omega) rfl
    simp only [connectWithRetry, retryDelays, hdelay, List.tail_cons]
    rw [follows_cons_iff, hone, nextDelay_first, hlater, hmax]
    constructor
    · intro h
      exact h.2.2.2
    · intro h
      exact ⟨rfl, by omega, by omega, h⟩

end Delays

/-- The forwarder follows the schedule exactly when no attempt after the first had a session,
unless the maximum is one second, and it fails less than 64 times where the maximum is so large
that a delay can overflow. The loop of the acceptor follows it exactly when none of its attempts
after the first got a connection and no session. -/
theorem follows_iff (max : UInt64) (hmax : 1 ≤ max.toNat) (attempts : List Attempt) :
    (Follows max none (retried attempts) (run max attempts) ↔
      max.toNat = 1 ∨ (∀ a ∈ (retried attempts).tail, a.isEstablished = false) ∧
        (max.toNat < 2 ^ 63 ∨ (retried attempts).length < 64)) ∧
    (Follows 45 none attempts (connectWithRetry attempts) ↔
      ∀ a ∈ attempts.tail, a.isConnected = true → a.isEstablished = true) :=
  ⟨follows_run_iff hmax attempts, follows_connectWithRetry_iff attempts⟩

/-- A session after a first failure: the forwarder goes on doubling where the other loop, which
follows the schedule, goes back to one second. -/
theorem session_not_reset :
    run 45 [.unreachable "", .failed] = [1, 2] ∧
      connectWithRetry [.unreachable "", .failed] = [1, 1] ∧
      schedule 45 none [.unreachable "", .failed] = [1, 1] ∧
      ¬ Follows 45 none (retried [.unreachable "", .failed])
        (run 45 [.unreachable "", .failed]) := by
  refine ⟨by decide, by decide, by decide, ?_⟩
  intro h
  have hscheduled := h.scheduled
  revert hscheduled
  decide

theorem follows_iff_three_refused :
    Follows 45 none (retried [.refused, .unreachable "", .refused])
      (run 45 [.refused, .unreachable "", .refused]) :=
  (follows_iff 45 (by decide) [.refused, .unreachable "", .refused]).1.mpr
    (Or.inr ⟨by decide, Or.inl (by decide)⟩)

end Hermod.Reconnection
