import Mathlib.Algebra.Ring.Nat
import Mathlib.Data.List.Basic
import Mathlib.Data.List.Induction

/-!
Segments that are filled one after the other. A write begins the first segment where there
is none, and a check begins a new one when the current segment has reached the limit. A
segment that is left holds the limit, which bounds how many of them there are by what was
written. The limit zero is reached by every segment, so every check begins a new one.
-/
namespace Hermod.SizeLimit

inductive Call
  | write (bytes : ℕ)
  | check
  deriving DecidableEq

def Call.bytes : Call → ℕ
  | write bytes => bytes
  | check => 0

/-- The size of the current segment, if there is one. -/
def step (limit : ℕ) : Option ℕ → Call → Option ℕ
  | none, .write bytes => some bytes
  | some size, .write bytes => some (size + bytes)
  | none, .check => none
  | some size, .check => some (if limit ≤ size then 0 else size)

def begun (limit : ℕ) : Option ℕ → Call → ℕ
  | none, .write _ => 1
  | some size, .check => if limit ≤ size then 1 else 0
  | _, _ => 0

def segments (limit : ℕ) (current : Option ℕ) : List Call → ℕ
  | [] => 0
  | c :: cs => begun limit current c + segments limit (step limit current c) cs

def total (cs : List Call) : ℕ := (cs.map Call.bytes).sum

/-- What has been written since the last check. -/
def pending (cs : List Call) : ℕ :=
  cs.foldl (fun unseen c => if c = .check then 0 else unseen + c.bytes) 0

@[simp] theorem total_cons (c : Call) (cs : List Call) : total (c :: cs) = c.bytes + total cs := by
  simp [total]

theorem pending_concat (cs : List Call) (c : Call) :
    pending (cs ++ [c]) = if c = .check then 0 else pending cs + c.bytes := by
  simp [pending]

variable {limit size : ℕ} {cs : List Call}

/-- The segments begun behind a current one are paid for by what that one holds and by what
is written later. -/
theorem segments_mul_le_of_current (limit size : ℕ) (cs : List Call) :
    segments limit (some size) cs * limit ≤ size + total cs := by
  induction cs generalizing size with
  | nil => simp [segments]
  | cons c cs ih =>
    cases c with
    | write bytes =>
      have hrest := ih (size + bytes)
      simp only [segments, begun, step, total_cons, Call.bytes, Nat.zero_add]
      omega
    | check =>
      simp only [segments, begun, step, total_cons, Call.bytes, Nat.zero_add]
      by_cases hlimit : limit ≤ size
      · have hrest := ih 0
        rw [if_pos hlimit, if_pos hlimit, Nat.add_mul]
        omega
      · have hrest := ih size
        rw [if_neg hlimit, if_neg hlimit, Nat.zero_add]
        exact hrest

/-- Every segment but the last has reached the limit. -/
theorem segments_mul_le (limit : ℕ) (cs : List Call) :
    segments limit none cs * limit ≤ limit + total cs := by
  induction cs with
  | nil => simp [segments]
  | cons c cs ih =>
    cases c with
    | write bytes =>
      have hrest := segments_mul_le_of_current limit bytes cs
      simp only [segments, begun, step, total_cons, Call.bytes, Nat.add_mul]
      omega
    | check =>
      simp only [segments, begun, step, total_cons, Call.bytes, Nat.zero_add]
      exact ih

/-- One segment, and one more for every `limit` bytes. -/
theorem segments_le (hlimit : 0 < limit) : segments limit none cs ≤ 1 + total cs / limit := by
  have hmul := segments_mul_le limit cs
  have hdiv : segments limit none cs ≤ (limit + total cs) / limit :=
    (Nat.le_div_iff_mul_le hlimit).mpr hmul
  rwa [Nat.add_div_left _ hlimit, Nat.add_comm] at hdiv

/-- The current segment is below the limit but for what no check has seen. -/
theorem lt_add_pending (hlimit : 0 < limit) {n : ℕ}
    (h : cs.foldl (step limit) none = some n) : n < limit + pending cs := by
  induction cs using List.reverseRecOn generalizing n with
  | nil => cases h
  | append_singleton cs c ih =>
    rw [List.foldl_append, List.foldl_cons, List.foldl_nil] at h
    rw [pending_concat]
    cases hcurrent : cs.foldl (step limit) none with
    | none =>
      rw [hcurrent] at h
      cases c with
      | write bytes =>
        simp only [step, Option.some.injEq] at h
        simp [Call.bytes]
        omega
      | check => cases h
    | some size =>
      have hsize := ih hcurrent
      rw [hcurrent] at h
      cases c with
      | write bytes =>
        simp only [step, Option.some.injEq] at h
        simp [Call.bytes]
        omega
      | check =>
        simp only [step, Option.some.injEq] at h
        rw [if_pos rfl]
        split at h
        · omega
        · omega

/-! The limit zero. -/

theorem segments_zero_of_current : segments 0 (some size) cs = cs.count .check := by
  induction cs generalizing size with
  | nil => rfl
  | cons c cs ih =>
    cases c with
    | write bytes => simp [segments, begun, step, ih]
    | check => simp [segments, begun, step, ih, Nat.add_comm]

/-- There is one segment exactly when no check comes after a write. -/
theorem segments_zero_iff {bytes : ℕ} (hwrite : .write bytes ∈ cs) :
    segments 0 none cs = 1 ↔ cs.Pairwise fun c c' => c ≠ .check → c' ≠ .check := by
  induction cs with
  | nil => cases hwrite
  | cons c cs ih =>
    rw [List.pairwise_cons]
    cases c with
    | write first =>
      have hcount : segments 0 none (.write first :: cs) = 1 + cs.count .check := by
        simp [segments, begun, step, segments_zero_of_current]
      have hnone : cs.count .check = 0 ↔ .check ∉ cs := List.count_eq_zero
      rw [hcount, Nat.add_eq_left, hnone]
      constructor
      · intro hcheck
        have hall : ∀ c ∈ cs, c ≠ .check := fun c hc heq => hcheck (heq ▸ hc)
        exact ⟨fun c hc _ => hall c hc,
          List.pairwise_of_forall_mem_list fun _ _ c hc _ => hall c hc⟩
      · intro h hcheck
        exact h.1 _ hcheck (by simp) rfl
    | check =>
      have hwrite' : .write bytes ∈ cs := by simpa using hwrite
      have hsame : segments 0 none (.check :: cs) = segments 0 none cs := by
        simp [segments, begun, step]
      rw [hsame, ih hwrite']
      simp

/-- Until the first write there is no segment. -/
theorem foldl_step_of_checks (limit : ℕ) (h : ∀ c ∈ cs, c = .check) :
    cs.foldl (step limit) none = none := by
  induction cs with
  | nil => rfl
  | cons c cs ih =>
    rw [List.forall_mem_cons] at h
    rw [List.foldl_cons, h.1]
    exact ih h.2

end Hermod.SizeLimit
