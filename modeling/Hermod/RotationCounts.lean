import Hermod.FileSizes
import Hermod.SizeLimit

/-!
How often the writer opens a file for a key. What the handle of a key counts, and when a
rotation pass opens a new file, is the course of segments with a size limit. The limit
zero, which is documented to disable rotation, is reached at every pass.
-/
namespace Hermod.RotationCounts

open AppendOnlyLog FileSizes LogWriter LogWriter.System ProtocolTypes Rotation Transitions
open TracerState (Unicode)

/-- How often the calls of a run open a file for a key. Every opening takes the number of
the next inode. -/
def opened (u : Unicode) (F : Formats) (key : LogKey) (s : System) : List Rotation.Event → ℕ
  | [] => 0
  | e :: es =>
    match Rotation.step u F s e with
    | some s' =>
      (if e.key = key then s'.fs.nextInode - s.fs.nextInode else 0) + opened u F key s' es
    | none => 0

def bytes (F : Formats) (key : LogKey) (es : List Rotation.Event) : ℕ :=
  (String.ofList (logged F key es)).utf8ByteSize

def Writes (key : LogKey) : Rotation.Event → Prop
  | .write k .. => k = key
  | _ => False

def Passes (key : LogKey) : Rotation.Event → Prop
  | .rotate k .. => k = key
  | _ => False

def LimitedTo (key : LogKey) (limitBytes : ℕ) : Rotation.Event → Prop
  | .rotate k limit _ _ => k = key → limit = limitBytes
  | _ => True

def call (F : Formats) (key : LogKey) : Rotation.Event → Option SizeLimit.Call
  | .write k traces _ _ => if k = key then some (.write (size F key.logFormat traces)) else none
  | .rotate k .. => if k = key then some .check else none
  | .prune .. => none

def calls (F : Formats) (key : LogKey) (es : List Rotation.Event) : List SizeLimit.Call :=
  es.filterMap (call F key)

/-- Files are opened for their size only: one, and one more for each time that the limit has
been written. A limit of zero never asks for another, and nothing is opened at a pass over
a node that has written nothing since the last one. -/
structure RotatesForSize (u : Unicode) (F : Formats) (fs : Fs) (key : LogKey) (limitBytes : ℕ)
    (es : List Rotation.Event) : Prop where
  bounded : 0 < limitBytes →
    opened u F key (start fs) es ≤ 1 + bytes F key es / limitBytes
  once : limitBytes = 0 → (∃ e ∈ es, Writes key e) → opened u F key (start fs) es = 1
  idle : ∀ earlier now mtime later m,
    es = earlier ++ .rotate key limitBytes now mtime :: later →
    SizeLimit.pending (calls F key earlier) = 0 →
    run (Rotation.step u F) (start fs) earlier = some m →
    Rotation.step u F m (.rotate key limitBytes now mtime) = some m

def count (s : System) (key : LogKey) : Option ℕ := (s.handles key).map LogHandle.bytesWritten

theorem append_nextInode (fs : Fs) (file : ℕ) (p : FilePath) (text : String) (mtime : ℤ) :
    (fs.append file p text mtime).nextInode = fs.nextInode := by
  unfold Fs.append
  split
  · rfl
  · split
    · split
      · rfl
      · rfl
    · rfl

theorem writeLines_nextInode (F : Formats) (format : LogFormat) (mtime : ℤ)
    (traces : List TraceObject) (opened : Fs × LogHandle) :
    (traces.foldl (writeLine F format mtime) opened).1.nextInode = opened.1.nextInode := by
  induction traces generalizing opened with
  | nil => rfl
  | cons trace traces ih =>
    rw [List.foldl_cons, ih]
    exact append_nextInode ..

theorem pruneOldFiles_nextInode (fs : Fs) (dir : Path) (extension : String)
    (maxAgeHours : UInt64) (keepFilesNum : UInt32) (now : ℤ) (listing : List String) :
    (pruneOldFiles fs dir extension maxAgeHours keepFilesNum now listing).nextInode =
      fs.nextInode := by
  unfold pruneOldFiles
  split
  · rfl
  · rfl

/-! One call as a call on segments. -/

section Step

variable {u : Unicode} {F : Formats} {s s' : System} {key : LogKey} {limitBytes : ℕ}
  {now mtime : ℤ}

theorem count_of_open {handle : LogHandle} (h : s.handles key = some handle) :
    count s key = some handle.bytesWritten := by
  rw [count, h]
  rfl

theorem count_of_closed (h : s.handles key = none) : count s key = none := by
  rw [count, h]
  rfl

@[simp] theorem count_install (s : System) (key : LogKey) (opened : Fs × LogHandle) :
    count (s.install key opened) key = some opened.2.bytesWritten := by
  rw [count, install_handles, if_pos rfl]
  rfl

/-- A write opens a file when none is open, and counts its bytes. -/
theorem writeTraces_count {traces : List TraceObject}
    (h : s.writeTraces u F key traces now mtime = some s') :
    count s' key =
        SizeLimit.step limitBytes (count s key) (.write (size F key.logFormat traces)) ∧
      s'.fs.nextInode - s.fs.nextInode =
        SizeLimit.begun limitBytes (count s key) (.write (size F key.logFormat traces)) := by
  unfold writeTraces at h
  obtain ⟨opened, hopen, rfl⟩ := Option.map_eq_some_iff.mp h
  have hbytes := writeLines_bytesWritten F key.logFormat mtime traces opened
  have hinode := writeLines_nextInode F key.logFormat mtime traces opened
  rw [count_install, hbytes]
  cases hhandle : s.handles key with
  | some handle =>
    simp only [hhandle, Option.some.injEq] at hopen
    subst hopen
    rw [count_of_open hhandle]
    refine ⟨rfl, ?_⟩
    exact Nat.sub_eq_zero_of_le hinode.le
  | none =>
    simp only [hhandle] at hopen
    obtain ⟨hnext, hzero⟩ := openNewFile_counts hopen
    rw [count_of_closed hhandle, hzero, Nat.zero_add]
    refine ⟨rfl, ?_⟩
    exact Nat.sub_eq_of_eq_add (hinode.trans (hnext.trans (Nat.add_comm ..)))

/-- A rotation opens a file when the limit is reached. -/
theorem rotateIfNeeded_count (h : s.rotateIfNeeded u F key limitBytes now mtime = some s') :
    count s' key = SizeLimit.step limitBytes (count s key) .check ∧
      s'.fs.nextInode - s.fs.nextInode = SizeLimit.begun limitBytes (count s key) .check := by
  unfold rotateIfNeeded at h
  split at h
  · rename_i handle hhandle
    rw [count_of_open hhandle, SizeLimit.step, SizeLimit.begun]
    split at h
    · rename_i hlimit
      obtain ⟨opened, hopen, rfl⟩ := Option.map_eq_some_iff.mp h
      obtain ⟨hnext, hzero⟩ := openNewFile_counts hopen
      rw [count_install, hzero, if_pos hlimit, if_pos hlimit]
      refine ⟨rfl, ?_⟩
      show opened.1.nextInode - _ = 1
      rw [hnext]
      omega
    · rename_i hlimit
      obtain rfl := Option.some.inj h
      rw [count_of_open hhandle, if_neg hlimit, if_neg hlimit]
      exact ⟨rfl, Nat.sub_self _⟩
  · rename_i hhandle
    obtain rfl := Option.some.inj h
    rw [count_of_closed hhandle]
    exact ⟨rfl, Nat.sub_self _⟩

/-- The handles of the other keys stay as they are. -/
theorem step_handles_of_ne {e : Rotation.Event} (hne : e.key ≠ key)
    (h : Rotation.step u F s e = some s') : s'.handles key = s.handles key := by
  have hinstall : ∀ k opened, k ≠ key → (s.install k opened).handles key = s.handles key := by
    intro k opened hk
    rw [install_handles, if_neg fun heq => hk heq.symm]
  cases e with
  | write k traces now mtime =>
    obtain ⟨opened, -, rfl⟩ := Option.map_eq_some_iff.mp h
    exact hinstall k _ hne
  | rotate k limit now mtime =>
    rw [Rotation.step, rotateIfNeeded] at h
    split at h
    · split at h
      · obtain ⟨opened, -, rfl⟩ := Option.map_eq_some_iff.mp h
        exact hinstall k _ hne
      · rw [← Option.some.inj h]
    · rw [← Option.some.inj h]
  | prune k maxAgeHours keepFilesNum now listing =>
    rw [Rotation.step] at h
    split at h
    · rw [← Option.some.inj h]
    · cases h

/-- A call does to the count what it does to the segments, and opens as many files. -/
theorem step_count {e : Rotation.Event} (hlimit : LimitedTo key limitBytes e)
    (h : Rotation.step u F s e = some s') :
    count s' key =
        (call F key e).elim (count s key) (SizeLimit.step limitBytes (count s key)) ∧
      (if e.key = key then s'.fs.nextInode - s.fs.nextInode else 0) =
        (call F key e).elim 0 (SizeLimit.begun limitBytes (count s key)) := by
  by_cases hkey : e.key = key
  · rw [if_pos hkey]
    cases e with
    | write k traces now mtime =>
      obtain rfl : k = key := hkey
      have hcall : call F k (.write k traces now mtime) =
          some (.write (size F k.logFormat traces)) := if_pos rfl
      rw [hcall]
      exact writeTraces_count h
    | rotate k limit now mtime =>
      obtain rfl : k = key := hkey
      obtain rfl : limit = limitBytes := hlimit rfl
      have hcall : call F k (.rotate k limit now mtime) = some .check := if_pos rfl
      rw [hcall]
      exact rotateIfNeeded_count h
    | prune k maxAgeHours keepFilesNum now listing =>
      rw [Rotation.step] at h
      split at h
      · rw [← Option.some.inj h]
        refine ⟨rfl, ?_⟩
        show (pruneOldFiles ..).nextInode - _ = 0
        rw [pruneOldFiles_nextInode]
        omega
      · cases h
  · have hnone : call F key e = none := by
      cases e with
      | write k traces now mtime => exact if_neg hkey
      | rotate k limit now mtime => exact if_neg hkey
      | prune k maxAgeHours keepFilesNum now listing => rfl
    rw [if_neg hkey, hnone, count, count, step_handles_of_ne hkey h]
    exact ⟨rfl, rfl⟩

theorem calls_cons (F : Formats) (key : LogKey) (e : Rotation.Event) (es : List Rotation.Event) :
    calls F key (e :: es) = (call F key e).toList ++ calls F key es := by
  rw [calls, List.filterMap_cons]
  cases call F key e with
  | none => rfl
  | some c => rfl

/-- A run does to the count what it does to the segments, and opens a file for each. -/
theorem run_count {es : List Rotation.Event} (hlimit : ∀ e ∈ es, LimitedTo key limitBytes e)
    (h : run (Rotation.step u F) s es = some s') :
    count s' key = (calls F key es).foldl (SizeLimit.step limitBytes) (count s key) ∧
      opened u F key s es = SizeLimit.segments limitBytes (count s key) (calls F key es) := by
  induction es generalizing s with
  | nil =>
    obtain rfl := Option.some.inj h
    exact ⟨rfl, rfl⟩
  | cons e es ih =>
    obtain ⟨m, hstep, hrun⟩ := run_cons_iff.mp h
    rw [List.forall_mem_cons] at hlimit
    obtain ⟨hcount, hopens⟩ := step_count hlimit.1 hstep
    obtain ⟨hcount', hopened⟩ := ih hlimit.2 hrun
    have hopens' : opened u F key s (e :: es) =
        (if e.key = key then m.fs.nextInode - s.fs.nextInode else 0) + opened u F key m es := by
      rw [opened, hstep]
    rw [hcount', hopens', hopened, hopens, hcount, calls_cons]
    cases call F key e with
    | none => simp
    | some c => exact ⟨rfl, rfl⟩

end Step

/-- The bytes written are the total of the calls on segments. -/
theorem bytes_eq_total (F : Formats) (key : LogKey) (es : List Rotation.Event) :
    bytes F key es = SizeLimit.total (calls F key es) := by
  induction es with
  | nil => rfl
  | cons e es ih =>
    have hlogged : logged F key (e :: es) = written F key e ++ logged F key es := rfl
    have hbytes : bytes F key (e :: es) =
        (String.ofList (written F key e)).utf8ByteSize + bytes F key es := by
      rw [bytes, bytes, hlogged, String.ofList_append, String.utf8ByteSize_append]
    rw [hbytes, ih, calls_cons]
    cases e with
    | write k traces now mtime =>
      by_cases hkey : k = key
      · simp [written, call, hkey, utf8ByteSize_lines, SizeLimit.Call.bytes]
      · simp [written, call, hkey]
    | rotate k limit now mtime =>
      by_cases hkey : k = key
      · simp [written, call, hkey, SizeLimit.Call.bytes]
      · simp [written, call, hkey]
    | prune k maxAgeHours keepFilesNum now listing => simp [written, call]

section Calls

variable {F : Formats} {key : LogKey}

theorem call_write_iff {e : Rotation.Event} :
    (∃ bytes, call F key e = some (.write bytes)) ↔ Writes key e := by
  cases e with
  | write k traces now mtime => simp [call, Writes]
  | rotate k limit now mtime => simp [call, Writes]
  | prune k maxAgeHours keepFilesNum now listing => simp [call, Writes]

theorem call_check_iff {e : Rotation.Event} : call F key e = some .check ↔ Passes key e := by
  cases e with
  | write k traces now mtime => simp [call, Passes]
  | rotate k limit now mtime => simp [call, Passes]
  | prune k maxAgeHours keepFilesNum now listing => simp [call, Passes]

/-- No check comes after a write to the segments exactly when no pass comes after a write. -/
theorem pairwise_calls_iff {es : List Rotation.Event} :
    (calls F key es).Pairwise (fun c c' => c ≠ .check → c' ≠ .check) ↔
      es.Pairwise fun e e' => Writes key e → ¬ Passes key e' := by
  rw [calls, List.pairwise_filterMap]
  apply List.Pairwise.iff
  intro e e'
  constructor
  · intro h hwrites hpasses
    obtain ⟨bytes, hwrite⟩ := call_write_iff.mpr hwrites
    exact h _ hwrite _ (call_check_iff.mpr hpasses) (by simp) rfl
  · intro h c hc c' hc' hne heq
    subst heq
    cases c with
    | write bytes => exact h (call_write_iff.mp ⟨bytes, hc⟩) (call_check_iff.mp hc')
    | check => exact hne rfl

/-- A pass over a key changes nothing where the count of the key is below the limit. -/
theorem rotate_of_count_lt {u : Unicode} {s : System} {limitBytes : ℕ} {now mtime : ℤ}
    (h : ∀ n, count s key = some n → n < limitBytes) :
    Rotation.step u F s (.rotate key limitBytes now mtime) = some s := by
  rw [Rotation.step, rotateIfNeeded]
  cases hhandle : s.handles key with
  | some handle =>
    have hlt := h handle.bytesWritten (count_of_open hhandle)
    simp only [if_neg hlt.not_ge]
  | none => rfl

variable {u : Unicode} {fs : Fs} {es : List Rotation.Event} {s : System} {limitBytes : ℕ}

/-- With the limit zero there is one opening exactly when no pass comes after a write. -/
theorem opened_zero_iff (hlimit : ∀ e ∈ es, LimitedTo key 0 e)
    (h : run (Rotation.step u F) (start fs) es = some s) (hwrites : ∃ e ∈ es, Writes key e) :
    opened u F key (start fs) es = 1 ↔
      es.Pairwise fun e e' => Writes key e → ¬ Passes key e' := by
  obtain ⟨e, he, hwrite⟩ := hwrites
  obtain ⟨bytes, hcall⟩ := (call_write_iff (F := F)).mpr hwrite
  have hmem : .write bytes ∈ calls F key es := List.mem_filterMap.mpr ⟨e, he, hcall⟩
  have hstart : count (start fs) key = none := rfl
  rw [(run_count hlimit h).2, hstart, SizeLimit.segments_zero_iff hmem, pairwise_calls_iff]

/-- A pass over a key that has written nothing since the last one changes nothing. -/
theorem rotate_idle (hlimit : ∀ e ∈ es, LimitedTo key limitBytes e)
    (h : run (Rotation.step u F) (start fs) es = some s) (hpos : 0 < limitBytes)
    (hpending : SizeLimit.pending (calls F key es) = 0) {now mtime : ℤ} :
    Rotation.step u F s (.rotate key limitBytes now mtime) = some s := by
  apply rotate_of_count_lt
  intro n hn
  have hcount := (run_count hlimit h).1
  rw [hn] at hcount
  have hlt := SizeLimit.lt_add_pending hpos hcount.symm
  omega

/-- A pass over a key that has never been written changes nothing. -/
theorem rotate_unwritten (hlimit : ∀ e ∈ es, LimitedTo key limitBytes e)
    (h : run (Rotation.step u F) (start fs) es = some s) (hno : ∀ e ∈ es, ¬ Writes key e)
    {now mtime : ℤ} : Rotation.step u F s (.rotate key limitBytes now mtime) = some s := by
  have hchecks : ∀ c ∈ calls F key es, c = .check := by
    intro c hc
    obtain ⟨e, he, hcall⟩ := List.mem_filterMap.mp hc
    cases c with
    | write bytes => exact absurd (call_write_iff.mp ⟨bytes, hcall⟩) (hno e he)
    | check => rfl
  have hnone : count s key = none :=
    (run_count hlimit h).1.trans (SizeLimit.foldl_step_of_checks limitBytes hchecks)
  apply rotate_of_count_lt
  intro n hn
  rw [hnone] at hn
  cases hn

end Calls

/-- Files are opened for their size only exactly when the limit is positive, or no pass over
the key comes after a write. -/
theorem rotatesForSize_iff {u : Unicode} {F : Formats} {fs : Fs} {key : LogKey} {limitBytes : ℕ}
    {es : List Rotation.Event} {s : System} (hlimit : ∀ e ∈ es, LimitedTo key limitBytes e)
    (h : run (Rotation.step u F) (start fs) es = some s) :
    RotatesForSize u F fs key limitBytes es ↔
      0 < limitBytes ∨ es.Pairwise fun e e' => Writes key e → ¬ Passes key e' := by
  constructor
  · intro hsize
    by_cases hpos : 0 < limitBytes
    · exact Or.inl hpos
    · right
      obtain rfl : limitBytes = 0 := by omega
      by_cases hwrites : ∃ e ∈ es, Writes key e
      · exact (opened_zero_iff hlimit h hwrites).mp (hsize.once rfl hwrites)
      · exact List.pairwise_of_forall_mem_list fun e he _ _ hwrite =>
          absurd ⟨e, he, hwrite⟩ hwrites
  · intro hcond
    constructor
    · intro hpos
      have hstart : count (start fs) key = none := rfl
      rw [(run_count hlimit h).2, hstart, bytes_eq_total]
      exact SizeLimit.segments_le hpos
    · intro hzero hwrites
      subst hzero
      exact (opened_zero_iff hlimit h hwrites).mpr (hcond.resolve_left (by omega))
    · intro earlier now mtime later m hes hpending hm
      subst hes
      have hearlier : ∀ e ∈ earlier, LimitedTo key limitBytes e := fun e he =>
        hlimit e (List.mem_append_left _ he)
      rcases hcond with hpos | hpairwise
      · exact rotate_idle hearlier hm hpos hpending
      · have hcross := (List.pairwise_append.mp hpairwise).2.2
        apply rotate_unwritten hearlier hm
        intro e he hwrite
        exact hcross e he _ (List.mem_cons_self ..) hwrite rfl

theorem rotatesForSize_iff_rotations :
    let t : TraceObject := ⟨none, "{}", ["Test"], .info, .dNormal, ⟨0, 0, by decide⟩, "host", "1"⟩
    let node : LogKey := ⟨"node", ["logs"], .forHuman⟩
    RotatesForSize .ascii twoSeconds ⟨fun _ => none, 0⟩ node 1 (rotations t) ↔
      0 < 1 ∨ (rotations t).Pairwise fun e e' => Writes node e → ¬ Passes node e' := by
  intro t node
  obtain ⟨s, hrun⟩ : ∃ s, run (Rotation.step .ascii twoSeconds) (start ⟨fun _ => none, 0⟩)
      (rotations t) = some s := Option.isSome_iff_exists.mp (by decide +kernel)
  exact rotatesForSize_iff (by simp [rotations, LimitedTo]) hrun

/-- The first pass over a node that has written one line opens a second file under the
limit zero. -/
theorem zero_rotates_at_every_pass :
    let t : TraceObject := ⟨none, "{}", ["Test"], .info, .dNormal, ⟨0, 0, by decide⟩, "host", "1"⟩
    let node : LogKey := ⟨"node", ["logs"], .forHuman⟩
    let es : List Rotation.Event := [.write node [t] 0 0, .rotate node 0 (10 ^ 9) (10 ^ 9)]
    (run (Rotation.step .ascii twoSeconds) (start ⟨fun _ => none, 0⟩) es).isSome ∧
      opened .ascii twoSeconds node (start ⟨fun _ => none, 0⟩) es = 2 ∧
      ¬ RotatesForSize .ascii twoSeconds ⟨fun _ => none, 0⟩ node 0 es := by
  intro t node es
  have htwo : opened .ascii twoSeconds node (start ⟨fun _ => none, 0⟩) es = 2 := by
    decide +kernel
  refine ⟨by decide +kernel, htwo, fun hsize => ?_⟩
  have hone := hsize.once rfl ⟨_, List.mem_cons_self .., rfl⟩
  rw [htwo] at hone
  omega

end Hermod.RotationCounts
