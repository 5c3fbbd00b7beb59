import Hermod.AppendOnlyLog

/-!
The bytes that an open file counts, and the length of the file under its path. Counting
begins at zero with every opening, and opening appends, to a name that has the resolution
of a second. Two keys whose nodes share a directory write to one file and count apart.
-/
namespace Hermod.FileSizes

open AppendOnlyLog LogWriter LogWriter.System ProtocolTypes Rotation Transitions
open TracerState (Unicode)

def size (F : Formats) (format : LogFormat) (traces : List TraceObject) : ℕ :=
  (traces.map fun trace => (formatTrace F trace format).utf8ByteSize).sum

def SizedAt (fs : Fs) (h : LogHandle) : Prop :=
  ∃ f, fs.lookup h.path = some (.file f) ∧ h.bytesWritten = f.content.utf8ByteSize

def Sized (s : System) : Prop := ∀ key h, s.handles key = some h → SizedAt s.fs h

/-- A rotation pass opens a new file exactly when the current one has the length of the
limit. -/
def RotatesBySize (u : Unicode) (F : Formats) (s : System) : Prop :=
  ∀ key h, s.handles key = some h → ∃ f, s.fs.lookup h.path = some (.file f) ∧
    ∀ limitBytes now mtime, s.rotateIfNeeded u F key limitBytes now mtime =
      if limitBytes ≤ f.content.utf8ByteSize then
        (openNewFile u F s.fs key now mtime).map (s.install key)
      else some s

def Vacant (u : Unicode) (F : Formats) (fs : Fs) (key : LogKey) (now : ℤ) : Prop :=
  ∀ f, fs.lookup (key.path u (key.filename (F.stamp now))) = some (.file f) → f.content = ""

def Alone (s : System) (key : LogKey) (p : FilePath) : Prop :=
  ∀ k h, k ≠ key → s.handles k = some h → h.path ≠ p

def target (u : Unicode) (F : Formats) (s : System) (key : LogKey) (now : ℤ) : FilePath :=
  match s.handles key with
  | some h => h.path
  | none => key.path u (key.filename (F.stamp now))

/-- What is opened holds no text, and what is written goes to a file of one key. -/
def BeginsEmpty (u : Unicode) (F : Formats) (s : System) : Rotation.Event → Prop
  | .write key traces now _ =>
    (s.handles key = none → Vacant u F s.fs key now) ∧
      (traces ≠ [] → Alone s key (target u F s key now))
  | .rotate key limitBytes now _ =>
    ∀ h, s.handles key = some h → limitBytes ≤ h.bytesWritten → Vacant u F s.fs key now
  | .prune .. => True

/-- Each open file is still under its path, which is a name of the node's directory. -/
def Linked (u : Unicode) (s : System) : Prop :=
  ∀ key h, s.handles key = some h →
    (∃ stamp, h.path = key.path u (key.filename stamp)) ∧
      s.fs.inodeAt h.path = some h.file

theorem Sized.rotatesBySize {u : Unicode} {F : Formats} {s : System} (hs : Sized s) :
    RotatesBySize u F s := by
  intro key h hh
  obtain ⟨f, hf, hsize⟩ := hs key h hh
  refine ⟨f, hf, fun limitBytes now mtime => ?_⟩
  simp only [rotateIfNeeded, hh, hsize]

/-! The lines of a call. -/

/-- A line has its newline at least. -/
theorem formatTrace_pos (F : Formats) (trace : TraceObject) (format : LogFormat) :
    0 < (formatTrace F trace format).utf8ByteSize := by
  have hnewline : "\n".utf8ByteSize = 1 := rfl
  cases format with
  | forHuman =>
    simp only [formatTrace, formatHuman, String.utf8ByteSize_append]
    omega
  | forMachine =>
    simp only [formatTrace, formatMachine, String.utf8ByteSize_append]
    omega

theorem size_eq_zero_iff (F : Formats) (format : LogFormat) (traces : List TraceObject) :
    size F format traces = 0 ↔ traces = [] := by
  cases traces with
  | nil => simp [size]
  | cons trace traces =>
    have hpos := formatTrace_pos F trace format
    have hsum : size F format (trace :: traces) =
        (formatTrace F trace format).utf8ByteSize + size F format traces := by simp [size]
    refine iff_of_false ?_ (List.cons_ne_nil _ _)
    omega

/-- The bytes written are those that the handle counts. -/
theorem utf8ByteSize_lines (F : Formats) (format : LogFormat) (traces : List TraceObject) :
    (String.ofList (lines F format traces)).utf8ByteSize = size F format traces := by
  induction traces with
  | nil => rfl
  | cons trace traces ih =>
    have hcons : lines F format (trace :: traces) =
        (formatTrace F trace format).toList ++ lines F format traces := rfl
    rw [hcons, String.ofList_append, String.utf8ByteSize_append, String.ofList_toList, ih]
    rfl

theorem writeLines_bytesWritten (F : Formats) (format : LogFormat) (mtime : ℤ)
    (traces : List TraceObject) (opened : Fs × LogHandle) :
    (traces.foldl (writeLine F format mtime) opened).2.bytesWritten =
      opened.2.bytesWritten + size F format traces := by
  induction traces generalizing opened with
  | nil => rfl
  | cons trace traces ih =>
    rw [List.foldl_cons, ih]
    simp only [writeLine, size, List.map_cons, List.sum_cons]
    omega

section Lines

variable (F : Formats) (format : LogFormat) (mtime : ℤ) (traces : List TraceObject)
  {opened : Fs × LogHandle} {f : File}

/-- The file of the call has grown by its lines, and the others are as they were. -/
theorem writeLines_grows (hf : opened.1.lookup opened.2.path = some (.file f))
    (hfile : f.inode = opened.2.file) :
    (∃ g, (traces.foldl (writeLine F format mtime) opened).1.lookup opened.2.path =
        some (.file g) ∧
        g.content.utf8ByteSize = f.content.utf8ByteSize + size F format traces) ∧
      ∀ q, q ≠ opened.2.path →
        (traces.foldl (writeLine F format mtime) opened).1.lookup q = opened.1.lookup q := by
  obtain ⟨⟨g, hg, hcontent⟩, hrest⟩ := writeLines_lookup F format mtime traces hf hfile
  refine ⟨⟨g, hg, ?_⟩, hrest⟩
  have hgrown : g.content = f.content ++ String.ofList (lines F format traces) := by
    rw [← String.toList_inj, hcontent, String.toList_append, String.toList_ofList]
  rw [hgrown, String.utf8ByteSize_append, utf8ByteSize_lines]

/-- Writing counts what it writes. -/
theorem sizedAt_writeLines_self (hf : opened.1.lookup opened.2.path = some (.file f))
    (hfile : f.inode = opened.2.file) :
    SizedAt (traces.foldl (writeLine F format mtime) opened).1
        (traces.foldl (writeLine F format mtime) opened).2 ↔ SizedAt opened.1 opened.2 := by
  obtain ⟨⟨g, hg, hgrown⟩, -⟩ := writeLines_grows F format mtime traces hf hfile
  have hpath := (writeLines_spec F format mtime traces opened).1
  have hcount := writeLines_bytesWritten F format mtime traces opened
  simp only [SizedAt, hpath, hg, hf, hcount, Option.some.injEq, Entry.file.injEq,
    exists_eq_left', hgrown]
  omega

/-- A handle on another file counts as before, and one on the same file misses the lines. -/
theorem sizedAt_writeLines_iff (hf : opened.1.lookup opened.2.path = some (.file f))
    (hfile : f.inode = opened.2.file) {h : LogHandle} (hsized : SizedAt opened.1 h) :
    SizedAt (traces.foldl (writeLine F format mtime) opened).1 h ↔
      (traces ≠ [] → h.path ≠ opened.2.path) := by
  obtain ⟨⟨g, hg, hgrown⟩, hrest⟩ := writeLines_grows F format mtime traces hf hfile
  by_cases hp : h.path = opened.2.path
  · have hempty := size_eq_zero_iff F format traces
    simp only [SizedAt, hp, hf, Option.some.injEq, Entry.file.injEq, exists_eq_left'] at hsized
    simp only [SizedAt, hp, hg, Option.some.injEq, Entry.file.injEq, exists_eq_left', hgrown,
      ne_eq, not_true_eq_false, imp_false, not_not]
    rw [← hempty]
    omega
  · refine iff_of_true ?_ fun _ => hp
    rw [SizedAt, hrest _ hp]
    exact hsized

end Lines

/-! The opening of a file. -/

theorem lookup_filename_opened {u : Unicode} {fs : Fs} {key k : LogKey} {stamp stamp' : String}
    {opened : Fs × LogHandle} (h : Opened u fs key stamp opened)
    (hne : k.path u (k.filename stamp') ≠ opened.2.path) :
    opened.1.lookup (k.path u (k.filename stamp')) = fs.lookup (k.path u (k.filename stamp')) := by
  apply h.rest _ hne
  · intro heq
    exact filename_ne_linkName _ _ _ (congrArg FilePath.name heq)
  · intro heq
    exact filename_ne_tmpLinkName _ _ _ (congrArg FilePath.name heq)

section Calls

variable {u : Unicode} {F : Formats} {s s' : System} {key : LogKey} {now mtime : ℤ}
  {opened : Fs × LogHandle}

/-- Opening a file leaves the other open files alone. -/
theorem Linked.lookup_opened (hs : Linked u s)
    (h : openNewFile u F s.fs key now mtime = some opened) {k : LogKey} {handle : LogHandle}
    (hh : s.handles k = some handle) :
    opened.1.lookup handle.path = s.fs.lookup handle.path := by
  obtain ⟨⟨stamp, hpath⟩, hinode⟩ := hs k handle hh
  obtain ⟨f, hf, -⟩ := Fs.inodeAt_eq_some_iff.mp hinode
  obtain ⟨g, hg, -, hbefore⟩ := openNewFile_file h
  by_cases hp : handle.path = opened.2.path
  · rw [← hp] at hg hbefore
    rcases hbefore with hbefore | ⟨hbefore, -⟩
    · rw [hg, hbefore]
    · rw [hf] at hbefore
      cases hbefore
  · rw [hpath] at hp ⊢
    exact lookup_filename_opened (openNewFile_spec h) hp

/-- The files of the open handles are found under their paths after an opening. -/
theorem Linked.install_opened (hs : Linked u s)
    (h : openNewFile u F s.fs key now mtime = some opened) : Linked u (s.install key opened) := by
  intro k handle hh
  rcases install_handles_cases hh with ⟨rfl, rfl⟩ | ⟨-, hh⟩
  · exact ⟨⟨_, (openNewFile_spec h).path⟩, (openNewFile_spec h).inode⟩
  · obtain ⟨hpath, hfile⟩ := hs k handle hh
    refine ⟨hpath, ?_⟩
    have hkept : (s.install key opened).fs.lookup handle.path = s.fs.lookup handle.path :=
      hs.lookup_opened h hh
    rwa [Fs.inodeAt, hkept]

/-- A new handle counts the bytes of its file exactly when there are none. -/
theorem sizedAt_opened_iff (h : openNewFile u F s.fs key now mtime = some opened) :
    SizedAt opened.1 opened.2 ↔ Vacant u F s.fs key now := by
  obtain ⟨f, hf, -, hbefore⟩ := openNewFile_file h
  have hcount := (openNewFile_counts h).2
  have hempty : f.content.utf8ByteSize = 0 ↔ f.content = "" := String.utf8ByteSize_eq_zero_iff
  rw [(openNewFile_spec h).path] at hf hbefore
  simp only [SizedAt, (openNewFile_spec h).path, hf, hcount, Option.some.injEq,
    Entry.file.injEq, exists_eq_left', Vacant]
  rw [eq_comm, hempty]
  rcases hbefore with hbefore | ⟨hbefore, hnone⟩
  · simp [hbefore]
  · simp [hbefore, hnone]

/-- After an opening the handles of the other keys count as before. -/
theorem sizedAt_of_opened (hs : Linked u s) (hsized : Sized s)
    (h : openNewFile u F s.fs key now mtime = some opened) {k : LogKey} {handle : LogHandle}
    (hh : s.handles k = some handle) : SizedAt opened.1 handle := by
  rw [SizedAt, hs.lookup_opened h hh]
  exact hsized k handle hh

/-- The count of a new handle is right exactly when its file is empty. -/
theorem sized_install_opened_iff (hs : Linked u s) (hsized : Sized s)
    (h : openNewFile u F s.fs key now mtime = some opened) :
    Sized (s.install key opened) ↔ Vacant u F s.fs key now := by
  rw [← sizedAt_opened_iff h]
  constructor
  · intro hall
    exact hall key opened.2 (by rw [install_handles, if_pos rfl])
  · intro hself k handle hh
    rcases install_handles_cases hh with ⟨rfl, rfl⟩ | ⟨-, hh⟩
    · exact hself
    · exact sizedAt_of_opened hs hsized h hh

theorem Linked.writeLines (hs : Linked u (s.install key opened)) (format : LogFormat)
    (traces : List TraceObject) :
    Linked u (s.install key (traces.foldl (writeLine F format mtime) opened)) := by
  obtain ⟨hpath, hfile, hnames⟩ := writeLines_spec F format mtime traces opened
  intro k handle hh
  rcases install_handles_cases hh with ⟨rfl, rfl⟩ | ⟨hne, hh⟩
  · obtain ⟨hname, hinode⟩ := hs k opened.2 (by rw [install_handles, if_pos rfl])
    rw [hpath, hfile]
    exact ⟨hname, (hnames _).1.trans hinode⟩
  · obtain ⟨hname, hinode⟩ := hs k handle (by rw [install_handles, if_neg hne, hh])
    exact ⟨hname, (hnames _).1.trans hinode⟩

/-- The lines of a call count for one handle, and are missed by the other handles on its
file. -/
theorem sized_writeLines_iff (hs : Linked u (s.install key opened))
    (hothers : ∀ k handle, k ≠ key → s.handles k = some handle → SizedAt opened.1 handle)
    (format : LogFormat) (traces : List TraceObject) :
    Sized (s.install key (traces.foldl (writeLine F format mtime) opened)) ↔
      SizedAt opened.1 opened.2 ∧ (traces ≠ [] → Alone s key opened.2.path) := by
  obtain ⟨-, hinode⟩ := hs key opened.2 (by rw [install_handles, if_pos rfl])
  obtain ⟨f, hf, hfile⟩ := Fs.inodeAt_eq_some_iff.mp hinode
  have hself := sizedAt_writeLines_self F format mtime traces hf hfile
  constructor
  · intro hall
    refine ⟨hself.mp (hall key _ (by rw [install_handles, if_pos rfl])), ?_⟩
    intro htraces k handle hne hh
    have hsized : SizedAt (traces.foldl (writeLine F format mtime) opened).1 handle :=
      hall k handle (by rw [install_handles, if_neg hne, hh])
    exact (sizedAt_writeLines_iff F format mtime traces hf hfile
      (hothers k handle hne hh)).mp hsized htraces
  · intro h
    obtain ⟨hsized, halone⟩ := h
    intro k handle hh
    rcases install_handles_cases hh with ⟨rfl, rfl⟩ | ⟨hne, hh⟩
    · exact hself.mpr hsized
    · apply (sizedAt_writeLines_iff F format mtime traces hf hfile (hothers k handle hne hh)).mpr
      intro htraces
      exact halone htraces k handle hne hh

/-- A write keeps the counts right exactly when it begins an empty file, if it opens one,
and its file has no other key. -/
theorem writeTraces_sized_iff (hs : Linked u s) (hsized : Sized s) {traces : List TraceObject}
    (h : s.writeTraces u F key traces now mtime = some s') :
    Linked u s' ∧ (Sized s' ↔ BeginsEmpty u F s (.write key traces now mtime)) := by
  unfold writeTraces at h
  obtain ⟨opened, hopen, rfl⟩ := Option.map_eq_some_iff.mp h
  cases hhandle : s.handles key with
  | some handle =>
    simp only [hhandle, Option.some.injEq] at hopen
    subst hopen
    have hlinked : Linked u (s.install key (s.fs, handle)) := by rwa [install_self hhandle]
    refine ⟨hlinked.writeLines key.logFormat traces, ?_⟩
    rw [sized_writeLines_iff hlinked (fun k h _ hh => hsized k h hh)]
    simp only [BeginsEmpty, target, hhandle, reduceCtorEq, false_implies, true_and]
    exact and_iff_right (hsized key handle hhandle)
  | none =>
    simp only [hhandle] at hopen
    have hlinked := hs.install_opened hopen
    refine ⟨hlinked.writeLines key.logFormat traces, ?_⟩
    rw [sized_writeLines_iff hlinked (fun k h _ hh => sizedAt_of_opened hs hsized hopen hh),
      sizedAt_opened_iff hopen, (openNewFile_spec hopen).path]
    simp only [BeginsEmpty, target, hhandle, true_implies]

/-- A rotation keeps the counts right exactly when the file that it opens is empty. -/
theorem rotateIfNeeded_sized_iff (hs : Linked u s) (hsized : Sized s) {limitBytes : ℕ}
    (h : s.rotateIfNeeded u F key limitBytes now mtime = some s') :
    Linked u s' ∧ (Sized s' ↔ BeginsEmpty u F s (.rotate key limitBytes now mtime)) := by
  unfold rotateIfNeeded at h
  split at h
  · rename_i handle hhandle
    split at h
    · rename_i hlimit
      obtain ⟨opened, hopen, rfl⟩ := Option.map_eq_some_iff.mp h
      refine ⟨hs.install_opened hopen, ?_⟩
      rw [sized_install_opened_iff hs hsized hopen]
      simp [BeginsEmpty, hhandle, hlimit]
    · rename_i hlimit
      obtain rfl := Option.some.inj h
      refine ⟨hs, iff_of_true hsized ?_⟩
      intro handle' hh hlimit'
      rw [hhandle, Option.some.injEq] at hh
      rw [← hh] at hlimit'
      exact absurd hlimit' hlimit
  · rename_i hhandle
    obtain rfl := Option.some.inj h
    refine ⟨hs, iff_of_true hsized ?_⟩
    intro handle hh
    rw [hhandle] at hh
    cases hh

theorem step_sized_iff (hs : Linked u s) (hsized : Sized s) {e : Rotation.Event}
    (hno : NoPruning e) (h : Rotation.step u F s e = some s') :
    Linked u s' ∧ (Sized s' ↔ BeginsEmpty u F s e) := by
  cases e with
  | write key traces now mtime => exact writeTraces_sized_iff hs hsized h
  | rotate key limitBytes now mtime => exact rotateIfNeeded_sized_iff hs hsized h
  | prune key maxAgeHours keepFilesNum now listing => exact hno.elim

end Calls

/-- In every state of a run without pruning the open handles have counted the bytes of their
files, and rotation goes by the length of these, exactly when every file that the run opens
is empty and has one key that writes to it. -/
theorem reached_sized_iff {u : Unicode} {F : Formats} {fs : Fs} {es : List Rotation.Event}
    {s : System} (hno : ∀ e ∈ es, NoPruning e)
    (h : run (Rotation.step u F) (start fs) es = some s) :
    (∀ m, Reached (Rotation.step u F) (start fs) es m → Sized m ∧ RotatesBySize u F m) ↔
      Along (Rotation.step u F) (BeginsEmpty u F) (start fs) es := by
  have hboth : (∀ m, Reached (Rotation.step u F) (start fs) es m →
      Sized m ∧ RotatesBySize u F m) ↔
      ∀ m, Reached (Rotation.step u F) (start fs) es m → Sized m := by
    constructor
    · intro hall m hm
      exact (hall m hm).1
    · intro hall m hm
      exact ⟨hall m hm, (hall m hm).rotatesBySize⟩
  rw [hboth]
  refine reached_iff_along_of (I := Linked u) (fun _ _ _ hs hsized hno hstep =>
    step_sized_iff hs hsized hno hstep) ?_ ?_ (along_of_forall _ hno) h
  · intro key handle hh
    cases hh
  · intro key handle hh
    cases hh

theorem reached_sized_iff_rotations :
    let t : TraceObject := ⟨none, "{}", ["Test"], .info, .dNormal, ⟨0, 0, by decide⟩, "host", "1"⟩
    ∃ s, run (Rotation.step .ascii twoSeconds) (start ⟨fun _ => none, 0⟩) (rotations t) = some s ∧
      ((∀ m, Reached (Rotation.step .ascii twoSeconds) (start ⟨fun _ => none, 0⟩) (rotations t) m →
          Sized m ∧ RotatesBySize .ascii twoSeconds m) ↔
        Along (Rotation.step .ascii twoSeconds) (BeginsEmpty .ascii twoSeconds)
          (start ⟨fun _ => none, 0⟩) (rotations t)) := by
  intro t
  obtain ⟨s, hrun⟩ : ∃ s, run (Rotation.step .ascii twoSeconds) (start ⟨fun _ => none, 0⟩)
      (rotations t) = some s := Option.isSome_iff_exists.mp (by decide +kernel)
  exact ⟨s, hrun, reached_sized_iff (by simp [rotations, NoPruning]) hrun⟩

/-- A file is rotated within the second that it was opened in. The rotation opens it again
and counts from zero, and the next pass finds nothing to rotate. -/
theorem reopened_file_counts_zero :
    let t : TraceObject := ⟨none, "0", ["Test"], .info, .dNormal, ⟨0, 0, by decide⟩, "host", "1"⟩
    let node : LogKey := ⟨"node", ["logs"], .forHuman⟩
    let h : LogHandle := ⟨0, ⟨["logs", "node"], "node-1970-01-01T00-00-00.log"⟩, 0⟩
    let f : File := ⟨0, "1970-01-01T00:00:00.000Z [Info] Test 0\n", 0⟩
    ∃ s, run (Rotation.step .ascii epoch) (start ⟨fun _ => none, 0⟩)
        [.write node [t] 0 0, .rotate node 1 1 1] = some s ∧
      s.handles node = some h ∧ s.fs.lookup h.path = some (.file f) ∧
      s.rotateIfNeeded .ascii epoch node 1 2 2 = some s ∧ ¬ Sized s := by
  intro t node h f
  have hrun : (run (Rotation.step .ascii epoch) (start ⟨fun _ => none, 0⟩)
      [.write node [t] 0 0, .rotate node 1 1 1]).map
        (fun s => (s.handles node, s.fs.lookup h.path)) = some (some h, some (.file f)) := by
    decide +kernel
  obtain ⟨s, hs, hread⟩ := Option.map_eq_some_iff.mp hrun
  obtain ⟨hh, hf⟩ := Prod.mk.inj hread
  refine ⟨s, hs, hh, hf, ?_, ?_⟩
  · simp [rotateIfNeeded, hh, h]
  · intro hsized
    obtain ⟨g, hg, hcount⟩ := hsized node h hh
    rw [hf, Option.some.injEq, Entry.file.injEq] at hg
    rw [← hg] at hcount
    revert hcount
    decide +kernel

end Hermod.FileSizes
