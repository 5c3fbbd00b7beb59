import Hermod.Retention
import Hermod.RotationCounts
import Mathlib.Data.List.Perm.Subperm

/-!
How many log files a key has. A pruning pass leaves no more than are to be kept, whatever
their times are, and after it each opening adds one at most.
-/
namespace Hermod.LogFileCounts

open AppendOnlyLog LogWriter LogWriter.System ProtocolTypes Retention Rotation RotationCounts
open StableSort Transitions
open TracerState (Unicode)

/-- The log files of a key that have a name. -/
def logFiles (u : Unicode) (fs : Fs) (key : LogKey) : List String :=
  (logNames (ext key.logFormat) (entries fs (key.nodeDir u))).filter fun n =>
    (fs.inodeAt (key.path u n)).isSome

section Files

variable {u : Unicode} {F : Formats} {fs fs' : Fs} {key : LogKey} {n : String}

theorem mem_logFiles :
    n ∈ logFiles u fs key ↔
      isLogName (ext key.logFormat) n = true ∧ (fs.inodeAt (key.path u n)).isSome := by
  rw [logFiles, List.mem_filter]
  constructor
  · intro h
    exact ⟨(mem_logNames_iff.mp h.1).1, h.2⟩
  · intro h
    refine ⟨mem_logNames_iff.mpr ⟨h.1, ?_⟩, h.2⟩
    obtain ⟨inode, hinode⟩ := Option.isSome_iff_exists.mp h.2
    obtain ⟨f, hf, -⟩ := Fs.inodeAt_eq_some_iff.mp hinode
    rw [hf]
    rfl

theorem nodup_logFiles (u : Unicode) (fs : Fs) (key : LogKey) : (logFiles u fs key).Nodup :=
  (nodup_logNames ..).filter _

/-- There are no more files than names that all of them have. -/
theorem length_logFiles_le {names : List String} (h : logFiles u fs key ⊆ names) :
    (logFiles u fs key).length ≤ names.length :=
  (List.subperm_of_subset (nodup_logFiles u fs key) h).length_le

/-! A pruning pass. -/

theorem inodeAt_isSome_iff (fs : Fs) (p : FilePath) :
    (fs.inodeAt p).isSome ↔ ((fs.lookup p).bind fileTime).isSome := by
  unfold Fs.inodeAt
  cases fs.lookup p with
  | none => rfl
  | some e => cases e <;> rfl

/-- A pass takes names away and changes nothing else. -/
theorem lookup_pruneOldFiles_cases {dir : Path} {listing : List String}
    (hlisting : listing.Perm (names fs dir)) (extension : String) (maxAgeHours : UInt64)
    (keepFilesNum : UInt32) (now : ℤ) (p : FilePath) :
    (pruneOldFiles fs dir extension maxAgeHours keepFilesNum now listing).lookup p = none ∨
      (pruneOldFiles fs dir extension maxAgeHours keepFilesNum now listing).lookup p =
        fs.lookup p := by
  rw [lookup_pruneOldFiles_entries fs dir p hlisting]
  by_cases hdir : p.dir = dir
  · rw [if_pos hdir, lookup_entries fs p, hdir]
    unfold pruned
    cases hprune : pruneDir (entries fs dir) extension maxAgeHours keepFilesNum now listing with
    | none => exact Or.inr rfl
    | some d =>
      obtain ⟨age, -, rfl⟩ := Option.map_eq_some_iff.mp hprune
      rw [Option.getD_some]
      exact lookup_removeMarked_cases _ _ _ p.name
  · rw [if_neg hdir]
    exact Or.inr rfl

/-- A file that is left was there, and nothing marked it. -/
theorem unmarked_of_mem_pruned {maxAgeHours : UInt64} {keepFilesNum : UInt32} {now : ℤ}
    {listing : List String} (hlisting : listing.Perm (names fs (key.nodeDir u)))
    (h : n ∈ logFiles u (pruneOldFiles fs (key.nodeDir u) (ext key.logFormat) maxAgeHours
      keepFilesNum now listing) key) :
    ∃ mtime, (n, mtime) ∈ files (entries fs (key.nodeDir u)) (ext key.logFormat) listing ∧
      Unmarked (entries fs (key.nodeDir u)) (ext key.logFormat) maxAgeHours keepFilesNum now
        listing n := by
  obtain ⟨hlog, hsome⟩ := mem_logFiles.mp h
  rw [inodeAt_isSome_iff] at hsome
  have hsame := (lookup_pruneOldFiles_cases hlisting (ext key.logFormat) maxAgeHours
    keepFilesNum now (key.path u n)).resolve_left fun hnone => by
      rw [hnone] at hsome
      cases hsome
  rw [hsame, lookup_entries] at hsome
  obtain ⟨mtime, hmtime⟩ := Option.isSome_iff_exists.mp hsome
  have hlisted : n ∈ listing := by
    obtain ⟨f, hf, -⟩ := fileTime_eq_some_iff.mp hmtime
    rw [names_eq] at hlisting
    exact hlisting.mem_iff.mpr (AList.mem_keys.mp (AList.lookup_isSome.mp
      (Option.isSome_of_eq_some hf)))
  exact ⟨mtime, mem_files.mpr ⟨hlisted, hlog, modified_of_fileTime hmtime⟩,
    (lookup_pruneOldFiles_iff hlisting hlisted hlog hmtime).mp hsame⟩

/-- What is left are some of the first files in the order of the pass. -/
theorem logFiles_pruned_subset {maxAgeHours : UInt64} {keepFilesNum : UInt32} {now : ℤ}
    {listing : List String} (hlisting : listing.Perm (names fs (key.nodeDir u)))
    (hage : (maxAge maxAgeHours).isSome) (hlength : listing.length ≤ 2 ^ 32) :
    logFiles u (pruneOldFiles fs (key.nodeDir u) (ext key.logFormat) maxAgeHours keepFilesNum now
        listing) key ⊆
      (((files (entries fs (key.nodeDir u)) (ext key.logFormat) listing).insertionSort
        NotOlder).take keepFilesNum.toNat).map Prod.fst := by
  intro n hn
  obtain ⟨age, hage⟩ := Option.isSome_iff_exists.mp hage
  obtain ⟨mtime, hmem, hunmarked⟩ := unmarked_of_mem_pruned hlisting hn
  have hpairs := files_nodup_pairs (entries fs (key.nodeDir u)) (ext key.logFormat)
    (listing_nodup hlisting)
  have hle : (files (entries fs (key.nodeDir u)) (ext key.logFormat) listing).length ≤
      listing.length := (List.length_filterMap_le _ _).trans (List.length_filter_le _ _)
  obtain ⟨before, after, hsplit⟩ := List.append_of_mem hmem
  have hkept := (kept_iff (listing_nodup hlisting) hsplit).mp (hunmarked age hage)
  rw [hsplit] at hpairs hle ⊢
  have hrank := rank_lt_length (r := NotOlder) before (n, mtime) after
  rw [exceedsCount_iff (by omega)] at hkept
  have hsorted : (n, mtime) ∈ (before ++ (n, mtime) :: after).insertionSort NotOlder :=
    (List.mem_insertionSort NotOlder).mpr (by simp)
  rw [← List.take_append_drop keepFilesNum.toNat
    ((before ++ (n, mtime) :: after).insertionSort NotOlder), List.mem_append] at hsorted
  refine List.mem_map.mpr ⟨(n, mtime), hsorted.resolve_right fun hdrop => ?_, rfl⟩
  exact hkept.2 (le_rank_of_mem_drop hpairs hdrop)

theorem length_logFiles_pruned_le {maxAgeHours : UInt64} {keepFilesNum : UInt32} {now : ℤ}
    {listing : List String} (hlisting : listing.Perm (names fs (key.nodeDir u)))
    (hage : (maxAge maxAgeHours).isSome) (hlength : listing.length ≤ 2 ^ 32) :
    (logFiles u (pruneOldFiles fs (key.nodeDir u) (ext key.logFormat) maxAgeHours keepFilesNum
      now listing) key).length ≤ keepFilesNum.toNat := by
  refine (length_logFiles_le (logFiles_pruned_subset hlisting hage hlength)).trans ?_
  rw [List.length_map, List.length_take]
  exact Nat.min_le_left ..

end Files

/-! The other calls. -/

section Step

variable {u : Unicode} {F : Formats} {keys : List LogKey} {s s' : System} {key : LogKey}

/-- An opening adds the file that is opened. -/
theorem logFiles_open_subset (hdistinct : Distinct u keys) (hkey : key ∈ keys) {k : LogKey}
    (hk : k ∈ keys) {fs : Fs} {now mtime : ℤ} {opened : Fs × LogHandle}
    (h : openNewFile u F fs k now mtime = some opened) :
    logFiles u opened.1 key ⊆
      (if k = key then [key.filename (F.stamp now)] else []) ++ logFiles u fs key := by
  have hopened := openNewFile_spec h
  intro n hn
  obtain ⟨hlog, hsome⟩ := mem_logFiles.mp hn
  rw [List.mem_append, mem_logFiles]
  by_cases hself : k = key ∧ n = key.filename (F.stamp now)
  · left
    rw [if_pos hself.1, hself.2]
    exact List.mem_singleton_self _
  · right
    refine ⟨hlog, ?_⟩
    have hne : key ≠ k ∨ n ≠ k.filename (F.stamp now) := by
      by_cases hkk : key = k
      · right
        subst hkk
        exact fun hname => hself ⟨rfl, hname⟩
      · exact Or.inl hkk
    have hrest : opened.1.lookup (key.path u n) = fs.lookup (key.path u n) := by
      apply hopened.rest
      · rw [hopened.path]
        exact path_ne hdistinct hkey hk hlog (isLogName_filename k _) hne
      · intro heq
        obtain rfl : n = k.linkName := congrArg FilePath.name heq
        rw [isLogName_linkName] at hlog
        cases hlog
      · intro heq
        obtain rfl : n = k.tmpLinkName := congrArg FilePath.name heq
        rw [isLogName_tmpLinkName] at hlog
        cases hlog
    rwa [Fs.inodeAt, ← hrest]

theorem logFiles_writeLines (F : Formats) (format : LogFormat) (mtime : ℤ)
    (traces : List TraceObject) (opened : Fs × LogHandle) :
    logFiles u (traces.foldl (writeLine F format mtime) opened).1 key ⊆
      logFiles u opened.1 key := by
  intro n hn
  obtain ⟨hlog, hsome⟩ := mem_logFiles.mp hn
  rw [((writeLines_spec F format mtime traces opened).2.2 _).1] at hsome
  exact mem_logFiles.mpr ⟨hlog, hsome⟩

/-- A pass makes no file. -/
theorem logFiles_prune_subset {k : LogKey} {fs : Fs} {maxAgeHours : UInt64}
    {keepFilesNum : UInt32} {now : ℤ} {listing : List String}
    (hlisting : listing.Perm (names fs (k.nodeDir u))) :
    logFiles u (pruneOldFiles fs (k.nodeDir u) (ext k.logFormat) maxAgeHours keepFilesNum now
      listing) key ⊆ logFiles u fs key := by
  intro n hn
  obtain ⟨hlog, hsome⟩ := mem_logFiles.mp hn
  refine mem_logFiles.mpr ⟨hlog, ?_⟩
  rw [inodeAt_isSome_iff] at hsome ⊢
  rcases lookup_pruneOldFiles_cases hlisting (ext k.logFormat) maxAgeHours keepFilesNum now
    (key.path u n) with hnone | hsame
  · rw [hnone] at hsome
    cases hsome
  · rwa [hsame] at hsome

/-- A call adds no more files than it opens. -/
theorem step_logFiles (hdistinct : Distinct u keys) (hkey : key ∈ keys) {e : Rotation.Event}
    (he : e.key ∈ keys) (h : Rotation.step u F s e = some s') :
    ∃ new, logFiles u s'.fs key ⊆ new ++ logFiles u s.fs key ∧
      new.length ≤ if e.key = key then s'.fs.nextInode - s.fs.nextInode else 0 := by
  have hopening : ∀ k ∈ keys, ∀ now mtime opened fs,
      openNewFile u F s.fs k now mtime = some opened →
      logFiles u fs key ⊆ logFiles u opened.1 key → fs.nextInode = opened.1.nextInode →
      ∃ new, logFiles u fs key ⊆ new ++ logFiles u s.fs key ∧
        new.length ≤ if k = key then fs.nextInode - s.fs.nextInode else 0 := by
    intro k hk now mtime opened fs hopen hsubset hnext
    have hcounts := (openNewFile_counts hopen).1
    refine ⟨_, List.Subset.trans hsubset (logFiles_open_subset hdistinct hkey hk hopen), ?_⟩
    by_cases hkk : k = key
    · rw [if_pos hkk, if_pos hkk, List.length_singleton]
      omega
    · rw [if_neg hkk, if_neg hkk, List.length_nil]
  cases e with
  | write k traces now mtime =>
    obtain ⟨opened, hopen, rfl⟩ := Option.map_eq_some_iff.mp h
    have hwritten := @logFiles_writeLines u key F k.logFormat mtime traces opened
    have hinode := writeLines_nextInode F k.logFormat mtime traces opened
    cases hhandle : s.handles k with
    | some handle =>
      simp only [hhandle, Option.some.injEq] at hopen
      subst hopen
      exact ⟨[], hwritten, Nat.zero_le _⟩
    | none =>
      simp only [hhandle] at hopen
      exact hopening k he now mtime opened _ hopen hwritten hinode
  | rotate k limitBytes now mtime =>
    rw [Rotation.step, rotateIfNeeded] at h
    split at h
    · split at h
      · obtain ⟨opened, hopen, rfl⟩ := Option.map_eq_some_iff.mp h
        exact hopening k he now mtime opened _ hopen (List.Subset.refl _) rfl
      · rw [← Option.some.inj h]
        exact ⟨[], List.Subset.refl _, Nat.zero_le _⟩
    · rw [← Option.some.inj h]
      exact ⟨[], List.Subset.refl _, Nat.zero_le _⟩
  | prune k maxAgeHours keepFilesNum now listing =>
    rw [Rotation.step] at h
    split at h
    · rename_i hlisting
      rw [← Option.some.inj h]
      exact ⟨[], logFiles_prune_subset hlisting, Nat.zero_le _⟩
    · cases h

/-- So it is with the files of any kind. -/
theorem step_countP (hdistinct : Distinct u keys) (hkey : key ∈ keys) {e : Rotation.Event}
    (he : e.key ∈ keys) (p : String → Bool) (h : Rotation.step u F s e = some s') :
    (logFiles u s'.fs key).countP p ≤ (logFiles u s.fs key).countP p +
      if e.key = key then s'.fs.nextInode - s.fs.nextInode else 0 := by
  obtain ⟨new, hsubset, hlength⟩ := step_logFiles hdistinct hkey he h
  have hle := (List.subperm_of_subset (nodup_logFiles u s'.fs key) hsubset).countP_le p
  have hnew := List.countP_le_length (p := p) (l := new)
  rw [List.countP_append] at hle
  omega

theorem opened_cons {e : Rotation.Event} {es : List Rotation.Event}
    (h : Rotation.step u F s e = some s') :
    opened u F key s (e :: es) =
      (if e.key = key then s'.fs.nextInode - s.fs.nextInode else 0) + opened u F key s' es := by
  rw [opened, h]

/-- A run has at most as many new files as it opens. -/
theorem run_logFiles (hdistinct : Distinct u keys) (hkey : key ∈ keys)
    {es : List Rotation.Event} (hkeys : ∀ e ∈ es, e.key ∈ keys)
    (h : run (Rotation.step u F) s es = some s') :
    (logFiles u s'.fs key).length ≤ (logFiles u s.fs key).length + opened u F key s es := by
  induction es generalizing s with
  | nil =>
    rw [← Option.some.inj h]
    exact Nat.le_add_right ..
  | cons e es ih =>
    obtain ⟨m, hstep, hrest⟩ := run_cons_iff.mp h
    rw [List.forall_mem_cons] at hkeys
    have hfirst := step_countP hdistinct hkey hkeys.1 (fun _ => true) hstep
    have hlater := ih hkeys.2 hrest
    rw [List.countP_true] at hfirst
    rw [opened_cons hstep]
    omega

end Step

/-- Whatever was there before, and whenever it was written, from a pass on a key has no more
files than the pass keeps and those that have been opened since. -/
theorem files_bounded {u : Unicode} {F : Formats} {keys : List LogKey} {s m s' : System}
    {key : LogKey} {maxAgeHours : UInt64} {keepFilesNum : UInt32} {now : ℤ}
    {listing : List String} {es : List Rotation.Event} (hdistinct : Distinct u keys)
    (hkey : key ∈ keys) (hkeys : ∀ e ∈ es, e.key ∈ keys) (hage : (maxAge maxAgeHours).isSome)
    (hlength : listing.length ≤ 2 ^ 32)
    (hpass : Rotation.step u F s (.prune key maxAgeHours keepFilesNum now listing) = some m)
    (h : run (Rotation.step u F) m es = some s') :
    (logFiles u s'.fs key).length ≤ keepFilesNum.toNat + opened u F key m es := by
  have hleft : (logFiles u m.fs key).length ≤ keepFilesNum.toNat := by
    rw [Rotation.step] at hpass
    split at hpass
    · rename_i hlisting
      rw [← Option.some.inj hpass]
      exact length_logFiles_pruned_le hlisting hage hlength
    · cases hpass
  have hrun := run_logFiles hdistinct hkey hkeys h
  omega

/-- A file is opened in each of the first two seconds, a pass keeps one of them, and a third
opening takes the name of the second. -/
theorem files_bounded_twoSeconds :
    let node : LogKey := ⟨"node", ["logs"], .forHuman⟩
    let pass : Rotation.Event := .prune node 0 1 (10 ^ 9 + 1) ["node.log",
      "node-1970-01-01T00-00-01.log", "node-1970-01-01T00-00-00.log"]
    let later : List Rotation.Event := [.rotate node 0 (10 ^ 9 + 2) (10 ^ 9 + 2)]
    ∃ s m s', run (Rotation.step .ascii twoSeconds) (start ⟨fun _ => none, 0⟩)
        [.write node [] 0 0, .rotate node 0 (10 ^ 9) (10 ^ 9)] = some s ∧
      Rotation.step .ascii twoSeconds s pass = some m ∧
      run (Rotation.step .ascii twoSeconds) m later = some s' ∧
      (logFiles .ascii s'.fs node).length ≤ 1 + opened .ascii twoSeconds node m later := by
  intro node pass later
  obtain ⟨s', hrun⟩ : ∃ s', run (Rotation.step .ascii twoSeconds) (start ⟨fun _ => none, 0⟩)
      (([.write node [] 0 0, .rotate node 0 (10 ^ 9) (10 ^ 9)] ++ [pass]) ++ later) = some s' :=
    Option.isSome_iff_exists.mp (by decide +kernel)
  obtain ⟨m, hm, hlater⟩ := run_concat_iff.mp hrun
  obtain ⟨s, hs, hpass⟩ := run_concat_iff.mp hm
  have hrest : run (Rotation.step .ascii twoSeconds) m later = some s' :=
    run_cons_iff.mpr ⟨s', hlater, rfl⟩
  have hkeys : ∀ e ∈ later, e.key ∈ [node] := by decide
  exact ⟨s, m, s', hs, hpass, hrest, files_bounded (by decide) (List.mem_singleton_self node)
    hkeys (by decide) (by decide) hpass hrest⟩

end Hermod.LogFileCounts
