import Hermod.AgeLimit
import Hermod.LogFileCounts
import Hermod.MachineLog

/-!
What pruning leaves of a log. The files of a key are in the order of their times, so a pass
removes the oldest of them, and what is left is the end of the log. As long as the passes
keep more files than have been opened since some moment, nothing that was written since is
lost.
-/
namespace Hermod.RetainedLog

open AppendOnlyLog LogFileCounts LogLines LogWriter LogWriter.System MachineLog
open ProtocolTypes Retention Rotation RotationCounts Segments StableSort Transitions
open TextLines (Text)
open TracerState (Unicode)

def Dated (u : Unicode) (fs : Fs) (key : LogKey) (name : String) (t : ℤ) : Prop :=
  isLogName (ext key.logFormat) name = true ∧ (fs.lookup (key.path u name)).bind fileTime = some t

def mtimeOf : Rotation.Event → Option ℤ
  | .write _ _ _ mtime => some mtime
  | .rotate _ _ _ mtime => some mtime
  | .prune .. => none

/-- Neither the age limit nor the rank of a file wraps. -/
def Unwrapped : Rotation.Event → Prop
  | .prune _ maxAgeHours _ _ listing => maxAgeHours.toNat < 2 ^ 63 ∧ listing.length ≤ 2 ^ 32
  | _ => True

/-- The log names of a key are those of files, which are modified one after the other and
before the `times` to come, and end with their last line. -/
structure Ordered (u : Unicode) (key : LogKey) (times : List ℤ) (fs : Fs) : Prop where
  dated : ∀ n, Taken u fs key n → ∃ t, Dated u fs key n t
  increasing : ∀ n n' t t', Dated u fs key n t → Dated u fs key n' t' → n < n' → t < t'
  earlier : ∀ n t, Dated u fs key n t → ∀ t' ∈ times, t < t'
  closed : ∀ n, Taken u fs key n → ¬ TextLines.Open (contentAt (entries fs (key.nodeDir u)) n)

/-- A pass over the key keeps more than `n` files, and none from `name` on is too old. -/
def SparesFrom (u : Unicode) (key : LogKey) (name : String) (n : ℕ) (s : System) :
    Rotation.Event → Prop
  | .prune k maxAgeHours keepFilesNum now _ => k = key → n < keepFilesNum.toNat ∧
      ∀ age, maxAge maxAgeHours = some age → ∀ file t, Dated u s.fs key file t → name ≤ file →
        ¬ TooOld maxAgeHours age now t
  | _ => True

def newer (u : Unicode) (fs : Fs) (key : LogKey) (name : String) : ℕ :=
  (logFiles u fs key).countP fun n => name < n

section Pass

variable {u : Unicode} {fs : Fs} {key : LogKey} {n n' : String} {t t' : ℤ} {times : List ℤ}

theorem Dated.taken (h : Dated u fs key n t) : Taken u fs key n := by
  obtain ⟨f, hf, -⟩ := fileTime_eq_some_iff.mp h.2
  exact ⟨h.1, by rw [hf]; rfl⟩

theorem Dated.time_unique (h : Dated u fs key n t) (h' : Dated u fs key n t') : t = t' :=
  Option.some.inj (h.2.symm.trans h'.2)

theorem mem_logFiles_iff : n ∈ logFiles u fs key ↔ ∃ t, Dated u fs key n t := by
  rw [mem_logFiles, inodeAt_isSome_iff, Option.isSome_iff_exists]
  constructor
  · rintro ⟨hlog, t, ht⟩
    exact ⟨t, hlog, ht⟩
  · rintro ⟨t, hlog, ht⟩
    exact ⟨hlog, t, ht⟩

/-- The times are in the order of the names. -/
theorem Ordered.lt_iff (ho : Ordered u key times fs) (h : Dated u fs key n t)
    (h' : Dated u fs key n' t') : n < n' ↔ t < t' := by
  constructor
  · exact ho.increasing n n' t t' h h'
  · intro hlt
    rcases lt_trichotomy n n' with hnn | rfl | hnn
    · exact hnn
    · exact absurd (h.time_unique h') hlt.ne
    · exact absurd (ho.increasing n' n t' t h' h hnn) (not_lt_of_gt hlt)

/-- If no two times are the same, the rank of a file is the number of those that are newer. -/
theorem rank_eq_countP {before after : List (String × ℤ)} {f : String × ℤ}
    (h : ∀ g ∈ before ++ after, g.2 ≠ f.2) :
    rank NotOlder before f after =
      (before ++ f :: after).countP fun g => decide (f.2 < g.2) := by
  have hbefore : before.countP (fun g => decide (NotOlder g f)) =
      before.countP fun g => decide (f.2 < g.2) := by
    apply List.countP_congr
    intro g hg
    have hne := h g (List.mem_append_left _ hg)
    rw [decide_eq_true_eq, decide_eq_true_eq, NotOlder]
    omega
  have hafter : after.countP (fun g => decide (¬ NotOlder f g)) =
      after.countP fun g => decide (f.2 < g.2) := by
    apply List.countP_congr
    intro g _
    rw [decide_eq_true_eq, decide_eq_true_eq, NotOlder]
    omega
  rw [rank, hbefore, hafter, List.countP_append, List.countP_cons]
  simp

/-- The files that a pass considers are the log files. -/
theorem files_perm_logFiles (ho : Ordered u key times fs) {listing : List String}
    (hlisting : listing.Perm (names fs (key.nodeDir u))) :
    ((files (entries fs (key.nodeDir u)) (ext key.logFormat) listing).map Prod.fst).Perm
      (logFiles u fs key) := by
  rw [List.perm_ext_iff_of_nodup (files_nodup _ _ (listing_nodup hlisting))
    (nodup_logFiles u fs key)]
  intro n
  rw [mem_logFiles_iff, List.mem_map]
  constructor
  · rintro ⟨f, hf, rfl⟩
    obtain ⟨-, hlog, hmodified⟩ := mem_files.mp hf
    apply ho.dated
    refine ⟨hlog, ?_⟩
    rw [lookup_entries]
    exact Option.isSome_of_isSome_bind (Option.isSome_of_eq_some hmodified)
  · rintro ⟨t, hlog, ht⟩
    rw [lookup_entries] at ht
    have hlisted : n ∈ listing := by
      obtain ⟨f, hf, -⟩ := fileTime_eq_some_iff.mp ht
      rw [names_eq] at hlisting
      exact hlisting.mem_iff.mpr (AList.mem_keys.mp (AList.lookup_isSome.mp
        (Option.isSome_of_eq_some hf)))
    exact ⟨(n, t), mem_files.mpr ⟨hlisted, hlog, modified_of_fileTime ht⟩, rfl⟩

theorem dated_of_mem_files (ho : Ordered u key times fs) {listing : List String}
    {f : String × ℤ}
    (hf : f ∈ files (entries fs (key.nodeDir u)) (ext key.logFormat) listing) :
    Dated u fs key f.1 f.2 := by
  obtain ⟨-, hlog, hmodified⟩ := mem_files.mp hf
  have htaken : Taken u fs key f.1 := by
    refine ⟨hlog, ?_⟩
    rw [lookup_entries]
    exact Option.isSome_of_isSome_bind (Option.isSome_of_eq_some hmodified)
  obtain ⟨t, ht⟩ := ho.dated f.1 htaken
  have hsame := modified_of_fileTime ht.2
  rw [lookup_entries] at hsame
  have heq : t = f.2 := Option.some.inj (hsame.symm.trans hmodified)
  exact heq ▸ ht

/-- In a listing the rank of a file is that of its name. -/
theorem rank_eq_newer (ho : Ordered u key times fs) {listing : List String}
    (hlisting : listing.Perm (names fs (key.nodeDir u))) {before after : List (String × ℤ)}
    {f : String × ℤ}
    (hsplit : files (entries fs (key.nodeDir u)) (ext key.logFormat) listing =
      before ++ f :: after) : rank NotOlder before f after = newer u fs key f.1 := by
  have hdated : ∀ g ∈ before ++ f :: after, Dated u fs key g.1 g.2 := by
    intro g hg
    rw [← hsplit] at hg
    exact dated_of_mem_files ho hg
  have hf := hdated f (by simp)
  have hnodup := files_nodup (entries fs (key.nodeDir u)) (ext key.logFormat)
    (listing_nodup hlisting)
  rw [hsplit, List.map_append, List.map_cons, List.nodup_middle, List.nodup_cons,
    ← List.map_append] at hnodup
  have hdistinct : ∀ g ∈ before ++ after, g.2 ≠ f.2 := by
    intro g hg heq
    have hg' := hdated g (by simp at hg ⊢; tauto)
    rcases lt_trichotomy g.1 f.1 with hlt | hname | hlt
    · exact absurd heq (ho.increasing _ _ _ _ hg' hf hlt).ne
    · exact hnodup.1 (List.mem_map.mpr ⟨g, hg, hname⟩)
    · exact absurd heq.symm (ho.increasing _ _ _ _ hf hg' hlt).ne
  have hcount : (before ++ f :: after).countP (fun g => decide (f.2 < g.2)) =
      (before ++ f :: after).countP ((fun n => decide (f.1 < n)) ∘ Prod.fst) := by
    apply List.countP_congr
    intro g hg
    rw [decide_eq_true_eq, Function.comp_apply, decide_eq_true_eq]
    exact (ho.lt_iff hf (hdated g hg)).symm
  rw [rank_eq_countP hdistinct, hcount, ← List.countP_map, newer, ← hsplit]
  exact (files_perm_logFiles ho hlisting).countP_eq _

/-- What marks a file is its time and its rank. -/
theorem unmarked_iff (ho : Ordered u key times fs) {maxAgeHours : UInt64}
    {keepFilesNum : UInt32} {now : ℤ} {listing : List String}
    (hlisting : listing.Perm (names fs (key.nodeDir u))) (hlength : listing.length ≤ 2 ^ 32)
    (h : Dated u fs key n t) :
    Unmarked (entries fs (key.nodeDir u)) (ext key.logFormat) maxAgeHours keepFilesNum now
        listing n ↔
      ∀ age, maxAge maxAgeHours = some age →
        ¬ TooOld maxAgeHours age now t ∧ newer u fs key n < keepFilesNum.toNat := by
  obtain ⟨f, hf, hfst⟩ := List.mem_map.mp
    ((files_perm_logFiles ho hlisting).mem_iff.mpr (mem_logFiles_iff.mpr ⟨t, h⟩))
  subst hfst
  obtain rfl : f.2 = t := (dated_of_mem_files ho hf).time_unique h
  obtain ⟨before, after, hsplit⟩ := List.append_of_mem hf
  have hrank := rank_lt_length (r := NotOlder) before f after
  have hle : (files (entries fs (key.nodeDir u)) (ext key.logFormat) listing).length ≤
      listing.length := (List.length_filterMap_le _ _).trans (List.length_filter_le _ _)
  rw [hsplit] at hle
  rw [Unmarked]
  refine forall_congr' fun age => forall_congr' fun _ => ?_
  rw [kept_iff (listing_nodup hlisting) hsplit, exceedsCount_iff (by omega),
    rank_eq_newer ho hlisting hsplit, not_le]

/-- What is too old stays so when it is older. -/
theorem tooOld_of_le {maxAgeHours : UInt64} (hwrap : maxAgeHours.toNat < 2 ^ 63) {age now : ℤ}
    (hage : maxAge maxAgeHours = some age) (hle : t ≤ t')
    (h : TooOld maxAgeHours age now t') : TooOld maxAgeHours age now t := by
  have hnonneg : 0 ≤ age := by
    rw [maxAge, AgeLimit.toInt_toInt64, if_pos hwrap, hours] at hage
    split at hage
    · rw [← Option.some.inj hage]
      positivity
    · cases hage
  rw [AgeLimit.tooOld_iff] at h ⊢
  have hrecorded : AgeLimit.recorded t ≤ AgeLimit.recorded t' := by
    unfold AgeLimit.recorded
    have hmax : max t 0 ≤ max t' 0 := max_le_max_right 0 hle
    have hdiv := Int.ediv_le_ediv (c := 10 ^ 9) (by norm_num) hmax
    exact Int.mul_le_mul_of_nonneg_right hdiv (by norm_num)
  refine ⟨h.1, ?_⟩
  have hlt := h.2
  split at hlt
  · rename_i hcalendar
    rw [if_pos (hrecorded.trans_lt hcalendar)]
    omega
  · omega

theorem newer_le (h : n ≤ n') : newer u fs key n' ≤ newer u fs key n := by
  apply List.countP_mono_left
  intro m _ hm
  rw [decide_eq_true_eq] at hm ⊢
  exact lt_of_le_of_lt h hm

/-- A file from `name` on has a rank below the number of these files. -/
theorem newer_lt {name : String} (hmem : n ∈ logFiles u fs key) (hle : name ≤ n) :
    newer u fs key n < (logFiles u fs key).countP fun n => name ≤ n := by
  obtain ⟨before, after, hsplit⟩ := List.append_of_mem hmem
  have hmono : ∀ l : List String,
      l.countP (fun m => decide (n < m)) ≤ l.countP fun m => decide (name ≤ m) := by
    intro l
    apply List.countP_mono_left
    intro m _ hm
    rw [decide_eq_true_eq] at hm ⊢
    exact hle.trans hm.le
  have hbefore := hmono before
  have hafter := hmono after
  rw [newer, hsplit, List.countP_append, List.countP_append,
    List.countP_cons_of_neg (by simp), List.countP_cons_of_pos (by simpa using hle)]
  omega

/-- Behind the last name there is at most that one. -/
theorem countP_le_one {name : String} (hlast : ∀ file, Taken u fs key file → file ≤ name) :
    (logFiles u fs key).countP (fun file => name ≤ file) ≤ 1 := by
  have hone := List.nodup_iff_count_le_one.mp (nodup_logFiles u fs key) name
  refine le_trans (List.countP_mono_left fun file hfile hle => ?_) hone
  obtain ⟨t, ht⟩ := mem_logFiles_iff.mp hfile
  rw [decide_eq_true_eq] at hle
  rw [beq_iff_eq]
  exact le_antisymm (hlast file ht.taken) hle

end Pass

/-! What is read of the files of a key, up to a name and from it on. -/

section Contents

variable {u : Unicode} {fs fs' : Fs} {key : LogKey} {name : String}

def contentsBelow (u : Unicode) (fs : Fs) (key : LogKey) (name : String) : List Char :=
  let d := entries fs (key.nodeDir u)
  read ((logNames (ext key.logFormat) d).filter fun n => ¬ name ≤ n) (contentAt d)

def contentsFrom (u : Unicode) (fs : Fs) (key : LogKey) (name : String) : List Char :=
  let d := entries fs (key.nodeDir u)
  read ((logNames (ext key.logFormat) d).filter fun n => name ≤ n) (contentAt d)

theorem contents_split (u : Unicode) (fs : Fs) (key : LogKey) (name : String) :
    contents u fs key = contentsBelow u fs key name ++ contentsFrom u fs key name := by
  apply read_split
  intro n _ m _ hn hle
  exact hn.trans hle

theorem contentAt_congr {n : String}
    (h : fs'.lookup (key.path u n) = fs.lookup (key.path u n)) :
    contentAt (entries fs' (key.nodeDir u)) n = contentAt (entries fs (key.nodeDir u)) n := by
  have hafter := contentAt_path u fs' key n
  have hbefore := contentAt_path u fs key n
  rw [h, ← hbefore] at hafter
  exact hafter

/-- Only the entries under the names that are read matter. -/
theorem read_logNames_congr {p : String → Prop} [DecidablePred p]
    (h : ∀ n, isLogName (ext key.logFormat) n = true → p n →
      fs'.lookup (key.path u n) = fs.lookup (key.path u n)) :
    read ((logNames (ext key.logFormat) (entries fs' (key.nodeDir u))).filter fun n => p n)
        (contentAt (entries fs' (key.nodeDir u))) =
      read ((logNames (ext key.logFormat) (entries fs (key.nodeDir u))).filter fun n => p n)
        (contentAt (entries fs (key.nodeDir u))) := by
  apply read_congr ((nodup_logNames ..).filter _) ((nodup_logNames ..).filter _)
  · intro n
    rw [List.mem_filter, List.mem_filter]
    refine and_congr_left fun hp => ?_
    have hp := of_decide_eq_true hp
    show n ∈ logNames _ ((fs'.dirs (key.nodeDir u)).getD ∅) ↔
      n ∈ logNames _ ((fs.dirs (key.nodeDir u)).getD ∅)
    rw [mem_logNames_iff, mem_logNames_iff, Taken, Taken]
    refine and_congr_right fun hlog => ?_
    rw [h n hlog hp]
  · intro n hn
    obtain ⟨hmem, hp⟩ := List.mem_filter.mp hn
    exact contentAt_congr (h n (mem_logNames_iff.mp hmem).1 (of_decide_eq_true hp))

/-- Texts that end with their last line do so when they are put together. -/
theorem not_open_read {names : List String} {content : String → List Char}
    (h : ∀ n ∈ names, ¬ TextLines.Open (content n)) : ¬ TextLines.Open (read names content) := by
  have hparts : ∀ t ∈ (names.insertionSort (· ≤ ·)).map content, ¬ TextLines.Open t := by
    intro t ht
    obtain ⟨n, hn, rfl⟩ := List.mem_map.mp ht
    exact h n ((List.mem_insertionSort (· ≤ ·)).mp hn)
  rw [Segments.read]
  generalize (names.insertionSort (· ≤ ·)).map content = ts at hparts
  induction ts with
  | nil => exact TextLines.not_open_nil
  | cons t ts ih =>
    rw [List.forall_mem_cons] at hparts
    rw [List.flatten_cons, TextLines.open_append_iff]
    rintro (hrest | ⟨-, hfirst⟩)
    · exact ih hparts.2 hrest
    · exact hparts.1 hfirst

theorem Ordered.not_open_read {times : List ℤ} (ho : Ordered u key times fs)
    (p : String → Prop) [DecidablePred p] :
    ¬ TextLines.Open (read ((logNames (ext key.logFormat)
      (entries fs (key.nodeDir u))).filter fun n => p n)
      (contentAt (entries fs (key.nodeDir u)))) := by
  apply RetainedLog.not_open_read
  intro n hn
  exact ho.closed n (mem_logNames_iff.mp (List.mem_filter.mp hn).1)

theorem Ordered.not_open_contents {times : List ℤ} (ho : Ordered u key times fs) :
    ¬ TextLines.Open (contents u fs key) := by
  apply RetainedLog.not_open_read
  intro n hn
  exact ho.closed n (mem_logNames_iff.mp hn)

end Contents

section Prune

variable {u : Unicode} {keys : List LogKey} {fs : Fs} {key : LogKey} {n : String} {t : ℤ}
  {times : List ℤ} {maxAgeHours : UInt64} {keepFilesNum : UInt32} {now : ℤ}
  {listing : List String}

/-- The names of the other keys are not looked at. -/
theorem lookup_prune_of_ne (hdistinct : Distinct u keys) {k : LogKey} (hkey : key ∈ keys)
    (hk : k ∈ keys) (hne : k ≠ key) (hlog : isLogName (ext k.logFormat) n = true) :
    (pruneOldFiles fs (key.nodeDir u) (ext key.logFormat) maxAgeHours keepFilesNum now
      listing).lookup (k.path u n) = fs.lookup (k.path u n) := by
  refine lookup_pruneOldFiles fs fun hdir => ?_
  by_contra hlog'
  rw [Bool.not_eq_false] at hlog'
  exact hne (hdistinct k hk key hkey hdir
    (ext_unique (isLogName_suffix hlog) (isLogName_suffix hlog')))

/-- The files that a pass leaves are those that nothing marks. -/
theorem dated_prune_iff (ho : Ordered u key times fs)
    (hlisting : listing.Perm (names fs (key.nodeDir u))) :
    Dated u (pruneOldFiles fs (key.nodeDir u) (ext key.logFormat) maxAgeHours keepFilesNum now
        listing) key n t ↔
      Dated u fs key n t ∧ Unmarked (entries fs (key.nodeDir u)) (ext key.logFormat) maxAgeHours
        keepFilesNum now listing n := by
  have hcases := lookup_pruneOldFiles_cases hlisting (ext key.logFormat) maxAgeHours keepFilesNum
    now (key.path u n)
  have hlisted : ∀ t, Dated u fs key n t → n ∈ listing := by
    intro t h
    have hmem := (files_perm_logFiles ho hlisting).mem_iff.mpr (mem_logFiles_iff.mpr ⟨t, h⟩)
    obtain ⟨f, hf, rfl⟩ := List.mem_map.mp hmem
    exact (mem_files.mp hf).1
  have hiff : ∀ t, Dated u fs key n t →
      ((pruneOldFiles fs (key.nodeDir u) (ext key.logFormat) maxAgeHours keepFilesNum now
        listing).lookup (key.path u n) = fs.lookup (key.path u n) ↔
        Unmarked (entries fs (key.nodeDir u)) (ext key.logFormat) maxAgeHours keepFilesNum now
          listing n) := by
    intro t h
    have hfile := h.2
    rw [lookup_entries] at hfile
    exact lookup_pruneOldFiles_iff hlisting (hlisted t h) h.1 hfile
  constructor
  · intro h
    rcases hcases with hnone | hsame
    · have htime := h.2
      rw [hnone] at htime
      cases htime
    · have hbefore : Dated u fs key n t := ⟨h.1, by rw [← hsame]; exact h.2⟩
      exact ⟨hbefore, (hiff t hbefore).mp hsame⟩
  · rintro ⟨h, hunmarked⟩
    refine ⟨h.1, ?_⟩
    rw [(hiff t h).mpr hunmarked]
    exact h.2

theorem lookup_prune_of_taken (hlisting : listing.Perm (names fs (key.nodeDir u)))
    (h : Taken u (pruneOldFiles fs (key.nodeDir u) (ext key.logFormat) maxAgeHours keepFilesNum
      now listing) key n) :
    (pruneOldFiles fs (key.nodeDir u) (ext key.logFormat) maxAgeHours keepFilesNum now
      listing).lookup (key.path u n) = fs.lookup (key.path u n) := by
  refine (lookup_pruneOldFiles_cases hlisting _ _ _ _ _).resolve_left fun hnone => ?_
  have hsome := h.2
  rw [hnone] at hsome
  cases hsome

/-- Calls that are over are no longer to come. -/
theorem Ordered.mono {later : List ℤ} (ho : Ordered u key times fs) (h : later ⊆ times) :
    Ordered u key later fs :=
  ⟨ho.dated, ho.increasing, fun n t hn t' ht' => ho.earlier n t hn t' (h ht'), ho.closed⟩

/-- Only the entries under log names matter. -/
theorem Ordered.congr {fs' : Fs} (ho : Ordered u key times fs)
    (h : ∀ n, isLogName (ext key.logFormat) n = true →
      fs'.lookup (key.path u n) = fs.lookup (key.path u n)) : Ordered u key times fs' := by
  have htaken : ∀ n, Taken u fs' key n → Taken u fs key n := by
    intro n hn
    refine ⟨hn.1, ?_⟩
    rw [← h n hn.1]
    exact hn.2
  have hdated : ∀ n t, Dated u fs' key n t → Dated u fs key n t := by
    intro n t hn
    refine ⟨hn.1, ?_⟩
    rw [← h n hn.1]
    exact hn.2
  constructor
  · intro n hn
    obtain ⟨t, ht⟩ := ho.dated n (htaken n hn)
    refine ⟨t, ht.1, ?_⟩
    rw [h n ht.1]
    exact ht.2
  · intro n n' t t' hn hn'
    exact ho.increasing n n' t t' (hdated n t hn) (hdated n' t' hn')
  · intro n t hn
    exact ho.earlier n t (hdated n t hn)
  · intro n hn
    rw [contentAt_congr (h n hn.1)]
    exact ho.closed n (htaken n hn)

/-- A pass leaves the other files in their order. -/
theorem Ordered.prune (ho : Ordered u key times fs)
    (hlisting : listing.Perm (names fs (key.nodeDir u))) :
    Ordered u key times (pruneOldFiles fs (key.nodeDir u) (ext key.logFormat) maxAgeHours
      keepFilesNum now listing) := by
  have hbefore : ∀ n, Taken u (pruneOldFiles fs (key.nodeDir u) (ext key.logFormat) maxAgeHours
      keepFilesNum now listing) key n → Taken u fs key n := by
    intro n h
    refine ⟨h.1, ?_⟩
    rw [← lookup_prune_of_taken hlisting h]
    exact h.2
  constructor
  · intro n h
    obtain ⟨t, ht⟩ := ho.dated n (hbefore n h)
    refine ⟨t, ht.1, ?_⟩
    rw [lookup_prune_of_taken hlisting h]
    exact ht.2
  · intro n n' t t' h h'
    exact ho.increasing n n' t t' ((dated_prune_iff ho hlisting).mp h).1
      ((dated_prune_iff ho hlisting).mp h').1
  · intro n t h
    exact ho.earlier n t ((dated_prune_iff ho hlisting).mp h).1
  · intro n h
    rw [contentAt_congr (lookup_prune_of_taken hlisting h)]
    exact ho.closed n (hbefore n h)

/-- What is behind a file that a pass leaves is left. -/
theorem taken_prune_of_le (ho : Ordered u key times fs)
    (hlisting : listing.Perm (names fs (key.nodeDir u)))
    (hwrap : Unwrapped (.prune key maxAgeHours keepFilesNum now listing)) {n m : String}
    (hn : Taken u (pruneOldFiles fs (key.nodeDir u) (ext key.logFormat) maxAgeHours keepFilesNum
      now listing) key n) (hm : Taken u fs key m) (hle : n ≤ m) :
    Taken u (pruneOldFiles fs (key.nodeDir u) (ext key.logFormat) maxAgeHours keepFilesNum now
      listing) key m := by
  rcases hle.eq_or_lt with rfl | hlt
  · exact hn
  · obtain ⟨t, ht⟩ := ho.prune hlisting |>.dated n hn
    obtain ⟨hdated, hunmarked⟩ := (dated_prune_iff ho hlisting).mp ht
    obtain ⟨t', ht'⟩ := ho.dated m hm
    have htimes : t < t' := ho.increasing n m t t' hdated ht' hlt
    refine ((dated_prune_iff ho hlisting).mpr ⟨ht', ?_⟩).taken
    rw [unmarked_iff ho hlisting hwrap.2 hdated] at hunmarked
    rw [unmarked_iff ho hlisting hwrap.2 ht']
    intro age hage
    obtain ⟨hold, hrank⟩ := hunmarked age hage
    have hnewer : newer u fs key m ≤ newer u fs key n := newer_le hle
    exact ⟨fun h => hold (tooOld_of_le hwrap.1 hage htimes.le h), by omega⟩

/-- A pass takes whole lines from the beginning of the log. -/
theorem contents_prune (ho : Ordered u key times fs)
    (hlisting : listing.Perm (names fs (key.nodeDir u)))
    (hwrap : Unwrapped (.prune key maxAgeHours keepFilesNum now listing)) :
    ∃ lost, ¬ TextLines.Open lost ∧
      contents u fs key = lost ++ contents u (pruneOldFiles fs (key.nodeDir u)
        (ext key.logFormat) maxAgeHours keepFilesNum now listing) key := by
  classical
  generalize hfs' : pruneOldFiles fs (key.nodeDir u) (ext key.logFormat) maxAgeHours keepFilesNum
    now listing = fs'
  have hupper : ∀ n ∈ logNames (ext key.logFormat) (entries fs (key.nodeDir u)),
      ∀ m ∈ logNames (ext key.logFormat) (entries fs (key.nodeDir u)),
        Taken u fs' key n → n ≤ m → Taken u fs' key m := by
    intro n _ m hm hn hle
    rw [← hfs'] at hn ⊢
    exact taken_prune_of_le ho hlisting hwrap hn (mem_logNames_iff.mp hm) hle
  refine ⟨_, ho.not_open_read fun n => ¬ Taken u fs' key n, ?_⟩
  have hsplit : contents u fs key = _ ++ _ := read_split hupper
  refine hsplit.trans (congrArg _ ?_)
  symm
  apply read_congr ((nodup_logNames ..).filter _) (nodup_logNames ..)
  · intro n
    rw [List.mem_filter, decide_eq_true_eq]
    refine mem_logNames_iff.trans ?_
    rw [iff_and_self]
    intro h
    refine mem_logNames_iff.mpr ⟨h.1, ?_⟩
    rw [← hfs'] at h
    rw [← lookup_prune_of_taken hlisting h]
    exact h.2
  · intro n hn
    have htaken := of_decide_eq_true (List.mem_filter.mp hn).2
    rw [← hfs'] at htaken ⊢
    exact contentAt_congr (lookup_prune_of_taken hlisting htaken)

/-- From a name on nothing is lost if the pass marks nothing there. -/
theorem lookup_prune_from (ho : Ordered u key times fs)
    (hlisting : listing.Perm (names fs (key.nodeDir u))) (hlength : listing.length ≤ 2 ^ 32)
    {name : String}
    (hage : ∀ age, maxAge maxAgeHours = some age → ∀ file t, Dated u fs key file t →
      name ≤ file → ¬ TooOld maxAgeHours age now t)
    (hcount : (logFiles u fs key).countP (fun n => name ≤ n) ≤ keepFilesNum.toNat) (n : String)
    (hlog : isLogName (ext key.logFormat) n = true) (hle : name ≤ n) :
    (pruneOldFiles fs (key.nodeDir u) (ext key.logFormat) maxAgeHours keepFilesNum now
      listing).lookup (key.path u n) = fs.lookup (key.path u n) := by
  by_cases htaken : Taken u fs key n
  · obtain ⟨t, ht⟩ := ho.dated n htaken
    refine lookup_prune_of_taken hlisting ((dated_prune_iff ho hlisting).mpr ⟨ht, ?_⟩).taken
    rw [unmarked_iff ho hlisting hlength ht]
    intro age h
    refine ⟨hage age h n t ht hle, ?_⟩
    have hmem : n ∈ logFiles u fs key := mem_logFiles_iff.mpr ⟨t, ht⟩
    have hnewer := newer_lt hmem hle
    omega
  · have hnone : fs.lookup (key.path u n) = none := by
      by_contra hsome
      exact htaken ⟨hlog, Option.isSome_iff_ne_none.mpr hsome⟩
    rcases lookup_pruneOldFiles_cases hlisting (ext key.logFormat) maxAgeHours keepFilesNum now
      (key.path u n) with hgone | hsame
    · rw [hgone, hnone]
    · exact hsame

end Prune

/-! The calls that write. -/

/-- The time of a file is that of the opening, or as it was. -/
theorem openAppend_fileTime {d d' : Dir} {name : String} {inode file : ℕ} {mtime t : ℤ}
    (h : Dir.openAppend d name inode mtime = some (d', file))
    (ht : (d'.lookup name).bind fileTime = some t) :
    t = mtime ∨ (d.lookup name).bind fileTime = some t := by
  unfold Dir.openAppend at h
  split at h
  · obtain ⟨rfl, -⟩ := Prod.mk.inj (Option.some.inj h)
    rw [AList.lookup_insert] at ht
    exact Or.inl (Option.some.inj ht).symm
  · obtain ⟨rfl, -⟩ := Prod.mk.inj (Option.some.inj h)
    exact Or.inr ht
  · cases h

/-- The file that is opened keeps its time, or is new. -/
theorem openNewFile_fileTime {u : Unicode} {F : Formats} {fs : Fs} {key : LogKey}
    {now mtime t : ℤ} {opened : Fs × LogHandle}
    (h : openNewFile u F fs key now mtime = some opened)
    (ht : (opened.1.lookup opened.2.path).bind fileTime = some t) :
    t = mtime ∨ (fs.lookup opened.2.path).bind fileTime = some t := by
  unfold openNewFile at h
  simp only [Option.bind_eq_bind, Option.bind_eq_some_iff, Option.some.injEq] at h
  obtain ⟨⟨d₁, file⟩, hopen, d₂, hlink, d₃, hrename, rfl⟩ := h
  have htmp := filename_ne_tmpLinkName key key (F.stamp now)
  have hln := filename_ne_linkName key key (F.stamp now)
  have hsame : d₃.lookup (key.filename (F.stamp now)) =
      d₁.lookup (key.filename (F.stamp now)) := by
    rw [(Dir.rename_spec hrename).2 _ htmp hln, (Dir.symlink_spec hlink).2 _ htmp,
      Dir.lookup_removeFile, if_neg fun hno => htmp hno.1]
  simp only [Fs.lookup_update, LogKey.path, if_true] at ht
  rw [hsame] at ht
  rw [lookup_path]
  exact openAppend_fileTime hopen ht

theorem append_fileTime {fs : Fs} {file : ℕ} {p q : FilePath} {bytes : String} {mtime t : ℤ}
    (ht : ((fs.append file p bytes mtime).lookup q).bind fileTime = some t) :
    t = mtime ∨ (fs.lookup q).bind fileTime = some t := by
  unfold Fs.append at ht
  split at ht
  · exact Or.inr ht
  · rename_i d hd
    split at ht
    · rename_i f hf
      split at ht
      · rw [Fs.lookup_update] at ht
        by_cases hdir : q.dir = p.dir
        · rw [if_pos hdir] at ht
          by_cases hname : q.name = p.name
          · rw [hname, AList.lookup_insert] at ht
            exact Or.inl (Option.some.inj ht).symm
          · rw [AList.lookup_insert_ne hname] at ht
            rw [Fs.lookup, hdir, hd, Option.bind_some]
            exact Or.inr ht
        · rw [if_neg hdir] at ht
          exact Or.inr ht
      · exact Or.inr ht
    · exact Or.inr ht

theorem writeLines_fileTime {F : Formats} {format : LogFormat} {mtime t : ℤ}
    {traces : List TraceObject} {opened : Fs × LogHandle} {q : FilePath}
    (ht : ((traces.foldl (writeLine F format mtime) opened).1.lookup q).bind fileTime = some t) :
    t = mtime ∨ (opened.1.lookup q).bind fileTime = some t := by
  induction traces generalizing opened with
  | nil => exact Or.inr ht
  | cons trace traces ih =>
    rcases ih ht with hmtime | hbefore
    · exact Or.inl hmtime
    · exact append_fileTime hbefore

section Step

variable {u : Unicode} {F : Formats} {keys : List LogKey} {s s' : System} {key : LogKey}

/-- A file is as old as it was, or as the call that wrote it. -/
theorem step_dated {e : Rotation.Event} (he : NoPruning e)
    (h : Rotation.step u F s e = some s') {n : String} {t : ℤ} (ht : Dated u s'.fs key n t) :
    mtimeOf e = some t ∨ Dated u s.fs key n t := by
  have hopening : ∀ k now mtime opened, openNewFile u F s.fs k now mtime = some opened →
      (opened.1.lookup (key.path u n)).bind fileTime = some t →
      t = mtime ∨ (s.fs.lookup (key.path u n)).bind fileTime = some t := by
    intro k now mtime opened hopen ht'
    have hopened := openNewFile_spec hopen
    by_cases hpath : key.path u n = opened.2.path
    · rw [hpath] at ht' ⊢
      exact openNewFile_fileTime hopen ht'
    · right
      rwa [← hopened.rest _ hpath ?_ ?_]
      · intro heq
        obtain rfl : n = k.linkName := congrArg FilePath.name heq
        have hlog := ht.1
        rw [isLogName_linkName] at hlog
        cases hlog
      · intro heq
        obtain rfl : n = k.tmpLinkName := congrArg FilePath.name heq
        have hlog := ht.1
        rw [isLogName_tmpLinkName] at hlog
        cases hlog
  cases e with
  | write k traces now mtime =>
    obtain ⟨opened, hopen, rfl⟩ := Option.map_eq_some_iff.mp h
    rcases writeLines_fileTime ht.2 with hmtime | hbefore
    · exact Or.inl (congrArg some hmtime.symm)
    · cases hhandle : s.handles k with
      | some handle =>
        simp only [hhandle, Option.some.injEq] at hopen
        subst hopen
        exact Or.inr ⟨ht.1, hbefore⟩
      | none =>
        simp only [hhandle] at hopen
        rcases hopening k now mtime opened hopen hbefore with hmtime | hsame
        · exact Or.inl (congrArg some hmtime.symm)
        · exact Or.inr ⟨ht.1, hsame⟩
  | rotate k limitBytes now mtime =>
    rw [Rotation.step, rotateIfNeeded] at h
    split at h
    · split at h
      · obtain ⟨opened, hopen, rfl⟩ := Option.map_eq_some_iff.mp h
        rcases hopening k now mtime opened hopen ht.2 with hmtime | hsame
        · exact Or.inl (congrArg some hmtime.symm)
        · exact Or.inr ⟨ht.1, hsame⟩
      · rw [← Option.some.inj h] at ht
        exact Or.inr ht
    · rw [← Option.some.inj h] at ht
      exact Or.inr ht
  | prune k maxAgeHours keepFilesNum now listing => exact he.elim

theorem not_open_lines (F : Formats) (format : LogFormat) (traces : List TraceObject) :
    ¬ TextLines.Open (AppendOnlyLog.lines F format traces) := by
  induction traces with
  | nil => exact TextLines.not_open_nil
  | cons trace traces ih =>
    have hcons : AppendOnlyLog.lines F format (trace :: traces) =
        (formatTrace F trace format).toList ++ AppendOnlyLog.lines F format traces := rfl
    rw [hcons, TextLines.open_append_iff]
    rintro (hrest | ⟨-, hfirst⟩)
    · exact ih hrest
    · obtain ⟨body, hbody⟩ := formatTrace_eq F trace format
      rw [hbody, TextLines.open_append_singleton] at hfirst
      exact hfirst rfl

theorem not_open_written (F : Formats) (key : LogKey) (e : Rotation.Event) :
    ¬ TextLines.Open (written F key e) := by
  cases e with
  | write k traces now mtime =>
    rw [written]
    split
    · exact not_open_lines F key.logFormat traces
    · exact TextLines.not_open_nil
  | rotate k limitBytes now mtime => exact TextLines.not_open_nil
  | prune k maxAgeHours keepFilesNum now listing => exact TextLines.not_open_nil

/-- A call that writes leaves the files in order, the one that it wrote being the last. -/
theorem Ordered.called {e : Rotation.Event} {es : List Rotation.Event} {name : String}
    (hs : AppendOnlyLog.Inv u F keys (e :: es) s) (hs' : AppendOnlyLog.Inv u F keys es s')
    (hkeys : e.key ∈ keys) (hkey : key ∈ keys) (he : NoPruning e)
    (hcalled : Called u F keys s e s' name)
    (hlater : ∀ e' ∈ es, e.key.filename (F.stamp (clock e)) ≤
      e.key.filename (F.stamp (clock e')))
    (hmtimes : ((e :: es).filterMap mtimeOf).Pairwise (· < ·))
    (h : Rotation.step u F s e = some s')
    (ho : Ordered u key ((e :: es).filterMap mtimeOf) s.fs) :
    Ordered u key (es.filterMap mtimeOf) s'.fs := by
  have hgrown := hcalled.grown
  obtain ⟨mtime, hmtime⟩ : ∃ mtime, mtimeOf e = some mtime := by
    cases e with
    | write k traces now mtime => exact ⟨mtime, rfl⟩
    | rotate k limitBytes now mtime => exact ⟨mtime, rfl⟩
    | prune k maxAgeHours keepFilesNum now listing => exact he.elim
  rw [List.filterMap_cons_some hmtime] at hmtimes ho
  rw [List.pairwise_cons] at hmtimes
  have hmax := (hcalled.bounds hs hkeys hlater).1
  -- a file that is not the one written is as it was
  have hrest : ∀ n t, key ≠ e.key ∨ n ≠ name → Dated u s'.fs key n t → Dated u s.fs key n t := by
    intro n t hne hn
    refine ⟨hn.1, ?_⟩
    rw [← hgrown.rest key hkey n hn.1 hne]
    exact hn.2
  have hother : ∀ n, Taken u s'.fs key n → key ≠ e.key ∨ n ≠ name → Taken u s.fs key n := by
    intro n hn hne
    exact ((hgrown.taken_iff hkey).mp hn).resolve_left fun hself =>
      hne.elim (fun h => h hself.1) fun h => h hself.2
  constructor
  · intro n htaken
    by_cases hself : key = e.key ∧ n = name
    · obtain ⟨rfl, rfl⟩ := hself
      obtain ⟨handle, hopened, hpath⟩ := hcalled.opened
      have hinode := (hs'.inUse e.key handle hopened).1
      rw [hpath] at hinode
      have hmem : n ∈ logFiles u s'.fs e.key :=
        mem_logFiles.mpr ⟨htaken.1, Option.isSome_of_eq_some hinode⟩
      exact mem_logFiles_iff.mp hmem
    · have hne := not_and_or.mp hself
      obtain ⟨t, ht⟩ := ho.dated n (hother n htaken hne)
      refine ⟨t, ht.1, ?_⟩
      rw [hgrown.rest key hkey n ht.1 hne]
      exact ht.2
  · intro n n' t t' hn hn' hlt
    by_cases hself : key = e.key ∧ n' = name
    · obtain ⟨rfl, rfl⟩ := hself
      have hbefore := hrest n t (Or.inr hlt.ne) hn
      rcases step_dated he h hn' with hnew | hold
      · obtain rfl : mtime = t' := Option.some.inj (hmtime.symm.trans hnew)
        exact ho.earlier n t hbefore mtime (List.mem_cons_self ..)
      · exact ho.increasing n n' t t' hbefore hold hlt
    · have hbefore' := hrest n' t' (not_and_or.mp hself) hn'
      refine ho.increasing n n' t t' (hrest n t ?_ hn) hbefore' hlt
      by_contra hno
      rw [not_or, not_not, not_not] at hno
      obtain ⟨rfl, rfl⟩ := hno
      exact absurd hlt (not_lt_of_ge (hmax n' hbefore'.taken))
  · intro n t hn t' ht'
    rcases step_dated he h hn with hnew | hold
    · obtain rfl : mtime = t := Option.some.inj (hmtime.symm.trans hnew)
      exact hmtimes.1 t' ht'
    · exact ho.earlier n t hold t' (List.mem_cons_of_mem _ ht')
  · intro n htaken
    by_cases hself : key = e.key ∧ n = name
    · obtain ⟨rfl, rfl⟩ := hself
      have hcontent : contentAt (entries s'.fs (e.key.nodeDir u)) n =
          contentAt (entries s.fs (e.key.nodeDir u)) n ++ written F e.key e :=
        hgrown.contentAt_self
      rw [hcontent, TextLines.open_append_iff]
      rintro (hwritten | ⟨-, hold⟩)
      · exact not_open_written F e.key e hwritten
      · by_cases hbefore : Taken u s.fs e.key n
        · exact ho.closed n hbefore hold
        · have hnone : contentAt (entries s.fs (e.key.nodeDir u)) n = [] := by
            have hfree : s.fs.lookup (e.key.path u n) = none := by
              by_contra hsome
              exact hbefore ⟨htaken.1, Option.isSome_iff_ne_none.mpr hsome⟩
            have hcontentAt := contentAt_path u s.fs e.key n
            rwa [hfree] at hcontentAt
          rw [hnone] at hold
          exact TextLines.not_open_nil hold
    · have hne := not_and_or.mp hself
      rw [contentAt_congr (hgrown.rest key hkey n htaken.1 hne)]
      exact ho.closed n (hother n htaken hne)

/-! Runs. -/

/-- A pass leaves the open files last, and names none after a later time. -/
theorem Inv.prune (hdistinct : Distinct u keys) {k : LogKey} {maxAgeHours : UInt64}
    {keepFilesNum : UInt32} {now : ℤ} {listing : List String} {es : List Rotation.Event}
    (hs : AppendOnlyLog.Inv u F keys (.prune k maxAgeHours keepFilesNum now listing :: es) s)
    (hk : k ∈ keys) (hspares : Spares u s (.prune k maxAgeHours keepFilesNum now listing))
    (hlisting : listing.Perm (names s.fs (k.nodeDir u)))
    (h : Rotation.step u F s (.prune k maxAgeHours keepFilesNum now listing) = some s') :
    AppendOnlyLog.Inv u F keys es s' := by
  have hkeep := step_filesInUse_iff hdistinct hs.owned hs.inUse
    (show Rotation.Event.key (.prune k maxAgeHours keepFilesNum now listing) ∈ keys from hk) h
  rw [Rotation.step, if_pos hlisting] at h
  obtain rfl := Option.some.inj h
  have hbefore : ∀ key n, Taken u (pruneOldFiles s.fs (k.nodeDir u) (ext k.logFormat)
      maxAgeHours keepFilesNum now listing) key n → Taken u s.fs key n := by
    intro key n hn
    refine ⟨hn.1, ?_⟩
    rcases lookup_pruneOldFiles_cases hlisting (ext k.logFormat) maxAgeHours keepFilesNum now
      (key.path u n) with hnone | hsame
    · have hsome := hn.2
      rw [hnone] at hsome
      cases hsome
    · rw [← hsame]
      exact hn.2
  refine ⟨hkeep.1, hkeep.2.mpr hspares, ?_, ?_⟩
  · intro key handle hhandle n hn
    exact hs.last key handle hhandle n (hbefore key n hn)
  · intro key hkey n hn e he
    exact hs.tail.future key hkey n (hbefore key n hn) e he

structure Retains (u : Unicode) (F : Formats) (keys : List LogKey) (key : LogKey)
    (es : List Rotation.Event) (s : System) : Prop where
  inv : AppendOnlyLog.Inv u F keys es s
  ordered : Ordered u key (es.filterMap mtimeOf) s.fs

structure Clocked (F : Formats) (keys : List LogKey) (es : List Rotation.Event) : Prop where
  keys : ∀ e ∈ es, e.key ∈ keys
  clock : es.Pairwise fun e e' => clock e ≤ clock e'
  stamps : StampsOrdered F es
  mtimes : (es.filterMap mtimeOf).Pairwise (· < ·)
  unwrapped : ∀ e ∈ es, Unwrapped e

theorem Clocked.tail {e : Rotation.Event} {es : List Rotation.Event}
    (h : Clocked F keys (e :: es)) : Clocked F keys es := by
  refine ⟨fun a ha => h.keys a (List.mem_cons_of_mem _ ha), (List.pairwise_cons.mp h.clock).2,
    fun a ha b hb => h.stamps a (List.mem_cons_of_mem _ ha) b (List.mem_cons_of_mem _ hb), ?_,
    fun a ha => h.unwrapped a (List.mem_cons_of_mem _ ha)⟩
  have hmtimes := h.mtimes
  cases hmtime : mtimeOf e with
  | none => rwa [List.filterMap_cons_none hmtime] at hmtimes
  | some mtime =>
    rw [List.filterMap_cons_some hmtime] at hmtimes
    exact (List.pairwise_cons.mp hmtimes).2

theorem Clocked.filename_le {e : Rotation.Event} {es : List Rotation.Event}
    (h : Clocked F keys (e :: es)) (e' : Rotation.Event) (he' : e' ∈ es) :
    e.key.filename (F.stamp (AppendOnlyLog.clock e)) ≤
      e.key.filename (F.stamp (AppendOnlyLog.clock e')) := by
  have hordered := h.stamps e (List.mem_cons_self ..) e' (List.mem_cons_of_mem _ he')
    ((List.pairwise_cons.mp h.clock).1 e' he')
  exact AppendOnlyLog.filename_le e.key hordered.1 hordered.2

/-- A call appends what it writes, or takes whole lines from the beginning. -/
theorem Retains.step (hdistinct : Distinct u keys) (hkey : key ∈ keys) {e : Rotation.Event}
    {es : List Rotation.Event} (hclocked : Clocked F keys (e :: es))
    (hs : Retains u F keys key (e :: es) s) (hspares : Spares u s e)
    (h : Rotation.step u F s e = some s') :
    Retains u F keys key es s' ∧ ∃ lost, ¬ TextLines.Open lost ∧
      contents u s.fs key ++ written F key e = lost ++ contents u s'.fs key := by
  have hkeys := hclocked.keys e (List.mem_cons_self ..)
  by_cases he : NoPruning e
  · have hstep := hs.inv.step hdistinct he hkeys hclocked.filename_le h
    refine ⟨⟨hstep.1, ?_⟩, [], TextLines.not_open_nil, (hstep.2 key hkey).symm⟩
    rcases step_called hdistinct hs.inv.owned hs.inv.inUse he hkeys h with
      ⟨rfl, -⟩ | ⟨name, hcalled⟩
    · refine hs.ordered.mono ?_
      exact ((List.sublist_cons_self e es).filterMap mtimeOf).subset
    · exact Ordered.called hs.inv hstep.1 hkeys hkey he hcalled hclocked.filename_le
        hclocked.mtimes h hs.ordered
  · cases e with
    | write k traces now mtime => exact absurd trivial he
    | rotate k limitBytes now mtime => exact absurd trivial he
    | prune k maxAgeHours keepFilesNum now listing =>
      have hlisting : listing.Perm (names s.fs (k.nodeDir u)) := by
        by_contra hno
        rw [Rotation.step, if_neg hno] at h
        cases h
      have hinv := Inv.prune hdistinct hs.inv hkeys hspares hlisting h
      rw [Rotation.step, if_pos hlisting] at h
      obtain rfl := Option.some.inj h
      have hwritten : written F key (.prune k maxAgeHours keepFilesNum now listing) = [] := rfl
      rw [hwritten, List.append_nil]
      by_cases hk : key = k
      · subst hk
        exact ⟨⟨hinv, hs.ordered.prune hlisting⟩,
          contents_prune hs.ordered hlisting (hclocked.unwrapped _ (List.mem_cons_self ..))⟩
      · have hsame : ∀ n, isLogName (ext key.logFormat) n = true →
            (pruneOldFiles s.fs (k.nodeDir u) (ext k.logFormat) maxAgeHours keepFilesNum now
              listing).lookup (key.path u n) = s.fs.lookup (key.path u n) :=
          fun n hlog => lookup_prune_of_ne hdistinct hkeys hkey hk hlog
        exact ⟨⟨hinv, hs.ordered.congr hsame⟩, [], TextLines.not_open_nil,
          (contents_congr hsame).symm⟩

/-- What is left after a run is the end of what was there and has been written. -/
theorem Retains.run (hdistinct : Distinct u keys) (hkey : key ∈ keys)
    {es later : List Rotation.Event} (hclocked : Clocked F keys (es ++ later))
    (hs : Retains u F keys key (es ++ later) s)
    (hspares : Along (Rotation.step u F) (Spares u) s es)
    (h : Transitions.run (Rotation.step u F) s es = some s') :
    Retains u F keys key later s' ∧ ∃ lost, ¬ TextLines.Open lost ∧
      contents u s.fs key ++ logged F key es = lost ++ contents u s'.fs key := by
  induction es generalizing s with
  | nil =>
    obtain rfl := Option.some.inj h
    exact ⟨hs, [], TextLines.not_open_nil, List.append_nil _⟩
  | cons e es ih =>
    obtain ⟨m, hstep, hrest⟩ := run_cons_iff.mp h
    obtain ⟨hm, lost, hlost, hcontents⟩ := hs.step hdistinct hkey hclocked hspares.1 hstep
    obtain ⟨hs', lost', hlost', hcontents'⟩ := ih hclocked.tail hm (hspares.2 m hstep) hrest
    refine ⟨hs', lost ++ lost', ?_, ?_⟩
    · rw [TextLines.open_append_iff]
      rintro (hno | ⟨-, hno⟩)
      · exact hlost' hno
      · exact hlost hno
    · have hlogged : logged F key (e :: es) = written F key e ++ logged F key es := rfl
      rw [hlogged, ← List.append_assoc, hcontents, List.append_assoc, hcontents',
        List.append_assoc]

/-! What is kept since some moment. -/

variable {name : String} {n : ℕ}

theorem empty_le (s : String) : "" ≤ s := by
  apply le_of_not_gt
  intro h
  exact List.not_lt_nil _ (String.lt_iff_toList_lt.mp h)

/-- What a call writes to a file from `name` on is written behind these files. -/
theorem contentsFrom_called {e : Rotation.Event} {file : String} (hkey : key ∈ keys)
    (hcalled : Called u F keys s e s' file) (hfile : e.key = key → name ≤ file)
    (hcontents : contents u s'.fs key = contents u s.fs key ++ written F key e) :
    contentsFrom u s'.fs key name = contentsFrom u s.fs key name ++ written F key e := by
  have hbelow : contentsBelow u s'.fs key name = contentsBelow u s.fs key name := by
    apply read_logNames_congr
    intro m hlog hm
    apply hcalled.grown.rest key hkey m hlog
    by_cases hk : key = e.key
    · right
      rintro rfl
      exact hm (hfile hk.symm)
    · exact Or.inl hk
  rw [contents_split u s'.fs key name, contents_split u s.fs key name, hbelow,
    List.append_assoc] at hcontents
  exact List.append_cancel_left hcontents

/-- From the name on there are no more files than `n` and the first one, counting those that
are still to be opened. -/
structure Since (u : Unicode) (F : Formats) (keys : List LogKey) (key : LogKey) (name : String)
    (n : ℕ) (es : List Rotation.Event) (s : System) : Prop where
  retains : Retains u F keys key es s
  first : name = "" ∨ Taken u s.fs key name
  count : (logFiles u s.fs key).countP (fun file => name ≤ file) + opened u F key s es ≤ n + 1

/-- Nothing that is written from then on is lost. -/
theorem Since.step (hdistinct : Distinct u keys) (hkey : key ∈ keys) {e : Rotation.Event}
    {es : List Rotation.Event} (hclocked : Clocked F keys (e :: es))
    (hs : Since u F keys key name n (e :: es) s) (hspares : Spares u s e)
    (hfrom : SparesFrom u key name n s e) (h : Rotation.step u F s e = some s') :
    Since u F keys key name n es s' ∧
      contentsFrom u s'.fs key name = contentsFrom u s.fs key name ++ written F key e := by
  have hkeys := hclocked.keys e (List.mem_cons_self ..)
  obtain ⟨hretains, -⟩ := hs.retains.step hdistinct hkey hclocked hspares h
  have hcount := hs.count
  have hnow : (logFiles u s.fs key).countP (fun file => name ≤ file) ≤ n + 1 := by omega
  rw [opened_cons h] at hcount
  have hgrows := step_countP hdistinct hkey hkeys (fun file => name ≤ file) h
  have hcount' : (logFiles u s'.fs key).countP (fun file => name ≤ file) +
      opened u F key s' es ≤ n + 1 := by omega
  by_cases he : NoPruning e
  · have hinv := hs.retains.inv
    have hstep := hinv.step hdistinct he hkeys hclocked.filename_le h
    rcases step_called hdistinct hinv.owned hinv.inUse he hkeys h with
      ⟨rfl, hnothing⟩ | ⟨file, hcalled⟩
    · refine ⟨⟨hretains, hs.first, hcount'⟩, ?_⟩
      have hwritten : written F key e = [] := by
        by_cases hk : key = e.key
        · rw [hk, hnothing]
        · exact written_of_ne hk
      rw [hwritten, List.append_nil]
    · refine ⟨⟨hretains, ?_, hcount'⟩, ?_⟩
      · rcases hs.first with hempty | htaken
        · exact Or.inl hempty
        · exact Or.inr ((hcalled.grown.taken_iff hkey).mpr (Or.inr htaken))
      · refine contentsFrom_called hkey hcalled ?_ (hstep.2 key hkey)
        rintro rfl
        rcases hs.first with rfl | htaken
        · exact empty_le file
        · exact (hcalled.bounds hinv hkeys hclocked.filename_le).1 name htaken
  · cases e with
    | write k traces now mtime => exact absurd trivial he
    | rotate k limitBytes now mtime => exact absurd trivial he
    | prune k maxAgeHours keepFilesNum now listing =>
      have hlisting : listing.Perm (names s.fs (k.nodeDir u)) := by
        by_contra hno
        rw [Rotation.step, if_neg hno] at h
        cases h
      rw [Rotation.step, if_pos hlisting] at h
      obtain rfl := Option.some.inj h
      have hwritten : written F key (.prune k maxAgeHours keepFilesNum now listing) = [] := rfl
      rw [hwritten, List.append_nil]
      by_cases hk : k = key
      · subst hk
        obtain ⟨hkeep, hage⟩ := hfrom rfl
        have hlength := (hclocked.unwrapped _ (List.mem_cons_self ..)).2
        have hleft := lookup_prune_from hs.retains.ordered hlisting hlength hage (hnow.trans hkeep)
        refine ⟨⟨hretains, ?_, hcount'⟩, read_logNames_congr fun m hlog hm => hleft m hlog hm⟩
        rcases hs.first with hempty | htaken
        · exact Or.inl hempty
        · refine Or.inr ⟨htaken.1, ?_⟩
          rw [hleft name htaken.1 le_rfl]
          exact htaken.2
      · have hsame : ∀ m, isLogName (ext key.logFormat) m = true →
            (pruneOldFiles s.fs (k.nodeDir u) (ext k.logFormat) maxAgeHours keepFilesNum now
              listing).lookup (key.path u m) = s.fs.lookup (key.path u m) :=
          fun m hlog => lookup_prune_of_ne hdistinct hkeys hkey (fun heq => hk heq.symm) hlog
        refine ⟨⟨hretains, ?_, hcount'⟩, read_logNames_congr fun m hlog _ => hsame m hlog⟩
        rcases hs.first with hempty | htaken
        · exact Or.inl hempty
        · refine Or.inr ⟨htaken.1, ?_⟩
          rw [hsame name htaken.1]
          exact htaken.2

/-- What was kept since some moment is kept over the rest of the run. -/
theorem Since.run (hdistinct : Distinct u keys) (hkey : key ∈ keys)
    {es : List Rotation.Event} (hclocked : Clocked F keys es)
    (hs : Since u F keys key name n es s)
    (hspares : Along (Rotation.step u F) (Spares u) s es)
    (hfrom : Along (Rotation.step u F) (SparesFrom u key name n) s es)
    (h : Transitions.run (Rotation.step u F) s es = some s') :
    contentsFrom u s'.fs key name = contentsFrom u s.fs key name ++ logged F key es := by
  induction es generalizing s with
  | nil =>
    obtain rfl := Option.some.inj h
    exact (List.append_nil _).symm
  | cons e es ih =>
    obtain ⟨m, hstep, hrest⟩ := run_cons_iff.mp h
    obtain ⟨hm, hcontents⟩ := hs.step hdistinct hkey hclocked hspares.1 hfrom.1 hstep
    rw [ih hclocked.tail hm (hspares.2 m hstep) (hfrom.2 m hstep) hrest, hcontents,
      List.append_assoc]
    rfl

theorem Clocked.append {es es' : List Rotation.Event} (h : Clocked F keys (es ++ es')) :
    Clocked F keys es' := by
  induction es with
  | nil => exact h
  | cons e es ih => exact ih h.tail

end Step

section Log

variable {finite : Text → Bool} {parse : String → Option DateTime} {stamp : ℤ → String}
  {time rfc3339 : DateTime → String}

theorem readLog_append {log : Text} (hclosed : ¬ TextLines.Open log)
    (more : Text) :
    readLog finite parse (log ++ more) = readLog finite parse log ++ readLog finite parse more := by
  rw [readLog, TextLines.lines_append hclosed, List.map_append]
  rfl

/-- Over a run of calls that write, rotate and prune, in which each pass spares the open
files, a key's log of JSON lines is read as the end of what was there and of what has been
written. Whatever has been written since some moment is all there, if no pass marks a file
from the last one of that moment on, for its age, or because as many files have been opened
since. -/
theorem retained_log {u : Unicode} {keys : List LogKey} {fs : Fs} {es : List Rotation.Event}
    {s : System} {key : LogKey} (hdistinct : Distinct u keys) (hkey : key ∈ keys)
    (hformat : key.logFormat = .forMachine)
    (hclocked : Clocked (formats stamp time rfc3339) keys es)
    (hspares : Along (Rotation.step u (formats stamp time rfc3339)) (Spares u) (start fs) es)
    (hearlier : ∀ key ∈ keys, ∀ name, Taken u fs key name →
      ∀ e ∈ es, name ≤ key.filename (stamp (clock e)))
    (hordered : Ordered u key (es.filterMap mtimeOf) fs)
    (htimes : ∀ trace ∈ es.flatMap (tracesOf key),
      parse (rfc3339 trace.toTimestamp) = some trace.toTimestamp)
    (h : run (Rotation.step u (formats stamp time rfc3339)) (start fs) es = some s) :
    readLog finite parse (contents u s.fs key) <:+
        readLog finite parse (contents u fs key) ++ (es.flatMap (tracesOf key)).map some ∧
      ∀ earlier recent m name, es = earlier ++ recent →
        run (Rotation.step u (formats stamp time rfc3339)) (start fs) earlier = some m →
        (name = "" ∨ Taken u m.fs key name) → (∀ file, Taken u m.fs key file → file ≤ name) →
        Along (Rotation.step u (formats stamp time rfc3339))
          (SparesFrom u key name (opened u (formats stamp time rfc3339) key m recent)) m recent →
        (recent.flatMap (tracesOf key)).map some <:+
          readLog finite parse (contents u s.fs key) := by
  have hstart : Retains u (formats stamp time rfc3339) keys key es (start fs) :=
    ⟨⟨owned_start u keys fs, filesInUse_start u fs, fun key h hh => (by cases hh), hearlier⟩,
      hordered⟩
  have hlines : ∀ es : List Rotation.Event,
      logged (formats stamp time rfc3339) key es =
        AppendOnlyLog.lines (formats stamp time rfc3339) .forMachine
          (es.flatMap (tracesOf key)) := by
    intro es
    rw [logged_eq_lines, hformat]
  have hclosed : ¬ TextLines.Open (contents u fs key) := hordered.not_open_contents
  constructor
  · obtain ⟨-, lost, hlost, hcontents⟩ := Retains.run hdistinct hkey
      (by rwa [List.append_nil]) (by rwa [List.append_nil]) hspares h
    refine ⟨readLog finite parse lost, ?_⟩
    rw [← readLog_append hlost, ← hcontents, hlines]
    exact readLog_append_lines hclosed htimes
  · rintro earlier recent m name rfl hm hfirst hlast hfrom
    have hrecent := run_of_append h hm
    obtain ⟨hbefore, hafter⟩ := hspares.of_append
    obtain ⟨hretains, -⟩ := Retains.run hdistinct hkey hclocked hstart hbefore hm
    have hrecentClocked := hclocked.append
    have hcount := countP_le_one hlast
    have hsince : Since u (formats stamp time rfc3339) keys key name
        (opened u (formats stamp time rfc3339) key m recent) recent m :=
      ⟨hretains, hfirst, by omega⟩
    have hcontents := hsince.run hdistinct hkey hrecentClocked (hafter m hm) hfrom hrecent
    obtain ⟨hend, -⟩ := Retains.run hdistinct hkey (by rwa [List.append_nil])
      (by rwa [List.append_nil]) (hafter m hm) hrecent
    refine ⟨readLog finite parse
      (contentsBelow u s.fs key name ++ contentsFrom u m.fs key name), ?_⟩
    rw [contents_split u s.fs key name, hcontents, hlines, ← List.append_assoc]
    refine (readLog_append_lines ?_ fun trace htrace => htimes trace ?_).symm
    · rw [TextLines.open_append_iff]
      rintro (hno | ⟨-, hno⟩)
      · exact hretains.ordered.not_open_read _ hno
      · exact hend.ordered.not_open_read _ hno
    · rw [List.flatMap_append]
      exact List.mem_append_right _ htrace

end Log

def rotated (t : TraceObject) : List Rotation.Event :=
  let node : LogKey := ⟨"node", ["logs"], .forMachine⟩
  [.write node [t] 0 0, .rotate node 1 (10 ^ 9) (10 ^ 9)]

def writtenAndPruned (t : TraceObject) : List Rotation.Event :=
  let node : LogKey := ⟨"node", ["logs"], .forMachine⟩
  [.write node [t] (10 ^ 9 + 1) (10 ^ 9 + 1),
    .prune node 0 1 (10 ^ 9 + 2) ["node.json", "node-1970-01-01T00-00-00.json",
      "node-1970-01-01T00-00-01.json"]]

theorem retained_log_pass :
    let t : TraceObject :=
      ⟨some "a\nb", "\"1\"", ["Test"], .info, .dNormal, ⟨0, 0, by decide⟩, "host", "1"⟩
    let node : LogKey := ⟨"node", ["logs"], .forMachine⟩
    let F := formats rotationStamp Rotation.epoch.time fun _ => "1970-01-01T00:00:00Z"
    ∃ s, run (Rotation.step .ascii F) (start ⟨fun _ => none, 0⟩)
        (rotated t ++ writtenAndPruned t) = some s ∧
      readLog (fun _ => true) parseEpoch (contents .ascii s.fs node) <:+
        readLog (fun _ => true) parseEpoch (contents .ascii ⟨fun _ => none, 0⟩ node) ++
          [some t, some t] ∧
      [some t] <:+ readLog (fun _ => true) parseEpoch (contents .ascii s.fs node) := by
  intro t node F
  have hnone : ∀ key name, ¬ Taken .ascii ⟨fun _ => none, 0⟩ key name := by
    intro key name htaken
    exact absurd htaken.2 (by simp [Fs.lookup])
  obtain ⟨s, hrun⟩ : ∃ s, run (Rotation.step .ascii F) (start ⟨fun _ => none, 0⟩)
      (rotated t ++ writtenAndPruned t) = some s := Option.isSome_iff_exists.mp (by decide +kernel)
  obtain ⟨m, hm⟩ : ∃ m, run (Rotation.step .ascii F) (start ⟨fun _ => none, 0⟩) (rotated t) =
      some m := Option.isSome_iff_exists.mp (by decide +kernel)
  obtain ⟨x, hx⟩ : ∃ x, run (Rotation.step .ascii F) (start ⟨fun _ => none, 0⟩)
      (rotated t ++ (writtenAndPruned t).take 1) = some x :=
    Option.isSome_iff_exists.mp (by decide +kernel)
  -- what the pass finds
  have hopen : (run (Rotation.step .ascii F) (start ⟨fun _ => none, 0⟩)
      (rotated t ++ (writtenAndPruned t).take 1)).map (fun x =>
        (x.handles node).map fun h => h.path.name) =
      some (some "node-1970-01-01T00-00-01.json") := by decide +kernel
  have hfiles : (run (Rotation.step .ascii F) (start ⟨fun _ => none, 0⟩)
      (rotated t ++ (writtenAndPruned t).take 1)).map (fun x =>
        (x.fs.dirs (node.nodeDir .ascii)).map fun d => files d "json" ["node.json",
          "node-1970-01-01T00-00-00.json", "node-1970-01-01T00-00-01.json"]) =
      some (some [("node-1970-01-01T00-00-00.json", 0),
        ("node-1970-01-01T00-00-01.json", 10 ^ 9 + 1)]) := by decide +kernel
  rw [hx, Option.map_some, Option.some.injEq] at hopen hfiles
  have hstamps : StampsOrdered F (rotated t ++ writtenAndPruned t) := by
    simp [StampsOrdered, rotated, writtenAndPruned, clock, F, formats, rotationStamp]
    decide +kernel
  have hclocked : Clocked F [node] (rotated t ++ writtenAndPruned t) := by
    refine ⟨by decide, ?_, hstamps, by decide, ?_⟩
    · simp [rotated, writtenAndPruned, clock]
    · simp [rotated, writtenAndPruned, Unwrapped]
  have hordered : Ordered .ascii node ((rotated t ++ writtenAndPruned t).filterMap mtimeOf)
      ⟨fun _ => none, 0⟩ :=
    ⟨fun n h => absurd h (hnone node n), fun n n' _ _ h => absurd h.taken (hnone node n),
      fun n _ h => absurd h.taken (hnone node n), fun n h => absurd h (hnone node n)⟩
  have hspares : Along (Rotation.step .ascii F) (Spares .ascii) (start ⟨fun _ => none, 0⟩)
      (rotated t ++ writtenAndPruned t) := by
    refine ⟨trivial, fun s₁ h₁ => ⟨trivial, fun s₂ h₂ => ⟨trivial, fun s₃ h₃ => ⟨?_, fun _ _ =>
      trivial⟩⟩⟩⟩
    have hs₃ : run (Rotation.step .ascii F) (start ⟨fun _ => none, 0⟩)
        (rotated t ++ (writtenAndPruned t).take 1) = some s₃ :=
      run_cons_iff.mpr ⟨s₁, h₁, run_cons_iff.mpr ⟨s₂, h₂, run_cons_iff.mpr ⟨s₃, h₃, rfl⟩⟩⟩
    obtain rfl := Option.some.inj (hx.symm.trans hs₃)
    intro h d age hh hd _
    rw [hh, Option.map_some, Option.some.injEq] at hopen
    rw [hd, Option.map_some, Option.some.injEq] at hfiles
    rw [hopen]
    refine ⟨[("node-1970-01-01T00-00-00.json", 0)], 10 ^ 9 + 1, [], hfiles, ?_, by decide⟩
    exact fun hold => absurd hold.1 (by decide)
  have hlog := @retained_log (fun _ => true) parseEpoch rotationStamp Rotation.epoch.time
    (fun _ => "1970-01-01T00:00:00Z") .ascii [node] ⟨fun _ => none, 0⟩
    (rotated t ++ writtenAndPruned t) s node
    (by decide) (List.mem_singleton_self node) rfl hclocked hspares
    (fun key _ name htaken => absurd htaken (hnone key name)) hordered (by decide) hrun
  refine ⟨s, hrun, hlog.1, ?_⟩
  have hnames : (run (Rotation.step .ascii F) (start ⟨fun _ => none, 0⟩) (rotated t)).map
      (fun m => logNames "json" ((m.fs.dirs (node.nodeDir .ascii)).getD ∅)) =
      some ["node-1970-01-01T00-00-01.json", "node-1970-01-01T00-00-00.json"] := by
    decide +kernel
  have hopened : (run (Rotation.step .ascii F) (start ⟨fun _ => none, 0⟩) (rotated t)).map
      (fun m => opened .ascii F node m (writtenAndPruned t)) = some 0 := by decide +kernel
  rw [hm, Option.map_some, Option.some.injEq] at hnames hopened
  have htaken : ∀ file, Taken .ascii m.fs node file ↔
      file ∈ ["node-1970-01-01T00-00-01.json", "node-1970-01-01T00-00-00.json"] := by
    intro file
    rw [← hnames]
    exact mem_logNames_iff.symm
  refine hlog.2 (rotated t) (writtenAndPruned t) m "node-1970-01-01T00-00-01.json" rfl hm ?_ ?_ ?_
  · exact Or.inr ((htaken _).mpr (by decide))
  · intro file hfile
    have hmem := (htaken file).mp hfile
    simp only [List.mem_cons, List.not_mem_nil, or_false] at hmem
    rcases hmem with rfl | rfl
    · exact le_rfl
    · decide +kernel
  · rw [hopened]
    refine ⟨trivial, fun _ _ => ⟨fun _ => ⟨by decide, ?_⟩, fun _ _ => trivial⟩⟩
    intro age _ file t' _ _ hold
    exact absurd hold.1 (by decide)

end Hermod.RetainedLog
