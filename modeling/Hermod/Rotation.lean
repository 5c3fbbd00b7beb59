import Hermod.LogWriter
import Hermod.StableSort
import Hermod.Transitions

/-!
The pruning of old log files, and the runs in which files are written, rotated and
pruned. Pruning chooses by name, age and rank among the files listed, and looks neither
at the open files nor at the link to the current one.
-/
namespace Hermod.Rotation

open LogWriter LogWriter.System ProtocolTypes StableSort Transitions
open TracerState (Unicode)

/-- A duration in nanoseconds. One that is out of range is a panic. -/
def hours (h : ℤ) : Option ℤ :=
  if |h * 3600| ≤ 9223372036854775 then some (h * 3600 * 10 ^ 9) else none

/-- The cast to a signed number wraps. -/
def maxAge (maxAgeHours : UInt64) : Option ℤ := hours maxAgeHours.toInt64.toInt

def fileAge (now mtime : ℤ) : ℤ :=
  let mtimeSecs := max mtime 0 / 10 ^ 9
  match DateTime.fromTimestamp mtimeSecs 0 with
  | some fileDt => now - fileDt.timestamp * 10 ^ 9
  | none => 0

def TooOld (maxAgeHours : UInt64) (maxAge now mtime : ℤ) : Prop :=
  0 < maxAgeHours ∧ maxAge < fileAge now mtime

instance (maxAgeHours : UInt64) (maxAge now mtime : ℤ) :
    Decidable (TooOld maxAgeHours maxAge now mtime) :=
  inferInstanceAs (Decidable (_ ∧ _))

/-- The cast of the index to 32 bits wraps. -/
def ExceedsCount (keepFilesNum : UInt32) (idx : ℕ) : Prop := keepFilesNum ≤ UInt32.ofNat idx

instance (keepFilesNum : UInt32) (idx : ℕ) : Decidable (ExceedsCount keepFilesNum idx) :=
  inferInstanceAs (Decidable (_ ≤ _))

/-- The extension is compared without the dot. -/
def isLogName (extension name : String) : Bool :=
  "node-".toList.isPrefixOf name.toList && extension.toList.isSuffixOf name.toList &&
    name != "node." ++ extension

/-- Links are skipped. -/
def modified : Entry → Option ℤ
  | .file f => some f.mtime
  | .directory mtime => some mtime
  | .symlink _ => none

def files (d : Dir) (extension : String) (listing : List String) : List (String × ℤ) :=
  (listing.filter (isLogName extension)).filterMap fun name =>
    ((d.lookup name).bind modified).map fun mtime => (name, mtime)

def NotOlder (f g : String × ℤ) : Prop := g.2 ≤ f.2

instance : DecidableRel NotOlder := fun _ _ => inferInstanceAs (Decidable (_ ≤ _))

instance : Std.Total NotOlder := ⟨fun f g => le_total g.2 f.2⟩

instance : IsTrans (String × ℤ) NotOlder := ⟨fun _ _ _ h h' => le_trans h' h⟩

def removeMarked (marked : String × ℤ → ℕ → Bool) (d : Dir) (files : List ((String × ℤ) × ℕ)) :
    Dir :=
  files.foldl (fun d f => if marked f.1 f.2 then Dir.removeFile d f.1.1 else d) d

/-- The result is `none` where the age limit panics, which is before any file is removed. -/
def pruneDir (d : Dir) (extension : String) (maxAgeHours : UInt64) (keepFilesNum : UInt32)
    (now : ℤ) (listing : List String) : Option Dir :=
  (maxAge maxAgeHours).map fun maxAge =>
    removeMarked
      (fun f idx => TooOld maxAgeHours maxAge now f.2 ∨ ExceedsCount keepFilesNum idx) d
      ((files d extension listing).insertionSort NotOlder).zipIdx

def pruneOldFiles (fs : Fs) (dir : Path) (extension : String) (maxAgeHours : UInt64)
    (keepFilesNum : UInt32) (now : ℤ) (listing : List String) : Fs :=
  match (fs.dirs dir).bind fun d =>
    pruneDir d extension maxAgeHours keepFilesNum now listing with
  | some d => { fs with dirs := Function.update fs.dirs dir (some d) }
  | none => fs

/-- One call of the writer or of the pruning, with the clocks that it reads: the time of
day, the time that the file system puts on what is written, and the order in which a
directory is listed. -/
inductive Event
  | write (key : LogKey) (traces : List TraceObject) (now mtime : ℤ)
  | rotate (key : LogKey) (limitBytes : ℕ) (now mtime : ℤ)
  | prune (key : LogKey) (maxAgeHours : UInt64) (keepFilesNum : UInt32) (now : ℤ)
      (listing : List String)

def Event.key : Event → LogKey
  | write key .. => key
  | rotate key .. => key
  | prune key .. => key

def names (fs : Fs) (dir : Path) : List String := ((fs.dirs dir).map AList.keys).getD []

/-- Calls that meet an input or output error are refused. -/
def step (u : Unicode) (F : Formats) (s : System) : Event → Option System
  | .write key traces now mtime => s.writeTraces u F key traces now mtime
  | .rotate key limitBytes now mtime => s.rotateIfNeeded u F key limitBytes now mtime
  | .prune key maxAgeHours keepFilesNum now listing =>
    if listing.Perm (names s.fs (key.nodeDir u)) then
      some ⟨pruneOldFiles s.fs (key.nodeDir u) (ext key.logFormat) maxAgeHours keepFilesNum now
        listing, s.handles⟩
    else none

def Kept (d : Dir) (extension : String) (maxAgeHours : UInt64) (keepFilesNum : UInt32)
    (maxAge now : ℤ) (listing : List String) (name : String) : Prop :=
  ∃ before mtime after, files d extension listing = before ++ (name, mtime) :: after ∧
    ¬ TooOld maxAgeHours maxAge now mtime ∧
    ¬ ExceedsCount keepFilesNum (rank NotOlder before (name, mtime) after)

def Spares (u : Unicode) (s : System) : Event → Prop
  | .prune key maxAgeHours keepFilesNum now listing =>
    ∀ h d age, s.handles key = some h → s.fs.dirs (key.nodeDir u) = some d →
      maxAge maxAgeHours = some age →
      Kept d (ext key.logFormat) maxAgeHours keepFilesNum age now listing h.path.name
  | _ => True

theorem removeMarked_cons (marked : String × ℤ → ℕ → Bool) (d : Dir)
    (f : (String × ℤ) × ℕ) (fs : List ((String × ℤ) × ℕ)) :
    removeMarked marked d (f :: fs) =
      removeMarked marked (if marked f.1 f.2 then Dir.removeFile d f.1.1 else d) fs := rfl

/-- A name that is gone stays gone. -/
theorem lookup_removeMarked_of_none {marked : String × ℤ → ℕ → Bool} {d : Dir}
    {fs : List ((String × ℤ) × ℕ)} {n : String} (hn : d.lookup n = none) :
    (removeMarked marked d fs).lookup n = none := by
  induction fs generalizing d with
  | nil => exact hn
  | cons f fs ih =>
    rw [removeMarked_cons]
    apply ih
    split
    · rw [Dir.lookup_removeFile, hn]
      exact ite_self _
    · exact hn

theorem lookup_removeMarked_of_unmarked {marked : String × ℤ → ℕ → Bool} {d : Dir}
    {fs : List ((String × ℤ) × ℕ)} {n : String}
    (hn : ∀ f ∈ fs, f.1.1 = n → marked f.1 f.2 = false) :
    (removeMarked marked d fs).lookup n = d.lookup n := by
  induction fs generalizing d with
  | nil => rfl
  | cons f fs ih =>
    rw [removeMarked_cons, ih fun g hg => hn g (List.mem_cons_of_mem f hg)]
    split
    · rename_i hmark
      have hne : n ≠ f.1.1 := by
        intro h
        rw [hn f (List.mem_cons_self ..) h.symm] at hmark
        cases hmark
      rw [Dir.lookup_removeFile, if_neg (c := n = f.1.1 ∧ _) fun h => hne h.1]
    · rfl

/-- What is marked is gone, unless it is a directory. -/
theorem lookup_removeMarked_of_marked {marked : String × ℤ → ℕ → Bool} {d : Dir}
    {fs : List ((String × ℤ) × ℕ)} {f : (String × ℤ) × ℕ} (hf : f ∈ fs)
    (hmark : marked f.1 f.2 = true) (hdir : (d.lookup f.1.1).any Entry.isDirectory = false) :
    (removeMarked marked d fs).lookup f.1.1 = none := by
  induction fs generalizing d with
  | nil => exact absurd hf List.not_mem_nil
  | cons g fs ih =>
    rw [removeMarked_cons]
    by_cases hgone :
        (if marked g.1 g.2 then Dir.removeFile d g.1.1 else d).lookup f.1.1 = none
    · exact lookup_removeMarked_of_none hgone
    · rcases List.mem_cons.mp hf with rfl | hf
      · rw [if_pos hmark, Dir.lookup_removeFile, if_pos ⟨rfl, by simp [hdir]⟩] at hgone
        exact absurd rfl hgone
      · apply ih hf
        split
        · rename_i hg
          rw [if_pos hg] at hgone
          rw [Dir.lookup_removeFile] at hgone ⊢
          split at hgone
          · exact absurd rfl hgone
          · rename_i hno
            rwa [if_neg hno]
        · exact hdir

/-- A name keeps its entry or loses it. -/
theorem lookup_removeMarked_cases (marked : String × ℤ → ℕ → Bool) (d : Dir)
    (fs : List ((String × ℤ) × ℕ)) (n : String) :
    (removeMarked marked d fs).lookup n = none ∨
      (removeMarked marked d fs).lookup n = d.lookup n := by
  induction fs generalizing d with
  | nil => exact Or.inr rfl
  | cons f fs ih =>
    rw [removeMarked_cons]
    by_cases hmark : marked f.1 f.2 = true
    · rw [if_pos hmark]
      rcases ih (Dir.removeFile d f.1.1) with hnone | hsame
      · exact Or.inl hnone
      · rw [hsame, Dir.lookup_removeFile]
        split
        · exact Or.inl rfl
        · exact Or.inr rfl
    · rw [if_neg hmark]
      exact ih d

/-- Directories are not removed. -/
theorem lookup_removeMarked_of_directory (marked : String × ℤ → ℕ → Bool) {d : Dir}
    (fs : List ((String × ℤ) × ℕ)) {n : String} {mtime : ℤ}
    (h : d.lookup n = some (.directory mtime)) :
    (removeMarked marked d fs).lookup n = some (.directory mtime) := by
  induction fs generalizing d with
  | nil => exact h
  | cons f fs ih =>
    rw [removeMarked_cons]
    apply ih
    by_cases hmark : marked f.1 f.2 = true
    · rw [if_pos hmark, Dir.lookup_removeFile, if_neg, h]
      rintro ⟨rfl, hdir⟩
      rw [h] at hdir
      exact hdir rfl
    · rwa [if_neg hmark]

/-- What is gone was marked, and no directory. -/
theorem lookup_removeMarked_eq_none_iff (marked : String × ℤ → ℕ → Bool) {d : Dir}
    (fs : List ((String × ℤ) × ℕ)) {n : String} (hn : d.lookup n ≠ none) :
    (removeMarked marked d fs).lookup n = none ↔
      (d.lookup n).any Entry.isDirectory = false ∧ ∃ f ∈ fs, f.1.1 = n ∧ marked f.1 f.2 = true := by
  constructor
  · intro hnone
    constructor
    · cases hentry : d.lookup n with
      | none => rfl
      | some e =>
        cases e with
        | file f => rfl
        | symlink target => rfl
        | directory mtime =>
          rw [lookup_removeMarked_of_directory marked fs hentry] at hnone
          cases hnone
    · by_contra hno
      refine hn ((lookup_removeMarked_of_unmarked fun f hf hname => ?_).symm.trans hnone)
      by_contra hmark
      exact hno ⟨f, hf, hname, by simpa using hmark⟩
  · rintro ⟨hdir, f, hf, rfl, hmark⟩
    exact lookup_removeMarked_of_marked hf hmark hdir

/-- The candidates of a pass, with their times. -/
theorem mem_files {d : Dir} {extension : String} {listing : List String} {f : String × ℤ} :
    f ∈ files d extension listing ↔
      f.1 ∈ listing ∧ isLogName extension f.1 = true ∧
        (d.lookup f.1).bind modified = some f.2 := by
  rw [files, List.mem_filterMap]
  constructor
  · intro h
    obtain ⟨name, hname, hf⟩ := h
    obtain ⟨mtime, hmtime, rfl⟩ := Option.map_eq_some_iff.mp hf
    obtain ⟨hlisted, hlog⟩ := List.mem_filter.mp hname
    exact ⟨hlisted, hlog, hmtime⟩
  · intro h
    obtain ⟨hlisted, hlog, hmtime⟩ := h
    exact ⟨f.1, List.mem_filter.mpr ⟨hlisted, hlog⟩, by rw [hmtime]; rfl⟩

theorem files_nodup (d : Dir) (extension : String) {listing : List String}
    (h : listing.Nodup) : ((files d extension listing).map Prod.fst).Nodup := by
  rw [files, List.map_filterMap]
  refine (h.filter _).filterMap ?_
  intro a a' b ha ha'
  simp only [Option.mem_def, Option.map_map, Option.map_eq_some_iff] at ha ha'
  obtain ⟨_, -, rfl⟩ := ha
  obtain ⟨_, -, rfl⟩ := ha'
  rfl

/-- A file is marked exactly when the rank it has among the files marks it. -/
theorem marked_iff (marked : String × ℤ → ℕ → Bool) {before after : List (String × ℤ)}
    {name : String} {mtime : ℤ}
    (hnodup : ((before ++ (name, mtime) :: after).map Prod.fst).Nodup) :
    (∃ f ∈ ((before ++ (name, mtime) :: after).insertionSort NotOlder).zipIdx,
        f.1.1 = name ∧ marked f.1 f.2 = true) ↔
      marked (name, mtime) (rank NotOlder before (name, mtime) after) = true := by
  obtain ⟨p, q, hsort, hlen⟩ := insertionSort_split (r := NotOlder) before (name, mtime) after
  have hperm := (List.perm_insertionSort NotOlder (before ++ (name, mtime) :: after)).map Prod.fst
  rw [hsort] at hperm ⊢
  have hsorted := hperm.nodup_iff.mpr hnodup
  have hself : (p ++ (name, mtime) :: q)[p.length]? = some (name, mtime) := by simp
  rw [← hlen]
  constructor
  · intro h
    obtain ⟨⟨f, i⟩, hf, hname, hmark⟩ := h
    have hi : (p ++ (name, mtime) :: q)[i]? = some f := List.mem_zipIdx_iff_getElem?.mp hf
    have hidx : i = p.length := by
      obtain ⟨hlt, -⟩ := List.getElem?_eq_some_iff.mp hi
      refine (List.getElem?_inj (by rwa [List.length_map]) hsorted).mp ?_
      rw [List.getElem?_map, List.getElem?_map, hi, hself]
      exact congrArg some hname
    subst hidx
    rw [hself, Option.some.injEq] at hi
    rwa [hi]
  · intro hmark
    exact ⟨((name, mtime), p.length), List.mem_zipIdx_iff_getElem?.mpr hself, rfl, hmark⟩

section Prune

variable {extension : String} {maxAgeHours : UInt64} {keepFilesNum : UInt32} {now : ℤ}
  {listing : List String}

/-- A pass leaves other names alone. -/
theorem lookup_pruneDir_of_not_isLogName {d d' : Dir}
    (h : pruneDir d extension maxAgeHours keepFilesNum now listing = some d') {n : String}
    (hn : isLogName extension n = false) : d'.lookup n = d.lookup n := by
  obtain ⟨age, -, rfl⟩ := Option.map_eq_some_iff.mp h
  apply lookup_removeMarked_of_unmarked
  intro f hf hname
  have hmem := (List.mem_insertionSort NotOlder).mp (List.fst_mem_of_mem_zipIdx hf)
  rw [← hname, (mem_files.mp hmem).2.1] at hn
  cases hn

/-- A regular file keeps its name exactly when the pass does not mark it. -/
theorem pruneDir_keeps_iff {d d' : Dir}
    (h : pruneDir d extension maxAgeHours keepFilesNum now listing = some d')
    (hnodup : listing.Nodup) {n : String} {f : File} (hlisted : n ∈ listing)
    (hlog : isLogName extension n = true) (hfile : d.lookup n = some (.file f)) :
    (d'.lookup n).bind Entry.inode = some f.inode ↔
      ∀ age, maxAge maxAgeHours = some age →
        Kept d extension maxAgeHours keepFilesNum age now listing n := by
  obtain ⟨age, hage, rfl⟩ := Option.map_eq_some_iff.mp h
  have hmem : (n, f.mtime) ∈ files d extension listing :=
    mem_files.mpr ⟨hlisted, hlog, by rw [hfile]; rfl⟩
  obtain ⟨before, after, hsplit⟩ := List.append_of_mem hmem
  have hfiles := files_nodup d extension hnodup
  rw [hsplit] at hfiles ⊢
  have hmarked := marked_iff (fun f idx =>
    decide (TooOld maxAgeHours age now f.2 ∨ ExceedsCount keepFilesNum idx)) hfiles
  constructor
  · intro hkeep age' hage'
    rw [hage, Option.some.injEq] at hage'
    subst hage'
    refine ⟨before, f.mtime, after, hsplit, ?_⟩
    rw [← not_or]
    intro hmark
    obtain ⟨g, hg, hname, hgmark⟩ := hmarked.mpr (decide_eq_true hmark)
    subst hname
    rw [lookup_removeMarked_of_marked hg hgmark (by rw [hfile]; rfl)] at hkeep
    cases hkeep
  · intro hkept
    obtain ⟨before', mtime, after', hsplit', hkept⟩ := hkept age hage
    -- the names are distinct, so the file is listed in one place only
    rw [hsplit] at hsplit'
    have hmarked' := marked_iff (fun f idx =>
      decide (TooOld maxAgeHours age now f.2 ∨ ExceedsCount keepFilesNum idx))
      (hsplit' ▸ hfiles)
    rw [← hsplit'] at hmarked'
    rw [lookup_removeMarked_of_unmarked, hfile]
    · rfl
    · intro g hg hname
      by_contra hgmark
      rw [Bool.not_eq_false] at hgmark
      have hmark := of_decide_eq_true (hmarked'.mp ⟨g, hg, hname, hgmark⟩)
      exact hmark.elim hkept.1 hkept.2

theorem lookup_pruneOldFiles (fs : Fs) {dir : Path} {p : FilePath}
    (hp : p.dir = dir → isLogName extension p.name = false) :
    (pruneOldFiles fs dir extension maxAgeHours keepFilesNum now listing).lookup p =
      fs.lookup p := by
  unfold pruneOldFiles
  split
  · rename_i d' hd'
    obtain ⟨d, hd, hprune⟩ := Option.bind_eq_some_iff.mp hd'
    rw [Fs.lookup_update]
    by_cases hdir : p.dir = dir
    · rw [if_pos hdir, lookup_pruneDir_of_not_isLogName hprune (hp hdir), Fs.lookup, hdir, hd,
        Option.bind_some]
    · rw [if_neg hdir]
  · rfl

/-- A file survives a pass exactly when its time and its rank let it. -/
theorem pruneOldFiles_keeps_iff (fs : Fs) {p : FilePath} {inode : ℕ}
    (hlisting : listing.Perm (names fs p.dir)) (hlog : isLogName extension p.name = true)
    (hinode : fs.inodeAt p = some inode) :
    (pruneOldFiles fs p.dir extension maxAgeHours keepFilesNum now listing).inodeAt p =
        some inode ↔
      ∀ d age, fs.dirs p.dir = some d → maxAge maxAgeHours = some age →
        Kept d extension maxAgeHours keepFilesNum age now listing p.name := by
  obtain ⟨e, he, hfile⟩ := Option.bind_eq_some_iff.mp hinode
  obtain ⟨d, hd, hname⟩ := Option.bind_eq_some_iff.mp he
  cases e with
  | symlink target => cases hfile
  | directory mtime => cases hfile
  | file f =>
    rw [Entry.inode, Option.some.injEq] at hfile
    subst hfile
    have hkeys : listing.Perm d.keys := by rwa [names, hd] at hlisting
    have hlisted : p.name ∈ listing :=
      hkeys.mem_iff.mpr (AList.mem_keys.mp (AList.lookup_isSome.mp (by rw [hname]; rfl)))
    have honly : (∀ d' age, fs.dirs p.dir = some d' → maxAge maxAgeHours = some age →
        Kept d' extension maxAgeHours keepFilesNum age now listing p.name) ↔
        ∀ age, maxAge maxAgeHours = some age →
          Kept d extension maxAgeHours keepFilesNum age now listing p.name := by
      rw [hd]
      constructor
      · intro h age hage
        exact h d age rfl hage
      · rintro h d' age ⟨⟩ hage
        exact h age hage
    rw [honly]
    unfold pruneOldFiles
    rw [hd, Option.bind_some]
    cases hprune : pruneDir d extension maxAgeHours keepFilesNum now listing with
    | some d' =>
      rw [← pruneDir_keeps_iff hprune (hkeys.nodup_iff.mpr d.keys_nodup) hlisted hlog hname]
      simp only [Fs.inodeAt, Fs.lookup_update, if_true]
    | none =>
      rw [pruneDir, Option.map_eq_none_iff] at hprune
      refine iff_of_true hinode fun age hage => ?_
      rw [hprune] at hage
      cases hage

end Prune

/-- The names that the writer makes are candidates of the pruning. -/
theorem isLogName_filename (key : LogKey) (stamp : String) :
    isLogName (ext key.logFormat) (key.filename stamp) = true := by
  have hprefix : "node-".toList <+: (key.filename stamp).toList := by
    rw [LogKey.filename, String.toList_append, String.toList_append, String.toList_append,
      List.append_assoc, List.append_assoc]
    exact List.prefix_append _ _
  rw [isLogName, List.isPrefixOf_iff_prefix.mpr hprefix,
    List.isSuffixOf_iff_suffix.mpr (ext_suffix_filename key stamp)]
  exact bne_iff_ne.mpr (filename_ne_linkName key key stamp)

theorem isLogName_linkName (extension : String) (key : LogKey) :
    isLogName extension key.linkName = false := by
  have hno : "node-".toList.isPrefixOf key.linkName.toList = false := by
    unfold LogKey.linkName
    cases key.logFormat <;> rfl
  rw [isLogName, hno]
  rfl

section Step

variable {u : Unicode} {F : Formats} {keys : List LogKey} {s s' : System}
  {maxAgeHours : UInt64} {keepFilesNum : UInt32} {now : ℤ} {listing : List String}

/-- Pruning for one key leaves the links and the files of the others. -/
theorem lookup_linkName_pruneOldFiles (fs : Fs) (key k : LogKey) :
    (pruneOldFiles fs (key.nodeDir u) (ext key.logFormat) maxAgeHours keepFilesNum now
        listing).lookup (k.path u k.linkName) = fs.lookup (k.path u k.linkName) :=
  lookup_pruneOldFiles fs fun _ => isLogName_linkName (ext key.logFormat) k

theorem lookup_filename_pruneOldFiles (hdistinct : Distinct u keys) (fs : Fs)
    {key k : LogKey} (hkey : key ∈ keys) (hk : k ∈ keys) (hne : k ≠ key) (stamp : String) :
    (pruneOldFiles fs (key.nodeDir u) (ext key.logFormat) maxAgeHours keepFilesNum now
        listing).lookup (k.path u (k.filename stamp)) =
      fs.lookup (k.path u (k.filename stamp)) := by
  refine lookup_pruneOldFiles fs fun hdir => ?_
  by_contra hlog
  rw [Bool.not_eq_false, isLogName, Bool.and_eq_true, Bool.and_eq_true,
    List.isSuffixOf_iff_suffix] at hlog
  exact hne (hdistinct k hk key hkey hdir (ext_unique (ext_suffix_filename k stamp) hlog.1.2))

/-- A pass keeps the files in use exactly when it spares the one that is open for its key. -/
theorem prune_filesInUse_iff (hdistinct : Distinct u keys) (howned : Owned u keys s)
    (hs : FilesInUse u s) {key : LogKey} (hkey : key ∈ keys)
    (hlisting : listing.Perm (names s.fs (key.nodeDir u))) :
    FilesInUse u ⟨pruneOldFiles s.fs (key.nodeDir u) (ext key.logFormat) maxAgeHours
        keepFilesNum now listing, s.handles⟩ ↔
      Spares u s (.prune key maxAgeHours keepFilesNum now listing) := by
  have hfile : ∀ h, s.handles key = some h →
      ((pruneOldFiles s.fs (key.nodeDir u) (ext key.logFormat) maxAgeHours keepFilesNum now
          listing).inodeAt h.path = some h.file ↔
        ∀ d age, s.fs.dirs (key.nodeDir u) = some d → maxAge maxAgeHours = some age →
          Kept d (ext key.logFormat) maxAgeHours keepFilesNum age now listing h.path.name) := by
    intro h hh
    obtain ⟨-, stamp, hpath⟩ := howned key h hh
    have hinode := (hs key h hh).1
    rw [hpath] at hinode ⊢
    exact pruneOldFiles_keeps_iff s.fs (p := key.path u (key.filename stamp)) hlisting
      (isLogName_filename key stamp) hinode
  constructor
  · intro hs' h d age hh
    exact (hfile h hh).mp (hs' key h hh).1 d age
  · intro hspares k h hh
    obtain ⟨hk, stamp, hpath⟩ := howned k h hh
    obtain ⟨hinode, htarget⟩ := hs k h hh
    constructor
    · by_cases hkk : k = key
      · subst hkk
        exact (hfile h hh).mpr fun d age => hspares h d age hh
      · rw [hpath] at hinode ⊢
        rwa [Fs.inodeAt, lookup_filename_pruneOldFiles hdistinct s.fs hkey hk hkk]
    · rwa [Fs.targetAt, lookup_linkName_pruneOldFiles]

/-- The invariant after a call, and when the files in use survive it. -/
theorem step_filesInUse_iff (hdistinct : Distinct u keys) (howned : Owned u keys s)
    (hs : FilesInUse u s) {e : Event} (hkey : e.key ∈ keys) (h : step u F s e = some s') :
    Owned u keys s' ∧ (FilesInUse u s' ↔ Spares u s e) := by
  cases e with
  | write key traces now mtime =>
    obtain ⟨howned', hs'⟩ := writeTraces_filesInUse hdistinct howned hs hkey h
    exact ⟨howned', iff_of_true hs' trivial⟩
  | rotate key limitBytes now mtime =>
    obtain ⟨howned', hs'⟩ := rotateIfNeeded_filesInUse hdistinct howned hs hkey h
    exact ⟨howned', iff_of_true hs' trivial⟩
  | prune key maxAgeHours keepFilesNum now listing =>
    rw [step] at h
    split at h
    · rename_i hlisting
      rw [Option.some.injEq] at h
      subst h
      exact ⟨howned, prune_filesInUse_iff hdistinct howned hs hkey hlisting⟩
    · cases h

end Step

/-- In every state of a run the open files are in use exactly when each pruning pass
keeps the file that is open for its key. -/
theorem reached_filesInUse_iff {u : Unicode} {F : Formats} {fs : Fs} {es : List Event}
    {s : System} (hdistinct : Distinct u (es.map Event.key))
    (h : run (step u F) (start fs) es = some s) :
    (∀ m, Reached (step u F) (start fs) es m → FilesInUse u m) ↔
      Along (step u F) (Spares u) (start fs) es :=
  reached_iff_along_of
    (fun _ _ _ howned hs he hstep => step_filesInUse_iff hdistinct howned hs he hstep)
    (owned_start u _ fs) (filesInUse_start u fs)
    (along_of_forall _ fun _ he => List.mem_map_of_mem he) h

def firstWrite : Event := .write ⟨"node", ["logs"], .forHuman⟩ [] 0 0

def epoch : Formats := ⟨fun _ => "1970-01-01T00-00-00", fun _ => "1970-01-01T00:00:00.000Z",
  fun _ => "\x7b\x7d"⟩

theorem reached_filesInUse_iff_pass :
    ∃ s, run (step .ascii epoch) (start ⟨fun _ => none, 0⟩)
        [firstWrite, .prune ⟨"node", ["logs"], .forHuman⟩ 24 10 (10 ^ 9)
          ["node.log", "node-1970-01-01T00-00-00.log"]] = some s ∧
      ((∀ m, Reached (step .ascii epoch) (start ⟨fun _ => none, 0⟩)
          [firstWrite, .prune ⟨"node", ["logs"], .forHuman⟩ 24 10 (10 ^ 9)
            ["node.log", "node-1970-01-01T00-00-00.log"]] m → FilesInUse .ascii m) ↔
        Along (step .ascii epoch) (Spares .ascii) (start ⟨fun _ => none, 0⟩)
          [firstWrite, .prune ⟨"node", ["logs"], .forHuman⟩ 24 10 (10 ^ 9)
            ["node.log", "node-1970-01-01T00-00-00.log"]]) :=
  ⟨_, rfl, reached_filesInUse_iff (by decide) rfl⟩

/-- A node that has been idle for 25 hours loses the file it still has open. -/
theorem idle_file_removed :
    ∃ s h, run (step .ascii epoch) (start ⟨fun _ => none, 0⟩)
        [firstWrite, .prune ⟨"node", ["logs"], .forHuman⟩ 24 10 (25 * 3600 * 10 ^ 9)
          ["node.log", "node-1970-01-01T00-00-00.log"]] = some s ∧
      s.handles ⟨"node", ["logs"], .forHuman⟩ = some h ∧ s.fs.inodeAt h.path = none := by
  refine ⟨_, _, rfl, rfl, ?_⟩
  rfl

end Hermod.Rotation
