import Hermod.Rotation

/-!
What a pruning pass leaves in a directory, against the promise that the newest files are
always kept. The pass looks at the names that end in the extension, with or without a
dot, and at directories as well as files; the promise is about the regular files whose
names are made of `node-`, a time and the extension behind a dot.
-/
namespace Hermod.Retention

open LogWriter Rotation StableSort

def isTimestamped (extension name : String) : Bool :=
  "node-".toList.isPrefixOf name.toList && ("." ++ extension).toList.isSuffixOf name.toList

def fileTime : Entry → Option ℤ
  | .file f => some f.mtime
  | _ => none

def entries (fs : Fs) (dir : Path) : Dir := (fs.dirs dir).getD ∅

def timestamped (d : Dir) (extension : String) (listing : List String) : List (String × ℤ) :=
  (listing.filter (isTimestamped extension)).filterMap fun name =>
    ((d.lookup name).bind fileTime).map fun mtime => (name, mtime)

def isTimestampedFile (d : Dir) (extension : String) (f : String × ℤ) : Bool :=
  isTimestamped extension f.1 && ((d.lookup f.1).bind fileTime).isSome

/-- As many of the newest timestamped files as are to be kept remain, and all else is
untouched. -/
structure KeepsNewest (fs fs' : Fs) (dir : Path) (extension : String) (keepFilesNum : UInt32)
    (listing : List String) : Prop where
  newest : ∃ kept,
    Firsts NotOlder (timestamped (entries fs dir) extension listing) keepFilesNum.toNat kept ∧
      ∀ f ∈ kept, fs'.lookup ⟨dir, f.1⟩ = fs.lookup ⟨dir, f.1⟩
  others : ∀ p : FilePath, (p.dir = dir → isTimestamped extension p.name = true →
    (fs.lookup p).bind fileTime = none) → fs'.lookup p = fs.lookup p

/-- A panic of the age limit comes before the first file, so it marks none. -/
def Unmarked (d : Dir) (extension : String) (maxAgeHours : UInt64) (keepFilesNum : UInt32)
    (now : ℤ) (listing : List String) (name : String) : Prop :=
  ∀ age, maxAge maxAgeHours = some age →
    Kept d extension maxAgeHours keepFilesNum age now listing name

def SparesOthers (d : Dir) (extension : String) (maxAgeHours : UInt64) (keepFilesNum : UInt32)
    (now : ℤ) (listing : List String) : Prop :=
  ∀ f ∈ files d extension listing, isTimestamped extension f.1 = false →
    (d.lookup f.1).bind fileTime ≠ none →
    Unmarked d extension maxAgeHours keepFilesNum now listing f.1

/-- None of the newest files is marked, for one choice between those of the same age. -/
def SparesNewest (d : Dir) (extension : String) (maxAgeHours : UInt64) (keepFilesNum : UInt32)
    (now : ℤ) (listing : List String) : Prop :=
  ∃ kept, Firsts NotOlder (timestamped d extension listing) keepFilesNum.toNat kept ∧
    ∀ f ∈ kept, Unmarked d extension maxAgeHours keepFilesNum now listing f.1

theorem fileTime_eq_some_iff {e : Option Entry} {mtime : ℤ} :
    e.bind fileTime = some mtime ↔ ∃ f, e = some (.file f) ∧ f.mtime = mtime := by
  rw [Option.bind_eq_some_iff]
  constructor
  · rintro ⟨e, he, hmtime⟩
    cases e with
    | file f => exact ⟨f, he, Option.some.inj hmtime⟩
    | symlink target => cases hmtime
    | directory mtime => cases hmtime
  · rintro ⟨f, hf, rfl⟩
    exact ⟨.file f, hf, rfl⟩

/-- A timestamped log file has a name that the pass looks at. -/
theorem isLogName_of_isTimestamped {extension name : String}
    (h : isTimestamped extension name = true) : isLogName extension name = true := by
  rw [isTimestamped, Bool.and_eq_true, List.isSuffixOf_iff_suffix] at h
  obtain ⟨hnode, hdot⟩ := h
  have hsuffix : extension.toList <:+ name.toList := by
    rw [String.toList_append] at hdot
    exact (List.suffix_append _ _).trans hdot
  have hne : name ≠ "node." ++ extension := by
    rintro rfl
    rw [List.isPrefixOf_iff_prefix, String.toList_append] at hnode
    simp at hnode
  rw [isLogName, hnode, List.isSuffixOf_iff_suffix.mpr hsuffix]
  exact bne_iff_ne.mpr hne

section Files

variable {d : Dir} {extension : String} {listing : List String}

/-- The timestamped files are those of the listing, with their times. -/
theorem mem_timestamped {f : String × ℤ} :
    f ∈ timestamped d extension listing ↔
      f.1 ∈ listing ∧ isTimestamped extension f.1 = true ∧
        (d.lookup f.1).bind fileTime = some f.2 := by
  rw [timestamped, List.mem_filterMap]
  constructor
  · rintro ⟨name, hname, hf⟩
    obtain ⟨mtime, hmtime, rfl⟩ := Option.map_eq_some_iff.mp hf
    obtain ⟨hlisted, hstamped⟩ := List.mem_filter.mp hname
    exact ⟨hlisted, hstamped, hmtime⟩
  · rintro ⟨hlisted, hstamped, hmtime⟩
    exact ⟨f.1, List.mem_filter.mpr ⟨hlisted, hstamped⟩, by rw [hmtime]; rfl⟩

theorem modified_of_fileTime {e : Option Entry} {mtime : ℤ} (h : e.bind fileTime = some mtime) :
    e.bind modified = some mtime := by
  obtain ⟨f, rfl, rfl⟩ := fileTime_eq_some_iff.mp h
  rfl

/-- The timestamped files are some of those considered, in the same order. -/
theorem timestamped_eq (d : Dir) (extension : String) (listing : List String) :
    timestamped d extension listing =
      (files d extension listing).filter (isTimestampedFile d extension) := by
  rw [timestamped, files, List.filter_filterMap, List.filterMap_filter, List.filterMap_filter]
  congr 1
  funext name
  by_cases hstamped : isTimestamped extension name = true
  · rw [if_pos hstamped, if_pos (isLogName_of_isTimestamped hstamped)]
    cases hmtime : (d.lookup name).bind fileTime with
    | none =>
      cases (d.lookup name).bind modified with
      | none => rfl
      | some mtime => simp [Option.filter_some, isTimestampedFile, hmtime]
    | some mtime =>
      rw [modified_of_fileTime hmtime]
      simp [Option.filter_some, isTimestampedFile, hmtime, hstamped]
  · rw [if_neg hstamped]
    by_cases hlog : isLogName extension name = true
    · rw [if_pos hlog]
      cases (d.lookup name).bind modified with
      | none => rfl
      | some mtime => simp [Option.filter_some, isTimestampedFile, hstamped]
    · rw [if_neg hlog]

theorem files_nodup_pairs (d : Dir) (extension : String) (hnodup : listing.Nodup) :
    (files d extension listing).Nodup :=
  (files_nodup d extension hnodup).of_map

theorem timestamped_nodup (d : Dir) (extension : String) (hnodup : listing.Nodup) :
    (timestamped d extension listing).Nodup := by
  rw [timestamped_eq]
  exact (files_nodup_pairs d extension hnodup).filter _

end Files

section Pass

variable {d : Dir} {extension : String} {maxAgeHours : UInt64} {keepFilesNum : UInt32} {now : ℤ}
  {listing : List String}

def pruned (d : Dir) (extension : String) (maxAgeHours : UInt64) (keepFilesNum : UInt32)
    (now : ℤ) (listing : List String) : Dir :=
  (pruneDir d extension maxAgeHours keepFilesNum now listing).getD d

/-- A pass works in its own directory. -/
theorem lookup_pruneOldFiles_entries (fs : Fs) (dir : Path) (p : FilePath)
    (hlisting : listing.Perm (names fs dir)) :
    (pruneOldFiles fs dir extension maxAgeHours keepFilesNum now listing).lookup p =
      if p.dir = dir then
        (pruned (entries fs dir) extension maxAgeHours keepFilesNum now listing).lookup p.name
      else fs.lookup p := by
  unfold pruneOldFiles pruned entries
  cases hdir : fs.dirs dir with
  | none =>
    have hnil : listing = [] := by
      rw [names, hdir] at hlisting
      exact hlisting.eq_nil
    have hsame : ((pruneDir ∅ extension maxAgeHours keepFilesNum now []).getD ∅) = ∅ := by
      unfold pruneDir
      cases maxAge maxAgeHours <;> rfl
    by_cases hp : p.dir = dir
    · rw [if_pos hp, hnil]
      simp only [Option.bind_none, Option.getD_none]
      rw [hsame, Fs.lookup, hp, hdir]
      rfl
    · rw [if_neg hp]
      rfl
  | some d =>
    simp only [Option.bind_some, Option.getD_some]
    cases hprune : pruneDir d extension maxAgeHours keepFilesNum now listing with
    | none =>
      by_cases hp : p.dir = dir
      · simp [Fs.lookup, hp, hdir]
      · simp [if_neg hp]
    | some d' => simp [Fs.lookup_update]

theorem lookup_entries (fs : Fs) (p : FilePath) :
    fs.lookup p = (entries fs p.dir).lookup p.name := by
  unfold Fs.lookup entries
  cases fs.dirs p.dir with
  | none => rfl
  | some d => rfl

theorem names_eq (fs : Fs) (dir : Path) : names fs dir = (entries fs dir).keys := by
  unfold names entries
  cases fs.dirs dir with
  | none => rfl
  | some d => rfl

/-- Only regular files are lost. -/
theorem lookup_pruned_of_not_file {n : String} (h : (d.lookup n).bind fileTime = none) :
    (pruned d extension maxAgeHours keepFilesNum now listing).lookup n = d.lookup n := by
  unfold pruned pruneDir
  cases maxAge maxAgeHours with
  | none => rfl
  | some age =>
    rw [Option.map_some, Option.getD_some]
    cases hentry : d.lookup n with
    | none => exact lookup_removeMarked_of_none hentry
    | some e =>
      cases e with
      | file f =>
        rw [hentry] at h
        cases h
      | directory mtime => exact lookup_removeMarked_of_directory _ _ hentry
      | symlink target =>
        rw [← hentry]
        apply lookup_removeMarked_of_unmarked
        intro f hf hname
        have hmem := (List.mem_insertionSort NotOlder).mp (List.fst_mem_of_mem_zipIdx hf)
        have hmodified := (mem_files.mp hmem).2.2
        rw [hname, hentry] at hmodified
        cases hmodified

/-- A regular file that is considered keeps its entry exactly when it is not marked. -/
theorem lookup_pruned_iff (hnodup : listing.Nodup) {n : String} {mtime : ℤ}
    (hlisted : n ∈ listing) (hlog : isLogName extension n = true)
    (hfile : (d.lookup n).bind fileTime = some mtime) :
    (pruned d extension maxAgeHours keepFilesNum now listing).lookup n = d.lookup n ↔
      Unmarked d extension maxAgeHours keepFilesNum now listing n := by
  obtain ⟨f, hentry, -⟩ := fileTime_eq_some_iff.mp hfile
  unfold pruned
  cases hprune : pruneDir d extension maxAgeHours keepFilesNum now listing with
  | none =>
    rw [pruneDir, Option.map_eq_none_iff] at hprune
    refine iff_of_true rfl fun age hage => ?_
    rw [hprune] at hage
    cases hage
  | some d' =>
    rw [Option.getD_some, Unmarked, ← pruneDir_keeps_iff hprune hnodup hlisted hlog hentry]
    obtain ⟨age, -, rfl⟩ := Option.map_eq_some_iff.mp hprune
    constructor
    · intro h
      rw [h, hentry]
      rfl
    · intro h
      rcases lookup_removeMarked_cases _ d _ n with hnone | hsame
      · rw [hnone] at h
        cases h
      · exact hsame

/-- A name that the pass does not consider keeps its entry. -/
theorem lookup_pruned_of_not_isLogName {n : String} (h : isLogName extension n = false) :
    (pruned d extension maxAgeHours keepFilesNum now listing).lookup n = d.lookup n := by
  unfold pruned
  cases hprune : pruneDir d extension maxAgeHours keepFilesNum now listing with
  | none => rfl
  | some d' => exact lookup_pruneDir_of_not_isLogName hprune h

variable {fs : Fs} {dir : Path}

theorem listing_nodup (hlisting : listing.Perm (names fs dir)) : listing.Nodup := by
  rw [names_eq] at hlisting
  exact hlisting.nodup_iff.mpr (entries fs dir).keys_nodup

theorem lookup_pruneOldFiles_iff (hlisting : listing.Perm (names fs dir)) {n : String} {mtime : ℤ}
    (hlisted : n ∈ listing) (hlog : isLogName extension n = true)
    (hfile : ((entries fs dir).lookup n).bind fileTime = some mtime) :
    (pruneOldFiles fs dir extension maxAgeHours keepFilesNum now listing).lookup ⟨dir, n⟩ =
        fs.lookup ⟨dir, n⟩ ↔
      Unmarked (entries fs dir) extension maxAgeHours keepFilesNum now listing n := by
  rw [lookup_pruneOldFiles_entries fs dir ⟨dir, n⟩ hlisting, if_pos rfl, lookup_entries fs ⟨dir, n⟩]
  exact lookup_pruned_iff (listing_nodup hlisting) hlisted hlog hfile

theorem newest_iff (hlisting : listing.Perm (names fs dir)) {f : String × ℤ}
    (hf : f ∈ timestamped (entries fs dir) extension listing) :
    (pruneOldFiles fs dir extension maxAgeHours keepFilesNum now listing).lookup ⟨dir, f.1⟩ =
        fs.lookup ⟨dir, f.1⟩ ↔
      Unmarked (entries fs dir) extension maxAgeHours keepFilesNum now listing f.1 := by
  obtain ⟨hlisted, hstamped, hfile⟩ := mem_timestamped.mp hf
  exact lookup_pruneOldFiles_iff hlisting hlisted (isLogName_of_isTimestamped hstamped) hfile

/-- What is not a timestamped log file is untouched exactly when no such file is marked. -/
theorem others_iff (hlisting : listing.Perm (names fs dir)) :
    (∀ p : FilePath, (p.dir = dir → isTimestamped extension p.name = true →
        (fs.lookup p).bind fileTime = none) →
      (pruneOldFiles fs dir extension maxAgeHours keepFilesNum now listing).lookup p =
        fs.lookup p) ↔
      SparesOthers (entries fs dir) extension maxAgeHours keepFilesNum now listing := by
  constructor
  · intro hothers f hf hstamped hfile
    obtain ⟨hlisted, hlog, -⟩ := mem_files.mp hf
    obtain ⟨mtime, hmtime⟩ := Option.ne_none_iff_exists'.mp hfile
    have hsame := hothers ⟨dir, f.1⟩ fun _ hyes => absurd (hstamped.symm.trans hyes) (by simp)
    exact (lookup_pruneOldFiles_iff hlisting hlisted hlog hmtime).mp hsame
  · rintro hothers ⟨pdir, n⟩ hp
    by_cases hdir : pdir = dir
    · subst hdir
      have hpruned : (pruneOldFiles fs pdir extension maxAgeHours keepFilesNum now listing).lookup
          ⟨pdir, n⟩ =
            (pruned (entries fs pdir) extension maxAgeHours keepFilesNum now listing).lookup n := by
        rw [lookup_pruneOldFiles_entries fs pdir ⟨pdir, n⟩ hlisting, if_pos rfl]
      rw [lookup_entries fs ⟨pdir, n⟩] at hp
      cases hfile : ((entries fs pdir).lookup n).bind fileTime with
      | none =>
        rw [hpruned, lookup_entries fs ⟨pdir, n⟩]
        exact lookup_pruned_of_not_file hfile
      | some mtime =>
        by_cases hlog : isLogName extension n = true
        · have hlisted : n ∈ listing := by
            obtain ⟨f, hentry, -⟩ := fileTime_eq_some_iff.mp hfile
            have hkey : n ∈ entries fs pdir := AList.lookup_isSome.mp (by rw [hentry]; rfl)
            rw [names_eq] at hlisting
            exact hlisting.mem_iff.mpr (AList.mem_keys.mp hkey)
          have hmem : (n, mtime) ∈ files (entries fs pdir) extension listing :=
            mem_files.mpr ⟨hlisted, hlog, modified_of_fileTime hfile⟩
          have hstamped : isTimestamped extension n = false := by
            by_contra hyes
            have hnone := hp rfl (by simpa using hyes)
            rw [hfile] at hnone
            cases hnone
          have hunmarked := hothers (n, mtime) hmem hstamped (by rw [hfile]; simp)
          exact (lookup_pruneOldFiles_iff hlisting hlisted hlog hfile).mpr hunmarked
        · rw [hpruned, lookup_entries fs ⟨pdir, n⟩]
          exact lookup_pruned_of_not_isLogName (by simpa using hlog)
    · rw [lookup_pruneOldFiles_entries fs dir ⟨pdir, n⟩ hlisting, if_neg hdir]

end Pass

/-- The pass keeps the newest files and spares all else exactly when it marks none of the
files it should not. -/
theorem keepsNewest_iff (fs : Fs) (dir : Path) (extension : String) (maxAgeHours : UInt64)
    (keepFilesNum : UInt32) (now : ℤ) {listing : List String}
    (hlisting : listing.Perm (names fs dir)) :
    KeepsNewest fs (pruneOldFiles fs dir extension maxAgeHours keepFilesNum now listing) dir
        extension keepFilesNum listing ↔
      SparesNewest (entries fs dir) extension maxAgeHours keepFilesNum now listing ∧
        SparesOthers (entries fs dir) extension maxAgeHours keepFilesNum now listing := by
  constructor
  · rintro ⟨⟨kept, hkept, hsame⟩, hothers⟩
    refine ⟨⟨kept, hkept, fun f hf => ?_⟩, (others_iff hlisting).mp hothers⟩
    exact (newest_iff hlisting (hkept.subset hf)).mp (hsame f hf)
  · rintro ⟨⟨kept, hkept, hunmarked⟩, hothers⟩
    refine ⟨⟨kept, hkept, fun f hf => ?_⟩, (others_iff hlisting).mpr hothers⟩
    exact (newest_iff hlisting (hkept.subset hf)).mpr (hunmarked f hf)

theorem exists_order {α : Type} {l : List α} {x y : α} (hx : x ∈ l) (hy : y ∈ l) (hne : x ≠ y) :
    (∃ a b c, l = a ++ x :: b ++ y :: c) ∨ ∃ a b c, l = a ++ y :: b ++ x :: c := by
  obtain ⟨a, c, rfl⟩ := List.append_of_mem hx
  rcases List.mem_append.mp hy with ha | hc
  · obtain ⟨a, b, rfl⟩ := List.append_of_mem ha
    exact Or.inr ⟨a, b, c, rfl⟩
  · obtain ⟨b, c, rfl⟩ := List.append_of_mem ((List.mem_cons.mp hc).resolve_left hne.symm)
    exact Or.inl ⟨a, b, c, by simp⟩

section Order

variable {d : Dir} {extension : String} {maxAgeHours : UInt64} {keepFilesNum : UInt32}
  {age now : ℤ} {listing : List String}

/-- A file is listed in one place only, so its rank is the one it has there. -/
theorem kept_iff (hnodup : listing.Nodup) {before after : List (String × ℤ)} {f : String × ℤ}
    (hfiles : files d extension listing = before ++ f :: after) :
    Kept d extension maxAgeHours keepFilesNum age now listing f.1 ↔
      ¬ TooOld maxAgeHours age now f.2 ∧
        ¬ ExceedsCount keepFilesNum (rank NotOlder before f after) := by
  constructor
  · rintro ⟨before', mtime, after', hfiles', hold, hcount⟩
    have hnames := files_nodup d extension hnodup
    have hpairs := files_nodup_pairs d extension hnodup
    rw [hfiles] at hnames hpairs hfiles'
    have hf : f = (f.1, mtime) := by
      refine List.inj_on_of_nodup_map hnames (by simp) ?_ rfl
      rw [hfiles']
      exact List.mem_append_right _ (List.mem_cons_self ..)
    have hnotMem := (List.nodup_cons.mp (List.nodup_middle.mp hpairs)).1
    rw [List.mem_append, not_or, hf] at hnotMem
    obtain ⟨rfl, -, rfl⟩ :=
      (List.append_cons_inj_of_notMem hnotMem.1 hnotMem.2).mp hfiles'
    rw [hf]
    exact ⟨hold, hcount⟩
  · rintro ⟨hold, hcount⟩
    exact ⟨before, f.2, after, hfiles, hold, hcount⟩

theorem exceedsCount_iff {idx : ℕ} (h : idx < 2 ^ 32) :
    ExceedsCount keepFilesNum idx ↔ keepFilesNum.toNat ≤ idx := by
  rw [ExceedsCount, UInt32.le_iff_toNat_le]
  have htoNat : (UInt32.ofNat idx).toNat = idx := UInt32.toNat_ofNat_of_lt' h
  rw [htoNat]

/-- Of two files of one age the first that is listed is spared if the other one is. -/
theorem unmarked_of_before (hnodup : listing.Nodup) (hlength : listing.length ≤ 2 ^ 32)
    {a b c : List (String × ℤ)} {f s : String × ℤ}
    (hsplit : files d extension listing = a ++ f :: b ++ s :: c) (hmtime : f.2 = s.2)
    (hs : Unmarked d extension maxAgeHours keepFilesNum now listing s.1) :
    Unmarked d extension maxAgeHours keepFilesNum now listing f.1 := by
  intro age hage
  have hrank := rank_lt_of_before (r := NotOlder) (a := a) (b := b) (c := c) (le_of_eq hmtime.symm)
  have hbound : rank NotOlder (a ++ f :: b) s c < 2 ^ 32 := by
    have hlt := rank_lt_length (r := NotOlder) (a ++ f :: b) s c
    have hle : (files d extension listing).length ≤ listing.length :=
      (List.length_filterMap_le _ _).trans (List.length_filter_le _ _)
    rw [hsplit] at hle
    omega
  have hkept := hs age hage
  rw [kept_iff hnodup hsplit, exceedsCount_iff hbound] at hkept
  have hsplit' : files d extension listing = a ++ f :: (b ++ s :: c) := by
    rw [hsplit, List.append_assoc, List.cons_append]
  rw [kept_iff hnodup hsplit', hmtime, exceedsCount_iff (hrank.trans hbound)]
  exact ⟨hkept.1, by omega⟩

/-- In a directory of no more entries than a rank can count, it does not matter which of
the files of the same age are chosen. -/
theorem sparesNewest_iff (hnodup : listing.Nodup) (hlength : listing.length ≤ 2 ^ 32) :
    SparesNewest d extension maxAgeHours keepFilesNum now listing ↔
      ∀ f ∈ ((timestamped d extension listing).insertionSort NotOlder).take keepFilesNum.toNat,
        Unmarked d extension maxAgeHours keepFilesNum now listing f.1 := by
  constructor
  · rintro ⟨kept, hkept, hunmarked⟩ f hf
    by_cases hmem : f ∈ kept
    · exact hunmarked f hmem
    · have htimes := timestamped_nodup d extension hnodup
      obtain ⟨s, hs, hdrop, hsf⟩ := hkept.exchange htimes hf hmem
      have hsorted := List.pairwise_insertionSort NotOlder (timestamped d extension listing)
      rw [← List.take_append_drop keepFilesNum.toNat
        ((timestamped d extension listing).insertionSort NotOlder)] at hsorted
      have hfs : NotOlder f s := (List.pairwise_append.mp hsorted).2.2 f hf s hdrop
      have hconsidered : ∀ g ∈ timestamped d extension listing,
          g ∈ files d extension listing ∧ isTimestampedFile d extension g = true := by
        intro g hg
        rw [timestamped_eq] at hg
        exact List.mem_filter.mp hg
      obtain ⟨hfiles, hfP⟩ :=
        hconsidered f ((List.mem_insertionSort NotOlder).mp (List.mem_of_mem_take hf))
      obtain ⟨hsfiles, hsP⟩ :=
        hconsidered s ((List.mem_insertionSort NotOlder).mp (List.mem_of_mem_drop hdrop))
      have hne : f ≠ s := fun heq => hmem (heq ▸ hs)
      rcases exists_order hfiles hsfiles hne with ⟨a, b, c, hsplit⟩ | ⟨a, b, c, hsplit⟩
      · -- the file that is spared is listed behind this one
        exact unmarked_of_before hnodup hlength hsplit (le_antisymm hsf hfs) (hunmarked s hs)
      · -- it cannot be listed ahead of it, as it would be sorted ahead of it
        obtain ⟨a, b, c, hsplitT⟩ : ∃ a b c,
            timestamped d extension listing = a ++ s :: b ++ f :: c := by
          rw [timestamped_eq, hsplit, List.filter_append, List.filter_cons_of_pos hfP,
            List.filter_append, List.filter_cons_of_pos hsP]
          exact ⟨_, _, _, rfl⟩
        rw [hsplitT] at htimes hf hdrop
        exact absurd hdrop (notMem_drop_of_before htimes hsf hf)
  · intro h
    exact ⟨_, firsts_take _ _, h⟩

end Order

/-- When a pass keeps the newest files and spares all else. -/
theorem prune_keeps_newest_iff (fs : Fs) (dir : Path) (extension : String)
    (maxAgeHours : UInt64) (keepFilesNum : UInt32) (now : ℤ) {listing : List String}
    (hlisting : listing.Perm (names fs dir)) :
    (KeepsNewest fs (pruneOldFiles fs dir extension maxAgeHours keepFilesNum now listing) dir
        extension keepFilesNum listing ↔
      SparesNewest (entries fs dir) extension maxAgeHours keepFilesNum now listing ∧
        SparesOthers (entries fs dir) extension maxAgeHours keepFilesNum now listing) ∧
    (listing.length ≤ 2 ^ 32 →
      (SparesNewest (entries fs dir) extension maxAgeHours keepFilesNum now listing ↔
        ∀ f ∈ ((timestamped (entries fs dir) extension listing).insertionSort NotOlder).take
            keepFilesNum.toNat,
          Unmarked (entries fs dir) extension maxAgeHours keepFilesNum now listing f.1)) := by
  refine ⟨keepsNewest_iff fs dir extension maxAgeHours keepFilesNum now hlisting, ?_⟩
  intro hlength
  exact sparesNewest_iff (listing_nodup hlisting) hlength

def oneFile : Fs :=
  ⟨fun dir => if dir = ["logs", "node"] then
    some (AList.singleton "node-1970-01-01T00-00-00.log" (.file ⟨0, "", 0⟩)) else none, 1⟩

theorem prune_keeps_newest_iff_oneFile :
    ["node-1970-01-01T00-00-00.log"].Perm (names oneFile ["logs", "node"]) ∧
    (KeepsNewest oneFile (pruneOldFiles oneFile ["logs", "node"] "log" 24 1 (10 ^ 9)
          ["node-1970-01-01T00-00-00.log"]) ["logs", "node"] "log" 1
          ["node-1970-01-01T00-00-00.log"] ↔
      SparesNewest (entries oneFile ["logs", "node"]) "log" 24 1 (10 ^ 9)
          ["node-1970-01-01T00-00-00.log"] ∧
        SparesOthers (entries oneFile ["logs", "node"]) "log" 24 1 (10 ^ 9)
          ["node-1970-01-01T00-00-00.log"]) :=
  ⟨List.Perm.refl _,
    (prune_keeps_newest_iff oneFile ["logs", "node"] "log" 24 1 (10 ^ 9) (List.Perm.refl _)).1⟩

/-- The only log file is lost when it is 25 hours old, although one is to be kept. -/
theorem only_file_removed :
    ¬ KeepsNewest oneFile (pruneOldFiles oneFile ["logs", "node"] "log" 24 1
        (25 * 3600 * 10 ^ 9) ["node-1970-01-01T00-00-00.log"]) ["logs", "node"] "log" 1
        ["node-1970-01-01T00-00-00.log"] := by
  intro h
  obtain ⟨kept, ⟨rest, hperm, hlength, -⟩, hsame⟩ := h.newest
  have htimes : timestamped (entries oneFile ["logs", "node"]) "log"
      ["node-1970-01-01T00-00-00.log"] = [("node-1970-01-01T00-00-00.log", 0)] := by
    decide +kernel
  rw [htimes] at hperm hlength
  have hrest : rest = [] := by
    have hsum := hperm.length_eq
    simp only [List.length_append, List.length_singleton] at hsum hlength
    have hone : (1 : UInt32).toNat = 1 := rfl
    rw [hone] at hlength
    exact List.eq_nil_of_length_eq_zero (by omega)
  rw [hrest, List.append_nil] at hperm
  have hkept := hsame _ (hperm.mem_iff.mpr (List.mem_singleton_self _))
  have hlost : (pruneOldFiles oneFile ["logs", "node"] "log" 24 1 (25 * 3600 * 10 ^ 9)
      ["node-1970-01-01T00-00-00.log"]).lookup
        ⟨["logs", "node"], "node-1970-01-01T00-00-00.log"⟩ = none := by decide +kernel
  have hthere : oneFile.lookup ⟨["logs", "node"], "node-1970-01-01T00-00-00.log"⟩ =
      some (.file ⟨0, "", 0⟩) := by decide +kernel
  rw [hlost, hthere] at hkept
  cases hkept

end Hermod.Retention
