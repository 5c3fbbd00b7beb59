import Hermod.Rotation
import Hermod.Segments
import Mathlib.Data.String.Basic

/-!
The files of one key, read in the order of their names, as a log that is only appended
to. Writing appends to the file that is open, which has the greatest name, and rotating
begins a new file behind it or, within the same second, opens the same one again.
-/
namespace Hermod.AppendOnlyLog

open LogWriter LogWriter.System ProtocolTypes Rotation Segments Transitions
open TracerState (Unicode)

def contentOf : Entry → List Char
  | .file f => f.content.toList
  | _ => []

def logNames (extension : String) (d : Dir) : List String :=
  d.keys.filter (isLogName extension)

def contentAt (d : Dir) (name : String) : List Char := ((d.lookup name).map contentOf).getD []

/-- What the timestamped files of a key hold, in the order of their names. -/
def contents (u : Unicode) (fs : Fs) (key : LogKey) : List Char :=
  let d := (fs.dirs (key.nodeDir u)).getD ∅
  read (logNames (ext key.logFormat) d) (contentAt d)

def lines (F : Formats) (format : LogFormat) (traces : List TraceObject) : List Char :=
  (traces.map fun trace => (formatTrace F trace format).toList).flatten

def written (F : Formats) (key : LogKey) : Rotation.Event → List Char
  | .write k traces _ _ => if k = key then lines F key.logFormat traces else []
  | _ => []

def logged (F : Formats) (key : LogKey) (es : List Rotation.Event) : List Char :=
  (es.map (written F key)).flatten

def clock : Rotation.Event → ℤ
  | .write _ _ now _ => now
  | .rotate _ _ now _ => now
  | .prune _ _ _ now _ => now

def NoPruning : Rotation.Event → Prop
  | .prune .. => False
  | _ => True

/-- The times are written with one length and in their order, as four-digit years are. -/
def StampsOrdered (F : Formats) (es : List Rotation.Event) : Prop :=
  ∀ e ∈ es, ∀ e' ∈ es, clock e ≤ clock e' →
    (F.stamp (clock e)).length = (F.stamp (clock e')).length ∧
      F.stamp (clock e) ≤ F.stamp (clock e')

/-! Names. -/

def Taken (u : Unicode) (fs : Fs) (key : LogKey) (name : String) : Prop :=
  isLogName (ext key.logFormat) name = true ∧ (fs.lookup (key.path u name)).isSome

theorem mem_logNames_iff {u : Unicode} {fs : Fs} {key : LogKey} {name : String} :
    name ∈ logNames (ext key.logFormat) ((fs.dirs (key.nodeDir u)).getD ∅) ↔
      Taken u fs key name := by
  rw [logNames, List.mem_filter, Taken, lookup_path, and_comm]
  refine and_congr_right fun _ => ?_
  rw [AList.lookup_isSome, AList.mem_keys]

theorem nodup_logNames (extension : String) (d : Dir) : (logNames extension d).Nodup :=
  (AList.keys_nodup d).filter _

theorem contentAt_path (u : Unicode) (fs : Fs) (key : LogKey) (name : String) :
    contentAt ((fs.dirs (key.nodeDir u)).getD ∅) name =
      ((fs.lookup (key.path u name)).map contentOf).getD [] := by
  rw [contentAt, lookup_path]

/-- Only the entries under names of the key's files matter. -/
theorem contents_congr {u : Unicode} {fs fs' : Fs} {key : LogKey}
    (h : ∀ name, isLogName (ext key.logFormat) name = true →
      fs'.lookup (key.path u name) = fs.lookup (key.path u name)) :
    contents u fs' key = contents u fs key := by
  apply read_congr (nodup_logNames ..) (nodup_logNames ..)
  · intro name
    rw [mem_logNames_iff, mem_logNames_iff, Taken, Taken]
    refine and_congr_right fun hname => ?_
    rw [h name hname]
  · intro name hname
    rw [contentAt_path, contentAt_path, h name (mem_logNames_iff.mp hname).1]

theorem isLogName_tmpLinkName (extension : String) (key : LogKey) :
    isLogName extension key.tmpLinkName = false := by
  have hno : "node-".toList.isPrefixOf key.tmpLinkName.toList = false := by
    unfold LogKey.tmpLinkName
    cases key.logFormat <;> rfl
  rw [isLogName, hno]
  rfl

theorem isLogName_suffix {extension name : String} (h : isLogName extension name = true) :
    extension.toList <:+ name.toList := by
  rw [isLogName, Bool.and_eq_true, Bool.and_eq_true, List.isSuffixOf_iff_suffix] at h
  exact h.1.2

/-- Texts of one length are in the same order with a common end. -/
theorem append_right_lt {xs ys : List Char} (hlength : xs.length = ys.length) (h : xs < ys)
    (zs : List Char) : xs ++ zs < ys ++ zs := by
  induction xs generalizing ys with
  | nil =>
    rw [List.length_nil] at hlength
    rw [List.eq_nil_of_length_eq_zero hlength.symm] at h
    exact absurd h (List.not_lt_nil [])
  | cons x xs ih =>
    cases ys with
    | nil => cases hlength
    | cons y ys =>
      rw [List.cons_append, List.cons_append, List.cons_lt_cons_iff]
      rcases List.cons_lt_cons_iff.mp h with hlt | ⟨rfl, hlt⟩
      · exact Or.inl hlt
      · exact Or.inr ⟨rfl, ih (Nat.succ.inj hlength) hlt⟩

/-- File names are in the order of their times, when these are written with one length. -/
theorem filename_le (key : LogKey) {stamp later : String} (hlength : stamp.length = later.length)
    (h : stamp ≤ later) : key.filename stamp ≤ key.filename later := by
  rcases h.eq_or_lt with rfl | hlt
  · exact le_rfl
  · apply le_of_lt
    have hlt : stamp.toList < later.toList := String.lt_iff_toList_lt.mp hlt
    have hlength : stamp.toList.length = later.toList.length := by
      rw [String.length_toList, String.length_toList, hlength]
    rw [String.lt_iff_toList_lt, LogKey.filename, LogKey.filename]
    simp only [String.toList_append]
    have hend := append_right_lt hlength hlt (".".toList ++ (ext key.logFormat).toList)
    rw [List.append_assoc, List.append_assoc, List.append_assoc, List.append_assoc]
    exact List.append_left_lt hend

section Names

variable {u : Unicode} {keys : List LogKey}

/-- Two keys have no file name in common. -/
theorem path_ne (hdistinct : Distinct u keys) {k key : LogKey} (hk : k ∈ keys) (hkey : key ∈ keys)
    {n name : String} (hn : isLogName (ext k.logFormat) n = true)
    (hname : isLogName (ext key.logFormat) name = true) (hne : k ≠ key ∨ n ≠ name) :
    k.path u n ≠ key.path u name := by
  intro h
  have hdir : k.nodeDir u = key.nodeDir u := congrArg FilePath.dir h
  obtain rfl : n = name := congrArg FilePath.name h
  rcases hne with hne | hne
  · have hformat := ext_unique (isLogName_suffix hn) (isLogName_suffix hname)
    exact hne (hdistinct k hk key hkey hdir hformat)
  · exact hne rfl

/-! What a call does to the files. -/

/-- The file of a key has been made, if it was missing, and has grown, and the other
files are as they were. -/
structure Grown (u : Unicode) (keys : List LogKey) (fs fs' : Fs) (key : LogKey) (name : String)
    (more : List Char) : Prop where
  isLogName : isLogName (ext key.logFormat) name = true
  rest : ∀ k ∈ keys, ∀ n, Rotation.isLogName (ext k.logFormat) n = true → k ≠ key ∨ n ≠ name →
    fs'.lookup (k.path u n) = fs.lookup (k.path u n)
  entry : ∃ e, fs'.lookup (key.path u name) = some e ∧
    contentOf e = ((fs.lookup (key.path u name)).map contentOf).getD [] ++ more

variable {fs fs' fs'' : Fs} {key : LogKey} {name : String} {more more' : List Char}

/-- Growth of one file composes. -/
theorem Grown.trans (h : Grown u keys fs fs' key name more)
    (h' : Grown u keys fs' fs'' key name more') :
    Grown u keys fs fs'' key name (more ++ more') := by
  refine ⟨h.isLogName, ?_, ?_⟩
  · intro k hk n hn hne
    rw [h'.rest k hk n hn hne, h.rest k hk n hn hne]
  · obtain ⟨e, he, hcontent⟩ := h.entry
    obtain ⟨e', he', hcontent'⟩ := h'.entry
    refine ⟨e', he', ?_⟩
    rw [hcontent', he, Option.map_some, Option.getD_some, hcontent, List.append_assoc]

/-- No name but that of the file is taken newly. -/
theorem Grown.taken_iff (h : Grown u keys fs fs' key name more) {k : LogKey} (hk : k ∈ keys)
    {n : String} : Taken u fs' k n ↔ (k = key ∧ n = name) ∨ Taken u fs k n := by
  by_cases heq : k = key ∧ n = name
  · obtain ⟨rfl, rfl⟩ := heq
    obtain ⟨e, he, -⟩ := h.entry
    exact iff_of_true ⟨h.isLogName, by rw [he]; rfl⟩ (Or.inl ⟨rfl, rfl⟩)
  · rw [or_iff_right heq, Taken, Taken]
    refine and_congr_right fun hn => ?_
    rw [h.rest k hk n hn (not_and_or.mp heq)]

/-- Other keys have what they had. -/
theorem Grown.contents_of_ne (h : Grown u keys fs fs' key name more) {k : LogKey} (hk : k ∈ keys)
    (hne : k ≠ key) : contents u fs' k = contents u fs k :=
  contents_congr fun n hn => h.rest k hk n hn (Or.inl hne)

theorem Grown.contentAt_self (h : Grown u keys fs fs' key name more) :
    contentAt ((fs'.dirs (key.nodeDir u)).getD ∅) name =
      contentAt ((fs.dirs (key.nodeDir u)).getD ∅) name ++ more := by
  obtain ⟨e, he, hcontent⟩ := h.entry
  rw [contentAt_path, contentAt_path, he, Option.map_some, Option.getD_some, hcontent]

theorem Grown.contentAt_of_ne (h : Grown u keys fs fs' key name more) (hkey : key ∈ keys)
    {n : String} (hn : Taken u fs key n) (hne : n ≠ name) :
    contentAt ((fs'.dirs (key.nodeDir u)).getD ∅) n =
      contentAt ((fs.dirs (key.nodeDir u)).getD ∅) n := by
  rw [contentAt_path, contentAt_path, h.rest key hkey n hn.1 (Or.inr hne)]

/-- The last file of a key has grown, and so has its log. -/
theorem Grown.contents_self (h : Grown u keys fs fs' key name more) (hkey : key ∈ keys)
    (hmax : ∀ n, Taken u fs key n → n ≤ name) :
    contents u fs' key = contents u fs key ++ more := by
  have hself := h.contentAt_self
  by_cases htaken : Taken u fs key name
  · have hmem : ∀ n, n ∈ logNames (ext key.logFormat) ((fs'.dirs (key.nodeDir u)).getD ∅) ↔
        n ∈ logNames (ext key.logFormat) ((fs.dirs (key.nodeDir u)).getD ∅) := by
      intro n
      rw [mem_logNames_iff, mem_logNames_iff, h.taken_iff hkey, or_iff_right_of_imp]
      rintro ⟨-, rfl⟩
      exact htaken
    show read _ _ = _
    rw [read_congr (nodup_logNames ..) (nodup_logNames ..) hmem fun _ _ => rfl]
    exact read_append (nodup_logNames ..) (mem_logNames_iff.mpr htaken)
      (fun n hn => hmax n (mem_logNames_iff.mp hn)) hself
      (fun n hn hne => h.contentAt_of_ne hkey (mem_logNames_iff.mp hn) hne)
  · have hempty : contentAt ((fs.dirs (key.nodeDir u)).getD ∅) name = [] := by
      have hnone : fs.lookup (key.path u name) = none := by
        by_contra hsome
        exact htaken ⟨h.isLogName, Option.isSome_iff_ne_none.mpr hsome⟩
      simp [contentAt_path, hnone]
    rw [hempty, List.nil_append] at hself
    rw [← hself]
    apply read_insert (nodup_logNames ..) (nodup_logNames ..)
    · exact fun hmem => htaken (mem_logNames_iff.mp hmem)
    · intro n
      rw [mem_logNames_iff, mem_logNames_iff, h.taken_iff hkey]
      simp
    · exact fun n hn => hmax n (mem_logNames_iff.mp hn)
    · intro n hn
      have hn := mem_logNames_iff.mp hn
      exact h.contentAt_of_ne hkey hn fun heq => htaken (heq ▸ hn)

end Names

/-- Opening a file makes it or finds it, and takes nothing from it. -/
theorem openNewFile_entry {u : Unicode} {F : Formats} {fs : Fs} {key : LogKey} {now mtime : ℤ}
    {opened : Fs × LogHandle} (h : openNewFile u F fs key now mtime = some opened) :
    ∃ f, opened.1.lookup opened.2.path = some (.file f) ∧
      f.content.toList = ((fs.lookup opened.2.path).map contentOf).getD [] := by
  obtain ⟨f, hf, -, hbefore⟩ := openNewFile_file h
  refine ⟨f, hf, ?_⟩
  rcases hbefore with hfound | ⟨hfree, hempty⟩
  · rw [hfound]
    rfl
  · rw [hfree, hempty]
    rfl

/-- Appending to a file that is still under its path changes its entry only. -/
theorem append_lookup {fs : Fs} {file : ℕ} {p : FilePath} {f : File} (bytes : String) (mtime : ℤ)
    (hf : fs.lookup p = some (.file f)) (hfile : f.inode = file) (q : FilePath) :
    (fs.append file p bytes mtime).lookup q =
      if q = p then some (.file { f with content := f.content ++ bytes, mtime := mtime })
      else fs.lookup q := by
  obtain ⟨d, hd, hlookup⟩ := Option.bind_eq_some_iff.mp hf
  simp only [Fs.append, hd, hlookup, if_pos hfile, Fs.lookup_update]
  by_cases hq : q = p
  · rw [if_pos hq, if_pos (congrArg FilePath.dir hq), hq, AList.lookup_insert]
  · rw [if_neg hq]
    by_cases hdir : q.dir = p.dir
    · have hname : q.name ≠ p.name := fun h => hq (by cases q; cases p; simp_all)
      rw [if_pos hdir, AList.lookup_insert_ne hname, Fs.lookup, hdir, hd, Option.bind_some]
    · rw [if_neg hdir]

theorem writeLines_lookup (F : Formats) (format : LogFormat) (mtime : ℤ)
    (traces : List TraceObject) {opened : Fs × LogHandle} {f : File}
    (hf : opened.1.lookup opened.2.path = some (.file f)) (hfile : f.inode = opened.2.file) :
    (∃ g, (traces.foldl (writeLine F format mtime) opened).1.lookup opened.2.path =
        some (.file g) ∧ g.content.toList = f.content.toList ++ lines F format traces) ∧
      ∀ q, q ≠ opened.2.path →
        (traces.foldl (writeLine F format mtime) opened).1.lookup q = opened.1.lookup q := by
  induction traces generalizing opened f with
  | nil => exact ⟨⟨f, hf, (List.append_nil _).symm⟩, fun _ _ => rfl⟩
  | cons trace traces ih =>
    have happend := append_lookup (formatTrace F trace format) mtime hf hfile
    have hself := happend opened.2.path
    rw [if_pos rfl] at hself
    obtain ⟨⟨g, hg, hcontent⟩, hrest⟩ := @ih (writeLine F format mtime opened trace) _ hself hfile
    refine ⟨⟨g, hg, ?_⟩, ?_⟩
    · rw [hcontent, String.toList_append, List.append_assoc]
      rfl
    · intro q hq
      rw [List.foldl_cons, hrest q hq]
      exact (happend q).trans (if_neg hq)

section Calls

variable {u : Unicode} {F : Formats} {keys : List LogKey} {key : LogKey}

/-- Opening makes the file, if it was missing, and adds nothing to it. -/
theorem grown_open (hdistinct : Distinct u keys) (hkey : key ∈ keys) {fs : Fs} {now mtime : ℤ}
    {opened : Fs × LogHandle} (h : openNewFile u F fs key now mtime = some opened) :
    Grown u keys fs opened.1 key (key.filename (F.stamp now)) [] := by
  have hopened := openNewFile_spec h
  have hname := isLogName_filename key (F.stamp now)
  refine ⟨hname, ?_, ?_⟩
  · intro k hk n hn hne
    apply hopened.rest
    · rw [hopened.path]
      exact path_ne hdistinct hk hkey hn hname hne
    · intro heq
      obtain rfl : n = key.linkName := congrArg FilePath.name heq
      rw [isLogName_linkName] at hn
      cases hn
    · intro heq
      obtain rfl : n = key.tmpLinkName := congrArg FilePath.name heq
      rw [isLogName_tmpLinkName] at hn
      cases hn
  · obtain ⟨f, hf, hcontent⟩ := openNewFile_entry h
    rw [hopened.path] at hf hcontent
    exact ⟨_, hf, hcontent.trans (List.append_nil _).symm⟩

/-- Writing lines adds them to the open file. -/
theorem grown_writeLines (hdistinct : Distinct u keys) (hkey : key ∈ keys)
    {opened : Fs × LogHandle} {name : String} (hpath : opened.2.path = key.path u name)
    (hname : isLogName (ext key.logFormat) name = true)
    (hinode : opened.1.inodeAt opened.2.path = some opened.2.file) (mtime : ℤ)
    (traces : List TraceObject) :
    Grown u keys opened.1 (traces.foldl (writeLine F key.logFormat mtime) opened).1 key name
      (lines F key.logFormat traces) := by
  obtain ⟨f, hf, hfile⟩ := Fs.inodeAt_eq_some_iff.mp hinode
  obtain ⟨⟨g, hg, hcontent⟩, hrest⟩ := writeLines_lookup F key.logFormat mtime traces hf hfile
  refine ⟨hname, ?_, ?_⟩
  · intro k hk n hn hne
    apply hrest
    rw [hpath]
    exact path_ne hdistinct hk hkey hn hname hne
  · rw [hpath] at hf hg
    refine ⟨_, hg, ?_⟩
    rw [hf]
    exact hcontent

/-- What a call that writes or rotates does: the file under `name`, which is the open one
or one named after the time of the call, has grown, and is open afterwards. -/
structure Called (u : Unicode) (F : Formats) (keys : List LogKey) (s : System)
    (e : Rotation.Event) (s' : System) (name : String) : Prop where
  grown : Grown u keys s.fs s'.fs e.key name (written F e.key e)
  opened : ∃ h, s'.handles e.key = some h ∧ h.path = e.key.path u name
  others : ∀ k, k ≠ e.key → s'.handles k = s.handles k
  name : (∃ h, s.handles e.key = some h ∧ h.path = e.key.path u name) ∨
    name = e.key.filename (F.stamp (clock e))

variable {s s' : System}

/-- What a write does to the file that it finds or opens. -/
theorem writeTraces_called (hdistinct : Distinct u keys) (howned : Owned u keys s)
    (hs : FilesInUse u s) (hkey : key ∈ keys) {traces : List TraceObject} {now mtime : ℤ}
    (h : s.writeTraces u F key traces now mtime = some s') :
    ∃ name, Called u F keys s (.write key traces now mtime) s' name := by
  unfold writeTraces at h
  obtain ⟨opened, hopen, rfl⟩ := Option.map_eq_some_iff.mp h
  have hpath := (writeLines_spec F key.logFormat mtime traces opened).1
  have hwritten : written F key (.write key traces now mtime) = lines F key.logFormat traces :=
    if_pos rfl
  have hothers : ∀ k, k ≠ key → (s.install key
      (traces.foldl (writeLine F key.logFormat mtime) opened)).handles k = s.handles k := by
    intro k hk
    rw [install_handles, if_neg hk]
  have hself : (s.install key (traces.foldl (writeLine F key.logFormat mtime) opened)).handles key =
      some (traces.foldl (writeLine F key.logFormat mtime) opened).2 := by
    rw [install_handles, if_pos rfl]
  cases hhandle : s.handles key with
  | some handle =>
    simp only [hhandle, Option.some.injEq] at hopen
    subst hopen
    obtain ⟨-, stamp, hstamp⟩ := howned key handle hhandle
    refine ⟨key.filename stamp, ?_, ⟨_, hself, hpath.trans hstamp⟩, hothers,
      Or.inl ⟨handle, hhandle, hstamp⟩⟩
    rw [show Rotation.Event.key (.write key traces now mtime) = key from rfl, hwritten]
    have hinode : (s.fs, handle).1.inodeAt (s.fs, handle).2.path = some (s.fs, handle).2.file :=
      (hs key handle hhandle).1
    exact grown_writeLines hdistinct hkey hstamp (isLogName_filename key stamp) hinode mtime traces
  | none =>
    simp only [hhandle] at hopen
    have hopened := openNewFile_spec hopen
    refine ⟨key.filename (F.stamp now), ?_, ⟨_, hself, hpath.trans hopened.path⟩, hothers,
      Or.inr rfl⟩
    rw [show Rotation.Event.key (.write key traces now mtime) = key from rfl, hwritten]
    exact (grown_open hdistinct hkey hopen).trans (grown_writeLines hdistinct hkey hopened.path
      (isLogName_filename key _) hopened.inode mtime traces)

/-- A rotation that is due opens a file, and any other does nothing. -/
theorem rotateIfNeeded_called (hdistinct : Distinct u keys) (hkey : key ∈ keys) {limitBytes : ℕ}
    {now mtime : ℤ} (h : s.rotateIfNeeded u F key limitBytes now mtime = some s') :
    s' = s ∨ ∃ name, Called u F keys s (.rotate key limitBytes now mtime) s' name := by
  unfold rotateIfNeeded at h
  split at h
  · split at h
    · right
      obtain ⟨opened, hopen, rfl⟩ := Option.map_eq_some_iff.mp h
      refine ⟨key.filename (F.stamp now), grown_open hdistinct hkey hopen, ⟨opened.2, ?_, ?_⟩, ?_,
        Or.inr rfl⟩
      · show (s.install key opened).handles key = _
        rw [install_handles, if_pos rfl]
      · exact (openNewFile_spec hopen).path
      · intro k hk
        have hk : k ≠ key := hk
        rw [install_handles, if_neg hk]
    · exact Or.inl (Option.some.inj h).symm
  · exact Or.inl (Option.some.inj h).symm

theorem step_called (hdistinct : Distinct u keys) (howned : Owned u keys s)
    (hs : FilesInUse u s) {e : Rotation.Event} (he : NoPruning e) (hkey : e.key ∈ keys)
    (h : Rotation.step u F s e = some s') :
    (s' = s ∧ written F e.key e = []) ∨ ∃ name, Called u F keys s e s' name := by
  cases e with
  | write key traces now mtime => exact Or.inr (writeTraces_called hdistinct howned hs hkey h)
  | rotate key limitBytes now mtime =>
    rcases rotateIfNeeded_called hdistinct hkey h with heq | hcalled
    · exact Or.inl ⟨heq, rfl⟩
    · exact Or.inr hcalled
  | prune key maxAgeHours keepFilesNum now listing => exact he.elim

theorem written_of_ne {e : Rotation.Event} {k : LogKey} (hk : k ≠ e.key) : written F k e = [] := by
  cases e with
  | write key traces now mtime => exact if_neg fun h => hk h.symm
  | rotate key limitBytes now mtime => rfl
  | prune key maxAgeHours keepFilesNum now listing => rfl

/-! Runs. -/

/-- The open file of a key has the greatest name of its files, and no file is named after
a time later than the calls `es` still to come. -/
structure Inv (u : Unicode) (F : Formats) (keys : List LogKey) (es : List Rotation.Event)
    (s : System) : Prop where
  owned : Owned u keys s
  inUse : FilesInUse u s
  last : ∀ key h, s.handles key = some h → ∀ n, Taken u s.fs key n → n ≤ h.path.name
  future : ∀ key ∈ keys, ∀ n, Taken u s.fs key n → ∀ e ∈ es,
    n ≤ key.filename (F.stamp (clock e))

/-- The file that a call writes to is the last one of its key, and comes before those of
the calls to come. -/
theorem Called.bounds {e : Rotation.Event} {es : List Rotation.Event} {name : String}
    (hs : Inv u F keys (e :: es) s) (hkey : e.key ∈ keys) (h : Called u F keys s e s' name)
    (hlater : ∀ e' ∈ es, e.key.filename (F.stamp (clock e)) ≤
      e.key.filename (F.stamp (clock e'))) :
    (∀ n, Taken u s.fs e.key n → n ≤ name) ∧
      ∀ e' ∈ es, name ≤ e.key.filename (F.stamp (clock e')) := by
  rcases h.name with ⟨handle, hhandle, hpath⟩ | hname
  · have hpathname : handle.path.name = name := by rw [hpath]; rfl
    have htaken : Taken u s.fs e.key name := by
      refine ⟨h.grown.isLogName, ?_⟩
      obtain ⟨entry, hentry, -⟩ := Option.bind_eq_some_iff.mp (hs.inUse e.key handle hhandle).1
      rw [← hpath, hentry]
      rfl
    refine ⟨?_, ?_⟩
    · intro n hn
      rw [← hpathname]
      exact hs.last e.key handle hhandle n hn
    · intro e' he'
      exact hs.future e.key hkey name htaken e' (List.mem_cons_of_mem _ he')
  · rw [hname]
    exact ⟨fun n hn => hs.future e.key hkey n hn e (List.mem_cons_self ..), hlater⟩

theorem Inv.tail {e : Rotation.Event} {es : List Rotation.Event} (hs : Inv u F keys (e :: es) s) :
    Inv u F keys es s :=
  ⟨hs.owned, hs.inUse, hs.last, fun key hkey n hn e' he' =>
    hs.future key hkey n hn e' (List.mem_cons_of_mem _ he')⟩

theorem Called.inv {e : Rotation.Event} {es : List Rotation.Event} {name : String}
    (hs : Inv u F keys (e :: es) s) (hkey : e.key ∈ keys) (h : Called u F keys s e s' name)
    (hlater : ∀ e' ∈ es, e.key.filename (F.stamp (clock e)) ≤
      e.key.filename (F.stamp (clock e')))
    (howned : Owned u keys s') (hinUse : FilesInUse u s') : Inv u F keys es s' := by
  obtain ⟨hmax, hfuture⟩ := h.bounds hs hkey hlater
  refine ⟨howned, hinUse, ?_, ?_⟩
  · intro k handle hhandle n hn
    have hn := (h.grown.taken_iff (howned k handle hhandle).1).mp hn
    by_cases hke : k = e.key
    · subst hke
      obtain ⟨handle', hopened, hpath⟩ := h.opened
      rw [hhandle, Option.some.injEq] at hopened
      rw [hopened, hpath]
      rcases hn with ⟨-, rfl⟩ | hn
      · exact le_rfl
      · exact hmax n hn
    · rw [h.others k hke] at hhandle
      exact hs.last k handle hhandle n (hn.resolve_left fun heq => hke heq.1)
  · intro k hk n hn e' he'
    rcases (h.grown.taken_iff hk).mp hn with ⟨rfl, rfl⟩ | hn
    · exact hfuture e' he'
    · exact hs.tail.future k hk n hn e' he'

/-- The open file is the last one of its key, so what is written comes at the end of the log. -/
theorem Called.contents {e : Rotation.Event} {es : List Rotation.Event} {name : String}
    (hs : Inv u F keys (e :: es) s) (hkey : e.key ∈ keys) (h : Called u F keys s e s' name)
    (hlater : ∀ e' ∈ es, e.key.filename (F.stamp (clock e)) ≤
      e.key.filename (F.stamp (clock e'))) {k : LogKey} (hk : k ∈ keys) :
    contents u s'.fs k = contents u s.fs k ++ written F k e := by
  by_cases hke : k = e.key
  · subst hke
    exact h.grown.contents_self hk (h.bounds hs hkey hlater).1
  · rw [h.grown.contents_of_ne hk hke, written_of_ne hke, List.append_nil]

/-- A call appends what it writes to the log of its key and nothing to the others. -/
theorem Inv.step (hdistinct : Distinct u keys) {e : Rotation.Event} {es : List Rotation.Event}
    (hs : Inv u F keys (e :: es) s) (he : NoPruning e) (hkey : e.key ∈ keys)
    (hlater : ∀ e' ∈ es, e.key.filename (F.stamp (clock e)) ≤
      e.key.filename (F.stamp (clock e')))
    (h : Rotation.step u F s e = some s') :
    Inv u F keys es s' ∧ ∀ k ∈ keys, contents u s'.fs k = contents u s.fs k ++ written F k e := by
  have hkeep := Rotation.step_filesInUse_iff hdistinct hs.owned hs.inUse hkey h
  have hspares : Spares u s e := by
    cases e with
    | write key traces now mtime => trivial
    | rotate key limitBytes now mtime => trivial
    | prune key maxAgeHours keepFilesNum now listing => exact he.elim
  rcases step_called hdistinct hs.owned hs.inUse he hkey h with ⟨rfl, hnothing⟩ | ⟨name, hcalled⟩
  · refine ⟨hs.tail, ?_⟩
    intro k hk
    have hwritten : written F k e = [] := by
      by_cases hke : k = e.key
      · rw [hke, hnothing]
      · exact written_of_ne hke
    rw [hwritten, List.append_nil]
  · exact ⟨hcalled.inv hs hkey hlater hkeep.1 (hkeep.2.mpr hspares),
      fun k hk => hcalled.contents hs hkey hlater hk⟩

/-- From a state with the invariant a run adds what it writes, by induction on the calls. -/
theorem run_contents (hdistinct : Distinct u keys) {es : List Rotation.Event}
    (hkeys : ∀ e ∈ es, e.key ∈ keys) (hno : ∀ e ∈ es, NoPruning e)
    (hclock : es.Pairwise fun e e' => clock e ≤ clock e') (hstamps : StampsOrdered F es)
    (hs : Inv u F keys es s) (h : run (Rotation.step u F) s es = some s') :
    ∀ k ∈ keys, contents u s'.fs k = contents u s.fs k ++ logged F k es := by
  induction es generalizing s with
  | nil =>
    obtain rfl : s = s' := Option.some.inj h
    exact fun k _ => (List.append_nil _).symm
  | cons e es ih =>
    obtain ⟨m, hstep, hrun⟩ := run_cons_iff.mp h
    rw [List.forall_mem_cons] at hkeys hno
    rw [List.pairwise_cons] at hclock
    have hlater : ∀ e' ∈ es, e.key.filename (F.stamp (clock e)) ≤
        e.key.filename (F.stamp (clock e')) := by
      intro e' he'
      have hordered := hstamps e (List.mem_cons_self ..) e' (List.mem_cons_of_mem _ he')
        (hclock.1 e' he')
      exact filename_le e.key hordered.1 hordered.2
    have hrest : StampsOrdered F es := fun a ha b hb =>
      hstamps a (List.mem_cons_of_mem _ ha) b (List.mem_cons_of_mem _ hb)
    obtain ⟨hm, hgrown⟩ := hs.step hdistinct hno.1 hkeys.1 hlater hstep
    intro k hk
    rw [ih hkeys.2 hno.2 hclock.2 hrest hm hrun k hk, hgrown k hk, List.append_assoc]
    rfl

end Calls

theorem contents_eq_nil {u : Unicode} {fs : Fs} {key : LogKey}
    (h : ∀ name, ¬ Taken u fs key name) : contents u fs key = [] := by
  have hnone : logNames (ext key.logFormat) ((fs.dirs (key.nodeDir u)).getD ∅) = [] := by
    rw [List.eq_nil_iff_forall_not_mem]
    exact fun name hname => h name (mem_logNames_iff.mp hname)
  show read _ _ = _
  rw [hnone]
  rfl

/-- No pruning and no input or output errors, and a clock that does not go back: the files
of a key, in the order of their names, hold what they held and then the log of the key.
Files that are there at the start are not named after a later time. -/
theorem contents_eq_append_logged {u : Unicode} {F : Formats} {keys : List LogKey} {fs : Fs}
    {es : List Rotation.Event} {s : System} (hdistinct : Distinct u keys)
    (hkeys : ∀ e ∈ es, e.key ∈ keys) (hno : ∀ e ∈ es, NoPruning e)
    (hclock : es.Pairwise fun e e' => clock e ≤ clock e') (hstamps : StampsOrdered F es)
    (hearlier : ∀ key ∈ keys, ∀ name, Taken u fs key name →
      ∀ e ∈ es, name ≤ key.filename (F.stamp (clock e)))
    (h : run (Rotation.step u F) (start fs) es = some s) :
    ∀ key ∈ keys, contents u s.fs key = contents u fs key ++ logged F key es ∧
      ((∀ name, ¬ Taken u fs key name) → contents u s.fs key = logged F key es) := by
  have hstart : Inv u F keys es (start fs) :=
    ⟨owned_start u keys fs, filesInUse_start u fs, fun key h hh => (by cases hh), hearlier⟩
  have hrun := run_contents hdistinct hkeys hno hclock hstamps hstart h
  intro key hkey
  refine ⟨hrun key hkey, fun hfresh => ?_⟩
  have hnil : contents u (start fs).fs key = [] := contents_eq_nil hfresh
  rw [hrun key hkey, hnil, List.nil_append]

def twoSeconds : Formats := { epoch with
  stamp := fun now => if now < 10 ^ 9 then "1970-01-01T00-00-00" else "1970-01-01T00-00-01" }

def rotations (t : TraceObject) : List Rotation.Event :=
  let node : LogKey := ⟨"node", ["logs"], .forHuman⟩
  let relay : LogKey := ⟨"relay", ["logs"], .forHuman⟩
  [.write node [t] 0 0, .rotate node 1 1 1, .write relay [t] 2 2, .write node [t, t] 3 3,
    .rotate node 1 (10 ^ 9) (10 ^ 9), .write node [t] (10 ^ 9 + 1) (10 ^ 9 + 1)]

theorem contents_eq_append_logged_rotations :
    let t : TraceObject := ⟨none, "{}", ["Test"], .info, .dNormal, ⟨0, 0, by decide⟩, "host", "1"⟩
    let node : LogKey := ⟨"node", ["logs"], .forHuman⟩
    let relay : LogKey := ⟨"relay", ["logs"], .forHuman⟩
    ∃ s, run (Rotation.step .ascii twoSeconds) (start ⟨fun _ => none, 0⟩) (rotations t) = some s ∧
      ∀ key ∈ [node, relay], contents .ascii s.fs key =
          contents .ascii ⟨fun _ => none, 0⟩ key ++ logged twoSeconds key (rotations t) ∧
        ((∀ name, ¬ Taken .ascii ⟨fun _ => none, 0⟩ key name) →
          contents .ascii s.fs key = logged twoSeconds key (rotations t)) := by
  intro t node relay
  obtain ⟨s, hrun⟩ : ∃ s, run (Rotation.step .ascii twoSeconds) (start ⟨fun _ => none, 0⟩)
      (rotations t) = some s := Option.isSome_iff_exists.mp (by decide +kernel)
  refine ⟨s, hrun, contents_eq_append_logged (by decide) ?_ ?_ ?_ ?_ ?_ hrun⟩
  · decide
  · simp [rotations, NoPruning]
  · simp [rotations, clock]
  · simp [StampsOrdered, rotations, clock, twoSeconds]
    decide +kernel
  · intro key _ name htaken
    exact absurd htaken.2 (by simp [Fs.lookup])

end Hermod.AppendOnlyLog
