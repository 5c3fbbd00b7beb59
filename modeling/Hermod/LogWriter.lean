import Hermod.ProtocolTypes
import Hermod.TracerState
import Mathlib.Data.List.AList

/-!
The log files of the nodes and the writer that keeps one of them open for each node and
logging configuration. A directory holds regular files, symbolic links and directories
under their names. An open file is known by its inode, so what is written to it goes to
the file that was opened, also when that file has lost its name.
-/
namespace Hermod.LogWriter

open ProtocolTypes
open TracerState (NodeId Unicode)

abbrev Path := List String

inductive LogFormat
  | forHuman
  | forMachine
  deriving DecidableEq

def ext : LogFormat → String
  | .forHuman => "log"
  | .forMachine => "json"

/-- The texts that the date and JSON libraries make: the time in a file name and in a
line of text, and a trace as a JSON object. -/
structure Formats where
  stamp : ℤ → String
  time : DateTime → String
  json : TraceObject → String

def formatHuman (F : Formats) (trace : TraceObject) : String :=
  let ns := ".".intercalate trace.toNamespace
  let msg := trace.toHuman.getD trace.toMachine
  F.time trace.toTimestamp ++ " [" ++ toString trace.toSeverity ++ "] " ++ ns ++ " " ++ msg ++ "\n"

def formatMachine (F : Formats) (trace : TraceObject) : String := F.json trace ++ "\n"

def formatTrace (F : Formats) (trace : TraceObject) : LogFormat → String
  | .forHuman => formatHuman F trace
  | .forMachine => formatMachine F trace

structure File where
  inode : ℕ
  content : String
  mtime : ℤ
  deriving DecidableEq

inductive Entry
  | file (f : File)
  | symlink (target : String)
  | directory (mtime : ℤ)
  deriving DecidableEq

namespace Entry

def inode : Entry → Option ℕ
  | file f => some f.inode
  | _ => none

def target : Entry → Option String
  | symlink target => some target
  | _ => none

def isDirectory : Entry → Bool
  | directory _ => true
  | _ => false

end Entry

abbrev Dir := AList fun _ : String => Entry

namespace Dir

/-- Open for appending, making the file when the name is free. A name that is held by a
link or a directory is an error. -/
def openAppend (d : Dir) (name : String) (inode : ℕ) (mtime : ℤ) : Option (Dir × ℕ) :=
  match d.lookup name with
  | none => some (d.insert name (.file ⟨inode, "", mtime⟩), inode)
  | some (.file f) => some (d, f.inode)
  | some _ => none

def removeFile (d : Dir) (name : String) : Dir :=
  if (d.lookup name).any Entry.isDirectory then d else d.erase name

def symlink (d : Dir) (target name : String) : Option Dir :=
  match d.lookup name with
  | none => some (d.insert name (.symlink target))
  | some _ => none

def rename (d : Dir) (source dest : String) : Option Dir :=
  match d.lookup source, d.lookup dest with
  | none, _ => none
  | some _, some (.directory _) => none
  | some e, _ => some ((d.erase source).insert dest e)

/-- Opening for appending gives the inode under the name and leaves the other names alone. -/
theorem openAppend_spec {d d' : Dir} {name : String} {inode file : ℕ} {mtime : ℤ}
    (h : openAppend d name inode mtime = some (d', file)) :
    (d'.lookup name).bind Entry.inode = some file ∧
      ∀ n, n ≠ name → d'.lookup n = d.lookup n := by
  unfold openAppend at h
  split at h
  · rw [Option.some.injEq, Prod.mk.injEq] at h
    obtain ⟨rfl, rfl⟩ := h
    exact ⟨by rw [AList.lookup_insert]; rfl, fun n hn => AList.lookup_insert_ne hn⟩
  · rename_i f hf
    rw [Option.some.injEq, Prod.mk.injEq] at h
    obtain ⟨rfl, rfl⟩ := h
    exact ⟨by rw [hf]; rfl, fun n _ => rfl⟩
  · cases h

/-- The file was there before, or is new and empty. -/
theorem openAppend_file {d d' : Dir} {name : String} {inode file : ℕ} {mtime : ℤ}
    (h : openAppend d name inode mtime = some (d', file)) :
    ∃ f, d'.lookup name = some (.file f) ∧ f.inode = file ∧
      (d.lookup name = some (.file f) ∨ d.lookup name = none ∧ f.content = "") := by
  unfold openAppend at h
  split at h
  · rename_i hnone
    obtain ⟨rfl, rfl⟩ := Prod.mk.inj (Option.some.inj h)
    exact ⟨_, AList.lookup_insert d, rfl, Or.inr ⟨hnone, rfl⟩⟩
  · rename_i f hf
    obtain ⟨rfl, rfl⟩ := Prod.mk.inj (Option.some.inj h)
    exact ⟨f, hf, rfl, Or.inl hf⟩
  · cases h

/-- A name that is no directory loses its entry. -/
theorem lookup_removeFile (d : Dir) (name n : String) :
    (removeFile d name).lookup n =
      if n = name ∧ ¬ (d.lookup n).any Entry.isDirectory then none else d.lookup n := by
  unfold removeFile
  by_cases hn : n = name
  · subst hn
    by_cases hdir : (d.lookup n).any Entry.isDirectory = true
    · rw [if_pos hdir, if_neg fun hno => hno.2 hdir]
    · rw [if_neg hdir, if_pos ⟨rfl, hdir⟩, AList.lookup_erase]
  · rw [if_neg (c := n = name ∧ _) fun hno => hn hno.1]
    split
    · rfl
    · exact AList.lookup_erase_ne hn

theorem symlink_spec {d d' : Dir} {target name : String} (h : symlink d target name = some d') :
    d'.lookup name = some (.symlink target) ∧ ∀ n, n ≠ name → d'.lookup n = d.lookup n := by
  unfold symlink at h
  split at h
  · rw [Option.some.injEq] at h
    subst h
    exact ⟨AList.lookup_insert d, fun n hn => AList.lookup_insert_ne hn⟩
  · cases h

/-- The entry is then under the other name. -/
theorem rename_spec {d d' : Dir} {source dest : String} (h : rename d source dest = some d') :
    d'.lookup dest = d.lookup source ∧
      ∀ n, n ≠ source → n ≠ dest → d'.lookup n = d.lookup n := by
  unfold rename at h
  split at h
  · cases h
  · cases h
  · rename_i e hsource _
    rw [Option.some.injEq] at h
    subst h
    refine ⟨by rw [AList.lookup_insert, hsource], fun n hs hd => ?_⟩
    rw [AList.lookup_insert_ne hd, AList.lookup_erase_ne hs]

end Dir

structure FilePath where
  dir : Path
  name : String
  deriving DecidableEq

structure Fs where
  dirs : Path → Option Dir
  nextInode : ℕ

namespace Fs

def lookup (fs : Fs) (p : FilePath) : Option Entry := (fs.dirs p.dir).bind fun d => d.lookup p.name

def inodeAt (fs : Fs) (p : FilePath) : Option ℕ := (fs.lookup p).bind Entry.inode

theorem inodeAt_eq_some_iff {fs : Fs} {p : FilePath} {inode : ℕ} :
    fs.inodeAt p = some inode ↔ ∃ f, fs.lookup p = some (.file f) ∧ f.inode = inode := by
  rw [inodeAt, Option.bind_eq_some_iff]
  constructor
  · intro h
    obtain ⟨e, he, hinode⟩ := h
    cases e with
    | file f => exact ⟨f, he, Option.some.inj hinode⟩
    | symlink target => cases hinode
    | directory mtime => cases hinode
  · intro h
    obtain ⟨f, hf, rfl⟩ := h
    exact ⟨.file f, hf, rfl⟩

def targetAt (fs : Fs) (p : FilePath) : Option String := (fs.lookup p).bind Entry.target

/-- Append to an open file. The bytes are under the path for as long as the path still
names that file. -/
def append (fs : Fs) (file : ℕ) (p : FilePath) (bytes : String) (mtime : ℤ) : Fs :=
  match fs.dirs p.dir with
  | none => fs
  | some d =>
    match d.lookup p.name with
    | some (.file f) =>
      if f.inode = file then
        let e := Entry.file { f with content := f.content ++ bytes, mtime := mtime }
        { fs with dirs := Function.update fs.dirs p.dir (some (d.insert p.name e)) }
      else fs
    | _ => fs

theorem lookup_update (fs : Fs) (dir : Path) (d : Dir) (k : ℕ) (p : FilePath) :
    lookup ⟨Function.update fs.dirs dir (some d), k⟩ p =
      if p.dir = dir then d.lookup p.name else fs.lookup p := by
  simp only [lookup]
  by_cases hp : p.dir = dir
  · rw [if_pos hp, hp, Function.update_self, Option.bind_some]
  · rw [if_neg hp, Function.update_of_ne hp]

/-- Appending changes no name. -/
theorem append_spec (fs : Fs) (file : ℕ) (p q : FilePath) (bytes : String) (mtime : ℤ) :
    (fs.append file p bytes mtime).inodeAt q = fs.inodeAt q ∧
      (fs.append file p bytes mtime).targetAt q = fs.targetAt q := by
  unfold append
  split
  · exact ⟨rfl, rfl⟩
  · rename_i d hd
    split
    · rename_i f hf
      split
      · -- only this branch writes, under the name of the file it writes to
        simp only [inodeAt, targetAt, lookup_update]
        by_cases hq : q = p
        · subst hq
          have hq : fs.lookup q = some (.file f) := by rw [lookup, hd, Option.bind_some, hf]
          rw [if_pos rfl, AList.lookup_insert, hq]
          exact ⟨rfl, rfl⟩
        · by_cases hdir : q.dir = p.dir
          · have hname : q.name ≠ p.name := fun h => hq (by cases q; cases p; simp_all)
            rw [if_pos hdir, AList.lookup_insert_ne hname, lookup, hdir, hd]
            exact ⟨rfl, rfl⟩
          · rw [if_neg hdir]
            exact ⟨rfl, rfl⟩
      · exact ⟨rfl, rfl⟩
    · exact ⟨rfl, rfl⟩

end Fs

structure LogKey where
  nodeId : NodeId
  logRoot : Path
  logFormat : LogFormat
  deriving DecidableEq

structure LogHandle where
  file : ℕ
  path : FilePath
  bytesWritten : ℕ
  deriving DecidableEq

def nodeDirName (u : Unicode) (nodeId : NodeId) : String :=
  String.ofList (nodeId.toList.map fun c =>
    if u.isAlphanumeric c ∨ c = '-' ∨ c = '_' then c else '_')

def join (p : Path) (name : String) : Path := if name = "" then p else p ++ [name]

namespace LogKey

def nodeDir (u : Unicode) (key : LogKey) : Path := join key.logRoot (nodeDirName u key.nodeId)

def filename (key : LogKey) (stamp : String) : String :=
  "node-" ++ stamp ++ "." ++ ext key.logFormat

def linkName (key : LogKey) : String := "node." ++ ext key.logFormat

def tmpLinkName (key : LogKey) : String := "node." ++ ext key.logFormat ++ ".tmp"

def path (u : Unicode) (key : LogKey) (name : String) : FilePath := ⟨key.nodeDir u, name⟩

end LogKey

/-- The name has the resolution of a second and an existing file is appended to. The
link is made under another name, which then replaces the previous link. -/
def openNewFile (u : Unicode) (F : Formats) (fs : Fs) (key : LogKey) (now mtime : ℤ) :
    Option (Fs × LogHandle) := do
  let d := (fs.dirs (key.nodeDir u)).getD ∅
  let filename := key.filename (F.stamp now)
  let (d, file) ← Dir.openAppend d filename fs.nextInode mtime
  let d := Dir.removeFile d key.tmpLinkName
  let d ← Dir.symlink d filename key.tmpLinkName
  let d ← Dir.rename d key.tmpLinkName key.linkName
  some (⟨Function.update fs.dirs (key.nodeDir u) (some d), fs.nextInode + 1⟩,
    ⟨file, key.path u filename, 0⟩)

theorem filename_ne_linkName (key key' : LogKey) (stamp : String) :
    key.filename stamp ≠ key'.linkName := by
  intro h
  have := congrArg (fun s => s.toList[4]?) h
  simp [LogKey.filename, LogKey.linkName] at this

theorem filename_ne_tmpLinkName (key key' : LogKey) (stamp : String) :
    key.filename stamp ≠ key'.tmpLinkName := by
  intro h
  have := congrArg (fun s => s.toList[4]?) h
  simp [LogKey.filename, LogKey.tmpLinkName] at this

/-- No name ends in both extensions. -/
theorem ext_unique {format format' : LogFormat} {name : List Char}
    (h : (ext format).toList <:+ name) (h' : (ext format').toList <:+ name) :
    format = format' := by
  have hone := List.suffix_or_suffix_of_suffix h h'
  cases format <;> cases format' <;> first | rfl | exact absurd hone (by decide)

theorem ext_suffix_filename (key : LogKey) (stamp : String) :
    (ext key.logFormat).toList <:+ (key.filename stamp).toList := by
  rw [LogKey.filename, String.toList_append]
  exact List.suffix_append _ _

theorem filename_injective_format {key key' : LogKey} {stamp stamp' : String}
    (h : key.filename stamp = key'.filename stamp') : key.logFormat = key'.logFormat :=
  ext_unique (ext_suffix_filename key stamp) (h ▸ ext_suffix_filename key' stamp')

theorem linkName_injective_format {key key' : LogKey} (h : key.linkName = key'.linkName) :
    key.logFormat = key'.logFormat := by
  unfold LogKey.linkName at h
  cases hf : key.logFormat <;> cases hf' : key'.logFormat <;> simp_all [ext]

theorem linkName_ne_tmpLinkName (key key' : LogKey) : key.linkName ≠ key'.tmpLinkName := by
  unfold LogKey.linkName LogKey.tmpLinkName
  cases key.logFormat <;> cases key'.logFormat <;> decide

structure Opened (u : Unicode) (fs : Fs) (key : LogKey) (stamp : String)
    (opened : Fs × LogHandle) : Prop where
  path : opened.2.path = key.path u (key.filename stamp)
  inode : opened.1.inodeAt opened.2.path = some opened.2.file
  target : opened.1.targetAt (key.path u key.linkName) = some (key.filename stamp)
  rest : ∀ p, p ≠ opened.2.path → p ≠ key.path u key.linkName →
    p ≠ key.path u key.tmpLinkName → opened.1.lookup p = fs.lookup p

/-- All that opening a new file does. -/
theorem openNewFile_spec {u : Unicode} {F : Formats} {fs : Fs} {key : LogKey} {now mtime : ℤ}
    {opened : Fs × LogHandle} (h : openNewFile u F fs key now mtime = some opened) :
    Opened u fs key (F.stamp now) opened := by
  unfold openNewFile at h
  simp only [Option.bind_eq_bind, Option.bind_eq_some_iff, Option.some.injEq] at h
  obtain ⟨⟨d₁, file⟩, hopen, d₂, hlink, d₃, hrename, rfl⟩ := h
  obtain ⟨hinode, hopen⟩ := Dir.openAppend_spec hopen
  obtain ⟨htarget, hlink⟩ := Dir.symlink_spec hlink
  obtain ⟨hdest, hrename⟩ := Dir.rename_spec hrename
  have hname : ∀ n, n ≠ key.tmpLinkName → n ≠ key.linkName → d₃.lookup n = d₁.lookup n := by
    intro n htmp hln
    rw [hrename n htmp hln, hlink n htmp, Dir.lookup_removeFile, if_neg fun hno => htmp hno.1]
  constructor
  · rfl
  · simp only [Fs.inodeAt, Fs.lookup_update, LogKey.path, if_true]
    rw [hname _ (filename_ne_tmpLinkName key key _) (filename_ne_linkName key key _), hinode]
  · simp only [Fs.targetAt, Fs.lookup_update, LogKey.path, if_true]
    rw [hdest, htarget]
    rfl
  · intro p hfile hln htmp
    rw [Fs.lookup_update]
    by_cases hdir : p.dir = key.nodeDir u
    · have hne : ∀ n, p ≠ key.path u n → p.name ≠ n := by
        intro n hp heq
        subst heq
        exact hp (by rw [LogKey.path, ← hdir])
      rw [if_pos hdir, hname _ (hne _ htmp) (hne _ hln), hopen _ (hne _ hfile), Fs.lookup, hdir]
      cases fs.dirs (key.nodeDir u) with
      | none => rfl
      | some d => rfl
    · rw [if_neg hdir]

theorem lookup_path (u : Unicode) (fs : Fs) (key : LogKey) (name : String) :
    fs.lookup (key.path u name) = ((fs.dirs (key.nodeDir u)).getD ∅).lookup name := by
  simp only [Fs.lookup, LogKey.path]
  cases fs.dirs (key.nodeDir u) with
  | none => rfl
  | some d => rfl

/-- The file that is opened is the one that was under its path, or a new one without text. -/
theorem openNewFile_file {u : Unicode} {F : Formats} {fs : Fs} {key : LogKey} {now mtime : ℤ}
    {opened : Fs × LogHandle} (h : openNewFile u F fs key now mtime = some opened) :
    ∃ f, opened.1.lookup opened.2.path = some (.file f) ∧ f.inode = opened.2.file ∧
      (fs.lookup opened.2.path = some (.file f) ∨
        fs.lookup opened.2.path = none ∧ f.content = "") := by
  unfold openNewFile at h
  simp only [Option.bind_eq_bind, Option.bind_eq_some_iff, Option.some.injEq] at h
  obtain ⟨⟨d₁, file⟩, hopen, d₂, hlink, d₃, hrename, rfl⟩ := h
  obtain ⟨f, hf, hinode, hbefore⟩ := Dir.openAppend_file hopen
  have htmp := filename_ne_tmpLinkName key key (F.stamp now)
  have hln := filename_ne_linkName key key (F.stamp now)
  refine ⟨f, ?_, hinode, ?_⟩
  · simp only [Fs.lookup_update, LogKey.path, if_true]
    rw [(Dir.rename_spec hrename).2 _ htmp hln, (Dir.symlink_spec hlink).2 _ htmp,
      Dir.lookup_removeFile, if_neg fun hno => htmp hno.1, hf]
  · rwa [lookup_path]

/-- Every opening takes an inode number, and the count begins at zero. -/
theorem openNewFile_counts {u : Unicode} {F : Formats} {fs : Fs} {key : LogKey} {now mtime : ℤ}
    {opened : Fs × LogHandle} (h : openNewFile u F fs key now mtime = some opened) :
    opened.1.nextInode = fs.nextInode + 1 ∧ opened.2.bytesWritten = 0 := by
  unfold openNewFile at h
  simp only [Option.bind_eq_bind, Option.bind_eq_some_iff, Option.some.injEq] at h
  obtain ⟨_, -, _, -, _, -, rfl⟩ := h
  exact ⟨rfl, rfl⟩

structure System where
  fs : Fs
  handles : LogKey → Option LogHandle

namespace System

def start (fs : Fs) : System := ⟨fs, fun _ => none⟩

def install (s : System) (key : LogKey) (opened : Fs × LogHandle) : System :=
  ⟨opened.1, Function.update s.handles key (some opened.2)⟩

def writeLine (F : Formats) (format : LogFormat) (mtime : ℤ) (opened : Fs × LogHandle)
    (trace : TraceObject) : Fs × LogHandle :=
  let bytes := formatTrace F trace format
  let handle := opened.2
  (opened.1.append handle.file handle.path bytes mtime,
    { handle with bytesWritten := handle.bytesWritten + bytes.utf8ByteSize })

def writeTraces (u : Unicode) (F : Formats) (s : System) (key : LogKey)
    (traces : List TraceObject) (now mtime : ℤ) : Option System :=
  let opened :=
    match s.handles key with
    | some handle => some (s.fs, handle)
    | none => openNewFile u F s.fs key now mtime
  opened.map fun opened =>
    s.install key (traces.foldl (writeLine F key.logFormat mtime) opened)

def rotateIfNeeded (u : Unicode) (F : Formats) (s : System) (key : LogKey) (limitBytes : ℕ)
    (now mtime : ℤ) : Option System :=
  match s.handles key with
  | some handle =>
    if limitBytes ≤ handle.bytesWritten then
      (openNewFile u F s.fs key now mtime).map (s.install key)
    else some s
  | none => some s

/-- Each open file is the one under its path, and the link to the current file points to
that path. -/
def FilesInUse (u : Unicode) (s : System) : Prop :=
  ∀ key h, s.handles key = some h →
    s.fs.inodeAt h.path = some h.file ∧
      s.fs.targetAt (key.path u key.linkName) = some h.path.name

def Owned (u : Unicode) (keys : List LogKey) (s : System) : Prop :=
  ∀ key h, s.handles key = some h →
    key ∈ keys ∧ ∃ stamp, h.path = key.path u (key.filename stamp)

def Distinct (u : Unicode) (keys : List LogKey) : Prop :=
  ∀ k ∈ keys, ∀ k' ∈ keys, k.nodeDir u = k'.nodeDir u → k.logFormat = k'.logFormat → k = k'

instance (u : Unicode) (keys : List LogKey) : Decidable (Distinct u keys) :=
  inferInstanceAs (Decidable (∀ k ∈ keys, ∀ k' ∈ keys, _ → _ → _))

theorem filesInUse_start (u : Unicode) (fs : Fs) : FilesInUse u (start fs) := by
  intro key h hh
  cases hh

theorem owned_start (u : Unicode) (keys : List LogKey) (fs : Fs) : Owned u keys (start fs) := by
  intro key h hh
  cases hh

theorem install_handles (s : System) (key : LogKey) (opened : Fs × LogHandle) (k : LogKey) :
    (s.install key opened).handles k = if k = key then some opened.2 else s.handles k :=
  Function.update_apply ..

theorem install_handles_cases {s : System} {key k : LogKey} {opened : Fs × LogHandle}
    {h : LogHandle} (hh : (s.install key opened).handles k = some h) :
    (k = key ∧ h = opened.2) ∨ (k ≠ key ∧ s.handles k = some h) := by
  rw [install_handles] at hh
  split at hh
  · rename_i hk
    rw [Option.some.injEq] at hh
    exact Or.inl ⟨hk, hh.symm⟩
  · rename_i hk
    exact Or.inr ⟨hk, hh⟩

theorem Owned.install {u : Unicode} {keys : List LogKey} {s : System} (hs : Owned u keys s)
    {key : LogKey} (hkey : key ∈ keys) {opened : Fs × LogHandle} {stamp : String}
    (hpath : opened.2.path = key.path u (key.filename stamp)) :
    Owned u keys (s.install key opened) := by
  intro k h hh
  rcases install_handles_cases hh with ⟨rfl, rfl⟩ | ⟨-, hh⟩
  · exact ⟨hkey, stamp, hpath⟩
  · exact hs k h hh

/-- Opening a file for one key leaves the files of the other keys in use. -/
theorem FilesInUse.open {u : Unicode} {keys : List LogKey} (hdistinct : Distinct u keys)
    {s : System} (howned : Owned u keys s) (hs : FilesInUse u s) {key : LogKey}
    (hkey : key ∈ keys) {stamp : String} {opened : Fs × LogHandle}
    (hopen : Opened u s.fs key stamp opened) : FilesInUse u (s.install key opened) := by
  intro k h hh
  rcases install_handles_cases hh with ⟨rfl, rfl⟩ | ⟨hne, hh⟩
  · exact ⟨hopen.inode, by rw [hopen.path]; exact hopen.target⟩
  · obtain ⟨hk, stamp', hpath⟩ := howned k h hh
    have hformat : ∀ n n', k.path u n = key.path u n' → k.logFormat ≠ key.logFormat := by
      intro n n' hpath hformat
      exact hne (hdistinct k hk key hkey (congrArg FilePath.dir hpath) hformat)
    have hname : ∀ n n', k.path u n = key.path u n' → n = n' := fun n n' hpath =>
      congrArg FilePath.name hpath
    have hfile : (s.install key opened).fs.lookup h.path = s.fs.lookup h.path := by
      rw [hpath]
      refine hopen.rest _ ?_ ?_ ?_
      · rw [hopen.path]
        exact fun h' => hformat _ _ h' (filename_injective_format (hname _ _ h'))
      · exact fun h' => filename_ne_linkName _ _ _ (hname _ _ h')
      · exact fun h' => filename_ne_tmpLinkName _ _ _ (hname _ _ h')
    have hlink : (s.install key opened).fs.lookup (k.path u k.linkName) =
        s.fs.lookup (k.path u k.linkName) := by
      refine hopen.rest _ ?_ ?_ ?_
      · rw [hopen.path]
        exact fun h' => filename_ne_linkName _ _ _ (hname _ _ h').symm
      · exact fun h' => hformat _ _ h' (linkName_injective_format (hname _ _ h'))
      · exact fun h' => linkName_ne_tmpLinkName _ _ (hname _ _ h')
    rw [Fs.inodeAt, Fs.targetAt, hfile, hlink]
    exact hs k h hh

/-- Writing lines changes no name and leaves the handle on its file. -/
theorem writeLines_spec (F : Formats) (format : LogFormat) (mtime : ℤ)
    (traces : List TraceObject) (opened : Fs × LogHandle) :
    (traces.foldl (writeLine F format mtime) opened).2.path = opened.2.path ∧
      (traces.foldl (writeLine F format mtime) opened).2.file = opened.2.file ∧
      ∀ q, (traces.foldl (writeLine F format mtime) opened).1.inodeAt q = opened.1.inodeAt q ∧
        (traces.foldl (writeLine F format mtime) opened).1.targetAt q = opened.1.targetAt q := by
  induction traces generalizing opened with
  | nil => exact ⟨rfl, rfl, fun q => ⟨rfl, rfl⟩⟩
  | cons trace traces ih =>
    obtain ⟨hpath, hfile, hnames⟩ := ih (writeLine F format mtime opened trace)
    refine ⟨hpath, hfile, fun q => ?_⟩
    obtain ⟨hinode, htarget⟩ := hnames q
    obtain ⟨hinode', htarget'⟩ := Fs.append_spec opened.1 opened.2.file opened.2.path q
      (formatTrace F trace format) mtime
    exact ⟨hinode.trans hinode', htarget.trans htarget'⟩

/-- Writing to an open file moves neither files nor links. -/
theorem FilesInUse.writeLines {u : Unicode} {s : System} {key : LogKey}
    {opened : Fs × LogHandle} (hs : FilesInUse u (s.install key opened)) (F : Formats)
    (format : LogFormat) (mtime : ℤ) (traces : List TraceObject) :
    FilesInUse u (s.install key (traces.foldl (writeLine F format mtime) opened)) := by
  obtain ⟨hpath, hfile, hnames⟩ := writeLines_spec F format mtime traces opened
  intro k h hh
  have hopen : ∃ h', (s.install key opened).handles k = some h' ∧ h.path = h'.path ∧
      h.file = h'.file := by
    rcases install_handles_cases hh with ⟨rfl, rfl⟩ | ⟨hne, hh⟩
    · exact ⟨opened.2, by rw [install_handles, if_pos rfl], hpath, hfile⟩
    · exact ⟨h, by rw [install_handles, if_neg hne, hh], rfl, rfl⟩
  obtain ⟨h', hh', hp, hf⟩ := hopen
  rw [hp, hf]
  obtain ⟨hinode, htarget⟩ := hs k h' hh'
  exact ⟨(hnames _).1.trans hinode, (hnames _).2.trans htarget⟩

theorem install_self {s : System} {key : LogKey} {h : LogHandle} (hh : s.handles key = some h) :
    s.install key (s.fs, h) = s := by
  rw [install, ← hh, Function.update_eq_self]

/-- After a write the open files are those under their paths. -/
theorem writeTraces_filesInUse {u : Unicode} {F : Formats} {keys : List LogKey}
    (hdistinct : Distinct u keys) {s s' : System} (howned : Owned u keys s)
    (hs : FilesInUse u s) {key : LogKey} (hkey : key ∈ keys) {traces : List TraceObject}
    {now mtime : ℤ} (h : s.writeTraces u F key traces now mtime = some s') :
    Owned u keys s' ∧ FilesInUse u s' := by
  unfold writeTraces at h
  obtain ⟨opened, hopen, rfl⟩ := Option.map_eq_some_iff.mp h
  have hpath := (writeLines_spec F key.logFormat mtime traces opened).1
  cases hhandle : s.handles key with
  | some handle =>
    simp only [hhandle, Option.some.injEq] at hopen
    subst hopen
    obtain ⟨-, stamp, hstamp⟩ := howned key handle hhandle
    refine ⟨howned.install hkey (hpath.trans hstamp), ?_⟩
    apply FilesInUse.writeLines
    rwa [install_self hhandle]
  | none =>
    simp only [hhandle] at hopen
    have hopened := openNewFile_spec hopen
    refine ⟨howned.install hkey (hpath.trans hopened.path), ?_⟩
    exact (FilesInUse.open hdistinct howned hs hkey hopened).writeLines _ _ _ _

/-- After a rotation the open files are those under their paths. -/
theorem rotateIfNeeded_filesInUse {u : Unicode} {F : Formats} {keys : List LogKey}
    (hdistinct : Distinct u keys) {s s' : System} (howned : Owned u keys s)
    (hs : FilesInUse u s) {key : LogKey} (hkey : key ∈ keys) {limitBytes : ℕ}
    {now mtime : ℤ} (h : s.rotateIfNeeded u F key limitBytes now mtime = some s') :
    Owned u keys s' ∧ FilesInUse u s' := by
  unfold rotateIfNeeded at h
  split at h
  · split at h
    · obtain ⟨opened, hopen, rfl⟩ := Option.map_eq_some_iff.mp h
      have hopened := openNewFile_spec hopen
      exact ⟨howned.install hkey hopened.path, hs.open hdistinct howned hkey hopened⟩
    · rw [Option.some.injEq] at h
      subst h
      exact ⟨howned, hs⟩
  · rw [Option.some.injEq] at h
    subst h
    exact ⟨howned, hs⟩

end System

end Hermod.LogWriter
