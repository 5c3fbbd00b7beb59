import Hermod.AppendOnlyLog

/-!
Opening a log file, one call of the file system after the other. The process can end
between any two calls and start again without its state. The link to the current file is
made under another name and renamed, so it never points to a file that is not there, and
what a crash leaves behind stops no later opening.
-/
namespace Hermod.CrashSafety

open LogWriter Transitions
open TracerState (Unicode)

inductive Call
  | createDir
  | openFile
  | removeTmp
  | linkTmp
  | renameTmp
  deriving DecidableEq

def Call.next : Call → Option Call
  | .createDir => some .openFile
  | .openFile => some .removeTmp
  | .removeTmp => some .linkTmp
  | .linkTmp => some .renameTmp
  | .renameTmp => none

structure Opening where
  key : LogKey
  stamp : String
  call : Call

namespace Opening

variable (u : Unicode)

def file (o : Opening) : FilePath := o.key.path u (o.key.filename o.stamp)

def link (o : Opening) : FilePath := o.key.path u o.key.linkName

def tmp (o : Opening) : FilePath := o.key.path u o.key.tmpLinkName

/-- The directory after the call, and the number of inodes that it takes. -/
def act (o : Opening) (d : Dir) (nextInode : ℕ) (mtime : ℤ) : Option (Dir × ℕ) :=
  let filename := o.key.filename o.stamp
  match o.call with
  | .createDir => some (d, 0)
  | .openFile => (Dir.openAppend d filename nextInode mtime).map fun opened => (opened.1, 1)
  | .removeTmp => some (Dir.removeFile d o.key.tmpLinkName, 0)
  | .linkTmp => (Dir.symlink d filename o.key.tmpLinkName).map fun d => (d, 0)
  | .renameTmp => (Dir.rename d o.key.tmpLinkName o.key.linkName).map fun d => (d, 0)

def perform (o : Opening) (fs : Fs) (mtime : ℤ) : Option Fs :=
  let dir := o.key.nodeDir u
  (o.act ((fs.dirs dir).getD ∅) fs.nextInode mtime).map fun after =>
    ⟨Function.update fs.dirs dir (some after.1), fs.nextInode + after.2⟩

end Opening

/-- The lock of the writer admits one opening at a time. -/
structure System where
  fs : Fs
  opening : Option Opening

inductive Event
  | begin (key : LogKey) (now : ℤ)
  | call (mtime : ℤ)
  | crash
  | append (file : ℕ) (path : FilePath) (bytes : String) (mtime : ℤ)

def step (u : Unicode) (F : Formats) (s : System) : Event → Option System
  | .begin key now =>
    match s.opening with
    | none => some { s with opening := some ⟨key, F.stamp now, .createDir⟩ }
    | some _ => none
  | .call mtime =>
    match s.opening with
    | none => none
    | some o =>
      match o.perform u s.fs mtime with
      | none => some { s with opening := none }
      | some fs => some ⟨fs, o.call.next.map fun call => { o with call := call }⟩
  | .crash => some { s with opening := none }
  | .append file path bytes mtime => some { s with fs := s.fs.append file path bytes mtime }

theorem rename_source {d d' : Dir} {source dest : String} (h : d.rename source dest = some d')
    (hne : source ≠ dest) : d'.lookup source = none := by
  unfold Dir.rename at h
  split at h
  · cases h
  · cases h
  · rw [← Option.some.inj h, AList.lookup_insert_ne hne, AList.lookup_erase]

/-- The names that the writer uses hold what the writer makes of them. -/
structure Sound (u : Unicode) (fs : Fs) : Prop where
  file : ∀ (key : LogKey) (stamp : String) (e : Entry),
    fs.lookup (key.path u (key.filename stamp)) = some e → ∃ f, e = .file f
  tmp : ∀ (key : LogKey) (e : Entry), fs.lookup (key.path u key.tmpLinkName) = some e →
    ∃ target, e = .symlink target
  link : ∀ (key : LogKey) (e : Entry), fs.lookup (key.path u key.linkName) = some e →
    ∃ target f, e = .symlink target ∧ fs.lookup (key.path u target) = some (.file f)

def Kept (fs fs' : Fs) : Prop :=
  ∀ p f, fs.lookup p = some (.file f) → ∃ f', fs'.lookup p = some (.file f') ∧
    f'.inode = f.inode ∧ f.content.toList <+: f'.content.toList

theorem Kept.refl (fs : Fs) : Kept fs fs := fun _ f h => ⟨f, h, rfl, List.prefix_refl _⟩

theorem Kept.trans {fs fs' fs'' : Fs} (h : Kept fs fs') (h' : Kept fs' fs'') : Kept fs fs'' := by
  intro p f hf
  obtain ⟨f', hf', hinode, hpre⟩ := h p f hf
  obtain ⟨f'', hf'', hinode', hpre'⟩ := h' p f' hf'
  exact ⟨f'', hf'', hinode'.trans hinode, hpre.trans hpre'⟩

def Prepared (u : Unicode) (fs : Fs) (o : Opening) : Prop :=
  match o.call with
  | .createDir => True
  | .openFile => True
  | .removeTmp => ∃ f, fs.lookup (o.file u) = some (.file f)
  | .linkTmp => (∃ f, fs.lookup (o.file u) = some (.file f)) ∧ fs.lookup (o.tmp u) = none
  | .renameTmp => (∃ f, fs.lookup (o.file u) = some (.file f)) ∧
      fs.lookup (o.tmp u) = some (.symlink (o.key.filename o.stamp))

/-! What a call leaves. -/

namespace Opening

variable {u : Unicode}

theorem file_ne_link (o : Opening) (key : LogKey) : o.file u ≠ key.path u key.linkName := by
  intro h
  exact filename_ne_linkName _ _ _ (congrArg FilePath.name h)

theorem file_ne_tmp (o : Opening) (key : LogKey) : o.file u ≠ key.path u key.tmpLinkName := by
  intro h
  exact filename_ne_tmpLinkName _ _ _ (congrArg FilePath.name h)

theorem link_ne_tmp (o : Opening) (key : LogKey) : o.link u ≠ key.path u key.tmpLinkName := by
  intro h
  exact linkName_ne_tmpLinkName _ _ (congrArg FilePath.name h)

theorem lookup_dir (o : Opening) (fs : Fs) (name : String) :
    ((fs.dirs (o.key.nodeDir u)).getD ∅).lookup name = fs.lookup (o.key.path u name) :=
  (lookup_path u fs o.key name).symm

/-- A call changes entries of the node's directory only. -/
theorem perform_spec {o : Opening} {fs fs' : Fs} {mtime : ℤ} (h : o.perform u fs mtime = some fs') :
    ∃ d n, o.act ((fs.dirs (o.key.nodeDir u)).getD ∅) fs.nextInode mtime = some (d, n) ∧
      (∀ name, fs'.lookup (o.key.path u name) = d.lookup name) ∧
      ∀ p, p.dir ≠ o.key.nodeDir u → fs'.lookup p = fs.lookup p := by
  obtain ⟨⟨d, n⟩, hact, rfl⟩ := Option.map_eq_some_iff.mp h
  refine ⟨d, n, hact, fun name => ?_, fun p hp => ?_⟩
  · simp only [Fs.lookup_update, LogKey.path, if_true]
  · rw [Fs.lookup_update, if_neg hp]

/-- The file is there or made, the other name is free or a link, and the link is as before
or points to the file. -/
structure Effect (u : Unicode) (o : Opening) (fs fs' : Fs) : Prop where
  rest : ∀ p, p ≠ o.file u → p ≠ o.link u → p ≠ o.tmp u → fs'.lookup p = fs.lookup p
  file : fs'.lookup (o.file u) = fs.lookup (o.file u) ∨
    (fs.lookup (o.file u) = none ∧ ∃ f, fs'.lookup (o.file u) = some (.file f))
  tmp : fs'.lookup (o.tmp u) = fs.lookup (o.tmp u) ∨ fs'.lookup (o.tmp u) = none ∨
    ∃ target, fs'.lookup (o.tmp u) = some (.symlink target)
  link : fs'.lookup (o.link u) = fs.lookup (o.link u) ∨
    (fs'.lookup (o.link u) = some (.symlink (o.key.filename o.stamp)) ∧
      ∃ f, fs'.lookup (o.file u) = some (.file f))
  prepared : ∀ call, o.call.next = some call → Prepared u fs' { o with call := call }

theorem effect_of_same {o : Opening} {fs fs' : Fs} {d : Dir}
    (hlookup : ∀ name, fs'.lookup (o.key.path u name) = d.lookup name)
    (hrest : ∀ p, p.dir ≠ o.key.nodeDir u → fs'.lookup p = fs.lookup p)
    (hsame : ∀ name, name ≠ o.key.filename o.stamp → name ≠ o.key.linkName →
      name ≠ o.key.tmpLinkName → d.lookup name = fs.lookup (o.key.path u name)) :
    ∀ p, p ≠ o.file u → p ≠ o.link u → p ≠ o.tmp u → fs'.lookup p = fs.lookup p := by
  intro p hfile hlink htmp
  by_cases hdir : p.dir = o.key.nodeDir u
  · obtain ⟨dir, name⟩ := p
    subst hdir
    have hne : ∀ other, (⟨o.key.nodeDir u, name⟩ : FilePath) ≠ o.key.path u other →
        name ≠ other := by
      intro other hp hname
      exact hp (by rw [hname, LogKey.path])
    have hlook := hlookup name
    rw [hsame name (hne _ hfile) (hne _ hlink) (hne _ htmp)] at hlook
    exact hlook
  · exact hrest p hdir

/-- Each call of the opening has its effect, once the calls before it are done. -/
theorem perform_effect {o : Opening} {fs fs' : Fs} {mtime : ℤ} (hs : Sound u fs)
    (hp : Prepared u fs o) (h : o.perform u fs mtime = some fs') : Effect u o fs fs' := by
  obtain ⟨d, n, hact, hlookup, hrest⟩ := perform_spec h
  have hbefore := lookup_dir (u := u) o fs
  have hft : o.key.filename o.stamp ≠ o.key.tmpLinkName := filename_ne_tmpLinkName _ _ _
  have hfl : o.key.filename o.stamp ≠ o.key.linkName := filename_ne_linkName _ _ _
  have hlt : o.key.linkName ≠ o.key.tmpLinkName := linkName_ne_tmpLinkName _ _
  cases hcall : o.call with
  | createDir =>
    simp only [act, hcall, Option.some.injEq, Prod.mk.injEq] at hact
    obtain ⟨rfl, -⟩ := hact
    have hsame : ∀ name, fs'.lookup (o.key.path u name) = fs.lookup (o.key.path u name) :=
      fun name => (hlookup name).trans (hbefore name)
    refine ⟨effect_of_same hlookup hrest fun name _ _ _ => hbefore name, Or.inl (hsame _),
      Or.inl (hsame _), Or.inl (hsame _), fun call hnext => ?_⟩
    rw [hcall] at hnext
    obtain rfl := Option.some.inj hnext
    trivial
  | openFile =>
    simp only [act, hcall, Option.map_eq_some_iff, Prod.mk.injEq] at hact
    obtain ⟨⟨d', file⟩, hopen, rfl, -⟩ := hact
    obtain ⟨f, hf, -, hold⟩ := Dir.openAppend_file hopen
    have hsame := (Dir.openAppend_spec hopen).2
    have hfile : fs'.lookup (o.file u) = some (.file f) := (hlookup _).trans hf
    have hother : ∀ name, name ≠ o.key.filename o.stamp →
        fs'.lookup (o.key.path u name) = fs.lookup (o.key.path u name) := fun name hname =>
      (hlookup name).trans ((hsame name hname).trans (hbefore name))
    refine ⟨effect_of_same hlookup hrest fun name hname _ _ =>
      (hsame name hname).trans (hbefore name), ?_, Or.inl (hother _ hft.symm),
      Or.inl (hother _ hfl.symm), fun call hnext => ?_⟩
    · rw [hbefore] at hold
      rcases hold with hold | ⟨hnone, -⟩
      · exact Or.inl (hfile.trans hold.symm)
      · exact Or.inr ⟨hnone, f, hfile⟩
    · rw [hcall] at hnext
      obtain rfl := Option.some.inj hnext
      exact ⟨f, hfile⟩
  | removeTmp =>
    simp only [act, hcall, Option.some.injEq, Prod.mk.injEq] at hact
    obtain ⟨rfl, -⟩ := hact
    have hsame : ∀ name, name ≠ o.key.tmpLinkName →
        (Dir.removeFile ((fs.dirs (o.key.nodeDir u)).getD ∅) o.key.tmpLinkName).lookup name =
          fs.lookup (o.key.path u name) := by
      intro name hname
      rw [Dir.lookup_removeFile, if_neg fun hno => hname hno.1, hbefore]
    have htmp : fs'.lookup (o.tmp u) = none := by
      refine (hlookup _).trans ?_
      rw [Dir.lookup_removeFile, hbefore]
      cases he : fs.lookup (o.key.path u o.key.tmpLinkName) with
      | none => split <;> rfl
      | some e =>
        obtain ⟨target, rfl⟩ := hs.tmp o.key e he
        exact if_pos ⟨rfl, Bool.false_ne_true⟩
    simp only [Prepared, hcall] at hp
    obtain ⟨f, hf⟩ := hp
    have hfile : fs'.lookup (o.file u) = fs.lookup (o.file u) :=
      (hlookup _).trans (hsame _ hft)
    refine ⟨effect_of_same hlookup hrest fun name _ _ hname => hsame name hname, Or.inl hfile,
      Or.inr (Or.inl htmp), Or.inl ((hlookup _).trans (hsame _ hlt)), fun call hnext => ?_⟩
    rw [hcall] at hnext
    obtain rfl := Option.some.inj hnext
    exact ⟨⟨f, hfile.trans hf⟩, htmp⟩
  | linkTmp =>
    simp only [act, hcall, Option.map_eq_some_iff, Prod.mk.injEq] at hact
    obtain ⟨d', hsymlink, rfl, -⟩ := hact
    obtain ⟨htarget, hsame⟩ := Dir.symlink_spec hsymlink
    have hother : ∀ name, name ≠ o.key.tmpLinkName →
        fs'.lookup (o.key.path u name) = fs.lookup (o.key.path u name) := fun name hname =>
      (hlookup name).trans ((hsame name hname).trans (hbefore name))
    have htmp : fs'.lookup (o.tmp u) = some (.symlink (o.key.filename o.stamp)) :=
      (hlookup _).trans htarget
    simp only [Prepared, hcall] at hp
    obtain ⟨⟨f, hf⟩, -⟩ := hp
    refine ⟨effect_of_same hlookup hrest fun name _ _ hname =>
      (hsame name hname).trans (hbefore name), Or.inl (hother _ hft),
      Or.inr (Or.inr ⟨_, htmp⟩), Or.inl (hother _ hlt), fun call hnext => ?_⟩
    rw [hcall] at hnext
    obtain rfl := Option.some.inj hnext
    exact ⟨⟨f, (hother _ hft).trans hf⟩, htmp⟩
  | renameTmp =>
    simp only [act, hcall, Option.map_eq_some_iff, Prod.mk.injEq] at hact
    obtain ⟨d', hrename, rfl, -⟩ := hact
    obtain ⟨hdest, hsame⟩ := Dir.rename_spec hrename
    simp only [Prepared, hcall] at hp
    obtain ⟨⟨f, hf⟩, htmp⟩ := hp
    have hfile : fs'.lookup (o.file u) = some (.file f) :=
      (hlookup _).trans ((hsame _ hft hfl).trans ((hbefore _).trans hf))
    have hlink : fs'.lookup (o.link u) = some (.symlink (o.key.filename o.stamp)) :=
      (hlookup _).trans (hdest.trans ((hbefore _).trans htmp))
    have hgone : fs'.lookup (o.tmp u) = none :=
      (hlookup _).trans (rename_source hrename hlt.symm)
    refine ⟨effect_of_same hlookup hrest fun name _ hln ht =>
      (hsame name ht hln).trans (hbefore name), Or.inl (hfile.trans hf.symm),
      Or.inr (Or.inl hgone), Or.inr ⟨hlink, f, hfile⟩, fun call hnext => ?_⟩
    rw [hcall] at hnext
    cases hnext

namespace Effect

variable {o : Opening} {fs fs' : Fs}

theorem kept (he : Effect u o fs fs') (hs : Sound u fs) : Kept fs fs' := by
  intro p f hf
  by_cases hfile : p = o.file u
  · subst hfile
    rcases he.file with hsame | ⟨hnone, -⟩
    · exact ⟨f, hsame.trans hf, rfl, List.prefix_refl _⟩
    · rw [hnone] at hf
      cases hf
  · have hlink : p ≠ o.link u := by
      rintro rfl
      obtain ⟨target, g, hentry, -⟩ := hs.link o.key _ hf
      cases hentry
    have htmp : p ≠ o.tmp u := by
      rintro rfl
      obtain ⟨target, hentry⟩ := hs.tmp o.key _ hf
      cases hentry
    exact ⟨f, (he.rest p hfile hlink htmp).trans hf, rfl, List.prefix_refl _⟩

theorem sound (he : Effect u o fs fs') (hs : Sound u fs) : Sound u fs' := by
  refine ⟨fun key stamp e hentry => ?_, fun key e hentry => ?_, fun key e hentry => ?_⟩
  · by_cases hfile : key.path u (key.filename stamp) = o.file u
    · rw [hfile] at hentry
      rcases he.file with hsame | ⟨-, f, hf⟩
      · exact hs.file o.key o.stamp e (hsame ▸ hentry)
      · exact ⟨f, Option.some.inj (hentry.symm.trans hf)⟩
    · have hold := he.rest _ hfile (file_ne_link ⟨key, stamp, .createDir⟩ o.key)
        (file_ne_tmp ⟨key, stamp, .createDir⟩ o.key)
      exact hs.file key stamp e (hold ▸ hentry)
  · by_cases htmp : key.path u key.tmpLinkName = o.tmp u
    · rw [htmp] at hentry
      rcases he.tmp with hsame | hnone | ⟨target, htarget⟩
      · exact hs.tmp o.key e (hsame ▸ hentry)
      · rw [hnone] at hentry
        cases hentry
      · exact ⟨target, Option.some.inj (hentry.symm.trans htarget)⟩
    · have hold := he.rest _ (o.file_ne_tmp key).symm (o.link_ne_tmp key).symm htmp
      exact hs.tmp key e (hold ▸ hentry)
  · -- The link is the old one, whose file is kept, or the new one.
    have hkept : fs.lookup (key.path u key.linkName) = some e → ∃ target f,
        e = .symlink target ∧ fs'.lookup (key.path u target) = some (.file f) := by
      intro hold
      obtain ⟨target, f, hsymlink, hf⟩ := hs.link key e hold
      obtain ⟨f', hf', -⟩ := he.kept hs _ f hf
      exact ⟨target, f', hsymlink, hf'⟩
    by_cases hlink : key.path u key.linkName = o.link u
    · rcases he.link with hsame | ⟨hnew, f, hf⟩
      · rw [← hlink] at hsame
        exact hkept (hsame ▸ hentry)
      · have hdir : key.nodeDir u = o.key.nodeDir u := congrArg FilePath.dir hlink
        rw [hlink, hnew, Option.some.injEq] at hentry
        refine ⟨_, f, hentry.symm, ?_⟩
        rw [← hf, Opening.file, LogKey.path, LogKey.path, hdir]
    · have htmp : key.path u key.linkName ≠ o.tmp u :=
        link_ne_tmp ⟨key, o.stamp, .createDir⟩ o.key
      have hold := he.rest _ (o.file_ne_link key).symm hlink htmp
      exact hkept (hold ▸ hentry)

theorem link_isSome (he : Effect u o fs fs') (key : LogKey)
    (h : (fs.lookup (key.path u key.linkName)).isSome) :
    (fs'.lookup (key.path u key.linkName)).isSome := by
  by_cases hlink : key.path u key.linkName = o.link u
  · rw [hlink] at h ⊢
    rcases he.link with hsame | ⟨hnew, -⟩
    · rwa [hsame]
    · rw [hnew]
      rfl
  · have htmp : key.path u key.linkName ≠ o.tmp u :=
      link_ne_tmp ⟨key, o.stamp, .createDir⟩ o.key
    rwa [he.rest _ (o.file_ne_link key).symm hlink htmp]

end Effect

/-- No call of an opening fails. -/
theorem exists_perform {o : Opening} {fs : Fs} (hs : Sound u fs) (hp : Prepared u fs o)
    (mtime : ℤ) : ∃ fs', o.perform u fs mtime = some fs' := by
  have hbefore := lookup_dir (u := u) o fs
  have hact : ∃ after, o.act ((fs.dirs (o.key.nodeDir u)).getD ∅) fs.nextInode mtime =
      some after := by
    cases hcall : o.call with
    | createDir => exact ⟨_, by rw [act, hcall]⟩
    | openFile =>
      simp only [act, hcall, Dir.openAppend, hbefore]
      cases hentry : fs.lookup (o.key.path u (o.key.filename o.stamp)) with
      | none => exact ⟨_, rfl⟩
      | some e =>
        obtain ⟨f, rfl⟩ := hs.file _ _ e hentry
        exact ⟨_, rfl⟩
    | removeTmp => exact ⟨_, by rw [act, hcall]⟩
    | linkTmp =>
      simp only [Prepared, hcall] at hp
      have hnone : fs.lookup (o.key.path u o.key.tmpLinkName) = none := hp.2
      simp only [act, hcall, Dir.symlink, hbefore, hnone]
      exact ⟨_, rfl⟩
    | renameTmp =>
      simp only [Prepared, hcall] at hp
      have htmp : fs.lookup (o.key.path u o.key.tmpLinkName) = _ := hp.2
      simp only [act, hcall, Dir.rename, hbefore, htmp]
      cases hentry : fs.lookup (o.key.path u o.key.linkName) with
      | none => exact ⟨_, rfl⟩
      | some e =>
        obtain ⟨target, f, rfl, -⟩ := hs.link _ e hentry
        exact ⟨_, rfl⟩
  obtain ⟨after, hafter⟩ := hact
  exact ⟨_, by rw [perform, hafter]; rfl⟩

end Opening

/-! What appending leaves. -/

/-- An append leaves an entry alone, or makes a file longer. -/
theorem append_cases (fs : Fs) (file : ℕ) (p : FilePath) (bytes : String) (mtime : ℤ)
    (q : FilePath) :
    (fs.append file p bytes mtime).lookup q = fs.lookup q ∨
      ∃ f f', fs.lookup q = some (.file f) ∧
        (fs.append file p bytes mtime).lookup q = some (.file f') ∧ f'.inode = f.inode ∧
        f.content.toList <+: f'.content.toList := by
  by_cases hopen : ∃ f, fs.lookup p = some (.file f) ∧ f.inode = file
  · obtain ⟨f, hf, hinode⟩ := hopen
    rw [AppendOnlyLog.append_lookup bytes mtime hf hinode]
    by_cases hq : q = p
    · subst hq
      rw [if_pos rfl]
      refine Or.inr ⟨f, _, hf, rfl, rfl, ?_⟩
      rw [String.toList_append]
      exact List.prefix_append _ _
    · exact Or.inl (if_neg hq)
  · have hsame : fs.append file p bytes mtime = fs := by
      unfold Fs.append
      split
      · rfl
      · rename_i d hd
        split
        · rename_i f hf
          split
          · rename_i hinode
            exact absurd ⟨f, by rw [Fs.lookup, hd, Option.bind_some, hf], hinode⟩ hopen
          · rfl
        · rfl
    exact Or.inl (by rw [hsame])

theorem kept_append (fs : Fs) (file : ℕ) (p : FilePath) (bytes : String) (mtime : ℤ) :
    Kept fs (fs.append file p bytes mtime) := by
  intro q f hf
  rcases append_cases fs file p bytes mtime q with hsame | ⟨g, g', hg, hg', hkept⟩
  · exact ⟨f, hsame.trans hf, rfl, List.prefix_refl _⟩
  · obtain rfl := Entry.file.inj (Option.some.inj (hf.symm.trans hg))
    exact ⟨g', hg', hkept⟩

/-- What is no file is as before. -/
theorem append_other {fs : Fs} {file : ℕ} {p : FilePath} {bytes : String} {mtime : ℤ}
    {q : FilePath} (h : ∀ f, fs.lookup q ≠ some (.file f)) :
    (fs.append file p bytes mtime).lookup q = fs.lookup q := by
  rcases append_cases fs file p bytes mtime q with hsame | ⟨f, -, hf, -⟩
  · exact hsame
  · exact absurd hf (h f)

theorem Sound.tmp_ne_file {u : Unicode} {fs : Fs} (hs : Sound u fs) (key : LogKey) (f : File) :
    fs.lookup (key.path u key.tmpLinkName) ≠ some (.file f) := by
  intro hf
  obtain ⟨target, hentry⟩ := hs.tmp key _ hf
  cases hentry

theorem Sound.link_ne_file {u : Unicode} {fs : Fs} (hs : Sound u fs) (key : LogKey) (f : File) :
    fs.lookup (key.path u key.linkName) ≠ some (.file f) := by
  intro hf
  obtain ⟨target, g, hentry, -⟩ := hs.link key _ hf
  cases hentry

/-- Appending keeps what the names hold. -/
theorem Sound.append {u : Unicode} {fs : Fs} (hs : Sound u fs) (file : ℕ) (p : FilePath)
    (bytes : String) (mtime : ℤ) : Sound u (fs.append file p bytes mtime) := by
  refine ⟨fun key stamp e hentry => ?_, fun key e hentry => ?_, fun key e hentry => ?_⟩
  · rcases append_cases fs file p bytes mtime (key.path u (key.filename stamp)) with
      hsame | ⟨f, f', -, hf', -⟩
    · exact hs.file key stamp e (hsame ▸ hentry)
    · exact ⟨f', Option.some.inj (hentry.symm.trans hf')⟩
  · rw [append_other (hs.tmp_ne_file key)] at hentry
    exact hs.tmp key e hentry
  · rw [append_other (hs.link_ne_file key)] at hentry
    obtain ⟨target, f, hsymlink, hf⟩ := hs.link key e hentry
    obtain ⟨f', hf', -⟩ := kept_append fs file p bytes mtime _ f hf
    exact ⟨target, f', hsymlink, hf'⟩

theorem Prepared.append {u : Unicode} {fs : Fs} {o : Opening} (hs : Sound u fs)
    (hp : Prepared u fs o) (file : ℕ) (p : FilePath) (bytes : String) (mtime : ℤ) :
    Prepared u (fs.append file p bytes mtime) o := by
  have hfile : (∃ f, fs.lookup (o.file u) = some (.file f)) →
      ∃ f, (fs.append file p bytes mtime).lookup (o.file u) = some (.file f) := by
    intro hold
    obtain ⟨f, hf⟩ := hold
    obtain ⟨f', hf', -⟩ := kept_append fs file p bytes mtime _ f hf
    exact ⟨f', hf'⟩
  have htmp : (fs.append file p bytes mtime).lookup (o.tmp u) = fs.lookup (o.tmp u) :=
    append_other (hs.tmp_ne_file o.key)
  unfold Prepared at hp ⊢
  cases hcall : o.call with
  | createDir => trivial
  | openFile => trivial
  | removeTmp =>
    simp only [hcall] at hp
    exact hfile hp
  | linkTmp =>
    simp only [hcall] at hp
    exact ⟨hfile hp.1, htmp.trans hp.2⟩
  | renameTmp =>
    simp only [hcall] at hp
    exact ⟨hfile hp.1, htmp.trans hp.2⟩

/-! Runs. -/

structure Inv (u : Unicode) (fs : Fs) (s : System) : Prop where
  sound : Sound u s.fs
  prepared : ∀ o, s.opening = some o → Prepared u s.fs o
  kept : Kept fs s.fs
  linked : ∀ key : LogKey, (fs.lookup (key.path u key.linkName)).isSome →
    (s.fs.lookup (key.path u key.linkName)).isSome

theorem inv_start {u : Unicode} {fs : Fs} (hfs : Sound u fs) : Inv u fs ⟨fs, none⟩ where
  sound := hfs
  prepared o h := by cases h
  kept := Kept.refl fs
  linked _ h := h

theorem Inv.step {u : Unicode} {F : Formats} {fs : Fs} {s s' : System} {e : Event}
    (hs : Inv u fs s) (h : step u F s e = some s') : Inv u fs s' := by
  cases e with
  | begin key now =>
    simp only [CrashSafety.step] at h
    split at h
    · rw [← Option.some.inj h]
      refine ⟨hs.sound, fun o ho => ?_, hs.kept, hs.linked⟩
      rw [← Option.some.inj ho]
      trivial
    · cases h
  | call mtime =>
    simp only [CrashSafety.step] at h
    split at h
    · cases h
    · rename_i o ho
      have hp := hs.prepared o ho
      obtain ⟨fs', hperform⟩ := Opening.exists_perform hs.sound hp mtime
      have heffect := Opening.perform_effect hs.sound hp hperform
      simp only [hperform, Option.some.injEq] at h
      subst h
      refine ⟨heffect.sound hs.sound, fun o' ho' => ?_, hs.kept.trans (heffect.kept hs.sound),
        fun key hlinked => heffect.link_isSome key (hs.linked key hlinked)⟩
      obtain ⟨call, hnext, rfl⟩ := Option.map_eq_some_iff.mp ho'
      exact heffect.prepared call hnext
  | crash =>
    rw [CrashSafety.step, Option.some.injEq] at h
    subst h
    refine ⟨hs.sound, fun o ho => ?_, hs.kept, hs.linked⟩
    cases ho
  | append file path bytes mtime =>
    rw [CrashSafety.step, Option.some.injEq] at h
    subst h
    refine ⟨hs.sound.append file path bytes mtime, fun o ho => ?_,
      hs.kept.trans (kept_append _ _ _ _ _), fun key hlinked => ?_⟩
    · exact (hs.prepared o ho).append hs.sound file path bytes mtime
    · rw [append_other (hs.sound.link_ne_file key)]
      exact hs.linked key hlinked

/-- An opening that no crash interrupts does what `openNewFile` does. -/
theorem run_opening {u : Unicode} {F : Formats} {fs : Fs} {key : LogKey} {now mtime : ℤ}
    {opened : Fs × LogHandle} (h : openNewFile u F fs key now mtime = some opened) :
    run (step u F) ⟨fs, none⟩ (.begin key now :: List.replicate 5 (.call mtime)) =
      some ⟨opened.1, none⟩ := by
  unfold openNewFile at h
  simp only [Option.bind_eq_bind, Option.bind_eq_some_iff, Option.some.injEq] at h
  obtain ⟨⟨d₁, file⟩, hopen, d₂, hlink, d₃, hrename, rfl⟩ := h
  simp [List.replicate, run, step, Opening.perform, Opening.act, Call.next, hopen, hlink, hrename]

/-- Whatever a crash has left, opening succeeds. -/
theorem exists_openNewFile {u : Unicode} {fs : Fs} (hs : Sound u fs) (F : Formats)
    (key : LogKey) (now mtime : ℤ) :
    ∃ opened, openNewFile u F fs key now mtime = some opened := by
  have hbefore : ∀ name, ((fs.dirs (key.nodeDir u)).getD ∅).lookup name =
      fs.lookup (key.path u name) := fun name => (lookup_path u fs key name).symm
  obtain ⟨⟨d₁, file⟩, hopen⟩ : ∃ after, Dir.openAppend ((fs.dirs (key.nodeDir u)).getD ∅)
      (key.filename (F.stamp now)) fs.nextInode mtime = some after := by
    rw [Dir.openAppend, hbefore]
    cases hentry : fs.lookup (key.path u (key.filename (F.stamp now))) with
    | none => exact ⟨_, rfl⟩
    | some e =>
      obtain ⟨f, rfl⟩ := hs.file key _ e hentry
      exact ⟨_, rfl⟩
  have hsame := (Dir.openAppend_spec hopen).2
  have htmp : d₁.lookup key.tmpLinkName = fs.lookup (key.path u key.tmpLinkName) :=
    (hsame _ (filename_ne_tmpLinkName _ _ _).symm).trans (hbefore _)
  have hfree : (Dir.removeFile d₁ key.tmpLinkName).lookup key.tmpLinkName = none := by
    rw [Dir.lookup_removeFile, htmp]
    cases hentry : fs.lookup (key.path u key.tmpLinkName) with
    | none => split <;> rfl
    | some e =>
      obtain ⟨target, rfl⟩ := hs.tmp key e hentry
      exact if_pos ⟨rfl, Bool.false_ne_true⟩
  obtain ⟨d₂, hsymlink⟩ : ∃ d₂, Dir.symlink (Dir.removeFile d₁ key.tmpLinkName)
      (key.filename (F.stamp now)) key.tmpLinkName = some d₂ := by
    rw [Dir.symlink, hfree]
    exact ⟨_, rfl⟩
  obtain ⟨htarget, hsame'⟩ := Dir.symlink_spec hsymlink
  have hlink : d₂.lookup key.linkName = fs.lookup (key.path u key.linkName) := by
    rw [hsame' _ (linkName_ne_tmpLinkName _ _), Dir.lookup_removeFile,
      if_neg fun hno => linkName_ne_tmpLinkName _ _ hno.1,
      hsame _ (filename_ne_linkName _ _ _).symm, hbefore]
  obtain ⟨d₃, hrename⟩ : ∃ d₃, Dir.rename d₂ key.tmpLinkName key.linkName = some d₃ := by
    rw [Dir.rename, htarget, hlink]
    cases hentry : fs.lookup (key.path u key.linkName) with
    | none => exact ⟨_, rfl⟩
    | some e =>
      obtain ⟨target, f, rfl, -⟩ := hs.link key e hentry
      exact ⟨_, rfl⟩
  simp [openNewFile, hopen, hsymlink, hrename]

theorem Sound.inodeAt_target {u : Unicode} {fs : Fs} (hs : Sound u fs) {key : LogKey}
    {target : String} (h : fs.targetAt (key.path u key.linkName) = some target) :
    ∃ inode, fs.inodeAt (key.path u target) = some inode := by
  obtain ⟨e, hentry, htarget⟩ := Option.bind_eq_some_iff.mp h
  obtain ⟨target', f, rfl, hf⟩ := hs.link key e hentry
  obtain rfl : target' = target := Option.some.inj htarget
  exact ⟨f.inode, Fs.inodeAt_eq_some_iff.mpr ⟨f, hf, rfl⟩⟩

theorem Sound.exists_target {u : Unicode} {fs : Fs} (hs : Sound u fs) {key : LogKey}
    (h : (fs.lookup (key.path u key.linkName)).isSome) :
    ∃ target, fs.targetAt (key.path u key.linkName) = some target := by
  obtain ⟨e, hentry⟩ := Option.isSome_iff_exists.mp h
  obtain ⟨target, f, rfl, -⟩ := hs.link key e hentry
  exact ⟨target, Option.bind_eq_some_iff.mpr ⟨_, hentry, rfl⟩⟩

/-- Wherever the process ends and starts again, each link points to a file that is there,
no link and no text of a file is lost, and any file can be opened. -/
theorem crash_safe {u : Unicode} {F : Formats} {fs : Fs} {s : System} {es : List Event}
    (hfs : Sound u fs) (h : run (step u F) ⟨fs, none⟩ es = some s) :
    (∀ (key : LogKey) (target : String), s.fs.targetAt (key.path u key.linkName) = some target →
      ∃ inode, s.fs.inodeAt (key.path u target) = some inode) ∧
    (∀ key : LogKey, (∃ target, fs.targetAt (key.path u key.linkName) = some target) →
      ∃ target, s.fs.targetAt (key.path u key.linkName) = some target) ∧
    Kept fs s.fs ∧
    ∀ (key : LogKey) (now mtime : ℤ), ∃ opened,
      openNewFile u F s.fs key now mtime = some opened ∧
        run (step u F) ⟨s.fs, none⟩ (.begin key now :: List.replicate 5 (.call mtime)) =
          some ⟨opened.1, none⟩ := by
  have hinv : Inv u fs s := run_invariant (fun _ _ _ hs hstep => hs.step hstep) (inv_start hfs) h
  refine ⟨fun key target htarget => hinv.sound.inodeAt_target htarget, fun key hold => ?_,
    hinv.kept, fun key now mtime => ?_⟩
  · apply hinv.sound.exists_target
    apply hinv.linked
    obtain ⟨target, htarget⟩ := hold
    obtain ⟨e, hentry, -⟩ := Option.bind_eq_some_iff.mp htarget
    rw [hentry]
    rfl
  · obtain ⟨opened, hopened⟩ := exists_openNewFile hinv.sound F key now mtime
    exact ⟨opened, hopened, run_opening hopened⟩

/-- A crash between the making of the link and its renaming, and another opening. -/
theorem crash_safe_tmpLeft :
    let node : LogKey := ⟨"node", ["logs"], .forHuman⟩
    let F : Formats := ⟨fun now => if now = 0 then "0" else "1", fun _ => "", fun _ => ""⟩
    let es : List Event := .begin node 0 :: List.replicate 5 (.call 0) ++
      .begin node 1 :: List.replicate 4 (.call 1) ++ [.crash, .append 0 (node.path .ascii
        "node-0.log") "text" 2]
    ∃ s, run (step .ascii F) ⟨⟨fun _ => none, 0⟩, none⟩ es = some s ∧
      s.fs.targetAt (node.path .ascii node.tmpLinkName) = some "node-1.log" ∧
      (∃ inode, s.fs.inodeAt (node.path .ascii "node-0.log") = some inode) ∧
      ∀ now mtime, ∃ opened, openNewFile .ascii F s.fs node now mtime = some opened ∧
        run (step .ascii F) ⟨s.fs, none⟩ (.begin node now :: List.replicate 5 (.call mtime)) =
          some ⟨opened.1, none⟩ := by
  intro node F es
  have hfs : Sound .ascii ⟨fun _ => none, 0⟩ :=
    ⟨fun _ _ _ h => (by cases h), fun _ _ h => (by cases h), fun _ _ h => (by cases h)⟩
  obtain ⟨s, hrun⟩ : ∃ s, run (step .ascii F) ⟨⟨fun _ => none, 0⟩, none⟩ es = some s :=
    Option.isSome_iff_exists.mp (by decide +kernel)
  have hnames : (run (step .ascii F) ⟨⟨fun _ => none, 0⟩, none⟩ es).map (fun s =>
      (s.fs.targetAt (node.path .ascii node.tmpLinkName),
        s.fs.targetAt (node.path .ascii node.linkName))) =
      some (some "node-1.log", some "node-0.log") := by decide +kernel
  rw [hrun, Option.map_some, Option.some.injEq, Prod.mk.injEq] at hnames
  obtain ⟨hlinks, -, -, hopens⟩ := crash_safe hfs hrun
  exact ⟨s, hrun, hnames.1, hlinks node _ hnames.2, hopens node⟩

end Hermod.CrashSafety
