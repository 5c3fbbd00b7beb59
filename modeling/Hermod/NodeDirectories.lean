import Hermod.Rotation

/-!
The directory of a node, whose name is made from the name that the node gives for itself.
Every character but letters, digits, dashes and underscores becomes an underscore, once
where log files are opened and once more where they are pruned. What is written, linked or
pruned for a node stays in the directories of that name, and two nodes share them exactly
when their names differ in such characters only.
-/
namespace Hermod.NodeDirectories

open LogWriter LogWriter.System Rotation Transitions
open TracerState (NodeId Unicode)

/-- The name in the reply to a request for the node's info, if there is one in time, or
else the address of the connection. -/
def resolveNodeName {Value : Type} (niName : Value → Option String)
    (reply : Option (List (String × Option Value))) (fallback : String) : String :=
  let found := do
    let items ← reply
    let item ← items.find? fun (item : String × Option Value) => item.1 = "NodeInfo"
    let v ← item.2
    niName v
  (found.filter fun s => s ≠ "").getD fallback

/-- The directory that the rotation prunes, by its own copy of the replacement. -/
def rotationDirName (u : Unicode) (nodeId : NodeId) : String :=
  String.ofList (nodeId.toList.map fun c =>
    if u.isAlphanumeric c ∨ c = '-' ∨ c = '_' then c else '_')

structure IsComponent (name : String) : Prop where
  nonempty : name ≠ ""
  not_self : name ≠ "."
  not_parent : name ≠ ".."
  not_path : '/' ∉ name.toList
  no_nul : Char.ofNat 0 ∉ name.toList

def Isolated (u : Unicode) (F : Formats) (x y : NodeId) : Prop :=
  ∀ fs es s e s', run (step u F) (start fs) es = some s → step u F s e = some s' →
    e.key.nodeId = x → ∀ root name,
      s'.fs.lookup ⟨join root (nodeDirName u y), name⟩ =
        s.fs.lookup ⟨join root (nodeDirName u y), name⟩

/-- Each of two nodes has one directory directly under a root, and it is its own. -/
structure OwnDirectories (u : Unicode) (F : Formats) (x y : NodeId) : Prop where
  agree : rotationDirName u x = nodeDirName u x ∧ rotationDirName u y = nodeDirName u y
  component : IsComponent (nodeDirName u x) ∧ IsComponent (nodeDirName u y)
  under : ∀ root, join root (nodeDirName u x) = root ++ [nodeDirName u x] ∧
    join root (nodeDirName u y) = root ++ [nodeDirName u y]
  distinct : nodeDirName u x ≠ nodeDirName u y
  isolated : Isolated u F x y ∧ Isolated u F y x

def Significant (u : Unicode) (c : Char) : Prop := u.isAlphanumeric c = true ∨ c = '-'

instance (u : Unicode) : DecidablePred (Significant u) :=
  fun _ => inferInstanceAs (Decidable (_ ∨ _))

/-- The names have different lengths, or differ at some place in a letter, digit or dash. -/
def Distinguished (u : Unicode) (x y : NodeId) : Prop :=
  x.toList.length ≠ y.toList.length ∨
    ∃ (i : ℕ) (c d : Char), x.toList[i]? = some c ∧ y.toList[i]? = some d ∧ c ≠ d ∧
      (Significant u c ∨ Significant u d)

/-- The names that nodes can have are all but the empty one. -/
theorem exists_resolveNodeName_iff (name : String) :
    (∃ (niName : String → Option String) (reply : Option (List (String × Option String)))
      (fallback : String), fallback ≠ "" ∧ resolveNodeName niName reply fallback = name) ↔
      name ≠ "" := by
  constructor
  · rintro ⟨niName, reply, fallback, hfallback, rfl⟩
    unfold resolveNodeName
    simp only
    rcases Option.eq_none_or_eq_some (Option.filter (fun s => decide (s ≠ "")) _) with h | ⟨s, h⟩
    · rw [h]
      exact hfallback
    · rw [h]
      exact of_decide_eq_true (Option.filter_eq_some_iff.mp h).2
  · intro hname
    refine ⟨some, some [("NodeInfo", some name)], "unix-0", by decide, ?_⟩
    simp [resolveNodeName, Option.filter_some, hname]

theorem rotationDirName_eq (u : Unicode) (nodeId : NodeId) :
    rotationDirName u nodeId = nodeDirName u nodeId := rfl

section Names

variable {u : Unicode}

def sanitise (u : Unicode) (c : Char) : Char :=
  if u.isAlphanumeric c ∨ c = '-' ∨ c = '_' then c else '_'

theorem nodeDirName_eq (u : Unicode) (x : NodeId) :
    nodeDirName u x = String.ofList (x.toList.map (sanitise u)) := rfl

theorem not_isAlphanumeric (hascii : ∀ c, c.toNat < 128 → u.isAlphanumeric c = c.isAlphanum)
    {c : Char} (hc : c.toNat < 128) (hno : c.isAlphanum = false) :
    ¬ u.isAlphanumeric c = true := by
  rw [hascii c hc, hno]
  simp

/-- An ASCII sign other than a dash or an underscore does not come out of the replacement. -/
theorem sanitise_ne (hascii : ∀ c, c.toNat < 128 → u.isAlphanumeric c = c.isAlphanum)
    (c : Char) {d : Char} (hd : d.toNat < 128) (hno : d.isAlphanum = false) (hdash : d ≠ '-')
    (hlow : d ≠ '_') : sanitise u c ≠ d := by
  unfold sanitise
  split
  · rintro rfl
    have hd := not_isAlphanumeric hascii hd hno
    simp_all
  · exact hlow.symm

/-- Characters become different ones exactly when they differ and one of them counts. -/
theorem sanitise_ne_iff (hascii : ∀ c, c.toNat < 128 → u.isAlphanumeric c = c.isAlphanum)
    (c d : Char) :
    sanitise u c ≠ sanitise u d ↔ c ≠ d ∧ (Significant u c ∨ Significant u d) := by
  have hlow : ¬ Significant u '_' := by
    have hno := not_isAlphanumeric (c := '_') hascii (by decide) (by decide)
    simp [Significant, hno]
  have hkept : ∀ c, Significant u c → sanitise u c = c ∧ c ≠ '_' := by
    intro c hc
    refine ⟨?_, fun heq => hlow (heq ▸ hc)⟩
    rcases hc with hc | hc <;> simp [sanitise, hc]
  have hrest : ∀ c, ¬ Significant u c → sanitise u c = '_' := by
    intro c hc
    rw [Significant, not_or] at hc
    by_cases hc' : c = '_'
    · simp [sanitise, hc']
    · simp [sanitise, hc.1, hc.2, hc']
  by_cases hc : Significant u c
  · by_cases hd : Significant u d
    · rw [(hkept c hc).1, (hkept d hd).1]
      simp [hc]
    · rw [(hkept c hc).1, hrest d hd]
      have hne : c ≠ d := fun heq => hd (heq ▸ hc)
      simp [hc, hne, (hkept c hc).2]
  · by_cases hd : Significant u d
    · rw [hrest c hc, (hkept d hd).1]
      have hne : c ≠ d := fun heq => hc (heq ▸ hd)
      simp [hd, hne, (hkept d hd).2.symm]
    · rw [hrest c hc, hrest d hd]
      simp [hc, hd]

/-- Names share a directory exactly when they agree in every letter, digit and dash. -/
theorem nodeDirName_ne_iff (hascii : ∀ c, c.toNat < 128 → u.isAlphanumeric c = c.isAlphanum)
    (x y : NodeId) : nodeDirName u x ≠ nodeDirName u y ↔ Distinguished u x y := by
  rw [nodeDirName_eq, nodeDirName_eq, ne_eq, String.ofList_inj, Distinguished]
  by_cases hlength : x.toList.length = y.toList.length
  · simp only [hlength, ne_eq, not_true_eq_false, false_or]
    constructor
    · intro hne
      by_contra hno
      apply hne
      apply List.ext_getElem?
      intro i
      rw [List.getElem?_map, List.getElem?_map]
      cases hc : x.toList[i]? with
      | none =>
        have hd : y.toList[i]? = none := by
          rw [List.getElem?_eq_none_iff] at hc ⊢
          omega
        rw [hd]
      | some c =>
        obtain ⟨hi, -⟩ := List.getElem?_eq_some_iff.mp hc
        rw [hlength] at hi
        have hd := List.getElem?_eq_getElem hi
        rw [hd, Option.map_some, Option.map_some, Option.some.injEq]
        by_contra hsan
        obtain ⟨hcd, hsig⟩ := (sanitise_ne_iff hascii _ _).mp hsan
        exact hno ⟨i, c, _, hc, hd, hcd, hsig⟩
    · rintro ⟨i, c, d, hc, hd, hcd, hsig⟩ heq
      have hi := congrArg (fun l => l[i]?) heq
      simp only [List.getElem?_map, hc, hd, Option.map_some, Option.some.injEq] at hi
      exact (sanitise_ne_iff hascii c d).mpr ⟨hcd, hsig⟩ hi
  · refine iff_of_true ?_ (Or.inl hlength)
    intro heq
    have hlengths := congrArg List.length heq
    rw [List.length_map, List.length_map] at hlengths
    exact hlength hlengths

/-- The directory of a name that is not empty is an entry of the root. -/
theorem isComponent_nodeDirName
    (hascii : ∀ c, c.toNat < 128 → u.isAlphanumeric c = c.isAlphanum) {x : NodeId} (hx : x ≠ "") :
    IsComponent (nodeDirName u x) := by
  have hmem : ∀ d : Char, d.toNat < 128 → d.isAlphanum = false → d ≠ '-' → d ≠ '_' →
      d ∉ (nodeDirName u x).toList := by
    intro d hd hno hdash hlow hmem
    rw [nodeDirName_eq, String.toList_ofList] at hmem
    obtain ⟨c, -, hc⟩ := List.mem_map.mp hmem
    exact sanitise_ne hascii c hd hno hdash hlow hc
  have hdot := hmem '.' (by decide) (by decide) (by decide) (by decide)
  constructor
  · intro hempty
    rw [nodeDirName_eq, ← String.toList_inj, String.toList_ofList] at hempty
    exact hx (String.toList_inj.mp (List.map_eq_nil_iff.mp hempty))
  · intro heq
    rw [heq] at hdot
    exact hdot (by decide)
  · intro heq
    rw [heq] at hdot
    exact hdot (by decide)
  · exact hmem '/' (by decide) (by decide) (by decide) (by decide)
  · exact hmem (Char.ofNat 0) (by decide) (by decide) (by decide) (by decide)

theorem join_eq {name : String} (h : name ≠ "") (root : Path) : join root name = root ++ [name] :=
  if_neg h

/-- Whatever the roots, directories of different names are different. -/
theorem join_ne {x y : String} (hx : x ≠ "") (hy : y ≠ "") (hne : x ≠ y) (root root' : Path) :
    join root x ≠ join root' y := by
  rw [join_eq hx, join_eq hy]
  intro heq
  have hlast := (List.append_inj' heq rfl).2
  exact hne (List.cons.inj hlast).1

end Names

/-! What a call changes lies in the directory of its key. -/

def Homed (u : Unicode) (s : System) : Prop :=
  ∀ key h, s.handles key = some h → h.path.dir = key.nodeDir u

theorem lookup_append_of_ne (fs : Fs) (file : ℕ) {p q : FilePath} (bytes : String) (mtime : ℤ)
    (h : q.dir ≠ p.dir) : (fs.append file p bytes mtime).lookup q = fs.lookup q := by
  unfold Fs.append
  split
  · rfl
  · split
    · split
      · rw [Fs.lookup_update, if_neg h]
      · rfl
    · rfl

theorem lookup_writeLines_of_ne (F : Formats) (format : LogFormat) (mtime : ℤ)
    (traces : List ProtocolTypes.TraceObject) (opened : Fs × LogHandle) {q : FilePath}
    (h : q.dir ≠ opened.2.path.dir) :
    (traces.foldl (writeLine F format mtime) opened).1.lookup q = opened.1.lookup q := by
  induction traces generalizing opened with
  | nil => rfl
  | cons trace traces ih =>
    have hfirst : (writeLine F format mtime opened trace).1.lookup q = opened.1.lookup q :=
      lookup_append_of_ne opened.1 opened.2.file _ mtime h
    exact (ih (writeLine F format mtime opened trace) h).trans hfirst

section Step

variable {u : Unicode} {F : Formats} {s s' : System}

theorem Homed.install (hs : Homed u s) {key : LogKey} {opened : Fs × LogHandle}
    (hopened : opened.2.path.dir = key.nodeDir u) : Homed u (s.install key opened) := by
  intro k h hh
  rcases install_handles_cases hh with ⟨rfl, rfl⟩ | ⟨-, hh⟩
  · exact hopened
  · exact hs k h hh

theorem homed_start (u : Unicode) (fs : Fs) : Homed u (start fs) := by
  intro key h hh
  cases hh

/-- Opening a file touches one directory only. -/
theorem lookup_opened_of_ne {fs : Fs} {key : LogKey} {stamp : String} {opened : Fs × LogHandle}
    (h : Opened u fs key stamp opened) {q : FilePath} (hq : q.dir ≠ key.nodeDir u) :
    opened.1.lookup q = fs.lookup q := by
  have hne : ∀ name, q ≠ key.path u name := by
    rintro name rfl
    exact hq rfl
  refine h.rest q ?_ (hne _) (hne _)
  rw [h.path]
  exact hne _

/-- A call keeps the open files in their directories, and changes nothing outside the
directory of its own key. -/
theorem step_homed (hs : Homed u s) {e : Event} (h : step u F s e = some s') :
    Homed u s' ∧ ∀ q : FilePath, q.dir ≠ e.key.nodeDir u → s'.fs.lookup q = s.fs.lookup q := by
  cases e with
  | write key traces now mtime =>
    obtain ⟨opened, hopen, rfl⟩ := Option.map_eq_some_iff.mp h
    have hpath := (writeLines_spec F key.logFormat mtime traces opened).1
    have hhome : opened.2.path.dir = key.nodeDir u ∧
        ∀ q : FilePath, q.dir ≠ key.nodeDir u → opened.1.lookup q = s.fs.lookup q := by
      cases hhandle : s.handles key with
      | some handle =>
        simp only [hhandle, Option.some.injEq] at hopen
        subst hopen
        exact ⟨hs key handle hhandle, fun q _ => rfl⟩
      | none =>
        simp only [hhandle] at hopen
        have hopened := openNewFile_spec hopen
        exact ⟨by rw [hopened.path]; rfl, fun q hq => lookup_opened_of_ne hopened hq⟩
    refine ⟨hs.install (by rw [hpath]; exact hhome.1), fun q hq => ?_⟩
    have hlines := lookup_writeLines_of_ne F key.logFormat mtime traces opened (q := q)
      (by rw [hhome.1]; exact hq)
    exact hlines.trans (hhome.2 q hq)
  | rotate key limitBytes now mtime =>
    have h : s.rotateIfNeeded u F key limitBytes now mtime = some s' := h
    unfold rotateIfNeeded at h
    split at h
    · split at h
      · obtain ⟨opened, hopen, rfl⟩ := Option.map_eq_some_iff.mp h
        have hopened := openNewFile_spec hopen
        exact ⟨hs.install (by rw [hopened.path]; rfl),
          fun q hq => lookup_opened_of_ne hopened hq⟩
      · obtain rfl := Option.some.inj h
        exact ⟨hs, fun q _ => rfl⟩
    · obtain rfl := Option.some.inj h
      exact ⟨hs, fun q _ => rfl⟩
  | prune key maxAgeHours keepFilesNum now listing =>
    rw [step] at h
    split at h
    · obtain rfl := Option.some.inj h
      exact ⟨hs, fun q hq => lookup_pruneOldFiles s.fs fun heq => absurd heq hq⟩
    · cases h

theorem run_homed {fs : Fs} {es : List Event} (h : run (step u F) (start fs) es = some s) :
    Homed u s :=
  run_invariant (fun _ _ _ hs he => (step_homed hs he).1) (homed_start u fs) h

/-- Nodes whose directories have different names leave each other's alone. -/
theorem isolated_of_ne {x y : NodeId} (hx : nodeDirName u x ≠ "") (hy : nodeDirName u y ≠ "")
    (hne : nodeDirName u x ≠ nodeDirName u y) : Isolated u F x y := by
  rintro fs es s e s' hrun hstep rfl root name
  exact (step_homed (run_homed hrun) hstep).2 _ (join_ne hy hx hne.symm root e.key.logRoot)

end Step

/-- Two nodes have directories of their own exactly when their names differ in length or in
a letter, a digit or a dash. -/
theorem ownDirectories_iff (u : Unicode) (F : Formats)
    (hascii : ∀ c, c.toNat < 128 → u.isAlphanumeric c = c.isAlphanum) {x y : NodeId}
    (hx : x ≠ "") (hy : y ≠ "") : OwnDirectories u F x y ↔ Distinguished u x y := by
  have hcx := isComponent_nodeDirName hascii hx
  have hcy := isComponent_nodeDirName hascii hy
  rw [← nodeDirName_ne_iff hascii]
  constructor
  · intro h
    exact h.distinct
  · intro hne
    exact {
      agree := ⟨rotationDirName_eq u x, rotationDirName_eq u y⟩
      component := ⟨hcx, hcy⟩
      under := fun root => ⟨join_eq hcx.nonempty root, join_eq hcy.nonempty root⟩
      distinct := hne
      isolated := ⟨isolated_of_ne hcx.nonempty hcy.nonempty hne,
        isolated_of_ne hcy.nonempty hcx.nonempty hne.symm⟩ }

theorem ownDirectories_iff_ascii :
    OwnDirectories .ascii epoch "relay-1" "relay-2" ↔ Distinguished .ascii "relay-1" "relay-2" :=
  ownDirectories_iff .ascii epoch (fun _ _ => rfl) (by decide) (by decide)

/-- The names `a.b` and `a_b` have one directory. -/
theorem dotted_names_share : ¬ OwnDirectories .ascii epoch "a.b" "a_b" := by
  intro h
  exact h.distinct (by decide +kernel)

end Hermod.NodeDirectories
