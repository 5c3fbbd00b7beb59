import Hermod.SuffixStripping
import Mathlib.Data.List.Flatten

/-!
The metrics of all nodes in one text. The text of a node is a valid exposition: its
families come in the order of their names, each with a description and its samples. The
texts are put one behind the other, so two nodes with a family of one name describe it
twice. Without suffixes the texts lack their last newline and names of samples can
coincide.
-/
namespace Hermod.AggregateMetrics

open TextLines Exposition SuffixStripping TracerState
open Prometheus (PrometheusState handleAllMetrics stripPrometheusSuffixes)

inductive MetricType
  | counter
  | gauge
  deriving DecidableEq

def MetricType.lowercase : MetricType → Text
  | counter => "counter".toList
  | gauge => "gauge".toList

structure Metric where
  labels : List Label
  value : Text

structure MetricFamily where
  name : Text
  help : Text
  fieldType : MetricType
  metrics : List Metric

/-! The text of a registry. -/

/-- Texts of help keep their quotes. -/
def escapeHelp (s : Text) : Text :=
  s.flatMap fun c => if c = '\\' then ['\\', '\\'] else if c = '\n' then ['\\', 'n'] else [c]

def describing (keyword name rest : Text) : Line :=
  .comment (' ' :: keyword ++ ' ' :: name ++ ' ' :: rest)

def sampleOf (name : Text) (m : Metric) : Sample :=
  ⟨name, if m.labels = [] then none else some m.labels, m.value, none⟩

/-- The lines of a family as they come in a text, where its samples may have another name
than its description. -/
structure Block where
  name : Text
  help : Option Text
  fieldType : Text
  sampleName : Text
  metrics : List Metric

namespace Block

def comments (b : Block) : List Line :=
  (b.help.map (describing "HELP".toList b.name)).toList ++
    [describing "TYPE".toList b.name b.fieldType]

def samples (b : Block) : List Line := b.metrics.map fun m => .sample (sampleOf b.sampleName m)

def lines (b : Block) : List Line := b.comments ++ b.samples

end Block

def block (f : MetricFamily) : Block :=
  ⟨f.name, if f.help = [] then none else some (escapeHelp f.help), f.fieldType.lowercase, f.name,
    f.metrics⟩

def familyLines (fs : List MetricFamily) : List Line := (fs.map block).flatMap Block.lines

def encode (fs : List MetricFamily) : Text := text (familyLines fs)

/-! What a registry gathers. -/

structure MetricFamily.WellFormed (f : MetricFamily) : Prop where
  isName : IsName f.name
  nonempty : f.metrics ≠ []
  isLabelName : ∀ m ∈ f.metrics, ∀ l ∈ m.labels, IsName l.1 ∧ ':' ∉ l.1
  distinct : ∀ m ∈ f.metrics, (m.labels.map Prod.fst).Nodup
  isNumber : ∀ m ∈ f.metrics, IsNumber m.value
  unique : f.metrics.Pairwise fun m n => ¬ m.labels.Perm n.labels

structure Gathered (fs : List MetricFamily) : Prop where
  families : ∀ f ∈ fs, f.WellFormed
  ascending : (fs.map MetricFamily.name).Pairwise (· < ·)

/-! The lines of a block. -/

theorem nextWord_blank {w : Text} (hw : ∀ c ∈ w, isBlank c = false) (hne : w ≠ []) (s : Text) :
    nextWord (' ' :: w ++ ' ' :: s) = (w, ' ' :: s) := by
  have hdrop : (' ' :: w ++ ' ' :: s).dropWhile isBlank = w ++ ' ' :: s := by
    cases w with
    | nil => exact absurd rfl hne
    | cons c w =>
      have hc := hw c (List.mem_cons_self ..)
      have hblank : isBlank ' ' = true := by decide
      simp [hc, hblank]
  have hpos : ∀ c ∈ w, (!isBlank c) = true := fun c hc => by rw [hw c hc]; rfl
  have hblank : isBlank ' ' = true := by decide
  unfold nextWord
  rw [hdrop, List.takeWhile_append_of_pos hpos, List.dropWhile_append_of_pos hpos]
  simp [hblank]

theorem isBlank_of_isNameChar {c : Char} (hc : isNameChar c) : isBlank c = false := by
  by_contra h
  rw [Bool.not_eq_false, isBlank, Bool.or_eq_true, decide_eq_true_eq, decide_eq_true_eq] at h
  rcases h with rfl | rfl
  · exact absurd hc (by decide)
  · exact absurd hc (by decide)

/-- A comment that describes a family is read as such. -/
theorem description_describing {keyword name : Text}
    (hkeyword : keyword = "HELP".toList ∨ keyword = "TYPE".toList) (hname : IsName name)
    (rest : Text) : (describing keyword name rest).description = some (keyword, name) := by
  have hblank : ∀ c ∈ keyword, isBlank c = false := by
    rcases hkeyword with rfl | rfl <;> decide
  have hne : keyword ≠ [] := by
    rcases hkeyword with rfl | rfl <;> decide
  have hword : nextWord (' ' :: keyword ++ ' ' :: name ++ ' ' :: rest) =
      (keyword, ' ' :: name ++ ' ' :: rest) := by
    have hfirst := nextWord_blank hblank hne (name ++ ' ' :: rest)
    rwa [← List.cons_append, ← List.append_assoc] at hfirst
  have hsecond := nextWord_blank (fun c hc => isBlank_of_isNameChar (hname.1 c hc))
    hname.ne_nil rest
  rw [describing, Line.description]
  simp only [hword, hsecond]
  exact if_pos ⟨hkeyword, hname.ne_nil⟩

theorem family_describing {keyword name : Text}
    (hkeyword : keyword = "HELP".toList ∨ keyword = "TYPE".toList) (hname : IsName name)
    (rest : Text) : (describing keyword name rest).family = some name := by
  have h := description_describing hkeyword hname rest
  rw [describing] at h ⊢
  rw [Line.family, h]
  rfl

namespace Block

variable {b : Block}

theorem mem_comments_iff {l : Line} :
    l ∈ b.comments ↔ (∃ help ∈ b.help, l = describing "HELP".toList b.name help) ∨
      l = describing "TYPE".toList b.name b.fieldType := by
  unfold comments
  cases b.help with
  | none => simp
  | some help => simp

theorem family_of_mem_comments (hname : IsName b.name) {l : Line} (hl : l ∈ b.comments) :
    l.family = some b.name := by
  rcases mem_comments_iff.mp hl with ⟨help, -, rfl⟩ | rfl
  · exact family_describing (Or.inl rfl) hname help
  · exact family_describing (Or.inr rfl) hname b.fieldType

theorem family_of_mem_samples {l : Line} (hl : l ∈ b.samples) : l.family = some b.sampleName := by
  obtain ⟨m, -, rfl⟩ := List.mem_map.mp hl
  rfl

theorem family_of_mem_lines (hname : IsName b.name) {l : Line} (hl : l ∈ b.lines) :
    l.family = some b.name ∨ l.family = some b.sampleName := by
  rcases List.mem_append.mp hl with hl | hl
  · exact Or.inl (family_of_mem_comments hname hl)
  · exact Or.inr (family_of_mem_samples hl)

def descriptions (b : Block) : List (Text × Text) :=
  (b.help.map fun _ => ("HELP".toList, b.name)).toList ++ [("TYPE".toList, b.name)]

theorem filterMap_description_lines (hname : IsName b.name) :
    b.lines.filterMap Line.description = b.descriptions := by
  have hsamples : b.samples.filterMap Line.description = [] := by
    rw [List.filterMap_eq_nil_iff]
    intro l hl
    obtain ⟨m, -, rfl⟩ := List.mem_map.mp hl
    rfl
  have hhelp := description_describing (Or.inl rfl) hname
  have htype := description_describing (Or.inr rfl) hname b.fieldType
  rw [lines, List.filterMap_append, hsamples, List.append_nil]
  unfold comments descriptions
  cases b.help with
  | none => exact List.filterMap_cons_some htype
  | some help =>
    have hboth := List.filterMap_cons_some (hhelp help)
      (l := [describing "TYPE".toList b.name b.fieldType])
    rw [List.filterMap_cons_some htype, List.filterMap_nil] at hboth
    exact hboth

theorem filterMap_sample_lines :
    b.lines.filterMap Line.sample? = b.metrics.map (sampleOf b.sampleName) := by
  have hcomments : b.comments.filterMap Line.sample? = [] := by
    rw [List.filterMap_eq_nil_iff]
    intro l hl
    rcases mem_comments_iff.mp hl with ⟨help, -, rfl⟩ | rfl <;> rfl
  have hsamples : b.samples.filterMap Line.sample? = b.metrics.map (sampleOf b.sampleName) := by
    unfold samples
    rw [List.filterMap_map, ← List.filterMap_eq_map]
    rfl
  rw [lines, List.filterMap_append, hcomments, hsamples, List.nil_append]

/-- The lines of a block are those of one family or of two, each in one piece. -/
theorem together_lines (hname : IsName b.name) (family : Text) : Together family b.lines := by
  by_cases hcomments : b.name = family
  · by_cases hsamples : b.sampleName = family
    · refine ⟨[], b.lines, [], by simp, ?_, by simp⟩
      intro l hl
      left
      rcases family_of_mem_lines hname hl with h | h
      · rw [h, hcomments]
      · rw [h, hsamples]
    · refine ⟨[], b.comments, b.samples, by simp [lines], ?_, ?_⟩
      · intro l hl
        left
        rw [family_of_mem_comments hname hl, hcomments]
      · intro l hl
        rw [family_of_mem_samples (by simpa using hl)]
        simpa using hsamples
  · by_cases hsamples : b.sampleName = family
    · refine ⟨b.comments, b.samples, [], by simp [lines], ?_, ?_⟩
      · intro l hl
        left
        rw [family_of_mem_samples hl, hsamples]
      · intro l hl
        rw [family_of_mem_comments hname (by simpa using hl)]
        simpa using hcomments
    · apply together_of_absent
      intro l hl
      rcases family_of_mem_lines hname hl with h | h <;> rw [h]
      · simpa using hcomments
      · simpa using hsamples

end Block

theorem labelList_sampleOf (name : Text) (m : Metric) :
    (sampleOf name m).labelList = m.labels := by
  unfold sampleOf Sample.labelList
  by_cases h : m.labels = []
  · simp [h]
  · simp [h]

theorem sameSeries_sampleOf_iff {name name' : Text} {m n : Metric} :
    (sampleOf name m).SameSeries (sampleOf name' n) ↔ name = name' ∧ m.labels.Perm n.labels := by
  unfold Sample.SameSeries
  rw [labelList_sampleOf, labelList_sampleOf]
  rfl

/-! Blocks one behind the other. -/

def Apart (b c : Block) : Prop :=
  b.name ≠ c.name ∧ b.sampleName ≠ c.sampleName ∧ b.sampleName ≠ c.name ∧ b.name ≠ c.sampleName

def Block.Unique (b : Block) : Prop := b.metrics.Pairwise fun m n => ¬ m.labels.Perm n.labels

/-- Comments repeat only where families share a name. -/
theorem nodup_descriptions_iff {bs : List Block} (hnames : ∀ b ∈ bs, IsName b.name) :
    ((bs.flatMap Block.lines).filterMap Line.description).Nodup ↔
      (bs.map Block.name).Nodup := by
  have hdescriptions : (bs.flatMap Block.lines).filterMap Line.description =
      bs.flatMap Block.descriptions := by
    rw [List.filterMap_flatMap]
    exact List.flatMap_congr fun b hb => Block.filterMap_description_lines (hnames b hb)
  have hone : ∀ b : Block, b.descriptions.Nodup := by
    intro b
    unfold Block.descriptions
    cases b.help with
    | none => simp
    | some help => simp
  have hdisjoint : ∀ b c : Block,
      List.Disjoint b.descriptions c.descriptions ↔ b.name ≠ c.name := by
    intro b c
    constructor
    · intro h heq
      exact h (a := ("TYPE".toList, b.name)) (by simp [Block.descriptions])
        (by simp [Block.descriptions, heq])
    · intro hne d hb hc
      have hsnd : ∀ e : Block, d ∈ e.descriptions → d.2 = e.name := by
        intro e he
        unfold Block.descriptions at he
        cases hhelp : e.help with
        | none => simp [hhelp] at he; rw [he]
        | some help =>
          simp only [hhelp, Option.map_some, Option.toList_some, List.mem_append,
            List.mem_singleton] at he
          rcases he with he | he <;> rw [he]
      exact hne ((hsnd b hb).symm.trans (hsnd c hc))
  rw [hdescriptions, List.nodup_flatMap]
  unfold List.Nodup
  rw [List.pairwise_map]
  constructor
  · rintro ⟨-, h⟩
    exact h.imp fun {b c} hbc => (hdisjoint b c).mp hbc
  · intro h
    exact ⟨fun b _ => hone b, h.imp fun {b c} hbc => (hdisjoint b c).mpr hbc⟩

/-- Samples repeat within a block, or between two blocks whose samples have one name. -/
theorem unique_iff (bs : List Block) :
    ((bs.flatMap Block.lines).filterMap Line.sample?).Pairwise (fun s t => ¬ s.SameSeries t) ↔
      (∀ b ∈ bs, b.Unique) ∧ bs.Pairwise fun b c => ∀ m ∈ b.metrics, ∀ n ∈ c.metrics,
        b.sampleName = c.sampleName → ¬ m.labels.Perm n.labels := by
  have hsamples : (bs.flatMap Block.lines).filterMap Line.sample? =
      bs.flatMap fun b => b.metrics.map (sampleOf b.sampleName) := by
    rw [List.filterMap_flatMap]
    exact List.flatMap_congr fun b _ => Block.filterMap_sample_lines
  rw [hsamples, List.pairwise_flatMap]
  refine and_congr (forall₂_congr fun b _ => ?_) ?_
  · rw [List.pairwise_map, Block.Unique]
    simp only [sameSeries_sampleOf_iff, true_and]
  · simp only [List.forall_mem_map, sameSeries_sampleOf_iff, not_and]

/-- Blocks that share no family keep the lines of each family together. -/
theorem together_blocks {bs : List Block} (hnames : ∀ b ∈ bs, IsName b.name)
    (hapart : bs.Pairwise Apart) (family : Text) : Together family (bs.flatMap Block.lines) := by
  have habsent : ∀ {cs : List Block}, (∀ c ∈ cs, c ∈ bs) →
      (∀ c ∈ cs, c.name ≠ family ∧ c.sampleName ≠ family) →
      ∀ l ∈ cs.flatMap Block.lines, l.family ≠ some family := by
    intro cs hcs hne l hl
    obtain ⟨c, hc, hl⟩ := List.mem_flatMap.mp hl
    rcases Block.family_of_mem_lines (hnames c (hcs c hc)) hl with h | h <;> rw [h]
    · simpa using (hne c hc).1
    · simpa using (hne c hc).2
  by_cases hthere : ∃ b ∈ bs, b.name = family ∨ b.sampleName = family
  · obtain ⟨b, hb, hfamily⟩ := hthere
    obtain ⟨front, back, rfl⟩ := List.append_of_mem hb
    rw [List.pairwise_append, List.pairwise_cons] at hapart
    obtain ⟨-, ⟨hback, -⟩, hfront⟩ := hapart
    have hbefore : ∀ c ∈ front, c.name ≠ family ∧ c.sampleName ≠ family := by
      intro c hc
      obtain ⟨h₁, h₂, h₃, h₄⟩ := hfront c hc b (List.mem_cons_self ..)
      rcases hfamily with rfl | rfl
      · exact ⟨h₁, h₃⟩
      · exact ⟨h₄, h₂⟩
    have hafter : ∀ c ∈ back, c.name ≠ family ∧ c.sampleName ≠ family := by
      intro c hc
      obtain ⟨h₁, h₂, h₃, h₄⟩ := hback c hc
      rcases hfamily with rfl | rfl
      · exact ⟨h₁.symm, h₄.symm⟩
      · exact ⟨h₃.symm, h₂.symm⟩
    rw [List.flatMap_append, List.flatMap_cons, ← List.append_assoc]
    exact (b.together_lines (hnames b hb) family).append
      (habsent (fun c hc => List.mem_append_left _ hc) hbefore)
      (habsent (fun c hc => List.mem_append_right _ (List.mem_cons_of_mem b hc)) hafter)
  · apply together_of_absent
    refine habsent (fun c hc => hc) fun c hc => ?_
    rw [not_exists] at hthere
    have hnot := hthere c
    tauto

/-- Blocks that share no family are valid one behind the other. -/
theorem valid_blocks {bs : List Block} (hnames : ∀ b ∈ bs, IsName b.name)
    (hunique : ∀ b ∈ bs, b.Unique) (hapart : bs.Pairwise Apart) :
    Valid (bs.flatMap Block.lines) where
  unique := (unique_iff bs).mpr
    ⟨hunique, hapart.imp fun h _ _ _ _ heq => absurd heq h.2.1⟩
  described := by
    rw [nodup_descriptions_iff hnames]
    unfold List.Nodup
    rw [List.pairwise_map]
    exact hapart.imp fun h => h.1
  together := together_blocks hnames hapart

/-- Blocks whose samples have the names of the descriptions are valid exactly when the
names are different. -/
theorem valid_named_iff {bs : List Block} (hnames : ∀ b ∈ bs, IsName b.name)
    (hunique : ∀ b ∈ bs, b.Unique) (hsame : ∀ b ∈ bs, b.sampleName = b.name) :
    Valid (bs.flatMap Block.lines) ↔ (bs.map Block.name).Nodup := by
  constructor
  · intro h
    exact (nodup_descriptions_iff hnames).mp h.described
  · intro h
    refine valid_blocks hnames hunique ?_
    unfold List.Nodup at h
    rw [List.pairwise_map] at h
    refine List.Pairwise.imp_of_mem ?_ h
    intro b c hb hc hne
    unfold Apart
    rw [hsame b hb, hsame c hc]
    exact ⟨hne, hne, hne, hne⟩

theorem sublist_blocks {bs : List Block} {b c : Block} (h : [b, c].Sublist bs) {xs ys : List Line}
    (hxs : xs.Sublist b.lines) (hys : ys.Sublist c.lines) :
    (xs ++ ys).Sublist (bs.flatMap Block.lines) := by
  have hblocks := h.flatMap Block.lines
  simp only [List.flatMap_cons, List.flatMap_nil, List.append_nil] at hblocks
  exact (hxs.append hys).trans hblocks

/-- The type of a block, and behind it one of its samples. -/
theorem type_sample_sublist {b : Block} {m : Metric} (hm : m ∈ b.metrics) :
    [describing "TYPE".toList b.name b.fieldType, .sample (sampleOf b.sampleName m)].Sublist
      b.lines := by
  have htype : [describing "TYPE".toList b.name b.fieldType].Sublist b.comments :=
    List.singleton_sublist.mpr (Block.mem_comments_iff.mpr (Or.inr rfl))
  have hsample : [Line.sample (sampleOf b.sampleName m)].Sublist b.samples :=
    List.singleton_sublist.mpr (List.mem_map_of_mem hm)
  exact htype.append hsample

/-- Blocks in the order of their names, whose samples have prefixes of these, share no family
if they are valid. -/
theorem apart_of_valid {bs : List Block} (hnames : ∀ b ∈ bs, IsName b.name)
    (hmetrics : ∀ b ∈ bs, b.metrics ≠ []) (hbegins : ∀ b ∈ bs, b.sampleName <+: b.name)
    (hascending : (bs.map Block.name).Pairwise (· < ·)) (h : Valid (bs.flatMap Block.lines)) :
    bs.Pairwise Apart := by
  rw [List.pairwise_map, List.pairwise_iff_forall_sublist] at hascending
  rw [List.pairwise_iff_forall_sublist]
  intro b c hsub
  have hb : b ∈ bs := hsub.subset (by simp)
  have hc : c ∈ bs := hsub.subset (by simp)
  have hlt : b.name < c.name := hascending hsub
  obtain ⟨m, hm⟩ := List.exists_mem_of_ne_nil _ (hmetrics b hb)
  obtain ⟨n, hn⟩ := List.exists_mem_of_ne_nil _ (hmetrics c hc)
  have htype : ∀ {d : Block}, d ∈ bs →
      (describing "TYPE".toList d.name d.fieldType).family = some d.name :=
    fun hd => family_describing (Or.inr rfl) (hnames _ hd) _
  have hlower : ∀ {n : Text}, n <+: b.name → n ≠ c.name := by
    rintro n hn rfl
    exact hn.le hlt
  have hname : b.name ≠ c.name := hlower (List.prefix_refl _)
  have hsecond : b.sampleName ≠ c.name := hlower (hbegins b hb)
  have hsamples : b.sampleName ≠ c.sampleName := by
    intro heq
    have hthree := sublist_blocks hsub
      ((List.sublist_cons_self _ _).trans (type_sample_sublist hm)) (type_sample_sublist hn)
    rcases (h.together b.sampleName).between hthree rfl (congrArg some heq.symm) with hmid | hmid
    · rw [htype hc, Option.some.injEq] at hmid
      exact hsecond hmid.symm
    · rw [htype hc] at hmid
      cases hmid
  refine ⟨hname, hsamples, hsecond, ?_⟩
  intro heq
  have hthree := sublist_blocks hsub (type_sample_sublist hm)
    ((List.sublist_cons_self _ _).trans (type_sample_sublist hn))
  rcases (h.together b.name).between hthree (htype hb) (congrArg some heq.symm) with hmid | hmid
  · have hsame : b.sampleName = b.name := Option.some.inj hmid
    exact hsamples (hsame.trans heq)
  · cases hmid

theorem valid_prefixed_iff {bs : List Block} (hnames : ∀ b ∈ bs, IsName b.name)
    (hmetrics : ∀ b ∈ bs, b.metrics ≠ []) (hbegins : ∀ b ∈ bs, b.sampleName <+: b.name)
    (hascending : (bs.map Block.name).Pairwise (· < ·)) :
    Valid (bs.flatMap Block.lines) ↔ (∀ b ∈ bs, b.Unique) ∧ bs.Pairwise Apart := by
  constructor
  · intro h
    exact ⟨((unique_iff bs).mp h.unique).1, apart_of_valid hnames hmetrics hbegins hascending h⟩
  · rintro ⟨hunique, hapart⟩
    exact valid_blocks hnames hunique hapart

/-! The lines of a text as they are read. -/

/-- The block with other texts of help, another name of its samples and other values of
their labels. -/
def Block.changed (b : Block) (help name value : Text → Text) : Block :=
  ⟨b.name, b.help.map help, b.fieldType, name b.sampleName,
    b.metrics.map fun m => ⟨m.labels.map fun l => (l.1, value l.2), m.value⟩⟩

/-- A map of lines that fits the comments and the samples changes a block as a whole. -/
theorem map_lines {f : Line → Line} {help name value : Text → Text} {b : Block}
    (hcomment : ∀ keyword n rest, f (describing keyword n rest) = describing keyword n (help rest))
    (hsample : ∀ s : Sample, f (.sample s) = .sample { s with
      name := name s.name, labels := s.labels.map (List.map fun l => (l.1, value l.2)) })
    (htype : help b.fieldType = b.fieldType) :
    b.lines.map f = (b.changed help name value).lines := by
  have hcomments : b.comments.map f = (b.changed help name value).comments := by
    unfold Block.comments Block.changed
    rw [List.map_append, List.map_singleton, hcomment, htype]
    cases b.help with
    | none => rfl
    | some text =>
      have hhelp : [describing "HELP".toList b.name text].map f =
          [describing "HELP".toList b.name (help text)] := by rw [List.map_singleton, hcomment]
      exact congrArg (· ++ _) hhelp
  have hsamples : b.samples.map f = (b.changed help name value).samples := by
    unfold Block.samples Block.changed
    rw [List.map_map, List.map_map]
    refine List.map_congr_left fun m _ => ?_
    simp only [Function.comp_apply, hsample, sampleOf]
    by_cases hlabels : m.labels = []
    · simp [hlabels]
    · simp [hlabels]
  rw [Block.lines, List.map_append, hcomments, hsamples]
  rfl

theorem trimmed_describing (keyword n rest : Text) :
    (describing keyword n rest).trimmed = describing keyword n (stripCr rest) :=
  congrArg Line.comment (stripCr_append_cons (by decide) (' ' :: keyword ++ ' ' :: n) rest)

theorem newline_notMem_escapeHelp (s : Text) : '\n' ∉ escapeHelp s := by
  intro h
  obtain ⟨c, -, hc⟩ := List.mem_flatMap.mp h
  split at hc
  · simp at hc
  · rename_i hslash
    split at hc
    · simp at hc
    · rename_i hline
      exact hline (List.mem_singleton.mp hc).symm

section Families

variable {f : MetricFamily} {fs : List MetricFamily}

theorem wellFormed_sampleOf (hf : f.WellFormed) {m : Metric} (hm : m ∈ f.metrics) :
    (sampleOf f.name m).WellFormed where
  name := hf.isName.1
  labels := by
    rw [labelList_sampleOf]
    exact fun l hl => (hf.isLabelName m hm l hl).1.1
  value := hf.isNumber m hm
  timestamp := by simp [sampleOf]
  isName := hf.isName
  isLabelName := by
    rw [labelList_sampleOf]
    exact hf.isLabelName m hm
  distinct := by
    rw [labelList_sampleOf]
    exact hf.distinct m hm

theorem newline_notMem_describing {keyword name rest : Text} (hkeyword : '\n' ∉ keyword)
    (hname : IsName name) (hrest : '\n' ∉ rest) : (describing keyword name rest).WellFormed := by
  have hn : '\n' ∉ name := fun h => absurd (hname.1 _ h) (by decide)
  have htext : '\n' ∉ ' ' :: keyword ++ ' ' :: name ++ ' ' :: rest := by
    simp [hkeyword, hn, hrest]
  exact htext

theorem wellFormed_block (hf : f.WellFormed) : ∀ l ∈ (block f).lines, l.WellFormed := by
  have htype : '\n' ∉ f.fieldType.lowercase := by
    cases f.fieldType <;> decide
  intro l hl
  rcases List.mem_append.mp hl with hl | hl
  · rcases Block.mem_comments_iff.mp hl with ⟨help, hhelp, rfl⟩ | rfl
    · have heq : help = escapeHelp f.help := by
        unfold block at hhelp
        split at hhelp
        · cases hhelp
        · exact (Option.some.inj hhelp).symm
      rw [heq]
      exact newline_notMem_describing (by decide) hf.isName (newline_notMem_escapeHelp _)
    · exact newline_notMem_describing (by decide) hf.isName htype
  · obtain ⟨m, hm, rfl⟩ := List.mem_map.mp hl
    exact wellFormed_sampleOf hf hm

theorem wellFormed_familyLines (hfs : ∀ f ∈ fs, f.WellFormed) :
    ∀ l ∈ familyLines fs, l.WellFormed := by
  intro l hl
  obtain ⟨b, hb, hl⟩ := List.mem_flatMap.mp hl
  obtain ⟨f, hf, rfl⟩ := List.mem_map.mp hb
  exact wellFormed_block (hfs f hf) l hl

theorem stripCr_lowercase (t : MetricType) : stripCr t.lowercase = t.lowercase := by
  cases t <;> decide

theorem map_familyLines {g : Line → Line} {help name value : Text → Text}
    (hcomment : ∀ keyword n rest, g (describing keyword n rest) = describing keyword n (help rest))
    (hsample : ∀ s : Sample, g (.sample s) = .sample { s with
      name := name s.name, labels := s.labels.map (List.map fun l => (l.1, value l.2)) })
    (htype : ∀ t : MetricType, help t.lowercase = t.lowercase) :
    (familyLines fs).map g =
      (fs.map fun f => (block f).changed help name value).flatMap Block.lines := by
  rw [familyLines, List.map_flatMap, List.flatMap_map, List.flatMap_map]
  exact List.flatMap_congr fun f _ => map_lines hcomment hsample (htype f.fieldType)

/-- The text of families is an exposition exactly when their names are different. -/
theorem isExposition_encode_iff (hfs : ∀ f ∈ fs, f.WellFormed) :
    IsExposition (encode fs) ↔ (fs.map MetricFamily.name).Nodup := by
  have hwell := wellFormed_familyLines hfs
  have hbody : lines (encode fs) = ((familyLines fs).map Line.trimmed).map Line.render := by
    rw [encode, lines_text fun l hl => (hwell l hl).lexical, List.map_map]
    exact List.map_congr_left fun l hl => stripCr_line (hwell l hl).lexical
  have hblocks : (familyLines fs).map Line.trimmed =
      (fs.map fun f => (block f).changed stripCr id id).flatMap Block.lines := by
    refine map_familyLines trimmed_describing ?_ stripCr_lowercase
    intro s
    rw [Line.trimmed]
    cases s with
    | mk name labels value timestamp => cases labels <;> simp
  have htrimmed : ∀ l ∈ (familyLines fs).map Line.trimmed, l.WellFormed := by
    intro l hl
    obtain ⟨k, hk, rfl⟩ := List.mem_map.mp hl
    exact (hwell k hk).trimmed
  rw [isExposition_iff (fun l hl => (htrimmed l hl).lexical) hbody, and_iff_right htrimmed, hblocks,
    valid_named_iff]
  · rw [List.map_map]
    rfl
  · intro b hb
    obtain ⟨f, hf, rfl⟩ := List.mem_map.mp hb
    exact (hfs f hf).isName
  · intro b hb
    obtain ⟨f, hf, rfl⟩ := List.mem_map.mp hb
    have hunique := (hfs f hf).unique
    unfold Block.Unique Block.changed block
    rw [List.pairwise_map]
    simpa using hunique
  · intro b hb
    obtain ⟨f, hf, rfl⟩ := List.mem_map.mp hb
    rfl

/-! Families without the suffixes of their samples. -/

/-- Names keep something when their suffixes are taken off, and no two families share a name
then; the values of the labels of a family's samples still differ. -/
def Separate (fs : List MetricFamily) : Prop :=
  ∀ f ∈ fs, stripName f.name ≠ [] ∧
    (f.metrics.Pairwise fun m n => ¬ (m.labels.map fun l => (l.1, replaceAll l.2)).Perm
      (n.labels.map fun l => (l.1, replaceAll l.2))) ∧
    ∀ g ∈ fs, f.name ≠ g.name →
      stripName f.name ≠ stripName g.name ∧ stripName f.name ≠ g.name

/-- The block of a family as it is read when suffixes were taken off. -/
def strippedBlock (f : MetricFamily) : Block :=
  (block f).changed (stripCr ∘ stripCr) stripName replaceAll

/-- What is left of a name begins as the name does, so it is a name unless it is empty. -/
theorem isName_stripName_iff {n : Text} (hn : IsName n) :
    IsName (stripName n) ↔ stripName n ≠ [] := by
  have hbegins := prefix_stripName n
  constructor
  · exact IsName.ne_nil
  · intro hne
    refine ⟨fun c hc => hn.1 c (hbegins.subset hc), ?_⟩
    have hhead := hn.2
    obtain ⟨t, ht⟩ := hbegins
    obtain ⟨c, m, hcons⟩ := List.exists_cons_of_ne_nil hne
    rw [← ht, hcons, List.cons_append, List.head?_cons] at hhead
    rwa [hcons, List.head?_cons]

theorem separate_iff (hfs : Gathered fs) :
    Separate fs ↔ (∀ f ∈ fs, stripName f.name ≠ []) ∧ (∀ f ∈ fs, (strippedBlock f).Unique) ∧
      (fs.map strippedBlock).Pairwise Apart := by
  have hunique : ∀ f : MetricFamily, (strippedBlock f).Unique ↔
      f.metrics.Pairwise fun m n => ¬ (m.labels.map fun l => (l.1, replaceAll l.2)).Perm
        (n.labels.map fun l => (l.1, replaceAll l.2)) := by
    intro f
    unfold Block.Unique strippedBlock Block.changed block
    rw [List.pairwise_map]
  have hascending := hfs.ascending
  rw [List.pairwise_map] at hascending
  have happly : ∀ f g : MetricFamily, Apart (strippedBlock f) (strippedBlock g) ↔
      f.name ≠ g.name ∧ stripName f.name ≠ stripName g.name ∧ stripName f.name ≠ g.name ∧
        f.name ≠ stripName g.name := fun f g => Iff.rfl
  rw [List.pairwise_map]
  constructor
  · intro h
    refine ⟨fun f hf => (h f hf).1, fun f hf => (hunique f).mpr (h f hf).2.1, ?_⟩
    refine List.Pairwise.imp_of_mem ?_ hascending
    intro f g hf hg hlt
    have hne : f.name ≠ g.name := by
      intro heq
      rw [heq] at hlt
      exact List.lt_irrefl _ hlt
    have hfg := (h f hf).2.2 g hg hne
    have hgf := (h g hg).2.2 f hf hne.symm
    exact (happly f g).mpr ⟨hne, hfg.1, hfg.2, hgf.2.symm⟩
  · rintro ⟨hne, huniq, hapart⟩ f hf
    refine ⟨hne f hf, (hunique f).mp (huniq f hf), ?_⟩
    intro g hg hname
    have hsymm : Std.Symm fun a b : MetricFamily => Apart (strippedBlock a) (strippedBlock b) :=
      ⟨fun _ _ h => ⟨h.1.symm, h.2.1.symm, h.2.2.2.symm, h.2.2.1.symm⟩⟩
    have hfg : f ≠ g := fun heq => hname (by rw [heq])
    obtain ⟨-, h₂, h₃, -⟩ := hapart.forall hf hg hfg
    exact ⟨h₂, h₃⟩

/-- The last line of a text of families is one of a sample. -/
theorem exists_last_sample (hfs : ∀ f ∈ fs, f.WellFormed) (hne : fs ≠ []) :
    ∃ ls s, familyLines fs = ls ++ [.sample s] := by
  obtain ⟨front, f, rfl⟩ := (List.eq_nil_or_concat fs).resolve_left hne
  rw [List.concat_eq_append] at hfs ⊢
  have hmetrics := (hfs f (by simp)).nonempty
  obtain ⟨ms, m, hms⟩ := (List.eq_nil_or_concat f.metrics).resolve_left hmetrics
  refine ⟨familyLines front ++ ((block f).comments ++ ms.map fun m => .sample (sampleOf f.name m)),
    sampleOf f.name m, ?_⟩
  have hlines : (block f).lines =
      (block f).comments ++ ms.map (fun m => .sample (sampleOf f.name m)) ++
        [.sample (sampleOf f.name m)] := by
    unfold Block.lines Block.samples
    rw [List.append_assoc]
    simp [block, hms]
  rw [familyLines, List.map_append, List.flatMap_append, List.map_singleton, List.flatMap_singleton,
    hlines, familyLines, ← List.append_assoc]

/-- The lines of a text without suffixes, but for its last one. -/
theorem lines_stripped_append (hfs : ∀ f ∈ fs, f.WellFormed) {ls : List Line} {s : Sample}
    (hlast : familyLines fs = ls ++ [.sample s]) (rest : Text) :
    lines (stripPrometheusSuffixes (encode fs) ++ rest) =
      (ls.map fun l => (outcome l).trimmed.render) ++ lines ((stripped s).render ++ rest) := by
  have hlexical : ∀ l ∈ familyLines fs, l.Lexical := fun l hl =>
    (wellFormed_familyLines hfs l hl).lexical
  have hls : ∀ l ∈ ls, (outcome l).Lexical := fun l hl =>
    outcome_lexical (hlexical l (by rw [hlast]; exact List.mem_append_left _ hl))
  have hnewline : ∀ l ∈ ls.map (fun l => (outcome l).render), '\n' ∉ l := by
    intro line hline
    obtain ⟨l, hl, rfl⟩ := List.mem_map.mp hline
    exact newline_notMem_render (hls l hl)
  rw [encode, stripPrometheusSuffixes_text hlexical, hlast, List.map_append, List.map_singleton,
    lines_joinLines_append hnewline, List.map_map]
  refine congrArg (· ++ _) (List.map_congr_left fun l hl => stripCr_line (hls l hl))

/-- A stripped sample is well formed as long as some of its name is left. -/
theorem wellFormed_stripped_iff {s : Sample} (hs : s.WellFormed) :
    (stripped s).WellFormed ↔ stripName s.name ≠ [] := by
  have hlist : (stripped s).labelList = s.labelList.map fun l => (l.1, replaceAll l.2) :=
    Sample.labelList_map rfl
  constructor
  · intro h
    exact h.isName.ne_nil
  · intro hne
    exact {
      toLexical := lexical_stripped hs.toLexical
      isName := (isName_stripName_iff hs.isName).mpr hne
      isLabelName := by
        rw [hlist]
        intro l hl
        obtain ⟨k, hk, rfl⟩ := List.mem_map.mp hl
        exact hs.isLabelName k hk
      distinct := by
        rw [hlist, List.map_map]
        exact hs.distinct }

theorem sample_mem_familyLines_iff (s : Sample) :
    Line.sample s ∈ familyLines fs ↔ ∃ f ∈ fs, ∃ m ∈ f.metrics, s = sampleOf f.name m := by
  have hcomments : ∀ f : MetricFamily, Line.sample s ∉ (block f).comments := by
    intro f hmem
    rcases Block.mem_comments_iff.mp hmem with ⟨help, -, h⟩ | h <;> cases h
  have hblock : ∀ f : MetricFamily, Line.sample s ∈ (block f).lines ↔
      ∃ m ∈ f.metrics, s = sampleOf f.name m := by
    intro f
    rw [Block.lines, List.mem_append, or_iff_right (hcomments f), Block.samples, List.mem_map]
    simp only [Line.sample.injEq, eq_comm (a := s)]
    rfl
  rw [familyLines, List.flatMap_map, List.mem_flatMap]
  exact exists_congr fun f => and_congr_right fun _ => hblock f

/-- The lines of the stripped text are lines of the format exactly when no name is empty. -/
theorem wellFormed_outcome_iff (hfs : ∀ f ∈ fs, f.WellFormed) :
    (∀ l ∈ (familyLines fs).map fun l => (outcome l).trimmed, l.WellFormed) ↔
      ∀ f ∈ fs, stripName f.name ≠ [] := by
  rw [List.forall_mem_map]
  constructor
  · intro h f hf
    obtain ⟨m, hm⟩ := List.exists_mem_of_ne_nil _ (hfs f hf).nonempty
    have hsample := h (.sample (sampleOf f.name m))
      ((sample_mem_familyLines_iff _).mpr ⟨f, hf, m, hm, rfl⟩)
    exact (wellFormed_stripped_iff (wellFormed_sampleOf (hfs f hf) hm)).mp hsample
  · intro h l hl
    cases l with
    | comment text =>
      exact newline_notMem_stripCr (newline_notMem_stripCr (wellFormed_familyLines hfs _ hl))
    | sample s =>
      obtain ⟨f, hf, m, hm, rfl⟩ := (sample_mem_familyLines_iff s).mp hl
      exact (wellFormed_stripped_iff (wellFormed_sampleOf (hfs f hf) hm)).mpr (h f hf)

theorem lines_stripped (hfs : ∀ f ∈ fs, f.WellFormed) (hne : fs ≠ []) :
    lines (stripPrometheusSuffixes (encode fs)) =
      ((familyLines fs).map fun l => (outcome l).trimmed).map Line.render := by
  obtain ⟨ls, s, hlast⟩ := exists_last_sample hfs hne
  have hs : s.Lexical := (wellFormed_familyLines hfs (.sample s) (by rw [hlast]; simp)).lexical
  have hlines := lines_stripped_append hfs hlast []
  have hrender := lines_open (Sample.newline_notMem_render (lexical_stripped hs))
    (by simp [Sample.render])
  rw [List.append_nil, List.append_nil, hrender] at hlines
  rw [hlines, hlast, List.map_append, List.map_append, List.map_map]
  rfl

/-- The lines of the stripped text are again blocks of a family each. -/
theorem map_outcome_familyLines (fs : List MetricFamily) :
    ((familyLines fs).map fun l => (outcome l).trimmed) =
      (fs.map strippedBlock).flatMap Block.lines := by
  refine map_familyLines ?_ (fun s => rfl) ?_
  · intro keyword n rest
    have houtcome : outcome (describing keyword n rest) =
        (describing keyword n rest).trimmed := rfl
    rw [houtcome, trimmed_describing, trimmed_describing]
    rfl
  · intro t
    rw [Function.comp_apply, stripCr_lowercase, stripCr_lowercase]

/-- Without suffixes the encoding is valid exactly when the families stay separate. -/
theorem isExposition_stripped_iff (hfs : Gathered fs) (hne : fs ≠ []) :
    IsExposition (stripPrometheusSuffixes (encode fs)) ↔ Separate fs := by
  have hlexical : ∀ l ∈ (familyLines fs).map (fun l => (outcome l).trimmed), l.Lexical := by
    intro l hl
    obtain ⟨k, hk, rfl⟩ := List.mem_map.mp hl
    exact (outcome_lexical (wellFormed_familyLines hfs.families k hk).lexical).trimmed
  rw [isExposition_iff hlexical (lines_stripped hfs.families hne), separate_iff hfs]
  refine and_congr (wellFormed_outcome_iff hfs.families) ?_
  rw [map_outcome_familyLines, valid_prefixed_iff]
  · rw [List.forall_mem_map]
  · intro b hb
    obtain ⟨f, hf, rfl⟩ := List.mem_map.mp hb
    exact (hfs.families f hf).isName
  · intro b hb
    obtain ⟨f, hf, rfl⟩ := List.mem_map.mp hb
    simpa [strippedBlock, Block.changed, block] using (hfs.families f hf).nonempty
  · intro b hb
    obtain ⟨f, hf, rfl⟩ := List.mem_map.mp hb
    exact prefix_stripName f.name
  · rw [List.map_map]
    exact hfs.ascending

/-- Nothing that begins as a comment can be put behind a text without its last newline. -/
theorem not_isExposition_glued (hfs : ∀ f ∈ fs, f.WellFormed) (hne : fs ≠ []) (rest : Text) :
    ¬ IsExposition (stripPrometheusSuffixes (encode fs) ++ '#' :: rest) := by
  obtain ⟨ls, s, hlast⟩ := exists_last_sample hfs hne
  have hs : s.Lexical := (wellFormed_familyLines hfs (.sample s) (by rw [hlast]; simp)).lexical
  have hstripped := lexical_stripped hs
  rintro ⟨ms, hms, hlines, -⟩
  rw [lines_stripped_append hfs hlast] at hlines
  obtain ⟨x, more, hglued⟩ := lines_append_cons
    (Sample.newline_notMem_render hstripped) (c := '#') (by decide) rest
  rw [hglued] at hlines
  have hmem : (stripped s).render ++ '#' :: x ∈ ms.map Line.render := by
    rw [← hlines]
    simp
  obtain ⟨l, hl, hrender⟩ := List.mem_map.mp hmem
  cases l with
  | comment text =>
    have hhead : ((stripped s).render ++ '#' :: x).head? = (stripped s).render.head? := by
      rw [List.head?_append_of_ne_nil _ (by simp [Sample.render])]
    rw [← hrender] at hhead
    exact hash_ne_head_render hstripped hhead.symm
  | sample t =>
    have ht : t.Lexical := (hms _ hl).toLexical
    have heq : t.render ++ [] = (stripped s).render ++ '#' :: x := by
      rw [List.append_nil]
      exact hrender
    have hnumbers := (render_append_inj ht hstripped heq).2.2
    rw [List.append_nil] at hnumbers
    have hhash : '#' ∈ t.numbers := by
      rw [hnumbers]
      simp
    exact absurd (mem_numbers ht hhash) (by decide)

/-- The text of families begins with the comments of the first one. -/
theorem exists_hash_stripped (hfs : ∀ f ∈ fs, f.WellFormed) (hne : fs ≠ []) :
    ∃ rest, stripPrometheusSuffixes (encode fs) = '#' :: rest := by
  obtain ⟨f, gs, rfl⟩ := List.exists_cons_of_ne_nil hne
  have hcomments : ∃ text more, (block f).comments = .comment text :: more := by
    unfold Block.comments
    cases (block f).help with
    | none => exact ⟨_, _, rfl⟩
    | some help => exact ⟨_, _, rfl⟩
  obtain ⟨text, more, hcomments⟩ := hcomments
  have hlines : ∃ rest, familyLines (f :: gs) = .comment text :: rest := by
    rw [familyLines, List.map_cons, List.flatMap_cons, Block.lines, hcomments]
    exact ⟨_, rfl⟩
  obtain ⟨rest, hlines⟩ := hlines
  have hlexical : ∀ l ∈ familyLines (f :: gs), l.Lexical := fun l hl =>
    (wellFormed_familyLines hfs l hl).lexical
  rw [encode, stripPrometheusSuffixes_text hlexical, hlines, List.map_cons]
  by_cases hnil : rest.map (fun l => (outcome l).render) = []
  · rw [hnil, joinLines_singleton]
    exact ⟨_, rfl⟩
  · rw [joinLines_cons hnil]
    exact ⟨_, rfl⟩

end Families

/-! The metrics of all nodes. -/

theorem valid_nil : Valid [] where
  unique := List.Pairwise.nil
  described := List.nodup_nil
  together _ := together_of_absent (by simp)

theorem encode_flatten (fss : List (List MetricFamily)) :
    encode fss.flatten = (fss.map encode).flatten := by
  induction fss with
  | nil => rfl
  | cons fs fss ih =>
    rw [List.flatten_cons, List.map_cons, List.flatten_cons, ← ih]
    simp [encode, familyLines, text]

/-- The families of a node have different names already. -/
theorem nodup_flatten_iff {fss : List (List MetricFamily)} (hfss : ∀ fs ∈ fss, Gathered fs) :
    (fss.flatten.map MetricFamily.name).Nodup ↔
      fss.Pairwise fun fs gs => ∀ f ∈ fs, ∀ g ∈ gs, f.name ≠ g.name := by
  have hone : ∀ fs ∈ fss, fs.Pairwise fun f g => f.name ≠ g.name := by
    intro fs hfs
    have hascending := (hfss fs hfs).ascending
    rw [List.pairwise_map] at hascending
    refine hascending.imp fun {f g} hlt heq => ?_
    rw [heq] at hlt
    exact List.lt_irrefl _ hlt
  unfold List.Nodup
  rw [List.pairwise_map, List.pairwise_flatten]
  exact and_iff_right hone

section Stripped

variable {fss : List (List MetricFamily)}

/-- Texts without their last newline, one behind the other. -/
theorem isExposition_nonempty_iff (hfss : ∀ fs ∈ fss, Gathered fs) (hne : ∀ fs ∈ fss, fs ≠ []) :
    IsExposition (fss.map fun fs => stripPrometheusSuffixes (encode fs)).flatten ↔
      fss.length ≤ 1 ∧ ∀ fs ∈ fss, Separate fs := by
  cases fss with
  | nil => exact iff_of_true ⟨[], by simp, rfl, valid_nil⟩ ⟨by simp, by simp⟩
  | cons fs fss =>
    have hfs := hfss fs (List.mem_cons_self ..)
    cases fss with
    | nil =>
      have hiff := isExposition_stripped_iff hfs (hne fs (List.mem_cons_self ..))
      simpa using hiff
    | cons gs fss =>
      refine iff_of_false ?_ fun h => absurd h.1 (by simp)
      have hgs := List.mem_cons_of_mem fs (List.mem_cons_self (a := gs) (l := fss))
      obtain ⟨rest, hrest⟩ := exists_hash_stripped (hfss gs hgs).families (hne gs hgs)
      have hglued := not_isExposition_glued hfs.families (hne fs (List.mem_cons_self ..))
        (rest ++ (fss.map fun fs => stripPrometheusSuffixes (encode fs)).flatten)
      simpa [hrest] using hglued

/-- A node without families adds nothing. -/
theorem flatten_filter (fss : List (List MetricFamily)) :
    (fss.map fun fs => stripPrometheusSuffixes (encode fs)).flatten =
      ((fss.filter (!·.isEmpty)).map fun fs => stripPrometheusSuffixes (encode fs)).flatten := by
  induction fss with
  | nil => rfl
  | cons fs fss ih =>
    cases fs with
    | nil =>
      have hnil : stripPrometheusSuffixes (encode []) = [] := rfl
      simpa [hnil] using ih
    | cons f fs => simpa using ih

/-- The last newline is missing without suffixes, so at most one text may have lines. -/
theorem isExposition_joined_iff (hfss : ∀ fs ∈ fss, Gathered fs) :
    IsExposition (fss.map fun fs => stripPrometheusSuffixes (encode fs)).flatten ↔
      (fss.filter (!·.isEmpty)).length ≤ 1 ∧ ∀ fs ∈ fss, Separate fs := by
  have hsub : ∀ fs ∈ fss.filter (!·.isEmpty), fs ∈ fss ∧ fs ≠ [] := by
    intro fs hfs
    rw [List.mem_filter] at hfs
    refine ⟨hfs.1, ?_⟩
    rintro rfl
    exact absurd hfs.2 (by simp)
  have hseparate : (∀ fs ∈ fss.filter (!·.isEmpty), Separate fs) ↔ ∀ fs ∈ fss, Separate fs := by
    constructor
    · intro h fs hfs
      cases fs with
      | nil => exact fun f hf => absurd hf List.not_mem_nil
      | cons f fs => exact h _ (List.mem_filter.mpr ⟨hfs, by simp⟩)
    · exact fun h fs hfs => h fs (hsub fs hfs).1
  rw [flatten_filter, isExposition_nonempty_iff (fun fs hfs => hfss fs (hsub fs hfs).1)
    (fun fs hfs => (hsub fs hfs).2), hseparate]

end Stripped

def encodeNode (gathered : NodeState → List MetricFamily) (node : NodeState) :
    Except String Text := .ok (encode (gathered node))

/-- No family name is in two registries. Without suffixes at most one node has families, and
they are separate. -/
def Joinable (noSuffix : Bool) (fss : List (List MetricFamily)) : Prop :=
  if noSuffix then (fss.filter (!·.isEmpty)).length ≤ 1 ∧ ∀ fs ∈ fss, Separate fs
  else fss.Pairwise fun fs gs => ∀ f ∈ fs, ∀ g ∈ gs, f.name ≠ g.name

/-- When the metrics of all nodes are a valid exposition. -/
theorem all_metrics_exposition_iff (ps : PrometheusState) {gathered : NodeState → List MetricFamily}
    {nodes : Nodes} (hgathered : ∀ node ∈ nodes.allNodes, Gathered (gathered node)) :
    ∃ body, handleAllMetrics ps (encodeNode gathered) nodes = .metrics body ∧
      (IsExposition body ↔ Joinable ps.noSuffix (nodes.allNodes.map gathered)) := by
  have hfss : ∀ fs ∈ nodes.allNodes.map gathered, Gathered fs := by
    intro fs hfs
    obtain ⟨node, hnode, rfl⟩ := List.mem_map.mp hfs
    exact hgathered node hnode
  have htexts : nodes.allNodes.map (encodeNode gathered) =
      ((nodes.allNodes.map gathered).map encode).map Except.ok := by
    rw [List.map_map, List.map_map]
    rfl
  refine ⟨(Prometheus.served ps ((nodes.allNodes.map gathered).map encode)).flatten, ?_, ?_⟩
  · rw [handleAllMetrics, Prometheus.allText_eq (Prometheus.nodeText_eq htexts),
      Prometheus.respond]
  · unfold Prometheus.served Joinable
    cases ps.noSuffix with
    | false =>
      have hall : ∀ f ∈ (nodes.allNodes.map gathered).flatten, f.WellFormed := by
        intro f hf
        obtain ⟨fs, hfs, hf⟩ := List.mem_flatten.mp hf
        exact (hfss fs hfs).families f hf
      have hiff := isExposition_encode_iff hall
      rw [nodup_flatten_iff hfss, encode_flatten] at hiff
      simpa [Function.comp_def] using hiff
    | true =>
      have hiff := isExposition_joined_iff hfss
      rw [List.map_map]
      simpa [Function.comp_def] using hiff

def gauge (name : String) : MetricFamily := ⟨name.toList, name.toList, .gauge, [⟨[], "1".toList⟩]⟩

theorem gathered_gauge {name : String} (hname : IsName name.toList) : Gathered [gauge name] where
  families := by
    intro f hf
    rw [List.mem_singleton.mp hf]
    have hvalue : IsNumber "1".toList := by decide
    exact {
      isName := hname
      nonempty := by simp [gauge]
      isLabelName := by simp [gauge]
      distinct := by simp [gauge]
      isNumber := by simpa [gauge] using hvalue
      unique := by simp [gauge] }
  ascending := by simp

/-- Two nodes with a metric each, under names of their own. -/
theorem all_metrics_exposition_iff_two :
    ∃ body, handleAllMetrics ⟨none, false, "localhost", 3000⟩
        (encodeNode fun node => [gauge node.name]) Prometheus.twoNodes = .metrics body ∧
      (IsExposition body ↔
        Joinable false (Prometheus.twoNodes.allNodes.map fun node => [gauge node.name])) := by
  have hnames : ∀ node ∈ Prometheus.twoNodes.allNodes, IsName node.name.toList := by decide +kernel
  exact all_metrics_exposition_iff ⟨none, false, "localhost", 3000⟩
    fun node hnode => gathered_gauge (hnames node hnode)

/-- Two nodes with a metric of one name. -/
theorem same_metric_twice :
    ∃ body, handleAllMetrics ⟨none, false, "localhost", 3000⟩
        (encodeNode fun _ => [gauge "up"]) Prometheus.twoNodes = .metrics body ∧
      body = "# HELP up up\n# TYPE up gauge\nup 1\n# HELP up up\n# TYPE up gauge\nup 1\n".toList ∧
      ¬ IsExposition body := by
  have hname : IsName "up".toList := by decide
  refine ⟨encode [gauge "up", gauge "up"], rfl, by decide +kernel, ?_⟩
  rw [isExposition_encode_iff]
  · decide
  · intro f hf
    refine (gathered_gauge hname).families f ?_
    simpa using hf

end Hermod.AggregateMetrics
