import Hermod.TextLines
import Hermod.TracerState
import Mathlib.Data.List.AList

/-!
The HTTP server for metrics: a page that lists the connected nodes, the targets for
service discovery, and the metrics of one node or of all of them. Gathering and encoding
a registry is a parameter. Metrics are served with or without the suffixes of their names.
-/
namespace Hermod.Prometheus

open TracerState TextLines

/-- Replace occurrences from the left; `skip` characters belong to the last one. -/
def replaceFrom (pat rep : Text) : ℕ → Text → Text
  | _, [] => []
  | skip + 1, _ :: cs => replaceFrom pat rep skip cs
  | 0, c :: cs =>
    if pat.isPrefixOf (c :: cs) then rep ++ replaceFrom pat rep (pat.length - 1) cs
    else c :: replaceFrom pat rep 0 cs

def replace (pat rep : String) (s : Text) : Text := replaceFrom pat.toList rep.toList 0 s

def stripLine (line : Text) : Text :=
  if line.head? = some '#' then line
  else
    replace "_double\x7b" "\x7b" (replace "_double " " " (replace "_int\x7b" "\x7b"
      (replace "_int " " " (replace "_total\x7b" "\x7b" (replace "_total " " " line)))))

def stripPrometheusSuffixes (text : Text) : Text := joinLines ((lines text).map stripLine)

structure PrometheusState where
  extraLabels : Option (List (String × String))
  noSuffix : Bool
  endpointHost : String
  endpointPort : UInt16

structure NodeEntry where
  id : String
  slug : NodeSlug
  metricsPath : String
  deriving DecidableEq

structure Target where
  targets : List String
  labels : AList fun _ : String => String

inductive Response
  | html (body : String)
  | nodes (entries : List NodeEntry)
  | targets (targets : List Target)
  /-- The text exposition format. -/
  | metrics (body : Text)
  | error (status : ℕ) (body : Text)

def rootHtml (nodes : List (String × NodeSlug)) : String :=
  "<html><head><title>hermod-tracer</title></head><body><h1>Connected nodes</h1><ul>" ++
    (if nodes = [] then "<li><em>No nodes connected</em></li>" else "") ++
    String.join (nodes.map fun n => "<li><a href=\"/" ++ n.2 ++ "\">" ++ n.1 ++ "</a></li>") ++
    "</ul></body></html>"

def handleRoot (wantsJson : Bool) (nodes : Nodes) : Response :=
  if wantsJson then .nodes (nodes.nodeList.map fun n => ⟨n.1, n.2, "/" ++ n.2⟩)
  else .html (rootHtml nodes.nodeList)

/-- The labels of a target; those of the configuration replace others of the same name. -/
def targetLabels (ps : PrometheusState) (name : String) (slug : NodeSlug) :
    AList fun _ : String => String :=
  (ps.extraLabels.getD []).foldl (fun labels l => labels.insert l.1 l.2)
    (((∅ : AList fun _ : String => String).insert "__metrics_path__" ("/" ++ slug)).insert
      "node_name" name)

def handleTargets (ps : PrometheusState) (nodes : Nodes) : Response :=
  .targets (nodes.nodeList.map fun n =>
    ⟨[ps.endpointHost ++ ":" ++ toString ps.endpointPort], targetLabels ps n.1 n.2⟩)

section Metrics

variable (ps : PrometheusState) (encode : NodeState → Except String Text)

def nodeText (node : NodeState) : Except String Text := do
  let text ← encode node
  pure (if ps.noSuffix then stripPrometheusSuffixes text else text)

def allText : List NodeState → Except String Text
  | [] => pure []
  | node :: nodes => do
    let text ← nodeText ps encode node
    let output ← allText nodes
    pure (text ++ output)

def respond : Except String Text → Response
  | .ok body => .metrics body
  | .error e => .error 500 ("Encode error: " ++ e).toList

def handleAllMetrics (nodes : Nodes) : Response := respond (allText ps encode nodes.allNodes)

def handleNodeMetrics (nodes : Nodes) (slug : NodeSlug) : Response :=
  match nodes.findBySlug slug with
  | none => .error 404 ("No node with slug '" ++ slug ++ "'").toList
  | some node => respond (nodeText ps encode node)

end Metrics

inductive Route
  | root
  | targets
  | metrics
  | slug (slug : NodeSlug)
  deriving DecidableEq

/-- The route of a path without escapes. Fixed paths come before the parameter, which
stands for one segment that is not empty. -/
def route (path : String) : Option Route :=
  if path = "/" then some .root
  else if path = "/targets" then some .targets
  else if path = "/metrics" then some .metrics
  else
    match path.toList with
    | '/' :: segment =>
      if segment ≠ [] ∧ '/' ∉ segment then some (.slug (String.ofList segment)) else none
    | _ => none

def get (ps : PrometheusState) (encode : NodeState → Except String Text) (wantsJson : Bool)
    (nodes : Nodes) (path : String) : Response :=
  match route path with
  | some .root => handleRoot wantsJson nodes
  | some .targets => handleTargets ps nodes
  | some .metrics => handleAllMetrics ps encode nodes
  | some (.slug slug) => handleNodeMetrics ps encode nodes slug
  | none => .error 404 []

/-! What stripping does to the lines of a text. -/

/-- Replacing brings in no character but those of the replacement. -/
theorem mem_replaceFrom {pat rep s : Text} {skip : ℕ} {c : Char}
    (h : c ∈ replaceFrom pat rep skip s) : c ∈ rep ∨ c ∈ s := by
  induction s generalizing skip with
  | nil => cases skip <;> simp [replaceFrom] at h
  | cons d s ih =>
    cases skip with
    | succ skip =>
      rcases ih h with h | h
      · exact Or.inl h
      · exact Or.inr (List.mem_cons_of_mem d h)
    | zero =>
      rw [replaceFrom] at h
      split at h
      · rcases List.mem_append.mp h with h | h
        · exact Or.inl h
        · rcases ih h with h | h
          · exact Or.inl h
          · exact Or.inr (List.mem_cons_of_mem d h)
      · rcases List.mem_cons.mp h with rfl | h
        · exact Or.inr (List.mem_cons_self ..)
        · rcases ih h with h | h
          · exact Or.inl h
          · exact Or.inr (List.mem_cons_of_mem d h)

theorem replace_eq_nil_iff {pat rep : String} (hrep : rep.toList ≠ []) {s : Text} :
    replace pat rep s = [] ↔ s = [] := by
  cases s with
  | nil => simp [replace, replaceFrom]
  | cons c s =>
    unfold replace replaceFrom
    split
    · simp [hrep]
    · simp

theorem newline_notMem_replace {pat rep : String} (hrep : '\n' ∉ rep.toList) {s : Text}
    (hs : '\n' ∉ s) : '\n' ∉ replace pat rep s := by
  intro h
  rcases mem_replaceFrom h with h | h
  · exact hrep h
  · exact hs h

theorem stripLine_eq_nil_iff {line : Text} : stripLine line = [] ↔ line = [] := by
  unfold stripLine
  split
  · exact Iff.rfl
  · simp [replace_eq_nil_iff]

theorem newline_notMem_stripLine {line : Text} (h : '\n' ∉ line) : '\n' ∉ stripLine line := by
  unfold stripLine
  split
  · exact h
  · have hspace : '\n' ∉ " ".toList := by decide
    have hbrace : '\n' ∉ "\x7b".toList := by decide
    exact newline_notMem_replace hbrace (newline_notMem_replace hspace
      (newline_notMem_replace hbrace (newline_notMem_replace hspace
        (newline_notMem_replace hbrace (newline_notMem_replace hspace h)))))

def OpenEnded (text : Text) : Prop := (lines text).getLast?.any (· ≠ []) = true

instance (text : Text) : Decidable (OpenEnded text) := inferInstanceAs (Decidable (_ = true))

def Blank (text : Text) : Prop := lines text = [] ∨ lines text = [[]]

instance (text : Text) : Decidable (Blank text) := inferInstanceAs (Decidable (_ ∨ _))

/-- Joining leaves out the final newline. -/
theorem open_stripPrometheusSuffixes_iff (text : Text) :
    Open (stripPrometheusSuffixes text) ↔ OpenEnded text := by
  have hlines : ∀ l ∈ (lines text).map stripLine, '\n' ∉ l := by
    intro l hl
    obtain ⟨line, hline, rfl⟩ := List.mem_map.mp hl
    exact newline_notMem_stripLine (newline_notMem_of_mem_lines hline)
  rw [stripPrometheusSuffixes, open_joinLines_iff hlines, OpenEnded, List.getLast?_map]
  cases (lines text).getLast? with
  | none => simp
  | some line => simp [stripLine_eq_nil_iff]

/-- Only a blank text is left with nothing. -/
theorem stripPrometheusSuffixes_eq_nil_iff (text : Text) :
    stripPrometheusSuffixes text = [] ↔ Blank text := by
  rw [stripPrometheusSuffixes, joinLines_eq_nil_iff, Blank, List.map_eq_nil_iff]
  refine or_congr Iff.rfl ?_
  constructor
  · intro h
    obtain ⟨line, hline, hnil⟩ := List.map_eq_singleton_iff.mp h
    rw [hline, stripLine_eq_nil_iff.mp hnil]
  · intro h
    rw [h]
    rfl

/-! The metrics of all nodes, line by line. -/

/-- Suffixes are kept, or no text whose last line is not empty has another that is not
blank behind it. -/
def Unmerged (noSuffix : Bool) (texts : List Text) : Prop :=
  noSuffix = true → texts.Pairwise fun t u => OpenEnded t → Blank u

section Texts

variable {ps : PrometheusState} {encode : NodeState → Except String Text}
  {nodes : List NodeState} {texts : List Text}

def served (ps : PrometheusState) (texts : List Text) : List Text :=
  texts.map fun t => if ps.noSuffix then stripPrometheusSuffixes t else t

theorem nodeText_eq (h : nodes.map encode = texts.map Except.ok) :
    nodes.map (nodeText ps encode) = (served ps texts).map Except.ok := by
  have hnode : nodeText ps encode =
      (fun r => r.map fun t => if ps.noSuffix then stripPrometheusSuffixes t else t) ∘ encode := by
    funext node
    simp only [nodeText, Function.comp_apply]
    cases encode node <;> rfl
  rw [hnode, ← List.map_map, h, served, List.map_map, List.map_map]
  rfl

/-- The texts of all nodes are put together in the order of the nodes. -/
theorem allText_eq {bodies : List Text}
    (h : nodes.map (nodeText ps encode) = bodies.map Except.ok) :
    allText ps encode nodes = .ok bodies.flatten := by
  induction nodes generalizing bodies with
  | nil =>
    rw [List.map_nil] at h
    rw [List.map_eq_nil_iff.mp h.symm]
    rfl
  | cons node nodes ih =>
    cases bodies with
    | nil => simp at h
    | cons body bodies =>
      rw [List.map_cons, List.map_cons, List.cons.injEq] at h
      rw [allText, h.1, ih h.2]
      rfl

/-- Texts that end with a newline run together only where that is taken off with the suffixes. -/
theorem unmerged_iff (hend : ∀ t ∈ texts, ¬ Open t) :
    ((served ps texts).Pairwise fun t u => Open t → u = []) ↔ Unmerged ps.noSuffix texts := by
  unfold served
  cases h : ps.noSuffix with
  | true =>
    simp [Unmerged, List.pairwise_map, open_stripPrometheusSuffixes_iff,
      stripPrometheusSuffixes_eq_nil_iff]
  | false =>
    refine iff_of_true ?_ (by simp [Unmerged])
    simp only [Bool.false_eq_true, if_false, List.map_id']
    exact List.pairwise_of_forall_mem_list fun t ht u _ hopen => absurd hopen (hend t ht)

end Texts

/-- The lines of the metrics of all nodes are those served for each node in turn exactly
when no two of them are merged. -/
theorem all_metrics_lines_iff {ps : PrometheusState} {encode : NodeState → Except String Text}
    {nodes : Nodes} {texts : List Text} (htexts : nodes.allNodes.map encode = texts.map Except.ok)
    (hend : ∀ t ∈ texts, ¬ Open t) :
    ∃ (body : Text) (bodies : List Text), handleAllMetrics ps encode nodes = .metrics body ∧
      (nodes.allNodes.map fun node => respond (nodeText ps encode node)) =
        bodies.map Response.metrics ∧
      (lines body = (bodies.map lines).flatten ↔ Unmerged ps.noSuffix texts) := by
  have hnodes : nodes.allNodes.map (nodeText ps encode) = (served ps texts).map Except.ok :=
    nodeText_eq htexts
  refine ⟨(served ps texts).flatten, served ps texts, ?_, ?_, ?_⟩
  · rw [handleAllMetrics, allText_eq hnodes, respond]
  · have hrespond := congrArg (List.map respond) hnodes
    rwa [List.map_map, List.map_map] at hrespond
  · rw [lines_flatten_iff]
    exact unmerged_iff hend

def twoNodes : Nodes :=
  (IndexMap.empty.insert "unix-1" (.new .ascii "unix-1" "one" 0)).insert "unix-2"
    (.new .ascii "unix-2" "two" 1)

/-- With suffixes the two lines stay apart. -/
theorem all_metrics_lines_iff_two :
    ∃ (body : Text) (bodies : List Text),
      handleAllMetrics ⟨none, false, "localhost", 3000⟩
        (fun n => .ok (n.name ++ " 1\n").toList) twoNodes = .metrics body ∧
      (lines body = (bodies.map lines).flatten ↔
        Unmerged false ["one 1\n".toList, "two 1\n".toList]) := by
  obtain ⟨body, bodies, hbody, -, hlines⟩ :=
    @all_metrics_lines_iff ⟨none, false, "localhost", 3000⟩
      (fun n => .ok (n.name ++ " 1\n").toList) twoNodes ["one 1\n".toList, "two 1\n".toList]
      rfl (by decide)
  exact ⟨body, bodies, hbody, hlines⟩

/-- Without them the last line of one node and the first of the next become one. -/
theorem two_nodes_merged :
    ∃ body b c, handleAllMetrics ⟨none, true, "localhost", 3000⟩
        (fun n => .ok (n.name ++ "_total 1\n").toList) twoNodes = .metrics body ∧
      twoNodes.allNodes.map (fun node => respond (nodeText ⟨none, true, "localhost", 3000⟩
        (fun n => .ok (n.name ++ "_total 1\n").toList) node)) = [.metrics b, .metrics c] ∧
      lines b ++ lines c = ["one 1".toList, "two 1".toList] ∧
      lines body = ["one 1two 1".toList] ∧ lines body ≠ lines b ++ lines c :=
  ⟨_, _, _, rfl, rfl, by decide, by decide, by decide⟩

end Hermod.Prometheus
