import Hermod.Connections
import Hermod.MachineLog
import Hermod.MetricsPaths

/-!
The connected nodes as JSON, for service discovery and as a list. Whatever the names of the
nodes and the labels of the configuration contain, the text that is served is read back as
one target, and as one entry, for each connection, in the order of their registration.
-/
namespace Hermod.ServiceDiscovery

open JsonText MachineLog MetricsPaths Prometheus TracerState Transitions
open TextLines (Text)

/-- Maps are written in the order of their keys. -/
def labelsJson (labels : AList fun _ : String => String) : Json :=
  .object ((labels.entries.mergeSort fun l l' => l.1 ≤ l'.1).map fun l =>
    (l.1.toList, .string l.2.toList))

def targetJson (t : Target) : Json :=
  .object [
    ("labels".toList, labelsJson t.labels),
    ("targets".toList, .array (t.targets.map fun s => .string s.toList))]

def entryJson (e : NodeEntry) : Json :=
  .object [
    ("id".toList, .string e.id.toList),
    ("metrics_path".toList, .string e.metricsPath.toList),
    ("slug".toList, .string e.slug.toList)]

def body : Response → Text
  | .html body => body.toList
  | .nodes entries => (Json.object [("nodes".toList, .array (entries.map entryJson))]).write
  | .targets targets => (Json.array (targets.map targetJson)).write
  | .metrics body => body
  | .error _ body => body

/-! What a reader makes of the texts. -/

structure ReadTarget where
  targets : List String
  label : String → Option String

def readTarget (v : Json) : Option ReadTarget := do
  let targets ← (v.get "targets".toList).bind stringsOf
  let labels ← v.get "labels".toList
  some ⟨targets, fun name => (labels.get name.toList).bind stringOf⟩

def readTargets (finite : Text → Bool) (text : Text) : Option (List ReadTarget) :=
  match fromStr finite text with
  | some (.array items) => items.mapM readTarget
  | _ => none

def readEntry (v : Json) : Option NodeEntry := do
  let id ← (v.get "id".toList).bind stringOf
  let slug ← (v.get "slug".toList).bind stringOf
  let path ← (v.get "metrics_path".toList).bind stringOf
  some ⟨id, slug, path⟩

def readNodes (finite : Text → Bool) (text : Text) : Option (List NodeEntry) := do
  match (← fromStr finite text).get "nodes".toList with
  | some (.array items) => items.mapM readEntry
  | _ => none

/-- The label of a node: the last one of the configuration with that name, or else its name
or its path. -/
def label (ps : PrometheusState) (n : NodeState) (name : String) : Option String :=
  match (ps.extraLabels.getD []).reverse.find? fun l => l.1 = name with
  | some l => some l.2
  | none =>
    if name = "node_name" then some n.name
    else if name = "__metrics_path__" then some (metricsPath n)
    else none

/-! Labels. -/

/-- The last of the labels with a name counts. -/
theorem lookup_foldl_insert_last (ls : List (String × String))
    (labels : AList fun _ : String => String) (name : String) :
    (ls.foldl (fun labels l => labels.insert l.1 l.2) labels).lookup name =
      match ls.reverse.find? fun l => l.1 = name with
      | some l => some l.2
      | none => labels.lookup name := by
  induction ls using List.reverseRecOn with
  | nil => rfl
  | append_singleton ls l ih =>
    rw [List.foldl_concat, List.reverse_concat]
    by_cases hl : l.1 = name
    · have hfind : (l :: ls.reverse).find? (fun l => l.1 = name) = some l :=
        List.find?_cons_of_pos (decide_eq_true hl)
      rw [hfind, ← hl, AList.lookup_insert]
    · have hfind : (l :: ls.reverse).find? (fun l => l.1 = name) =
          ls.reverse.find? fun l => l.1 = name := List.find?_cons_of_neg (by simpa using hl)
      rw [hfind, AList.lookup_insert_ne (Ne.symm hl), ih]

theorem lookup_targetLabels_eq (ps : PrometheusState) (n : NodeState) (name : String) :
    (targetLabels ps n.name n.slug).lookup name = label ps n name := by
  rw [targetLabels, lookup_foldl_insert_last, label]
  split
  · rfl
  · by_cases hname : name = "node_name"
    · rw [if_pos hname, hname, AList.lookup_insert]
    · rw [if_neg hname, AList.lookup_insert_ne hname]
      by_cases hpath : name = "__metrics_path__"
      · rw [if_pos hpath, hpath, AList.lookup_insert, metricsPath]
      · rw [if_neg hpath, AList.lookup_insert_ne hpath, AList.lookup_empty]

/-- Labels are read back from their object, in whatever order they stand. -/
theorem get_labelsJson (labels : AList fun _ : String => String) (name : String) :
    ((labelsJson labels).get name.toList).bind stringOf = labels.lookup name := by
  have hperm : (labels.entries.mergeSort fun l l' => l.1 ≤ l'.1).Perm labels.entries :=
    List.mergeSort_perm _ _
  rw [labelsJson]
  generalize hfields : ((labels.entries.mergeSort fun l l' => l.1 ≤ l'.1).map fun l =>
    (l.1.toList, Json.string l.2.toList)) = fields
  have hmem : ∀ f, f ∈ fields ↔ ∃ l ∈ labels.entries, (l.1.toList, .string l.2.toList) = f := by
    intro f
    rw [← hfields, List.mem_map]
    exact exists_congr fun l => and_congr_left' hperm.mem_iff
  have hnodup : (fields.map Prod.fst).Nodup := by
    have hkeys : (labels.keys.map String.toList).Nodup :=
      labels.keys_nodup.map fun _ _ h => String.toList_inj.mp h
    rw [← hfields, List.map_map]
    refine (hperm.map _).nodup_iff.mpr ?_
    rw [AList.keys, List.keys, List.map_map] at hkeys
    exact hkeys
  cases hlookup : labels.lookup name with
  | some v =>
    have hentry : Sigma.mk name v ∈ labels.entries := AList.mem_lookup_iff.mp hlookup
    rw [Json.get_eq hnodup ((hmem _).mpr ⟨_, hentry, rfl⟩), Option.bind_some, stringOf_string]
  | none =>
    have hnone : (Json.object fields).get name.toList = none := by
      rw [Json.get, Option.map_eq_none_iff, List.find?_eq_none]
      intro f hf hname
      obtain ⟨l, hl, rfl⟩ := (hmem f).mp (List.mem_reverse.mp hf)
      have hkey : l.1 = name := String.toList_inj.mp (of_decide_eq_true hname)
      have hentry : l.2 ∈ labels.lookup l.1 := AList.mem_lookup_iff.mpr hl
      rw [hkey, hlookup] at hentry
      cases hentry
    rw [hnone]
    rfl

/-! Targets and entries. -/

theorem readTarget_targetJson (t : Target) :
    readTarget (targetJson t) = some ⟨t.targets, t.labels.lookup⟩ := by
  have hnodup : (["labels", "targets"].map String.toList).Nodup := by decide
  have hlabels : (targetJson t).get "labels".toList = some (labelsJson t.labels) := by
    apply Json.get_eq
    · exact hnodup
    · exact List.mem_cons_self ..
  have htargets : (targetJson t).get "targets".toList =
      some (.array (t.targets.map fun s => .string s.toList)) := by
    apply Json.get_eq
    · exact hnodup
    · exact List.mem_cons_of_mem _ (List.mem_cons_self ..)
  rw [readTarget, htargets, hlabels]
  simp only [Option.bind_eq_bind, Option.bind_some, stringsOf_strings]
  rw [Option.some.injEq, ReadTarget.mk.injEq]
  exact ⟨rfl, funext fun name => get_labelsJson t.labels name⟩

theorem readEntry_entryJson (e : NodeEntry) : readEntry (entryJson e) = some e := by
  have hnodup : (["id", "metrics_path", "slug"].map String.toList).Nodup := by decide
  have hget : ∀ (name : String) (s : Text), (name.toList, Json.string s) ∈ [
      ("id".toList, Json.string e.id.toList),
      ("metrics_path".toList, .string e.metricsPath.toList),
      ("slug".toList, .string e.slug.toList)] →
      (entryJson e).get name.toList = some (.string s) := by
    intro name s hmem
    apply Json.get_eq
    · exact hnodup
    · exact hmem
  have hid := hget "id" e.id.toList (by simp)
  have hpath := hget "metrics_path" e.metricsPath.toList (by simp)
  have hslug := hget "slug" e.slug.toList (by simp)
  simp only [readEntry, hid, hpath, hslug, Option.bind_eq_bind, Option.bind_some, stringOf_string]

theorem readable_targetJson (finite : Text → Bool) (t : Target) :
    (targetJson t).Readable finite 126 := by
  intro f hf
  simp only [List.mem_cons, List.not_mem_nil, or_false] at hf
  rcases hf with rfl | rfl
  · intro l hl
    obtain ⟨l', -, rfl⟩ := List.mem_map.mp hl
    trivial
  · intro v hv
    obtain ⟨s, -, rfl⟩ := List.mem_map.mp hv
    trivial

theorem readable_entryJson (finite : Text → Bool) (e : NodeEntry) :
    (entryJson e).Readable finite 125 := by
  intro f hf
  simp only [List.mem_cons, List.not_mem_nil, or_false] at hf
  rcases hf with rfl | rfl | rfl
  all_goals trivial

theorem mapM_eq_map {α β γ : Type} {f : β → Option γ} {g : α → β} {r : α → γ}
    (h : ∀ a, f (g a) = some (r a)) (l : List α) : (l.map g).mapM f = some (l.map r) := by
  induction l with
  | nil => rfl
  | cons a l ih => rw [List.map_cons, List.mapM_cons, h, ih]; rfl

/-- Targets are read back. -/
theorem readTargets_body (finite : Text → Bool) (targets : List Target) :
    readTargets finite (body (.targets targets)) =
      some (targets.map fun t => ⟨t.targets, t.labels.lookup⟩) := by
  have hread : (Json.array (targets.map targetJson)).Readable finite maxDepth := by
    intro v hv
    obtain ⟨t, -, rfl⟩ := List.mem_map.mp hv
    exact readable_targetJson finite t
  rw [readTargets, body, fromStr_write hread]
  exact mapM_eq_map readTarget_targetJson targets

/-- The list of nodes is read back. -/
theorem readNodes_body (finite : Text → Bool) (nodes : List NodeEntry) :
    readNodes finite (body (.nodes nodes)) = some nodes := by
  have hread : (Json.object [("nodes".toList, .array (nodes.map entryJson))]).Readable finite
      maxDepth := by
    intro f hf
    obtain rfl := List.mem_singleton.mp hf
    intro v hv
    obtain ⟨e, -, rfl⟩ := List.mem_map.mp hv
    exact readable_entryJson finite e
  have hget : (Json.object [("nodes".toList, .array (nodes.map entryJson))]).get "nodes".toList =
      some (.array (nodes.map entryJson)) := by
    apply Json.get_eq
    · exact List.nodup_singleton _
    · exact List.mem_singleton_self _
  simp only [readNodes, body, fromStr_write hread, Option.bind_eq_bind, Option.bind_some, hget]
  rw [mapM_eq_map readEntry_entryJson, List.map_id']

/-- In every state of a run in which no connection takes the id of another one that is served,
the targets and the list of nodes are read back as the connections that are served, in the
order of their registration, with all their names. -/
theorem listing_read {c : Connections.Config} {es : List Connections.Event}
    {s : Connections.System}
    (hfree : Along (Connections.System.step c) Connections.System.Unclaimed
      Connections.System.start es)
    (h : run (Connections.System.step c) Connections.System.start es = some s)
    (finite : Text → Bool) (ps : PrometheusState) (encode : NodeState → Except String Text)
    (wantsJson : Bool) :
    ∀ m, Reached (Connections.System.step c) Connections.System.start es m →
      readTargets finite (body (Prometheus.get ps encode wantsJson m.nodes "/targets")) =
        some ((m.registered.filterMap m.entry).map fun e =>
          ⟨[ps.endpointHost ++ ":" ++ toString ps.endpointPort], label ps e.2⟩) ∧
      readNodes finite (body (Prometheus.get ps encode true m.nodes "/")) =
        some ((m.registered.filterMap m.entry).map fun e =>
          ⟨e.2.name, e.2.slug, metricsPath e.2⟩) := by
  intro m hreached
  have hlisted := Connections.System.listed_of_unclaimed hfree h m hreached
  rw [← hlisted]
  constructor
  · show readTargets finite (body (handleTargets ps m.nodes)) = _
    rw [handleTargets, readTargets_body, Nodes.nodeList, IndexMap.values]
    simp only [List.map_map]
    congr 1
    apply List.map_congr_left
    intro e _
    simp only [Function.comp_apply]
    rw [ReadTarget.mk.injEq]
    exact ⟨rfl, funext fun name => lookup_targetLabels_eq ps e.2 name⟩
  · show readNodes finite (body (handleRoot true m.nodes)) = _
    rw [handleRoot_json, readNodes_body, Nodes.allNodes, IndexMap.values, List.map_map]
    rfl

theorem listing_read_twoConnections :
    let c : Connections.Config :=
      ⟨.ascii, .acceptAt (.localPipe "/tmp/hermod.sock".toList), 0, false⟩
    let ps : PrometheusState := ⟨some [("node_name", "\"one\""), ("a", "b")], false, "h", 12798⟩
    let encode : NodeState → Except String Text := fun _ => .ok []
    ∃ s, run (Connections.System.step c) Connections.System.start
        (Connections.System.twoConnections.take 7) = some s ∧
      readTargets (fun _ => true) (body (Prometheus.get ps encode false s.nodes "/targets")) =
        some ((s.registered.filterMap s.entry).map fun e =>
          ⟨[ps.endpointHost ++ ":" ++ toString ps.endpointPort], label ps e.2⟩) ∧
      readNodes (fun _ => true) (body (Prometheus.get ps encode true s.nodes "/")) =
        some ((s.registered.filterMap s.entry).map fun e =>
          ⟨e.2.name, e.2.slug, metricsPath e.2⟩) ∧
      (s.registered.filterMap s.entry).map Prod.fst = ["unix-2", "unix-1"] := by
  intro c ps encode
  obtain ⟨s, hrun⟩ : ∃ s, run (Connections.System.step c) Connections.System.start
      (Connections.System.twoConnections.take 7) = some s :=
    Option.isSome_iff_exists.mp (by decide +kernel)
  have hids : (run (Connections.System.step c) Connections.System.start
      (Connections.System.twoConnections.take 7)).map (fun s =>
        (s.registered.filterMap s.entry).map Prod.fst) = some ["unix-2", "unix-1"] := by
    decide +kernel
  rw [hrun, Option.map_some, Option.some.injEq] at hids
  have hshort : Connections.System.Distinguishes (Connections.System.twoConnections.take 7)
      c.network := by
    show List.length _ < 2 ^ 64
    decide
  obtain ⟨htargets, hnodes⟩ := listing_read (Connections.System.along_unclaimed hshort) hrun
    (fun _ => true) ps encode false s ⟨_, List.prefix_refl _, hrun⟩
  exact ⟨s, hrun, htargets, hnodes, hids⟩

end Hermod.ServiceDiscovery
