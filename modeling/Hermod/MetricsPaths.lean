import Hermod.Prometheus
import Hermod.Transitions

/-!
The path that is advertised for a node, and what is served under it, over all runs in
which nodes are registered and deregistered. Slugs are made from display names alone, so
two nodes can share one, a slug can be a fixed path, and it keeps letters that a URL
cannot hold.
-/
namespace Hermod.MetricsPaths

open TracerState TextLines Prometheus Transitions

/-- The connected nodes, with the number of nodes made so far, which tells apart the
registries of nodes with the same id and name. -/
structure Registry where
  nodes : Nodes
  created : ℕ

inductive Event
  | register (id : NodeId) (name : String)
  | deregister (id : NodeId)
  deriving DecidableEq

namespace Registry

def start : Registry := ⟨IndexMap.empty, 0⟩

def step (u : Unicode) (r : Registry) : Event → Option Registry
  | .register id name =>
    some ⟨r.nodes.register (.new u id name r.created), r.created + 1⟩
  | .deregister id => some { r with nodes := r.nodes.deregister id }

end Registry

def metricsPath (n : NodeState) : String := "/" ++ n.slug

def UrlSafe (slug : NodeSlug) : Prop := ∀ c ∈ slug.toList, c.isAlphanum = true ∨ c = '-'

instance (slug : NodeSlug) : Decidable (UrlSafe slug) :=
  inferInstanceAs (Decidable (∀ _ ∈ _, _))

def servedAt (nodes : Nodes) (path : String) : Option NodeState :=
  match route path with
  | some (.slug slug) => nodes.findBySlug slug
  | _ => none

/-- The path of every connected node is safe and leads to that node. -/
def ServesOwn (r : Registry) : Prop :=
  ∀ n ∈ r.nodes.allNodes, UrlSafe n.slug ∧ servedAt r.nodes (metricsPath n) = some n

def AsciiName (u : Unicode) (name : String) : Prop :=
  ∀ c ∈ u.toLowercase name.toList, u.isAlphanumeric c = true → c.isAlphanum = true ∨ c = '-'

instance (u : Unicode) (name : String) : Decidable (AsciiName u name) :=
  inferInstanceAs (Decidable (∀ _ ∈ _, _))

/-- The name registered is ASCII, and its slug is neither that of a fixed path nor that
of a node connected under another id. -/
def Distinguished (u : Unicode) (r : Registry) : Event → Prop
  | .register id name => AsciiName u name ∧
      slugify u name ≠ "targets" ∧ slugify u name ≠ "metrics" ∧
      ∀ n ∈ r.nodes.allNodes, n.slug = slugify u name → n.id = id
  | .deregister _ => True

/-! The characters of a slug. -/

theorem mem_collapse {lastWasDash : Bool} {cs : List Char} {c : Char}
    (h : c ∈ collapse lastWasDash cs) : c ∈ cs := by
  induction cs generalizing lastWasDash with
  | nil => simp [collapse] at h
  | cons d cs ih =>
    unfold collapse at h
    split at h
    · split at h
      · exact List.mem_cons_of_mem d (ih h)
      · rcases List.mem_cons.mp h with rfl | h
        · rename_i hd _
          simp [hd]
        · exact List.mem_cons_of_mem d (ih h)
    · rcases List.mem_cons.mp h with rfl | h
      · exact List.mem_cons_self ..
      · exact List.mem_cons_of_mem d (ih h)

/-- Only dashes are collapsed. -/
theorem mem_collapse_of_ne {lastWasDash : Bool} {cs : List Char} {c : Char} (hc : c ≠ '-')
    (h : c ∈ cs) : c ∈ collapse lastWasDash cs := by
  induction cs generalizing lastWasDash with
  | nil => exact absurd h List.not_mem_nil
  | cons d cs ih =>
    unfold collapse
    rcases List.mem_cons.mp h with rfl | h
    · simp [hc]
    · split
      · split
        · exact ih h
        · exact List.mem_cons_of_mem _ (ih h)
      · exact List.mem_cons_of_mem _ (ih h)

def raw (u : Unicode) (name : String) : List Char :=
  (u.toLowercase name.toList).map fun c => if u.isAlphanumeric c then c else '-'

/-- A slug is the collapsed name up to a final dash, or the letter that stands for none. -/
theorem slugify_toList (u : Unicode) (name : String) :
    ∃ result, (collapse true (raw u name) = result ∨ collapse true (raw u name) = result ++ ['-']) ∧
      (slugify u name).toList = if result = [] then ['x'] else result := by
  by_cases hdash : (collapse true (raw u name)).getLast? = some '-'
  · refine ⟨(collapse true (raw u name)).dropLast, Or.inr ?_, ?_⟩
    · rw [List.dropLast_append_getLast? _ hdash]
    · rw [raw] at hdash ⊢
      simp only [slugify, hdash, if_true, String.toList_ofList]
  · refine ⟨collapse true (raw u name), Or.inl rfl, ?_⟩
    rw [raw] at hdash ⊢
    simp only [slugify, hdash, if_false, String.toList_ofList]

theorem slugify_ne_nil (u : Unicode) (name : String) : (slugify u name).toList ≠ [] := by
  obtain ⟨result, -, hslug⟩ := slugify_toList u name
  rw [hslug]
  split
  · simp
  · assumption

/-- A slug has characters of the raw name, or is the placeholder. -/
theorem mem_slugify {u : Unicode} {name : String} {c : Char} (h : c ∈ (slugify u name).toList) :
    c = 'x' ∨ c ∈ raw u name := by
  obtain ⟨result, hresult, hslug⟩ := slugify_toList u name
  rw [hslug] at h
  split at h
  · exact Or.inl (List.mem_singleton.mp h)
  · right
    rcases hresult with hresult | hresult
    · exact mem_collapse (hresult ▸ h)
    · have hmem : c ∈ collapse true (raw u name) := by
        rw [hresult]
        exact List.mem_append_left _ h
      exact mem_collapse hmem

/-- Nothing but dashes is dropped from a name. -/
theorem mem_slugify_of_mem_raw {u : Unicode} {name : String} {c : Char} (hc : c ≠ '-')
    (h : c ∈ raw u name) : c ∈ (slugify u name).toList := by
  obtain ⟨result, hresult, hslug⟩ := slugify_toList u name
  have hmem : c ∈ result := by
    have hcollapse : c ∈ collapse true (raw u name) := mem_collapse_of_ne hc h
    rcases hresult with hresult | hresult
    · rwa [hresult] at hcollapse
    · rw [hresult] at hcollapse
      simpa [hc] using hcollapse
  rw [hslug, if_neg (List.ne_nil_of_mem hmem)]
  exact hmem

/-- A slug is safe exactly when the name it is made from has ASCII letters and digits only. -/
theorem urlSafe_slugify_iff (u : Unicode) (name : String) :
    UrlSafe (slugify u name) ↔ AsciiName u name := by
  constructor
  · intro h c hc halnum
    by_cases hdash : c = '-'
    · exact Or.inr hdash
    · apply h c
      apply mem_slugify_of_mem_raw hdash
      exact List.mem_map.mpr ⟨c, hc, if_pos halnum⟩
  · intro h c hc
    rcases mem_slugify hc with rfl | hraw
    · exact Or.inl (by decide)
    · obtain ⟨d, hd, rfl⟩ := List.mem_map.mp hraw
      by_cases halnum : u.isAlphanumeric d = true
      · rw [if_pos halnum]
        exact h d hd halnum
      · rw [if_neg halnum]
        exact Or.inr rfl

/-! What is advertised, and where it leads. -/

theorem handleRoot_json (nodes : Nodes) :
    handleRoot true nodes =
      .nodes (nodes.allNodes.map fun n => ⟨n.name, n.slug, metricsPath n⟩) := by
  simp [handleRoot, Nodes.nodeList, Nodes.allNodes, metricsPath]

theorem metricsPath_eq_iff {n : NodeState} {s : String} :
    metricsPath n = "/" ++ s ↔ n.slug = s := by
  rw [metricsPath, ← String.toList_inj, ← String.toList_inj]
  simp

/-- A safe slug that is no fixed path is routed to its node. -/
theorem route_metricsPath {n : NodeState} (hsafe : UrlSafe n.slug) (hnil : n.slug ≠ "")
    (htargets : n.slug ≠ "targets") (hmetrics : n.slug ≠ "metrics") :
    route (metricsPath n) = some (.slug n.slug) := by
  have hslash : '/' ∉ n.slug.toList := by
    intro h
    rcases hsafe '/' h with halnum | hdash
    · exact absurd halnum (by decide)
    · exact absurd hdash (by decide)
  have hroot : metricsPath n ≠ "/" := fun h => hnil (metricsPath_eq_iff.mp h)
  have htargets' : metricsPath n ≠ "/targets" := fun h => htargets (metricsPath_eq_iff.mp h)
  have hmetrics' : metricsPath n ≠ "/metrics" := fun h => hmetrics (metricsPath_eq_iff.mp h)
  have hpath : (metricsPath n).toList = '/' :: n.slug.toList := by simp [metricsPath]
  rw [route, if_neg hroot, if_neg htargets', if_neg hmetrics', hpath]
  simp [hnil, hslash]

/-- A safe path leads to the first node with its slug, unless the path is fixed. -/
theorem servedAt_iff {nodes : Nodes} {n : NodeState} (hsafe : UrlSafe n.slug) :
    servedAt nodes (metricsPath n) = some n ↔ n.slug ≠ "" ∧ n.slug ≠ "targets" ∧
      n.slug ≠ "metrics" ∧ nodes.findBySlug n.slug = some n := by
  by_cases hfixed : n.slug = "" ∨ n.slug = "targets" ∨ n.slug = "metrics"
  · have hroute : ∀ slug, route (metricsPath n) ≠ some (.slug slug) := by
      intro slug
      rcases hfixed with h | h | h
      · have hpath : metricsPath n = "/" := by rw [metricsPath, h]; rfl
        simp [route, hpath]
      · have hpath : metricsPath n = "/targets" := by rw [metricsPath, h]; rfl
        simp [route, hpath]
      · have hpath : metricsPath n = "/metrics" := by rw [metricsPath, h]; rfl
        simp [route, hpath]
    refine iff_of_false ?_ (by tauto)
    intro h
    unfold servedAt at h
    split at h
    · rename_i slug hslug
      exact hroute slug hslug
    · simp at h
  · push Not at hfixed
    obtain ⟨hnil, htargets, hmetrics⟩ := hfixed
    rw [servedAt, route_metricsPath hsafe hnil htargets hmetrics]
    exact ⟨fun h => ⟨hnil, htargets, hmetrics, h⟩, fun h => h.2.2.2⟩

theorem ServesOwn.slug_unique {r : Registry} (hr : ServesOwn r) {m n : NodeState}
    (hm : m ∈ r.nodes.allNodes) (hn : n ∈ r.nodes.allNodes) (hslug : m.slug = n.slug) : m = n := by
  have hfound := (hr m hm).2
  rw [metricsPath, hslug, ← metricsPath, (hr n hn).2, Option.some.injEq] at hfound
  exact hfound.symm

def OwnPath (slug : NodeSlug) : Prop :=
  UrlSafe slug ∧ slug ≠ "" ∧ slug ≠ "targets" ∧ slug ≠ "metrics"

/-- Nodes are served under their paths when these are not fixed and differ. -/
theorem servesOwn_iff {r : Registry} :
    ServesOwn r ↔ (∀ n ∈ r.nodes.allNodes, OwnPath n.slug) ∧
      ∀ m ∈ r.nodes.allNodes, ∀ n ∈ r.nodes.allNodes, m.slug = n.slug → m = n := by
  constructor
  · intro hr
    refine ⟨?_, fun m hm n hn hslug => hr.slug_unique hm hn hslug⟩
    intro n hn
    have hurl := (hr n hn).1
    obtain ⟨hnil, htargets, hmetrics, -⟩ := (servedAt_iff hurl).mp (hr n hn).2
    exact ⟨hurl, hnil, htargets, hmetrics⟩
  · intro h n hn
    obtain ⟨hown, hunique⟩ := h
    obtain ⟨hurl, hnil, htargets, hmetrics⟩ := hown n hn
    have hfind : r.nodes.findBySlug n.slug = some n :=
      System.findBySlug_eq_some hn fun m hm hslug => hunique m hm n hn hslug
    exact ⟨hurl, (servedAt_iff hurl).mpr ⟨hnil, htargets, hmetrics, hfind⟩⟩

/-! The two steps. -/

def Inv (r : Registry) : Prop := ∀ k n, (k, n) ∈ r.nodes.entries → n.id = k

/-- A node that registers takes the place of the one under its id. -/
theorem mem_allNodes_register {nodes : Nodes} {n m : NodeState}
    (hkeys : ∀ k m, (k, m) ∈ nodes.entries → m.id = k) :
    m ∈ (nodes.register n).allNodes ↔ m = n ∨ (m.id ≠ n.id ∧ m ∈ nodes.allNodes) := by
  simp only [Nodes.allNodes, Nodes.register, IndexMap.mem_values, IndexMap.mem_insert]
  constructor
  · intro h
    obtain ⟨k, ⟨-, rfl⟩ | ⟨hk, hmem⟩⟩ := h
    · exact Or.inl rfl
    · exact Or.inr ⟨by rwa [hkeys k m hmem], k, hmem⟩
  · intro h
    rcases h with rfl | ⟨hid, k, hmem⟩
    · exact ⟨m.id, Or.inl ⟨rfl, rfl⟩⟩
    · exact ⟨k, Or.inr ⟨by rwa [← hkeys k m hmem], hmem⟩⟩

/-- What a new node has under its id, every node keeps. -/
theorem entries_step {u : Unicode} {r r' : Registry} {e : Event} {P : NodeId → NodeState → Prop}
    (hnew : ∀ id name created, P id (NodeState.new u id name created))
    (hr : ∀ k n, (k, n) ∈ r.nodes.entries → P k n) (h : r.step u e = some r') :
    ∀ k n, (k, n) ∈ r'.nodes.entries → P k n := by
  intro k n hmem
  cases e with
  | register id name =>
    rw [Registry.step, Option.some.injEq] at h
    rw [← h] at hmem
    rcases IndexMap.mem_insert.mp hmem with ⟨rfl, rfl⟩ | ⟨-, hold⟩
    · exact hnew _ _ _
    · exact hr k n hold
  | deregister id =>
    rw [Registry.step, Option.some.injEq] at h
    rw [← h] at hmem
    exact hr k n (IndexMap.mem_shiftRemove.mp hmem).2

theorem inv_step {u : Unicode} {r r' : Registry} {e : Event} (hr : Inv r)
    (h : r.step u e = some r') : Inv r' :=
  entries_step (fun _ _ _ => rfl) hr h

theorem ownPath_slugify_iff {u : Unicode} {name : String} :
    OwnPath (slugify u name) ↔
      AsciiName u name ∧ slugify u name ≠ "targets" ∧ slugify u name ≠ "metrics" := by
  have hnil : slugify u name ≠ "" := by
    intro hempty
    exact slugify_ne_nil u name (by rw [hempty]; rfl)
  rw [OwnPath, urlSafe_slugify_iff]
  simp [hnil]

/-- Registering keeps every path right exactly when the new node is distinguished. -/
theorem servesOwn_register_iff {u : Unicode} {r r' : Registry} {id : NodeId} {name : String}
    (hinv : Inv r) (hr : ServesOwn r) (h : r.step u (.register id name) = some r') :
    ServesOwn r' ↔ Distinguished u r (.register id name) := by
  rw [Registry.step, Option.some.injEq] at h
  subst h
  set n := NodeState.new u id name r.created with hn
  have hmem : ∀ m, m ∈ (r.nodes.register n).allNodes ↔
      m = n ∨ (m.id ≠ id ∧ m ∈ r.nodes.allNodes) := fun m => mem_allNodes_register hinv
  have hnew : n ∈ (r.nodes.register n).allNodes := (hmem n).mpr (Or.inl rfl)
  have hslug : OwnPath n.slug ↔ _ := ownPath_slugify_iff
  rw [servesOwn_iff] at hr ⊢
  constructor
  · intro hall
    obtain ⟨hascii, htargets, hmetrics⟩ := hslug.mp (hall.1 n hnew)
    refine ⟨hascii, htargets, hmetrics, ?_⟩
    intro m hm hsame
    by_contra hid
    have hm' : m ∈ (r.nodes.register n).allNodes := (hmem m).mpr (Or.inr ⟨hid, hm⟩)
    have heq : m = n := hall.2 m hm' n hnew hsame
    exact hid (by rw [heq, hn]; rfl)
  · intro hdist
    obtain ⟨hascii, htargets, hmetrics, hother⟩ := hdist
    refine ⟨?_, ?_⟩
    · intro m hm
      rcases (hmem m).mp hm with rfl | ⟨-, hold⟩
      · exact hslug.mpr ⟨hascii, htargets, hmetrics⟩
      · exact hr.1 m hold
    · intro m hm m' hm' hsame
      rcases (hmem m).mp hm with rfl | ⟨hid, hold⟩
      · rcases (hmem m').mp hm' with rfl | ⟨hid', hold'⟩
        · rfl
        · exact absurd (hother m' hold' hsame.symm) hid'
      · rcases (hmem m').mp hm' with rfl | ⟨hid', hold'⟩
        · exact absurd (hother m hold hsame) hid
        · exact hr.2 m hold m' hold' hsame

/-- A node that goes takes no path from the others. -/
theorem servesOwn_deregister {u : Unicode} {r r' : Registry} {id : NodeId} (hr : ServesOwn r)
    (h : r.step u (.deregister id) = some r') : ServesOwn r' := by
  rw [Registry.step, Option.some.injEq] at h
  have hsub : ∀ m ∈ r'.nodes.allNodes, m ∈ r.nodes.allNodes := by
    intro m hm
    rw [← h] at hm
    obtain ⟨k, hk⟩ := IndexMap.mem_values.mp hm
    exact IndexMap.mem_values.mpr ⟨k, (IndexMap.mem_shiftRemove.mp hk).2⟩
  rw [servesOwn_iff] at hr ⊢
  exact ⟨fun m hm => hr.1 m (hsub m hm), fun m hm m' hm' => hr.2 m (hsub m hm) m' (hsub m' hm')⟩

theorem servesOwn_step_iff {u : Unicode} {r r' : Registry} {e : Event} (hinv : Inv r)
    (hr : ServesOwn r) (h : r.step u e = some r') : ServesOwn r' ↔ Distinguished u r e := by
  cases e with
  | register id name => exact servesOwn_register_iff hinv hr h
  | deregister id => exact iff_of_true (servesOwn_deregister hr h) trivial

/-- At every moment each connected node is served under its own safe path exactly when
every registration brings an ASCII name whose slug is free. -/
theorem servesOwn_iff_distinguished (u : Unicode) {es : List Event} {t : Registry}
    (h : run (Registry.step u) .start es = some t) :
    (∀ r, Reached (Registry.step u) .start es r → ServesOwn r) ↔
      Along (Registry.step u) (Distinguished u) .start es := by
  refine reached_iff_along (I := Inv) ?_ ?_ ?_ h
  · intro r e r' hinv hr hstep
    exact ⟨inv_step hinv hstep, servesOwn_step_iff hinv hr hstep⟩
  · intro k n hmem
    exact absurd hmem List.not_mem_nil
  · intro n hn
    exact absurd hn List.not_mem_nil

def twoNodes (second : String) : List Event :=
  [.register "10.0.0.1:3001" "relay-1", .register "10.0.0.2:3001" second]

theorem servesOwn_iff_distinguished_two :
    run (Registry.step .ascii) .start (twoNodes "relay-2") =
        some ⟨(IndexMap.empty.insert "10.0.0.1:3001"
            (.new .ascii "10.0.0.1:3001" "relay-1" 0)).insert "10.0.0.2:3001"
            (.new .ascii "10.0.0.2:3001" "relay-2" 1), 2⟩ ∧
      ((∀ r, Reached (Registry.step .ascii) .start (twoNodes "relay-2") r → ServesOwn r) ↔
        Along (Registry.step .ascii) (Distinguished .ascii) .start (twoNodes "relay-2")) :=
  ⟨rfl, servesOwn_iff_distinguished .ascii rfl⟩

/-- Two names with one slug: the path of the second node leads to the first one. -/
theorem same_slug_not_servesOwn :
    ∃ r, run (Registry.step .ascii) .start (twoNodes "Relay 1") = some r ∧ ¬ ServesOwn r := by
  refine ⟨_, rfl, ?_⟩
  intro h
  have hmem : NodeState.new .ascii "10.0.0.2:3001" "Relay 1" 1 ∈
      [NodeState.new .ascii "10.0.0.1:3001" "relay-1" 0,
        NodeState.new .ascii "10.0.0.2:3001" "Relay 1" 1] := by simp
  exact absurd (h _ hmem).2 (by decide)

end Hermod.MetricsPaths
