import Hermod.Html
import Hermod.MetricsPaths

/-!
The page that lists the connected nodes, as a browser reads it. The names of the nodes come
from the nodes themselves and are put into the page as they are. Those without markup and
references are read as text, and all others change what the page consists of.
-/
namespace Hermod.StatusPage

open TracerState Html MetricsPaths Transitions
open TextLines (Text)
open Prometheus (rootHtml handleRoot)

def opened (name : String) : Token := .startTag name.toList [] false

def closed (name : String) : Token := .endTag name.toList

def chars (s : String) : List Token := s.toList.map .char

def headTokens : List Token :=
  [opened "html", opened "head", opened "title"] ++ chars "hermod-tracer" ++
    [closed "title", closed "head", opened "body", opened "h1"] ++ chars "Connected nodes" ++
    [closed "h1", opened "ul"]

def placeholderTokens : List Token :=
  [opened "li", opened "em"] ++ chars "No nodes connected" ++ [closed "em", closed "li"]

def itemTokens (n : String × NodeSlug) : List Token :=
  [opened "li", .startTag "a".toList [("href".toList, '/' :: n.2.toList)] false] ++ chars n.1 ++
    [closed "a", closed "li"]

def footTokens : List Token := [closed "ul", closed "body", closed "html"]

def pageTokens (nodes : List (String × NodeSlug)) : List Token :=
  headTokens ++ (if nodes = [] then placeholderTokens else []) ++ nodes.flatMap itemTokens ++
    footTokens

def readPage (T : Tables) (body : String) : List Token := tokens T (normalise body.toList)

def Shows (T : Tables) (body : String) (nodes : List (String × NodeSlug)) : Prop :=
  readPage T body = pageTokens nodes

/-- The name is read as its characters. -/
def Harmless (T : Tables) (name : String) : Prop := '\r' ∉ name.toList ∧ Clean T name.toList

def element : Token → Option (Bool × Text)
  | .startTag name _ _ => some (true, name)
  | .endTag name => some (false, name)
  | _ => none

def structureOf (ts : List Token) : List (Bool × Text) := ts.filterMap element

/-! The text of the page. -/

def headText : Text :=
  openTag "html".toList ++ openTag "head".toList ++ openTag "title".toList ++
    "hermod-tracer".toList ++ closeTag "title".toList ++ closeTag "head".toList ++
    openTag "body".toList ++ openTag "h1".toList ++ "Connected nodes".toList ++
    closeTag "h1".toList ++ openTag "ul".toList

def placeholderText : Text :=
  openTag "li".toList ++ openTag "em".toList ++ "No nodes connected".toList ++
    closeTag "em".toList ++ closeTag "li".toList

def itemText (name slug : Text) : Text :=
  openTag "li".toList ++ openTagWith "a".toList "href".toList ('/' :: slug) ++ name ++
    closeTag "a".toList ++ closeTag "li".toList

def footText : Text := closeTag "ul".toList ++ closeTag "body".toList ++ closeTag "html".toList

/-- The page, part by part. -/
theorem rootHtml_toList (nodes : List (String × NodeSlug)) :
    (rootHtml nodes).toList = headText ++ (if nodes = [] then placeholderText else []) ++
      nodes.flatMap (fun n => itemText n.1.toList n.2.toList) ++ footText := by
  have hhead :
      "<html><head><title>hermod-tracer</title></head><body><h1>Connected nodes</h1><ul>".toList =
        headText := by decide +kernel
  have hplaceholder : "<li><em>No nodes connected</em></li>".toList = placeholderText := by
    decide +kernel
  have hfoot : "</ul></body></html>".toList = footText := by decide +kernel
  have hitem : ∀ n : String × NodeSlug,
      ("<li><a href=\"/" ++ n.2 ++ "\">" ++ n.1 ++ "</a></li>").toList =
        itemText n.1.toList n.2.toList := by
    intro n
    have hfront : "<li><a href=\"/".toList =
        openTag "li".toList ++ '<' :: "a".toList ++ ' ' :: "href".toList ++ ['=', '"', '/'] := by
      decide +kernel
    have hmiddle : "\">".toList = ['"', '>'] := by decide
    have hend : "</a></li>".toList = closeTag "a".toList ++ closeTag "li".toList := by
      decide +kernel
    unfold itemText openTagWith
    rw [String.toList_append, String.toList_append, String.toList_append, String.toList_append,
      hfront, hmiddle, hend]
    simp only [List.append_assoc, List.cons_append, List.nil_append]
  have hnone : (if nodes = [] then "<li><em>No nodes connected</em></li>" else "").toList =
      if nodes = [] then placeholderText else [] := by
    split
    · exact hplaceholder
    · rfl
  have hitems : nodes.flatMap (fun n =>
      ("<li><a href=\"/" ++ n.2 ++ "\">" ++ n.1 ++ "</a></li>").toList) =
        nodes.flatMap fun n => itemText n.1.toList n.2.toList :=
    List.flatMap_congr fun n _ => hitem n
  unfold rootHtml
  rw [String.toList_append, String.toList_append, String.toList_append, String.toList_join,
    List.flatMap_map, hhead, hnone, hfoot, hitems]

/-! The tokens of its parts. -/

theorem isTagName_html : IsTagName "html".toList := isTagName_of_check (by decide) (by decide)

theorem isTagName_head : IsTagName "head".toList := isTagName_of_check (by decide) (by decide)

theorem isTagName_title : IsTagName "title".toList := isTagName_of_check (by decide) (by decide)

theorem isTagName_body : IsTagName "body".toList := isTagName_of_check (by decide) (by decide)

theorem isTagName_h1 : IsTagName "h1".toList := isTagName_of_check (by decide) (by decide)

theorem isTagName_ul : IsTagName "ul".toList := isTagName_of_check (by decide) (by decide)

theorem isTagName_li : IsTagName "li".toList := isTagName_of_check (by decide) (by decide)

theorem isTagName_em : IsTagName "em".toList := isTagName_of_check (by decide) (by decide)

theorem isTagName_a : IsTagName "a".toList := isTagName_of_check (by decide) (by decide)

theorem isTagName_href : IsTagName "href".toList := isTagName_of_check (by decide) (by decide)

section Parts

variable {T : Tables}

/-- Text without markup of its own in front of an end tag. -/
theorem tokens_cleanText (hT : T.Lawful) {w name : Text} (hw : Clean T w) (hname : IsTagName name)
    (s : Text) :
    tokens T (w ++ (closeTag name ++ s)) = w.map .char ++ .endTag name :: tokens T s := by
  have hclose := tokens_closeTag (T := T) hname s
  obtain ⟨c, n, rfl, hc⟩ := hname.head
  have htext := (tokens_text hT hc (n ++ '>' :: s) w).1 hw
  have hsplit : closeTag (c :: n) ++ s = '<' :: '/' :: c :: (n ++ '>' :: s) := by
    simp [closeTag]
  rw [hsplit] at hclose ⊢
  rw [htext, hclose]

theorem clean_of_plain {w : Text} (hw : ∀ c ∈ w, c ≠ '\x00' ∧ c ≠ '<' ∧ c ≠ '&') : Clean T w := by
  induction w with
  | nil => trivial
  | cons c w ih =>
    obtain ⟨hnull, hless, hamp⟩ := hw c (List.mem_cons_self ..)
    exact ⟨hnull, fun h => absurd h hless, fun h => absurd h hamp,
      ih fun d hd => hw d (List.mem_cons_of_mem c hd)⟩

/-- The head of the page is read as its tags. -/
theorem tokens_headText (hT : T.Lawful) (s : Text) :
    tokens T (headText ++ s) = headTokens ++ tokens T s := by
  have htitle : Clean T "hermod-tracer".toList := clean_of_plain (by decide)
  have hheading : Clean T "Connected nodes".toList := clean_of_plain (by decide)
  unfold headText
  simp only [List.append_assoc]
  rw [tokens_openTag isTagName_html, tokens_openTag isTagName_head, tokens_openTag isTagName_title,
    tokens_cleanText hT htitle isTagName_title, tokens_closeTag isTagName_head,
    tokens_openTag isTagName_body, tokens_openTag isTagName_h1,
    tokens_cleanText hT hheading isTagName_h1, tokens_openTag isTagName_ul]
  unfold headTokens opened closed chars
  simp only [List.append_assoc, List.cons_append, List.nil_append]

theorem tokens_placeholderText (hT : T.Lawful) (s : Text) :
    tokens T (placeholderText ++ s) = placeholderTokens ++ tokens T s := by
  have htext : Clean T "No nodes connected".toList := clean_of_plain (by decide)
  unfold placeholderText
  simp only [List.append_assoc]
  rw [tokens_openTag isTagName_li, tokens_openTag isTagName_em,
    tokens_cleanText hT htext isTagName_em, tokens_closeTag isTagName_li]
  unfold placeholderTokens opened closed chars
  simp only [List.append_assoc, List.cons_append, List.nil_append]

theorem tokens_footText (T : Tables) : tokens T footText = footTokens := by
  have hfoot : footText = closeTag "ul".toList ++ (closeTag "body".toList ++
      (closeTag "html".toList ++ [])) := by
    unfold footText
    rw [List.append_nil, List.append_assoc]
  rw [hfoot, tokens_closeTag isTagName_ul, tokens_closeTag isTagName_body,
    tokens_closeTag isTagName_html, tokens_nil]
  rfl

def Inert (slug : Text) : Prop := ∀ c ∈ slug, c ≠ '"' ∧ c ≠ '&' ∧ c ≠ '\r'

/-- An item opens with its link. -/
theorem tokens_linkText (hT : T.Lawful) {slug : Text} (hslug : Inert slug) (s : Text) :
    tokens T (openTag "li".toList ++ (openTagWith "a".toList "href".toList ('/' :: slug) ++ s)) =
      opened "li" :: .startTag "a".toList [("href".toList, '/' :: slug)] false :: tokens T s := by
  have hquote : '"' ∉ '/' :: slug := by
    rw [List.mem_cons, not_or]
    exact ⟨by decide, fun h => (hslug _ h).1 rfl⟩
  have hamp : '&' ∉ '/' :: slug := by
    rw [List.mem_cons, not_or]
    exact ⟨by decide, fun h => (hslug _ h).2.1 rfl⟩
  rw [tokens_openTag isTagName_li, tokens_openTagWith isTagName_a isTagName_href hquote,
    hT.attributeValue _ hamp]
  rfl

def itemsText (items : List (Text × Text)) (s : Text) : Text :=
  items.flatMap (fun n => itemText n.1 n.2) ++ s

/-- A name is read as its characters exactly where it is harmless. -/
theorem tokens_name_iff (hT : T.Lawful) (name : String) (s : Text) (ts : List Token) :
    tokens T (normalise name.toList ++ (closeTag "a".toList ++ (closeTag "li".toList ++ s))) =
        chars name ++ closed "a" :: closed "li" :: ts ↔ Harmless T name ∧ tokens T s = ts := by
  have hend : tokens T (closeTag "li".toList ++ s) = closed "li" :: tokens T s :=
    tokens_closeTag isTagName_li s
  have hread : ∀ {w : Text}, Clean T w →
      tokens T (w ++ (closeTag "a".toList ++ (closeTag "li".toList ++ s))) =
        w.map .char ++ closed "a" :: closed "li" :: tokens T s := by
    intro w hw
    rw [tokens_cleanText hT hw isTagName_a, hend]
    rfl
  have hcount : leading (chars name ++ closed "a" :: closed "li" :: ts) = name.toList.length :=
    leading_chars name.toList _
  have hle : (normalise name.toList).length ≤ name.toList.length := length_normaliseFrom_le _ _
  constructor
  · intro h
    by_cases hclean : Clean T (normalise name.toList)
    · rw [hread hclean] at h
      have hlen : (normalise name.toList).length = name.toList.length := by
        have hleading := congrArg leading h
        rwa [hcount, leading_chars] at hleading
      obtain ⟨htext, hrest⟩ := List.append_inj h (by simp [chars, hlen])
      have hsame : normalise name.toList = name.toList :=
        List.map_injective_iff.mpr (fun _ _ => Token.char.inj) htext
      rw [hsame] at hclean
      have htail := (List.cons.inj (List.cons.inj hrest).2).2
      exact ⟨⟨(normalise_eq_self_iff _).mp hsame, hclean⟩, htail⟩
    · obtain ⟨e, n, htag, he⟩ := isTagName_a.head
      have hfew := (tokens_text hT he (n ++ '>' :: (closeTag "li".toList ++ s))
        (normalise name.toList)).2 hclean
      have hsplit : closeTag "a".toList ++ (closeTag "li".toList ++ s) =
          '<' :: '/' :: e :: (n ++ '>' :: (closeTag "li".toList ++ s)) := by
        rw [htag]
        simp [closeTag]
      rw [← hsplit, h, hcount] at hfew
      omega
  · rintro ⟨⟨hreturn, hclean⟩, rfl⟩
    rw [(normalise_eq_self_iff _).mpr hreturn, hread hclean]
    rfl

/-- Items are read as they should be exactly where each name is harmless. -/
theorem tokens_items_iff (hT : T.Lawful) {nodes : List (String × NodeSlug)}
    (hslugs : ∀ n ∈ nodes, Inert n.2.toList) (s : Text) (ts : List Token) :
    tokens T (itemsText (nodes.map fun n => (normalise n.1.toList, n.2.toList)) s) =
        nodes.flatMap itemTokens ++ ts ↔
      (∀ n ∈ nodes, Harmless T n.1) ∧ tokens T s = ts := by
  induction nodes with
  | nil => simp [itemsText]
  | cons n nodes ih =>
    have hrest := ih fun m hm => hslugs m (List.mem_cons_of_mem n hm)
    have hname := tokens_name_iff hT n.1
      (itemsText (nodes.map fun n => (normalise n.1.toList, n.2.toList)) s)
      (nodes.flatMap itemTokens ++ ts)
    have hsplit : itemsText ((n :: nodes).map fun n => (normalise n.1.toList, n.2.toList)) s =
        openTag "li".toList ++ (openTagWith "a".toList "href".toList ('/' :: n.2.toList) ++
          (normalise n.1.toList ++ (closeTag "a".toList ++ (closeTag "li".toList ++
            itemsText (nodes.map fun n => (normalise n.1.toList, n.2.toList)) s)))) := by
      simp only [itemsText, itemText, List.map_cons, List.flatMap_cons, List.append_assoc]
    have hexpected : (n :: nodes).flatMap itemTokens ++ ts =
        opened "li" :: .startTag "a".toList [("href".toList, '/' :: n.2.toList)] false ::
          (chars n.1 ++ closed "a" :: closed "li" :: (nodes.flatMap itemTokens ++ ts)) := by
      simp only [List.flatMap_cons, itemTokens, List.append_assoc, List.cons_append,
        List.nil_append]
    rw [hsplit, hexpected, tokens_linkText hT (hslugs n (List.mem_cons_self ..)), List.cons.injEq,
      List.cons.injEq, hname, hrest, List.forall_mem_cons]
    tauto

end Parts

/-! The page for the connected nodes. -/

/-- Ends of lines matter in names only. -/
theorem normalise_items {nodes : List (String × NodeSlug)} (hslugs : ∀ n ∈ nodes, Inert n.2.toList)
    {s : Text} (hs : '\r' ∉ s) :
    normalise (nodes.flatMap (fun n => itemText n.1.toList n.2.toList) ++ s) =
      itemsText (nodes.map fun n => (normalise n.1.toList, n.2.toList)) s := by
  induction nodes with
  | nil => exact (normalise_eq_self_iff s).mpr hs
  | cons n nodes ih =>
    have hrest := ih fun m hm => hslugs m (List.mem_cons_of_mem n hm)
    have hslug := hslugs n (List.mem_cons_self ..)
    have hfront : '\r' ∉ openTag "li".toList ++
        openTagWith "a".toList "href".toList ('/' :: n.2.toList) := by
      have hreturn : '\r' ∉ n.2.toList := fun h => (hslug _ h).2.2 rfl
      simp [openTag, openTagWith, hreturn]
    have hback : '\r' ∉ "/a></li>".toList := by decide
    have hsplit : ∀ name t : Text, itemText name n.2.toList ++ t =
        openTag "li".toList ++ openTagWith "a".toList "href".toList ('/' :: n.2.toList) ++
          (name ++ '<' :: ("/a></li>".toList ++ t)) := by
      intro name t
      have hclose : closeTag "a".toList ++ closeTag "li".toList = '<' :: "/a></li>".toList := by
        decide +kernel
      unfold itemText
      rw [List.append_assoc _ (closeTag _) (closeTag _), hclose]
      simp only [List.append_assoc, List.cons_append]
    have hname := normaliseFrom_append_cons (c := '<') (by decide) false n.1.toList
      ("/a></li>".toList ++ (nodes.flatMap (fun n => itemText n.1.toList n.2.toList) ++ s))
    have hend := normalise_append hback
      (nodes.flatMap (fun n => itemText n.1.toList n.2.toList) ++ s)
    rw [List.flatMap_cons, List.append_assoc, hsplit, normalise_append hfront, normalise, hname]
    unfold normalise at hend hrest
    rw [hend, hrest, itemsText, itemsText, List.map_cons, List.flatMap_cons,
      List.append_assoc (itemText _ _), hsplit]
    rfl

/-- The page is read as it should be exactly when every name on it is harmless. -/
theorem shows_iff {T : Tables} (hT : T.Lawful) {nodes : List (String × NodeSlug)}
    (hslugs : ∀ n ∈ nodes, Inert n.2.toList) :
    Shows T (rootHtml nodes) nodes ↔ ∀ n ∈ nodes, Harmless T n.1 := by
  have hhead : '\r' ∉ headText := by decide +kernel
  have hfoot : '\r' ∉ footText := by decide +kernel
  have hplaceholder : '\r' ∉ placeholderText := by decide +kernel
  have hitems := normalise_items hslugs hfoot
  have hmiddle : '\r' ∉ if nodes = [] then placeholderText else [] := by
    split
    · exact hplaceholder
    · exact List.not_mem_nil
  have hpage : readPage T (rootHtml nodes) =
      headTokens ++ (if nodes = [] then placeholderTokens else []) ++
        tokens T (itemsText (nodes.map fun n => (normalise n.1.toList, n.2.toList)) footText) := by
    rw [readPage, rootHtml_toList, List.append_assoc, List.append_assoc, normalise_append hhead,
      normalise_append hmiddle, hitems, tokens_headText hT]
    split
    · rw [tokens_placeholderText hT, List.append_assoc]
    · rw [List.nil_append, List.append_nil]
  have hiff := tokens_items_iff hT hslugs footText footTokens
  rw [tokens_footText, and_iff_left rfl] at hiff
  rw [Shows, hpage, pageTokens, List.append_assoc _ (List.flatMap _ _), List.append_right_inj, hiff]

/-- The tags of the page depend on the number of nodes alone. -/
theorem structureOf_pageTokens {nodes nodes' : List (String × NodeSlug)}
    (h : nodes.length = nodes'.length) :
    structureOf (pageTokens nodes) = structureOf (pageTokens nodes') := by
  have hchars : ∀ s : String, structureOf (chars s) = [] := by
    intro s
    unfold structureOf chars
    rw [List.filterMap_map, List.filterMap_eq_nil_iff]
    exact fun _ _ => rfl
  have happend : ∀ ts us, structureOf (ts ++ us) = structureOf ts ++ structureOf us :=
    fun _ _ => List.filterMap_append
  have hitem : ∀ n m, structureOf (itemTokens n) = structureOf (itemTokens m) := by
    intro n m
    unfold itemTokens
    rw [happend, happend, happend, happend, hchars, hchars]
    rfl
  have hitems : ∀ (ns ms : List (String × NodeSlug)), ns.length = ms.length →
      structureOf (ns.flatMap itemTokens) = structureOf (ms.flatMap itemTokens) := by
    intro ns
    induction ns with
    | nil =>
      intro ms hlen
      rw [List.eq_nil_of_length_eq_zero hlen.symm]
    | cons n ns ih =>
      intro ms hlen
      cases ms with
      | nil => simp at hlen
      | cons m ms =>
        rw [List.flatMap_cons, List.flatMap_cons, happend, happend, hitem n m,
          ih ms (by simpa using hlen)]
  have hempty : nodes = [] ↔ nodes' = [] := by
    rw [← List.length_eq_zero_iff, ← List.length_eq_zero_iff, h]
  unfold pageTokens
  simp only [happend, hitems nodes nodes' h, hempty]

def Slugged (u : Unicode) (r : Registry) : Prop :=
  ∀ k n, (k, n) ∈ r.nodes.entries → n.slug = slugify u n.name

theorem slugged_start (u : Unicode) : Slugged u Registry.start :=
  fun _ _ h => absurd h List.not_mem_nil

theorem slugged_step {u : Unicode} {r r' : Registry} {e : MetricsPaths.Event} (hr : Slugged u r)
    (h : r.step u e = some r') : Slugged u r' :=
  entries_step (fun _ _ _ => rfl) hr h

/-- Slugs are of letters, digits and dashes. -/
theorem inert_slugify {u : Unicode}
    (hascii : ∀ c, c.toNat < 128 → u.isAlphanumeric c = c.isAlphanum) (name : String) :
    Inert (slugify u name).toList := by
  have halnum : ∀ c, u.isAlphanumeric c = true ∨ c = '-' ∨ c = 'x' →
      c ≠ '"' ∧ c ≠ '&' ∧ c ≠ '\r' := by
    intro c hc
    refine ⟨?_, ?_, ?_⟩ <;>
    · rintro rfl
      rw [hascii _ (by decide)] at hc
      revert hc
      decide
  intro c hc
  apply halnum
  rcases mem_slugify hc with rfl | hraw
  · exact Or.inr (Or.inr rfl)
  · obtain ⟨d, -, rfl⟩ := List.mem_map.mp hraw
    by_cases hd : u.isAlphanumeric d = true
    · rw [if_pos hd]
      exact Or.inl hd
    · rw [if_neg hd]
      exact Or.inr (Or.inl rfl)

/-- In every run the page consists of one item with one link for each node exactly when all
names are harmless, and pages with as many nodes have one structure then. -/
theorem status_page_iff {T : Tables} (hT : T.Lawful) {u : Unicode}
    (hascii : ∀ c, c.toNat < 128 → u.isAlphanumeric c = c.isAlphanum)
    {es : List MetricsPaths.Event} {r : Registry}
    (h : run (Registry.step u) Registry.start es = some r) :
    (∃ body, handleRoot false r.nodes = .html body ∧
      (Shows T body r.nodes.nodeList ↔ ∀ n ∈ r.nodes.allNodes, Harmless T n.name)) ∧
    ∀ (es' : List MetricsPaths.Event) (r' : Registry),
      run (Registry.step u) Registry.start es' = some r' →
      r.nodes.nodeList.length = r'.nodes.nodeList.length →
      (∀ n ∈ r.nodes.allNodes, Harmless T n.name) →
      (∀ n ∈ r'.nodes.allNodes, Harmless T n.name) →
      structureOf (readPage T (rootHtml r.nodes.nodeList)) =
        structureOf (readPage T (rootHtml r'.nodes.nodeList)) := by
  have hshows : ∀ {es : List MetricsPaths.Event} {r : Registry},
      run (Registry.step u) Registry.start es = some r →
      (Shows T (rootHtml r.nodes.nodeList) r.nodes.nodeList ↔
        ∀ n ∈ r.nodes.allNodes, Harmless T n.name) := by
    intro es r hrun
    have hslugged : Slugged u r :=
      run_invariant (fun _ _ _ hs he => slugged_step hs he) (slugged_start u) hrun
    have hslugs : ∀ p ∈ r.nodes.nodeList, Inert p.2.toList := by
      intro p hp
      obtain ⟨n, hn, rfl⟩ := List.mem_map.mp hp
      obtain ⟨k, hk⟩ := IndexMap.mem_values.mp hn
      rw [hslugged k n hk]
      exact inert_slugify hascii n.name
    rw [shows_iff hT hslugs]
    unfold Nodes.nodeList Nodes.allNodes
    rw [List.forall_mem_map]
  refine ⟨⟨_, rfl, hshows h⟩, ?_⟩
  intro es' r' h' hlen hr hr'
  rw [(hshows h).mpr hr, (hshows h').mpr hr']
  exact structureOf_pageTokens hlen

def someNames : List (Text × Text) :=
  [("amp;".toList, ['&']), ("amp".toList, ['&']), ("lt;".toList, ['<']), ("lt".toList, ['<']),
    ("gt;".toList, ['>']), ("gt".toList, ['>'])]

def someTables : Tables :=
  ⟨fun n => (someNames.find? (·.1 = n)).map Prod.snd, Char.ofNat, id⟩

theorem lawful_someTables : someTables.Lawful := by
  have hmem : ∀ n r, someTables.named n = some r → (n, r) ∈ someNames := by
    intro n r h
    obtain ⟨p, hp, rfl⟩ := Option.map_eq_some_iff.mp h
    have hname := List.find?_some hp
    rw [decide_eq_true_eq] at hname
    rw [← hname]
    exact List.mem_of_find?_eq_some hp
  have hall : ∀ p ∈ someNames, (∀ c ∈ p.1, c.isAlphanum = true ∨ c = ';') ∧
      p.2.length ≤ p.1.length := by decide
  exact {
    name := fun n r h => (hall _ (hmem n r h)).1
    shorter := fun n r h => (hall _ (hmem n r h)).2
    attributeValue := fun _ _ => rfl }

theorem status_page_iff_one :
    ∃ r, run (Registry.step .ascii) Registry.start [.register "unix-1" "a < b"] = some r ∧
      ∃ body, handleRoot false r.nodes = .html body ∧
        (Shows someTables body r.nodes.nodeList ↔
          ∀ n ∈ r.nodes.allNodes, Harmless someTables n.name) :=
  ⟨_, rfl, (@status_page_iff someTables lawful_someTables .ascii (fun _ _ => rfl)
    [.register "unix-1" "a < b"] _ rfl).1⟩

/-- A node that calls itself by some markup adds it to the page. -/
theorem markup_in_name :
    ∃ r, run (Registry.step .ascii) Registry.start [.register "unix-1" "<b>x</b>"] = some r ∧
      ¬ Shows someTables (rootHtml r.nodes.nodeList) r.nodes.nodeList := by
  refine ⟨⟨Nodes.register IndexMap.empty (.new .ascii "unix-1" "<b>x</b>" 0), 1⟩, rfl, ?_⟩
  have hlist : (Nodes.register IndexMap.empty
      (.new .ascii "unix-1" "<b>x</b>" 0)).nodeList = [("<b>x</b>", "b-x-b")] := by
    decide +kernel
  have hslug : Inert "b-x-b".toList := by
    unfold Inert
    decide
  dsimp only
  rw [hlist, shows_iff lawful_someTables (by simpa using hslug)]
  intro h
  have hclean : Clean someTables "<b>x</b>".toList := (h _ (List.mem_singleton_self _)).2
  exact hclean.2.1 rfl 'b' rfl (Or.inl (by decide))

end Hermod.StatusPage
