import Crabinet.Web.MarkdownTree

/-!
# Rendered Markdown is confined to the allowlist

What may be built from a document is listed once; each function of the walk builds nothing else,
and adds at most three levels to what it is given at the depth where it stops.
-/

namespace Crabinet.Web

variable {browser : Browser} {kind : Kind} {props : Props} {prop : String × PropValue}
  {element : List (String × String)} {children : List Rendered} {rendered : Rendered}
  {tag name : String} {bound depth : ℕ}

/-! ### What a rendering consists of -/

mutual

/-- The elements of a rendering, with their properties. -/
def Rendered.elements : Rendered → List (Kind × Props)
  | .text _ | .nothing => []
  | .fragment children => elementsOf children
  | .element kind props children => (kind, props) :: elementsOf children

def elementsOf : List Rendered → List (Kind × Props)
  | [] => []
  | rendered :: rest => rendered.elements ++ elementsOf rest

end

mutual

/-- How deep the elements of a rendering are nested. -/
def Rendered.nesting : Rendered → ℕ
  | .text _ | .nothing => 0
  | .fragment children => nestingOf children
  | .element _ _ children => nestingOf children + 1

def nestingOf : List Rendered → ℕ
  | [] => 0
  | rendered :: rest => max rendered.nesting (nestingOf rest)

end

/-! ### What may be built -/

/-- The properties that are the application's own. -/
def fixedProps : Props :=
  [("class", .string "markdown-inert-link"), ("class", .string "markdown-image-placeholder"),
    ("class", .string "markdown-task"), ("class", .string "markdown-code"),
    ("class", .string "markdown-alert markdown-alert-note"),
    ("class", .string "markdown-alert markdown-alert-tip"),
    ("class", .string "markdown-alert markdown-alert-important"),
    ("class", .string "markdown-alert markdown-alert-warning"),
    ("class", .string "markdown-alert markdown-alert-caution"),
    ("class", .string "markdown-alert-title"), ("role", .string "note"),
    ("type", .string "checkbox"), ("disabled", .flag true), ("target", .string "_blank"),
    ("rel", .string "noopener noreferrer nofollow"), ("aria-hidden", .string "true"),
    ("aria-label", .string "Code block"), ("label", .string "Code block"), ("wrap", .flag false)]

/-- The bounds of the numeric properties. -/
def numericBounds : List (String × ℤ × ℤ) :=
  [("colspan", 1, 1000), ("rowspan", 0, 65534), ("start", -1000000000, 1000000000),
    ("value", -1000000000, 1000000000), ("tabIndex", 0, 0), ("size", 14, 16)]

/-- The icons of the placeholders and the alerts. -/
def icons : List String :=
  ["ImageOff", "Info", "Lightbulb", "MessageSquareWarning", "TriangleAlert", "OctagonAlert"]

/-- A property that may stand on an element. -/
inductive AllowedProp (browser : Browser) (kind : Kind) : String × PropValue → Prop where
  | fixed {prop : String × PropValue} (h : prop ∈ fixedProps) : AllowedProp browser kind prop
  | id {text : String} (h : text ≠ "") :
    AllowedProp browser kind ("id", .string (idPrefix ++ text))
  | copied {name : String} (h : name ∈ ["title", "lang", "dir", "dateTime"]) (value : String) :
    AllowedProp browser kind (name, .string value)
  | align {value : String} (h : value ∈ alignments) :
    AllowedProp browser kind ("align", .string value)
  | flag {name : String} (h : name ∈ ["reversed", "open", "checked"]) (value : Bool) :
    AllowedProp browser kind (name, .flag value)
  | number {name : String} {min max value : ℤ} (h : (name, min, max) ∈ numericBounds)
    (hmin : min ≤ value) (hmax : value ≤ max) : AllowedProp browser kind (name, .number value)
  | style {value : String} (hkind : kind = .tag "td" ∨ kind = .tag "th")
    (h : value ∈ ["left", "right", "center"]) : AllowedProp browser kind ("style", .textAlign value)
  | fragment {text : String} (hkind : kind = .tag "a") (h : text ≠ "") :
    AllowedProp browser kind ("href", .string ("#" ++ text))
  | address {text : String} {url : Url} (hkind : kind = .tag "a")
    (h : browser.newUrl text = some url) (hprotocol : url.protocol ∈ linkProtocols) :
    AllowedProp browser kind ("href", .string url.href)
  | source (hkind : kind = .highlightedCode) (value : String) :
    AllowedProp browser kind ("source", .string value)
  | language {value : String} (hkind : kind = .highlightedCode) (h : value ∈ highlightLanguages) :
    AllowedProp browser kind ("language", .string value)

/-- What an element may be. -/
inductive AllowedKind : Kind → Prop where
  | tag {name : String} (h : name ∈ allowed) : AllowedKind (.tag name)
  | link : AllowedKind (.tag "a")
  | input : AllowedKind (.tag "input")
  | icon {name : String} (h : name ∈ icons) : AllowedKind (.icon name)
  | highlightedCode : AllowedKind .highlightedCode

/-- The properties of the checkbox of a task. -/
def taskProps (checked : Bool) : Props :=
  [("type", .string "checkbox"), ("class", .string "markdown-task"), ("disabled", .flag true),
    ("checked", .flag checked)]

/-- An element the walk may build. -/
structure Built (browser : Browser) (kind : Kind) (props : Props) : Prop where
  kind_allowed : AllowedKind kind
  props_allowed : ∀ prop ∈ props, AllowedProp browser kind prop
  opener : ∀ url : Url, url.protocol ∈ linkProtocols → ("href", .string url.href) ∈ props →
    ("rel", .string "noopener noreferrer nofollow") ∈ props
  input : kind = .tag "input" → ∃ checked, props = taskProps checked

/-- Renderings of elements the walk may build, nested to a bound. -/
structure Within (browser : Browser) (bound : ℕ) (children : List Rendered) : Prop where
  built : ∀ element ∈ elementsOf children, Built browser element.1 element.2
  nesting : nestingOf children ≤ bound

theorem within_nil : Within browser bound [] where
  built := by
    intro element h
    simp only [elementsOf, List.not_mem_nil] at h
  nesting := Nat.zero_le _

theorem within_cons (hrendered : Within browser bound [rendered])
    (hchildren : Within browser bound children) : Within browser bound (rendered :: children) where
  built := by
    intro element h
    rw [elementsOf, List.mem_append] at h
    rcases h with h | h
    · exact hrendered.built element (List.mem_append_left _ h)
    · exact hchildren.built element h
  nesting := by
    have hfirst := hrendered.nesting
    have hrest := hchildren.nesting
    simp only [nestingOf] at hfirst ⊢
    omega

theorem within_text (data : String) : Within browser bound [.text data] where
  built := by
    intro element h
    simp only [elementsOf, Rendered.elements, List.append_nil, List.not_mem_nil] at h
  nesting := Nat.zero_le _

theorem within_nothing : Within browser bound [.nothing] where
  built := by
    intro element h
    simp only [elementsOf, Rendered.elements, List.append_nil, List.not_mem_nil] at h
  nesting := Nat.zero_le _

theorem within_fragment (h : Within browser bound children) :
    Within browser bound [.fragment children] where
  built := by
    intro element hmem
    simp only [elementsOf, Rendered.elements, List.append_nil] at hmem
    exact h.built element hmem
  nesting := by
    simpa only [nestingOf, Rendered.nesting, Nat.max_zero] using h.nesting

theorem within_element (hbuilt : Built browser kind props) (h : Within browser bound children) :
    Within browser (bound + 1) [.element kind props children] where
  built := by
    intro element hmem
    simp only [elementsOf, Rendered.elements, List.append_nil, List.mem_cons] at hmem
    rcases hmem with rfl | hmem
    · exact hbuilt
    · exact h.built element hmem
  nesting := by
    have := h.nesting
    simp only [nestingOf, Rendered.nesting]
    omega

theorem within_mono {bound' : ℕ} (h : Within browser bound children) (hle : bound ≤ bound') :
    Within browser bound' children :=
  ⟨h.built, h.nesting.trans hle⟩

/-! ### Attributes -/

theorem allowed_of_mem_idProps (h : prop ∈ idProps element) : AllowedProp browser kind prop := by
  unfold idProps at h
  split at h
  case h_1 id hid =>
    split_ifs at h with hempty
    · cases h
    · rw [List.mem_singleton.mp h]
      exact .id hempty
  case h_2 => cases h

theorem allowed_of_mem_copied (hname : name ∈ ["title", "lang", "dir", "dateTime"])
    {source : String} (h : prop ∈ copied element source name) :
    AllowedProp browser kind prop := by
  unfold copied at h
  rw [Option.mem_toList, Option.map_eq_some_iff] at h
  obtain ⟨value, -, rfl⟩ := h
  exact .copied hname value

theorem allowed_of_mem_copyFlag (hname : name ∈ ["reversed", "open", "checked"])
    (h : prop ∈ copyFlag element name) : AllowedProp browser kind prop := by
  unfold copyFlag at h
  split_ifs at h
  · rw [List.mem_singleton.mp h]
    exact .flag hname true
  · cases h

theorem allowed_of_mem_copyNumber {min max : ℤ} (hbounds : (name, min, max) ∈ numericBounds)
    (hle : min ≤ max) (h : prop ∈ copyNumber element name min max) :
    AllowedProp browser kind prop := by
  unfold copyNumber at h
  split at h
  case h_1 value hvalue =>
    rw [List.mem_singleton.mp h]
    exact .number hbounds (le_min hle (le_max_left _ _)) (min_le_left _ _)
  case h_2 => cases h

theorem allowed_of_mem_alignProps (h : prop ∈ alignProps browser element tag) :
    AllowedProp browser kind prop := by
  unfold alignProps at h
  split at h
  case h_1 align halign =>
    split_ifs at h with hallowed
    · rw [List.mem_singleton.mp h]
      exact .align hallowed.2
    · cases h
  case h_2 => cases h

theorem allowed_of_mem_styleProps (hkind : kind = .tag "td" ∨ kind = .tag "th")
    (h : prop ∈ styleProps element) : AllowedProp browser kind prop := by
  unfold styleProps at h
  split at h
  case h_1 align halign =>
    rw [List.mem_singleton.mp h]
    exact .style hkind (List.mem_of_find?_eq_some halign)
  case h_2 => cases h

theorem allowed_of_mem_attributes (h : prop ∈ attributes browser element tag) :
    AllowedProp browser (.tag tag) prop := by
  unfold attributes at h
  simp only [List.mem_append] at h
  rcases h with ((((((((h | h) | h) | h) | h) | h) | h) | h) | h) | h
  · exact allowed_of_mem_idProps h
  · exact allowed_of_mem_copied (by decide) h
  · exact allowed_of_mem_copied (by decide) h
  · exact allowed_of_mem_copied (by decide) h
  · exact allowed_of_mem_alignProps h
  · split_ifs at h with hcell
    · simp only [List.mem_append] at h
      rcases h with (h | h) | h
      · exact allowed_of_mem_styleProps (hcell.imp (congrArg _) (congrArg _)) h
      · exact allowed_of_mem_copyNumber (by decide) (by decide) h
      · exact allowed_of_mem_copyNumber (by decide) (by decide) h
    · cases h
  · split_ifs at h
    · rcases List.mem_append.mp h with h | h
      · exact allowed_of_mem_copyNumber (by decide) (by decide) h
      · exact allowed_of_mem_copyFlag (by decide) h
    · cases h
  · split_ifs at h
    · exact allowed_of_mem_copyNumber (by decide) (by decide) h
    · cases h
  · split_ifs at h
    · exact allowed_of_mem_copyFlag (by decide) h
    · cases h
  · split_ifs at h
    · exact allowed_of_mem_copied (by decide) h
    · cases h

/-! ### Which property stands where -/

/-- An `href` stands on links alone, and leads to a fragment or to an allowed address. -/
theorem AllowedProp.href (h : AllowedProp browser kind prop) (hname : prop.1 = "href") :
    kind = .tag "a" ∧ ((∃ text ≠ "", prop.2 = .string ("#" ++ text)) ∨
      ∃ text url, browser.newUrl text = some url ∧ url.protocol ∈ linkProtocols ∧
        prop.2 = .string url.href) := by
  cases h with
  | fixed h => exact absurd hname ((by decide : ∀ prop ∈ fixedProps, prop.1 ≠ "href") prop h)
  | copied h value =>
    obtain rfl : _ = "href" := hname
    exact absurd h (by decide)
  | flag h value =>
    obtain rfl : _ = "href" := hname
    exact absurd h (by decide)
  | number h hmin hmax =>
    exact absurd hname ((by decide : ∀ bounds ∈ numericBounds, bounds.1 ≠ "href") _ h)
  | fragment hkind htext => exact ⟨hkind, .inl ⟨_, htext, rfl⟩⟩
  | address hkind hurl hprotocol => exact ⟨hkind, .inr ⟨_, _, hurl, hprotocol, rfl⟩⟩
  | id | align | style | source | language => simp at hname

/-- An `id` has the prefix. -/
theorem AllowedProp.id_eq (h : AllowedProp browser kind prop) (hname : prop.1 = "id") :
    ∃ text ≠ "", prop.2 = .string (idPrefix ++ text) := by
  cases h with
  | fixed h => exact absurd hname ((by decide : ∀ prop ∈ fixedProps, prop.1 ≠ "id") prop h)
  | id htext => exact ⟨_, htext, rfl⟩
  | copied h value =>
    obtain rfl : _ = "id" := hname
    exact absurd h (by decide)
  | flag h value =>
    obtain rfl : _ = "id" := hname
    exact absurd h (by decide)
  | number h hmin hmax =>
    exact absurd hname ((by decide : ∀ bounds ∈ numericBounds, bounds.1 ≠ "id") _ h)
  | align | style | fragment | address | source | language => simp at hname

/-- A style only aligns the text of a cell. -/
theorem AllowedProp.style_eq (h : AllowedProp browser kind prop) (hname : prop.1 = "style") :
    (kind = .tag "td" ∨ kind = .tag "th") ∧
      ∃ align ∈ ["left", "right", "center"], prop.2 = .textAlign align := by
  cases h with
  | fixed h => exact absurd hname ((by decide : ∀ prop ∈ fixedProps, prop.1 ≠ "style") prop h)
  | copied h value =>
    obtain rfl : _ = "style" := hname
    exact absurd h (by decide)
  | flag h value =>
    obtain rfl : _ = "style" := hname
    exact absurd h (by decide)
  | number h hmin hmax =>
    exact absurd hname ((by decide : ∀ bounds ∈ numericBounds, bounds.1 ≠ "style") _ h)
  | style hkind halign => exact ⟨hkind, _, halign, rfl⟩
  | id | align | fragment | address | source | language => simp at hname

/-- A numeric property is a number within its bounds. -/
theorem AllowedProp.number_bounded {name : String} {min max : ℤ}
    (h : AllowedProp browser kind prop) (hname : prop.1 = name)
    (hbounds : (name, min, max) ∈ numericBounds) :
    ∃ value, prop.2 = .number value ∧ min ≤ value ∧ value ≤ max := by
  have hnumeric : ∀ other, other ∉ numericBounds.map Prod.fst → prop.1 ≠ other := by
    rintro other hother rfl
    exact hother (hname ▸ List.mem_map_of_mem hbounds)
  cases h with
  | fixed h =>
    exact absurd rfl (hnumeric _
      ((by decide : ∀ prop ∈ fixedProps, prop.1 ∉ numericBounds.map Prod.fst) prop h))
  | copied h value =>
    exact absurd rfl (hnumeric _ ((by decide : ∀ name ∈ ["title", "lang", "dir", "dateTime"],
      name ∉ numericBounds.map Prod.fst) _ h))
  | flag h value =>
    exact absurd rfl (hnumeric _ ((by decide : ∀ name ∈ ["reversed", "open", "checked"],
      name ∉ numericBounds.map Prod.fst) _ h))
  | number h hmin hmax =>
    -- no name has two bounds
    have heq := (by decide : ∀ first ∈ numericBounds, ∀ second ∈ numericBounds,
      first.1 = second.1 → first = second) _ h _ hbounds hname
    obtain ⟨-, rfl, rfl⟩ := heq
    exact ⟨_, rfl, hmin, hmax⟩
  | id | align | style | fragment | address | source | language =>
    exact absurd rfl (hnumeric _ (by dsimp only; decide))

/-- The names of the properties. -/
def propNames : List String :=
  ["id", "title", "lang", "dir", "align", "style", "colspan", "rowspan", "start", "reversed",
    "value", "open", "dateTime", "href", "target", "rel", "class", "type", "disabled", "checked",
    "tabIndex", "role", "size", "aria-hidden", "aria-label", "source", "language", "wrap", "label"]

theorem AllowedProp.name_mem (h : AllowedProp browser kind prop) : prop.1 ∈ propNames := by
  cases h with
  | fixed h => exact (by decide : ∀ prop ∈ fixedProps, prop.1 ∈ propNames) prop h
  | copied h value =>
    exact (by decide : ∀ name ∈ ["title", "lang", "dir", "dateTime"], name ∈ propNames) _ h
  | flag h value =>
    exact (by decide : ∀ name ∈ ["reversed", "open", "checked"], name ∈ propNames) _ h
  | number h hmin hmax =>
    exact (by decide : ∀ bounds ∈ numericBounds, bounds.1 ∈ propNames) _ h
  | id | align | style | fragment | address | source | language => dsimp only; decide

/-! ### The elements of their own kind -/

/-- Where no link and no checkbox stands, allowed properties are enough. -/
theorem built_of_allowed (hkind : AllowedKind kind) (hlink : kind ≠ .tag "a")
    (hinput : kind ≠ .tag "input") (h : ∀ prop ∈ props, AllowedProp browser kind prop) :
    Built browser kind props where
  kind_allowed := hkind
  props_allowed := h
  opener := fun _ _ hmem => absurd ((h _ hmem).href rfl).1 hlink
  input := fun heq => absurd heq hinput

theorem fst_of_mem_idProps (h : prop ∈ idProps element) : prop.1 = "id" := by
  unfold idProps at h
  split at h
  · split_ifs at h
    · cases h
    · rw [List.mem_singleton.mp h]
  · cases h

/-- An allowed address is not a fragment. -/
theorem href_ne_fragment {url : Url} (h : url.protocol ∈ linkProtocols) (text : String) :
    url.href ≠ "#" ++ text := by
  intro heq
  have hchars := congrArg String.toList heq
  rw [Url.href, String.toList_append, String.toList_append] at hchars
  simp only [linkProtocols, List.mem_cons, List.not_mem_nil, or_false] at h
  rcases h with h | h | h
  all_goals
    rw [h] at hchars
    simp at hchars

theorem eq_fragment_of_toList {href : String} {c : Char} {text : List Char}
    (h : href.toList = '#' :: c :: text) : href = "#" ++ String.ofList (c :: text) := by
  apply String.toList_inj.mp
  simp only [h, String.toList_append, String.toList_ofList]
  rfl

/-- A link that keeps its id: to a fragment, or to an allowed address with a `rel`. -/
theorem built_link {href : String} {rest : Props}
    (hhref : AllowedProp browser (.tag "a") ("href", .string href))
    (hrest : ∀ prop ∈ rest, AllowedProp browser (.tag "a") prop)
    (hopener : ∀ url : Url, url.protocol ∈ linkProtocols → href = url.href →
      ("rel", .string "noopener noreferrer nofollow") ∈ rest)
    (hnames : ∀ prop ∈ rest, prop.1 ≠ "href") :
    Built browser (.tag "a") (idProps element ++ ("href", .string href) :: rest) where
  kind_allowed := .link
  props_allowed := by
    intro prop hprop
    rw [List.mem_append, List.mem_cons] at hprop
    rcases hprop with hprop | rfl | hprop
    · exact allowed_of_mem_idProps hprop
    · exact hhref
    · exact hrest prop hprop
  opener := by
    intro url hprotocol hmem
    rw [List.mem_append, List.mem_cons] at hmem
    rcases hmem with hmem | hmem | hmem
    · exact absurd (fst_of_mem_idProps hmem) (by simp)
    · have heq : url.href = href := by simpa using hmem
      exact List.mem_append_right _ (List.mem_cons_of_mem _ (hopener url hprotocol heq.symm))
    · exact absurd rfl (hnames _ hmem)
  input := fun heq => absurd heq (by simp)

theorem within_inertLink (href : String) (h : Within browser bound children) :
    Within browser (bound + 1) [.element (.tag "span") (idProps element ++
      [("class", .string "markdown-inert-link")] ++
      (if href = "" then [] else [("title", .string ("Link not opened: " ++ href))])) children] := by
  refine within_element (built_of_allowed (.tag (by decide)) (by simp) (by simp) ?_) h
  intro prop hprop
  simp only [List.mem_append] at hprop
  rcases hprop with (hprop | hprop) | hprop
  · exact allowed_of_mem_idProps hprop
  · rw [List.mem_singleton.mp hprop]
    exact .fixed (by decide)
  · split_ifs at hprop
    · cases hprop
    · rw [List.mem_singleton.mp hprop]
      exact .copied (by decide) _

theorem within_link (h : Within browser bound children) :
    Within browser (bound + 1) [link browser element children] := by
  unfold link
  dsimp only
  split
  case h_1 c text hhref =>
    have heq := eq_fragment_of_toList hhref
    refine within_element (built_link ?_ ?_ ?_ ?_) h
    · rw [heq]
      exact .fragment rfl (by simp)
    · exact fun _ hprop => absurd hprop List.not_mem_nil
    · intro url hprotocol hurl
      exact absurd (hurl.symm.trans heq) (href_ne_fragment hprotocol _)
    · exact fun _ hprop => absurd hprop List.not_mem_nil
  case h_2 =>
    split
    case h_1 url hurl =>
      by_cases hprotocol : url.protocol ∈ linkProtocols
      · rw [if_pos hprotocol]
        refine within_element (built_link (.address rfl hurl hprotocol) ?_ ?_ (by decide)) h
        · intro prop hprop
          exact .fixed ((by decide : ∀ prop ∈ [("target", PropValue.string "_blank"),
            ("rel", .string "noopener noreferrer nofollow")], prop ∈ fixedProps) prop hprop)
        · exact fun _ _ _ => List.mem_cons_of_mem _ List.mem_cons_self
      · rw [if_neg hprotocol]
        exact within_inertLink _ h
    case h_2 => exact within_inertLink _ h

theorem within_icon {size : ℤ} (hname : name ∈ icons) (hmin : 14 ≤ size) (hmax : size ≤ 16) :
    Within browser (bound + 1) [iconElement name size] := by
  refine within_element (built_of_allowed (.icon hname) (by simp) (by simp) ?_) within_nil
  intro prop hprop
  rw [List.mem_cons, List.mem_singleton] at hprop
  rcases hprop with rfl | rfl
  · exact .fixed (by decide)
  · exact .number (by decide : ("size", 14, 16) ∈ numericBounds) hmin hmax

theorem within_imagePlaceholder : Within browser (bound + 2) [imagePlaceholder element] := by
  unfold imagePlaceholder
  refine within_element (built_of_allowed (.tag (by decide)) (by simp) (by simp) ?_)
    (within_cons (within_icon (by decide) (by decide) (by decide)) (within_text _))
  intro prop hprop
  rw [List.mem_cons, List.mem_singleton] at hprop
  rcases hprop with rfl | rfl
  · exact .fixed (by decide)
  · exact .copied (by decide) _

theorem within_checkbox : Within browser (bound + 1) [checkbox browser element] := by
  unfold checkbox
  split_ifs
  · refine within_element ⟨.input, ?_, ?_, fun _ => ⟨_, rfl⟩⟩ within_nil
    · intro prop hprop
      simp only [List.mem_cons, List.not_mem_nil, or_false] at hprop
      rcases hprop with rfl | rfl | rfl | rfl
      · exact .fixed (by decide)
      · exact .fixed (by decide)
      · exact .fixed (by decide)
      · exact .flag (by decide) _
    · intro url _ hmem
      simp at hmem
  · exact within_nothing

theorem mem_of_highlightLanguage {info language : String}
    (h : highlightLanguage browser info = some language) : language ∈ highlightLanguages := by
  unfold highlightLanguage at h
  dsimp only at h
  split_ifs at h with hmem
  exact Option.some.inj h ▸ hmem

theorem within_codeBlock {childNodes : List DomNode} (h : Within browser (bound + 1) children) :
    Within browser (bound + 2) [codeBlock browser childNodes children] := by
  unfold codeBlock
  split
  case h_1 source nodes hcode =>
    dsimp only
    split
    case h_1 language hlanguage =>
      obtain ⟨info, -, hlanguage⟩ := Option.bind_eq_some_iff.mp hlanguage
      refine within_element (built_of_allowed .highlightedCode (by simp) (by simp) ?_) within_nil
      intro prop hprop
      simp only [List.mem_cons, List.not_mem_nil, or_false] at hprop
      rcases hprop with rfl | rfl | rfl | rfl
      · exact .source rfl _
      · exact .language rfl (mem_of_highlightLanguage hlanguage)
      · exact .fixed (by decide)
      · exact .fixed (by decide)
    case h_2 =>
      refine within_element (built_of_allowed (.tag (by decide)) (by simp) (by simp) ?_)
        (within_element (built_of_allowed (.tag (by decide)) (by simp) (by simp) ?_)
          (within_text _))
      · intro prop hprop
        simp only [List.mem_cons, List.not_mem_nil, or_false] at hprop
        rcases hprop with rfl | rfl | rfl
        · exact .fixed (by decide)
        · exact .number (by decide : ("tabIndex", 0, 0) ∈ numericBounds) le_rfl le_rfl
        · exact .fixed (by decide)
      · exact fun _ hprop => absurd hprop List.not_mem_nil
  case h_2 =>
    refine within_element (built_of_allowed (.tag (by decide)) (by simp) (by simp) ?_) h
    intro prop hprop
    rw [List.mem_cons, List.mem_singleton] at hprop
    rcases hprop with rfl | rfl
    · exact .fixed (by decide)
    · exact .number (by decide : ("tabIndex", 0, 0) ∈ numericBounds) le_rfl le_rfl

/-- An alert of a known kind has a class and an icon of its own. -/
theorem alerts_fixed {alertKind title icon : String}
    (h : alerts.lookup alertKind = some (title, icon)) :
    ("class", PropValue.string ("markdown-alert markdown-alert-" ++ alertKind)) ∈ fixedProps ∧
      icon ∈ icons := by
  obtain ⟨before, after, heq, -⟩ := List.lookup_eq_some_iff.mp h
  have hmem : (alertKind, title, icon) ∈ alerts :=
    heq ▸ List.mem_append_right _ List.mem_cons_self
  exact (by decide : ∀ alert ∈ alerts, ("class", PropValue.string
    ("markdown-alert markdown-alert-" ++ alert.1)) ∈ fixedProps ∧ alert.2.2 ∈ icons) _ hmem

theorem within_alertBlock {alertKind title icon : String}
    (halert : alerts.lookup alertKind = some (title, icon))
    (h : Within browser (bound + 2) children) :
    Within browser (bound + 3) [alertBlock alertKind title icon children] := by
  obtain ⟨hclass, hicon⟩ := alerts_fixed halert
  have htitle : Within browser (bound + 2) [.element (.tag "p")
      [("class", .string "markdown-alert-title")] [iconElement icon 16, .text title]] := by
    refine within_element (built_of_allowed (.tag (by decide)) (by simp) (by simp) ?_)
      (within_cons (within_icon hicon (by decide) (by decide)) (within_text _))
    intro prop hprop
    rw [List.mem_singleton.mp hprop]
    exact .fixed (by decide)
  refine within_element (built_of_allowed (.tag (by decide)) (by simp) (by simp) ?_)
    (within_cons htitle (within_fragment h))
  intro prop hprop
  rw [List.mem_cons, List.mem_singleton] at hprop
  rcases hprop with rfl | rfl
  · exact .fixed hclass
  · exact .fixed (by decide)

/-! ### The walk -/

/-- An element that stands for itself. -/
theorem within_ownElement (htag : tag ∈ allowed) (h : Within browser bound children) :
    Within browser (bound + 1) [.element (.tag tag) (attributes browser element tag) children] := by
  have hlink : tag ≠ "a" := ne_of_mem_of_not_mem htag (by decide)
  have hinput : tag ≠ "input" := ne_of_mem_of_not_mem htag (by decide)
  exact within_element (built_of_allowed (.tag htag) (by simpa using hlink) (by simpa using hinput)
    fun _ hprop => allowed_of_mem_attributes hprop) h

theorem within_fromElement {childNodes : List DomNode} (h : Within browser (bound + 2) children) :
    Within browser (bound + 3) [fromElement browser tag element childNodes children] := by
  have hown : Within browser (bound + 3) [if tag ∈ allowed then
      .element (.tag tag) (attributes browser element tag) children else .fragment children] := by
    split_ifs with htag
    · exact within_ownElement htag h
    · exact within_mono (within_fragment h) (Nat.le_succ _)
  unfold fromElement
  by_cases ha : tag = "a"
  · rw [if_pos ha]
    exact within_link h
  rw [if_neg ha]
  by_cases himg : tag = "img"
  · rw [if_pos himg]
    exact within_imagePlaceholder
  rw [if_neg himg]
  by_cases hinput : tag = "input"
  · rw [if_pos hinput]
    exact within_checkbox
  rw [if_neg hinput]
  by_cases hpre : tag = "pre"
  · rw [if_pos hpre]
    exact within_codeBlock h
  rw [if_neg hpre]
  dsimp only
  cases halert : (if tag = "blockquote" then (getAttribute element "data-alert").bind fun kind =>
    (alerts.lookup kind).map fun alert => alertBlock kind alert.1 alert.2 children else none) with
  | none => exact hown
  | some alert =>
    split_ifs at halert
    obtain ⟨alertKind, -, hlookup⟩ := Option.bind_eq_some_iff.mp halert
    obtain ⟨⟨title, icon⟩, hfound, rfl⟩ := Option.map_eq_some_iff.mp hlookup
    exact within_alertBlock hfound h

mutual

/-- At the depth where the walk stops there is only text; a level above it adds one. -/
theorem within_toElement (node : DomNode) (depth : ℕ) :
    Within browser (maxDepth + 2 - depth) [toElement browser node depth] := by
  match node with
  | .text data => exact within_text data
  | .other => exact within_nothing
  | .element namespaceURI tag element childNodes =>
    rw [toElement]
    by_cases hnamespace : namespaceURI ≠ some xhtml
    · rw [if_pos hnamespace]
      exact within_nothing
    rw [if_neg hnamespace]
    by_cases hdropped : tag ∈ dropped
    · rw [if_pos hdropped]
      exact within_nothing
    rw [if_neg hdropped]
    by_cases hdepth : maxDepth ≤ depth
    · rw [if_pos hdepth]
      exact within_text _
    rw [if_neg hdepth]
    have hchildren := within_toElements childNodes (depth + 1)
    rw [show maxDepth + 2 - (depth + 1) = maxDepth - depth - 1 + 2 by omega] at hchildren
    rw [show maxDepth + 2 - depth = maxDepth - depth - 1 + 3 by omega]
    exact within_fromElement hchildren

theorem within_toElements (nodes : List DomNode) (depth : ℕ) :
    Within browser (maxDepth + 2 - depth) (toElements browser nodes depth) := by
  match nodes with
  | [] => exact within_nil
  | node :: nodes =>
    rw [toElements]
    exact within_cons (within_toElement node depth) (within_toElements nodes depth)

end

/-! ### The rendering of a document -/

/-- Elements that load, run, send or style something. -/
def forbidden : List String :=
  dropped ++ ["img", "image", "map", "area", "applet", "param", "form", "button", "option",
    "optgroup", "datalist", "fieldset", "label", "output", "html", "body"]

/-- An element and its properties are confined to what a document may show. -/
structure Confined (browser : Browser) (kind : Kind) (props : Props) : Prop where
  element : AllowedKind kind
  not_forbidden : ∀ tag ∈ forbidden, kind ≠ .tag tag
  checkbox : kind = .tag "input" → ∃ checked, props = taskProps checked
  names : ∀ prop ∈ props, prop.1 ∈ propNames
  no_handler : ∀ prop ∈ props, ¬"on".toList <+: prop.1.toList
  ids : ∀ value, ("id", value) ∈ props → ∃ text ≠ "", value = .string ("user-content-" ++ text)
  hrefs : ∀ value, ("href", value) ∈ props → kind = .tag "a" ∧
    ((∃ text ≠ "", value = .string ("#" ++ text)) ∨
      (∃ text url, browser.newUrl text = some url ∧ url.protocol ∈ ["http:", "https:", "mailto:"] ∧
        value = .string (url.protocol ++ url.afterScheme)) ∧
        ("rel", .string "noopener noreferrer nofollow") ∈ props)
  styles : ∀ value, ("style", value) ∈ props → (kind = .tag "td" ∨ kind = .tag "th") ∧
    ∃ align ∈ ["left", "right", "center"], value = .textAlign align
  numbers : ∀ name min max, (name, min, max) ∈ numericBounds → ∀ value, (name, value) ∈ props →
    ∃ number, value = .number number ∧ min ≤ number ∧ number ≤ max

theorem AllowedKind.not_forbidden (h : AllowedKind kind) : ∀ tag ∈ forbidden, kind ≠ .tag tag := by
  rintro tag htag rfl
  have hdisjoint : ∀ tag ∈ forbidden, tag ∉ allowed ∧ tag ≠ "a" ∧ tag ≠ "input" := by decide
  obtain ⟨hallowed, hlink, hinput⟩ := hdisjoint tag htag
  cases h with
  | tag hmem => exact hallowed hmem
  | link => exact hlink rfl
  | input => exact hinput rfl

theorem Built.confined (h : Built browser kind props) : Confined browser kind props where
  element := h.kind_allowed
  not_forbidden := h.kind_allowed.not_forbidden
  checkbox := h.input
  names := fun prop hprop => (h.props_allowed prop hprop).name_mem
  no_handler := by
    intro prop hprop
    exact (by decide : ∀ name ∈ propNames, ¬"on".toList <+: name.toList) _
      (h.props_allowed prop hprop).name_mem
  ids := fun value hvalue => (h.props_allowed _ hvalue).id_eq rfl
  hrefs := by
    intro value hvalue
    obtain ⟨hkind, hfragment | ⟨text, url, hurl, hprotocol, heq⟩⟩ :=
      (h.props_allowed _ hvalue).href rfl
    · exact ⟨hkind, .inl hfragment⟩
    · have hvalue' : ("href", .string url.href) ∈ props := (heq : value = _) ▸ hvalue
      exact ⟨hkind, .inr ⟨⟨text, url, hurl, hprotocol, heq⟩, h.opener url hprotocol hvalue'⟩⟩
  styles := fun value hvalue => (h.props_allowed _ hvalue).style_eq rfl
  numbers := by
    intro name min max hbounds value hvalue
    exact (h.props_allowed _ hvalue).number_bounded rfl hbounds

/-- Whatever document was parsed, every element that is built from it is confined, and they are
nested at most two levels deeper than the walk goes. -/
theorem rendering_is_confined (browser : Browser) (body : List DomNode) :
    (∀ element ∈ elementsOf (toElements browser body 0), Confined browser element.1 element.2) ∧
      nestingOf (toElements browser body 0) ≤ 64 + 2 := by
  have h : Within browser (maxDepth + 2 - 0) (toElements browser body 0) := within_toElements body 0
  exact ⟨fun element helement => (h.built element helement).confined, h.nesting⟩

end Crabinet.Web
