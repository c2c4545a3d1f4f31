import Crabinet.Web.MarkdownSafety

/-!
# The text of rendered Markdown

What a rendering shows is the text of the document without what is inside dropped elements, of
foreign namespaces or of the list. A code block shows only its code, without a line feed at its
end. Where the walk takes the text of a whole subtree, it is the same text if the subtree has no
dropped element with text.
-/

namespace Crabinet.Web

variable {browser : Browser} {kind : Kind} {props : Props} {prop : String × PropValue}
  {element : List (String × String)} {children : List Rendered} {tag : String} {depth : ℕ}

/-! ### The text of a rendering -/

/-- The placeholder of an image and the title of an alert. -/
def labels : List (String × PropValue) :=
  [("class", .string "markdown-image-placeholder"), ("class", .string "markdown-alert-title")]

/-- The text that a component is given. -/
def sourceText (props : Props) : String :=
  match props.lookup "source" with
  | some (.string source) => source
  | _ => ""

mutual

/-- The text of a rendering, labels aside. -/
def Rendered.shownText : Rendered → String
  | .text data => data
  | .nothing => ""
  | .fragment children => shownTextOf children
  | .element kind props children =>
    if ∃ label ∈ labels, label ∈ props then ""
    else if kind = .highlightedCode then sourceText props
    else shownTextOf children

def shownTextOf : List Rendered → String
  | [] => ""
  | rendered :: rest => rendered.shownText ++ shownTextOf rest

end

/-! ### The text of a document -/

/-- An element whose content is not shown. -/
def isDropped (namespaceURI : Option String) (tag : String) : Bool :=
  namespaceURI ≠ some xhtml || tag ∈ dropped

mutual

/-- The text nodes that are not inside a dropped element, in document order. -/
def visibleText : DomNode → String
  | .text data => data
  | .other => ""
  | .element namespaceURI tag _ childNodes =>
    if isDropped namespaceURI tag then "" else visibleTexts childNodes

def visibleTexts : List DomNode → String
  | [] => ""
  | node :: nodes => visibleText node ++ visibleTexts nodes

end

/-- The code of a block: the only element of a `pre`. -/
def codeElement (childNodes : List DomNode) : Option DomNode :=
  match childElements childNodes with
  | [.element namespaceURI "code" attributes nodes] => some (.element namespaceURI "code" attributes nodes)
  | _ => none

/-- The code of an element that is a code block. -/
def blockCode (tag : String) (childNodes : List DomNode) : Option DomNode :=
  if tag = "pre" then codeElement childNodes else none

mutual

/-- The visible text, except that a code block has that of its code without a line feed at its end,
and that images and inputs have none. -/
def expectedText : DomNode → ℕ → String
  | .text data, _ => data
  | .other, _ => ""
  | .element namespaceURI tag _ childNodes, depth =>
    if isDropped namespaceURI tag then ""
    else if maxDepth ≤ depth then visibleTexts childNodes
    else if tag = "img" ∨ tag = "input" then ""
    else match blockCode tag childNodes with
      | some code => withoutFinalLineFeed (visibleText code)
      | none => expectedTexts childNodes (depth + 1)

def expectedTexts : List DomNode → ℕ → String
  | [], _ => ""
  | node :: nodes, depth => expectedText node depth ++ expectedTexts nodes depth

end

/-! ### Subtrees without hidden text -/

mutual

/-- No dropped element of a subtree has text. -/
def hidesNothing : DomNode → Bool
  | .text _ | .other => true
  | .element namespaceURI tag _ childNodes =>
    if isDropped namespaceURI tag then textContents childNodes = "" else hideNothing childNodes

def hideNothing : List DomNode → Bool
  | [] => true
  | node :: nodes => hidesNothing node && hideNothing nodes

end

mutual

/-- Of what is flattened and of the code of code blocks, nothing is hidden. -/
def flattensClean : DomNode → ℕ → Bool
  | .text _, _ | .other, _ => true
  | .element namespaceURI tag _ childNodes, depth =>
    if isDropped namespaceURI tag then true
    else if maxDepth ≤ depth then hideNothing childNodes
    else if tag = "img" ∨ tag = "input" then true
    else match blockCode tag childNodes with
      | some code => hidesNothing code
      | none => flattenClean childNodes (depth + 1)

def flattenClean : List DomNode → ℕ → Bool
  | [], _ => true
  | node :: nodes, depth => flattensClean node depth && flattenClean nodes depth

end

mutual

/-- Where nothing is hidden, all text is visible. -/
theorem textContent_eq (node : DomNode) (h : hidesNothing node = true) :
    textContent node = visibleText node := by
  match node with
  | .text data => rfl
  | .other => rfl
  | .element namespaceURI tag element childNodes =>
    rw [textContent, visibleText]
    rw [hidesNothing] at h
    cases hdropped : isDropped namespaceURI tag with
    | true =>
      rw [hdropped, if_pos rfl, decide_eq_true_eq] at h
      rw [if_pos rfl, h]
    | false =>
      rw [hdropped, if_neg Bool.false_ne_true] at h
      rw [if_neg Bool.false_ne_true, textContents_eq childNodes h]

theorem textContents_eq (nodes : List DomNode) (h : hideNothing nodes = true) :
    textContents nodes = visibleTexts nodes := by
  match nodes with
  | [] => rfl
  | node :: nodes =>
    rw [hideNothing, Bool.and_eq_true] at h
    rw [textContents, visibleTexts, textContent_eq node h.1, textContents_eq nodes h.2]

end

/-! ### What the elements of the walk show -/

/-- No property makes a label. -/
def Unlabelled (props : Props) : Prop := ∀ prop ∈ props, prop ∉ labels

theorem notMem_labels {name : String} (h : name ≠ "class") (value : PropValue) : (name, value) ∉ labels :=
  fun hmem => h ((by decide : ∀ label ∈ labels, label.1 = "class") _ hmem)

theorem unlabelled_nil : Unlabelled [] := fun _ hprop => absurd hprop List.not_mem_nil

theorem unlabelled_singleton (h : prop ∉ labels) : Unlabelled [prop] := by
  intro other hother
  rwa [List.mem_singleton.mp hother]

theorem Unlabelled.append {first second : Props} (hfirst : Unlabelled first) (hsecond : Unlabelled second) :
    Unlabelled (first ++ second) :=
  fun prop hprop => (List.mem_append.mp hprop).elim (hfirst prop) (hsecond prop)

theorem Unlabelled.ite {condition : Prop} [Decidable condition] (h : Unlabelled props) :
    Unlabelled (if condition then props else []) := by
  split
  · exact h
  · exact unlabelled_nil

theorem unlabelled_idProps : Unlabelled (idProps element) := by
  unfold idProps
  split
  · split
    · exact unlabelled_nil
    · exact unlabelled_singleton (notMem_labels (by decide) _)
  · exact unlabelled_nil

theorem unlabelled_copied {name target : String} (h : target ≠ "class") :
    Unlabelled (copied element name target) := by
  intro prop hprop
  rw [copied, Option.mem_toList, Option.map_eq_some_iff] at hprop
  obtain ⟨value, -, rfl⟩ := hprop
  exact notMem_labels h _

theorem unlabelled_copyFlag {name : String} (h : name ≠ "class") : Unlabelled (copyFlag element name) :=
  (unlabelled_singleton (notMem_labels h _)).ite

theorem unlabelled_copyNumber {name : String} {min max : ℤ} (h : name ≠ "class") :
    Unlabelled (copyNumber element name min max) := by
  unfold copyNumber
  split
  · exact unlabelled_singleton (notMem_labels h _)
  · exact unlabelled_nil

theorem unlabelled_alignProps : Unlabelled (alignProps browser element tag) := by
  unfold alignProps
  split
  · exact (unlabelled_singleton (notMem_labels (by decide) _)).ite
  · exact unlabelled_nil

theorem unlabelled_styleProps : Unlabelled (styleProps element) := by
  unfold styleProps
  split
  · exact unlabelled_singleton (notMem_labels (by decide) _)
  · exact unlabelled_nil

/-- No attribute is copied to a class. -/
theorem unlabelled_attributes : Unlabelled (attributes browser element tag) := by
  have hglobal : Unlabelled (idProps element ++ copied element "title" "title" ++
      copied element "lang" "lang" ++ copied element "dir" "dir") :=
    ((unlabelled_idProps.append (unlabelled_copied (by decide))).append
      (unlabelled_copied (by decide))).append (unlabelled_copied (by decide))
  have hcell : Unlabelled (styleProps element ++ copyNumber element "colspan" 1 1000 ++
      copyNumber element "rowspan" 0 65534) :=
    (unlabelled_styleProps.append (unlabelled_copyNumber (by decide))).append
      (unlabelled_copyNumber (by decide))
  have hlist : Unlabelled (copyNumber element "start" (-1000000000) 1000000000 ++
      copyFlag element "reversed") :=
    (unlabelled_copyNumber (by decide)).append (unlabelled_copyFlag (by decide))
  exact (((((hglobal.append unlabelled_alignProps).append hcell.ite).append hlist.ite).append
    (unlabelled_copyNumber (by decide)).ite).append (unlabelled_copyFlag (by decide)).ite).append
    (unlabelled_copied (by decide)).ite

/-- An element of the page shows its children, unless it is a label. -/
theorem shownText_tag (h : Unlabelled props) :
    (Rendered.element (.tag tag) props children).shownText = shownTextOf children := by
  have hlabels : ¬∃ label ∈ labels, label ∈ props := by
    rintro ⟨label, hlabel, hmem⟩
    exact h label hmem hlabel
  rw [Rendered.shownText, if_neg hlabels, if_neg (by simp)]

theorem shownText_link : (link browser element children).shownText = shownTextOf children := by
  have hinert (href : String) : Unlabelled (idProps element ++ [("class", .string "markdown-inert-link")] ++
      (if href = "" then [] else [("title", .string ("Link not opened: " ++ href))])) := by
    refine (unlabelled_idProps.append (unlabelled_singleton (by decide))).append ?_
    split
    · exact unlabelled_nil
    · exact unlabelled_singleton (notMem_labels (by decide) _)
  have haddress (href : String) : Unlabelled [("href", .string href)] :=
    unlabelled_singleton (notMem_labels (by decide) _)
  unfold link
  dsimp only
  split
  · exact shownText_tag (unlabelled_idProps.append (haddress _))
  · split
    · split
      · refine shownText_tag (unlabelled_idProps.append ((haddress _).append ?_))
        exact (unlabelled_singleton (by decide)).append (unlabelled_singleton (by decide))
      · exact shownText_tag (hinert _)
    · exact shownText_tag (hinert _)

/-- The placeholder of an image is a label. -/
theorem shownText_imagePlaceholder : (imagePlaceholder element).shownText = "" := by
  rw [imagePlaceholder, Rendered.shownText, if_pos ⟨_, List.mem_cons_self, List.mem_cons_self⟩]

theorem shownText_checkbox : (checkbox browser element).shownText = "" := by
  unfold checkbox
  split
  · have hfixed : Unlabelled [("type", .string "checkbox"), ("class", .string "markdown-task"),
        ("disabled", .flag true)] :=
      (unlabelled_singleton (by decide)).append <| (unlabelled_singleton (by decide)).append <|
        unlabelled_singleton (by decide)
    exact shownText_tag (hfixed.append (unlabelled_singleton (notMem_labels (by decide) _)))
  · rfl

/-- The title of an alert is a label; the alert shows its content. -/
theorem shownText_alertBlock {alertKind title icon : String}
    (h : alerts.lookup alertKind = some (title, icon)) :
    (alertBlock alertKind title icon children).shownText = shownTextOf children := by
  have hclass : ("class", PropValue.string ("markdown-alert markdown-alert-" ++ alertKind)) ∉ labels := by
    obtain ⟨before, after, heq, -⟩ := List.lookup_eq_some_iff.mp h
    have hmem : (alertKind, title, icon) ∈ alerts :=
      heq ▸ List.mem_append_right _ List.mem_cons_self
    exact (by decide : ∀ alert ∈ alerts,
      ("class", PropValue.string ("markdown-alert markdown-alert-" ++ alert.1)) ∉ labels) _ hmem
  have htitle : (Rendered.element (.tag "p") [("class", .string "markdown-alert-title")]
      [iconElement icon 16, .text title]).shownText = "" := by
    rw [Rendered.shownText, if_pos ⟨_, List.mem_cons_of_mem _ List.mem_cons_self, List.mem_cons_self⟩]
  have hprops : Unlabelled [("class", .string ("markdown-alert markdown-alert-" ++ alertKind)),
      ("role", .string "note")] :=
    (unlabelled_singleton hclass).append (unlabelled_singleton (by decide))
  rw [alertBlock, shownText_tag hprops, shownTextOf, shownTextOf, shownTextOf, htitle, Rendered.shownText,
    String.empty_append, String.append_empty]

theorem unlabelled_codeProps : Unlabelled [("class", .string "markdown-code"), ("tabIndex", .number 0)] :=
  (unlabelled_singleton (by decide)).append (unlabelled_singleton (by decide))

theorem codeBlock_other {childNodes : List DomNode} (h : ¬∃ namespaceURI attributes nodes,
    childElements childNodes = [.element namespaceURI "code" attributes nodes]) :
    codeBlock browser childNodes children =
      .element (.tag "pre") [("class", .string "markdown-code"), ("tabIndex", .number 0)] children := by
  unfold codeBlock
  split
  · exact absurd ⟨_, _, _, ‹_›⟩ h
  · rfl

theorem codeElement_other {childNodes : List DomNode} (h : ¬∃ namespaceURI attributes nodes,
    childElements childNodes = [.element namespaceURI "code" attributes nodes]) :
    codeElement childNodes = none := by
  unfold codeElement
  split
  · exact absurd ⟨_, _, _, ‹_›⟩ h
  · rfl

/-- A code block shows its code, highlighted or not; any other `pre` shows its children. -/
theorem shownText_codeBlock {childNodes : List DomNode} : (codeBlock browser childNodes children).shownText =
    match codeElement childNodes with
    | some code => withoutFinalLineFeed (textContent code)
    | none => shownTextOf children := by
  have hpre : Unlabelled [("class", .string "markdown-code"), ("tabIndex", .number 0),
      ("aria-label", .string "Code block")] :=
    unlabelled_codeProps.append (unlabelled_singleton (by decide))
  have hcomponent (source language : String) : ¬∃ label ∈ labels, label ∈ [("source",
      PropValue.string source), ("language", .string language), ("wrap", .flag false),
      ("label", .string "Code block")] := by
    simp [labels]
  by_cases hcode : ∃ namespaceURI attributes nodes,
      childElements childNodes = [.element namespaceURI "code" attributes nodes]
  · obtain ⟨namespaceURI, attributes, nodes, hcode⟩ := hcode
    rw [codeBlock, codeElement, hcode]
    simp only [textContent]
    split
    · rw [Rendered.shownText, if_neg (hcomponent _ _), if_pos rfl]
      rfl
    · rw [shownText_tag hpre, shownTextOf, shownText_tag unlabelled_nil]
      simp [shownTextOf, Rendered.shownText]
  · rw [codeBlock_other hcode, codeElement_other hcode, shownText_tag unlabelled_codeProps]

/-- What an element shows, from what its children show. -/
theorem shownText_fromElement {childNodes : List DomNode} :
    (fromElement browser tag element childNodes children).shownText =
      if tag = "img" ∨ tag = "input" then ""
      else match blockCode tag childNodes with
        | some code => withoutFinalLineFeed (textContent code)
        | none => shownTextOf children := by
  have hown : (if tag ∈ allowed then Rendered.element (.tag tag) (attributes browser element tag) children
      else .fragment children).shownText = shownTextOf children := by
    split
    · exact shownText_tag unlabelled_attributes
    · rfl
  unfold fromElement blockCode
  by_cases ha : tag = "a"
  · have hvoid : ¬(tag = "img" ∨ tag = "input") := by simp [ha]
    have hpre : tag ≠ "pre" := by simp [ha]
    rw [if_pos ha, if_neg hvoid, if_neg hpre]
    exact shownText_link
  rw [if_neg ha]
  by_cases himg : tag = "img"
  · rw [if_pos himg, if_pos (.inl himg)]
    exact shownText_imagePlaceholder
  rw [if_neg himg]
  by_cases hinput : tag = "input"
  · rw [if_pos hinput, if_pos (.inr hinput)]
    exact shownText_checkbox
  rw [if_neg hinput, if_neg (not_or.mpr ⟨himg, hinput⟩)]
  by_cases hpre : tag = "pre"
  · rw [if_pos hpre, if_pos hpre]
    exact shownText_codeBlock
  rw [if_neg hpre, if_neg hpre]
  dsimp only
  cases halert : (if tag = "blockquote" then (getAttribute element "data-alert").bind fun kind =>
    (alerts.lookup kind).map fun alert => alertBlock kind alert.1 alert.2 children else none) with
  | none => exact hown
  | some alert =>
    split_ifs at halert
    obtain ⟨alertKind, -, hlookup⟩ := Option.bind_eq_some_iff.mp halert
    obtain ⟨⟨title, icon⟩, hfound, rfl⟩ := Option.map_eq_some_iff.mp hlookup
    exact shownText_alertBlock hfound

/-! ### The walk -/

/-- The walk shows nothing of a dropped element. -/
theorem toElement_of_dropped {namespaceURI : Option String} {childNodes : List DomNode}
    (h : isDropped namespaceURI tag = true) :
    toElement browser (.element namespaceURI tag element childNodes) depth = .nothing := by
  rw [isDropped, Bool.or_eq_true, decide_eq_true_eq, decide_eq_true_eq] at h
  rw [toElement]
  rcases h with hnamespace | htag
  · exact if_pos hnamespace
  · by_cases hnamespace : namespaceURI ≠ some xhtml
    · exact if_pos hnamespace
    · rw [if_neg hnamespace, if_pos htag]

theorem toElement_of_not_dropped {namespaceURI : Option String} {childNodes : List DomNode}
    (h : isDropped namespaceURI tag = false) :
    toElement browser (.element namespaceURI tag element childNodes) depth =
      if maxDepth ≤ depth then .text (textContents childNodes)
      else fromElement browser tag element childNodes (toElements browser childNodes (depth + 1)) := by
  rw [isDropped, Bool.or_eq_false_iff, decide_eq_false_iff_not, decide_eq_false_iff_not] at h
  rw [toElement, if_neg h.1, if_neg h.2]

mutual

/-- A node shows its text; the induction is over the document. -/
theorem shownText_toElement (node : DomNode) (depth : ℕ) (h : flattensClean node depth = true) :
    (toElement browser node depth).shownText = expectedText node depth := by
  match node with
  | .text data => rfl
  | .other => rfl
  | .element namespaceURI tag element childNodes =>
    rw [flattensClean] at h
    rw [expectedText]
    cases hdropped : isDropped namespaceURI tag with
    | true => rw [toElement_of_dropped hdropped, if_pos rfl, Rendered.shownText]
    | false =>
      rw [hdropped, if_neg Bool.false_ne_true] at h
      rw [toElement_of_not_dropped hdropped, if_neg Bool.false_ne_true]
      by_cases hdepth : maxDepth ≤ depth
      · rw [if_pos hdepth] at h ⊢
        rw [if_pos hdepth, Rendered.shownText, textContents_eq childNodes h]
      rw [if_neg hdepth] at h ⊢
      rw [if_neg hdepth, shownText_fromElement]
      by_cases hvoid : tag = "img" ∨ tag = "input"
      · rw [if_pos hvoid, if_pos hvoid]
      rw [if_neg hvoid] at h ⊢
      rw [if_neg hvoid]
      cases hcode : blockCode tag childNodes with
      | some code =>
        rw [hcode] at h
        dsimp only
        rw [textContent_eq code h]
      | none =>
        rw [hcode] at h
        exact shownText_toElements childNodes (depth + 1) h

theorem shownText_toElements (nodes : List DomNode) (depth : ℕ) (h : flattenClean nodes depth = true) :
    shownTextOf (toElements browser nodes depth) = expectedTexts nodes depth := by
  match nodes with
  | [] => rfl
  | node :: nodes =>
    rw [flattenClean, Bool.and_eq_true] at h
    rw [toElements, shownTextOf, expectedTexts, shownText_toElement node depth h.1,
      shownText_toElements nodes depth h.2]

end

/-- Labels aside, a rendering shows the text nodes that are not inside a dropped element, in their
order. Of a code block it shows only the code, without a line feed at its end, and of images and
inputs nothing. -/
theorem shows_visible_text (browser : Browser) (body : List DomNode) (h : flattenClean body 0 = true) :
    shownTextOf (toElements browser body 0) = expectedTexts body 0 :=
  shownText_toElements body 0 h

/-- A browser for ASCII that knows no address. -/
def plainBrowser : Browser := ⟨fun text => text.map Char.toLower, fun _ => none⟩

/-- An element of a page. -/
def htmlElement (tag : String) (childNodes : List DomNode) : DomNode := .element (some xhtml) tag [] childNodes

theorem shows_visible_text_of_paragraph :
    shownTextOf (toElements plainBrowser [htmlElement "p" [.text "a", htmlElement "script" [.text "b"]],
        htmlElement "pre" [htmlElement "code" [.text "c\n"]]] 0) =
      expectedTexts [htmlElement "p" [.text "a", htmlElement "script" [.text "b"]],
        htmlElement "pre" [htmlElement "code" [.text "c\n"]]] 0 :=
  shows_visible_text _ _ (by decide +kernel)

/-- The line feed at the end of a code block, the text beside its code, and what an input has inside
are text nodes, and are not shown. -/
theorem shown_text_differs :
    shownTextOf (toElements plainBrowser [htmlElement "pre" [htmlElement "code" [.text "c\n"]]] 0) ≠
        visibleTexts [htmlElement "pre" [htmlElement "code" [.text "c\n"]]] ∧
      shownTextOf (toElements plainBrowser
          [htmlElement "pre" [.text "a", htmlElement "code" [.text "c"]]] 0) ≠
        visibleTexts [htmlElement "pre" [.text "a", htmlElement "code" [.text "c"]]] ∧
      shownTextOf (toElements plainBrowser [htmlElement "input" [.text "b"]] 0) ≠
        visibleTexts [htmlElement "input" [.text "b"]] := by
  decide +kernel

end Crabinet.Web
