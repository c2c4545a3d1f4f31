import Crabinet.Client.ClientAddress
import Crabinet.Client.IpText

/-!
# What a client can make of the forwarding header

The trusted proxy's element comes last. Outside quoted strings it is split off whatever
the client wrote before it; read from inside a quoted string that the client left open, it
may close that string and become part of the client's own entry.
-/

namespace Crabinet.Client

/-- The state after one more character; separators do not matter to it. -/
def Scan.next : Scan → Char → Scan
  | .escaped, _ => .quoted
  | .quoted, c => if c = '\\' then .escaped else if c = '"' then .plain else .quoted
  | .plain, c => if c = '"' then .quoted else .plain

/-- The state after a text. -/
def scanFrom (scan : Scan) (text : List Char) : Scan := text.foldl Scan.next scan

theorem scanFrom_append (scan : Scan) (first second : List Char) :
    scanFrom scan (first ++ second) = scanFrom (scanFrom scan first) second :=
  List.foldl_append

theorem feed_scan (separator : Char) (split : Split) (c : Char) :
    (split.feed separator c).scan = split.scan.next c := by
  obtain ⟨scan, parts, current⟩ := split
  cases scan with
  | escaped => rfl
  | quoted => rfl
  | plain =>
    simp only [Split.feed, Scan.next]
    split
    · rfl
    · split <;> rfl

theorem foldl_feed_scan (separator : Char) (split : Split) (text : List Char) :
    (text.foldl (Split.feed separator) split).scan = scanFrom split.scan text := by
  induction text generalizing split with
  | nil => rfl
  | cons c rest ih => rw [List.foldl_cons, ih, feed_scan, scanFrom, scanFrom, List.foldl_cons]

/-- The split of a text that follows finished parts and an unfinished one. -/
def Split.after (parts : List (List Char)) (current : List Char) (split : Split) : Split :=
  match split.parts with
  | [] => ⟨split.scan, parts, current ++ split.current⟩
  | first :: rest => ⟨split.scan, parts ++ (current ++ first) :: rest, split.current⟩

theorem feed_after (separator : Char) (parts : List (List Char)) (current : List Char)
    (split : Split) (c : Char) :
    (split.after parts current).feed separator c = (split.feed separator c).after parts current := by
  obtain ⟨scan, done, reading⟩ := split
  cases scan with
  | escaped => cases done <;> simp [Split.after, Split.feed]
  | quoted => cases done <;> simp [Split.after, Split.feed]
  | plain =>
    by_cases hquote : c = '"'
    · cases done <;> simp [Split.after, Split.feed, hquote]
    · by_cases hseparator : c = separator
      · subst hseparator
        cases done <;> simp [Split.after, Split.feed, hquote]
      · cases done <;> simp [Split.after, Split.feed, hquote, hseparator]

/-- Reading on after some parts only puts them in front. -/
theorem foldl_feed_after (separator : Char) (scan : Scan) (parts : List (List Char))
    (current text : List Char) :
    text.foldl (Split.feed separator) ⟨scan, parts, current⟩ =
      (text.foldl (Split.feed separator) ⟨scan, [], []⟩).after parts current := by
  have hgeneral (split : Split) : text.foldl (Split.feed separator) (split.after parts current) =
      (text.foldl (Split.feed separator) split).after parts current := by
    induction text generalizing split with
    | nil => rfl
    | cons c rest ih => rw [List.foldl_cons, List.foldl_cons, feed_after, ih]
  have hstart : (⟨scan, parts, current⟩ : Split) = Split.after parts current ⟨scan, [], []⟩ := by
    simp [Split.after]
  rw [hstart, hgeneral]

/-- Characters that are neither quotes nor separators are read as they are. -/
theorem foldl_feed_plain {separator : Char} {text : List Char}
    (htext : ∀ c ∈ text, c ≠ '"' ∧ c ≠ separator) (parts : List (List Char)) (current : List Char) :
    text.foldl (Split.feed separator) ⟨.plain, parts, current⟩ = ⟨.plain, parts, current ++ text⟩ := by
  induction text generalizing current with
  | nil => simp
  | cons c rest ih =>
    obtain ⟨hquote, hseparator⟩ := htext c (by simp)
    rw [List.foldl_cons]
    simp only [Split.feed, hquote, hseparator, if_false]
    rw [ih fun x hx => htext x (by simp [hx])]
    simp

/-- Inside a quoted string, characters that are neither quotes nor escapes are read as they are. -/
theorem foldl_feed_quoted {separator : Char} {text : List Char}
    (htext : ∀ c ∈ text, c ≠ '"' ∧ c ≠ '\\') (parts : List (List Char)) (current : List Char) :
    text.foldl (Split.feed separator) ⟨.quoted, parts, current⟩ =
      ⟨.quoted, parts, current ++ text⟩ := by
  induction text generalizing current with
  | nil => simp
  | cons c rest ih =>
    obtain ⟨hquote, hescape⟩ := htext c (by simp)
    rw [List.foldl_cons]
    simp only [Split.feed, hquote, hescape, if_false]
    rw [ih fun x hx => htext x (by simp [hx])]
    simp

/-- A text without quotes does not close a quoted string. -/
theorem scanFrom_ne_plain {scan : Scan} (hscan : scan ≠ .plain) {text : List Char}
    (htext : '"' ∉ text) : scanFrom scan text ≠ .plain := by
  induction text generalizing scan with
  | nil => exact hscan
  | cons c rest ih =>
    rw [List.mem_cons, not_or] at htext
    refine ih ?_ htext.2
    cases scan with
    | plain => exact absurd rfl hscan
    | escaped => simp [Scan.next]
    | quoted =>
      simp only [Scan.next, Ne.symm htext.1, if_false]
      split <;> simp

/-! ### White space in front of an element -/

/-- Spaces and tabs. -/
def IsBlank (text : List Char) : Prop := ∀ c ∈ text, c = ' ' ∨ c = '\t'

theorem trim_blank_append {blank : List Char} (hblank : IsBlank blank) (text : List Char) :
    trim (blank ++ text) = trim text := by
  have hdrop : (blank ++ text).dropWhile isWhiteSpace = text.dropWhile isWhiteSpace := by
    rw [List.dropWhile_append_of_pos]
    intro c hc
    rcases hblank c hc with rfl | rfl <;> decide
  rw [trim, hdrop, trim]

theorem forwardedPairs_blank {blank : List Char} (hblank : IsBlank blank) (found : Option IpAddr)
    (pair : List Char) (rest : List (List Char)) :
    forwardedPairs found ((blank ++ pair) :: rest) = forwardedPairs found (pair :: rest) := by
  rw [forwardedPairs, forwardedPairs, trim_blank_append hblank]

theorem forwardedFor_blank {blank : List Char} (hblank : IsBlank blank) (element : List Char) :
    forwardedFor (blank ++ element) = forwardedFor element := by
  have hplain : ∀ c ∈ blank, c ≠ '"' ∧ c ≠ ';' := by
    intro c hc
    rcases hblank c hc with rfl | rfl <;> decide
  simp only [forwardedFor, splitOutsideQuotes, List.foldl_append, foldl_feed_plain hplain]
  rw [foldl_feed_after]
  generalize element.foldl (Split.feed ';') ⟨.plain, [], []⟩ = split
  obtain ⟨scan, parts, current⟩ := split
  cases parts with
  | nil =>
    by_cases hscan : scan = .plain
    · simp [Split.after, hscan, forwardedPairs_blank hblank]
    · simp [Split.after, hscan]
  | cons first rest =>
    by_cases hscan : scan = .plain
    · simp [Split.after, hscan, forwardedPairs_blank hblank]
    · simp [Split.after, hscan]

theorem entryAddress_blank {blank : List Char} (hblank : IsBlank blank) (header : ForwardedHeader)
    (entry : List Char) : entryAddress header (blank ++ entry) = entryAddress header entry := by
  cases header with
  | xForwardedFor => rw [entryAddress, entryAddress, trim_blank_append hblank]
  | forwarded => rw [entryAddress, entryAddress, forwardedFor_blank hblank]

/-! ### What an element on its own says -/

/-- One element that on its own names an address. -/
structure IsElement (header : ForwardedHeader) (element : List Char) (address : IpAddr) : Prop where
  single : splitOutsideQuotes element ',' = some [element]
  names : entryAddress header element = some address

/-- A single element is read without finishing a part. -/
theorem IsElement.foldl_eq {header : ForwardedHeader} {element : List Char} {address : IpAddr}
    (h : IsElement header element address) :
    element.foldl (Split.feed ',') ⟨.plain, [], []⟩ = ⟨.plain, [], element⟩ := by
  have hsingle := h.single
  unfold splitOutsideQuotes at hsingle
  generalize element.foldl (Split.feed ',') ⟨.plain, [], []⟩ = split at hsingle
  obtain ⟨scan, parts, current⟩ := split
  dsimp only at hsingle
  rw [Option.ite_none_right_eq_some] at hsingle
  obtain ⟨rfl, heq⟩ := hsingle
  have heq := Option.some.inj heq
  cases parts with
  | nil =>
    obtain ⟨rfl, -⟩ := List.cons.inj heq
    rfl
  | cons first rest => simp at heq

/-- Trimming removes white space only. -/
theorem mem_trim {c : Char} {text : List Char} (hc : c ∈ text) (hwhite : isWhiteSpace c = false) :
    c ∈ trim text := by
  have hdrop (text : List Char) (hc : c ∈ text) : c ∈ text.dropWhile isWhiteSpace := by
    rw [← List.takeWhile_append_dropWhile (p := isWhiteSpace) (l := text)] at hc
    rcases List.mem_append.mp hc with h | h
    · have := List.mem_takeWhile_imp h
      rw [hwhite] at this
      cases this
    · exact h
  rw [trim, List.mem_reverse]
  exact hdrop _ (List.mem_reverse.mpr (hdrop _ hc))

theorem splitOnce_eq_some {separator : Char} {text before after : List Char}
    (h : splitOnce separator text = some (before, after)) :
    text = before ++ separator :: after := by
  induction text generalizing before after with
  | nil => cases h
  | cons c rest ih =>
    unfold splitOnce at h
    split at h
    · rename_i hc
      obtain ⟨rfl, rfl⟩ := Prod.mk.inj (Option.some.inj h)
      rw [hc, List.nil_append]
    · obtain ⟨⟨b, a⟩, hrest, heq⟩ := Option.map_eq_some_iff.mp h
      obtain ⟨rfl, rfl⟩ := Prod.mk.inj heq
      rw [ih hrest, List.cons_append]

theorem stripPrefix_eq_some {c : Char} {text rest : List Char} :
    stripPrefix c text = some rest ↔ text = c :: rest := by
  cases text with
  | nil => simp [stripPrefix]
  | cons first tail => simp [stripPrefix, eq_comm]

theorem quote_not_mem_of_addressChars {text : List Char}
    (h : ∀ c ∈ text, isAddressChar c = true) : '"' ∉ text := by
  intro hmem
  have := h _ hmem
  revert this
  decide

theorem quote_not_mem_of_validPort {port : List Char} (h : validPort port = true) : '"' ∉ port := by
  intro hmem
  simp only [validPort, Bool.and_eq_true, List.all_eq_true] at h
  have := h.1.2 _ hmem
  revert this
  decide

/-- A node that parses holds no quote. -/
theorem quote_not_mem_of_parseNode {text : List Char} {address : IpAddr}
    (h : parseNode text = some address) : '"' ∉ text := by
  unfold parseNode at h
  split at h
  · rename_i rest hrest
    simp only [bind, Option.bind_eq_some_iff] at h
    obtain ⟨⟨inner, tail⟩, hsplit, h⟩ := h
    rw [stripPrefix_eq_some.mp hrest, splitOnce_eq_some hsplit]
    have hinner : ∀ {value : IpAddr}, (parseIpv6 inner).map .v6 = some value → '"' ∉ inner := by
      intro value hvalue
      obtain ⟨bits, hbits, -⟩ := Option.map_eq_some_iff.mp hvalue
      exact quote_not_mem_of_addressChars (parseIpv6_addressChars hbits)
    dsimp only at h
    split at h
    · rename_i hempty
      simp [hinner h, List.isEmpty_iff.mp hempty]
    · obtain ⟨port, hport, h⟩ := Option.bind_eq_some_iff.mp h
      rw [Option.ite_none_right_eq_some] at h
      simp [stripPrefix_eq_some.mp hport, hinner h.2, quote_not_mem_of_validPort h.1]
  · split at h
    · rename_i found hfound
      exact quote_not_mem_of_addressChars (parseIpAddr_addressChars hfound)
    · simp only [bind, Option.bind_eq_some_iff] at h
      obtain ⟨⟨inner, port⟩, hsplit, h⟩ := h
      dsimp only at h
      rw [Option.ite_none_right_eq_some] at h
      obtain ⟨bits, hbits, -⟩ := Option.map_eq_some_iff.mp h.2
      rw [splitOnce_eq_some hsplit]
      simp [quote_not_mem_of_addressChars (parseIpv4_addressChars hbits),
        quote_not_mem_of_validPort h.1]

/-- An `X-Forwarded-For` element never closes a quoted string. -/
theorem IsElement.scanFrom_quoted {element : List Char} {address : IpAddr}
    (h : IsElement .xForwardedFor element address) : scanFrom .quoted element ≠ .plain := by
  refine scanFrom_ne_plain (by decide) fun hmem => ?_
  exact quote_not_mem_of_parseNode h.names (mem_trim hmem (by decide))

/-! ### What the proxy appends -/

/-- The combined text of the client's own instances. -/
def clientText (client : List (List UInt8)) : List Char := (client.map chars).foldl joinText []

/-- The instances after the proxy appended its element, as an instance of its own or to the last
one. -/
inductive Appended (element : List UInt8) (client : List (List UInt8)) :
    List (List UInt8) → Prop where
  | ownInstance : Appended element client (client ++ [element])
  | joined {before : List (List UInt8)} {last blank : List UInt8} (hclient : client = before ++ [last])
      (hblank : ∀ byte ∈ blank, byte = 32 ∨ byte = 9) :
      Appended element client (before ++ [last ++ 44 :: (blank ++ element)])

/-- Combining the instances joins their texts. -/
theorem combineInstances_eq {combined result : List Char} {instances : List (List UInt8)}
    (h : combineInstances combined instances = some result) :
    result = (instances.map chars).foldl joinText combined := by
  induction instances generalizing combined with
  | nil => exact (Option.some.inj h).symm
  | cons value rest ih =>
    simp only [combineInstances, bind, Option.bind_eq_some_iff] at h
    obtain ⟨text, htext, h⟩ := h
    rw [Option.ite_none_left_eq_some] at h
    rw [ih h.2, toStr_eq_some htext, List.map_cons, List.foldl_cons]

/-- The combined text is the element alone, or the client's text, a comma and the element. -/
theorem combined_of_appended {element : List UInt8} {client instances : List (List UInt8)}
    (happended : Appended element client instances) {combined : List Char}
    (h : combineInstances [] instances = some combined) :
    combined = chars element ∨ ∃ blank, IsBlank blank ∧
      combined = clientText client ++ ',' :: (blank ++ chars element) := by
  rw [combineInstances_eq h]
  cases happended with
  | ownInstance =>
    rw [List.map_append, List.foldl_append, ← clientText]
    simp only [List.map_cons, List.map_nil, List.foldl_cons, List.foldl_nil, joinText]
    by_cases hempty : (clientText client).isEmpty = true
    · exact .inl (by rw [if_pos hempty, List.nil_append])
    · exact .inr ⟨[], by simp [IsBlank], by rw [if_neg hempty, List.append_assoc]; rfl⟩
  | @joined before last blank hclient hblank =>
    refine .inr ⟨chars blank, ?_, ?_⟩
    · intro c hc
      obtain ⟨byte, hbyte, rfl⟩ := List.mem_map.mp hc
      rcases hblank byte hbyte with rfl | rfl
      · exact .inl rfl
      · exact .inr rfl
    · subst hclient
      simp only [clientText, List.map_append, List.foldl_append, List.map_cons, List.map_nil,
        List.foldl_cons, List.foldl_nil, joinText, chars, List.append_assoc]
      rfl

/-- The element is split off whatever comes before it outside quoted strings. -/
theorem split_of_closed {header : ForwardedHeader} {element before blank : List Char}
    {address : IpAddr} (helement : IsElement header element address) (hblank : IsBlank blank)
    (hclosed : scanFrom .plain before = .plain) :
    ∃ parts, splitOutsideQuotes (before ++ ',' :: (blank ++ element)) ',' =
      some (parts ++ [blank ++ element]) := by
  have hplain : ∀ c ∈ blank, c ≠ '"' ∧ c ≠ ',' := by
    intro c hc
    rcases hblank c hc with rfl | rfl <;> decide
  have hscan := foldl_feed_scan ',' ⟨.plain, [], []⟩ before
  rw [hclosed] at hscan
  simp only [splitOutsideQuotes, List.foldl_append, List.foldl_cons]
  generalize before.foldl (Split.feed ',') ⟨.plain, [], []⟩ = split at hscan ⊢
  obtain ⟨scan, parts, current⟩ := split
  dsimp only at hscan
  subst hscan
  have hcomma : Split.feed ',' ⟨.plain, parts, current⟩ ',' = ⟨.plain, parts ++ [current], []⟩ := by
    simp [Split.feed]
  rw [hcomma, foldl_feed_plain hplain, foldl_feed_after, helement.foldl_eq]
  exact ⟨parts ++ [current], by simp [Split.after]⟩

/-- A quoted string left open before the element and not closed in it makes the whole header
malformed. -/
theorem split_of_open {element before blank : List Char} (hblank : IsBlank blank)
    (hopen : scanFrom .plain before ≠ .plain) (hstays : scanFrom .quoted element ≠ .plain) :
    splitOutsideQuotes (before ++ ',' :: (blank ++ element)) ',' = none := by
  have hquoted : scanFrom (scanFrom .plain before) (',' :: blank) = .quoted := by
    have hblank' : scanFrom .quoted blank = .quoted := by
      induction blank with
      | nil => rfl
      | cons c rest ih =>
        have hnext : Scan.next .quoted c = .quoted := by
          rcases hblank c (by simp) with rfl | rfl <;> rfl
        rw [scanFrom, List.foldl_cons, hnext]
        exact ih fun x hx => hblank x (by simp [hx])
    rw [scanFrom, List.foldl_cons]
    cases h : scanFrom .plain before with
    | plain => exact absurd h hopen
    | quoted => exact hblank'
    | escaped => exact hblank'
  rw [splitOutsideQuotes, if_neg]
  rw [foldl_feed_scan, ← List.cons_append, scanFrom_append, scanFrom_append, hquoted]
  exact hstays

/-- The proxy's element cannot be made part of the client's. -/
def Sealed (header : ForwardedHeader) (client : List (List UInt8)) (element : List UInt8) : Prop :=
  header = .xForwardedFor ∨ scanFrom .plain (clientText client) = .plain ∨
    scanFrom .quoted (chars element) ≠ .plain

/-- An untrusted address in the last entry is the result. -/
theorem walk_of_last {proxies : TrustedProxies} {parts : List (List Char)} {entry : List Char}
    {address : IpAddr} (hentry : entryAddress proxies.header entry = some address)
    (huntrusted : proxies.isTrusted address.toCanonical = false) :
    proxies.walk (parts ++ [entry]).reverse = some address.toCanonical := by
  rw [List.reverse_append, List.reverse_singleton, List.singleton_append, TrustedProxies.walk]
  simp [hentry, huntrusted]

/-- A sealed element yields its own address or nothing. -/
theorem forwardedClient_of_sealed {proxies : TrustedProxies} {client instances : List (List UInt8)}
    {element : List UInt8} {address : IpAddr}
    (helement : IsElement proxies.header (chars element) address)
    (huntrusted : proxies.isTrusted address.toCanonical = false)
    (happended : Appended element client instances)
    (hsealed : Sealed proxies.header client element) :
    proxies.forwardedClient instances = none ∨
      proxies.forwardedClient instances = some address.toCanonical := by
  unfold TrustedProxies.forwardedClient
  rcases hcombined : combineInstances [] instances with _ | combined
  · exact .inl rfl
  · simp only [bind, Option.bind_some]
    split
    · exact .inl rfl
    · rcases hsplit : splitOutsideQuotes combined ',' with _ | entries
      · exact .inl rfl
      · simp only [Option.bind_some]
        split
        · exact .inl rfl
        · right
          have hlast : ∃ parts blank, IsBlank blank ∧ entries = parts ++ [blank ++ chars element] := by
            rcases combined_of_appended happended hcombined with rfl | ⟨blank, hblank, rfl⟩
            · rw [helement.single] at hsplit
              exact ⟨[], [], by simp [IsBlank], (Option.some.inj hsplit).symm⟩
            · by_cases hclosed : scanFrom .plain (clientText client) = .plain
              · obtain ⟨parts, hparts⟩ := split_of_closed helement hblank hclosed
                rw [hparts] at hsplit
                exact ⟨parts, blank, hblank, (Option.some.inj hsplit).symm⟩
              · have hstays : scanFrom .quoted (chars element) ≠ .plain := by
                  rcases hsealed with hheader | hclosed' | hstays
                  · exact (hheader ▸ helement).scanFrom_quoted
                  · exact absurd hclosed' hclosed
                  · exact hstays
                rw [split_of_open hblank hclosed hstays] at hsplit
                cases hsplit
          obtain ⟨parts, blank, hblank, rfl⟩ := hlast
          exact walk_of_last ((entryAddress_blank hblank _ _).trans helement.names) huntrusted

/-! ### An element that exposes another address -/

theorem toNat_range {low c high : Char} (h : low ≤ c ∧ c ≤ high) :
    low.toNat ≤ c.toNat ∧ c.toNat ≤ high.toNat := h

theorem addressChar_visible {c : Char} (h : isAddressChar c = true) :
    32 ≤ c.toNat ∧ c.toNat < 127 := by
  simp only [isAddressChar, Bool.or_eq_true, beq_iff_eq] at h
  rcases h with (h | rfl) | rfl
  · obtain ⟨value, hvalue⟩ := Option.isSome_iff_exists.mp h
    obtain ⟨hdigit, -⟩ := Option.filter_eq_some_iff.mp hvalue
    have hrange : ∃ low high : Char, (low ≤ c ∧ c ≤ high) ∧ 32 ≤ low.toNat ∧ high.toNat < 127 := by
      split at hdigit
      · exact ⟨'0', '9', ‹_›, by decide⟩
      · split at hdigit
        · exact ⟨'a', 'f', ‹_›, by decide⟩
        · split at hdigit
          · exact ⟨'A', 'F', ‹_›, by decide⟩
          · cases hdigit
    obtain ⟨low, high, hbetween, hlow, hhigh⟩ := hrange
    have := toNat_range hbetween
    omega
  · decide
  · decide

theorem text_addressChars (address : IpAddr) : ∀ c ∈ address.text, isAddressChar c = true :=
  parseIpAddr_addressChars (parseIpAddr_text address)

/-- A text of address characters does not hold any other character. -/
theorem ne_of_mem_text {address : IpAddr} {c other : Char} (hc : c ∈ address.text)
    (hother : isAddressChar other = false) : c ≠ other := by
  rintro rfl
  rw [text_addressChars address c hc] at hother
  cases hother

/-- The text of an address parses as a node. -/
theorem parseNode_text (address : IpAddr) : parseNode address.text = some address := by
  have hbracket : stripPrefix '[' address.text = none := by
    rw [Option.eq_none_iff_forall_not_mem]
    intro rest hrest
    have htext := stripPrefix_eq_some.mp hrest
    exact ne_of_mem_text (htext ▸ List.mem_cons_self) (by decide) rfl
  rw [parseNode, hbracket, parseIpAddr_text]

/-- `for=` and an address. -/
def forPair (address : IpAddr) : List Char := ['f', 'o', 'r', '='] ++ address.text

theorem forPair_forall {P : Char → Prop} {address : IpAddr}
    (hname : ∀ c ∈ ['f', 'o', 'r', '='], P c) (htext : ∀ c ∈ address.text, P c) :
    ∀ c ∈ forPair address, P c := by
  intro c hc
  rcases List.mem_append.mp hc with h | h
  · exact hname c h
  · exact htext c h

/-- An element for `own` with a quoted string that, read from inside one, is an element for
`other`. -/
def exposingElement (own other : IpAddr) : List Char :=
  forPair own ++ ([';', 'h', '=', '"', ','] ++ (forPair other ++ [';', 'h', '=', '\\', '"', '"']))

theorem trim_eq_self {text : List Char} (h : ∀ c ∈ text, isWhiteSpace c = false) :
    trim text = text := by
  have hdrop (text : List Char) (h : ∀ c ∈ text, isWhiteSpace c = false) :
      text.dropWhile isWhiteSpace = text := by
    cases text with
    | nil => rfl
    | cons c rest => rw [List.dropWhile_cons, h c List.mem_cons_self, if_neg Bool.false_ne_true]
  rw [trim, hdrop text h, hdrop _ fun c hc => h c (List.mem_reverse.mp hc), List.reverse_reverse]

theorem text_not_white {address : IpAddr} {c : Char} (hc : c ∈ address.text) :
    isWhiteSpace c = false := by
  have hspace : c ≠ ' ' := ne_of_mem_text hc (by decide)
  have hlow := (addressChar_visible (text_addressChars address c hc)).1
  have hcontrol : ¬('\t' ≤ c ∧ c ≤ '\r') := by
    intro h
    have hrange := toNat_range h
    have hreturn : '\r'.toNat = 13 := rfl
    omega
  simp only [isWhiteSpace, Bool.or_eq_false_iff, beq_eq_false_iff_ne]
  exact ⟨hspace, by simpa using hcontrol⟩

/-- The pairs `for=address` and `h=…` name the address. -/
theorem forwardedPairs_forPair (address : IpAddr) {value : List Char}
    (hvalue : ∀ c ∈ value, isWhiteSpace c = false) :
    forwardedPairs none [forPair address, 'h' :: '=' :: value] = some address := by
  have hfirst : trim (forPair address) = forPair address :=
    trim_eq_self (forPair_forall (by simp [isWhiteSpace]) fun c hc => text_not_white hc)
  have hsecond : trim ('h' :: '=' :: value) = 'h' :: '=' :: value := by
    refine trim_eq_self fun c hc => ?_
    rcases List.mem_cons.mp hc with rfl | hc
    · decide
    · rcases List.mem_cons.mp hc with rfl | hc
      · decide
      · exact hvalue c hc
  have hsplit : splitOnce '=' (forPair address) = some (['f', 'o', 'r'], address.text) := by
    simp [forPair, splitOnce]
  have hsplit' : splitOnce '=' ('h' :: '=' :: value) = some (['h'], value) := by
    simp [splitOnce]
  have hunquote : unquote (trim address.text) = some address.text := by
    have hquote : stripPrefix '"' address.text = none := by
      rw [Option.eq_none_iff_forall_not_mem]
      intro rest hrest
      have htext := stripPrefix_eq_some.mp hrest
      exact ne_of_mem_text (htext ▸ List.mem_cons_self) (by decide) rfl
    rw [trim_eq_self fun c hc => text_not_white hc, unquote, hquote]
  have hname : eqIgnoreAsciiCase (trim ['f', 'o', 'r']) ['f', 'o', 'r'] = true := by decide
  have hother : eqIgnoreAsciiCase (trim ['h']) ['f', 'o', 'r'] = false := by decide
  simp only [forwardedPairs, hfirst, hsecond, hsplit, hsplit', bind, Option.bind_some, hname,
    hother, Bool.not_true, Bool.false_eq_true, if_false, Option.isSome_none, hunquote,
    parseNode_text, Bool.not_false, if_true]

theorem ne_of_mem_forPair {address : IpAddr} {other : Char} (hname : other ∉ ['f', 'o', 'r', '='])
    (hother : isAddressChar other = false) : ∀ c ∈ forPair address, c ≠ other :=
  forPair_forall (fun _ hc heq => hname (heq ▸ hc)) fun _ hc => ne_of_mem_text hc hother

/-- A pair is read as it is outside quoted strings. -/
theorem foldl_feed_forPair (address : IpAddr) {separator : Char}
    (hseparator : separator = ',' ∨ separator = ';') (parts : List (List Char))
    (current : List Char) :
    (forPair address).foldl (Split.feed separator) ⟨.plain, parts, current⟩ =
      ⟨.plain, parts, current ++ forPair address⟩ := by
  refine foldl_feed_plain (fun c hc => ⟨ne_of_mem_forPair (by decide) (by decide) c hc, ?_⟩) parts
    current
  rcases hseparator with rfl | rfl
  · exact ne_of_mem_forPair (by decide) (by decide) c hc
  · exact ne_of_mem_forPair (by decide) (by decide) c hc

/-- A pair is read as it is inside quoted strings. -/
theorem foldl_feed_forPair_quoted (address : IpAddr) (separator : Char)
    (parts : List (List Char)) (current : List Char) :
    (forPair address).foldl (Split.feed separator) ⟨.quoted, parts, current⟩ =
      ⟨.quoted, parts, current ++ forPair address⟩ :=
  foldl_feed_quoted (fun c hc => ⟨ne_of_mem_forPair (by decide) (by decide) c hc,
    ne_of_mem_forPair (by decide) (by decide) c hc⟩) parts current

theorem forPair_not_white (address : IpAddr) : ∀ c ∈ forPair address, isWhiteSpace c = false :=
  forPair_forall (by simp [isWhiteSpace]) fun _ hc => text_not_white hc

/-- On its own the element names its own address. -/
theorem exposingElement_isElement (own other : IpAddr) :
    IsElement .forwarded (exposingElement own other) own := by
  constructor
  · simp only [splitOutsideQuotes, exposingElement, List.foldl_append,
      foldl_feed_forPair own (.inl rfl)]
    simp [Split.feed, foldl_feed_forPair_quoted]
  · have hsplit : splitOutsideQuotes (exposingElement own other) ';' =
        some [forPair own, 'h' :: '=' :: ('"' :: ',' :: (forPair other ++
          [';', 'h', '=', '\\', '"', '"']))] := by
      simp only [splitOutsideQuotes, exposingElement, List.foldl_append,
        foldl_feed_forPair own (.inr rfl)]
      simp [Split.feed, foldl_feed_forPair_quoted]
    rw [entryAddress, forwardedFor, hsplit]
    refine forwardedPairs_forPair own fun c hc => ?_
    simp only [List.mem_cons, List.mem_append, List.not_mem_nil, or_false] at hc
    rcases hc with rfl | rfl | hc | rfl | rfl | rfl | rfl | rfl | rfl
    all_goals first | decide | exact forPair_not_white other c hc

/-- Read from inside a quoted string the element ends as an element for the other address. -/
theorem exposingElement_from_open (own other : IpAddr) (parts : List (List Char))
    (current : List Char) : ∃ merged,
    (exposingElement own other).foldl (Split.feed ',') ⟨.quoted, parts, current⟩ =
      ⟨.plain, parts ++ [merged], forPair other ++ [';', 'h', '=', '\\', '"', '"']⟩ := by
  refine ⟨current ++ forPair own ++ [';', 'h', '=', '"'], ?_⟩
  simp only [exposingElement, List.foldl_append, foldl_feed_forPair_quoted]
  simp [Split.feed, foldl_feed_forPair other (.inl rfl)]

theorem forwardedFor_exposed (other : IpAddr) :
    forwardedFor (forPair other ++ [';', 'h', '=', '\\', '"', '"']) = some other := by
  have hsplit : splitOutsideQuotes (forPair other ++ [';', 'h', '=', '\\', '"', '"']) ';' =
      some [forPair other, ['h', '=', '\\', '"', '"']] := by
    simp only [splitOutsideQuotes, List.foldl_append, foldl_feed_forPair other (.inr rfl)]
    simp [Split.feed]
  rw [forwardedFor, hsplit]
  exact forwardedPairs_forPair other (by simp [isWhiteSpace])

theorem joinText_length (combined text : List Char) :
    combined.length + text.length ≤ (joinText combined text).length := by
  unfold joinText
  cases combined with
  | nil => simp
  | cons c rest =>
    simp
    omega

theorem length_le_foldl_joinText (combined : List Char) (texts : List (List Char)) :
    combined.length ≤ (texts.foldl joinText combined).length := by
  induction texts generalizing combined with
  | nil => exact le_rfl
  | cons text rest ih =>
    have hjoin := joinText_length combined text
    have hrest := ih (joinText combined text)
    rw [List.foldl_cons]
    omega

/-- Instances of text within the limit are combined. -/
theorem combineInstances_of_fits {combined : List Char} {instances : List (List UInt8)}
    (htext : ∀ value ∈ instances, toStr value = some (chars value))
    (hfits : ((instances.map chars).foldl joinText combined).length + 1 ≤ maxForwardedBytes) :
    combineInstances combined instances = some ((instances.map chars).foldl joinText combined) := by
  induction instances generalizing combined with
  | nil => rfl
  | cons value rest ih =>
    rw [List.map_cons, List.foldl_cons] at hfits ⊢
    have hjoin := joinText_length combined (chars value)
    have hrest := length_le_foldl_joinText (joinText combined (chars value)) (rest.map chars)
    simp only [combineInstances, htext value List.mem_cons_self, bind, Option.bind_some]
    rw [if_neg (by omega)]
    exact ih (fun other hother => htext other (List.mem_cons_of_mem _ hother)) hfits

/-- The client's header is text and leaves room for one more element under both limits. -/
structure HasRoom (client : List (List UInt8)) : Prop where
  text : ∀ value ∈ client, toStr value = some (chars value)
  length_le : (clientText client).length ≤ 8000
  parts_le : ((clientText client).foldl (Split.feed ',') ⟨.plain, [], []⟩).parts.length ≤ 62

theorem exposingElement_length (own other : IpAddr) :
    (exposingElement own other).length ≤ 100 := by
  have hown := text_length_le own
  have hother := text_length_le other
  simp only [exposingElement, forPair, List.length_append, List.length_cons, List.length_nil]
  omega

theorem exposingElement_visible (own other : IpAddr) : IsVisible (exposingElement own other) := by
  have hpair (address : IpAddr) : ∀ c ∈ forPair address, 32 ≤ c.toNat ∧ c.toNat < 127 :=
    forPair_forall (by simp) fun c hc => addressChar_visible (text_addressChars address c hc)
  intro c hc
  simp only [exposingElement, List.mem_append] at hc
  rcases hc with hc | hc | hc | hc
  · exact hpair own c hc
  · exact (by simp : ∀ c ∈ [';', 'h', '=', '"', ','], 32 ≤ c.toNat ∧ c.toNat < 127) c hc
  · exact hpair other c hc
  · exact (by simp : ∀ c ∈ [';', 'h', '=', '\\', '"', '"'], 32 ≤ c.toNat ∧ c.toNat < 127) c hc

/-- After a client's open quoted string, an element for one address makes the result another. -/
theorem forwardedClient_exposed {proxies : TrustedProxies} (hheader : proxies.header = .forwarded)
    {client : List (List UInt8)} (hroom : HasRoom client)
    (hopen : scanFrom .plain (clientText client) ≠ .plain) (own : IpAddr) {other : IpAddr}
    (huntrusted : proxies.isTrusted other.toCanonical = false) :
    proxies.forwardedClient (client ++ [bytesOf (exposingElement own other)]) =
      some other.toCanonical := by
  have hvisible := exposingElement_visible own other
  have hnonempty : (clientText client).isEmpty = false := by
    cases h : clientText client with
    | nil => exact absurd (by rw [h]; rfl) hopen
    | cons c rest => rfl
  have hjoined : ((client ++ [bytesOf (exposingElement own other)]).map chars).foldl joinText [] =
      clientText client ++ ',' :: exposingElement own other := by
    rw [List.map_append, List.foldl_append, ← clientText]
    simp only [List.map_cons, List.map_nil, List.foldl_cons, List.foldl_nil, joinText, hnonempty,
      Bool.false_eq_true, if_false, chars_bytesOf hvisible, List.append_assoc]
    rfl
  have hcombined : combineInstances [] (client ++ [bytesOf (exposingElement own other)]) =
      some (clientText client ++ ',' :: exposingElement own other) := by
    rw [← hjoined]
    refine combineInstances_of_fits (fun value hvalue => ?_) ?_
    · rcases List.mem_append.mp hvalue with h | h
      · exact hroom.text value h
      · rw [List.mem_singleton.mp h, toStr_bytesOf hvisible, chars_bytesOf hvisible]
    · have hlen := hroom.length_le
      have helement := exposingElement_length own other
      rw [hjoined, List.length_append, List.length_cons]
      unfold maxForwardedBytes
      omega
  have hsplit : ∃ parts, parts.length ≤ 63 ∧
      splitOutsideQuotes (clientText client ++ ',' :: exposingElement own other) ',' =
        some (parts ++ [forPair other ++ [';', 'h', '=', '\\', '"', '"']]) := by
    have hscan := foldl_feed_scan ',' ⟨.plain, [], []⟩ (clientText client)
    have hparts := hroom.parts_le
    simp only [splitOutsideQuotes, List.foldl_append, List.foldl_cons]
    generalize (clientText client).foldl (Split.feed ',') ⟨.plain, [], []⟩ = split at hscan hparts ⊢
    obtain ⟨scan, parts, current⟩ := split
    dsimp only at hscan hparts
    rw [← hscan] at hopen
    have hcomma : Split.feed ',' ⟨scan, parts, current⟩ ',' =
        ⟨.quoted, parts, current ++ [',']⟩ := by
      cases scan with
      | plain => exact absurd rfl hopen
      | quoted => rfl
      | escaped => rfl
    obtain ⟨merged, hmerged⟩ := exposingElement_from_open own other parts (current ++ [','])
    rw [hcomma, hmerged]
    exact ⟨parts ++ [merged], by simp; omega, rfl⟩
  obtain ⟨parts, hlength, hsplit⟩ := hsplit
  have hfew : ¬(parts ++ [forPair other ++ [';', 'h', '=', '\\', '"', '"']]).length >
      maxForwardedEntries := by
    rw [List.length_append, List.length_singleton]
    unfold maxForwardedEntries
    omega
  simp only [TrustedProxies.forwardedClient, hcombined, bind, Option.bind_some, hsplit]
  rw [if_neg (by simp), if_neg hfew]
  refine walk_of_last ?_ huntrusted
  rw [hheader]
  exact forwardedFor_exposed other

/-- Whatever element is appended to the client's instances, the result is the element's address or
the peer. -/
def Unspoofed (proxies : TrustedProxies) (peer : IpAddr) (client : List (List UInt8)) : Prop :=
  ∀ element address instances, IsElement proxies.header (chars element) address →
    proxies.isTrusted address.toCanonical = false → Appended element client instances →
    proxies.clientAddress peer instances = address.toCanonical ∨
      proxies.clientAddress peer instances = peer.toCanonical

/-- `192.0.2.0/28`, read from a `Forwarded` header. -/
def sampleProxies : TrustedProxies :=
  ⟨[⟨.v4 0xC0000200#32, 28, by decide, by decide, by decide⟩], .forwarded⟩

/-- `for=6.6.6.6;x="`, with the quoted string left open. -/
def sampleClient : List (List UInt8) :=
  [bytesOf ['f', 'o', 'r', '=', '6', '.', '6', '.', '6', '.', '6', ';', 'x', '=', '"']]

/-- `for=1.1.1.1;host="a\"b"`. -/
def sampleElement : List UInt8 :=
  bytesOf ['f', 'o', 'r', '=', '1', '.', '1', '.', '1', '.', '1', ';', 'h', 'o', 's', 't', '=', '"',
    'a', '\\', '"', 'b', '"']

end Crabinet.Client
