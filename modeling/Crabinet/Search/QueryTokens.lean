import Crabinet.Search.Query
import Mathlib.Data.List.Chain

/-!
# The tokens of a query

A query is a list of pieces with unquoted spaces between them. A piece is a token when it has a
character besides its quotes. A piece of quotes alone is none, but it makes the next token
literal, whether or not that token begins with a quote; without such pieces the tokenizer is
compositional.
-/

namespace Crabinet.Search

open Crabinet.Filesystem Crabinet.Library

/-- The pieces of a text between its unquoted spaces, after what was read of the first one. -/
def pieces (quoted : Bool) (piece : List Char) : List Char → List (List Char)
  | [] => [piece]
  | c :: rest =>
    if c = '"' then pieces (!quoted) (piece ++ [c]) rest
    else if isWhitespace c && !quoted then piece :: pieces false [] rest
    else pieces quoted (piece ++ [c]) rest

/-- The pieces of a query, of which none is empty. -/
def parts (text : List Char) : List (List Char) :=
  (pieces false [] text).filter fun piece => !piece.isEmpty

/-- Whether a quote is open at the end of a text. -/
def openQuote (quoted : Bool) (text : List Char) : Bool :=
  text.foldl (fun quoted c => if c = '"' then !quoted else quoted) quoted

/-- A piece without its quotes. -/
def content (piece : List Char) : List Char := piece.filter (· != '"')

/-- Whether a piece begins with a quote. -/
def beginsQuoted (piece : List Char) : Bool := piece.head? == some '"'

/-- The tokens that the pieces spell. -/
def spelled (list : List (List Char)) : List (List Char × Bool) :=
  (list.filter fun piece => !(content piece).isEmpty).map fun piece => (content piece, beginsQuoted piece)

/-- The tokens of the pieces, as the flag of a piece without content is handed on. -/
def flagged (literal : Bool) : List (List Char) → List (List Char × Bool)
  | [] => []
  | piece :: rest =>
    if (content piece).isEmpty then flagged (literal || beginsQuoted piece) rest
    else (content piece, literal || beginsQuoted piece) :: flagged false rest

/-! ### What the loop does -/

variable {tables : QueryTables} {text piece : List Char} {list : List (List Char)}
  {quoted literal : Bool} {c : Char}

theorem content_append (piece other : List Char) : content (piece ++ other) = content piece ++ content other :=
  List.filter_append _ _

theorem content_quote : content ['"'] = [] := rfl

theorem content_singleton (h : c ≠ '"') : content [c] = [c] := by
  simp [content, h]

/-- A piece begins with a quote from its first character on. -/
theorem beginsQuoted_append (h : piece ≠ []) (other : List Char) :
    beginsQuoted (piece ++ other) = beginsQuoted piece := by
  cases piece with
  | nil => exact absurd rfl h
  | cons first rest => rfl

/-- A piece without content is empty or begins with a quote. -/
theorem eq_nil_or_beginsQuoted (h : content piece = []) : piece = [] ∨ beginsQuoted piece = true := by
  cases piece with
  | nil => exact .inl rfl
  | cons first rest =>
    refine .inr ?_
    have hfirst := List.filter_eq_nil_iff.mp h first List.mem_cons_self
    simpa [beginsQuoted] using hfirst

/-- The state of the loop inside a piece, with the flag that the pieces before it left. -/
def reading (tokens : List (List Char × Bool)) (piece : List Char) (quoted literal : Bool) : Tokenizer :=
  ⟨tokens, content piece, quoted, literal || beginsQuoted piece⟩

variable {tokens : List (List Char × Bool)}

/-- A quote at the start of a piece makes it literal; another one does not matter. -/
theorem feed_quote : (reading tokens piece quoted literal).feed '"' =
    reading tokens (piece ++ ['"']) (!quoted) literal := by
  have hcontent : content (piece ++ ['"']) = content piece := by
    rw [content_append, content_quote, List.append_nil]
  have hflag : ((literal || beginsQuoted piece) || (content piece).isEmpty) =
      (literal || beginsQuoted (piece ++ ['"'])) := by
    by_cases hpiece : piece = []
    · subst hpiece
      simp [beginsQuoted, content]
    · rw [beginsQuoted_append hpiece]
      by_cases hempty : content piece = []
      · rw [(eq_nil_or_beginsQuoted hempty).resolve_left hpiece]
        simp
      · rw [List.isEmpty_eq_false_iff.mpr hempty, Bool.or_false]
  rw [Tokenizer.feed, if_pos rfl, reading, reading, hcontent, ← hflag]

/-- A space between pieces ends a token, and keeps the flag where there is none. -/
theorem feed_space (hquote : c ≠ '"') (hwhite : isWhitespace c = true) :
    (reading tokens piece false literal).feed c =
      if (content piece).isEmpty then reading tokens [] false (literal || beginsQuoted piece)
      else reading (tokens ++ [(content piece, literal || beginsQuoted piece)]) [] false false := by
  have hspace : (isWhitespace c && !false) = true := by rw [hwhite]; rfl
  rw [Tokenizer.feed, if_neg hquote, reading, if_pos hspace]
  by_cases hempty : content piece = []
  · rw [hempty, reading]
    simp [content, beginsQuoted]
  · rw [List.isEmpty_eq_false_iff.mpr hempty]
    rfl

/-- A character in front of all quotes leaves the piece unquoted. -/
theorem feed_other (hquote : c ≠ '"') (hspace : ¬(isWhitespace c && !quoted) = true) :
    (reading tokens piece quoted literal).feed c = reading tokens (piece ++ [c]) quoted literal := by
  have hbegins : beginsQuoted (piece ++ [c]) = beginsQuoted piece := by
    by_cases hpiece : piece = []
    · subst hpiece
      simpa [beginsQuoted] using hquote
    · exact beginsQuoted_append hpiece [c]
  rw [Tokenizer.feed, if_neg hquote, reading, if_neg hspace, reading, content_append,
    content_singleton hquote, hbegins]

/-- The loop reads the pieces of the text. -/
theorem finish_foldl_feed :
    (text.foldl Tokenizer.feed (reading tokens piece quoted literal)).finish =
      if openQuote quoted text then none else some (tokens ++ flagged literal (pieces quoted piece text)) := by
  induction text generalizing tokens piece quoted literal with
  | nil =>
    cases quoted with
    | true => rfl
    | false =>
      by_cases hempty : (content piece).isEmpty = true <;>
        simp [openQuote, reading, Tokenizer.finish, pieces, flagged, hempty]
  | cons c rest ih =>
    rw [List.foldl_cons, pieces, openQuote, List.foldl_cons]
    by_cases hquote : c = '"'
    · subst hquote
      rw [feed_quote, ih, if_pos rfl, if_pos rfl, openQuote]
    · rw [if_neg hquote, if_neg hquote]
      by_cases hspace : (isWhitespace c && !quoted) = true
      · obtain ⟨hwhite, hquoted⟩ := Bool.and_eq_true_iff.mp hspace
        obtain rfl : quoted = false := by simpa using hquoted
        rw [if_pos hspace, feed_space hquote hwhite, flagged]
        by_cases hempty : (content piece).isEmpty = true
        · rw [if_pos hempty, if_pos hempty, ih, openQuote]
        · rw [if_neg hempty, if_neg hempty, ih, openQuote, List.append_assoc, List.singleton_append]
      · rw [if_neg hspace, feed_other hquote hspace, ih, openQuote]

/-- Empty pieces do not matter. -/
theorem flagged_filter : flagged literal (list.filter fun piece => !piece.isEmpty) = flagged literal list := by
  induction list generalizing literal with
  | nil => rfl
  | cons piece rest ih =>
    cases piece with
    | nil =>
      have hskip : flagged literal ([] :: rest) = flagged (literal || beginsQuoted []) rest := rfl
      have hflag : (literal || beginsQuoted []) = literal := Bool.or_false literal
      rw [List.filter_cons_of_neg (by simp), ih, hskip, hflag]
    | cons first tail => rw [List.filter_cons_of_pos (by simp), flagged, flagged, ih, ih]

/-- The tokens are those of the pieces, where no quote is left open. -/
theorem tokenize_eq (text : List Char) :
    tokenize text = if openQuote false text then none else some (flagged false (parts text)) := by
  rw [parts, flagged_filter]
  exact @finish_foldl_feed text [] false false []

/-! ### Queries after one another -/

theorem pieces_append_space (hopen : openQuote quoted text = false) (more : List Char) :
    pieces quoted piece (text ++ ' ' :: more) = pieces quoted piece text ++ pieces false [] more := by
  induction text generalizing piece quoted with
  | nil =>
    obtain rfl : quoted = false := hopen
    rfl
  | cons c rest ih =>
    rw [openQuote, List.foldl_cons] at hopen
    rw [List.cons_append, pieces, pieces]
    by_cases hquote : c = '"'
    · rw [if_pos hquote] at hopen
      rw [if_pos hquote, if_pos hquote, ih hopen]
    · rw [if_neg hquote] at hopen
      rw [if_neg hquote, if_neg hquote]
      by_cases hspace : (isWhitespace c && !quoted) = true
      · have hquoted : quoted = false := by simpa using (Bool.and_eq_true_iff.mp hspace).2
        rw [if_pos hspace, if_pos hspace, List.cons_append, ih (hquoted ▸ hopen)]
      · rw [if_neg hspace, if_neg hspace, ih hopen]

theorem parts_append_space (hopen : openQuote false text = false) (more : List Char) :
    parts (text ++ ' ' :: more) = parts text ++ parts more := by
  rw [parts, pieces_append_space hopen, List.filter_append]
  rfl

theorem openQuote_append_space {more : List Char} (hopen : openQuote false text = false)
    (hmore : openQuote false more = false) : openQuote false (text ++ ' ' :: more) = false := by
  unfold openQuote at hopen hmore ⊢
  rw [List.foldl_append, List.foldl_cons, hopen, if_neg (by decide), hmore]

theorem ne_nil_of_mem_parts (h : piece ∈ parts text) : piece ≠ [] := by
  simpa using (List.mem_filter.mp h).2

/-- The flag that the pieces leave: that of a last piece without content. -/
def carried (literal : Bool) (list : List (List Char)) : Bool :=
  list.getLast?.elim literal fun piece => (content piece).isEmpty

theorem flagged_append (hlist : ∀ piece ∈ list, piece ≠ []) (more : List (List Char)) :
    flagged literal (list ++ more) = flagged literal list ++ flagged (carried literal list) more := by
  induction list generalizing literal with
  | nil => rfl
  | cons piece rest ih =>
    have hrest := fun piece hpiece => hlist piece (List.mem_cons_of_mem _ hpiece)
    have hcarried (flag : Bool) (hflag : rest = [] → flag = (content piece).isEmpty) :
        carried flag rest = carried literal (piece :: rest) := by
      cases rest with
      | nil => exact hflag rfl
      | cons next rest =>
        obtain ⟨last, hlast⟩ := Option.isSome_iff_exists.mp (List.getLast?_isSome.mpr (List.cons_ne_nil next rest))
        simp [carried, List.getLast?_cons_cons, hlast]
    rw [List.cons_append, flagged, flagged]
    by_cases hempty : content piece = []
    · have hbegins := (eq_nil_or_beginsQuoted hempty).resolve_left (hlist piece List.mem_cons_self)
      have hflag := hcarried (literal || beginsQuoted piece) fun _ => by simp [hbegins, hempty]
      rw [hempty, List.isEmpty_nil, if_pos rfl, if_pos rfl, ih hrest, hflag]
    · have hflag := hcarried false fun _ => by simp [hempty]
      have hcontent : ¬(content piece).isEmpty = true := by simpa using hempty
      rw [if_neg hcontent, if_neg hcontent, ih hrest, hflag, List.cons_append]

/-- A flag from before does not matter to a piece that begins with a quote. -/
theorem flagged_eq_of_quoted (h : ∀ piece ∈ list.head?, beginsQuoted piece = true) :
    flagged literal list = flagged false list := by
  cases list with
  | nil => rfl
  | cons piece rest =>
    have hbegins : beginsQuoted piece = true := h piece rfl
    simp [flagged, hbegins]

/-- A piece that does not begin with a quote is a token with that flag. -/
theorem flagged_cons_of_unquoted (hpiece : piece ≠ []) (h : beginsQuoted piece = false) :
    flagged literal (piece :: list) = (content piece, literal) :: flagged false list := by
  have hcontent : ¬(content piece).isEmpty = true := fun hempty => by
    have := (eq_nil_or_beginsQuoted (List.isEmpty_iff.mp hempty)).resolve_left hpiece
    rw [h] at this
    cases this
  rw [flagged, if_neg hcontent, h, Bool.or_false]

/-- The tokens are flagged as they are spelled exactly when no piece without content stands in front
of one that does not begin with a quote. -/
theorem flagged_eq_spelled_iff (hlist : ∀ piece ∈ list, piece ≠ []) :
    flagged literal list = spelled list ↔
      (literal = true → ∀ piece ∈ list.head?, beginsQuoted piece = true) ∧
        list.IsChain fun piece next => content piece = [] → beginsQuoted next = true := by
  induction list generalizing literal with
  | nil => exact iff_of_true rfl ⟨nofun, .nil⟩
  | cons piece rest ih =>
    have hpiece := hlist piece List.mem_cons_self
    have hrest := fun piece hpiece => hlist piece (List.mem_cons_of_mem _ hpiece)
    have hhead : (∀ next ∈ (piece :: rest).head?, beginsQuoted next = true) ↔ beginsQuoted piece = true :=
      ⟨fun h => h piece rfl, fun h next hnext => Option.some.inj hnext ▸ h⟩
    rw [List.isChain_cons, hhead]
    by_cases hempty : content piece = []
    · have hbegins := (eq_nil_or_beginsQuoted hempty).resolve_left hpiece
      have hflagged : flagged literal (piece :: rest) = flagged true rest := by
        simp [flagged, hempty, hbegins]
      have hspelled : spelled (piece :: rest) = spelled rest := by simp [spelled, hempty]
      rw [hflagged, hspelled, ih hrest]
      simp [hbegins, hempty]
    · have hflagged : flagged literal (piece :: rest) =
          (content piece, literal || beginsQuoted piece) :: flagged false rest := by
        simp [flagged, hempty]
      have hspelled : spelled (piece :: rest) = (content piece, beginsQuoted piece) :: spelled rest := by
        simp [spelled, hempty]
      rw [hflagged, hspelled, List.cons.injEq, Prod.mk.injEq, ih hrest]
      cases literal <;> cases beginsQuoted piece <;> simp [hempty]

/-! ### Reading the tokens -/

/-- Whether a token is a filter. -/
def isFilter (token : List Char) : Bool :=
  ["type:", "ext:", "size:", "modified:"].any fun key => key.toList.isPrefixOf token

variable {query other : SearchQuery} {token : List Char} {item : Item}
  {tokens more : List (List Char × Bool)}

theorem readTokens_cons_eq_ok : readTokens tables ((token, literal) :: tokens) = .ok query ↔
    ∃ item rest, readToken tables token literal = .ok item ∧ readTokens tables tokens = .ok rest ∧
      query = item.query.append rest := by
  rw [readTokens, bind_eq_ok]
  constructor
  · rintro ⟨item, hitem, h⟩
    obtain ⟨rest, hrest, h⟩ := bind_eq_ok.mp h
    exact ⟨item, rest, hitem, hrest, (Except.ok.inj h).symm⟩
  · rintro ⟨item, rest, hitem, hrest, rfl⟩
    exact ⟨item, hitem, bind_eq_ok.mpr ⟨rest, hrest, rfl⟩⟩

theorem SearchQuery.append_right_inj {first second third : SearchQuery} :
    first.append second = first.append third ↔ second = third := by
  refine ⟨fun h => ?_, fun h => by rw [h]⟩
  cases second
  cases third
  simpa [SearchQuery.append] using h

/-- Tokens after one another add their items after one another. -/
theorem readTokens_append_eq_ok (htokens : readTokens tables tokens = .ok query) :
    readTokens tables (tokens ++ more) = .ok (query.append other) ↔ readTokens tables more = .ok other := by
  induction tokens generalizing query with
  | nil =>
    obtain rfl := Except.ok.inj htokens
    exact Iff.rfl
  | cons first rest ih =>
    obtain ⟨token, literal⟩ := first
    obtain ⟨item, tail, hitem, htail, rfl⟩ := readTokens_cons_eq_ok.mp htokens
    rw [← ih htail, List.cons_append, readTokens_cons_eq_ok, SearchQuery.append_assoc]
    constructor
    · rintro ⟨item', joined, hitem', hjoined, heq⟩
      obtain rfl := Except.ok.inj (hitem.symm.trans hitem')
      rwa [SearchQuery.append_right_inj.mp heq]
    · exact fun hjoined => ⟨item, _, hitem, hjoined, rfl⟩

theorem dropPrefix?_eq_none {key : String} (h : key.toList.isPrefixOf token = false) :
    token.dropPrefix? key.toList = none := by
  rw [Option.eq_none_iff_forall_ne_some]
  intro rest hrest
  obtain ⟨front, hjoin, hfront⟩ := List.dropPrefix?_eq_some_iff.mp hrest
  obtain rfl := beq_iff_eq.mp hfront
  rw [hjoin, List.isPrefixOf_iff_prefix.mpr (List.prefix_append _ _)] at h
  cases h

theorem accept_eq_ok {found : Option Item} : accept found = .ok item ↔ found = some item := by
  cases found <;> simp [accept]

/-- A token that is no filter is the term that it is when it is literal. -/
theorem readToken_eq_term (hread : readToken tables token false = .ok item)
    (hfilter : isFilter (tables.normalize token) = false) : item = .term (tables.normalize token) := by
  simp only [isFilter, List.any_cons, List.any_nil, Bool.or_eq_false_iff, Bool.or_false] at hfilter
  obtain ⟨htype, hext, hsize, hmodified⟩ := hfilter
  simp only [readToken, dropPrefix?_eq_none htype, dropPrefix?_eq_none hext, dropPrefix?_eq_none hsize,
    dropPrefix?_eq_none hmodified, Bool.false_eq_true, if_false, accept_eq_ok] at hread
  exact (Option.some.inj (Option.ite_none_left_eq_some.mp hread).2).symm

theorem isPrefixOf_of_dropPrefix?_eq_none {key : String} (h : token.dropPrefix? key.toList = none) :
    key.toList.isPrefixOf token = false := by
  by_contra hbegin
  obtain ⟨rest, hrest⟩ := List.isPrefixOf_iff_prefix.mp (Bool.not_eq_false _ ▸ hbegin)
  have hfound : token.dropPrefix? key.toList = some rest :=
    List.dropPrefix?_eq_some_iff.mpr ⟨key.toList, hrest.symm, beq_self_eq_true _⟩
  rw [h] at hfound
  cases hfound

/-- A filter adds no term. -/
theorem terms_of_isFilter (hread : readToken tables token false = .ok item)
    (hfilter : isFilter (tables.normalize token) = true) : item.query.terms = [] := by
  simp only [readToken, Bool.false_eq_true, if_false] at hread
  split at hread
  · obtain ⟨-, hitem⟩ := Option.ite_none_right_eq_some.mp (accept_eq_ok.mp hread)
    exact Option.some.inj hitem ▸ rfl
  · rename_i htype
    split at hread
    · obtain ⟨-, hitem⟩ := Option.ite_none_left_eq_some.mp (accept_eq_ok.mp hread)
      exact Option.some.inj hitem ▸ rfl
    · rename_i hext
      split at hread
      · obtain ⟨value, -, rfl⟩ := Option.map_eq_some_iff.mp (accept_eq_ok.mp hread)
        rfl
      · rename_i hsize
        split at hread
        · obtain ⟨value, -, rfl⟩ := Option.map_eq_some_iff.mp (accept_eq_ok.mp hread)
          rfl
        · rename_i hmodified
          simp only [isFilter, List.any_cons, List.any_nil, isPrefixOf_of_dropPrefix?_eq_none htype,
            isPrefixOf_of_dropPrefix?_eq_none hext, isPrefixOf_of_dropPrefix?_eq_none hsize,
            isPrefixOf_of_dropPrefix?_eq_none hmodified, Bool.or_self] at hfilter
          cases hfilter

/-! ### Composition -/

/-- What an accepted query is. -/
theorem parse_eq_ok : parse tables text = .ok query ↔
    (text.map Char.utf8Size).sum ≤ maxQueryBytes ∧ text.any isControl = false ∧
      openQuote false text = false ∧ (flagged false (parts text)).length ≤ 32 ∧
      readTokens tables (flagged false (parts text)) = .ok query := by
  rw [parse, ite_error_eq_ok, tokenize_eq, Bool.or_eq_true, not_or, decide_eq_true_eq, not_lt,
    Bool.not_eq_true, and_assoc]
  cases openQuote false text with
  | true => simp
  | false =>
    simp only [Bool.false_eq_true, if_false, ite_error_eq_ok, not_lt, true_and]

/-- A query that ends with a pair of quotes around nothing. -/
def EndsWithEmptyQuotes (text : List Char) : Prop := ∃ piece ∈ (parts text).getLast?, content piece = []

/-- A query that starts with an unquoted filter. -/
def StartsWithFilter (tables : QueryTables) (text : List Char) : Prop :=
  ∃ piece ∈ (parts text).head?, beginsQuoted piece = false ∧
    isFilter (tables.normalize (content piece)) = true

/-- A query without a pair of quotes around nothing in front of an unquoted token. -/
def NoEmptyQuotesBefore (text : List Char) : Prop :=
  (parts text).IsChain fun piece next => content piece = [] → beginsQuoted next = true

theorem carried_eq_true_iff : carried false list = true ↔ ∃ piece ∈ list.getLast?, content piece = [] := by
  cases hlast : list.getLast? with
  | none => simp [carried, hlast]
  | some piece => simp [carried, hlast]

/-- The tokens of a flagged list are read like those of the unflagged one exactly when it does not
start with an unquoted filter. -/
theorem readTokens_flagged_true_iff (hread : readTokens tables (flagged false (parts text)) = .ok query) :
    readTokens tables (flagged true (parts text)) = .ok query ↔ ¬StartsWithFilter tables text := by
  have hparts : ∀ piece ∈ parts text, piece ≠ [] := fun piece => ne_nil_of_mem_parts
  unfold StartsWithFilter
  cases hlist : parts text with
  | nil =>
    rw [hlist] at hread
    exact iff_of_true hread (by simp)
  | cons piece rest =>
    rw [hlist] at hread hparts
    by_cases hbegins : beginsQuoted piece = true
    · rw [flagged_eq_of_quoted (by simpa using hbegins)]
      refine iff_of_true hread ?_
      rintro ⟨first, hfirst, hunquoted, -⟩
      obtain rfl := Option.some.inj hfirst
      rw [hbegins] at hunquoted
      cases hunquoted
    · have hunquoted := Bool.eq_false_iff.mpr hbegins
      have hpiece := hparts piece List.mem_cons_self
      rw [flagged_cons_of_unquoted hpiece hunquoted] at hread ⊢
      obtain ⟨item, tail, hitem, htail, rfl⟩ := readTokens_cons_eq_ok.mp hread
      have hterm : readToken tables (content piece) true = .ok (.term (tables.normalize (content piece))) := rfl
      have hjoined : readTokens tables ((content piece, true) :: flagged false rest) =
          .ok ((Item.term (tables.normalize (content piece))).query.append tail) :=
        readTokens_cons_eq_ok.mpr ⟨_, tail, hterm, htail, rfl⟩
      have hstarts : (∃ first ∈ (piece :: rest).head?, beginsQuoted first = false ∧
            isFilter (tables.normalize (content first)) = true) ↔
          isFilter (tables.normalize (content piece)) = true := by
        simp [hunquoted]
      rw [hjoined, hstarts]
      by_cases hfilter : isFilter (tables.normalize (content piece)) = true
      · -- The filter's item is in another list than the term.
        refine iff_of_false (fun heq => ?_) (not_not.mpr hfilter)
        have hlength := congrArg (fun query => query.terms.length) (Except.ok.inj heq)
        simp only [SearchQuery.append, List.length_append, terms_of_isFilter hitem hfilter] at hlength
        change 1 + tail.terms.length = 0 + tail.terms.length at hlength
        omega
      · rw [readToken_eq_term hitem (Bool.eq_false_iff.mpr hfilter)]
        exact iff_of_true rfl hfilter

/-- The joined query is accepted where it is within the limits. -/
theorem parse_append_space {first second : List Char} {joined : SearchQuery}
    (hfirst : parse tables first = .ok query) (hsecond : parse tables second = .ok other)
    (hbytes : ((first ++ ' ' :: second).map Char.utf8Size).sum ≤ maxQueryBytes)
    (hcount : ∀ tokens, tokenize (first ++ ' ' :: second) = some tokens → tokens.length ≤ 32) :
    parse tables (first ++ ' ' :: second) = .ok joined ↔
      readTokens tables (flagged false (parts first) ++ flagged (carried false (parts first)) (parts second)) =
        .ok joined := by
  obtain ⟨-, hcontrol, hopen, -, -⟩ := parse_eq_ok.mp hfirst
  obtain ⟨-, hcontrol', hopen', -, -⟩ := parse_eq_ok.mp hsecond
  have hjoinedOpen := openQuote_append_space hopen hopen'
  have hjoinedControl : (first ++ ' ' :: second).any isControl = false := by
    have hspace : isControl ' ' = false := by decide
    rw [List.any_append, List.any_cons, hcontrol, hcontrol', hspace]
    rfl
  have hflagged : flagged false (parts (first ++ ' ' :: second)) =
      flagged false (parts first) ++ flagged (carried false (parts first)) (parts second) := by
    rw [parts_append_space hopen, flagged_append fun piece => ne_nil_of_mem_parts]
  have hlength := hcount _ (by rw [tokenize_eq, hjoinedOpen]; rfl)
  rw [parse_eq_ok, ← hflagged]
  exact ⟨fun h => h.2.2.2.2, fun h => ⟨hbytes, hjoinedControl, hjoinedOpen, hlength, h⟩⟩

/-- Joined queries are not taken apart as they were put together exactly when the first one ends
with a pair of quotes around nothing and the second one starts with an unquoted filter. The
tokens of a query are literal as they are spelled exactly when none of those pairs stands in front
of an unquoted token. -/
theorem search_query_compositional_iff (tables : QueryTables) :
    (∀ first second query other, parse tables first = .ok query → parse tables second = .ok other →
      ((first ++ ' ' :: second).map Char.utf8Size).sum ≤ maxQueryBytes →
      (∀ tokens, tokenize (first ++ ' ' :: second) = some tokens → tokens.length ≤ 32) →
        (parse tables (first ++ ' ' :: second) = .ok (query.append other) ↔
          ¬(EndsWithEmptyQuotes first ∧ StartsWithFilter tables second))) ∧
    (∀ text query, parse tables text = .ok query →
      (tokenize text = some (spelled (parts text)) ↔ NoEmptyQuotesBefore text)) := by
  constructor
  · intro first second query other hfirst hsecond hbytes hcount
    rw [parse_append_space hfirst hsecond hbytes hcount]
    obtain ⟨-, -, -, -, hread⟩ := parse_eq_ok.mp hfirst
    obtain ⟨-, -, -, -, hread'⟩ := parse_eq_ok.mp hsecond
    rw [readTokens_append_eq_ok hread, EndsWithEmptyQuotes, ← carried_eq_true_iff]
    cases carried false (parts first) with
    | false => exact iff_of_true hread' (by simp)
    | true => simpa using readTokens_flagged_true_iff hread'
  · intro text query hparse
    obtain ⟨-, -, hopen, -, -⟩ := parse_eq_ok.mp hparse
    rw [tokenize_eq, hopen, NoEmptyQuotesBefore]
    simp only [Bool.false_eq_true, if_false, Option.some.injEq,
      flagged_eq_spelled_iff fun piece => ne_nil_of_mem_parts, false_implies, true_and]

/-! ### A filter after empty quotes -/

/-- Unicode as far as it is ASCII, and no dates. -/
def asciiQueries : QueryTables := ⟨List.map Char.toLower, fun _ => none⟩

/-- A pair of quotes around nothing makes the filter after it a term. -/
theorem filter_after_empty_quotes :
    parse asciiQueries "\"\"".toList = .ok .empty ∧
      parse asciiQueries "type:pdf".toList = .ok { SearchQuery.empty with types := ["pdf".toList] } ∧
      parse asciiQueries ("\"\"".toList ++ ' ' :: "type:pdf".toList) =
        .ok { SearchQuery.empty with terms := ["type:pdf".toList] } ∧
      tokenize "\"\" type:pdf".toList ≠ some (spelled (parts "\"\" type:pdf".toList)) := by
  refine ⟨?_, ?_, ?_, ?_⟩ <;> decide +kernel

end Crabinet.Search
