import ExprLang.Proofs.LineReading

/-!
# Input that has not been read

What a session has answered does not depend on characters that it has not pulled. A token is known when its
text has been read and, for a word or a numeral, one character behind it; so the tokens that are known from
the characters of a text stay as they are whatever follows, and every other token takes at least one
character more. Commands look at no token behind the current one, so a run that ends at a known token is
decided by known tokens alone.
-/

namespace ExprLang

/-- A run that does not end within a list goes on into what follows. -/
theorem dropWhile_append_of_eq_nil {p : Char → Bool} {as : List Char} (h : as.dropWhile p = [])
    (bs : List Char) : (as ++ bs).dropWhile p = bs.dropWhile p := by
  rw [List.dropWhile_append, h]
  rfl

/-- Behind a word one answer is looked at. -/
theorem Token.lookahead_ofWord (word : String) : (Token.ofWord word).lookahead = 1 := by
  unfold ofWord
  split
  · rfl
  · split <;> rfl

/-- There is less behind the text of a token than in front of it. -/
theorem length_lt_of_mem_spans {cs : List Char} {x : Token × List Char} (h : x ∈ spans cs) :
    x.2.length < cs.length := by
  obtain ⟨before, w, rfl, hw⟩ := exists_spells_of_mem_spans h
  have hpos := List.length_pos_iff.mpr hw.ne_nil
  simp only [List.length_append]
  omega

/-- A token whose lookahead goes beyond a list is the last one, and a token in its place looks beyond the
list whatever follows. -/
theorem Takes.append_of_lt {cs rest : List Char} {k : Token} (h : Takes cs k rest)
    (hk : rest.length < k.lookahead) (r : List Char) :
    rest = [] ∧ ∃ k' rest', Takes (cs ++ r) k' rest' ∧ k'.lookahead = 1 ∧ rest'.length ≤ r.length := by
  cases h with
  | @word c cs hc =>
      rw [Token.lookahead_ofWord, Nat.lt_one_iff, List.length_eq_zero_iff] at hk
      refine ⟨hk, _, (cs ++ r).dropWhile Char.isAlphanum, .word hc, Token.lookahead_ofWord _, ?_⟩
      rw [dropWhile_append_of_eq_nil hk]
      exact List.length_dropWhile_le _ r
  | @numeral c cs hc =>
      have hnil : cs.dropWhile isNumeric = [] := List.length_eq_zero_iff.mp (Nat.lt_one_iff.mp hk)
      refine ⟨hnil, _, (cs ++ r).dropWhile isNumeric, .numeral hc, rfl, ?_⟩
      rw [dropWhile_append_of_eq_nil hnil]
      exact List.length_dropWhile_le _ r
  | symbol _ => simp [Token.lookahead] at hk

/-- Of the spans of `p`, those whose lookahead is within `p` stay when `r` follows, and all others look
beyond `p`. -/
def Extends (p r : List Char) (spansBefore : List (Token × List Char)) : Prop :=
  ∃ later, spans (p ++ r) =
      (spansBefore.filter fun x => x.1.lookahead ≤ x.2.length).map (fun x => (x.1, x.2 ++ r)) ++ later ∧
    ∀ x ∈ later, x.2.length < r.length + x.1.lookahead

/-- What neither changes the spans nor stands behind the first token may be put in front. -/
theorem Extends.congr {p q r : List Char} {front : List (Token × List Char)} (h : Extends q r front)
    (hspans : spans (p ++ r) = spans (q ++ r)) : Extends p r front := by
  rwa [Extends, hspans]

/-- Where no token is known all tokens may look beyond. -/
theorem extends_nil {p q r : List Char} (hspans : spans (p ++ r) = spans q)
    (hq : q.length ≤ r.length) : Extends p r [] := by
  refine ⟨spans q, hspans, ?_⟩
  intro x hx
  have hlt := length_lt_of_mem_spans hx
  omega

/-- A token may be put in front. -/
theorem extends_of_takes {cs rest r : List Char} {k : Token} (h : Takes cs k rest)
    (hrest : Extends rest r (spans rest)) : Extends cs r ((k, rest) :: spans rest) := by
  by_cases hk : k.lookahead ≤ rest.length
  · obtain ⟨later, hlater, hlt⟩ := hrest
    have hends : rest ≠ [] ∨ Detached r ∨ ∃ c, k = .symbol c := by
      cases k with
      | symbol c => exact .inr (.inr ⟨c, rfl⟩)
      | _ => exact .inl (List.length_pos_iff.mp hk)
    refine ⟨later, ?_, hlt⟩
    rw [(h.append hends).spans, hlater]
    simp [hk]
  · rw [Nat.not_le] at hk
    obtain ⟨rfl, k', rest', htakes, hlookahead, hle⟩ := h.append_of_lt hk r
    refine ⟨(k', rest') :: spans rest', ?_, ?_⟩
    · rw [htakes.spans]
      simpa using hk
    · intro x hx
      rcases List.mem_cons.mp hx with rfl | hx
      · rw [hlookahead]
        exact Nat.lt_succ_of_le hle
      · have hlt := length_lt_of_mem_spans hx
        omega

/-- The tokens of a list whose lookahead is within the list stay when more follows, and all others look
beyond the list. -/
theorem extends_spans (p r : List Char) : Extends p r (spans p) := by
  induction p using spans_induction with
  | nil =>
      rw [spans_nil]
      exact extends_nil rfl (Nat.le_refl _)
  | blank c cs hblank ih =>
      rw [spans_blank hblank]
      apply ih.congr
      rw [List.cons_append, spans_blank hblank]
  | comment cs ih =>
      have hspans : spans ('#' :: cs ++ r) = spans ((cs ++ r).dropWhile (!isLineEnd ·)) := by
        rw [List.cons_append, spans_comment]
      rw [spans_comment]
      by_cases hend : cs.dropWhile (!isLineEnd ·) = []
      · rw [dropWhile_append_of_eq_nil hend] at hspans
        rw [hend, spans_nil]
        exact extends_nil hspans (List.length_dropWhile_le _ r)
      · rw [(span_append (.inl hend)).2] at hspans
        exact ih.congr hspans
  | token cs k rest htakes ih =>
      rw [htakes.spans]
      exact extends_of_takes htakes ih

/-- The tokens that are known when the characters have been read, each with the offset just past its
text. -/
def known (p : List Char) : List (Token × Nat) :=
  (textEnds p).filter fun x => x.2 + x.1.lookahead ≤ p.length

/-- What is known stays known whatever follows, and all other tokens take more characters. -/
theorem textEnds_append (p r : List Char) :
    ∃ later, textEnds (p ++ r) = known p ++ later ∧ ∀ x ∈ later, p.length < x.2 + x.1.lookahead := by
  obtain ⟨later, hlater, hlt⟩ := extends_spans p r
  refine ⟨later.map fun x => (x.1, (p ++ r).length - x.2.length), ?_, ?_⟩
  · have hknown : known p =
        ((spans p).filter fun x => x.1.lookahead ≤ x.2.length).map
          fun x => (x.1, p.length - x.2.length) := by
      rw [known, textEnds, List.filter_map]
      congr 1
      apply List.filter_congr
      intro x hx
      have hlt := length_lt_of_mem_spans hx
      simp only [Function.comp_apply, decide_eq_decide]
      omega
    rw [textEnds, hlater, List.map_append, List.map_map, hknown]
    congr 2
    funext x
    simp [Nat.add_sub_add_right]
  · intro x hx
    obtain ⟨y, hy, rfl⟩ := List.mem_map.mp hx
    have hlt := hlt y hy
    simp only [List.length_append]
    omega

/-- A known token stands at its place whatever follows. -/
theorem getElem?_textEnds_append {p : List Char} {n : Nat} (hn : n < (known p).length) (r : List Char) :
    (textEnds (p ++ r))[n]? = (known p)[n]? := by
  obtain ⟨later, hlater, _⟩ := textEnds_append p r
  rw [hlater, List.getElem?_append_left hn]

/-- Up to a known token as many characters are pulled whatever follows. -/
theorem pulledThrough_append {p : List Char} {n : Nat} (hn : n < (known p).length) (r : List Char) :
    pulledThrough (p ++ r) n = pulledThrough p n := by
  have hends := getElem?_textEnds_append hn []
  rw [List.append_nil] at hends
  have hentry := List.getElem?_eq_getElem hn
  have hle : (known p)[n].2 + (known p)[n].1.lookahead ≤ p.length :=
    of_decide_eq_true (List.mem_filter.mp (List.getElem_mem hn)).2
  rw [pulledThrough, pulledThrough, getElem?_textEnds_append hn r, hends, hentry]
  generalize (known p)[n] = x at hle
  obtain ⟨k, stop⟩ := x
  cases k with
  | symbol c => rfl
  | _ =>
      simp only [Token.lookahead, List.length_append] at hle ⊢
      omega

/-- Only known tokens are reached without a character of what follows. -/
theorem lt_length_known {p r : List Char} {n : Nat} (hr : r ≠ [])
    (hn : pulledThrough (p ++ r) n ≤ p.length) : n < (known p).length := by
  obtain ⟨later, hlater, hlt⟩ := textEnds_append p r
  have hpos := List.length_pos_iff.mpr hr
  have hrequests : (known p).length ≤ n → p.length < requests (p ++ r) n := by
    intro hle
    rw [requests, hlater, List.getElem?_append_right hle]
    cases hentry : later[n - (known p).length]? with
    | none =>
        simp only [List.length_append]
        omega
    | some x => exact hlt x (List.mem_of_getElem? hentry)
  rw [← min_requests, List.length_append] at hn
  by_contra hge
  have hmore := hrequests (Nat.not_lt.mp hge)
  omega

/-- The tokens up to a known one are known tokens whatever follows. -/
theorem scan_append_known {p : List Char} {n : Nat} (hn : n < (known p).length) (r : List Char) :
    scan (p ++ r) = ((known p).map Prod.fst).take n ++ (scan (p ++ r)).drop n ∧
      n < (scan (p ++ r)).length := by
  obtain ⟨later, hlater, _⟩ := textEnds_append p r
  have hscan : scan (p ++ r) = (known p).map Prod.fst ++ later.map Prod.fst := by
    rw [← List.map_append, ← hlater, map_fst_textEnds]
  have hlength : n < ((known p).map Prod.fst).length := by simpa using hn
  have htake : (scan (p ++ r)).take n = ((known p).map Prod.fst).take n := by
    rw [hscan, List.take_append_of_le_length (Nat.le_of_lt hlength)]
  constructor
  · rw [← htake, List.take_append_drop]
  · rw [hscan, List.length_append]
    omega

namespace Session

open Cursor

variable {τ τ' α : Type} [TokenStream τ] [TokenStream τ']

/-- The answer and the session behind some tokens are decided by these tokens and the one behind them: `f`
ends alike in every session with the same table where the same ones stand. -/
def Decided (s : Session τ) (x : Answer × Session τ) (f : Session τ' → Answer × Session τ') : Prop :=
  ∃ ks, s.cursor.tokens = ks ++ x.2.cursor.tokens ∧
    ∀ s' rest, s'.ops = s.ops → s'.cursor.tokens = ks ++ rest → rest.head? = x.2.cursor.current →
      (f s').1 = x.1 ∧ (f s').2.ops = x.2.ops ∧ (f s').2.cursor.tokens = rest

/-- A production that looks at no more tokens decides the answer. -/
theorem decided_settle {s : Session τ} {r : Outcome τ α} {f : OpTable → Cursor τ' → Outcome τ' α}
    (h : Settled s.cursor r (f s.ops)) (answer : α → Answer) :
    Decided s (s.settle answer r) fun s' => s'.settle answer (f s'.ops s'.cursor) := by
  obtain ⟨ks, hks, _, hlocal⟩ := h
  obtain ⟨result, d⟩ := r
  have hcursor : (s.settle answer (result, d)).2.cursor = d := by cases result <;> rfl
  refine ⟨ks, by rw [hcursor]; exact hks, ?_⟩
  intro s' rest hops htokens hhead
  rw [hcursor] at hhead
  obtain ⟨d', hd', hrest⟩ := hlocal s'.cursor rest htokens hhead
  simp only [hops, hd']
  cases result with
  | ok a => exact ⟨rfl, hops, hrest⟩
  | error e => exact ⟨rfl, hops, hrest⟩

/-- A command that stays at its cursor decides its answer by the table. -/
theorem decided_stay (s : Session τ) (answer : OpTable → Answer) (edit : OpTable → OpTable) :
    Decided s (answer s.ops, { s with ops := edit s.ops }) fun s' : Session τ' =>
      (answer s'.ops, { s' with ops := edit s'.ops }) := by
  refine ⟨[], rfl, ?_⟩
  intro s' rest hops htokens _
  exact ⟨congrArg answer hops, congrArg edit hops, htokens⟩

/-- A command looks at no token behind the one that is current after it. -/
theorem decided_run (s : Session τ) (command : Command) :
    Decided s (s.run command) fun s' : Session τ' => s'.run command := by
  cases command with
  | advance =>
      exact decided_settle (f := fun _ c' => (.ok (), c'.advance)) (settled_done _ ()).skip fun _ => .moved
  | expr => exact decided_settle (f := fun ops c' => c'.expr ops) (settled_expr s.ops s.cursor) .expr
  | prototype => exact decided_settle (f := fun _ c' => c'.prototype) (settled_prototype s.cursor) .prototype
  | definition =>
      exact decided_settle (f := fun ops c' => c'.definition ops) (settled_definition s.ops s.cursor)
        .function
  | external => exact decided_settle (f := fun _ c' => c'.external) (settled_external s.cursor) .prototype
  | toplevel =>
      exact decided_settle (f := fun ops c' => c'.toplevel ops) (settled_toplevel s.ops s.cursor) .function
  | program =>
      exact decided_settle (f := fun ops c' => c'.program ops) (settled_program s.ops s.cursor) .items
  | setOperator c precedence =>
      exact decided_stay s (fun ops => .entry (ops.get? c)) fun ops => ops.insert c precedence
  | removeOperator c => exact decided_stay s (fun ops => .entry (ops.get? c)) fun ops => ops.erase c
  | table => exact decided_stay s (fun ops => .table ops.toList) fun ops => ops

/-- Commands take tokens from the front. -/
theorem tokens_after_suffix (s : Session τ) (commands : List Command) :
    (s.after commands).cursor.tokens <:+ s.cursor.tokens := by
  induction commands generalizing s with
  | nil => exact List.suffix_rfl
  | cons command commands ih =>
      have hdecided : Decided s (s.run command) fun s' : Session τ => s'.run command :=
        decided_run s command
      obtain ⟨ks, hks, _⟩ := hdecided
      exact (ih (s.run command).2).trans ⟨ks, hks.symm⟩

/-- Commands are decided by the tokens up to the one that is current after them. Wherever these stand, the
answers are the same, and each session has the same of these tokens in front of it. -/
theorem visited_decided {s : Session τ} {s' : Session τ'} {commands : List Command}
    {ks rest : List Token} (hops : s'.ops = s.ops)
    (hs : s.cursor.tokens = ks ++ (s.after commands).cursor.tokens)
    (hs' : s'.cursor.tokens = ks ++ rest)
    (hhead : rest.head? = (s.after commands).cursor.current) :
    (s'.trace commands).map Prod.fst = (s.trace commands).map Prod.fst ∧
      List.Forall₂ (fun x x' => ∃ js, x.cursor.tokens = js ++ (s.after commands).cursor.tokens ∧
        x'.cursor.tokens = js ++ rest) (s.visited commands) (s'.visited commands) := by
  induction commands generalizing s s' ks with
  | nil => exact ⟨rfl, .cons ⟨ks, hs, hs'⟩ .nil⟩
  | cons command commands ih =>
      have hdecided : Decided s (s.run command) fun s' : Session τ' => s'.run command :=
        decided_run s command
      obtain ⟨js, hjs, hrun⟩ := hdecided
      obtain ⟨ls, hls⟩ := tokens_after_suffix (s.run command).2 commands
      have hsplit : ks = js ++ ls := by
        rw [hjs, ← hls, ← List.append_assoc] at hs
        exact (List.append_cancel_right hs).symm
      -- the first command stops in front of what the other ones take, or of `rest`
      have hmiddle : (ls ++ rest).head? = (s.run command).2.cursor.current := by
        rw [List.head?_append, current_eq_or hls.symm, hhead]
        rfl
      have htokens : s'.cursor.tokens = js ++ (ls ++ rest) := by rw [hs', hsplit, List.append_assoc]
      obtain ⟨hanswer, hops', htokens'⟩ := hrun s' (ls ++ rest) hops htokens hmiddle
      obtain ⟨hanswers, hvisited⟩ := ih hops' hls.symm htokens' hhead
      constructor
      · simp only [trace, List.map_cons, hanswer, hanswers]
      · exact .cons ⟨ks, hs, hs'⟩ hvisited

/-- How many characters of its text a session has pulled. -/
def pulled (s : Session (Lexer Text)) : Nat := s.cursor.rest.source.pulled

/-- A session over a text is at some token of the text and has pulled what this token takes. -/
theorem visited_ofString {s : String} {commands : List Command} {x : Session (Lexer Text)}
    (hx : x ∈ (ofString s).visited commands) :
    ∃ n, x.cursor.tokens = (scan s.toList).drop n ∧
      x.cursor.current = (textEnds s.toList)[n]?.map Prod.fst ∧ x.pulled = pulledThrough s.toList n := by
  have hyields : Source.Yields (Text.ofString s) s.toList := Text.yields s.toList 0
  obtain ⟨n, htokens, hcurrent, hsource⟩ := visited_ofSource hyields hx
  refine ⟨n, htokens, hcurrent, ?_⟩
  rw [pulled, hsource, Text.counts_pulled.after hyields (requests_le _ n), min_requests]
  exact Nat.zero_add _

/-- The tokens of a session over a text are those of its characters. -/
theorem tokens_ofString (s : String) : (ofString s).cursor.tokens = scan s.toList := by
  rw [← lex_eq_scan]
  exact tokens_start_ofText s

/-- Sessions over two texts that begin alike stand on the same token and have pulled as much, if both have
the same tokens in front of a known one. -/
theorem observed_eq {p r r' : String} {commands commands' : List Command} {x x' : Session (Lexer Text)}
    {m : Nat} {js : List Token} (hx : x ∈ (ofString (p ++ r)).visited commands)
    (hx' : x' ∈ (ofString (p ++ r')).visited commands') (hm : m < (known p.toList).length)
    (hjs : x.cursor.tokens = js ++ (scan (p.toList ++ r.toList)).drop m)
    (hjs' : x'.cursor.tokens = js ++ (scan (p.toList ++ r'.toList)).drop m) :
    (x.cursor.current, x.pulled) = (x'.cursor.current, x'.pulled) := by
  obtain ⟨n, hn, hcurrent, hpulled⟩ := visited_ofString hx
  obtain ⟨n', hn', hcurrent', hpulled'⟩ := visited_ofString hx'
  rw [String.toList_append] at hn hcurrent hpulled hn' hcurrent' hpulled'
  have hlength := (scan_append_known hm r.toList).2
  have hlength' := (scan_append_known hm r'.toList).2
  have hsame : n' = n ∧ n ≤ m := by
    have hcount := congrArg List.length (hn.symm.trans hjs)
    have hcount' := congrArg List.length (hn'.symm.trans hjs')
    simp only [List.length_append, List.length_drop] at hcount hcount'
    omega
  obtain ⟨rfl, hle⟩ := hsame
  have hn : n' < (known p.toList).length := Nat.lt_of_le_of_lt hle hm
  rw [hcurrent, hcurrent', hpulled, hpulled', getElem?_textEnds_append hn, getElem?_textEnds_append hn,
    pulledThrough_append hn, pulledThrough_append hn]

/-- Characters that have not been pulled have no influence. If commands over a text pull the characters of
`p` and none of what follows, then over every text that begins with `p` they have the same answers, and at
every step, the first one included, the same current token and the same number of characters pulled. -/
theorem visited_append (p r r' : String) (hr : r ≠ "") (commands : List Command)
    (hpulled : ((ofString (p ++ r)).after commands).pulled = p.length) :
    ((ofString (p ++ r')).trace commands).map Prod.fst =
        ((ofString (p ++ r)).trace commands).map Prod.fst ∧
      ((ofString (p ++ r')).visited commands).map (fun x => (x.cursor.current, x.pulled)) =
        ((ofString (p ++ r)).visited commands).map fun x => (x.cursor.current, x.pulled) := by
  obtain ⟨m, hlast, hcurrent, hm⟩ := visited_ofString (after_mem_visited (ofString (p ++ r)) commands)
  rw [String.toList_append] at hlast hcurrent hm
  have hknown : m < (known p.toList).length := by
    apply lt_length_known (r := r.toList)
    · simpa using hr
    · rw [← hm, hpulled, String.length_toList]
  have hscan := (scan_append_known hknown r.toList).1
  have hscan' := (scan_append_known hknown r'.toList).1
  have htokens : (ofString (p ++ r)).cursor.tokens = ((known p.toList).map Prod.fst).take m ++
      ((ofString (p ++ r)).after commands).cursor.tokens := by
    rw [tokens_ofString, String.toList_append, hlast, ← hscan]
  have htokens' : (ofString (p ++ r')).cursor.tokens = ((known p.toList).map Prod.fst).take m ++
      (scan (p.toList ++ r'.toList)).drop m := by
    rw [tokens_ofString, String.toList_append, ← hscan']
  have hhead : ((scan (p.toList ++ r'.toList)).drop m).head? =
      ((ofString (p ++ r)).after commands).cursor.current := by
    rw [hcurrent, List.head?_drop, ← map_fst_textEnds, List.getElem?_map,
      getElem?_textEnds_append hknown, getElem?_textEnds_append hknown]
  have hops : (ofString (p ++ r')).ops = (ofString (p ++ r)).ops := rfl
  obtain ⟨hanswers, hvisited⟩ := visited_decided hops htokens htokens' hhead
  refine ⟨hanswers, ?_⟩
  rw [List.forall₂_iff_zip] at hvisited
  rw [eq_comm, ← List.forall₂_eq_eq_eq, List.forall₂_map_left_iff, List.forall₂_map_right_iff,
    List.forall₂_iff_zip]
  refine ⟨hvisited.1, ?_⟩
  intro x x' hx
  obtain ⟨js, hjs, hjs'⟩ := hvisited.2 hx
  rw [hlast] at hjs
  exact observed_eq (List.of_mem_zip hx).1 (List.of_mem_zip hx).2 hknown hjs hjs'

/-- An expression that ends at a separator is answered without a character behind the separator. -/
theorem visited_append_separator :
    "y" ≠ "" ∧ ((ofString ("x;" ++ "y")).after [.expr]).pulled = "x;".length ∧
      ((ofString ("x;" ++ "(")).trace [.expr]).map Prod.fst =
        ((ofString ("x;" ++ "y")).trace [.expr]).map Prod.fst := by
  have hr : "y" ≠ "" := by decide
  have hpulled : ((ofString ("x;" ++ "y")).after [.expr]).pulled = "x;".length := by
    have hspans : spans ['x', ';', 'y'] =
        [(.ident "x", [';', 'y']), (.symbol ';', ['y']), (.ident "y", [])] := by
      have hfirst : Takes ['x', ';', 'y'] (.ident "x") [';', 'y'] := .word rfl
      have hsecond : Takes [';', 'y'] (.symbol ';') ['y'] := .symbol (by decide)
      have hthird : Takes ['y'] (.ident "y") [] := .word rfl
      rw [hfirst.spans, hsecond.spans, hthird.spans, spans_nil]
    have hscan : scan ("x;" ++ "y").toList = [.ident "x", .symbol ';', .ident "y"] := by
      change scan ['x', ';', 'y'] = _
      rw [scan, hspans]
      rfl
    have hname : Grammar.Derives .standard (.expr (.var "x")) [.ident "x"] (some (.symbol ';')) :=
      (Grammar.Derives.name (by decide)).expr_of_primary
    obtain ⟨d, hexpr, hd⟩ := Cursor.returns_of_derives OpTable.separating_standard hname
      (ofString ("x;" ++ "y")).cursor [.symbol ';', .ident "y"] (by rw [tokens_ofString, hscan]; rfl) rfl
      (OpTable.separating_standard.operator?_eq_none (by decide))
    have hafter : (ofString ("x;" ++ "y")).after [.expr] = ⟨.standard, d⟩ := by
      simp only [after, run]
      rw [show (ofString ("x;" ++ "y")).ops = .standard from rfl, hexpr]
      rfl
    obtain ⟨n, hn, _, hpulled⟩ := visited_ofString (after_mem_visited (ofString ("x;" ++ "y")) [.expr])
    obtain rfl : n = 1 := by
      rw [hafter, hscan] at hn
      have hlength := congrArg List.length (hd.symm.trans hn)
      simp only [List.length_cons, List.length_nil, List.length_drop] at hlength
      omega
    rw [hpulled]
    change pulledThrough ['x', ';', 'y'] 1 = 2
    rw [pulledThrough, textEnds, hspans]
    rfl
  exact ⟨hr, hpulled, (visited_append "x;" "y" "(" hr [.expr] hpulled).1⟩

end Session

end ExprLang
