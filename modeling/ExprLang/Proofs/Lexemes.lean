import ExprLang.Proofs.Lookahead

/-!
# Texts cut into lexemes

A lexer reads a text from left to right and decides at each character what to do with it. What comes of this
is said here without an order of reading. A text is cut into lexemes with gaps around them; a gap is made of
blanks and comments, and every piece is as long as it can be. The main statements are that a text can be cut
in one way and no other, and that its tokens are those that the lexemes stand for.

A line that is broken ends every piece but a gap. So the tokens of two texts with a broken line between them
are those of the first and those of the second, whatever the one ends and the other begins with, and it does
not matter how lines are broken.
-/

namespace ExprLang

/-- The characters in front of `rest` are of the kind, and no more characters from the same place on are. -/
def Longest (kind : List Char → List Char → Prop) (w rest : List Char) : Prop :=
  kind w rest ∧ ∀ w' rest', w' ++ rest' = w ++ rest → kind w' rest' → w'.length ≤ w.length

/-- Where two pieces of a kind begin at the same place and are as long as they can be, they are one. -/
theorem Longest.unique {kind : List Char → List Char → Prop} {w w' rest rest' : List Char}
    (h : Longest kind w rest) (h' : Longest kind w' rest') (heq : w ++ rest = w' ++ rest') :
    w = w' ∧ rest = rest' := by
  have hle := h.2 w' rest' heq.symm h'.1
  have hge := h'.2 w rest heq h.1
  exact List.append_inj heq (Nat.le_antisymm hge hle)

/-- Blanks and comments in front of `rest`. A comment goes from its mark up to where the line ends, or to
the end of the text. -/
inductive IsGap : List Char → List Char → Prop
  | nil {rest : List Char} : IsGap [] rest
  | blank {c : Char} {gap rest : List Char} (hc : isBlank c = true) (h : IsGap gap rest) :
      IsGap (c :: gap) rest
  | comment {body gap rest : List Char} (hbody : ∀ c ∈ body, isLineEnd c = false)
      (hend : ∀ c ∈ (gap ++ rest).head?, isLineEnd c = true) (h : IsGap gap rest) :
      IsGap ('#' :: (body ++ gap)) rest

/-- A letter with letters and digits behind it. -/
def IsWord (w : List Char) : Prop :=
  ∃ c cs, w = c :: cs ∧ c.isAlpha = true ∧ ∀ d ∈ cs, d.isAlphanum = true

/-- Digits and points, at least one. -/
def IsNumeralText (w : List Char) : Prop := w ≠ [] ∧ ∀ c ∈ w, isNumeric c = true

/-- The characters in front of `rest` are a lexeme that stands for the token. -/
inductive Lexeme : List Char → Token → List Char → Prop
  | definition {rest : List Char} (h : Longest (fun w _ => IsWord w) "def".toList rest) :
      Lexeme "def".toList .definition rest
  | external {rest : List Char} (h : Longest (fun w _ => IsWord w) "extern".toList rest) :
      Lexeme "extern".toList .external rest
  | ident {w rest : List Char} (h : Longest (fun w _ => IsWord w) w rest) (hdef : w ≠ "def".toList)
      (hexternal : w ≠ "extern".toList) : Lexeme w (.ident (String.ofList w)) rest
  | number {w rest : List Char} (h : Longest (fun w _ => IsNumeralText w) w rest) :
      Lexeme w (.number (Decimal.ofNumeral w).nearest) rest
  | symbol {c : Char} {rest : List Char} (hc : IsSymbol c) : Lexeme [c] (.symbol c) rest

/-- A lexeme with the gap in front of it and the token that it stands for. -/
structure Piece where
  gap : List Char
  text : List Char
  token : Token

/-- The text is cut into the pieces and the gap behind the last of them. -/
inductive Cuts : List Char → List Piece → List Char → Prop
  | last {gap : List Char} (h : Longest IsGap gap []) : Cuts gap [] gap
  | piece {gap text rest last : List Char} {k : Token} {pieces : List Piece}
      (hgap : Longest IsGap gap (text ++ rest)) (htext : Lexeme text k rest) (h : Cuts rest pieces last) :
      Cuts (gap ++ (text ++ rest)) (⟨gap, text, k⟩ :: pieces) last

/-- A run that passes the test, in front of what fails it, is all that is taken. -/
theorem span_append_of_head? {p : Char → Bool} {as bs : List Char} (has : ∀ c ∈ as, p c = true)
    (hbs : ∀ c ∈ bs.head?, p c = false) :
    (as ++ bs).takeWhile p = as ∧ (as ++ bs).dropWhile p = bs := by
  have htake := List.takeWhile_eq_self_iff.mpr has
  have hdrop := List.dropWhile_eq_nil_iff.mpr has
  have hspan : (as ++ bs).takeWhile p = as.takeWhile p ∧ (as ++ bs).dropWhile p = as.dropWhile p ++ bs :=
    span_append (.inr hbs)
  rwa [htake, hdrop, List.nil_append] at hspan

/-- Where a run that passes the test ends is decided by the characters. -/
theorem run_unique {p : Char → Bool} {as bs as' bs' : List Char} (has : ∀ c ∈ as, p c = true)
    (hbs : ∀ c ∈ bs.head?, p c = false) (has' : ∀ c ∈ as', p c = true)
    (hbs' : ∀ c ∈ bs'.head?, p c = false) (heq : as ++ bs = as' ++ bs') : as = as' ∧ bs = bs' := by
  obtain ⟨htake, hdrop⟩ := span_append_of_head? has hbs
  obtain ⟨htake', hdrop'⟩ := span_append_of_head? has' hbs'
  rw [heq] at htake hdrop
  exact ⟨htake.symm.trans htake', hdrop.symm.trans hdrop'⟩

/-- No run that passes the test is longer than what is taken. -/
theorem length_le_takeWhile {p : Char → Bool} {as bs cs : List Char} (has : ∀ c ∈ as, p c = true)
    (hcs : as ++ bs = cs) : as.length ≤ (cs.takeWhile p).length := by
  rw [← hcs, List.takeWhile_append_of_pos has, List.length_append]
  exact Nat.le_add_right _ _

/-- A run that can go on is not as long as it can be. -/
theorem Longest.head?_eq_false {P : List Char → Prop} {p : Char → Bool} {w rest : List Char}
    (h : Longest (fun w _ => P w) w rest) (hp : ∀ c, p c = true → P (w ++ [c])) :
    ∀ c ∈ rest.head?, p c = false := by
  intro c hc
  obtain ⟨cs, rfl⟩ := List.head?_eq_some_iff.mp hc
  rw [Bool.eq_false_iff]
  intro hpc
  have hle := h.2 (w ++ [c]) cs (by simp) (hp c hpc)
  simp only [List.length_append, List.length_singleton] at hle
  omega

/-- A word is taken whole. -/
theorem takes_of_word {w rest : List Char} (h : Longest (fun w _ => IsWord w) w rest) :
    Takes (w ++ rest) (.ofWord (String.ofList w)) rest := by
  obtain ⟨c, cs, rfl, hc, hcs⟩ := h.1
  have hhead : ∀ d ∈ rest.head?, d.isAlphanum = false := by
    apply h.head?_eq_false
    intro d hd
    refine ⟨c, cs ++ [d], rfl, hc, ?_⟩
    intro e he
    rcases List.mem_append.mp he with he | he
    · exact hcs e he
    · exact List.mem_singleton.mp he ▸ hd
  obtain ⟨htake, hdrop⟩ := span_append_of_head? hcs hhead
  have htakes : Takes (c :: (cs ++ rest)) _ _ := .word hc
  rwa [htake, hdrop] at htakes

/-- A numeral is taken whole. -/
theorem takes_of_numeral {w rest : List Char} (h : Longest (fun w _ => IsNumeralText w) w rest) :
    Takes (w ++ rest) (.ofNumeral w) rest := by
  obtain ⟨hne, hw⟩ := h.1
  have hhead : ∀ d ∈ rest.head?, isNumeric d = false := by
    apply h.head?_eq_false
    intro d hd
    refine ⟨by simp, ?_⟩
    intro e he
    rcases List.mem_append.mp he with he | he
    · exact hw e he
    · exact List.mem_singleton.mp he ▸ hd
  obtain ⟨c, cs, rfl⟩ := List.exists_cons_of_ne_nil hne
  obtain ⟨htake, hdrop⟩ := span_append_of_head? (fun d hd => hw d (List.mem_cons_of_mem _ hd)) hhead
  have htakes : Takes (c :: (cs ++ rest)) _ _ := .numeral (hw c List.mem_cons_self)
  rwa [htake, hdrop] at htakes

/-- A word that is no keyword is an identifier. -/
theorem Token.ofWord_ofList {w : List Char} (hdef : w ≠ "def".toList)
    (hexternal : w ≠ "extern".toList) :
    Token.ofWord (String.ofList w) = .ident (String.ofList w) := by
  have hne {v : String} (h : w ≠ v.toList) : String.ofList w ≠ v := by
    rintro rfl
    exact h String.toList_ofList.symm
  rw [ofWord, if_neg (hne hdef), if_neg (hne hexternal)]

/-- A lexeme is what is taken for its token. -/
theorem Lexeme.takes {w rest : List Char} {k : Token} (h : Lexeme w k rest) : Takes (w ++ rest) k rest := by
  cases h with
  | definition h => exact takes_of_word h
  | external h => exact takes_of_word h
  | ident h hdef hexternal => exact Token.ofWord_ofList hdef hexternal ▸ takes_of_word h
  | number h => exact takes_of_numeral h
  | symbol hc => exact .symbol hc

/-- A word is a lexeme, and stands for a keyword or for an identifier. -/
theorem lexeme_of_word {w rest : List Char} (h : Longest (fun w _ => IsWord w) w rest) :
    Lexeme w (.ofWord (String.ofList w)) rest := by
  by_cases hdef : w = "def".toList
  · subst hdef
    exact .definition h
  · by_cases hexternal : w = "extern".toList
    · subst hexternal
      exact .external h
    · rw [Token.ofWord_ofList hdef hexternal]
      exact .ident h hdef hexternal

/-- A letter with all the letters and digits behind it is as long a word as there is. -/
theorem longest_word {c : Char} (hc : c.isAlpha = true) (cs : List Char) :
    Longest (fun w _ => IsWord w) (c :: cs.takeWhile Char.isAlphanum) (cs.dropWhile Char.isAlphanum) := by
  refine ⟨⟨c, _, rfl, hc, fun d hd => List.mem_takeWhile_imp hd⟩, ?_⟩
  rintro _ rest' heq ⟨d, ds, rfl, _, hds⟩
  rw [List.cons_append, List.cons_append, List.takeWhile_append_dropWhile] at heq
  exact Nat.succ_le_succ (length_le_takeWhile hds (List.cons.inj heq).2)

/-- A digit or a point with all those behind it is as long a numeral as there is. -/
theorem longest_numeral {c : Char} (hc : isNumeric c = true) (cs : List Char) :
    Longest (fun w _ => IsNumeralText w) (c :: cs.takeWhile isNumeric) (cs.dropWhile isNumeric) := by
  refine ⟨⟨by simp, List.forall_mem_cons.mpr ⟨hc, fun d hd => List.mem_takeWhile_imp hd⟩⟩, ?_⟩
  rintro w' rest' heq ⟨_, hw'⟩
  rw [List.cons_append, List.takeWhile_append_dropWhile] at heq
  have hle := length_le_takeWhile hw' heq
  rwa [List.takeWhile_cons_of_pos hc] at hle

/-- What is taken for a token is a lexeme. -/
theorem Takes.lexeme {cs rest : List Char} {k : Token} (h : Takes cs k rest) :
    ∃ w, cs = w ++ rest ∧ Lexeme w k rest := by
  cases h with
  | @word c cs hc =>
      refine ⟨_, ?_, lexeme_of_word (longest_word hc cs)⟩
      rw [List.cons_append, List.takeWhile_append_dropWhile]
  | @numeral c cs hc =>
      refine ⟨_, ?_, .number (longest_numeral hc cs)⟩
      rw [List.cons_append, List.takeWhile_append_dropWhile]
  | @symbol c cs hc => exact ⟨[c], rfl, .symbol hc⟩

/-- What is taken begins with no blank and with no comment. -/
theorem Takes.head? {cs rest : List Char} {k : Token} (h : Takes cs k rest) :
    ∀ c ∈ cs.head?, isBlank c = false ∧ c ≠ '#' := by
  cases h with
  | word hc =>
      rintro d ⟨⟩
      exact not_blank_of_isAlpha hc
  | numeral hc =>
      rintro d ⟨⟩
      exact ⟨(not_blank_of_isNumeric hc).1, (not_blank_of_isNumeric hc).2.1⟩
  | symbol hc =>
      rintro d ⟨⟩
      exact ⟨hc.1, hc.2.1⟩

/-- The characters decide which lexeme they begin with. -/
theorem Lexeme.unique {w w' rest rest' : List Char} {k k' : Token} (h : Lexeme w k rest)
    (h' : Lexeme w' k' rest') (heq : w ++ rest = w' ++ rest') : w = w' ∧ k = k' ∧ rest = rest' := by
  have hspans := h.takes.spans
  rw [heq, h'.takes.spans] at hspans
  obtain ⟨⟨rfl, rfl⟩, _⟩ := by simpa using hspans
  exact ⟨List.append_cancel_right heq, rfl, rfl⟩

/-- A lexeme has characters. -/
theorem Lexeme.ne_nil {w rest : List Char} {k : Token} (h : Lexeme w k rest) : w ≠ [] := by
  rintro rfl
  have hspans := h.takes.spans
  simpa using congrArg List.length hspans

/-- A gap scans to nothing. -/
theorem IsGap.scan_append {gap rest : List Char} (h : IsGap gap rest) : scan (gap ++ rest) = scan rest := by
  induction h with
  | nil => rfl
  | blank hc _ ih => rw [List.cons_append, scan_blank hc, ih]
  | @comment body gap rest hbody hend _ ih =>
      have hdrop : (body ++ (gap ++ rest)).dropWhile (!isLineEnd ·) = gap ++ rest :=
        (span_append_of_head? (by simpa using hbody) (by simpa using hend)).2
      rw [List.cons_append, scan_comment, List.append_assoc, hdrop, ih]

/-- A gap in front of what begins with no blank and no comment is as long as it can be. -/
theorem IsGap.longest {gap rest : List Char} (h : IsGap gap rest)
    (hrest : ∀ c ∈ rest.head?, isBlank c = false ∧ c ≠ '#') : Longest IsGap gap rest := by
  refine ⟨h, ?_⟩
  induction h with
  | nil =>
      intro w' rest' heq h'
      rw [List.nil_append] at heq
      subst heq
      cases h' with
      | nil => exact Nat.le_refl _
      | @blank c _ _ hc _ =>
          have hblank := (hrest c rfl).1
          simp [hc] at hblank
      | comment _ _ _ => exact absurd rfl (hrest '#' rfl).2
  | @blank c gap rest hc _ ih =>
      intro w' rest' heq h'
      cases h' with
      | nil => exact Nat.zero_le _
      | blank _ h' => exact Nat.succ_le_succ (ih hrest _ _ (List.cons.inj heq).2 h')
      | comment _ _ _ =>
          rw [← (List.cons.inj heq).1] at hc
          simp [isBlank] at hc
  | @comment body gap rest hbody hend _ ih =>
      intro w' rest' heq h'
      cases h' with
      | nil => exact Nat.zero_le _
      | blank hc _ =>
          rw [(List.cons.inj heq).1] at hc
          simp [isBlank] at hc
      | @comment body' gap' _ hbody' hend' h' =>
          -- both comments end where the line does
          have heq' : body' ++ (gap' ++ rest') = body ++ (gap ++ rest) := by simpa using heq
          obtain ⟨rfl, hgap⟩ := run_unique (p := (!isLineEnd ·)) (by simpa using hbody')
            (by simpa using hend') (by simpa using hbody) (by simpa using hend) heq'
          have hle := ih hrest gap' rest' hgap h'
          simp only [List.length_cons, List.length_append]
          omega

/-- What keeps a gap when it is put in front of it may be put in front of a text that can be cut. -/
theorem Cuts.extend {front s last : List Char} {pieces : List Piece} (h : Cuts s pieces last)
    (hfront : ∀ gap rest, gap ++ rest = s → IsGap gap rest → IsGap (front ++ gap) rest) :
    ∃ pieces' last', Cuts (front ++ s) pieces' last' := by
  cases h with
  | last hgap =>
      have hgap' := hfront s [] (List.append_nil s) hgap.1
      exact ⟨[], front ++ s, .last (hgap'.longest (by simp))⟩
  | @piece gap text rest _ k pieces hgap htext h =>
      have hgap' := hfront gap (text ++ rest) rfl hgap.1
      rw [← List.append_assoc]
      exact ⟨_, last, .piece (hgap'.longest htext.takes.head?) htext h⟩

/-- A lexeme may be put in front of a text that can be cut. -/
theorem Takes.cuts {cs rest last : List Char} {k : Token} {pieces : List Piece} (h : Takes cs k rest)
    (hrest : Cuts rest pieces last) : ∃ pieces' last', Cuts cs pieces' last' := by
  obtain ⟨w, rfl, hw⟩ := h.lexeme
  exact ⟨⟨[], w, k⟩ :: pieces, last, .piece (IsGap.nil.longest h.head?) hw hrest⟩

/-- Every text can be cut. -/
theorem exists_cuts (s : List Char) : ∃ pieces last, Cuts s pieces last := by
  induction s using spans_induction with
  | nil => exact ⟨[], [], .last (IsGap.nil.longest (by simp))⟩
  | blank c cs hblank ih =>
      obtain ⟨pieces, last, h⟩ := ih
      have hfront : ∀ gap rest, gap ++ rest = cs → IsGap gap rest → IsGap ([c] ++ gap) rest :=
        fun _ _ _ hgap => .blank hblank hgap
      exact h.extend hfront
  | comment cs ih =>
      obtain ⟨pieces, last, h⟩ := ih
      have hfront : ∀ gap rest, gap ++ rest = cs.dropWhile (!isLineEnd ·) → IsGap gap rest →
          IsGap (('#' :: cs.takeWhile (!isLineEnd ·)) ++ gap) rest := by
        intro gap rest heq hgap
        refine .comment ?_ ?_ hgap
        · intro c hc
          simpa using List.mem_takeWhile_imp hc
        · intro c hc
          rw [heq] at hc
          have hend := List.head?_dropWhile_not (!isLineEnd ·) cs
          rw [hc] at hend
          simpa using hend
      have hcuts := h.extend hfront
      rwa [List.cons_append, List.takeWhile_append_dropWhile] at hcuts
  | token cs k rest htakes ih =>
      obtain ⟨pieces, last, h⟩ := ih
      exact htakes.cuts h

/-- A text can be cut in no more than one way. -/
theorem Cuts.unique {s last : List Char} {pieces : List Piece} (h : Cuts s pieces last)
    {s' last' : List Char} {pieces' : List Piece} (h' : Cuts s' pieces' last') (hs : s = s') :
    pieces = pieces' ∧ last = last' := by
  induction h generalizing s' pieces' with
  | @last gap hgap =>
      cases h' with
      | last _ => exact ⟨rfl, hs⟩
      | piece hgap' htext' _ =>
          -- a gap up to the end leaves no lexeme
          have hnil := (hgap.unique hgap' (by rw [List.append_nil, hs])).2
          exact absurd (List.append_eq_nil_iff.mp hnil.symm).1 htext'.ne_nil
  | @piece gap text rest last k pieces hgap htext _ ih =>
      cases h' with
      | last hgap' =>
          have hnil := (hgap.unique hgap' (by rw [List.append_nil, hs])).2
          exact absurd (List.append_eq_nil_iff.mp hnil).1 htext.ne_nil
      | piece hgap' htext' h' =>
          obtain ⟨rfl, hrest⟩ := hgap.unique hgap' hs
          obtain ⟨rfl, rfl, hrest⟩ := htext.unique htext' hrest
          obtain ⟨rfl, rfl⟩ := ih h' hrest
          exact ⟨rfl, rfl⟩

/-- The tokens of a text are those that its lexemes stand for. -/
theorem Cuts.scan_eq {s last : List Char} {pieces : List Piece} (h : Cuts s pieces last) :
    scan s = pieces.map Piece.token := by
  induction h with
  | @last gap hgap =>
      have hscan := hgap.1.scan_append
      rw [List.append_nil, scan_nil] at hscan
      rw [hscan, List.map_nil]
  | piece hgap htext _ ih => rw [hgap.1.scan_append, htext.takes.scan, ih, List.map_cons]

/-- The pieces put together are the text. -/
theorem Cuts.append_eq {s last : List Char} {pieces : List Piece} (h : Cuts s pieces last) :
    (pieces.flatMap fun piece => piece.gap ++ piece.text) ++ last = s := by
  induction h with
  | last _ => rfl
  | piece _ _ _ ih => rw [List.flatMap_cons, List.append_assoc, ih, List.append_assoc]

/-- A text is cut into gaps and lexemes in exactly one way, each as long as it can be. Put together they are
the text, and the tokens of the text are those that the lexemes stand for, in order. -/
theorem lex_eq_tokens_of_cuts (s : String) :
    ∃ pieces last, Cuts s.toList pieces last ∧
      (∀ pieces' last', Cuts s.toList pieces' last' → pieces' = pieces ∧ last' = last) ∧
      (pieces.flatMap fun piece => piece.gap ++ piece.text) ++ last = s.toList ∧
      lex s = pieces.map Piece.token := by
  obtain ⟨pieces, last, h⟩ := exists_cuts s.toList
  refine ⟨pieces, last, h, ?_, h.append_eq, ?_⟩
  · intro pieces' last' h'
    exact h'.unique h rfl
  · rw [lex_eq_scan, h.scan_eq]

/-- A point ends a word, a mark of a comment ends a numeral, and the word behind the comment begins on a line
of its own. -/
theorem lex_eq_tokens_of_cuts_glued :
    Cuts "a1.#b\rdef".toList
        [⟨[], ['a', '1'], .ident "a1"⟩, ⟨[], ['.'], .number (Decimal.ofNumeral ['.']).nearest⟩,
          ⟨['#', 'b', '\r'], ['d', 'e', 'f'], .definition⟩] [] ∧
      lex "a1.#b\rdef" = [.ident "a1", .number (Decimal.ofNumeral ['.']).nearest, .definition] := by
  have hword : Lexeme ['a', '1'] (.ident "a1") ['.', '#', 'b', '\r', 'd', 'e', 'f'] :=
    lexeme_of_word (longest_word (by decide) ['1', '.', '#', 'b', '\r', 'd', 'e', 'f'])
  have hpoint : Lexeme ['.'] (.number (Decimal.ofNumeral ['.']).nearest) ['#', 'b', '\r', 'd', 'e', 'f'] :=
    .number (longest_numeral (by decide) ['#', 'b', '\r', 'd', 'e', 'f'])
  have hdef : Lexeme ['d', 'e', 'f'] .definition [] := lexeme_of_word (longest_word (by decide) ['e', 'f'])
  have hgap : IsGap ['#', 'b', '\r'] ['d', 'e', 'f'] := by
    have hbody : ∀ c ∈ ['b'], isLineEnd c = false := by simp [isLineEnd]
    exact .comment hbody (by simp [isLineEnd]) (.blank (by decide) .nil)
  have hcuts : Cuts "a1.#b\rdef".toList _ [] :=
    .piece (IsGap.nil.longest hword.takes.head?) hword
      (.piece (IsGap.nil.longest hpoint.takes.head?) hpoint
        (.piece (hgap.longest hdef.takes.head?) hdef (.last (IsGap.nil.longest (by simp)))))
  obtain ⟨pieces, last, _, hunique, _, hlex⟩ := lex_eq_tokens_of_cuts "a1.#b\rdef"
  obtain ⟨rfl, rfl⟩ := hunique _ _ hcuts
  exact ⟨hcuts, hlex⟩

/-- White space that begins with the end of a line. -/
def BreaksLine (w : List Char) : Prop :=
  (∀ c ∈ w, isBlank c = true) ∧ ∃ c ∈ w.head?, isLineEnd c = true

/-- The texts have the same characters but for the way in which lines are broken. -/
inductive SameLines : List Char → List Char → Prop
  | nil : SameLines [] []
  | char {c : Char} {as bs : List Char} (h : SameLines as bs) : SameLines (c :: as) (c :: bs)
  | lineBreak {u v as bs : List Char} (hu : BreaksLine u) (hv : BreaksLine v) (h : SameLines as bs) :
      SameLines (u ++ as) (v ++ bs)

/-- White space is a gap. -/
theorem isGap_of_blank {gap rest : List Char} (h : ∀ c ∈ gap, isBlank c = true) : IsGap gap rest := by
  induction gap with
  | nil => exact .nil
  | cons c gap ih =>
      obtain ⟨hc, hgap⟩ := List.forall_mem_cons.mp h
      exact .blank hc (ih hgap)

/-- A broken line ends all words, numerals and comments in front of it, and begins nothing. -/
theorem scan_append_breaksLine {w : List Char} (hw : BreaksLine w) (as bs : List Char) :
    scan (as ++ (w ++ bs)) = scan as ++ scan bs := by
  obtain ⟨hblank, c, hc, hend⟩ := hw
  obtain ⟨cs, rfl⟩ := List.head?_eq_some_iff.mp hc
  have hgap : IsGap cs bs := isGap_of_blank fun d hd => hblank d (List.mem_cons_of_mem c hd)
  rw [List.cons_append, scan_append_lineEnd hend, hgap.scan_append]

/-- Texts with the same lines have the same tokens, behind whatever they stand. -/
theorem SameLines.scan_append {as bs : List Char} (h : SameLines as bs) (front : List Char) :
    scan (front ++ as) = scan (front ++ bs) := by
  induction h generalizing front with
  | nil => rfl
  | @char c as bs _ ih =>
      have hcons := ih (front ++ [c])
      rwa [List.append_assoc, List.append_assoc] at hcons
  | @lineBreak u v as bs hu hv _ ih =>
      have hscan : scan as = scan bs := ih []
      rw [scan_append_breaksLine hu, scan_append_breaksLine hv, hscan]

/-- The tokens of two texts with a broken line between them are those of the one and then those of the
other. So it does not matter for the tokens how the lines of a text are broken. -/
theorem lex_append_breaksLine :
    (∀ a w b : String, BreaksLine w.toList → lex (a ++ w ++ b) = lex a ++ lex b) ∧
      ∀ s t : String, SameLines s.toList t.toList → lex s = lex t := by
  constructor
  · intro a w b hw
    have hscan := scan_append_breaksLine hw a.toList b.toList
    rwa [← List.append_assoc, ← String.toList_append, ← String.toList_append, ← lex_eq_scan,
      ← lex_eq_scan, ← lex_eq_scan] at hscan
  · intro s t hst
    have hscan := hst.scan_append []
    rwa [List.nil_append, List.nil_append, ← lex_eq_scan, ← lex_eq_scan] at hscan

/-- A broken line ends the comment that is open in front of it, and lines broken in three ways are broken
alike. -/
theorem lex_append_breaksLine_comment :
    BreaksLine "\r \n".toList ∧ lex ("x#y" ++ "\r \n" ++ "z") = lex "x#y" ++ lex "z" ∧
      SameLines "a\r\nb\rc".toList "a\nb\r\nc".toList ∧ lex "a\r\nb\rc" = lex "a\nb\r\nc" := by
  obtain ⟨happend, hsame⟩ := lex_append_breaksLine
  have hbreak : BreaksLine ['\r', ' ', '\n'] := ⟨by simp [isBlank], '\r', rfl, by decide⟩
  have hlines : SameLines "a\r\nb\rc".toList "a\nb\r\nc".toList := by
    have hcrlf : BreaksLine ['\r', '\n'] := ⟨by simp [isBlank], '\r', rfl, by decide⟩
    have hcr : BreaksLine ['\r'] := ⟨by simp [isBlank], '\r', rfl, by decide⟩
    have hlf : BreaksLine ['\n'] := ⟨by simp [isBlank], '\n', rfl, by decide⟩
    exact .char (.lineBreak hcrlf hlf (.char (.lineBreak hcr hcrlf (.char .nil))))
  exact ⟨hbreak, happend "x#y" "\r \n" "z" hbreak, hlines, hsame _ _ hlines⟩

end ExprLang
