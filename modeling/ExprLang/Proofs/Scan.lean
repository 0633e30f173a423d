import Mathlib.Data.List.TakeWhile
import ExprLang.Token.Lexer

/-!
# Scanning as a function of characters

`spans` computes the tokens of a list of characters without a lexer's state, each with the characters
behind its text, and `scan` keeps the tokens alone. The main statement is `items_eq_scan`: whatever its
source, a lexer answers the scan of the characters that are pending. From then on lexing is reasoned about
on lists, by `spans_induction`.

`Spells` relates a token to the characters that may stand for it. Every token that comes out of a scan
has a spelling, and spellings with a blank behind each one scan to their tokens, so every list of tokens
that have spellings is the list of tokens of some text.
-/

namespace ExprLang

/-- A letter is no blank and no comment mark. -/
theorem not_blank_of_isAlpha {c : Char} (h : c.isAlpha = true) : isBlank c = false ∧ c ≠ '#' := by
  constructor
  · rw [Bool.eq_false_iff]
    intro hblank
    simp only [isBlank, Bool.or_eq_true, decide_eq_true_eq] at hblank
    rcases hblank with ((((rfl | rfl) | rfl) | rfl) | rfl) | rfl <;> simp at h
  · rintro rfl
    simp at h

/-- A digit is no letter. -/
theorem isAlpha_of_isDigit {c : Char} (h : c.isDigit = true) : c.isAlpha = false := by
  rw [Bool.eq_false_iff]
  intro halpha
  delta Char.isAlpha Char.isUpper Char.isLower at halpha
  simp only [Char.isDigit, Bool.or_eq_true, Bool.and_eq_true, decide_eq_true_eq, ge_iff_le,
    UInt32.le_iff_toNat_le] at h halpha
  have h9 : '9'.val.toNat = 57 := rfl
  have hA : 'A'.val.toNat = 65 := rfl
  have ha : 'a'.val.toNat = 97 := rfl
  omega

/-- A character of a numeral is no blank, no comment mark and no letter. -/
theorem not_blank_of_isNumeric {c : Char} (h : isNumeric c = true) :
    isBlank c = false ∧ c ≠ '#' ∧ c.isAlpha = false := by
  simp only [isNumeric, Bool.or_eq_true, decide_eq_true_eq] at h
  rcases h with hdigit | rfl
  · refine ⟨?_, ?_, isAlpha_of_isDigit hdigit⟩
    · rw [Bool.eq_false_iff]
      intro hblank
      simp only [isBlank, Bool.or_eq_true, decide_eq_true_eq] at hblank
      rcases hblank with ((((rfl | rfl) | rfl) | rfl) | rfl) | rfl <;> simp at hdigit
    · rintro rfl
      simp at hdigit
  · decide

/-- The tokens of a list of characters, each with the characters behind its text. -/
def spans : List Char → List (Token × List Char)
  | [] => []
  | c :: cs =>
      if isBlank c then spans cs
      else if c = '#' then spans (cs.dropWhile (!isLineEnd ·))
      else if c.isAlpha then
        (.ofWord (String.ofList (c :: cs.takeWhile Char.isAlphanum)), cs.dropWhile Char.isAlphanum) ::
          spans (cs.dropWhile Char.isAlphanum)
      else if isNumeric c then
        (.ofNumeral (c :: cs.takeWhile isNumeric), cs.dropWhile isNumeric) ::
          spans (cs.dropWhile isNumeric)
      else (.symbol c, cs) :: spans cs
termination_by cs => cs.length
decreasing_by
  all_goals
    have hdrop (p : Char → Bool) := List.length_dropWhile_le p cs
    simp only [List.length_cons, Nat.lt_succ_iff, Nat.le_refl, hdrop]

/-- Characters that are tokens by themselves. -/
def IsSymbol (c : Char) : Prop :=
  isBlank c = false ∧ c ≠ '#' ∧ c.isAlpha = false ∧ isNumeric c = false

instance (c : Char) : Decidable (IsSymbol c) := inferInstanceAs (Decidable (_ ∧ _ ∧ _ ∧ _))

/-- The first token of characters that begin with one, and the characters behind its text. -/
inductive Takes : List Char → Token → List Char → Prop
  | word {c : Char} {cs : List Char} (hc : c.isAlpha = true) :
      Takes (c :: cs) (.ofWord (String.ofList (c :: cs.takeWhile Char.isAlphanum)))
        (cs.dropWhile Char.isAlphanum)
  | numeral {c : Char} {cs : List Char} (hc : isNumeric c = true) :
      Takes (c :: cs) (.ofNumeral (c :: cs.takeWhile isNumeric)) (cs.dropWhile isNumeric)
  | symbol {c : Char} {cs : List Char} (hc : IsSymbol c) : Takes (c :: cs) (.symbol c) cs

@[simp] theorem spans_nil : spans [] = [] := by rw [spans]

/-- Blanks are skipped. -/
theorem spans_blank {c : Char} {cs : List Char} (hc : isBlank c = true) :
    spans (c :: cs) = spans cs := by
  rw [spans, if_pos hc]

/-- A comment is skipped up to the end of its line. -/
theorem spans_comment (cs : List Char) : spans ('#' :: cs) = spans (cs.dropWhile (!isLineEnd ·)) := by
  rw [spans]
  simp [isBlank]

/-- The token that is taken comes first. -/
theorem Takes.spans {cs rest : List Char} {k : Token} (h : Takes cs k rest) :
    spans cs = (k, rest) :: spans rest := by
  cases h with
  | @word c cs hc =>
      obtain ⟨hblank, hmark⟩ := not_blank_of_isAlpha hc
      rw [ExprLang.spans]
      simp [hblank, hmark, hc]
  | @numeral c cs hc =>
      obtain ⟨hblank, hmark, halpha⟩ := not_blank_of_isNumeric hc
      rw [ExprLang.spans]
      simp [hblank, hmark, halpha, hc]
  | @symbol c cs hc =>
      obtain ⟨hblank, hmark, halpha, hnumeric⟩ := hc
      rw [ExprLang.spans]
      simp [hblank, hmark, halpha, hnumeric]

/-- A text is empty or goes on behind a blank, a comment or a token. -/
@[elab_as_elim]
theorem spans_induction {motive : List Char → Prop} (cs : List Char) (nil : motive [])
    (blank : ∀ c cs, isBlank c = true → motive cs → motive (c :: cs))
    (comment : ∀ cs, motive (cs.dropWhile (!isLineEnd ·)) → motive ('#' :: cs))
    (token : ∀ cs k rest, Takes cs k rest → motive rest → motive cs) : motive cs := by
  fun_induction spans cs with
  | case1 => exact nil
  | case2 c cs hblank ih => exact blank c cs hblank ih
  | case3 cs _ ih => exact comment cs ih
  | case4 c cs _ _ halpha ih => exact token _ _ _ (.word halpha) ih
  | case5 c cs _ _ _ hnumeric ih => exact token _ _ _ (.numeral hnumeric) ih
  | case6 c cs hblank hmark halpha hnumeric ih =>
      simp only [Bool.not_eq_true] at hblank halpha hnumeric
      exact token _ _ _ (.symbol ⟨hblank, hmark, halpha, hnumeric⟩) ih

/-- The tokens of a list of characters. -/
def scan (cs : List Char) : List Token := (spans cs).map Prod.fst

@[simp] theorem scan_nil : scan [] = [] := by rw [scan, spans_nil, List.map_nil]

/-- Blanks are no tokens. -/
theorem scan_blank {c : Char} {cs : List Char} (hc : isBlank c = true) : scan (c :: cs) = scan cs := by
  rw [scan, spans_blank hc, scan]

/-- A comment is no token. -/
theorem scan_comment (cs : List Char) : scan ('#' :: cs) = scan (cs.dropWhile (!isLineEnd ·)) := by
  rw [scan, spans_comment, scan]

/-- The token that is taken is scanned first. -/
theorem Takes.scan {cs rest : List Char} {k : Token} (h : Takes cs k rest) :
    scan cs = k :: scan rest := by
  rw [ExprLang.scan, h.spans, List.map_cons, ExprLang.scan]

/-- A letter begins a word. -/
theorem scan_word {c : Char} {cs : List Char} (hc : c.isAlpha = true) :
    scan (c :: cs) =
      .ofWord (String.ofList (c :: cs.takeWhile Char.isAlphanum)) :: scan (cs.dropWhile Char.isAlphanum) :=
  (Takes.word hc).scan

/-- A digit or a point begins a numeral. -/
theorem scan_numeral {c : Char} {cs : List Char} (hc : isNumeric c = true) :
    scan (c :: cs) = .ofNumeral (c :: cs.takeWhile isNumeric) :: scan (cs.dropWhile isNumeric) :=
  (Takes.numeral hc).scan

/-- Any other character is a token by itself. -/
theorem scan_symbol {c : Char} {cs : List Char} (hc : IsSymbol c) :
    scan (c :: cs) = .symbol c :: scan cs :=
  (Takes.symbol hc).scan

/-- A word is no symbol. -/
theorem Token.ofWord_ne_symbol (word : String) (c : Char) : Token.ofWord word ≠ .symbol c := by
  unfold ofWord
  split
  · simp
  · split <;> simp

namespace Lexer

variable {σ : Type} [Source σ Char]

/-- What neither a blank nor a comment in front changes is not changed by skipping them. -/
theorem apply_pending_skipBlanks {β : Type} {f : List Char → β}
    (hblank : ∀ c cs, isBlank c = true → f (c :: cs) = f cs)
    (hcomment : ∀ cs, f ('#' :: cs) = f (cs.dropWhile (!isLineEnd ·))) (l : Lexer σ) :
    f l.skipBlanks.pending = f l.pending := by
  have hblanks (cs : List Char) : f (cs.dropWhile isBlank) = f cs := by
    induction cs with
    | nil => rfl
    | cons c cs ih =>
        by_cases hc : isBlank c = true
        · rw [List.dropWhile_cons_of_pos hc, ih, hblank c cs hc]
        · rw [List.dropWhile_cons_of_neg hc]
  fun_induction skipBlanks l with
  | case1 l r hr h =>
      obtain ⟨hpending, hslot⟩ := of_peek_none (congrArg Subtype.val h)
      rw [pending_takeWhile_snd] at hpending
      have hend : r.pending = [] := by simp only [pending, hslot]
      rw [hend, ← hblanks l.pending, hpending]
  | case2 l r hr h hlt ih =>
      obtain ⟨hpending, _⟩ := of_peek_some (congrArg Subtype.val h)
      rw [pending_takeWhile_snd] at hpending
      rw [ih, ← hblanks l.pending, hpending, hcomment, pending_takeWhile_snd]
  | case3 l c r hr h hlt hc =>
      obtain ⟨_, hkept⟩ := of_peek_some (congrArg Subtype.val h)
      rw [hkept, pending_takeWhile_snd, hblanks]

/-- Skipping stops in front of a token, or at the end. -/
theorem head?_pending_skipBlanks (l : Lexer σ) :
    ∀ c ∈ l.skipBlanks.pending.head?, isBlank c = false ∧ c ≠ '#' := by
  fun_induction skipBlanks l with
  | case1 l r hr h =>
      obtain ⟨_, hslot⟩ := of_peek_none (congrArg Subtype.val h)
      simp [pending, hslot]
  | case2 l r hr h hlt ih => exact ih
  | case3 l c r hr h hlt hc =>
      obtain ⟨hpending, hkept⟩ := of_peek_some (congrArg Subtype.val h)
      rw [pending_takeWhile_snd] at hpending hkept
      have hblank := List.head?_dropWhile_not isBlank l.pending
      rw [hkept]
      rw [hpending, List.head?_cons] at hblank ⊢
      rintro d ⟨⟩
      exact ⟨hblank, hc⟩

/-- A lexer that takes no token has skipped all that was pending. -/
theorem pending_of_next_none {l r : Lexer σ} (h : l.next = (none, r)) :
    l.skipBlanks.pending = [] := by
  unfold next at h
  split at h
  next seen hpeek => exact (of_peek_none hpeek).1
  next =>
    split at h
    next => simp at h
    next => split at h <;> simp at h

/-- Looking at an answer leaves it in the slot. -/
theorem slot_peek_ne_empty (l : Lexer σ) : l.peek.2.slot ≠ .empty := by
  unfold peek
  split
  next c hslot => simp [hslot]
  next hslot => simp [hslot]
  next => split <;> simp

/-- The answer that ends a run is in the slot. -/
theorem slot_takeWhile_ne_empty (p : Char → Bool) (l : Lexer σ) : (l.takeWhile p).2.slot ≠ .empty := by
  fun_induction takeWhile p l with
  | case1 l r hr h =>
      have hslot := l.slot_peek_ne_empty
      rwa [show l.peek = (none, r) from congrArg Subtype.val h] at hslot
  | case2 l c r hr h hlt hp cs rest hrec ih => rwa [hrec] at ih
  | case3 l c r hr h hlt hp =>
      have hslot := l.slot_peek_ne_empty
      rwa [show l.peek = (some c, r) from congrArg Subtype.val h] at hslot

/-- Taking the character in the slot asks the source for nothing and leaves the slot empty. -/
theorem drop_of_char {l : Lexer σ} {c : Char} (h : l.slot = .char c) :
    l.drop.source = l.source ∧ l.drop.slot = .empty := by
  unfold drop
  split
  next => exact ⟨rfl, rfl⟩
  next hne => exact absurd h (hne c)

/-- Taking a character that was seen leaves the slot empty. -/
theorem slot_drop_of_peek_some {l r : Lexer σ} {c : Char} (h : l.peek = (some c, r)) :
    r.drop.slot = .empty := by
  have hslot := l.slot_peek_ne_empty
  rw [h] at hslot
  cases hr : r.slot with
  | empty => exact absurd hr hslot
  | char d => exact (drop_of_char hr).2
  | ended =>
      obtain ⟨hpending, hkept⟩ := of_peek_some h
      have hend : r.pending = [] := by simp only [pending, hr]
      simp [hend, hpending] at hkept

/-- A lexer takes the first token behind what it skips. A symbol leaves the slot empty, and every other
token leaves the answer in it that ends the token. -/
theorem takes_of_next_some {l r : Lexer σ} {k : Token} (h : l.next = (some k, r)) :
    Takes l.skipBlanks.pending k r.pending ∧ (r.slot = .empty ↔ ∃ c, k = .symbol c) := by
  have hstart := l.head?_pending_skipBlanks
  unfold next at h
  split at h
  next => simp at h
  next c seen hpeek =>
    obtain ⟨hpending, hkept⟩ := of_peek_some hpeek
    obtain ⟨hblank, hmark⟩ := hstart c (by rw [hpending, List.head?_cons, Option.mem_def])
    rw [hpending] at hkept ⊢
    split at h
    next halpha =>
      have halphanum : c.isAlphanum = true := by simp [Char.isAlphanum, halpha]
      rw [Prod.mk.injEq, Option.some.injEq] at h
      obtain ⟨rfl, rfl⟩ := h
      constructor
      · rw [takeWhile_fst, pending_takeWhile_snd, hkept, List.takeWhile_cons_of_pos halphanum,
          List.dropWhile_cons_of_pos halphanum]
        exact .word halpha
      · simp [slot_takeWhile_ne_empty, Token.ofWord_ne_symbol]
    next halpha =>
      split at h
      next hnumeric =>
        rw [Prod.mk.injEq, Option.some.injEq] at h
        obtain ⟨rfl, rfl⟩ := h
        constructor
        · rw [takeWhile_fst, pending_takeWhile_snd, hkept, List.takeWhile_cons_of_pos hnumeric,
            List.dropWhile_cons_of_pos hnumeric]
          exact .numeral hnumeric
        · simp [slot_takeWhile_ne_empty, Token.ofNumeral]
      next hnumeric =>
        rw [Prod.mk.injEq, Option.some.injEq] at h
        obtain ⟨rfl, rfl⟩ := h
        constructor
        · exact .symbol ⟨hblank, hmark, Bool.eq_false_iff.mpr halpha, Bool.eq_false_iff.mpr hnumeric⟩
        · simp [slot_drop_of_peek_some hpeek]

/-- Skipping keeps the tokens and the characters behind each. -/
theorem spans_pending_skipBlanks (l : Lexer σ) : spans l.skipBlanks.pending = spans l.pending :=
  apply_pending_skipBlanks (fun _ _ hc => spans_blank hc) spans_comment l

/-- Skipping keeps the tokens. -/
theorem scan_pending_skipBlanks (l : Lexer σ) : scan l.skipBlanks.pending = scan l.pending := by
  rw [scan, spans_pending_skipBlanks, scan]

/-- A lexer at its end has nothing left to scan. -/
theorem scan_of_next_none {l r : Lexer σ} (h : l.next = (none, r)) : scan l.pending = [] := by
  rw [← scan_pending_skipBlanks, pending_of_next_none h, scan_nil]

/-- A lexer answers the first token of what is pending and leaves the others. -/
theorem scan_of_next_some {l r : Lexer σ} {k : Token} (h : l.next = (some k, r)) :
    scan l.pending = k :: scan r.pending := by
  rw [← scan_pending_skipBlanks, (takes_of_next_some h).1.scan]

/-- A lexer answers the tokens of the characters that are pending, whatever its source. -/
theorem items_eq_scan (l : Lexer σ) : Source.items l = scan l.pending := by
  induction hsize : l.pending.length using Nat.strongRecOn generalizing l with
  | ind size ih =>
      match h : l.next with
      | (none, r) => rw [Source.items_of_next_none h, scan_of_next_none h]
      | (some k, r) =>
          rw [Source.items_of_next_some (ends_next l) h, scan_of_next_some h,
            ih _ (hsize ▸ length_pending_lt_of_next_some h) r rfl]

end Lexer

/-- The tokens of a text are those of its characters. -/
theorem lex_eq_scan (s : String) : lex s = scan s.toList := by
  rw [lex, TokenStream.collect_eq_items, Lexer.items_eq_scan]
  congr 1
  exact Source.items_eq (Text.yields s.toList 0)

/-- A run that ends within a list, or that cannot go on into what follows, ends at the same place when more
follows. -/
theorem span_append {p : Char → Bool} {as bs : List Char}
    (h : as.dropWhile p ≠ [] ∨ ∀ c ∈ bs.head?, p c = false) :
    (as ++ bs).takeWhile p = as.takeWhile p ∧ (as ++ bs).dropWhile p = as.dropWhile p ++ bs := by
  induction as with
  | nil =>
      cases bs with
      | nil => exact ⟨rfl, rfl⟩
      | cons b bs =>
          have hb : p b = false := h.resolve_left (by simp) b (by simp)
          simp [hb]
  | cons a as ih =>
      by_cases ha : p a = true
      · rw [List.dropWhile_cons_of_pos ha] at h
        simp [ha, ih h]
      · simp [ha]

/-- No word or numeral in front of the characters can go on into them. -/
def Detached (cs : List Char) : Prop := ∀ c ∈ cs.head?, c.isAlphanum = false ∧ c ≠ '.'

/-- Nothing goes on into the end. -/
theorem detached_nil : Detached [] := by
  intro c hc
  simp at hc

/-- Nothing goes on into a character that is in no word and no numeral. -/
theorem detached_cons {c : Char} {cs : List Char} (hc : c.isAlphanum = false ∧ c ≠ '.') :
    Detached (c :: cs) := by
  rintro d ⟨⟩
  exact hc

/-- A token is taken alike when more follows, unless it ends with the list and could go on into what
follows. -/
theorem Takes.append {cs rest r : List Char} {k : Token} (h : Takes cs k rest)
    (hends : rest ≠ [] ∨ Detached r ∨ ∃ c, k = .symbol c) : Takes (cs ++ r) k (rest ++ r) := by
  cases h with
  | @word c cs hc =>
      have hrun : cs.dropWhile Char.isAlphanum ≠ [] ∨ ∀ d ∈ r.head?, d.isAlphanum = false := by
        rcases hends with hne | hr | ⟨d, hd⟩
        · exact .inl hne
        · exact .inr fun d hd => (hr d hd).1
        · exact absurd hd (Token.ofWord_ne_symbol _ d)
      obtain ⟨htake, hdrop⟩ := span_append hrun
      rw [← htake, ← hdrop]
      exact .word hc
  | @numeral c cs hc =>
      have hrun : cs.dropWhile isNumeric ≠ [] ∨ ∀ d ∈ r.head?, isNumeric d = false := by
        rcases hends with hne | hr | ⟨d, hd⟩
        · exact .inl hne
        · refine .inr fun d hd => ?_
          have hdetached := hr d hd
          simp_all [isNumeric, Char.isAlphanum]
        · simp [Token.ofNumeral] at hd
      obtain ⟨htake, hdrop⟩ := span_append hrun
      rw [← htake, ← hdrop]
      exact .numeral hc
  | symbol hc => exact .symbol hc

/-- The end of a line ends all words, numerals and comments in front of it. -/
theorem scan_append_lineEnd {c : Char} (hc : isLineEnd c = true) (as bs : List Char) :
    scan (as ++ c :: bs) = scan as ++ scan bs := by
  have hchar : (c.isAlphanum = false ∧ c ≠ '.') ∧ isBlank c = true := by
    simp only [isLineEnd, Bool.or_eq_true, decide_eq_true_eq] at hc
    rcases hc with rfl | rfl <;> decide
  obtain ⟨hdetached, hblank⟩ := hchar
  induction as using spans_induction with
  | nil => rw [List.nil_append, scan_blank hblank, scan_nil, List.nil_append]
  | blank a as ha ih => rw [List.cons_append, scan_blank ha, ih, scan_blank ha]
  | comment as ih =>
      have hend : ∀ d ∈ (c :: bs).head?, (!isLineEnd d) = false := by simp [hc]
      rw [List.cons_append, scan_comment, (span_append (.inr hend)).2, ih, scan_comment]
  | token as k rest h ih =>
      rw [(h.append (.inr (.inl (detached_cons hdetached)))).scan, ih, h.scan, List.cons_append]

/-- The characters are one spelling of the token. -/
inductive Spells : List Char → Token → Prop
  | word {c : Char} {cs : List Char} (hc : c.isAlpha = true) (hcs : ∀ d ∈ cs, d.isAlphanum = true) :
      Spells (c :: cs) (.ofWord (String.ofList (c :: cs)))
  | numeral {c : Char} {cs : List Char} (hc : isNumeric c = true)
      (hcs : ∀ d ∈ cs, isNumeric d = true) : Spells (c :: cs) (.ofNumeral (c :: cs))
  | symbol {c : Char} (hc : IsSymbol c) : Spells [c] (.symbol c)

/-- Of a spelling alone the whole is taken. -/
theorem Spells.takes {w : List Char} {k : Token} (h : Spells w k) : Takes w k [] := by
  cases h with
  | @word c cs hc hcs =>
      have htakes : Takes (c :: cs) _ _ := .word hc
      rwa [List.takeWhile_eq_self_iff.mpr hcs, List.dropWhile_eq_nil_iff.mpr hcs] at htakes
  | @numeral c cs hc hcs =>
      have htakes : Takes (c :: cs) _ _ := .numeral hc
      rwa [List.takeWhile_eq_self_iff.mpr hcs, List.dropWhile_eq_nil_iff.mpr hcs] at htakes
  | symbol hc => exact .symbol hc

/-- A spelling that cannot go on scans to its token. -/
theorem scan_append {cs rest : List Char} {k : Token} (h : Spells cs k) (hrest : Detached rest) :
    scan (cs ++ rest) = k :: scan rest :=
  (h.takes.append (.inr (.inl hrest))).scan

/-- A spelling alone is its token. -/
theorem lex_of_spells {cs : List Char} {k : Token} (h : Spells cs k) : lex (String.ofList cs) = [k] := by
  have hscan := scan_append h detached_nil
  rwa [List.append_nil, scan_nil, ← String.toList_ofList (l := cs), ← lex_eq_scan] at hscan

/-- What is taken is a spelling of the token. -/
theorem Takes.spells {cs rest : List Char} {k : Token} (h : Takes cs k rest) :
    ∃ w, cs = w ++ rest ∧ Spells w k := by
  cases h with
  | @word c cs hc =>
      refine ⟨c :: cs.takeWhile Char.isAlphanum, ?_, .word hc fun d hd => List.mem_takeWhile_imp hd⟩
      rw [List.cons_append, List.takeWhile_append_dropWhile]
  | @numeral c cs hc =>
      refine ⟨c :: cs.takeWhile isNumeric, ?_, .numeral hc fun d hd => List.mem_takeWhile_imp hd⟩
      rw [List.cons_append, List.takeWhile_append_dropWhile]
  | @symbol c cs hc => exact ⟨[c], rfl, .symbol hc⟩

/-- Each token is spelled by characters in front of those that are behind its text. -/
theorem exists_spells_of_mem_spans {cs rest : List Char} {k : Token} (h : (k, rest) ∈ spans cs) :
    ∃ before w, cs = before ++ (w ++ rest) ∧ Spells w k := by
  induction cs using spans_induction with
  | nil => simp at h
  | blank c cs hblank ih =>
      rw [spans_blank hblank] at h
      obtain ⟨before, w, rfl, hw⟩ := ih h
      exact ⟨c :: before, w, rfl, hw⟩
  | comment cs ih =>
      rw [spans_comment] at h
      obtain ⟨before, w, hcs, hw⟩ := ih h
      refine ⟨'#' :: (cs.takeWhile (!isLineEnd ·) ++ before), w, ?_, hw⟩
      rw [List.cons_append, List.append_assoc, ← hcs, List.takeWhile_append_dropWhile]
  | token cs j behind htakes ih =>
      rw [htakes.spans] at h
      obtain ⟨text, rfl, htext⟩ := htakes.spells
      rcases List.mem_cons.mp h with heq | h
      · cases heq
        exact ⟨[], text, rfl, htext⟩
      · obtain ⟨before, w, rfl, hw⟩ := ih h
        exact ⟨text ++ before, w, (List.append_assoc ..).symm, hw⟩

/-- Every scanned token has a spelling. -/
theorem exists_spells {cs : List Char} {k : Token} (h : k ∈ scan cs) : ∃ w, Spells w k := by
  obtain ⟨⟨_, rest⟩, hspan, rfl⟩ := List.mem_map.mp h
  obtain ⟨_, w, _, hw⟩ := exists_spells_of_mem_spans hspan
  exact ⟨w, hw⟩

/-- Tokens that have spellings are the tokens of a text. -/
theorem exists_lex_eq {ks : List Token} (h : ∀ k ∈ ks, ∃ w, Spells w k) : ∃ s, lex s = ks := by
  induction ks with
  | nil => exact ⟨"", by rw [lex_eq_scan, String.toList_empty, scan_nil]⟩
  | cons k ks ih =>
      obtain ⟨w, hw⟩ := h k List.mem_cons_self
      obtain ⟨s, hs⟩ := ih fun j hj => h j (List.mem_cons_of_mem _ hj)
      rw [lex_eq_scan] at hs
      refine ⟨String.ofList (w ++ ' ' :: s.toList), ?_⟩
      have hdetached : Detached (' ' :: s.toList) := detached_cons (by decide)
      rw [lex_eq_scan, String.toList_ofList, scan_append hw hdetached, scan_blank rfl, hs]

end ExprLang
