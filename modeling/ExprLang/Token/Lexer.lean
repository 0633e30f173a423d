import ExprLang.Source.Lines
import ExprLang.Token.Stream

/-!
# Lexer

A lexer takes characters from a source one at a time, looks at most one character ahead, and keeps
in a slot the answer that it has looked at. Once that answer is an end the slot keeps it for good and
the source is never asked again, even if it would resume. `pending` is what the lexer has still to
read; every operation is a list operation on it.
-/

namespace ExprLang

/-- The answer that a lexer has looked at and not taken: none yet, a character, or the end. -/
inductive Slot
  | empty
  | char (c : Char)
  | ended

/-- A source of characters with one answer of lookahead. Until the end is seen, the source still has
one to give. -/
structure Lexer (σ : Type) [Source σ Char] where
  source : σ
  slot : Slot
  ends : slot = .ended ∨ Source.Ends source

namespace Lexer

variable {σ : Type} [Source σ Char]

/-- A lexer that has asked for nothing. -/
def ofSource (s : σ) (h : Source.Ends s) : Lexer σ := ⟨s, .empty, .inr h⟩

/-- The characters to be read before the end. -/
noncomputable def pending (l : Lexer σ) : List Char :=
  match l.slot with
  | .empty => Source.items l.source
  | .char c => c :: Source.items l.source
  | .ended => []

/-- Looks at the next answer without taking it. -/
def peek (l : Lexer σ) : Option Char × Lexer σ :=
  match hslot : l.slot with
  | .char c => (some c, l)
  | .ended => (none, l)
  | .empty =>
      match Source.nextOfEnds l.source (l.ends.resolve_left (by simp [hslot])) with
      | ⟨(some c, s), h⟩ => (some c, ⟨s, .char c, .inr (h c rfl)⟩)
      | ⟨(none, s), _⟩ => (none, ⟨s, .ended, .inl rfl⟩)

/-- Takes the character in the slot. -/
def drop (l : Lexer σ) : Lexer σ :=
  match hslot : l.slot with
  | .char _ => ⟨l.source, .empty, .inr (l.ends.resolve_left (by simp [hslot]))⟩
  | _ => l

/-- Seeing the end means that nothing is left, and the slot keeps it. -/
theorem of_peek_none {l r : Lexer σ} (h : l.peek = (none, r)) :
    l.pending = [] ∧ r.slot = .ended := by
  unfold peek at h
  split at h
  next c hslot => simp at h
  next hslot =>
    rw [Prod.mk.injEq] at h
    exact ⟨by simp only [pending, hslot], h.2 ▸ hslot⟩
  next hslot =>
    split at h
    next c s hs hnext => simp at h
    next s hs hnext =>
      rw [Prod.mk.injEq] at h
      have hitems := Source.items_of_next_none (congrArg Subtype.val hnext)
      exact ⟨by simp only [pending, hslot, hitems], h.2 ▸ rfl⟩

/-- Seeing a character leaves it in front of what is left after taking it. -/
theorem of_peek_some {l r : Lexer σ} {c : Char} (h : l.peek = (some c, r)) :
    l.pending = c :: r.drop.pending ∧ r.pending = l.pending := by
  unfold peek at h
  split at h
  next d hslot =>
    rw [Prod.mk.injEq, Option.some.injEq] at h
    obtain ⟨rfl, rfl⟩ := h
    refine ⟨?_, rfl⟩
    unfold drop
    split
    next e he =>
      rw [he] at hslot
      cases hslot
      simp only [pending, he]
    next hne => exact absurd hslot (hne d)
  next hslot => simp at h
  next hslot =>
    split at h
    next d s hs hnext =>
      rw [Prod.mk.injEq, Option.some.injEq] at h
      obtain ⟨rfl, rfl⟩ := h
      have hitems := Source.items_of_next_some (l.ends.resolve_left (by simp [hslot]))
        (congrArg Subtype.val hnext)
      exact ⟨by simp only [pending, hslot, hitems, drop], by simp only [pending, hslot, hitems]⟩
    next s hs hnext => simp at h

/-- Taking a character that was seen leaves fewer. -/
theorem length_pending_drop_lt {l r : Lexer σ} {c : Char} (h : l.peek = (some c, r)) :
    r.drop.pending.length < l.pending.length := by
  simp [(of_peek_some h).1]

/-- Looks at the next answer, with fewer characters left once a character is taken. -/
def peekWithin (l : Lexer σ) :
    { r : Option Char × Lexer σ //
      ∀ c, r.1 = some c → r.2.drop.pending.length < l.pending.length } :=
  ⟨l.peek, fun _ hc => length_pending_drop_lt (Prod.ext hc rfl)⟩

/-- Takes characters as long as they pass the test. -/
def takeWhile (p : Char → Bool) (l : Lexer σ) : List Char × Lexer σ :=
  match l.peekWithin with
  | ⟨(none, r), _⟩ => ([], r)
  | ⟨(some c, r), h⟩ =>
      have : r.drop.pending.length < l.pending.length := h c rfl
      if p c then
        let (cs, rest) := takeWhile p r.drop
        (c :: cs, rest)
      else ([], r)
termination_by l.pending.length

/-- The first character decides whether there is more to take. -/
theorem takeWhile_eq (p : Char → Bool) (l : Lexer σ) :
    l.takeWhile p =
      match l.peek with
      | (none, r) => ([], r)
      | (some c, r) =>
          if p c then (c :: (r.drop.takeWhile p).1, (r.drop.takeWhile p).2) else ([], r) := by
  rw [takeWhile]
  split
  next r hr h =>
    have hpeek : l.peek = (none, r) := congrArg Subtype.val h
    rw [hpeek]
  next c r hr h =>
    have hpeek : l.peek = (some c, r) := congrArg Subtype.val h
    rw [hpeek]

/-- The characters taken are those in front that pass the test. -/
theorem takeWhile_fst (p : Char → Bool) (l : Lexer σ) :
    (l.takeWhile p).1 = l.pending.takeWhile p := by
  fun_induction takeWhile p l with
  | case1 l r hr h =>
      rw [(of_peek_none (congrArg Subtype.val h)).1, List.takeWhile_nil]
  | case2 l c r hr h hlt hp cs rest hrec ih =>
      rw [(of_peek_some (congrArg Subtype.val h)).1, List.takeWhile_cons_of_pos hp, ← ih, hrec]
  | case3 l c r hr h hlt hp =>
      rw [(of_peek_some (congrArg Subtype.val h)).1, List.takeWhile_cons_of_neg hp]

/-- What is left after them starts with a character that fails the test. -/
theorem pending_takeWhile_snd (p : Char → Bool) (l : Lexer σ) :
    (l.takeWhile p).2.pending = l.pending.dropWhile p := by
  fun_induction takeWhile p l with
  | case1 l r hr h =>
      obtain ⟨hpending, hslot⟩ := of_peek_none (congrArg Subtype.val h)
      rw [hpending, List.dropWhile_nil]
      simp only [pending, hslot]
  | case2 l c r hr h hlt hp cs rest hrec ih =>
      rw [(of_peek_some (congrArg Subtype.val h)).1, List.dropWhile_cons_of_pos hp, ← ih, hrec]
  | case3 l c r hr h hlt hp =>
      obtain ⟨hpending, hkept⟩ := of_peek_some (congrArg Subtype.val h)
      rw [hkept, hpending, List.dropWhile_cons_of_neg hp]

/-- Taking characters leaves no more than there were. -/
theorem length_pending_takeWhile_le (p : Char → Bool) (l : Lexer σ) :
    (l.takeWhile p).2.pending.length ≤ l.pending.length := by
  rw [pending_takeWhile_snd]
  exact (List.dropWhile_suffix p).length_le

/-- Looks behind the characters that pass the test. -/
def peekPast (p : Char → Bool) (l : Lexer σ) :
    { r : Option Char × Lexer σ //
      ∀ c, r.1 = some c → r.2.drop.pending.length < l.pending.length } :=
  ⟨(l.takeWhile p).2.peek, fun _ hc =>
    Nat.lt_of_lt_of_le (length_pending_drop_lt (Prod.ext hc rfl)) (length_pending_takeWhile_le p l)⟩

/-- Goes to the next token: skips blanks, and comments from their mark to the end of the line. -/
def skipBlanks (l : Lexer σ) : Lexer σ :=
  match l.peekPast isBlank with
  | ⟨(none, r), _⟩ => r
  | ⟨(some c, r), h⟩ =>
      have : (r.drop.takeWhile (!isLineEnd ·)).2.pending.length < l.pending.length :=
        Nat.lt_of_le_of_lt (length_pending_takeWhile_le _ _) (h c rfl)
      if c = '#' then skipBlanks (r.drop.takeWhile (!isLineEnd ·)).2 else r
termination_by l.pending.length

/-- Takes the next token. A word or a numeral is as long as it can be. -/
def next (l : Lexer σ) : Option Token × Lexer σ :=
  match l.skipBlanks.peek with
  | (none, r) => (none, r)
  | (some c, r) =>
      if c.isAlpha then
        let (word, rest) := r.takeWhile Char.isAlphanum
        (some (Token.ofWord (String.ofList word)), rest)
      else if isNumeric c then
        let (numeral, rest) := r.takeWhile isNumeric
        (some (Token.ofNumeral numeral), rest)
      else (some (.symbol c), r.drop)

/-- A run of characters that starts with one that was seen is taken away. -/
theorem length_pending_takeWhile_lt {p : Char → Bool} {l r : Lexer σ} {c : Char}
    (h : l.peek = (some c, r)) (hp : p c = true) :
    (r.takeWhile p).2.pending.length < l.pending.length := by
  rw [pending_takeWhile_snd, (of_peek_some h).2, (of_peek_some h).1, List.dropWhile_cons_of_pos hp]
  exact Nat.lt_succ_of_le (List.dropWhile_suffix p).length_le

/-- Behind the blanks is the next token, or a comment with blanks behind it. -/
theorem skipBlanks_eq (l : Lexer σ) :
    l.skipBlanks =
      match (l.takeWhile isBlank).2.peek with
      | (none, r) => r
      | (some c, r) => if c = '#' then skipBlanks (r.drop.takeWhile (!isLineEnd ·)).2 else r := by
  rw [skipBlanks]
  split
  next r hr h =>
    have hpeek : (l.takeWhile isBlank).2.peek = (none, r) := congrArg Subtype.val h
    rw [hpeek]
  next c r hr h =>
    have hpeek : (l.takeWhile isBlank).2.peek = (some c, r) := congrArg Subtype.val h
    rw [hpeek]

/-- Skipping leaves no more than there was. -/
theorem length_pending_skipBlanks_le (l : Lexer σ) :
    l.skipBlanks.pending.length ≤ l.pending.length := by
  fun_induction skipBlanks l with
  | case1 l r hr h =>
      obtain ⟨_, hslot⟩ := of_peek_none (congrArg Subtype.val h)
      simp only [pending, hslot, List.length_nil, Nat.zero_le]
  | case2 l r hr h hlt ih => exact Nat.le_trans ih (Nat.le_of_lt hlt)
  | case3 l c r hr h hlt hc =>
      rw [(of_peek_some (congrArg Subtype.val h)).2]
      exact length_pending_takeWhile_le _ _

/-- Every token takes characters away. -/
theorem length_pending_lt_of_next_some {l r : Lexer σ} {k : Token} (h : l.next = (some k, r)) :
    r.pending.length < l.pending.length := by
  refine Nat.lt_of_lt_of_le ?_ (length_pending_skipBlanks_le l)
  unfold next at h
  split at h
  next => simp at h
  next c seen hpeek =>
    split at h
    next halpha =>
      rw [Prod.mk.injEq] at h
      exact h.2 ▸ length_pending_takeWhile_lt hpeek (by simp [Char.isAlphanum, halpha])
    next =>
      split at h
      next hnumeric =>
        rw [Prod.mk.injEq] at h
        exact h.2 ▸ length_pending_takeWhile_lt hpeek hnumeric
      next =>
        rw [Prod.mk.injEq] at h
        exact h.2 ▸ length_pending_drop_lt hpeek

/-- A lexer that has seen the end sees it again. -/
theorem peek_of_ended {l : Lexer σ} (h : l.slot = .ended) : l.peek = (none, l) := by
  unfold peek
  split
  next c hslot => simp [h] at hslot
  next => rfl
  next hslot => simp [h] at hslot

/-- A lexer that has seen the end answers it, and nothing changes. -/
theorem next_of_ended {l : Lexer σ} (h : l.slot = .ended) : l.next = (none, l) := by
  have hpeek := peek_of_ended h
  have hskip : l.skipBlanks = l := by
    simp only [skipBlanks_eq, takeWhile_eq, hpeek]
  simp only [next, hskip, hpeek]

/-- The end is answered only when it has been seen. -/
theorem ended_of_next_none {l r : Lexer σ} (h : l.next = (none, r)) : r.slot = .ended := by
  unfold next at h
  split at h
  next seen hpeek =>
    rw [Prod.mk.injEq] at h
    exact h.2 ▸ (of_peek_none hpeek).2
  next =>
    split at h
    next => simp at h
    next => split at h <;> simp at h

instance : Source (Lexer σ) Token := ⟨next⟩

/-- A lexer comes to an end whatever its source does after its own. -/
theorem ends_next (l : Lexer σ) : Source.Ends l := by
  induction hsize : l.pending.length using Nat.strongRecOn generalizing l with
  | ind size ih =>
      match h : l.next with
      | (none, r) => exact ⟨[], .done h⟩
      | (some k, r) =>
          obtain ⟨ks, hks⟩ := ih _ (hsize ▸ length_pending_lt_of_next_some h) r rfl
          exact ⟨k :: ks, .more h hks⟩

instance : TokenStream (Lexer σ) where
  ends := ends_next
  stays _ _ h := next_of_ended (ended_of_next_none h)

/-- A lexer of a text. -/
def ofText (t : Text) : Lexer Text := ofSource t t.ends

/-- A lexer of bytes that are read by lines. -/
def ofLines (r : LineReader) : Lexer LineReader := ofSource r r.ends

end Lexer

/-- All tokens of a text. -/
def lex (s : String) : List Token := TokenStream.collect (Lexer.ofText (.ofString s))

end ExprLang
