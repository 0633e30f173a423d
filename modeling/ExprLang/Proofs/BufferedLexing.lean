import ExprLang.Proofs.Scan

/-!
# Lexing over a buffered source

The loops of the lexer are written here a second time, as programs that know nothing of how much is left. A
number says how deep calls may be nested, and a call that would be deeper has no result. A program returns
if it has one result at all depths from some number on; where calls go on for ever there is no such number.

The programs work on a buffered source. It holds at most one answer that was asked for ahead of time, and
treats an end like every other answer: whoever takes it out of the buffer leaves the buffer empty, and the
next request goes to the source again. Blanks and comments are taken if they pass a test and put back if
not, words and numerals are looked at and then taken. The main statement is `Reading.halts_token`: taking a
token returns, with the lexer's answer and with the same requests to the source.
-/

namespace ExprLang

section Halts

variable {ρ α β : Type} {s t : ρ}

/-- The program returns with the result if calls may be nested deep enough. -/
def Halts (p : Nat → StateT ρ Option α) (s : ρ) (r : α × ρ) : Prop :=
  ∃ n, ∀ m, n ≤ m → (p m).run s = some r

/-- A result is returned at once. -/
theorem halts_pure (a : α) (s : ρ) : Halts (fun _ => pure a) s (a, s) := ⟨0, fun _ _ => rfl⟩

/-- A call returns if what is called does. -/
theorem halts_call {p : Nat → StateT ρ Option α} {r : α × ρ} (h : Halts (fun n => p (n + 1)) s r) :
    Halts p s r := by
  obtain ⟨n, hn⟩ := h
  refine ⟨n + 1, ?_⟩
  intro m hm
  obtain ⟨k, rfl⟩ := Nat.exists_eq_add_of_le' hm
  exact hn (k + n) (Nat.le_add_left n k)

/-- A program that has come to a second one when a first one is done returns if both do. -/
theorem Halts.trans {p : Nat → StateT ρ Option α} {q q' : Nat → StateT ρ Option β} {x : α × ρ} {r : β × ρ}
    (hp : Halts p s x) (hq : Halts q t r) (h : ∀ n, (p n).run s = some x → (q' n).run s = (q n).run t) :
    Halts q' s r := by
  obtain ⟨n, hn⟩ := hp
  obtain ⟨k, hk⟩ := hq
  refine ⟨max n k, ?_⟩
  intro m hm
  rw [h m (hn m (Nat.le_trans (Nat.le_max_left n k) hm))]
  exact hk m (Nat.le_trans (Nat.le_max_right n k) hm)

/-- A program goes on with what comes next, and returns if both parts do. -/
theorem Halts.seq {p : Nat → StateT ρ Option α} {f : Nat → α → StateT ρ Option β} {a : α} {r : β × ρ}
    (hp : Halts p s (a, t)) (hf : Halts (fun n => f n a) t r) : Halts (fun n => p n >>= f n) s r := by
  apply hp.trans hf
  intro n hn
  change ((p n).run s).bind _ = _
  rw [hn]
  rfl

/-- What comes next has the answer of the operation and begins where it has led. -/
theorem halts_modifyGet {g : ρ → α × ρ} {f : Nat → α → StateT ρ Option β} {a : α} {r : β × ρ}
    (hg : g s = (a, t)) (h : Halts (fun n => f n a) t r) :
    Halts (fun n => (modifyGet g : StateT ρ Option α) >>= f n) s r := by
  obtain ⟨n, hn⟩ := h
  refine ⟨n, fun m hm => ?_⟩
  change (f m (g s).1).run (g s).2 = some r
  rw [hg]
  exact hn m hm

end Halts

/-- A source with room for one answer that has been asked for ahead of time. -/
structure Buffered (σ : Type) where
  source : σ
  held : Option (Option Char)

namespace Buffered

variable {σ : Type} [Source σ Char]

/-- A source of which no answer is held. -/
def ofSource (s : σ) : Buffered σ := ⟨s, none⟩

/-- Takes the answer that is held, be it a character or an end, and asks the source if there is none. -/
def next (b : Buffered σ) : Option Char × Buffered σ :=
  match b.held with
  | some answer => (answer, ⟨b.source, none⟩)
  | none => ((Source.next b.source).1, ⟨(Source.next b.source).2, none⟩)

/-- Looks at the next answer, which is held from then on. -/
def peek (b : Buffered σ) : Option Char × Buffered σ := (b.next.1, ⟨b.next.2.source, some b.next.1⟩)

/-- Takes the next answer if it is a character that passes the test, and puts it back if it is another
one or an end. -/
def nextIf (p : Char → Bool) (b : Buffered σ) : Option Char × Buffered σ :=
  if b.next.1.any p then b.next else (none, ⟨b.next.2.source, some b.next.1⟩)

end Buffered

/-- Programs that work on a buffered source and may not return. -/
abbrev Reading (σ : Type) (α : Type) : Type := StateT (Buffered σ) Option α

namespace Reading

variable {σ : Type} [Source σ Char]

/-- Takes the next answer. -/
def next : Reading σ (Option Char) := modifyGet Buffered.next

/-- Looks at the next answer. -/
def peek : Reading σ (Option Char) := modifyGet Buffered.peek

/-- Takes the next answer if it passes the test. -/
def nextIf (p : Char → Bool) : Reading σ (Option Char) := modifyGet (Buffered.nextIf p)

/-- Takes answers as long as they pass the test. -/
def skipWhile (p : Char → Bool) : Nat → Reading σ Unit
  | 0 => failure
  | n + 1 => do
      if (← nextIf p).isSome then skipWhile p n

/-- Lists the characters that pass the test, each looked at and then taken. -/
def takeWhile (p : Char → Bool) : Nat → Reading σ (List Char)
  | 0 => failure
  | n + 1 => do
      match ← peek with
      | none => return []
      | some c =>
          if p c then
            let _ ← next
            return c :: (← takeWhile p n)
          else return []

/-- Takes the next token. A comment is skipped with its mark, and then the search begins again. -/
def token : Nat → Reading σ (Option Token)
  | 0 => failure
  | n + 1 => do
      skipWhile isBlank n
      match ← peek with
      | none => return none
      | some c =>
          if c.isAlpha then return some (.ofWord (String.ofList (← takeWhile Char.isAlphanum n)))
          else if isNumeric c then return some (.ofNumeral (← takeWhile isNumeric n))
          else if c = '#' then
            skipWhile (!isLineEnd ·) n
            token n
          else
            let _ ← next
            return some (.symbol c)

end Reading

/-- The answer that a slot holds. -/
def Slot.held : Slot → Option (Option Char)
  | .empty => none
  | .char c => some (some c)
  | .ended => some none

namespace Lexer

variable {σ : Type} [Source σ Char]

/-- The source of a lexer with the answer in its slot. -/
def buffered (l : Lexer σ) : Buffered σ := ⟨l.source, l.slot.held⟩

/-- A character that was looked at is in the slot. -/
theorem slot_of_peek_some {l r : Lexer σ} {c : Char} (h : l.peek = (some c, r)) : r.slot = .char c := by
  unfold peek at h
  split at h
  next d hslot =>
    cases h
    exact hslot
  next hslot => simp at h
  next hslot =>
    split at h
    next d s hs hnext =>
      cases h
      rfl
    next s hs hnext => simp at h

/-- Looking again shows the same answer. -/
theorem peek_of_peek {l r : Lexer σ} {answer : Option Char} (h : l.peek = (answer, r)) :
    r.peek = (answer, r) := by
  cases answer with
  | none => exact peek_of_ended (of_peek_none h).2
  | some c =>
      have hslot := slot_of_peek_some h
      unfold peek
      split
      next d hslot' =>
        rw [hslot] at hslot'
        cases hslot'
        rfl
      next hslot' => simp [hslot] at hslot'
      next hslot' => simp [hslot] at hslot'

/-- What was looked at is held. -/
theorem held_peek (l : Lexer σ) : l.peek.2.slot.held = some l.peek.1 := by
  match h : l.peek with
  | (none, r) => rw [(of_peek_none h).2, Slot.held]
  | (some c, r) => rw [slot_of_peek_some h, Slot.held]

/-- The next answer of the buffered source is the one that the lexer looks at. -/
theorem next_buffered (l : Lexer σ) : l.buffered.next = (l.peek.1, ⟨l.peek.2.source, none⟩) := by
  unfold peek
  split
  next c hslot => simp only [buffered, hslot, Slot.held, Buffered.next]
  next hslot => simp only [buffered, hslot, Slot.held, Buffered.next]
  next hslot =>
    simp only [buffered, hslot, Slot.held, Buffered.next]
    split
    next c s hs hnext =>
      have hnext : Source.next l.source = (some c, s) := congrArg Subtype.val hnext
      rw [hnext]
    next s hs hnext =>
      have hnext : Source.next l.source = (none, s) := congrArg Subtype.val hnext
      rw [hnext]

/-- A lexer looks at the answer of its buffered source. -/
theorem peek_buffered {l r : Lexer σ} {answer : Option Char} (h : l.peek = (answer, r)) :
    l.buffered.peek = (answer, r.buffered) := by
  have hheld := l.held_peek
  rw [h] at hheld
  rw [Buffered.peek, next_buffered, h, buffered, hheld]

/-- A character that was looked at and taken is no longer held. -/
theorem buffered_drop {l r : Lexer σ} {c : Char} (h : l.peek = (some c, r)) :
    r.drop.buffered = ⟨r.source, none⟩ := by
  obtain ⟨hsource, hempty⟩ := drop_of_char (slot_of_peek_some h)
  rw [buffered, hsource, hempty, Slot.held]

/-- A character that was looked at is the next answer. -/
theorem next_buffered_of_peek {l r : Lexer σ} {c : Char} (h : l.peek = (some c, r)) :
    r.buffered.next = (some c, r.drop.buffered) := by
  rw [next_buffered, peek_of_peek h, buffered_drop h]

/-- An end is taken and put back. -/
theorem nextIf_buffered_none {l r : Lexer σ} (p : Char → Bool) (h : l.peek = (none, r)) :
    l.buffered.nextIf p = (none, r.buffered) := by
  have hheld := l.held_peek
  rw [h] at hheld
  rw [Buffered.nextIf, next_buffered, h, buffered, hheld]
  rfl

/-- A character is taken if it passes the test, and put back otherwise. -/
theorem nextIf_buffered_some {l r : Lexer σ} {c : Char} (p : Char → Bool) (h : l.peek = (some c, r)) :
    l.buffered.nextIf p = if p c then (some c, r.drop.buffered) else (none, r.buffered) := by
  have hheld := l.held_peek
  rw [h] at hheld
  rw [Buffered.nextIf, next_buffered, h, buffered_drop h, buffered, hheld]
  rfl

end Lexer

namespace Reading

variable {σ : Type} [Source σ Char]

/-- Skipping goes where a lexer goes that takes characters. -/
theorem halts_skipWhile (p : Char → Bool) (l : Lexer σ) :
    Halts (skipWhile p) l.buffered ((), (l.takeWhile p).2.buffered) := by
  fun_induction Lexer.takeWhile p l with
  | case1 l r hr h =>
      have hnext := Lexer.nextIf_buffered_none p (congrArg Subtype.val h)
      exact halts_call (halts_modifyGet hnext (halts_pure () _))
  | case2 l c r hr h hlt hp cs rest hrec ih =>
      have hnext := Lexer.nextIf_buffered_some p (congrArg Subtype.val h)
      rw [if_pos hp] at hnext
      rw [hrec] at ih
      exact halts_call (halts_modifyGet hnext ih)
  | case3 l c r hr h hlt hp =>
      have hnext := Lexer.nextIf_buffered_some p (congrArg Subtype.val h)
      rw [if_neg hp] at hnext
      exact halts_call (halts_modifyGet hnext (halts_pure () _))

/-- Taking characters takes those that the lexer takes. -/
theorem halts_takeWhile (p : Char → Bool) (l : Lexer σ) :
    Halts (takeWhile p) l.buffered ((l.takeWhile p).1, (l.takeWhile p).2.buffered) := by
  fun_induction Lexer.takeWhile p l with
  | case1 l r hr h =>
      have hpeek : l.peek = (none, r) := congrArg Subtype.val h
      exact halts_call (halts_modifyGet (Lexer.peek_buffered hpeek) (halts_pure [] _))
  | case2 l c r hr h hlt hp cs rest hrec ih =>
      have hpeek : l.peek = (some c, r) := congrArg Subtype.val h
      rw [hrec] at ih
      refine halts_call (halts_modifyGet (Lexer.peek_buffered hpeek) ?_)
      simp only [hp, if_true]
      exact halts_modifyGet (Lexer.next_buffered_of_peek hpeek) (ih.seq (halts_pure (c :: cs) _))
  | case3 l c r hr h hlt hp =>
      have hpeek : l.peek = (some c, r) := congrArg Subtype.val h
      refine halts_call (halts_modifyGet (Lexer.peek_buffered hpeek) ?_)
      simp only [hp]
      exact halts_pure [] _

/-- The token that is taken is the one that the lexer takes, and the source is asked for the same. -/
theorem halts_token (l : Lexer σ) : Halts token l.buffered (l.next.1, l.next.2.buffered) := by
  fun_induction Lexer.skipBlanks l with
  | case1 l r hr h =>
      have hpeek : (l.takeWhile isBlank).2.peek = (none, r) := congrArg Subtype.val h
      have hskip : l.skipBlanks = r := by rw [Lexer.skipBlanks_eq, hpeek]
      have hnext : l.next = (none, r) := by simp only [Lexer.next, hskip, Lexer.peek_of_peek hpeek]
      rw [hnext]
      refine halts_call ((halts_skipWhile isBlank l).seq ?_)
      exact halts_modifyGet (Lexer.peek_buffered hpeek) (halts_pure none _)
  | case2 l r hr h hlt ih =>
      have hpeek : (l.takeWhile isBlank).2.peek = (some '#', r) := congrArg Subtype.val h
      have hskip : l.skipBlanks = (r.drop.takeWhile (!isLineEnd ·)).2.skipBlanks := by
        rw [Lexer.skipBlanks_eq, hpeek]
        rfl
      have hnext : l.next = (r.drop.takeWhile (!isLineEnd ·)).2.next := by
        simp only [Lexer.next, hskip]
      -- the mark of a comment is a character of it
      have hcomment : (r.takeWhile (!isLineEnd ·)).2 = (r.drop.takeWhile (!isLineEnd ·)).2 := by
        rw [Lexer.takeWhile_eq, Lexer.peek_of_peek hpeek]
        rfl
      have hrest := halts_skipWhile (!isLineEnd ·) r
      rw [hcomment] at hrest
      rw [hnext]
      refine halts_call ((halts_skipWhile isBlank l).seq ?_)
      exact halts_modifyGet (Lexer.peek_buffered hpeek) (hrest.seq ih)
  | case3 l c r hr h hlt hc =>
      have hpeek : (l.takeWhile isBlank).2.peek = (some c, r) := congrArg Subtype.val h
      have hskip : l.skipBlanks = r := by
        rw [Lexer.skipBlanks_eq, hpeek]
        exact if_neg hc
      refine halts_call ((halts_skipWhile isBlank l).seq ?_)
      refine halts_modifyGet (Lexer.peek_buffered hpeek) ?_
      simp only [Lexer.next, hskip, Lexer.peek_of_peek hpeek]
      by_cases halpha : c.isAlpha = true
      · simp only [halpha, if_true]
        exact (halts_takeWhile Char.isAlphanum r).seq (halts_pure _ _)
      · by_cases hnumeric : isNumeric c = true
        · simp only [halpha, hnumeric, if_true]
          exact (halts_takeWhile isNumeric r).seq (halts_pure _ _)
        · simp only [halpha, hnumeric, hc]
          exact halts_modifyGet (Lexer.next_buffered_of_peek hpeek) (halts_pure _ _)

end Reading

end ExprLang
