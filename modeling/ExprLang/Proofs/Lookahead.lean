import ExprLang.Proofs.Scan
import ExprLang.Proofs.Simulation

/-!
# How far a source is read

A lexer asks its source for one character after another, so how far it has read is a number of requests.
`Follows` says what this number is at any moment: one for each character that is no longer pending, and
one more if the slot holds an answer. Looking at a character and taking it keep this, and a lexer does
nothing else.

A token is therefore known after a number of requests that `requests` computes from the characters alone:
those through its text, and one more if it is a word or a numeral. A parser stands where some number of
calls of its lexer lead, whatever it has been asked and whether that failed, and so has read just as far.
-/

namespace ExprLang

namespace Source

variable {σ α : Type} [Source σ α]

/-- The state after the first `n` requests. -/
def after : Nat → σ → σ
  | 0, s => s
  | n + 1, s => after n (next s).2

/-- One request more is made of the state after the others. -/
theorem after_succ (n : Nat) (s : σ) : after (n + 1) s = (next (after n s)).2 := by
  induction n generalizing s with
  | zero => rfl
  | succ n ih => exact ih (next s).2

/-- A trace lists the answers to the single requests. -/
theorem trace_eq_map (n : Nat) (s : σ) : trace n s = (List.range n).map fun i => next (after i s) := by
  induction n generalizing s with
  | zero => rfl
  | succ n ih =>
      rw [trace, ih, List.range_succ_eq_map, List.map_cons, List.map_map]
      rfl

/-- A count of the items that a source has answered. -/
def Counts (pulled : σ → Nat) : Prop := ∀ s, pulled (next s).2 = pulled s + (next s).1.toList.length

/-- Up to the first end every request but the last one answers an item. -/
theorem Counts.after {pulled : σ → Nat} (hpulled : Counts pulled) {s : σ} {as : List α}
    (hs : Yields s as) {n : Nat} (hn : n ≤ as.length + 1) :
    pulled (Source.after n s) = pulled s + min n as.length := by
  induction hs generalizing n with
  | @done s t h =>
      have hstep := hpulled s
      rw [h] at hstep
      rcases n with _ | _ | n
      · rfl
      · simpa [Source.after, h] using hstep
      · simp at hn
  | @more s t a as h rest ih =>
      have hstep := hpulled s
      rw [h] at hstep
      cases n with
      | zero => simp [Source.after]
      | succ n =>
          have hrest := ih (n := n) (by simpa using hn)
          rw [Source.after, h, hrest, hstep]
          simp only [Option.toList_some, List.length_cons, List.length_nil]
          omega

end Source

/-- A text counts the characters that are taken from it. -/
theorem Text.counts_pulled : Source.Counts Text.pulled := by
  rintro ⟨_ | ⟨c, cs⟩, n⟩ <;> rfl

/-- The number of answers in a slot. -/
def Slot.ahead : Slot → Nat
  | .empty => 0
  | _ => 1

/-- The number of answers behind the text of a token that are seen before the token is known. -/
def Token.lookahead : Token → Nat
  | .symbol _ => 0
  | _ => 1

namespace Lexer

variable {σ : Type} [Source σ Char]

/-- What looking at a character and taking it keep is kept by taking a run of characters. -/
theorem takeWhile_invariant {P : Lexer σ → Prop} (hpeek : ∀ l, P l → P l.peek.2)
    (hdrop : ∀ l, P l → P l.drop) (p : Char → Bool) (l : Lexer σ) (hl : P l) : P (l.takeWhile p).2 := by
  fun_induction takeWhile p l with
  | case1 l r hr h =>
      have hseen := hpeek l hl
      rwa [show l.peek = (none, r) from congrArg Subtype.val h] at hseen
  | case2 l c r hr h hlt hp cs rest hrec ih =>
      have hseen := hpeek l hl
      rw [show l.peek = (some c, r) from congrArg Subtype.val h] at hseen
      have hrest := ih (hdrop r hseen)
      rwa [hrec] at hrest
  | case3 l c r hr h hlt hp =>
      have hseen := hpeek l hl
      rwa [show l.peek = (some c, r) from congrArg Subtype.val h] at hseen

/-- It is kept by skipping blanks and comments. -/
theorem skipBlanks_invariant {P : Lexer σ → Prop} (hpeek : ∀ l, P l → P l.peek.2)
    (hdrop : ∀ l, P l → P l.drop) (l : Lexer σ) (hl : P l) : P l.skipBlanks := by
  fun_induction skipBlanks l with
  | case1 l r hr h =>
      have hseen := hpeek _ (takeWhile_invariant hpeek hdrop isBlank l hl)
      rwa [show (l.takeWhile isBlank).2.peek = (none, r) from congrArg Subtype.val h] at hseen
  | case2 l r hr h hlt ih =>
      have hseen := hpeek _ (takeWhile_invariant hpeek hdrop isBlank l hl)
      rw [show (l.takeWhile isBlank).2.peek = (some '#', r) from congrArg Subtype.val h] at hseen
      exact ih (takeWhile_invariant hpeek hdrop _ _ (hdrop r hseen))
  | case3 l c r hr h hlt hc =>
      have hseen := hpeek _ (takeWhile_invariant hpeek hdrop isBlank l hl)
      rwa [show (l.takeWhile isBlank).2.peek = (some c, r) from congrArg Subtype.val h] at hseen

/-- It is kept by taking a token. -/
theorem next_invariant {P : Lexer σ → Prop} (hpeek : ∀ l, P l → P l.peek.2)
    (hdrop : ∀ l, P l → P l.drop) {l : Lexer σ} (hl : P l) : P l.next.2 := by
  have hseen := hpeek _ (skipBlanks_invariant hpeek hdrop l hl)
  unfold next
  split
  next r h => rwa [h] at hseen
  next c r h =>
    rw [h] at hseen
    split
    · exact takeWhile_invariant hpeek hdrop _ r hseen
    · split
      · exact takeWhile_invariant hpeek hdrop _ r hseen
      · exact hdrop r hseen

/-- The lexer has asked `s`, which yields `cs`, for the characters that are no longer pending and for the
answer in its slot. -/
structure Follows (s : σ) (cs : List Char) (l : Lexer σ) : Prop where
  pending_suffix : l.pending <:+ cs
  source_eq : l.source = Source.after (cs.length - l.pending.length + l.slot.ahead) s

variable {s : σ} {cs : List Char}

/-- At first a lexer has asked for nothing. -/
theorem follows_ofSource (hs : Source.Yields s cs) : (ofSource s ⟨cs, hs⟩).Follows s cs := by
  have hpending : (ofSource s ⟨cs, hs⟩).pending = cs := Source.items_eq hs
  constructor
  · exact ⟨[], by rw [hpending, List.nil_append]⟩
  · rw [hpending, Nat.sub_self]
    rfl

/-- Looking asks for one more answer if the slot is empty. -/
theorem Follows.peek {l : Lexer σ} (h : l.Follows s cs) : l.peek.2.Follows s cs := by
  obtain ⟨hsuffix, hsource⟩ := h
  unfold Lexer.peek
  split
  next => exact ⟨hsuffix, hsource⟩
  next => exact ⟨hsuffix, hsource⟩
  next hslot =>
    have hasked : (Source.next l.source).2 = Source.after (cs.length - l.pending.length + 1) s := by
      rw [hslot] at hsource
      rw [Source.after_succ]
      exact congrArg (fun t => (Source.next t).2) hsource
    split
    next c t ht hnext =>
      have hnext : Source.next l.source = (some c, t) := congrArg Subtype.val hnext
      have hitems := Source.items_of_next_some (l.ends.resolve_left (by simp [hslot])) hnext
      have hpending : l.pending = c :: Source.items t := by simp only [pending, hslot, hitems]
      rw [hnext] at hasked
      rw [hpending] at hsuffix hasked
      exact ⟨hsuffix, hasked⟩
    next t ht hnext =>
      have hnext : Source.next l.source = (none, t) := congrArg Subtype.val hnext
      have hpending : l.pending = [] := by
        simp only [pending, hslot, Source.items_of_next_none hnext]
      rw [hnext] at hasked
      rw [hpending] at hsuffix hasked
      exact ⟨hsuffix, hasked⟩

/-- Taking a character asks for nothing. -/
theorem Follows.drop {l : Lexer σ} (h : l.Follows s cs) : l.drop.Follows s cs := by
  by_cases hchar : ∃ c, l.slot = .char c
  · obtain ⟨c, hslot⟩ := hchar
    obtain ⟨hsuffix, hsource⟩ := h
    obtain ⟨hdropped, hempty⟩ := drop_of_char hslot
    have hpending : l.pending = c :: l.drop.pending := by
      simp only [pending, hslot, hempty, hdropped]
    have hlength := hsuffix.length_le
    rw [hpending] at hsuffix hsource hlength
    refine ⟨(List.suffix_cons c _).trans hsuffix, ?_⟩
    rw [hdropped, hsource, hslot, hempty]
    simp only [List.length_cons, Slot.ahead] at hlength ⊢
    congr 1
    omega
  · have hsame : l.drop = l := by
      unfold Lexer.drop
      split
      next c hslot => exact absurd ⟨c, hslot⟩ hchar
      next => rfl
    rwa [hsame]

/-- Whatever a lexer does, it has asked for what it has taken and for what is in its slot. -/
theorem Follows.next {l : Lexer σ} (h : l.Follows s cs) : l.next.2.Follows s cs :=
  next_invariant (fun _ hl => hl.peek) (fun _ hl => hl.drop) h

end Lexer

/-- The tokens of a list of characters, each with the offset just past its text. -/
def textEnds (cs : List Char) : List (Token × Nat) :=
  (spans cs).map fun x => (x.1, cs.length - x.2.length)

/-- The tokens of the scan are those that have an end. -/
theorem map_fst_textEnds (cs : List Char) : (textEnds cs).map Prod.fst = scan cs := by
  rw [textEnds, List.map_map]
  rfl

/-- The characters in front of the offset end with a spelling of the token. -/
theorem exists_spells_of_mem_textEnds {cs : List Char} {k : Token} {stop : Nat}
    (h : (k, stop) ∈ textEnds cs) :
    ∃ before w rest, cs = before ++ w ++ rest ∧ stop = (before ++ w).length ∧ Spells w k := by
  obtain ⟨⟨_, rest⟩, hspan, heq⟩ := List.mem_map.mp h
  obtain ⟨rfl, rfl⟩ := Prod.mk.inj heq
  obtain ⟨before, w, rfl, hw⟩ := exists_spells_of_mem_spans hspan
  refine ⟨before, w, rest, (List.append_assoc ..).symm, ?_, hw⟩
  simp only [List.length_append]
  omega

/-- A spelling has characters. -/
theorem Spells.ne_nil {w : List Char} {k : Token} (h : Spells w k) : w ≠ [] := by
  cases h <;> exact List.cons_ne_nil _ _

/-- A spelling has no line feed. -/
theorem Spells.feed_not_mem {w : List Char} {k : Token} (h : Spells w k) : '\n' ∉ w := by
  intro hmem
  cases h with
  | word hc hcs =>
      rcases List.mem_cons.mp hmem with rfl | hmem
      · simp at hc
      · simpa using hcs _ hmem
  | numeral hc hcs =>
      rcases List.mem_cons.mp hmem with rfl | hmem
      · simp [isNumeric] at hc
      · simpa [isNumeric] using hcs _ hmem
  | symbol hc =>
      obtain rfl := List.mem_singleton.mp hmem
      exact absurd hc (by decide)

/-- The text of a token ends with a character that is no line feed. -/
theorem exists_last_of_mem_textEnds {cs : List Char} {k : Token} {stop : Nat}
    (h : (k, stop) ∈ textEnds cs) : ∃ m c, stop = m + 1 ∧ cs[m]? = some c ∧ c ≠ '\n' := by
  obtain ⟨before, w, rest, rfl, rfl, hw⟩ := exists_spells_of_mem_textEnds h
  obtain ⟨v, c, rfl⟩ := (List.eq_nil_or_concat w).resolve_left hw.ne_nil
  refine ⟨(before ++ v).length, c, by simp [Nat.add_assoc], by simp, ?_⟩
  rintro rfl
  simpa using hw.feed_not_mem

/-- The number of requests after which token number `n` is known: one for each character through its text
and one more behind a word or a numeral, and past the last token one for each character and one for the
end. -/
def requests (cs : List Char) (n : Nat) : Nat :=
  match (textEnds cs)[n]? with
  | some (k, stop) => stop + k.lookahead
  | none => cs.length + 1

/-- The number of characters that have been pulled when token number `n` is known: those through its text,
with one more behind a word or a numeral if there is one, and all of them past the last token. -/
def pulledThrough (cs : List Char) (n : Nat) : Nat :=
  match (textEnds cs)[n]? with
  | some (.symbol _, stop) => stop
  | some (_, stop) => min (stop + 1) cs.length
  | none => cs.length

/-- No request is made behind the one that sees the end. -/
theorem requests_le (cs : List Char) (n : Nat) : requests cs n ≤ cs.length + 1 := by
  simp only [requests, textEnds, List.getElem?_map]
  cases (spans cs)[n]? with
  | none => exact Nat.le_refl _
  | some x =>
      obtain ⟨k, rest⟩ := x
      cases k <;> simp only [Option.map_some, Token.lookahead] <;> omega

/-- At least one request is made, and none behind the one that sees the end. -/
theorem exists_requests_eq_succ (cs : List Char) (n : Nat) :
    ∃ m, requests cs n = m + 1 ∧ m ≤ cs.length := by
  have hle := requests_le cs n
  have hpos : requests cs n ≠ 0 := by
    cases hend : (textEnds cs)[n]? with
    | none => simp [requests, hend]
    | some x =>
        obtain ⟨m, _, hstop, _⟩ := exists_last_of_mem_textEnds (List.mem_of_getElem? hend)
        simp [requests, hend, hstop]
  exact ⟨requests cs n - 1, by omega, by omega⟩

/-- Every request but the one that sees the end pulls a character. -/
theorem min_requests (cs : List Char) (n : Nat) : min (requests cs n) cs.length = pulledThrough cs n := by
  simp only [requests, pulledThrough, textEnds, List.getElem?_map]
  cases (spans cs)[n]? with
  | none => simp
  | some x =>
      obtain ⟨k, rest⟩ := x
      cases k <;> simp [Token.lookahead]

namespace Lexer

variable {σ : Type} [Source σ Char] {s : σ} {cs : List Char}

/-- The slot holds the answer that had to be seen behind the token. -/
theorem ahead_of_next_some {l r : Lexer σ} {k : Token} (h : l.next = (some k, r)) :
    r.slot.ahead = k.lookahead := by
  obtain ⟨_, hempty⟩ := takes_of_next_some h
  cases hslot : r.slot with
  | empty =>
      obtain ⟨c, rfl⟩ := hempty.mp hslot
      rfl
  | _ =>
      cases k with
      | symbol c => simp [hempty.mpr ⟨c, rfl⟩] at hslot
      | _ => rfl

/-- A lexer in front of span number `n` answers its token and goes in front of the next one, and has then
asked for what that token takes. -/
theorem Follows.next_spec {l : Lexer σ} {n : Nat} (h : l.Follows s cs)
    (hspans : spans l.pending = (spans cs).drop n) :
    l.next.1 = (textEnds cs)[n]?.map Prod.fst ∧ l.next.2.source = Source.after (requests cs n) s ∧
      spans l.next.2.pending = (spans cs).drop (n + 1) := by
  have hsource := h.next.source_eq
  have hentry : (spans cs)[n]? = (spans l.pending).head? := by rw [hspans, List.head?_drop]
  have hrest : (spans cs).drop (n + 1) = (spans l.pending).tail := by rw [hspans, List.tail_drop]
  simp only [requests, textEnds, List.getElem?_map, hentry, hrest, ← spans_pending_skipBlanks l]
  match hnext : l.next with
  | (none, r) =>
      have hended := ended_of_next_none hnext
      have hpending : r.pending = [] := by simp only [pending, hended]
      rw [hnext] at hsource
      simp only [hpending, hended] at hsource
      rw [pending_of_next_none hnext, hpending, spans_nil]
      exact ⟨rfl, hsource, rfl⟩
  | (some k, r) =>
      rw [hnext, ahead_of_next_some hnext] at hsource
      rw [(takes_of_next_some hnext).1.spans]
      exact ⟨rfl, hsource, rfl⟩

/-- After `n` calls a lexer has asked for what it has taken and is in front of span number `n`. -/
theorem after_spec (hs : Source.Yields s cs) (n : Nat) :
    (Source.after n (ofSource s ⟨cs, hs⟩)).Follows s cs ∧
      spans (Source.after n (ofSource s ⟨cs, hs⟩)).pending = (spans cs).drop n := by
  induction n with
  | zero =>
      refine ⟨follows_ofSource hs, ?_⟩
      rw [List.drop_zero]
      exact congrArg spans (Source.items_eq hs)
  | succ n ih =>
      obtain ⟨hfollows, hspans⟩ := ih
      rw [Source.after_succ]
      exact ⟨hfollows.next, (hfollows.next_spec hspans).2.2⟩

/-- After `n` calls a lexer answers token number `n` and has then asked for what that token takes. -/
theorem next_after (hs : Source.Yields s cs) (n : Nat) :
    (Source.after n (ofSource s ⟨cs, hs⟩)).next.1 = (textEnds cs)[n]?.map Prod.fst ∧
      (Source.after n (ofSource s ⟨cs, hs⟩)).next.2.source = Source.after (requests cs n) s := by
  obtain ⟨hfollows, hspans⟩ := after_spec hs n
  obtain ⟨hanswer, hsource, _⟩ := hfollows.next_spec hspans
  exact ⟨hanswer, hsource⟩

end Lexer

/-- A session stands where some number of requests to its stream lead, whatever it has been asked. -/
theorem Session.visited_start {τ : Type} [TokenStream τ] {t : τ} {commands : List Command}
    {x : Session τ} (hx : x ∈ (Session.start t).visited commands) :
    ∃ n, x.cursor = .start (Source.after n t) := by
  refine visited_invariant (P := fun c => ∃ n, c = .start (Source.after n t)) ?_ ⟨0, rfl⟩ commands x hx
  rintro c ⟨n, rfl⟩
  exact ⟨n + 1, congrArg Cursor.start (Source.after_succ n t).symm⟩

/-- A session over a lexer is at some token of the text, and the lexer has asked for what this token
takes. -/
theorem Session.visited_ofSource {σ : Type} [Source σ Char] {s : σ} {cs : List Char}
    (hs : Source.Yields s cs) {commands : List Command} {x : Session (Lexer σ)}
    (hx : x ∈ (Session.start (Lexer.ofSource s ⟨cs, hs⟩)).visited commands) :
    ∃ n, x.cursor.tokens = (scan cs).drop n ∧ x.cursor.current = (textEnds cs)[n]?.map Prod.fst ∧
      x.cursor.rest.source = Source.after (requests cs n) s := by
  obtain ⟨n, hcursor⟩ := Session.visited_start hx
  rw [hcursor]
  refine ⟨n, ?_, Lexer.next_after hs n⟩
  rw [Cursor.tokens_start, Lexer.items_eq_scan, scan, (Lexer.after_spec hs n).2, List.map_drop, scan]

end ExprLang
