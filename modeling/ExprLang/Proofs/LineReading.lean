import ExprLang.Proofs.Grammar
import ExprLang.Proofs.Lines

/-!
# Sessions over lines

A session whose characters come from a line reader answers like one over the readable text at once. The
last line that it has taken is the one in which the text of its current token ends: a token does not end
with a line feed, so the character that is looked at behind it is in the same line, unless the bytes end
there. A fault is met at the end of the readable text and not before, and then the lexer asks for nothing
more, so at most one is reported.
-/

namespace ExprLang

namespace LineReader

variable (blocks : List (List UInt8))

/-- A new reader yields the readable text. -/
theorem yields_ofBlocks : Source.Yields (ofBlocks blocks) (readableText (byteLines blocks.flatten)) :=
  (ofBlocks blocks).yields

/-- A request to a new reader takes the lines through the one that holds its character. -/
theorem consumed_after_ofBlocks {m : Nat} (hm : m ≤ (readableText (byteLines blocks.flatten)).length) :
    (Source.after (m + 1) (ofBlocks blocks)).consumed = bytesThrough (byteLines blocks.flatten) m := by
  simpa [ofBlocks] using (after_spec (r := ofBlocks blocks) hm).1

/-- A new reader has a fault behind the readable text if the bytes are not UTF-8. -/
theorem faults_after_ofBlocks {m : Nat} (hm : m ≤ (readableText (byteLines blocks.flatten)).length) :
    (Source.after (m + 1) (ofBlocks blocks)).faults =
      if m < (readableText (byteLines blocks.flatten)).length ∨ (decodeUtf8? blocks.flatten).isSome
      then 0 else 1 := by
  have hfaults := (after_spec (r := ofBlocks blocks) hm).2
  rw [ofBlocks, Nat.zero_add] at hfaults
  exact hfaults.trans (if_congr (or_congr_right (isSome_decodeUtf8?_iff _).symm) rfl rfl)

/-- When token number `n` is known, the lines through the one in which its text ends have been taken, and
past the last token also the first line that is not UTF-8. -/
theorem consumed_after_requests (n : Nat) :
    (Source.after (requests (readableText (byteLines blocks.flatten)) n) (ofBlocks blocks)).consumed =
      match (textEnds (readableText (byteLines blocks.flatten)))[n]? with
      | some (_, stop) => bytesThrough (byteLines blocks.flatten) (stop - 1)
      | none =>
          ((byteLines blocks.flatten).take
            ((readable (byteLines blocks.flatten)).length + 1)).flatten.length := by
  rw [requests]
  cases hend : (textEnds (readableText (byteLines blocks.flatten)))[n]? with
  | none => exact (consumed_after_ofBlocks blocks (Nat.le_refl _)).trans (bytesThrough_length_readableText _)
  | some x =>
      obtain ⟨k, stop⟩ := x
      obtain ⟨m, c, rfl, hc, hfeed⟩ := exists_last_of_mem_textEnds (List.mem_of_getElem? hend)
      have hm := (List.getElem?_eq_some_iff.mp hc).1
      -- behind a symbol nothing is asked for, and behind another token one character of the same line
      cases k with
      | symbol d => exact consumed_after_ofBlocks blocks (Nat.le_of_lt hm)
      | _ => exact (consumed_after_ofBlocks blocks hm).trans (bytesThrough_succ _ hfeed hc)

/-- A reader without a fault has reported nothing. -/
theorem report_of_faults_eq_zero {r : LineReader} (h : r.faults = 0) : r.report = "" := by
  rw [report, h]
  rfl

/-- A reader with one fault has reported it once. -/
theorem report_of_faults_eq_one {r : LineReader} (h : r.faults = 1) :
    r.report = "Error: failed to read input: stream did not contain valid UTF-8\n" := by
  rw [report, h]
  decide

/-- When token number `n` is known, there has been no fault if the bytes are UTF-8. If they are not, there
has been no more than one, and one past the last token. -/
theorem faults_after_requests (n : Nat) :
    let r := Source.after (requests (readableText (byteLines blocks.flatten)) n) (ofBlocks blocks)
    match decodeUtf8? blocks.flatten with
    | some _ => r.faults = 0
    | none =>
        (r.faults = 0 ∨ r.faults = 1) ∧
          ((textEnds (readableText (byteLines blocks.flatten)))[n]? = none → r.faults = 1) := by
  obtain ⟨m, hm, hle⟩ := exists_requests_eq_succ (readableText (byteLines blocks.flatten)) n
  have hfaults := faults_after_ofBlocks blocks hle
  rw [← hm] at hfaults
  cases hbytes : decodeUtf8? blocks.flatten with
  | some cs => simpa [hbytes] using hfaults
  | none =>
      simp only [hbytes, Option.isSome_none, Bool.false_eq_true, or_false] at hfaults
      constructor
      · split at hfaults
        next => exact .inl hfaults
        next => exact .inr hfaults
      · intro hend
        have hlast : requests (readableText (byteLines blocks.flatten)) n =
            (readableText (byteLines blocks.flatten)).length + 1 := by rw [requests, hend]
        rwa [if_neg (by omega)] at hfaults

end LineReader

namespace Session

variable {τ τ' : Type} [TokenStream τ] [TokenStream τ']

/-- The answers to commands, each with the token that is current after it. -/
def answers (s : Session τ) (commands : List Command) : List (Answer × Option Token) :=
  (s.trace commands).map fun x => (x.1, x.2.cursor.current)

/-- Sessions with the same tokens in front of them have the same answers. -/
theorem answers_eq {s : Session τ} {s' : Session τ'} (hops : s'.ops = s.ops)
    (htokens : s'.cursor.tokens = s.cursor.tokens) (commands : List Command) :
    s.answers commands = s'.answers commands := by
  have htrace := trace_related Cursor.bisimulation_tokens commands ⟨hops, htokens⟩
  rw [answers, answers, ← List.forall₂_eq_eq_eq, List.forall₂_map_left_iff, List.forall₂_map_right_iff]
  refine htrace.imp fun x x' hx => ?_
  rw [hx.1, Cursor.bisimulation_tokens.current hx.2.2]

/-- A session over bytes that are read by lines. -/
def ofBlocks (blocks : List (List UInt8)) : Session (Lexer LineReader) :=
  .start (Lexer.ofLines (.ofBlocks blocks))

/-- A session over a text. -/
def ofString (s : String) : Session (Lexer Text) := .start (Lexer.ofText (.ofString s))

/-- The tokens of a session over lines are those of the readable text. -/
theorem tokens_ofBlocks (blocks : List (List UInt8)) :
    (ofBlocks blocks).cursor.tokens = scan (readableText (byteLines blocks.flatten)) := by
  rw [ofBlocks, start, Cursor.tokens_start, Lexer.items_eq_scan]
  exact congrArg scan (Source.items_eq (LineReader.yields_ofBlocks blocks))

/-- A session over lines is at some token of the readable text, and its reader has been asked for what this
token takes. -/
theorem visited_ofBlocks {blocks : List (List UInt8)} {commands : List Command}
    {x : Session (Lexer LineReader)} (hx : x ∈ (ofBlocks blocks).visited commands) :
    ∃ n, x.cursor.tokens = (scan (readableText (byteLines blocks.flatten))).drop n ∧
      x.cursor.current = (textEnds (readableText (byteLines blocks.flatten)))[n]?.map Prod.fst ∧
      x.cursor.rest.source =
        Source.after (requests (readableText (byteLines blocks.flatten)) n) (.ofBlocks blocks) :=
  visited_ofSource (LineReader.yields_ofBlocks blocks) hx

/-- Whatever is asked of it, a session over lines answers as one over the readable text does and stands on
the same token, however the bytes arrive. If these are UTF-8, the readable text is all of their text, there
is no fault and nothing is written. If they are not, there is at most one fault, and one once the end is
reached, and then the line about it is all that has been written. -/
theorem answers_ofBlocks (blocks : List (List UInt8)) (commands : List Command) :
    let lines := byteLines blocks.flatten
    let whole := ofString (String.ofList (readableText lines))
    (ofBlocks blocks).cursor.current = whole.cursor.current ∧
      (ofBlocks blocks).answers commands = whole.answers commands ∧
      match decodeUtf8? blocks.flatten with
      | some cs =>
          readableText lines = cs ∧
            ∀ x ∈ (ofBlocks blocks).visited commands,
              x.cursor.rest.source.faults = 0 ∧ x.cursor.rest.source.report = ""
      | none =>
          ∀ x ∈ (ofBlocks blocks).visited commands,
            let reader := x.cursor.rest.source
            (reader.faults = 0 ∧ reader.report = "" ∨
              reader.faults = 1 ∧
                reader.report = "Error: failed to read input: stream did not contain valid UTF-8\n") ∧
            (x.cursor.current = none →
              reader.faults = 1 ∧
                reader.report = "Error: failed to read input: stream did not contain valid UTF-8\n") := by
  intro lines whole
  have htokens : whole.cursor.tokens = (ofBlocks blocks).cursor.tokens := by
    rw [tokens_ofBlocks]
    refine (tokens_start_ofText _).trans ?_
    rw [lex_eq_scan, String.toList_ofList]
  have hops : whole.ops = (ofBlocks blocks).ops := rfl
  refine ⟨(Cursor.bisimulation_tokens.current htokens).symm, answers_eq hops htokens commands, ?_⟩
  cases hbytes : decodeUtf8? blocks.flatten with
  | some cs =>
      refine ⟨readableText_of_decodeUtf8? hbytes, ?_⟩
      intro x hx
      obtain ⟨n, _, _, hsource⟩ := visited_ofBlocks hx
      have hfaults := LineReader.faults_after_requests blocks n
      rw [hbytes, ← hsource] at hfaults
      exact ⟨hfaults, LineReader.report_of_faults_eq_zero hfaults⟩
  | none =>
      intro x hx
      obtain ⟨n, _, hcurrent, hsource⟩ := visited_ofBlocks hx
      have hfaults := LineReader.faults_after_requests blocks n
      rw [hbytes, ← hsource] at hfaults
      constructor
      · rcases hfaults.1 with hzero | hone
        · exact .inl ⟨hzero, LineReader.report_of_faults_eq_zero hzero⟩
        · exact .inr ⟨hone, LineReader.report_of_faults_eq_one hone⟩
      · intro hend
        have hone := hfaults.2 (by simpa [hend] using hcurrent.symm)
        exact ⟨hone, LineReader.report_of_faults_eq_one hone⟩

/-- A source is read no further than the current token needs. The number of characters that have been
pulled is the offset just past the text of the token, with one more behind a word or a numeral, if there is
one, and all of them at the end. Of lines, those through the one in which the text of the token ends have
been taken, and at the end all of them or those through the first one that is not UTF-8. -/
theorem reads_through_current {σ : Type} [Source σ Char] {pulled : σ → Nat}
    (hpulled : Source.Counts pulled) {s : σ} {cs : List Char} (hs : Source.Yields s cs) (calls : Nat)
    (blocks : List (List UInt8)) (commands : List Command) :
    (Source.trace calls (Lexer.ofSource s ⟨cs, hs⟩)).map (fun x => (x.1, pulled x.2.source)) =
        (List.range calls).map (fun n =>
          ((textEnds cs)[n]?.map Prod.fst, pulled s + pulledThrough cs n)) ∧
      (∀ x ∈ (start (Lexer.ofSource s ⟨cs, hs⟩)).visited commands, ∃ n,
        x.cursor.tokens = (scan cs).drop n ∧ x.cursor.current = (textEnds cs)[n]?.map Prod.fst ∧
          pulled x.cursor.rest.source = pulled s + pulledThrough cs n) ∧
      ∀ x ∈ (ofBlocks blocks).visited commands, ∃ n,
        let lines := byteLines blocks.flatten
        x.cursor.tokens = (scan (readableText lines)).drop n ∧
          x.cursor.current = (textEnds (readableText lines))[n]?.map Prod.fst ∧
          x.cursor.rest.source.consumed =
            match (textEnds (readableText lines))[n]? with
            | some (_, stop) => bytesThrough lines (stop - 1)
            | none => (lines.take ((readable lines).length + 1)).flatten.length := by
  have hextent (n : Nat) : pulled (Source.after (requests cs n) s) = pulled s + pulledThrough cs n := by
    rw [hpulled.after hs (requests_le cs n), min_requests]
  refine ⟨?_, ?_, ?_⟩
  · rw [Source.trace_eq_map, List.map_map]
    refine List.map_congr_left fun n _ => ?_
    obtain ⟨hanswer, hsource⟩ := Lexer.next_after hs n
    exact Prod.ext hanswer ((congrArg pulled hsource).trans (hextent n))
  · intro x hx
    obtain ⟨n, htokens, hcurrent, hsource⟩ := visited_ofSource hs hx
    exact ⟨n, htokens, hcurrent, (congrArg pulled hsource).trans (hextent n)⟩
  · intro x hx
    obtain ⟨n, htokens, hcurrent, hsource⟩ := visited_ofBlocks hx
    exact ⟨n, htokens, hcurrent, hsource ▸ LineReader.consumed_after_requests blocks n⟩

/-- A name is known when the character behind it has been seen, and a symbol at once. -/
theorem reads_through_current_sum :
    Source.Counts Text.pulled ∧ Source.Yields (Text.ofString "a+b") ['a', '+', 'b'] ∧
      (Source.trace 4 (Lexer.ofText (.ofString "a+b"))).map (fun x => (x.1, x.2.source.pulled)) =
        [(some (.ident "a"), 2), (some (.symbol '+'), 2), (some (.ident "b"), 3), (none, 3)] := by
  have hs : Source.Yields (Text.ofString "a+b") ['a', '+', 'b'] := Text.yields _ 0
  have hspans : spans ['a', '+', 'b'] =
      [(.ident "a", ['+', 'b']), (.symbol '+', ['b']), (.ident "b", [])] := by
    have hfirst : Takes ['a', '+', 'b'] (.ident "a") ['+', 'b'] := .word rfl
    have hsecond : Takes ['+', 'b'] (.symbol '+') ['b'] := .symbol (by decide)
    have hthird : Takes ['b'] (.ident "b") [] := .word rfl
    rw [hfirst.spans, hsecond.spans, hthird.spans, spans_nil]
  have hends : textEnds ['a', '+', 'b'] = [(.ident "a", 1), (.symbol '+', 2), (.ident "b", 3)] := by
    rw [textEnds, hspans]
    rfl
  refine ⟨Text.counts_pulled, hs, (reads_through_current Text.counts_pulled hs 4 [] []).1.trans ?_⟩
  simp only [pulledThrough, hends]
  rfl

end Session

end ExprLang
