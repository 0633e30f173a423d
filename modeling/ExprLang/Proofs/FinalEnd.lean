import ExprLang.Proofs.BufferedLexing
import ExprLang.Proofs.Lookahead

/-!
# The end of input is final

A lexer keeps the end that it has seen. Here it is shown that this needs no rule of its own. Over a buffered
source, which may resume when an end has been taken from it, the loops of the lexer make the same requests
as the lexer itself, so an end always goes back into the buffer before a token is answered.

A feed answers from an infinite sequence in which characters may follow an end. The main statement is that
the tokens are those of the characters before the first end, and that nothing behind this end is asked for.
-/

namespace ExprLang

namespace Reading

variable {σ : Type} [Source σ Char]

/-- Takes a number of tokens, and lists each answer with the source that it leaves. -/
def tokens : Nat → Nat → Reading σ (List (Option Token × σ))
  | 0, _ => return []
  | calls + 1, n => do
      let answer ← token n
      let source := (← get).source
      return (answer, source) :: (← tokens calls n)

/-- Tokens that are taken one after another are those that the lexer answers, and each leaves the source
where the lexer leaves it. -/
theorem halts_tokens (calls : Nat) (l : Lexer σ) :
    Halts (tokens calls) l.buffered
      ((Source.trace calls l).map (fun x => (x.1, x.2.source)), (Source.after calls l).buffered) := by
  induction calls generalizing l with
  | zero => exact halts_pure [] _
  | succ calls ih =>
      apply (halts_token l).seq
      refine halts_modifyGet (g := fun b => (b, b)) rfl ?_
      exact (ih l.next.2).seq (halts_pure _ _)

end Reading

/-- Entries by number, with `none` behind the last one. -/
theorem map_range_getElem? {α : Type} (xs : List α) (n : Nat) :
    (List.range n).map (fun i => xs[i]?) = (xs.map some ++ List.replicate n none).take n := by
  apply List.ext_getElem (by simp)
  intro i _ _
  by_cases hxs : i < xs.length
  · simp [hxs]
  · simp [List.getElem_append, hxs]

/-- A source that answers from an infinite sequence, with the number of requests that have been made. -/
structure Feed where
  answers : Nat → Option Char
  asked : Nat

namespace Feed

/-- Answers with the next entry of the sequence, be it a character or an end. -/
def next (f : Feed) : Option Char × Feed := (f.answers f.asked, { f with asked := f.asked + 1 })

instance : Source Feed Char := ⟨next⟩

/-- A feed counts its requests. -/
theorem asked_after (n : Nat) (f : Feed) : (Source.after n f).asked = f.asked + n := by
  induction n generalizing f with
  | zero => rfl
  | succ n ih =>
      rw [Source.after, ih]
      change f.asked + 1 + n = f.asked + (n + 1)
      omega

/-- The characters before position `stop`. -/
def before (answers : Nat → Option Char) (stop : Nat) : List Char := (List.range stop).filterMap answers

variable {answers : Nat → Option Char}

/-- A feed that has `count` characters before its first end yields these. -/
theorem yields_range' {first count : Nat} (hend : answers (first + count) = none)
    (hsome : ∀ i < count, answers (first + i) ≠ none) :
    Source.Yields (Feed.mk answers first) ((List.range' first count).filterMap answers) ∧
      ((List.range' first count).filterMap answers).length = count := by
  induction count generalizing first with
  | zero => exact ⟨.done (Prod.ext hend rfl), rfl⟩
  | succ count ih =>
      have hrest : ∀ i < count, answers (first + 1 + i) ≠ none := by
        intro i hi
        rw [Nat.add_right_comm]
        exact hsome (i + 1) (Nat.succ_lt_succ hi)
      obtain ⟨hyields, hlength⟩ := ih (by rwa [Nat.add_right_comm]) hrest
      obtain ⟨c, hc⟩ := Option.ne_none_iff_exists'.mp (hsome 0 (Nat.succ_pos count))
      have hc : answers first = some c := hc
      rw [List.range'_succ, List.filterMap_cons_some hc]
      exact ⟨.more (Prod.ext hc rfl) hyields, congrArg Nat.succ hlength⟩

variable {stop : Nat}

/-- A feed yields the characters before its first end. -/
theorem yields_before (hstop : answers stop = none) (hbefore : ∀ i < stop, answers i ≠ none) :
    Source.Yields (Feed.mk answers 0) (before answers stop) ∧ (before answers stop).length = stop := by
  rw [before, List.range_eq_range']
  apply yields_range'
  · rwa [Nat.zero_add]
  · intro i hi
    rw [Nat.zero_add]
    exact hbefore i hi

/-- A feed with an end in its sequence ends. -/
theorem ends (hstop : answers stop = none) (hbefore : ∀ i < stop, answers i ≠ none) :
    Source.Ends (Feed.mk answers 0) := ⟨_, (yields_before hstop hbefore).1⟩

/-- The end of input is final, whatever the source answers when it is asked again. The tokens are those of
the characters before the first end, and then there are only ends; the source is never asked again when it
has answered an end, and it has answered it when there is no token left. Loops over a buffer that lets go
of an end when it is taken, and does not remember it, answer the same and ask for the same. -/
theorem lexer_end_final (answers : Nat → Option Char) (stop : Nat) (hstop : answers stop = none)
    (hbefore : ∀ i < stop, answers i ≠ none) (calls : Nat) :
    let results := (Source.trace calls (Lexer.ofSource (Feed.mk answers 0) (ends hstop hbefore))).map
      fun x => (x.1, x.2.source.asked)
    results.map Prod.fst =
        ((lex (String.ofList (before answers stop))).map some ++ List.replicate calls none).take calls ∧
      (∀ x ∈ results, x.2 ≤ stop + 1 ∧ (x.1 = none → x.2 = stop + 1)) ∧
      ∃ rows last, Halts (Reading.tokens calls) (.ofSource (Feed.mk answers 0)) (rows, last) ∧
        rows.map (fun x => (x.1, x.2.asked)) = results := by
  intro results
  obtain ⟨hyields, hlength⟩ := yields_before hstop hbefore
  have hresults : results = (List.range calls).map fun n =>
      ((textEnds (before answers stop))[n]?.map Prod.fst, requests (before answers stop) n) := by
    unfold results
    rw [Source.trace_eq_map, List.map_map]
    refine List.map_congr_left fun n _ => ?_
    obtain ⟨hanswer, hsource⟩ := Lexer.next_after hyields n
    refine Prod.ext hanswer ((congrArg asked hsource).trans ?_)
    rw [asked_after, Nat.zero_add]
  refine ⟨?_, ?_, ?_⟩
  · rw [hresults, List.map_map, lex_eq_scan, String.toList_ofList, ← map_fst_textEnds,
      ← map_range_getElem?]
    refine List.map_congr_left fun n _ => ?_
    rw [List.getElem?_map]
    rfl
  · rw [hresults]
    intro x hx
    obtain ⟨n, _, rfl⟩ := List.mem_map.mp hx
    have hle := requests_le (before answers stop) n
    rw [hlength] at hle
    refine ⟨hle, fun hnone => ?_⟩
    have hlast : (textEnds (before answers stop))[n]? = none := Option.map_eq_none_iff.mp hnone
    simp only [requests, hlast, hlength]
  · refine ⟨_, _, Reading.halts_tokens calls (Lexer.ofSource _ (ends hstop hbefore)), ?_⟩
    rw [List.map_map]
    rfl

/-- The end is met within a comment, and the sequence goes on behind it with names. -/
theorem lexer_end_final_comment :
    let answers : Nat → Option Char := fun i => [some 'x', some '#', none].getD i (some 'y')
    ∃ (hstop : answers 2 = none) (hbefore : ∀ i < 2, answers i ≠ none),
      let results := (Source.trace 4 (Lexer.ofSource (Feed.mk answers 0) (ends hstop hbefore))).map
        fun x => (x.1, x.2.source.asked)
      results.map Prod.fst = [some (.ident "x"), none, none, none] ∧ ∀ x ∈ results, x.2 ≤ 3 := by
  intro answers
  have hstop : answers 2 = none := rfl
  have hbefore : ∀ i < 2, answers i ≠ none := by decide
  obtain ⟨htokens, hasked, _⟩ := lexer_end_final answers 2 hstop hbefore 4
  have hlex : lex (String.ofList (before answers 2)) = [.ident "x"] := by
    have hname : Takes (before answers 2) (.ident "x") ['#'] := .word rfl
    rw [lex_eq_scan, String.toList_ofList, hname.scan, scan_comment, List.dropWhile_nil, scan_nil]
  rw [hlex] at htokens
  exact ⟨hstop, hbefore, htokens, fun x hx => (hasked x hx).1⟩

end Feed

end ExprLang
