import ExprLang.Proofs.Lines

/-!
# Everything that a line reader answers

A lexer asks its reader for nothing behind the first end, but a reader can be asked on. It then goes
through all lines in order: a line that is UTF-8 is answered by its characters, one that is not by a
single end and a report, and behind the last line there are ends without a report. `answersFrom` lists
these answers, each with the lines that have been taken when it is given, so that the number of bytes and
the reports are read off the same list. What arrives in which block has no part in it.
-/

namespace ExprLang

/-- The lines of the bytes put together again are the bytes. -/
theorem flatten_byteLines (bytes : List UInt8) : (byteLines bytes).flatten = bytes := by
  induction bytes using line_induction with
  | nil => rfl
  | last w hw hne => rw [byteLines_of_not_mem hw hne, List.flatten_singleton]
  | line w bytes hw ih => rw [byteLines_append_feed hw, List.flatten_cons, ih, List.append_assoc,
      List.singleton_append]

/-- What a line answers: its characters, or one end if it is not UTF-8. -/
def lineAnswers (line : List UInt8) : List (Option Char) :=
  match decodeUtf8? line with
  | some cs => cs.map some
  | none => [none]

/-- The answers of the lines in order, each with the lines through the one that it comes from. The lines
of `taken` stand in front of all. -/
def answersFrom (taken : List (List UInt8)) :
    List (List UInt8) → List (Option Char × List (List UInt8))
  | [] => []
  | line :: lines =>
      (lineAnswers line).map (·, taken ++ [line]) ++ answersFrom (taken ++ [line]) lines

/-- Without the lines these are the answers of one line after another. -/
theorem map_fst_answersFrom (taken lines : List (List UInt8)) :
    (answersFrom taken lines).map Prod.fst = lines.flatMap lineAnswers := by
  induction lines generalizing taken with
  | nil => rfl
  | cons line lines ih =>
      rw [answersFrom, List.map_append, ih, List.flatMap_cons, List.map_map]
      congr 1
      exact List.map_id _

/-- Of these lines the ones that are not UTF-8. -/
def faulty (lines : List (List UInt8)) : List (List UInt8) :=
  lines.filter fun line => (decodeUtf8? line).isNone

/-- What is written about the lines: one line of text for each one that is not UTF-8. -/
def faultReports (lines : List (List UInt8)) : String :=
  String.join ((faulty lines).map fun _ =>
    "Error: failed to read input: stream did not contain valid UTF-8\n")

/-- What is seen of an answer: the answer, how many bytes have been taken, how many of the lines were not
UTF-8, and all that has been written about them. -/
def observed (x : Option Char × List (List UInt8)) : Option Char × Nat × Nat × String :=
  (x.1, x.2.flatten.length, (faulty x.2).length, faultReports x.2)

namespace LineReader

/-- The reader has taken the lines of `taken`, and those of `lines` are the lines that it had at first. -/
structure HasTaken (lines taken : List (List UInt8)) (r : LineReader) : Prop where
  lines_eq : taken ++ byteLines r.blocks.flatten = lines
  consumed_eq : r.consumed = taken.flatten.length
  faults_eq : r.faults = (faulty taken).length

/-- The answers that a reader has still to give: the characters that are pending, and the answers of the
lines that it has not taken. -/
def upcoming (taken : List (List UInt8)) (r : LineReader) : List (Option Char × List (List UInt8)) :=
  r.pending.map (some ·, taken) ++ answersFrom taken (byteLines r.blocks.flatten)

variable {lines taken : List (List UInt8)} {r : LineReader}

/-- A reader that has taken some lines has reported those that are not UTF-8. -/
theorem HasTaken.report_eq (h : r.HasTaken lines taken) : r.report = faultReports taken := by
  rw [report, faultReports, h.faults_eq, List.map_const', faultReport]

/-- Taking a line goes on to it, and is a fault if it is not UTF-8. -/
theorem HasTaken.take {line : List UInt8} {left : List (List UInt8)} (h : r.HasTaken lines taken)
    (hlines : byteLines r.blocks.flatten = line :: byteLines left.flatten) (pending : List Char) :
    HasTaken lines (taken ++ [line])
      ⟨left, r.consumed + line.length, pending, r.faults + (faulty [line]).length⟩ := by
  obtain ⟨hall, hconsumed, hfaults⟩ := h
  constructor
  · rw [← hall, hlines, List.append_assoc, List.singleton_append]
  · simp [hconsumed]
  · simp [faulty, hfaults]

/-- Behind the last line no line is left. -/
theorem byteLines_of_done (hpending : r.pending = []) (hlines : byteLines r.blocks.flatten = []) :
    byteLines (Source.next r).2.blocks.flatten = [] := by
  have hbytes : r.blocks.flatten = [] := by rw [← flatten_byteLines r.blocks.flatten, hlines, List.flatten_nil]
  have hline := takeLine_append_flatten r.blocks
  rw [hbytes, List.append_eq_nil_iff] at hline
  have hleft : (Source.next r).2.blocks = (takeLine r.blocks).2 := by
    simp only [Source.next, next, hpending, hline.1]
    rfl
  rw [hleft, hline.2]
  rfl

/-- A request is answered by the first of the answers to come, and by an end if there are none. -/
theorem HasTaken.next (h : r.HasTaken lines taken) :
    ∃ taken', (Source.next r).2.HasTaken lines taken' ∧
      (r.upcoming taken = ((Source.next r).1, taken') :: (Source.next r).2.upcoming taken' ∨
        r.upcoming taken = [] ∧ (Source.next r).2.upcoming taken' = [] ∧
          (Source.next r).1 = none ∧ taken' = lines) := by
  cases r.answers with
  | pending c cs hpending hnext =>
      rw [hnext]
      refine ⟨taken, ⟨h.lines_eq, h.consumed_eq, h.faults_eq⟩, .inl ?_⟩
      simp [upcoming, hpending]
  | done left hpending hlines hnext =>
      have hleft := byteLines_of_done hpending hlines
      have htaken : taken = lines := by rw [← h.lines_eq, hlines, List.append_nil]
      rw [hnext] at hleft ⊢
      refine ⟨taken, ⟨?_, h.consumed_eq, h.faults_eq⟩, .inr ⟨?_, ?_, rfl, htaken⟩⟩
      · rw [hleft, List.append_nil, htaken]
      · simp [upcoming, hpending, hlines, answersFrom]
      · simp [upcoming, hleft, answersFrom]
  | fault line left hpending hlines hline hnext =>
      have htaken := h.take hlines []
      simp only [faulty, hline, List.filter_cons, Option.isNone_none, if_true, List.filter_nil,
        List.length_singleton] at htaken
      rw [hnext]
      refine ⟨taken ++ [line], htaken, .inl ?_⟩
      simp [upcoming, hpending, hlines, answersFrom, lineAnswers, hline]
  | line line left c cs hpending hlines hline hnext =>
      have htaken := h.take hlines cs
      simp only [faulty, hline, List.filter_cons, Option.isNone_some, Bool.false_eq_true, if_false,
        List.filter_nil, List.length_nil, Nat.add_zero] at htaken
      rw [hnext]
      refine ⟨taken ++ [line], htaken, .inl ?_⟩
      simp [upcoming, hpending, hlines, answersFrom, lineAnswers, hline]

/-- Requests are answered by the answers to come, one after another, and by ends behind the last one.
Each time the bytes of the lines have been taken that the answer stands with, and their faults reported. -/
theorem HasTaken.trace (h : r.HasTaken lines taken) (n : Nat) :
    (Source.trace n r).map (fun x => (x.1, x.2.consumed, x.2.faults, x.2.report)) =
      ((r.upcoming taken ++ List.replicate n (none, lines)).take n).map observed := by
  induction n generalizing r taken with
  | zero => rfl
  | succ n ih =>
      obtain ⟨taken', hnext, hanswer⟩ := h.next
      rw [Source.trace, List.map_cons, ih hnext, hnext.consumed_eq, hnext.faults_eq, hnext.report_eq]
      rcases hanswer with hcons | ⟨hnil, hnil', hend, rfl⟩
      · -- the last of the ends is more than is asked for
        have hmore : n ≤ ((Source.next r).2.upcoming taken' ++ List.replicate n (none, lines)).length := by
          simp
        rw [hcons, List.cons_append, List.take_succ_cons, List.map_cons, List.replicate_succ',
          ← List.append_assoc, List.take_append_of_le_length hmore]
        rfl
      · rw [hnil, hnil', hend, List.nil_append, List.nil_append, List.replicate_succ,
          List.take_succ_cons, List.map_cons]
        rfl

/-- However the bytes arrive, a reader that is asked `n` times goes through their lines: for each line it
answers the characters, or one end if the line is not UTF-8, and then ends. With each answer the lines
have been taken through the one that it comes from, and each of these that is not UTF-8 has been counted
and has had one line written about it; with the ends behind the last line all bytes have been taken, and
nothing more is counted or written. -/
theorem trace_ofBlocks (blocks : List (List UInt8)) (n : Nat) :
    (Source.trace n (ofBlocks blocks)).map Prod.fst =
        ((byteLines blocks.flatten).flatMap lineAnswers ++ List.replicate n none).take n ∧
      (Source.trace n (ofBlocks blocks)).map (fun x => (x.1, x.2.consumed, x.2.faults, x.2.report)) =
        ((answersFrom [] (byteLines blocks.flatten)).map observed ++
          List.replicate n (none, blocks.flatten.length, (faulty (byteLines blocks.flatten)).length,
            faultReports (byteLines blocks.flatten))).take n := by
  have hstart : HasTaken (byteLines blocks.flatten) [] (ofBlocks blocks) := ⟨rfl, rfl, rfl⟩
  have htrace := hstart.trace n
  have hupcoming : (ofBlocks blocks).upcoming [] = answersFrom [] (byteLines blocks.flatten) := rfl
  rw [hupcoming, List.map_take, List.map_append, List.map_replicate, observed, flatten_byteLines] at htrace
  refine ⟨?_, htrace⟩
  have hfst := congrArg (List.map Prod.fst) htrace
  rw [List.map_map, List.map_take, List.map_append, List.map_map, List.map_replicate] at hfst
  rw [← map_fst_answersFrom []]
  exact hfst

end LineReader

end ExprLang
