import ExprLang.Source

/-!
# Bytes read by lines

A line reader takes bytes a whole line at a time, and the next line only when the characters of the
last one are used up. The bytes arrive in blocks of any size; where one block ends and the next
begins makes no difference. A line that is not UTF-8 is taken whole, counted as a fault and answered
by an end, and the reader resumes with the line after it.
-/

namespace ExprLang

/-- The characters that the bytes encode, unless they are not UTF-8. -/
def decodeUtf8? (bytes : List UInt8) : Option (List Char) :=
  bytes.toByteArray.utf8Decode?.map Array.toList

/-- Takes the bytes through the first line feed, or all of them if there is none. -/
def takeLine : List (List UInt8) → List UInt8 × List (List UInt8)
  | [] => ([], [])
  | block :: blocks =>
      match block.dropWhile (· ≠ 10) with
      | feed :: tail => (block.takeWhile (· ≠ 10) ++ [feed], tail :: blocks)
      | [] =>
          let (line, left) := takeLine blocks
          (block ++ line, left)

/-- A line and the bytes after it are the bytes that were there. -/
theorem takeLine_append_flatten (blocks : List (List UInt8)) :
    (takeLine blocks).1 ++ (takeLine blocks).2.flatten = blocks.flatten := by
  induction blocks with
  | nil => rfl
  | cons block blocks ih =>
      have hsplit : block.takeWhile (· ≠ 10) ++ block.dropWhile (· ≠ 10) = block :=
        List.takeWhile_append_dropWhile
      simp only [takeLine]
      split
      next feed tail h =>
        rw [h] at hsplit
        rw [List.flatten_cons, List.flatten_cons, ← List.append_assoc,
          List.append_assoc (List.takeWhile _ _), List.singleton_append, hsplit]
      next h =>
        simp [ih]

/-- A reader of lines: the bytes that are still to come, how many have been taken, the characters
left of the last line, and the number of lines that were not UTF-8. -/
structure LineReader where
  blocks : List (List UInt8)
  consumed : Nat
  pending : List Char
  faults : Nat

namespace LineReader

/-- A reader of which nothing has been taken. -/
def ofBlocks (blocks : List (List UInt8)) : LineReader := ⟨blocks, 0, [], 0⟩

/-- Takes the next character, and a line before it if none is pending. -/
def next (r : LineReader) : Option Char × LineReader :=
  match r.pending with
  | c :: cs => (some c, { r with pending := cs })
  | [] =>
      let (line, left) := takeLine r.blocks
      let consumed := r.consumed + line.length
      match decodeUtf8? line with
      | some (c :: cs) => (some c, ⟨left, consumed, cs, r.faults⟩)
      | some [] => (none, ⟨left, consumed, [], r.faults⟩)
      | none => (none, ⟨left, consumed, [], r.faults + 1⟩)

instance : Source LineReader Char := ⟨next⟩

/-- The report of one line that is not UTF-8. -/
def faultReport : String :=
  "Error: failed to read input: stream did not contain valid UTF-8\n"

/-- What the reader has reported so far, one line a fault. -/
def report (r : LineReader) : String :=
  String.join (List.replicate r.faults faultReport)

/-- Decoded characters come from at least one byte. -/
theorem ne_nil_of_decodeUtf8?_cons {bytes : List UInt8} {c : Char} {cs : List Char}
    (h : decodeUtf8? bytes = some (c :: cs)) : bytes ≠ [] := by
  intro hbytes
  subst hbytes
  simp [decodeUtf8?] at h

/-- Every reader ends, because each line that has characters takes bytes away. -/
theorem ends (r : LineReader) : Source.Ends r := by
  obtain ⟨blocks, consumed, pending, faults⟩ := r
  induction hsize : blocks.flatten.length using Nat.strongRecOn
    generalizing blocks consumed pending faults with
  | ind size ih =>
      induction pending generalizing consumed faults with
      | cons c cs ihPending =>
          obtain ⟨as, has⟩ := ihPending consumed faults
          exact ⟨c :: as, .more rfl has⟩
      | nil =>
          cases hline : decodeUtf8? (takeLine blocks).1 with
          | none => exact ⟨[], .done (by simp only [Source.next, next, hline]; rfl)⟩
          | some cs =>
              cases cs with
              | nil => exact ⟨[], .done (by simp only [Source.next, next, hline]; rfl)⟩
              | cons c cs =>
                  have hbytes := congrArg List.length (takeLine_append_flatten blocks)
                  have hpos := List.length_pos_iff.mpr (ne_nil_of_decodeUtf8?_cons hline)
                  rw [List.length_append] at hbytes
                  obtain ⟨as, has⟩ := ih _ (by omega) (takeLine blocks).2
                    (consumed + (takeLine blocks).1.length) cs faults rfl
                  exact ⟨c :: as, .more (by simp only [Source.next, next, hline]) has⟩

end LineReader

end ExprLang
