import ExprLang.Proofs.Lookahead

/-!
# Lines of bytes

The lines of bytes go through their line feeds. A line reader takes them one by one, wherever the blocks
end in which the bytes arrive, and answers the characters of those that are readable: the lines in front
of the first one that is not UTF-8. No character but a line feed is encoded with its byte, so bytes that
are UTF-8 as a whole are so line by line, and their characters are those of the lines.

How far a reader has gone follows from the number of requests: each asks for one character, and the lines
through the one that holds this character have been taken.
-/

namespace ExprLang

/-- The lines of the bytes, each through its line feed; the last one may be without. -/
def byteLines : List UInt8 → List (List UInt8)
  | [] => []
  | b :: bytes =>
      if b = 10 then [b] :: byteLines bytes
      else
        match byteLines bytes with
        | [] => [[b]]
        | line :: lines => (b :: line) :: lines

/-- A line feed ends the first line. -/
theorem byteLines_append_feed {w : List UInt8} (hw : 10 ∉ w) (bytes : List UInt8) :
    byteLines (w ++ 10 :: bytes) = (w ++ [10]) :: byteLines bytes := by
  induction w with
  | nil => simp [byteLines]
  | cons b w ih =>
      obtain ⟨hb, hw⟩ := List.ne_and_not_mem_of_not_mem_cons hw
      simp [byteLines, Ne.symm hb, ih hw]

/-- Bytes without a line feed are one line. -/
theorem byteLines_of_not_mem {w : List UInt8} (hw : 10 ∉ w) (hne : w ≠ []) : byteLines w = [w] := by
  induction w with
  | nil => exact absurd rfl hne
  | cons b w ih =>
      obtain ⟨hb, hw⟩ := List.ne_and_not_mem_of_not_mem_cons hw
      cases w with
      | nil => simp [byteLines, Ne.symm hb]
      | cons c w =>
          rw [byteLines, ih hw (by simp)]
          simp [Ne.symm hb]

/-- Induction on bytes by lines. -/
theorem line_induction {P : List UInt8 → Prop} (nil : P []) (last : ∀ w, 10 ∉ w → w ≠ [] → P w)
    (line : ∀ w bytes, 10 ∉ w → P bytes → P (w ++ 10 :: bytes)) (bytes : List UInt8) : P bytes := by
  induction hsize : bytes.length using Nat.strongRecOn generalizing bytes with
  | ind size ih =>
      by_cases hfeed : 10 ∈ bytes
      · obtain ⟨w, rest, rfl, hw⟩ := List.eq_append_cons_of_mem hfeed
        refine line w rest hw (ih rest.length ?_ rest rfl)
        simp only [List.length_append, List.length_cons] at hsize
        omega
      · by_cases hbytes : bytes = []
        · exact hbytes ▸ nil
        · exact last bytes hfeed hbytes

/-- A line that is taken has one line feed, at its end, or is all there is. -/
theorem takeLine_cases (blocks : List (List UInt8)) :
    (∃ w, 10 ∉ w ∧ (takeLine blocks).1 = w ++ [10]) ∨
      10 ∉ (takeLine blocks).1 ∧ (takeLine blocks).2 = [] := by
  induction blocks with
  | nil => exact .inr ⟨List.not_mem_nil, rfl⟩
  | cons block blocks ih =>
      have hwithout : 10 ∉ block.takeWhile (· ≠ 10) := fun h => by
        simpa using List.mem_takeWhile_imp h
      simp only [takeLine]
      split
      next feed tail h =>
        have hfeed : feed = 10 := by
          have hhead := List.head?_dropWhile_not (fun b : UInt8 => decide (b ≠ 10)) block
          rw [h] at hhead
          simpa using hhead
        exact .inl ⟨_, hwithout, by rw [hfeed]⟩
      next h =>
        have hblock : 10 ∉ block := by
          rw [← List.takeWhile_append_dropWhile (p := fun b : UInt8 => decide (b ≠ 10)) (l := block), h,
            List.append_nil]
          exact hwithout
        rcases ih with ⟨w, hw, hline⟩ | ⟨hline, hleft⟩
        · refine .inl ⟨block ++ w, ?_, by simp only [hline, List.append_assoc]⟩
          simp [hblock, hw]
        · refine .inr ⟨?_, hleft⟩
          simp [hblock, hline]

/-- If there are bytes, a line has some. -/
theorem takeLine_fst_ne_nil {blocks : List (List UInt8)} (h : blocks.flatten ≠ []) :
    (takeLine blocks).1 ≠ [] := by
  rcases takeLine_cases blocks with ⟨w, _, hline⟩ | ⟨_, hleft⟩
  · simp [hline]
  · simpa [← takeLine_append_flatten blocks, hleft] using h

/-- Taking a line takes the first line of the bytes, wherever the blocks end. -/
theorem byteLines_flatten {blocks : List (List UInt8)} (h : blocks.flatten ≠ []) :
    byteLines blocks.flatten = (takeLine blocks).1 :: byteLines (takeLine blocks).2.flatten := by
  have hbytes := takeLine_append_flatten blocks
  rcases takeLine_cases blocks with ⟨w, hw, hline⟩ | ⟨hline, hleft⟩
  · rw [hline, List.append_assoc, List.singleton_append] at hbytes
    rw [← hbytes, byteLines_append_feed hw, hline]
  · rw [hleft, List.flatten_nil, List.append_nil] at hbytes
    rw [hleft, hbytes, List.flatten_nil, byteLines_of_not_mem (hbytes ▸ hline) h]
    rfl

/-- Bytes are decoded to the characters that they encode. -/
theorem decodeUtf8?_eq_some_iff {bytes : List UInt8} {cs : List Char} :
    decodeUtf8? bytes = some cs ↔ bytes = cs.flatMap String.utf8EncodeChar := by
  rw [decodeUtf8?, ← List.toByteArray_inj, ← List.utf8Encode]
  constructor
  · intro h
    obtain ⟨decoded, hdecoded, rfl⟩ := Option.map_eq_some_iff.mp h
    have hsome : bytes.toByteArray.utf8Decode?.isSome = true := Option.isSome_of_eq_some hdecoded
    have hencoded := ByteArray.utf8Encode_get_utf8Decode? (h := hsome)
    simpa only [hdecoded, Option.get_some] using hencoded.symm
  · intro h
    rw [h, List.utf8Decode?_utf8Encode, Option.map_some]

/-- No character but the line feed is encoded with its byte. -/
theorem eq_feed_of_mem_utf8EncodeChar {c : Char} (h : 10 ∈ String.utf8EncodeChar c) : c = '\n' := by
  have hvalue : c.toNat = 10 := by
    revert h
    rw [Char.toNat]
    fun_cases String.utf8EncodeChar c
    all_goals
      simp only [List.mem_cons, List.not_mem_nil, or_false, ← UInt8.toNat_inj, UInt8.toNat_ofNat',
        UInt8.reduceToNat]
      omega
  rw [← Char.ofNat_toNat c, hvalue]

/-- Characters that are encoded with the byte of a line feed have one there. -/
theorem decodeUtf8?_append_feed {w bytes : List UInt8} {cs : List Char}
    (h : decodeUtf8? (w ++ 10 :: bytes) = some cs) :
    ∃ as bs, decodeUtf8? w = some as ∧ decodeUtf8? bytes = some bs ∧ cs = as ++ '\n' :: bs := by
  simp only [decodeUtf8?_eq_some_iff] at h ⊢
  induction cs generalizing w with
  | nil => simp at h
  | cons c cs ih =>
      have hlater {u : List UInt8} (hw : w = String.utf8EncodeChar c ++ u)
          (hrest : u ++ 10 :: bytes = cs.flatMap String.utf8EncodeChar) :
          ∃ as bs : List Char, w = as.flatMap String.utf8EncodeChar ∧
            bytes = bs.flatMap String.utf8EncodeChar ∧ c :: cs = as ++ '\n' :: bs := by
        obtain ⟨as, bs, rfl, hbs, rfl⟩ := ih hrest
        exact ⟨c :: as, bs, by rw [hw, List.flatMap_cons], hbs, rfl⟩
      rw [List.flatMap_cons, List.append_eq_append_iff] at h
      -- the byte is one of the first character, or is encoded behind it
      rcases h with ⟨_ | ⟨b, u⟩, hc, hrest⟩ | ⟨u, hw, hrest⟩
      · exact hlater (by rw [hc, List.append_nil, List.append_nil]) hrest
      · obtain ⟨rfl, rfl⟩ := List.cons.inj hrest
        obtain rfl := eq_feed_of_mem_utf8EncodeChar (c := c) (by simp [hc])
        obtain ⟨rfl, rfl⟩ : w = [] ∧ u = [] := by
          simpa [String.utf8EncodeChar, List.singleton_eq_append_iff] using hc
        exact ⟨[], cs, rfl, rfl, rfl⟩
      · exact hlater hw hrest.symm

/-- Bytes behind a line feed are decoded on their own. -/
theorem decodeUtf8?_line_append (w bytes : List UInt8) :
    decodeUtf8? (w ++ 10 :: bytes) =
      (decodeUtf8? (w ++ [10])).bind fun as => (decodeUtf8? bytes).map (as ++ ·) := by
  ext cs
  simp only [Option.bind_eq_some_iff, Option.map_eq_some_iff]
  constructor
  · intro h
    obtain ⟨as, bs, has, hbs, rfl⟩ := decodeUtf8?_append_feed h
    refine ⟨as ++ ['\n'], ?_, bs, hbs, by simp⟩
    rw [decodeUtf8?_eq_some_iff] at has ⊢
    rw [List.flatMap_append, has]
    rfl
  · rintro ⟨as, has, bs, hbs, rfl⟩
    rw [decodeUtf8?_eq_some_iff] at has hbs ⊢
    rw [List.flatMap_append, ← has, ← hbs, List.append_assoc, List.singleton_append]

/-- The lines in front of the first one that is not UTF-8. -/
def readable (lines : List (List UInt8)) : List (List UInt8) :=
  lines.takeWhile fun line => (decodeUtf8? line).isSome

/-- The characters of the readable lines. -/
def readableText (lines : List (List UInt8)) : List Char :=
  (readable lines).flatMap fun line => (decodeUtf8? line).getD []

@[simp] theorem readableText_nil : readableText [] = [] := rfl

/-- A line that is UTF-8 is read before the others. -/
theorem readableText_cons_of_some {line : List UInt8} {cs : List Char} (h : decodeUtf8? line = some cs)
    (lines : List (List UInt8)) : readableText (line :: lines) = cs ++ readableText lines := by
  simp [readableText, readable, h]

/-- Nothing is read of a line that is not UTF-8, or of the lines behind it. -/
theorem readableText_cons_of_none {line : List UInt8} (h : decodeUtf8? line = none)
    (lines : List (List UInt8)) : readableText (line :: lines) = [] := by
  simp [readableText, readable, h]

/-- Bytes are UTF-8 if all their lines are, and then their characters are those of the lines. -/
theorem decodeUtf8?_eq_ite (bytes : List UInt8) :
    decodeUtf8? bytes =
      if ∀ line ∈ byteLines bytes, (decodeUtf8? line).isSome then some (readableText (byteLines bytes))
      else none := by
  induction bytes using line_induction with
  | nil => rfl
  | last w hw hne =>
      rw [byteLines_of_not_mem hw hne]
      cases hline : decodeUtf8? w with
      | none => simp [hline]
      | some cs => simp [hline, readableText_cons_of_some hline]
  | line w bytes hw ih =>
      rw [byteLines_append_feed hw, decodeUtf8?_line_append, ih]
      cases hline : decodeUtf8? (w ++ [10]) with
      | none => simp [hline]
      | some cs =>
          have hall : (∀ line ∈ (w ++ [10]) :: byteLines bytes, (decodeUtf8? line).isSome) ↔
              ∀ line ∈ byteLines bytes, (decodeUtf8? line).isSome := by
            rw [List.forall_mem_cons, hline]
            simp
          simp only [hall, readableText_cons_of_some hline]
          split
          next => rfl
          next => rfl

/-- Bytes are UTF-8 exactly when all their lines are. -/
theorem isSome_decodeUtf8?_iff (bytes : List UInt8) :
    (decodeUtf8? bytes).isSome ↔ ∀ line ∈ byteLines bytes, (decodeUtf8? line).isSome := by
  rw [decodeUtf8?_eq_ite bytes]
  split
  next h => exact ⟨fun _ => h, fun _ => rfl⟩
  next h => exact ⟨fun hsome => by simp at hsome, fun hall => absurd hall h⟩

/-- Of bytes that are UTF-8 everything can be read. -/
theorem readableText_of_decodeUtf8? {bytes : List UInt8} {cs : List Char}
    (h : decodeUtf8? bytes = some cs) : readableText (byteLines bytes) = cs := by
  rw [decodeUtf8?_eq_ite] at h
  split at h
  next => exact Option.some.inj h
  next => simp at h

/-- The number of bytes of the lines through the one that holds character number `n`, or through the first
one that is not UTF-8 if no line in front of it holds this character. -/
def bytesThrough : List (List UInt8) → Nat → Nat
  | [], _ => 0
  | line :: lines, n =>
      match decodeUtf8? line with
      | some cs => line.length + if n < cs.length then 0 else bytesThrough lines (n - cs.length)
      | none => line.length

/-- Behind the last character of the readable lines the line is taken that cannot be read. -/
theorem bytesThrough_length_readableText (lines : List (List UInt8)) :
    bytesThrough lines (readableText lines).length =
      (lines.take ((readable lines).length + 1)).flatten.length := by
  induction lines with
  | nil => rfl
  | cons line lines ih =>
      cases hline : decodeUtf8? line with
      | none => simp [bytesThrough, readable, hline]
      | some cs =>
          have hbehind : ¬cs.length + (readableText lines).length < cs.length := by omega
          rw [readableText_cons_of_some hline]
          simpa [bytesThrough, readable, hline, hbehind] using ih

/-- A character that is no line feed is in one line with the character behind it. -/
theorem bytesThrough_succ (bytes : List UInt8) {n : Nat} {c : Char} (hc : c ≠ '\n')
    (h : (readableText (byteLines bytes))[n]? = some c) :
    bytesThrough (byteLines bytes) (n + 1) = bytesThrough (byteLines bytes) n := by
  induction bytes using line_induction generalizing n with
  | nil => rfl
  | last w hw hne =>
      rw [byteLines_of_not_mem hw hne]
      simp [bytesThrough]
  | line w bytes hw ih =>
      rw [byteLines_append_feed hw] at h ⊢
      cases hline : decodeUtf8? (w ++ [10]) with
      | none => simp [bytesThrough, hline]
      | some cs =>
          obtain ⟨as, bs, _, hbs, rfl⟩ := decodeUtf8?_append_feed hline
          obtain rfl : [] = bs := Option.some.inj hbs
          rw [readableText_cons_of_some hline] at h
          simp only [bytesThrough, hline, List.length_append, List.length_singleton] at h ⊢
          -- the last character of the line is its line feed, so `n` is in front of it or in a later line
          rcases Nat.lt_trichotomy n as.length with hlt | rfl | hgt
          · rw [if_pos (by omega), if_pos (by omega)]
          · simp [Ne.symm hc] at h
          · rw [List.getElem?_append_right (by simpa using Nat.succ_le_of_lt hgt), List.length_append,
              List.length_singleton] at h
            rw [if_neg (by omega), if_neg (by omega), ← ih h]
            congr 2
            omega

namespace LineReader

/-- The ways in which a reader answers: from the line that it has, at the end of the bytes, at a line that
is not UTF-8, and from a line that it takes. -/
inductive Answers (r : LineReader) : Prop
  | pending (c : Char) (cs : List Char) (hpending : r.pending = c :: cs)
      (hnext : Source.next r = (some c, { r with pending := cs }))
  | done (left : List (List UInt8)) (hpending : r.pending = [])
      (hlines : byteLines r.blocks.flatten = [])
      (hnext : Source.next r = (none, ⟨left, r.consumed, [], r.faults⟩))
  | fault (line : List UInt8) (left : List (List UInt8)) (hpending : r.pending = [])
      (hlines : byteLines r.blocks.flatten = line :: byteLines left.flatten)
      (hline : decodeUtf8? line = none)
      (hnext : Source.next r = (none, ⟨left, r.consumed + line.length, [], r.faults + 1⟩))
  | line (line : List UInt8) (left : List (List UInt8)) (c : Char) (cs : List Char)
      (hpending : r.pending = []) (hlines : byteLines r.blocks.flatten = line :: byteLines left.flatten)
      (hline : decodeUtf8? line = some (c :: cs))
      (hnext : Source.next r = (some c, ⟨left, r.consumed + line.length, cs, r.faults⟩))

/-- Every reader answers in one of these ways. -/
theorem answers (r : LineReader) : r.Answers := by
  obtain ⟨blocks, consumed, pending, faults⟩ := r
  cases pending with
  | cons c cs => exact .pending c cs rfl rfl
  | nil =>
      by_cases hbytes : blocks.flatten = []
      · have hline := takeLine_append_flatten blocks
        rw [hbytes, List.append_eq_nil_iff] at hline
        refine .done (takeLine blocks).2 rfl (congrArg byteLines hbytes) ?_
        simp only [Source.next, next, hline.1]
        rfl
      · have hlines := byteLines_flatten hbytes
        cases hline : decodeUtf8? (takeLine blocks).1 with
        | none => exact .fault _ _ rfl hlines hline (by simp only [Source.next, next, hline])
        | some cs =>
            cases cs with
            | cons c cs => exact .line _ _ c cs rfl hlines hline (by simp only [Source.next, next, hline])
            | nil =>
                rw [decodeUtf8?_eq_some_iff] at hline
                exact absurd hline (takeLine_fst_ne_nil hbytes)

/-- What a reader yields are the characters that are pending and those of the readable lines. -/
theorem eq_of_yields {r : LineReader} {as : List Char} (h : Source.Yields r as) :
    as = r.pending ++ readableText (byteLines r.blocks.flatten) := by
  induction h with
  | @done r t h =>
      cases r.answers with
      | pending c cs _ hnext => simp [h] at hnext
      | done left hpending hlines _ =>
          rw [hpending, hlines]
          rfl
      | fault line left hpending hlines hline _ =>
          rw [hpending, hlines, readableText_cons_of_none hline]
          rfl
      | line line left c cs _ _ _ hnext => simp [h] at hnext
  | @more r t a as h _ ih =>
      cases r.answers with
      | pending c cs hpending hnext =>
          rw [h] at hnext
          obtain ⟨ha, rfl⟩ := Prod.mk.inj hnext
          obtain rfl := Option.some.inj ha
          rw [hpending, ih, List.cons_append]
      | done left _ _ hnext => simp [h] at hnext
      | fault line left _ _ _ hnext => simp [h] at hnext
      | line line left c cs hpending hlines hline hnext =>
          rw [h] at hnext
          obtain ⟨ha, rfl⟩ := Prod.mk.inj hnext
          obtain rfl := Option.some.inj ha
          rw [hpending, hlines, readableText_cons_of_some hline, ih]
          rfl

/-- A reader yields the characters that are pending and those of the readable lines. -/
theorem yields (r : LineReader) :
    Source.Yields r (r.pending ++ readableText (byteLines r.blocks.flatten)) := by
  obtain ⟨as, has⟩ := r.ends
  exact eq_of_yields has ▸ has

/-- A request takes the lines through the one that holds its character, and there is a fault if it is
behind the last character and a line is not UTF-8. -/
theorem after_spec {r : LineReader} {m : Nat}
    (hm : m ≤ (r.pending ++ readableText (byteLines r.blocks.flatten)).length) :
    (Source.after (m + 1) r).consumed =
        r.consumed + (if m < r.pending.length then 0
          else bytesThrough (byteLines r.blocks.flatten) (m - r.pending.length)) ∧
      (Source.after (m + 1) r).faults =
        r.faults + (if m < (r.pending ++ readableText (byteLines r.blocks.flatten)).length ∨
          ∀ line ∈ byteLines r.blocks.flatten, (decodeUtf8? line).isSome then 0 else 1) := by
  induction m generalizing r with
  | zero =>
      rw [Source.after, Source.after]
      cases r.answers with
      | pending c cs hpending hnext => simp [hpending, hnext]
      | done left hpending hlines hnext => simp [hpending, hnext, hlines, bytesThrough]
      | fault line left hpending hlines hline hnext =>
          simp [hpending, hnext, hlines, hline, bytesThrough, readableText_cons_of_none hline]
      | line line left c cs hpending hlines hline hnext =>
          simp [hpending, hnext, hlines, hline, bytesThrough, readableText_cons_of_some hline]
  | succ m ih =>
      rw [Source.after]
      cases r.answers with
      | pending c cs hpending hnext =>
          obtain ⟨hconsumed, hfaults⟩ := ih (r := { r with pending := cs }) (by simpa [hpending] using hm)
          rw [hnext, hconsumed, hfaults]
          simp [hpending]
      | done left hpending hlines hnext => simp [hpending, hlines] at hm
      | fault line left hpending hlines hline hnext =>
          simp [hpending, hlines, readableText_cons_of_none hline] at hm
      | line line left c cs hpending hlines hline hnext =>
          obtain ⟨hconsumed, hfaults⟩ := ih (r := ⟨left, r.consumed + line.length, cs, r.faults⟩)
            (by simpa [hpending, hlines, readableText_cons_of_some hline] using hm)
          rw [hnext, hconsumed, hfaults]
          constructor
          · simp [hpending, hlines, hline, bytesThrough, Nat.add_assoc]
          · simp [hpending, hlines, hline, readableText_cons_of_some hline]

end LineReader

end ExprLang
