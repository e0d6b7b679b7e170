import Algol68.Source.Span
import Mathlib.Data.List.Induction
import Mathlib.Data.Prod.Lex

/-! Places of the source text. Each further byte leads to a later place, and a place tells its offset: where
its line starts, and as many bytes on as its column says. So up to the end of the text offsets and places
determine each other. -/

namespace Algol68

/-- The bytes of a text in UTF-8, which offsets count. -/
def utf8Bytes (source : String) : List UInt8 := source.toUTF8.data.toList

namespace Position

variable {p : Position} {bytes l : List UInt8} {ls : List (List UInt8)} {b : UInt8} {o o' k c : Nat}

/-! The order of places. -/

/-- Line and column, ordered as in the text: by lines, and within a line by columns. -/
def key (p : Position) : ℕ ×ₗ ℕ := toLex (p.line, p.column)

theorem key_lt_advance (p : Position) (b : UInt8) : p.key < (p.advance b).key := by
  rw [key, key, advance, Prod.Lex.toLex_lt_toLex]
  split
  · exact .inl (Nat.lt_succ_self _)
  · exact .inr ⟨rfl, Nat.lt_succ_self _⟩

theorem after_concat (bytes : List UInt8) (b : UInt8) :
    after (bytes ++ [b]) = (after bytes).advance b := List.foldl_append

theorem ofOffset_succ (h : bytes[o]? = some b) :
    ofOffset bytes (o + 1) = (ofOffset bytes o).advance b := by
  rw [ofOffset, List.take_add_one, h]
  exact after_concat _ b

theorem ofOffset_of_length_le (h : bytes.length ≤ o) :
    ofOffset bytes o = ofOffset bytes bytes.length := by
  rw [ofOffset, ofOffset, List.take_of_length_le h, List.take_length]

theorem key_ofOffset_lt (h : o < o') (hend : o' ≤ bytes.length) :
    (ofOffset bytes o).key < (ofOffset bytes o').key := by
  induction o', h using Nat.le_induction with
  | base =>
    rw [ofOffset_succ (List.getElem?_eq_getElem hend)]
    exact key_lt_advance _ _
  | succ o' _ ih =>
    rw [ofOffset_succ (List.getElem?_eq_getElem hend)]
    exact (ih (Nat.le_of_lt hend)).trans (key_lt_advance _ _)

/-! The place by two scans of the bytes before it, which agree with going byte by byte. -/

/-- The offset of the last newline, searched for from the end. -/
def lastNewline? (before : List UInt8) : Option Nat :=
  (before.reverse.idxOf? 10).map fun k => before.length - 1 - k

/-- The place behind some bytes: one scan counts the newlines for the line, another one looks for the last
of them for the column. -/
def scan (before : List UInt8) : Position where
  line := before.count 10 + 1
  column :=
    match lastNewline? before with
    | some k => before.length - k
    | none => before.length + 1

theorem lastNewline?_concat (bytes : List UInt8) (b : UInt8) :
    lastNewline? (bytes ++ [b]) = if b = 10 then some bytes.length else lastNewline? bytes := by
  rw [lastNewline?, List.reverse_concat, List.idxOf?_cons]
  by_cases h : b = 10
  · simp [h]
  · simp only [beq_iff_eq, h, if_false, lastNewline?, Option.map_map]
    congr 1
    funext k
    rw [Function.comp_apply, List.length_append, List.length_singleton]
    omega

theorem lastNewline?_le (h : lastNewline? bytes = some k) : k ≤ bytes.length := by
  obtain ⟨j, -, rfl⟩ := Option.map_eq_some_iff.mp h
  omega

theorem scan_concat (bytes : List UInt8) (b : UInt8) :
    scan (bytes ++ [b]) = (scan bytes).advance b := by
  by_cases h : b = 10
  · simp [scan, advance, lastNewline?_concat, h]
  · cases hk : lastNewline? bytes with
    | none => simp [scan, advance, lastNewline?_concat, h, hk]
    | some k =>
      have := lastNewline?_le hk
      simp [scan, advance, lastNewline?_concat, h, hk]
      omega

theorem after_eq_scan (bytes : List UInt8) : after bytes = scan bytes := by
  induction bytes using List.reverseRecOn with
  | nil => rfl
  | append_singleton bytes b ih => rw [after_concat, scan_concat, ih]

/-! The place by lines. With a newline at the end of each, the last line is like the others. -/

/-- The lines of a text, without the newlines between them. -/
def lines (bytes : List UInt8) : List (List UInt8) := bytes.splitOn 10

/-- Lines with a newline at the end of each. -/
def terminated (ls : List (List UInt8)) : List UInt8 := ls.flatMap (· ++ [10])

/-- The offset at which a line starts, behind the lines before it and their newlines. Lines count from
one. -/
def lineStart (bytes : List UInt8) (line : Nat) : Nat :=
  (terminated ((lines bytes).take (line - 1))).length

/-- The places of a text: a column for each byte of a line, and one behind the last of them. -/
def Within (bytes : List UInt8) (p : Position) : Prop :=
  ∃ k c l, (lines bytes)[k]? = some l ∧ c ≤ l.length ∧ p = ⟨k + 1, c + 1⟩

theorem lines_cons (b : UInt8) (bytes : List UInt8) :
    ∃ l ls, lines bytes = l :: ls ∧
      lines (b :: bytes) = if b = 10 then [] :: l :: ls else (b :: l) :: ls := by
  obtain ⟨l, ls, h⟩ := List.exists_cons_of_ne_nil (List.splitOn_ne_nil 10 bytes)
  refine ⟨l, ls, h, ?_⟩
  rw [lines, List.splitOn_cons_eq_if_modifyHead, h]
  simp

theorem terminated_lines (bytes : List UInt8) : terminated (lines bytes) = bytes ++ [10] := by
  induction bytes with
  | nil => rfl
  | cons b bytes ih =>
    obtain ⟨l, ls, h, hcons⟩ := lines_cons b bytes
    rw [hcons, List.cons_append, ← ih, h]
    split
    · next hb => simp [terminated, hb]
    · simp [terminated]

theorem notMem_of_mem_lines (h : l ∈ lines bytes) : 10 ∉ l := by
  induction bytes generalizing l with
  | nil =>
    obtain rfl := List.mem_singleton.mp h
    exact List.not_mem_nil
  | cons b bytes ih =>
    obtain ⟨m, ls, hlines, hcons⟩ := lines_cons b bytes
    rw [hlines] at ih
    rw [hcons] at h
    split at h
    · rcases List.mem_cons.mp h with rfl | h
      · exact List.not_mem_nil
      · exact ih h
    · next hb =>
      rcases List.mem_cons.mp h with rfl | h
      · have hm : 10 ∉ m := ih (List.mem_cons_self ..)
        exact fun hmem => (List.mem_cons.mp hmem).elim (fun he => hb he.symm) hm
      · exact ih (List.mem_cons_of_mem _ h)

theorem foldl_advance_of_notMem (h : 10 ∉ l) (p : Position) :
    l.foldl advance p = ⟨p.line, p.column + l.length⟩ := by
  induction l generalizing p with
  | nil => rfl
  | cons b l ih =>
    obtain ⟨hb, hl⟩ : 10 ≠ b ∧ 10 ∉ l := by simpa using h
    rw [List.foldl_cons, ih hl, advance, if_neg (Ne.symm hb), List.length_cons]
    simp only [mk.injEq, true_and]
    omega

theorem foldl_advance_terminated (h : ∀ l ∈ ls, 10 ∉ l) (n : Nat) :
    (terminated ls).foldl advance ⟨n, 1⟩ = ⟨n + ls.length, 1⟩ := by
  induction ls generalizing n with
  | nil => rfl
  | cons l ls ih =>
    have hl : 10 ∉ l := h l (List.mem_cons_self ..)
    have hls := ih (fun m hm => h m (List.mem_cons_of_mem _ hm)) (n + 1)
    rw [terminated, List.flatMap_cons, List.foldl_append, List.foldl_append,
      foldl_advance_of_notMem hl, ← terminated, List.length_cons]
    rw [show n + (ls.length + 1) = n + 1 + ls.length by omega, ← hls]
    rfl

/-- What stands before a column of a line: the lines before it, and that many bytes of it. -/
theorem take_lineStart (h : (lines bytes)[k]? = some l) (hc : c ≤ l.length) :
    lineStart bytes (k + 1) + c ≤ bytes.length ∧
      bytes.take (lineStart bytes (k + 1) + c) = terminated ((lines bytes).take k) ++ l.take c := by
  have start : lineStart bytes (k + 1) = (terminated ((lines bytes).take k)).length := rfl
  have whole : bytes ++ [10] =
      terminated ((lines bytes).take k) ++ (l ++ 10 :: terminated ((lines bytes).drop (k + 1))) := by
    obtain ⟨hk, rfl⟩ := List.getElem?_eq_some_iff.mp h
    calc bytes ++ [10]
      _ = terminated ((lines bytes).take k ++ (lines bytes).drop k) := by
        rw [List.take_append_drop, terminated_lines]
      _ = terminated ((lines bytes).take k) ++
          ((lines bytes)[k] ++ 10 :: terminated ((lines bytes).drop (k + 1))) := by
        rw [List.drop_eq_getElem_cons hk]
        simp only [terminated, List.flatMap_append, List.flatMap_cons, List.append_assoc]
        rfl
  have inside : lineStart bytes (k + 1) + c ≤ bytes.length := by
    have := congrArg List.length whole
    simp only [List.length_append, List.length_cons, List.length_nil] at this
    omega
  have ended : bytes.take (lineStart bytes (k + 1) + c) =
      (bytes ++ [10]).take (lineStart bytes (k + 1) + c) :=
    (List.take_append_of_le_length inside).symm
  refine ⟨inside, ?_⟩
  rw [ended, whole, start, List.take_length_add_append, List.take_append_of_le_length hc]

/-- A place of the text is that of the offset it tells. -/
theorem ofOffset_lineStart (h : (lines bytes)[k]? = some l) (hc : c ≤ l.length) :
    ofOffset bytes (lineStart bytes (k + 1) + c) = ⟨k + 1, c + 1⟩ := by
  have hk : k < (lines bytes).length := (List.getElem?_eq_some_iff.mp h).1
  have hl : 10 ∉ l.take c := fun hm =>
    notMem_of_mem_lines (List.mem_of_getElem? h) (List.mem_of_mem_take hm)
  have before : ∀ m ∈ (lines bytes).take k, 10 ∉ m := fun m hm =>
    notMem_of_mem_lines (List.mem_of_mem_take hm)
  rw [ofOffset, (take_lineStart h hc).2, after, List.foldl_append, origin,
    foldl_advance_terminated before, foldl_advance_of_notMem hl, List.length_take_of_le hc,
    List.length_take_of_le (Nat.le_of_lt hk), Nat.add_comm 1, Nat.add_comm 1]

theorem exists_column (h : o < (terminated ls).length) :
    ∃ k c l, ls[k]? = some l ∧ c ≤ l.length ∧ o = (terminated (ls.take k)).length + c := by
  induction ls generalizing o with
  | nil => exact absurd h (Nat.not_lt_zero o)
  | cons m ls ih =>
    have split (ms : List (List UInt8)) :
        (terminated (m :: ms)).length = m.length + 1 + (terminated ms).length := by
      rw [terminated, List.flatMap_cons, List.length_append, List.length_append]
      rfl
    by_cases hm : o ≤ m.length
    · exact ⟨0, o, m, rfl, hm, (Nat.zero_add o).symm⟩
    · have hrest : o - (m.length + 1) < (terminated ls).length := by
        rw [split] at h
        omega
      obtain ⟨k, c, l, hl, hc, he⟩ := ih hrest
      refine ⟨k + 1, c, l, hl, hc, ?_⟩
      rw [List.take_succ_cons, split]
      omega

theorem exists_lineStart (h : o ≤ bytes.length) :
    ∃ k c l, (lines bytes)[k]? = some l ∧ c ≤ l.length ∧ o = lineStart bytes (k + 1) + c := by
  refine exists_column ?_
  rw [terminated_lines, List.length_append]
  exact Nat.lt_succ_of_le h

/-- A place tells its offset. -/
theorem lineStart_add_column (h : o ≤ bytes.length) :
    lineStart bytes (ofOffset bytes o).line + (ofOffset bytes o).column = o + 1 := by
  obtain ⟨k, c, l, hl, hc, rfl⟩ := exists_lineStart h
  rw [ofOffset_lineStart hl hc]
  rfl

theorem within_iff_existsUnique (bytes : List UInt8) (p : Position) :
    Within bytes p ↔ ∃! o, o ≤ bytes.length ∧ ofOffset bytes o = p := by
  constructor
  · rintro ⟨k, c, l, hl, hc, rfl⟩
    refine ⟨lineStart bytes (k + 1) + c, ⟨(take_lineStart hl hc).1, ofOffset_lineStart hl hc⟩, ?_⟩
    rintro o ⟨ho, he⟩
    have tells := lineStart_add_column ho
    rw [he] at tells
    exact (Nat.succ.inj tells).symm
  · rintro ⟨o, ⟨ho, rfl⟩, -⟩
    obtain ⟨k, c, l, hl, hc, rfl⟩ := exists_lineStart ho
    exact ⟨k, c, l, hl, hc, ofOffset_lineStart hl hc⟩

end Position

namespace Span

open Position

/-- Places and offsets determine each other. Of two offsets in a text the greater one has the later place.
The line counts the newlines before the offset, and the offset is where that line starts and as many bytes
on as the column says; a newline is followed by the first column of the next line, and an offset beyond the
end has the place of the end. It comes to the same to scan what is before the offset twice, for the number
of the newlines and for the last of them. The places of a text, a column for each byte of a line and one
behind them, are each that of one offset, and there are no others. -/
theorem positions_identify_offsets (source : String) :
    (∀ s t : Span, s.start < t.start → t.start ≤ source.utf8ByteSize →
      (s.position source).key < (t.position source).key) ∧
    (∀ s : Span,
      (s.position source).line = ((utf8Bytes source).take s.start).count 10 + 1) ∧
    (∀ s : Span, s.start ≤ source.utf8ByteSize →
      lineStart (utf8Bytes source) (s.position source).line + (s.position source).column =
        s.start + 1) ∧
    (∀ s : Span, (utf8Bytes source)[s.start]? = some 10 →
      (⟨s.start + 1, s.stop⟩ : Span).position source = ⟨(s.position source).line + 1, 1⟩) ∧
    (∀ s : Span, source.utf8ByteSize ≤ s.start →
      s.position source = (⟨source.utf8ByteSize, s.stop⟩ : Span).position source) ∧
    (∀ s : Span, s.position source = scan ((utf8Bytes source).take s.start)) ∧
    ∀ p, Within (utf8Bytes source) p ↔
      ∃! o, o ≤ source.utf8ByteSize ∧ ∀ stop, (⟨o, stop⟩ : Span).position source = p := by
  have place (s : Span) : s.position source = ofOffset (utf8Bytes source) s.start := rfl
  have size : (utf8Bytes source).length = source.utf8ByteSize := rfl
  have scanned (s : Span) : s.position source = scan ((utf8Bytes source).take s.start) :=
    after_eq_scan _
  simp only [← size]
  refine ⟨fun s t => key_ofOffset_lt, fun s => congrArg line (scanned s),
    fun s => lineStart_add_column, fun s hs => ?_, fun s => ofOffset_of_length_le, scanned,
    fun p => ?_⟩
  · rw [place, ofOffset_succ hs, place]
    rfl
  · simp only [place, forall_const]
    exact within_iff_existsUnique _ p

/-- A text of four lines, in which the third starts at byte 16. -/
def fourLines : String := "BEGIN\n  x := 1;\n  print(x)\nEND"

theorem positions_identify_offsets_of_four_lines :
    (8 < 18 ∧ 18 ≤ fourLines.utf8ByteSize ∧
      ((⟨8, 9⟩ : Span).position fourLines).key < ((⟨18, 23⟩ : Span).position fourLines).key) ∧
    (⟨18, 23⟩ : Span).position fourLines = ⟨3, 3⟩ ∧ lineStart (utf8Bytes fourLines) 3 = 16 ∧
    ((utf8Bytes fourLines)[5]? = some 10 ∧ (⟨6, 5⟩ : Span).position fourLines = ⟨2, 1⟩) ∧
    fourLines.utf8ByteSize ≤ 100 ∧ (⟨100, 101⟩ : Span).position fourLines = ⟨4, 4⟩ ∧
    ∃! o, o ≤ fourLines.utf8ByteSize ∧ ∀ stop, (⟨o, stop⟩ : Span).position fourLines = ⟨2, 10⟩ := by
  have newline : (utf8Bytes fourLines)[5]? = some 10 := by decide
  have third : (⟨18, 23⟩ : Span).position fourLines = ⟨3, 3⟩ := by decide
  obtain ⟨order, -, tells, first, clamp, -, unique⟩ := positions_identify_offsets fourLines
  refine ⟨⟨by decide, by decide, order ⟨8, 9⟩ ⟨18, 23⟩ (by decide) (by decide)⟩, third, ?_,
    ⟨newline, first ⟨5, 5⟩ newline⟩, by decide, clamp ⟨100, 101⟩ (by decide), (unique _).mp ?_⟩
  · have start := tells ⟨18, 23⟩ (by decide)
    rw [third] at start
    exact Nat.add_right_cancel start
  · exact ⟨1, 9, utf8Bytes "  x := 1;", by decide, by decide, rfl⟩

end Span

end Algol68
