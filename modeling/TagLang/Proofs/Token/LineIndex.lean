import Mathlib.Data.List.DropRight
import TagLang.LineIndex
import TagLang.Proofs.Token.Positions

/-!
# A line index counts

`LineIndex.position?` searches and slices; a position is also found by counting the line feeds and
the characters of the text before it (`Position.counted`). Both agree at every place between two
characters of a text, and no lookup goes out of bounds at any offset (`LineIndex.position?_counts`).

The search keeps a range of lines in which the line of the offset lies (`LineIndex.Bracket`); one
halving keeps this, and so does the whole search. The entries of the index up to a place are as many
as there are line feeds before it, and one more (`LineIndex.inLine_of_append`). This gives the line,
and the text between the start of the line and the place has as many characters as columns are to be
counted.
-/

namespace TagLang

namespace LineIndex

/-! ## Halving -/

variable {starts : Array Nat} {offset base size : Nat}

/-- Later entries are greater. -/
def Ascending (starts : Array Nat) : Prop := starts.toList.Pairwise (· < ·)

theorem Ascending.le (h : Ascending starts) {i j v w : Nat} (hij : i ≤ j)
    (hi : starts[i]? = some v) (hj : starts[j]? = some w) : v ≤ w := by
  rw [← Array.getElem?_toList] at hi hj
  obtain ⟨hi', rfl⟩ := List.getElem?_eq_some_iff.1 hi
  obtain ⟨hj', rfl⟩ := List.getElem?_eq_some_iff.1 hj
  rcases hij.lt_or_eq with hlt | rfl
  · exact (List.pairwise_iff_getElem.1 h i j hi' hj' hlt).le
  · exact Nat.le_refl _

/-- The last entry that is not greater than the offset is one of `size` entries from `base` on. -/
structure Bracket (starts : Array Nat) (offset base size : Nat) : Prop where
  nonempty : 0 < size
  inside : base + size ≤ starts.size
  low : ∀ v, starts[base]? = some v → v ≤ offset
  high : ∀ i v, base + size ≤ i → starts[i]? = some v → offset < v

/-- **One halving** looks at an entry and keeps the bracket. -/
theorem Bracket.halve (hasc : Ascending starts) (h : Bracket starts offset base size)
    (hsize : 1 < size) : ∃ middle, starts[base + size / 2]? = some middle ∧
      Bracket starts offset (if offset < middle then base else base + size / 2)
        (size - size / 2) := by
  have hinside := h.inside
  have hmiddle : starts[base + size / 2]? = some starts[base + size / 2] :=
    Array.getElem?_eq_getElem (by omega)
  refine ⟨_, hmiddle, by omega, ?_, ?_, ?_⟩
  · split <;> omega
  · intro v hv
    split at hv
    · exact h.low v hv
    · next hle =>
      rw [hmiddle] at hv
      exact Option.some.inj hv ▸ Nat.le_of_not_lt hle
  · intro i v hi hv
    split at hi
    · next hlt => exact hlt.trans_le (hasc.le (by omega) hmiddle hv)
    · exact h.high i v (by omega) hv

/-- **The halving** finds one entry. -/
theorem Bracket.narrow? (hasc : Ascending starts) (h : Bracket starts offset base size) :
    ∃ line, narrow? starts offset base size = some line ∧ Bracket starts offset line 1 := by
  fun_induction LineIndex.narrow? starts offset base size with
  | case1 base size hsize ih =>
    obtain ⟨middle, hmiddle, hhalf⟩ := h.halve hasc hsize
    rw [hmiddle]
    exact ih middle hhalf
  | case2 base size hsize =>
    have hone : size = 1 := by
      have := h.nonempty
      omega
    exact ⟨base, rfl, hone ▸ h⟩

end LineIndex

/-! ## Where lines start -/

section

variable {text before after : List Char} {offset v : Nat}

theorem utf8ByteSize_ofList_cons (c : Char) (text : List Char) :
    (String.ofList (c :: text)).utf8ByteSize = c.utf8Size + (String.ofList text).utf8ByteSize := by
  rw [String.ofList_cons, String.utf8ByteSize_append, String.utf8ByteSize_singleton]

theorem lineStartsFrom_append (offset : Nat) (before after : List Char) :
    lineStartsFrom offset (before ++ after) = lineStartsFrom offset before ++
      lineStartsFrom (offset + (String.ofList before).utf8ByteSize) after := by
  induction before generalizing offset with
  | nil => rfl
  | cons c before ih =>
    rw [List.cons_append, lineStartsFrom, lineStartsFrom, utf8ByteSize_ofList_cons,
      ← Nat.add_assoc]
    by_cases hc : c = '\n'
    · subst hc
      rw [if_pos rfl, if_pos rfl, ih]
      rfl
    · rw [if_neg hc, if_neg hc, ih]

theorem length_lineStartsFrom (offset : Nat) (text : List Char) :
    (lineStartsFrom offset text).length = text.count '\n' := by
  induction text generalizing offset with
  | nil => rfl
  | cons c text ih =>
    rw [lineStartsFrom]
    by_cases hc : c = '\n'
    · rw [if_pos hc, List.length_cons, ih, hc, List.count_cons_self]
    · rw [if_neg hc, ih, List.count_cons_of_ne hc]

/-- Each line but the first starts behind a character. -/
theorem bounds_of_mem_lineStartsFrom (h : v ∈ lineStartsFrom offset text) :
    offset < v ∧ v ≤ offset + (String.ofList text).utf8ByteSize := by
  induction text generalizing offset with
  | nil => cases h
  | cons c text ih =>
    rw [utf8ByteSize_ofList_cons]
    rw [lineStartsFrom] at h
    have hpos := c.utf8Size_pos
    split at h
    · rcases List.mem_cons.1 h with rfl | h
      · omega
      · have := ih h
        omega
    · have := ih h
      omega

theorem pairwise_lineStartsFrom (offset : Nat) (text : List Char) :
    (lineStartsFrom offset text).Pairwise (· < ·) := by
  induction text generalizing offset with
  | nil => exact .nil
  | cons c text ih =>
    rw [lineStartsFrom]
    split
    · exact .cons (fun v hv => (bounds_of_mem_lineStartsFrom hv).1) (ih _)
    · exact ih _

/-- The text up to its last line feed. -/
def wholeLines (text : List Char) : List Char := text.rdropWhile (· ≠ '\n')

/-- What follows the last line feed of a text. -/
def lastLine (text : List Char) : List Char := text.rtakeWhile (· ≠ '\n')

theorem wholeLines_append_lastLine (text : List Char) : wholeLines text ++ lastLine text = text :=
  List.rdropWhile_append_rtakeWhile ..

theorem count_wholeLines (text : List Char) : (wholeLines text).count '\n' = text.count '\n' := by
  have hnone : (lastLine text).count '\n' = 0 := by
    refine List.count_eq_zero.2 fun hmem => ?_
    simpa using List.mem_rtakeWhile_imp hmem
  rw [← wholeLines_append_lastLine text, List.count_append, wholeLines_append_lastLine, hnone,
    Nat.add_zero]

theorem eq_nil_or_exists_wholeLines (text : List Char) :
    wholeLines text = [] ∨ ∃ front, wholeLines text = front ++ ['\n'] := by
  by_cases hne : wholeLines text = []
  · exact .inl hne
  · have hlast : (wholeLines text).getLast hne = '\n' :=
      not_not.1 fun h => List.rdropWhile_last_not _ text hne (decide_eq_true h)
    exact .inr ⟨_, hlast ▸ (List.dropLast_append_getLast hne).symm⟩

/-- The last line of a text starts behind its last line feed, or where the text starts. -/
theorem getElem?_lineStarts (before after : List Char) :
    (0 :: lineStartsFrom 0 (before ++ after))[before.count '\n']? =
      some (String.ofList (wholeLines before)).utf8ByteSize := by
  have hsplit : before ++ after = wholeLines before ++ (lastLine before ++ after) := by
    rw [← List.append_assoc, wholeLines_append_lastLine]
  rw [hsplit, ← count_wholeLines]
  rcases eq_nil_or_exists_wholeLines before with hnil | ⟨front, hfront⟩
  · rw [hnil]
    rfl
  · rw [hfront, List.append_assoc, lineStartsFrom_append, List.count_append,
      List.count_singleton_self, List.getElem?_cons_succ,
      List.getElem?_append_right (length_lineStartsFrom _ _).le, length_lineStartsFrom,
      Nat.sub_self, String.ofList_append, String.utf8ByteSize_append]
    exact congrArg (fun n => some (n + 1)) (Nat.zero_add _)

end

namespace LineIndex

variable {index : LineIndex} {offset line start : Nat} {before after : List Char}

theorem ascending (index : LineIndex) : Ascending index.starts := by
  rw [index.starts_eq]
  exact .cons (fun v hv => (bounds_of_mem_lineStartsFrom hv).1) (pairwise_lineStartsFrom _ _)

/-! ## The line of an offset -/

/-- An offset is in a line, which starts at another offset. -/
structure InLine (index : LineIndex) (offset line start : Nat) : Prop where
  start_eq : index.starts[line]? = some start
  start_le : start ≤ offset
  lt_later : ∀ i v, line < i → index.starts[i]? = some v → offset < v

theorem InLine.unique {line' start' : Nat} (h : InLine index offset line start)
    (h' : InLine index offset line' start') : line = line' ∧ start = start' := by
  have hline : line = line' := by
    rcases Nat.lt_trichotomy line line' with hlt | heq | hgt
    · exact absurd (h.lt_later _ _ hlt h'.start_eq) h'.start_le.not_gt
    · exact heq
    · exact absurd (h'.lt_later _ _ hgt h.start_eq) h.start_le.not_gt
  subst hline
  exact ⟨rfl, Option.some.inj (h.start_eq.symm.trans h'.start_eq)⟩

/-- The first line starts where the text does, so every offset has a line. -/
theorem bracket_all (index : LineIndex) (offset : Nat) :
    Bracket index.starts offset 0 index.starts.size := by
  have hfirst : index.starts[0]? = some 0 := by
    rw [index.starts_eq]
    rfl
  refine ⟨?_, by omega, fun v hv => ?_, fun i v hi hv => ?_⟩
  · exact (Array.getElem?_eq_some_iff.1 hfirst).1
  · rw [hfirst] at hv
    exact Option.some.inj hv ▸ Nat.zero_le _
  · have := (Array.getElem?_eq_some_iff.1 hv).1
    omega

/-- **The search finds the line of every offset.** -/
theorem exists_inLine (index : LineIndex) (offset : Nat) :
    ∃ line start, index.line? offset = some line ∧ InLine index offset line start := by
  have hall := index.bracket_all offset
  obtain ⟨line, hnarrow, hone⟩ := hall.narrow? index.ascending
  obtain ⟨start, hstart⟩ : ∃ start, index.starts[line]? = some start :=
    ⟨_, Array.getElem?_eq_getElem hone.inside⟩
  have hle := hone.low start hstart
  have hne : index.starts.isEmpty = false := by
    rw [Array.isEmpty_eq_false_iff]
    exact Array.size_pos_iff.1 hall.nonempty
  refine ⟨line, start, ?_, hstart, hle, fun i v hi => hone.high i v hi⟩
  -- where the offset itself is no entry, the search gives the place behind the entry before it
  rcases hle.eq_or_lt with heq | hlt
  · simp [line?, search?, hne, hnarrow, hstart, heq]
  · simp [line?, search?, hne, hnarrow, hstart, hlt.ne, hlt, difference?]

/-! ## The part of a line before a place -/

theorem pos?_offset {source : String} (p : source.Pos) : source.pos? p.offset = some p := by
  have hvalid : p.offset.isValidForSlice source.toSlice = true :=
    String.Pos.Raw.isValidForSlice_eq_true_iff.2 p.isValid.toSlice
  rw [String.pos?, String.Slice.pos?, dif_pos hvalid]
  rfl

theorem between?_of_splits {source before part after : String} {p q : source.Pos}
    (hp : p.Splits before (part ++ after)) (hq : q.Splits (before ++ part) after) :
    between? source p.offset.byteIdx q.offset.byteIdx = some part := by
  obtain ⟨hle, hcopy⟩ := String.copy_slice_eq_iff_splits.2 ⟨before, after, hp, hq⟩
  have hslice : source.slice? p q = some (source.slice p q hle) := dif_pos hle
  rw [between?, pos?_offset p, pos?_offset q]
  simp [hslice, hcopy]

/-- The text between the start of a line and a place in the line, by bytes. -/
theorem between?_append {source before part after : String} (h : source = before ++ part ++ after) :
    between? source before.utf8ByteSize (before ++ part).utf8ByteSize = some part := by
  have hp := String.Pos.splits_ofEqAppend (h.trans String.append_assoc)
  have hq := String.Pos.splits_ofEqAppend h
  have hbetween := between?_of_splits hp hq
  rw [hp.offset_eq_rawEndPos, hq.offset_eq_rawEndPos] at hbetween
  exact hbetween

/-- The place between two parts of a text is in the line whose number is the number of line feeds
before it. -/
theorem inLine_of_append (h : index.source.toList = before ++ after) :
    InLine index (String.ofList before).utf8ByteSize (before.count '\n')
      (String.ofList (wholeLines before)).utf8ByteSize := by
  have hget : ∀ i : Nat, index.starts[i]? = (0 :: lineStartsFrom 0 (before ++ after))[i]? := by
    intro i
    rw [index.starts_eq, h, List.getElem?_toArray]
  refine ⟨?_, ?_, fun i v hi hv => ?_⟩
  · rw [hget, getElem?_lineStarts]
  · conv_rhs => rw [← wholeLines_append_lastLine before]
    rw [String.ofList_append, String.utf8ByteSize_append]
    exact Nat.le_add_right _ _
  · -- the entries behind those of the text before the place come from the text behind it
    rw [hget, lineStartsFrom_append, ← List.cons_append, List.getElem?_append_right] at hv
    · have := (bounds_of_mem_lineStartsFrom (List.mem_of_getElem? hv)).1
      omega
    · rw [List.length_cons, length_lineStartsFrom]
      exact hi

/-- **The column is counted** from the start of the line on. -/
theorem position?_of_append (h : index.source.toList = before ++ after) :
    index.position? (String.ofList before).utf8ByteSize =
      some (positionAt (before.count '\n') (lastLine before).length) := by
  obtain ⟨line, start, hline, hin⟩ := index.exists_inLine (String.ofList before).utf8ByteSize
  obtain ⟨rfl, rfl⟩ := hin.unique (inLine_of_append h)
  have hsource : index.source = String.ofList (wholeLines before) ++ String.ofList (lastLine before)
      ++ String.ofList after := by
    rw [← String.ofList_append, wholeLines_append_lastLine, ← String.ofList_append, ← h,
      String.ofList_toList]
  have hbefore : String.ofList (wholeLines before) ++ String.ofList (lastLine before) =
      String.ofList before := by
    rw [← String.ofList_append, wholeLines_append_lastLine]
  have hend : min (String.ofList before).utf8ByteSize index.source.utf8ByteSize =
      (String.ofList before).utf8ByteSize := by
    rw [hsource, hbefore, String.utf8ByteSize_append]
    exact Nat.min_eq_left (Nat.le_add_right _ _)
  have hbetween := between?_append hsource
  rw [hbefore] at hbetween
  simp [position?, hline, hin.start_eq, hend, difference?, hin.start_le, hbetween]

/-- No lookup goes out of bounds, wherever the offset is. -/
theorem isSome_position? (index : LineIndex) (offset : Nat) :
    (index.position? offset).isSome = true := by
  obtain ⟨line, start, hline, hin⟩ := index.exists_inLine offset
  have hsize : start ≤ index.source.utf8ByteSize := by
    have hmem : start ∈ 0 :: lineStartsFrom 0 index.source.toList := by
      refine List.mem_of_getElem? (i := line) ?_
      rw [← List.getElem?_toArray, ← index.starts_eq, hin.start_eq]
    rcases List.mem_cons.1 hmem with rfl | hmem
    · exact Nat.zero_le _
    · have hle := (bounds_of_mem_lineStartsFrom hmem).2
      rwa [String.ofList_toList, Nat.zero_add] at hle
  simp [position?, hline, hin.start_eq, difference?, hin.start_le, hsize]

end LineIndex

/-! ## Counting -/

namespace Position

/-- The position behind a text, by its line feeds and the characters behind the last of them. -/
def counted (before : List Char) : Position :=
  ⟨1 + before.count '\n', 1 + (lastLine before).length⟩

/-- The line and the column are numbers of 32 bits. -/
def Fits (p : Position) : Prop := p.line < UInt32.size ∧ p.column < UInt32.size

instance (p : Position) : Decidable p.Fits := inferInstanceAs (Decidable (_ ∧ _))

theorem counted_eq_after (before : List Char) :
    counted before = (Location.start.after before).position := by
  obtain ⟨hline, hcolumn⟩ := Location.isBehind_after before
  rw [counted, lastLine, List.rtakeWhile, List.length_reverse, ← hline, ← hcolumn]

theorem positionAt_of_fits {before : List Char} (h : (counted before).Fits) :
    LineIndex.positionAt (before.count '\n') (lastLine before).length = counted before := by
  have hsucc : ∀ n : Nat, 1 + n < UInt32.size → (n.toUInt32 + 1).toNat = 1 + n := by
    intro n hn
    have hsize : UInt32.size = 2 ^ 32 := rfl
    rw [UInt32.toNat_add, Nat.toUInt32_eq, UInt32.toNat_ofNat', UInt32.toNat_one]
    omega
  rw [LineIndex.positionAt, counted, hsucc _ h.1, hsucc _ h.2]

/-- The position of a place between two characters of a text, by counting in the text before it. -/
def ofPlace {source : String} (p : source.Pos) : Position :=
  counted (source.sliceTo p).copy.toList

theorem ofPlace_before {source : String} {p q : source.Pos} (h : p < q) :
    (ofPlace p).Before (ofPlace q) := by
  obtain ⟨between, hne, hq, -⟩ := (p.splits.lt_iff_exists_eq_append q.splits).1 h
  rw [ofPlace, ofPlace, counted_eq_after, counted_eq_after, hq, String.toList_append,
    Location.after_append]
  refine Location.before_after _ fun hnil => hne ?_
  rw [← String.ofList_toList (s := between), hnil, String.ofList_nil]

end Position

namespace LineIndex

variable {source : String} {before after : List Char}

theorem position?_eq_counted (h : source.toList = before ++ after)
    (hfits : (Position.counted before).Fits) :
    (ofSource source).position? (String.ofList before).utf8ByteSize = some (.counted before) := by
  have hposition : (ofSource source).position? _ = _ := position?_of_append h
  rw [hposition, Position.positionAt_of_fits hfits]

theorem position?_of_place (p : source.Pos) (hfits : (Position.ofPlace p).Fits) :
    (ofSource source).position? p.offset.byteIdx = some (.ofPlace p) := by
  have hsource : source.toList = (source.sliceTo p).copy.toList ++
      (source.sliceFrom p).copy.toList := by
    rw [← String.toList_append, String.sliceTo_append_sliceFrom]
  have hposition := position?_eq_counted hsource hfits
  rw [String.ofList_toList] at hposition
  rw [p.splits.offset_eq_rawEndPos]
  exact hposition

/-- A location that is reached character by character has the position of its offset. -/
theorem position?_of_after {l : Location} (h : source.toList = before ++ after)
    (hl : l = Location.start.after before) (hfits : l.position.Fits) :
    (ofSource source).position? l.offset = some l.position := by
  rw [hl, ← Position.counted_eq_after] at hfits
  rw [hl, Location.offset_after, ← Position.counted_eq_after, ← position?_eq_counted h hfits]
  exact congrArg _ (Nat.zero_add _)

/-- **A line index counts.** It gives a position for every offset, so that no lookup goes out of
bounds. For an offset between two characters, this is the number of line feeds before it and the
number of characters behind the last of them, each counted from one; and of two such offsets, the
later one has the later position. So the positions of tokens and of a lexical error are those of
their offsets. Lines and columns are taken to be numbers of 32 bits. -/
theorem position?_counts (source : String) :
    (∀ offset, ((ofSource source).position? offset).isSome = true) ∧
    (∀ p : source.Pos, (Position.ofPlace p).Fits →
      (ofSource source).position? p.offset.byteIdx = some (.ofPlace p)) ∧
    (∀ p q : source.Pos, p < q → (Position.ofPlace p).Fits → (Position.ofPlace q).Fits →
      ∃ a b, (ofSource source).position? p.offset.byteIdx = some a ∧
        (ofSource source).position? q.offset.byteIdx = some b ∧ a.Before b) ∧
    (∀ t ∈ (tokenize source).tokens, t.position.Fits →
      (ofSource source).position? t.start = some t.position) ∧
    ∀ e, (tokenize source).failure = some e → e.location.position.Fits →
      (ofSource source).position? e.location.offset = some e.location.position := by
  obtain ⟨htokens, hfailure⟩ := (munches_tokenize source).exists_after [] rfl rfl
  refine ⟨isSome_position? _, position?_of_place, fun p q hpq hp hq => ?_, fun t ht hfits => ?_,
    fun e he hfits => ?_⟩
  · exact ⟨_, _, position?_of_place p hp, position?_of_place q hq, Position.ofPlace_before hpq⟩
  · obtain ⟨before, after, hsource, hstart, hposition⟩ := htokens t ht
    rw [hposition] at hfits ⊢
    rw [hstart]
    exact position?_of_after hsource rfl hfits
  · obtain ⟨before, after, hsource, hlocation⟩ := hfailure e he
    exact position?_of_after hsource hlocation hfits

/-- An empty line and the end of a line, in a text with characters of two bytes. The lexer finds a
token in the last line and fails behind it. -/
theorem position?_counts_multibyte :
    (ofSource "λ\n\nλ\x7b").position? 3 = some ⟨2, 1⟩ ∧
      (∃ a b, (ofSource "λ\n\nλ\x7b").position? 3 = some a ∧
        (ofSource "λ\n\nλ\x7b").position? 6 = some b ∧ a.Before b) ∧
      (ofSource "λ\n\nλ\x7b").position? 4 = some ⟨3, 1⟩ ∧
      (ofSource "λ\n\nλ\x7b").position? 6 = some ⟨3, 2⟩ := by
  let p : "λ\n\nλ\x7b".Pos := ⟨⟨3⟩, by decide +kernel⟩
  let q : "λ\n\nλ\x7b".Pos := ⟨⟨6⟩, by decide +kernel⟩
  have hp : Position.ofPlace p = ⟨2, 1⟩ := by decide +kernel
  have hq : Position.ofPlace q = ⟨3, 2⟩ := by decide +kernel
  have hfits : (Position.ofPlace p).Fits ∧ (Position.ofPlace q).Fits := by
    rw [hp, hq]
    decide
  have htoken : ⟨.identifier, "λ", 4, 6, ⟨3, 1⟩⟩ ∈ (tokenize "λ\n\nλ\x7b").tokens := by
    decide +kernel
  have hfailure : (tokenize "λ\n\nλ\x7b").failure =
      some ⟨.unrecognizedCharacter, ⟨6, ⟨3, 2⟩⟩⟩ := by
    decide +kernel
  obtain ⟨-, hcounts, hbefore, htokens, herror⟩ := position?_counts "λ\n\nλ\x7b"
  exact ⟨hp ▸ hcounts p hfits.1, hbefore p q (by decide +kernel) hfits.1 hfits.2,
    htokens _ htoken (by decide), herror _ hfailure (by decide)⟩

end LineIndex

end TagLang
