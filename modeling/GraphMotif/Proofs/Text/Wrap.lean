import GraphMotif.Text.Wrap
import Mathlib.Data.List.DropRight

/-!
# Wrapping loses no word

The lines of a wrapped label are no wider than there is room, and white space aside they say what
the label says. Words are put on lines that they fit on, but for the white space after them; only
white space is cropped. A word that fits on no line is cut into pieces that do, as long as there is
room for the widest character.
-/

namespace GraphMotif

variable {c : Char} {a b cs line word piece text label : List Char} {width used : Nat}

/-! ## What is to be seen of a text -/

/-- A text without its white space. -/
def visible (cs : List Char) : List Char := cs.filter (!isBlank ·)

theorem visible_append (a b : List Char) : visible (a ++ b) = visible a ++ visible b :=
  List.filter_append ..

theorem visible_cons_of_blank (h : isBlank c = true) (cs : List Char) :
    visible (c :: cs) = visible cs :=
  List.filter_cons_of_neg (by rw [h]; exact Bool.false_ne_true)

theorem visible_cons_congr (c : Char) (h : visible a = visible b) :
    visible (c :: a) = visible (c :: b) := by
  simp only [visible, List.filter_cons] at h ⊢
  rw [h]

theorem visible_eq_nil_iff : visible cs = [] ↔ ∀ c ∈ cs, isBlank c = true := by
  simp only [visible, List.filter_eq_nil_iff, Bool.not_eq_true', Bool.not_eq_false]

theorem visible_flatten (lines : List (List Char)) :
    visible lines.flatten = lines.flatMap visible := by
  rw [visible, List.filter_flatten]
  rfl

theorem trimEnd_append_rtakeWhile (cs : List Char) : trimEnd cs ++ cs.rtakeWhile isBlank = cs :=
  List.rdropWhile_append_rtakeWhile ..

theorem visible_trimEnd (cs : List Char) : visible (trimEnd cs) = visible cs := by
  have hblank : visible (cs.rtakeWhile isBlank) = [] :=
    visible_eq_nil_iff.2 fun _ hc => List.mem_rtakeWhile_imp hc
  conv_rhs => rw [← trimEnd_append_rtakeWhile cs]
  rw [visible_append, hblank, List.append_nil]

theorem trimEnd_append (a b : List Char) :
    trimEnd (a ++ b) = if visible b = [] then trimEnd a else a ++ trimEnd b := by
  have hnil : (b.reverse.dropWhile isBlank).isEmpty = true ↔ visible b = [] := by
    rw [List.isEmpty_iff, List.dropWhile_eq_nil_iff, visible_eq_nil_iff]
    simp only [List.mem_reverse]
  rw [trimEnd, List.reverse_append, List.dropWhile_append]
  split
  · next h => rw [if_pos (hnil.1 h)]; rfl
  · next h => rw [if_neg (mt hnil.2 h), List.reverse_append, List.reverse_reverse]; rfl

/-! ## Cells -/

theorem cells_cons (c : Char) (cs : List Char) : cells (c :: cs) = cellWidth c + cells cs := rfl

theorem cells_append (a b : List Char) : cells (a ++ b) = cells a + cells b := by
  induction a with
  | nil => exact (Nat.zero_add _).symm
  | cons c a ih => rw [List.cons_append, cells_cons, cells_cons, ih, Nat.add_assoc]

theorem cells_replicate (n : Nat) : cells (List.replicate n ' ') = n := by
  induction n with
  | zero => rfl
  | succ n ih => rw [List.replicate_succ, cells_cons, ih, Nat.add_comm]; rfl

theorem cellWidth_le_two (c : Char) : cellWidth c ≤ 2 := by
  rw [cellWidth]
  split
  · omega
  · split <;> omega

/-- White space at the end aside, a longer line takes at most the cells of what is added more. -/
theorem cells_trimEnd_append_le (a b : List Char) :
    cells (trimEnd (a ++ b)) ≤ cells a + cells (trimEnd b) := by
  rw [trimEnd_append]
  split
  · have hcells := congrArg cells (trimEnd_append_rtakeWhile a)
    rw [cells_append] at hcells
    omega
  · rw [cells_append]

theorem cells_trimEnd_le (cs : List Char) : cells (trimEnd cs) ≤ cells cs := by
  have hcells := congrArg cells (trimEnd_append_rtakeWhile cs)
  rw [cells_append] at hcells
  omega

/-! ## Lines and tabs -/

theorem visible_expandTabs (column : Nat) (cs : List Char) :
    visible (expandTabs column cs) = visible cs := by
  induction cs generalizing column with
  | nil => rfl
  | cons c cs ih =>
    rw [expandTabs]
    split
    · next htab =>
      have hblanks (n : Nat) : visible (List.replicate n ' ') = [] :=
        visible_eq_nil_iff.2 fun _ hc => by rw [List.eq_of_mem_replicate hc]; rfl
      rw [visible_append, hblanks, List.nil_append, ih, visible_cons_of_blank (by rw [htab]; rfl)]
    · exact visible_cons_congr c (ih _)

theorem mem_expandTabs {column : Nat} (h : c ∈ expandTabs column cs) : c = ' ' ∨ c ∈ cs := by
  induction cs generalizing column with
  | nil => exact absurd h List.not_mem_nil
  | cons d cs ih =>
    rw [expandTabs] at h
    split at h
    · rcases List.mem_append.1 h with h | h
      · exact .inl (List.eq_of_mem_replicate h)
      · exact (ih h).imp_right (List.mem_cons_of_mem _)
    · rcases List.mem_cons.1 h with rfl | h
      · exact .inr List.mem_cons_self
      · exact (ih h).imp_right (List.mem_cons_of_mem _)

/-- A character is put before the first line, unless it ends that line. -/
theorem splitLines_cons (hc : c ≠ '\n') (cs : List Char) :
    ∃ line lines, splitLines cs = line :: lines ∧ splitLines (c :: cs) = (c :: line) :: lines := by
  rw [splitLines, if_neg hc]
  cases hlines : splitLines cs with
  | nil =>
    cases cs with
    | nil => cases hlines
    | cons d cs =>
      rw [splitLines] at hlines
      split at hlines
      · cases hlines
      · split at hlines <;> cases hlines
  | cons line lines => exact ⟨line, lines, rfl, rfl⟩

theorem visible_splitLines (cs : List Char) : visible (splitLines cs).flatten = visible cs := by
  induction cs with
  | nil => rfl
  | cons c cs ih =>
    by_cases hc : c = '\n'
    · rw [splitLines, if_pos hc, List.flatten_cons, List.nil_append, ih,
        visible_cons_of_blank (by rw [hc]; rfl)]
    · obtain ⟨line, lines, hlines, hcons⟩ := splitLines_cons hc cs
      rw [hlines] at ih
      rw [hcons]
      exact visible_cons_congr c ih

theorem not_mem_of_mem_splitLines (h : line ∈ splitLines cs) : '\n' ∉ line := by
  induction cs generalizing line with
  | nil =>
    rw [List.mem_singleton.1 h]
    exact List.not_mem_nil
  | cons c cs ih =>
    by_cases hc : c = '\n'
    · rw [splitLines, if_pos hc] at h
      rcases List.mem_cons.1 h with rfl | h
      · exact List.not_mem_nil
      · exact ih h
    · obtain ⟨first, lines, hlines, hcons⟩ := splitLines_cons hc cs
      rw [hcons] at h
      rcases List.mem_cons.1 h with rfl | h
      · have hfirst : '\n' ∉ first := ih (hlines ▸ List.mem_cons_self)
        exact fun hmem => (List.mem_cons.1 hmem).elim (fun heq => hc heq.symm) hfirst
      · exact ih (hlines ▸ List.mem_cons_of_mem _ h)

/-- A line that is ended by a line feed is the first one. -/
theorem splitLines_append (hline : '\n' ∉ line) (cs : List Char) :
    splitLines (line ++ '\n' :: cs) = line :: splitLines cs := by
  induction line with
  | nil => rw [List.nil_append, splitLines, if_pos rfl]
  | cons c line ih =>
    have hc : c ≠ '\n' := fun heq => hline (heq ▸ List.mem_cons_self)
    obtain ⟨first, lines, hlines, hcons⟩ := splitLines_cons hc (line ++ '\n' :: cs)
    rw [ih fun hmem => hline (List.mem_cons_of_mem _ hmem)] at hlines
    obtain ⟨rfl, rfl⟩ := List.cons.inj hlines
    exact hcons

/-! ## Words -/

theorem readWord_append (cs : List Char) : (readWord cs).1 ++ (readWord cs).2 = cs := by
  simp only [readWord, List.append_assoc, List.takeWhile_append_dropWhile]

theorem length_readWord_lt (h : visible cs ≠ []) : (readWord cs).2.length < cs.length := by
  have hlength := length_readWord cs
  have hword : 0 < (readWord cs).1.length := by
    cases hdrop : cs.dropWhile isBlank with
    | nil =>
      exact absurd (visible_eq_nil_iff.2 (List.dropWhile_eq_nil_iff.1 hdrop)) h
    | cons c rest =>
      have hc : isBlank c = false := by
        have hhead := List.head?_dropWhile_not isBlank cs
        rwa [hdrop] at hhead
      simp only [readWord, hdrop, List.takeWhile_cons, hc, List.length_append, Bool.not_false,
        if_true, List.length_cons]
      omega
  omega

/-- After a word the line goes on with another one, or ends. -/
theorem readWord_rest (cs : List Char) :
    (readWord cs).2 = [] ∨ visible (readWord cs).2 ≠ [] := by
  rw [or_iff_not_imp_right, not_not]
  intro hblank
  have hdrop := List.dropWhile_eq_nil_iff.2 (visible_eq_nil_iff.1 hblank)
  simp only [readWord] at hdrop ⊢
  rwa [List.dropWhile_idempotent] at hdrop

theorem words_eq_nil (h : visible cs = []) : words cs = [] := by
  rw [words, if_pos (List.all_eq_true.2 (visible_eq_nil_iff.1 h))]

theorem words_eq_cons (h : visible cs ≠ []) :
    words cs = (readWord cs).1 :: words (readWord cs).2 := by
  have hall : ¬cs.all isBlank = true := fun hall =>
    h (visible_eq_nil_iff.2 (List.all_eq_true.1 hall))
  rw [words, if_neg hall]
  exact if_pos (length_readWord_lt h)

/-- A line that is not blank consists of its words. -/
theorem flatten_words (h : visible cs ≠ []) : (words cs).flatten = cs := by
  induction hlength : cs.length using Nat.strong_induction_on generalizing cs with
  | _ n ih =>
    rw [words_eq_cons h, List.flatten_cons]
    rcases readWord_rest cs with hrest | hrest
    · have happend := readWord_append cs
      rw [hrest] at happend ⊢
      rw [words_eq_nil rfl, List.flatten_nil, happend]
    · rw [ih _ (hlength ▸ length_readWord_lt h) hrest rfl, readWord_append]

/-! ## Pieces of long words -/

theorem flatten_chop (width : Nat) (piece : List Char) (used : Nat) (cs : List Char) :
    (chop width piece used cs).flatten = piece ++ cs := by
  induction cs generalizing piece used with
  | nil => rw [chop, List.flatten_singleton, List.append_nil]
  | cons c cs ih =>
    rw [chop]
    split
    · rw [ih, List.append_assoc, List.singleton_append]
    · rw [List.flatten_cons, ih, List.singleton_append]

/-- Where there is room for the widest character, there is room for every piece. -/
theorem cells_le_of_mem_chop (hwidth : 2 ≤ width) (hused : cells piece = used)
    (hpiece : used ≤ width) : ∀ piece' ∈ chop width piece used cs, cells piece' ≤ width := by
  induction cs generalizing piece used with
  | nil =>
    rw [chop, List.forall_mem_singleton, hused]
    exact hpiece
  | cons c cs ih =>
    rw [chop]
    split
    · next hfits => exact ih (by rw [cells_append, hused]; rfl) hfits
    · have hc : cellWidth c ≤ width := (cellWidth_le_two c).trans hwidth
      exact List.forall_mem_cons.2 ⟨hused ▸ hpiece, ih rfl hc⟩

/-! ## Lines under construction -/

namespace Layout

/-- The lines so far hold a text, and each fits but for white space at its end. -/
structure Holds (l : Layout) (width : Nat) (text : List Char) : Prop where
  text : l.lines.flatten = text
  used : l.used = cells l.line
  fits : ∀ line ∈ l.lines, cells (trimEnd line) ≤ width

variable {l : Layout}

theorem holds_init (width : Nat) : init.Holds width [] where
  text := rfl
  used := rfl
  fits := List.forall_mem_singleton.2 (Nat.zero_le _)

theorem Holds.breakBefore (h : l.Holds width text) (hfits : cells (trimEnd piece) ≤ width) :
    (l.breakBefore piece).Holds width (text ++ piece) := by
  obtain ⟨rfl, -, hlines⟩ := h
  rw [Layout.breakBefore]
  split
  · next hempty =>
    rw [List.isEmpty_iff] at hempty
    refine ⟨?_, rfl, fun line hline => ?_⟩
    · rw [lines, lines, hempty, List.flatten_append, List.flatten_append]
      simp only [List.flatten_singleton, List.append_nil]
    · rcases List.mem_append.1 hline with hline | hline
      · exact hlines line (List.mem_append_left _ hline)
      · rw [List.mem_singleton.1 hline]
        exact hfits
  · refine ⟨?_, rfl, fun line hline => ?_⟩
    · rw [lines, lines, List.flatten_append, List.flatten_singleton]
    · rcases List.mem_append.1 hline with hline | hline
      · exact hlines line hline
      · rw [List.mem_singleton.1 hline]
        exact hfits

theorem Holds.foldl_breakBefore (h : l.Holds width text) {pieces : List (List Char)}
    (hfits : ∀ piece ∈ pieces, cells (trimEnd piece) ≤ width) :
    (pieces.foldl Layout.breakBefore l).Holds width (text ++ pieces.flatten) := by
  induction pieces generalizing l text with
  | nil => rwa [List.flatten_nil, List.append_nil]
  | cons piece pieces ih =>
    obtain ⟨hpiece, hpieces⟩ := List.forall_mem_cons.1 hfits
    have hrest := ih (h.breakBefore hpiece) hpieces
    rwa [List.append_assoc, ← List.flatten_cons] at hrest

/-- A word that is added is on the lines, and they still fit. -/
theorem Holds.add (h : l.Holds width text) (hwidth : 2 ≤ width) (word : List Char) :
    (l.add width word).Holds width (text ++ word) := by
  simp only [Layout.add]
  split
  · next hfits =>
    obtain ⟨rfl, hused, hlines⟩ := h
    refine ⟨?_, ?_, fun line hline => ?_⟩
    · simp only [lines, List.flatten_append, List.flatten_singleton, List.append_assoc]
    · rw [cells_append, hused]
    · rcases List.mem_append.1 hline with hline | hline
      · exact hlines line (List.mem_append_left _ hline)
      · rw [List.mem_singleton.1 hline]
        exact (cells_trimEnd_append_le l.line word).trans (hused ▸ hfits)
  · split
    · have hpieces : ∀ piece ∈ chop width [] 0 word, cells (trimEnd piece) ≤ width :=
        fun piece hpiece => (cells_trimEnd_le piece).trans
          (cells_le_of_mem_chop hwidth rfl (Nat.zero_le _) piece hpiece)
      have hrest := h.foldl_breakBefore hpieces
      rwa [flatten_chop, List.nil_append] at hrest
    · next hwide => exact h.breakBefore (Nat.le_of_not_lt hwide)

theorem Holds.foldl_add (h : l.Holds width text) (hwidth : 2 ≤ width) (words : List (List Char)) :
    (words.foldl (Layout.add width) l).Holds width (text ++ words.flatten) := by
  induction words generalizing l text with
  | nil => rwa [List.flatten_nil, List.append_nil]
  | cons word words ih =>
    have hrest := ih (h.add hwidth word)
    rwa [List.append_assoc, ← List.flatten_cons] at hrest

end Layout

/-! ## Fitting lines -/

theorem cells_cropCells_le (width : Nat) (cs : List Char) : cells (cropCells width cs) ≤ width := by
  induction cs generalizing width with
  | nil => exact Nat.zero_le _
  | cons c cs ih =>
    rw [cropCells]
    split
    · next hfits =>
      have hrest := ih (width - cellWidth c)
      rw [cells_cons]
      omega
    · rw [cells_replicate]

theorem mem_cropCells (h : c ∈ cropCells width cs) : c = ' ' ∨ c ∈ cs := by
  induction cs generalizing width with
  | nil => exact absurd h List.not_mem_nil
  | cons d cs ih =>
    rw [cropCells] at h
    split at h
    · rcases List.mem_cons.1 h with rfl | h
      · exact .inr List.mem_cons_self
      · exact (ih h).imp_right (List.mem_cons_of_mem _)
    · exact .inl (List.eq_of_mem_replicate h)

/-- Cropping keeps what fits, and so it takes away white space at most. -/
theorem visible_cropCells (h : cells a ≤ width) (hblank : visible b = []) :
    visible (cropCells width (a ++ b)) = visible a := by
  induction a generalizing width with
  | nil =>
    refine visible_eq_nil_iff.2 fun c hc => ?_
    rcases mem_cropCells hc with rfl | hc
    · rfl
    · exact visible_eq_nil_iff.1 hblank c hc
  | cons c a ih =>
    rw [cells_cons] at h
    rw [List.cons_append, cropCells, if_pos (by omega)]
    exact visible_cons_congr c (ih (by omega))

/-- A line that loses no more characters than it has white space at its end loses nothing else. -/
theorem take_eq_trimEnd_append {n : Nat} (h : n ≤ (line.rtakeWhile isBlank).length) :
    ∃ blanks, visible blanks = [] ∧ line.take (line.length - n) = trimEnd line ++ blanks := by
  have hsplit := trimEnd_append_rtakeWhile line
  have hlength : line.length = (trimEnd line).length + (line.rtakeWhile isBlank).length := by
    rw [← List.length_append, hsplit]
  refine ⟨(line.rtakeWhile isBlank).take ((line.rtakeWhile isBlank).length - n), ?_, ?_⟩
  · exact visible_eq_nil_iff.2 fun c hc => List.mem_rtakeWhile_imp (List.mem_of_mem_take hc)
  · conv_lhs => rw [← hsplit, List.take_append, List.length_append]
    rw [List.take_of_length_le (by omega)]
    exact congrArg (fun k => _ ++ List.take k _) (by omega)

theorem visible_fitLine (h : cells (trimEnd line) ≤ width) :
    visible (fitLine width line) = visible line := by
  have hblanks : min (line.reverse.takeWhile isBlank).length (line.length - width) ≤
      (line.rtakeWhile isBlank).length := by
    rw [List.rtakeWhile, List.length_reverse]
    exact Nat.min_le_left ..
  obtain ⟨blanks, hblank, htake⟩ := take_eq_trimEnd_append hblanks
  simp only [fitLine, htake]
  split
  · rw [visible_cropCells h hblank, visible_trimEnd]
  · rw [visible_append, hblank, List.append_nil, visible_trimEnd]

theorem cells_fitLine_le (width : Nat) (line : List Char) : cells (fitLine width line) ≤ width := by
  simp only [fitLine]
  split
  · exact cells_cropCells_le ..
  · next h => exact Nat.le_of_not_lt h

theorem mem_fitLine (h : c ∈ fitLine width line) : c = ' ' ∨ c ∈ line := by
  simp only [fitLine] at h
  split at h
  · exact (mem_cropCells h).imp_right List.mem_of_mem_take
  · exact .inr (List.mem_of_mem_take h)

/-! ## Wrapped labels -/

/-- The lines that a line without tabs is laid out in, before they are fitted. -/
def laidOut (width : Nat) (line : List Char) : List (List Char) :=
  match words line with
  | [] => [line]
  | words => (words.foldl (Layout.add width) Layout.init).lines

theorem wrapLine_eq (width : Nat) (line : List Char) :
    wrapLine width line = (laidOut width (expandTabs 0 line)).map (fitLine width) := rfl

/-- A line is laid out as it is, in lines that fit but for white space at their ends. -/
theorem laidOut_spec (hwidth : 2 ≤ width) (line : List Char) :
    (laidOut width line).flatten = line ∧
      ∀ part ∈ laidOut width line, cells (trimEnd part) ≤ width := by
  rw [laidOut]
  by_cases hblank : visible line = []
  · rw [words_eq_nil hblank]
    refine ⟨List.flatten_singleton, List.forall_mem_singleton.2 ?_⟩
    have htrim : trimEnd line = [] := List.rdropWhile_eq_nil_iff.2 (visible_eq_nil_iff.1 hblank)
    rw [htrim]
    exact Nat.zero_le _
  · have hholds := (Layout.holds_init width).foldl_add hwidth (words line)
    rw [List.nil_append, flatten_words hblank] at hholds
    rw [words_eq_cons hblank] at hholds ⊢
    exact ⟨hholds.text, hholds.fits⟩

theorem visible_wrapLine (hwidth : 2 ≤ width) (line : List Char) :
    visible (wrapLine width line).flatten = visible line := by
  obtain ⟨hflatten, hfits⟩ := laidOut_spec hwidth (expandTabs 0 line)
  rw [wrapLine_eq, visible_flatten, List.flatMap_map,
    List.flatMap_congr fun part hpart => visible_fitLine (hfits part hpart), ← visible_flatten,
    hflatten, visible_expandTabs]

theorem mem_of_mem_wrapLine (hwidth : 2 ≤ width) {part : List Char}
    (hpart : part ∈ wrapLine width line) (hc : c ∈ part) : c = ' ' ∨ c ∈ line := by
  rw [wrapLine_eq] at hpart
  obtain ⟨laid, hlaid, rfl⟩ := List.mem_map.1 hpart
  rcases mem_fitLine hc with rfl | hc
  · exact .inl rfl
  · have hmem := List.mem_flatten.2 ⟨laid, hlaid, hc⟩
    rw [(laidOut_spec hwidth _).1] at hmem
    exact mem_expandTabs hmem

/-- White space and cursor controls aside, a wrapped label says what the label says. -/
theorem visible_wrap (hwidth : 2 ≤ width) (label : List Char) :
    visible (wrap width label).flatten = visible (label.filter (!isCursorControl ·)) := by
  have hline (line : List Char) : (wrapLine width line).flatMap visible = visible line := by
    rw [← visible_flatten, visible_wrapLine hwidth]
  rw [wrap, if_neg (by omega), visible_flatten, List.flatMap_assoc, funext hline,
    ← visible_flatten, visible_splitLines]

/-- Without any room a label has no lines. -/
theorem wrap_zero (label : List Char) : wrap 0 label = [] := rfl

/-- Every line fits. -/
theorem cells_le_of_mem_wrap (h : line ∈ wrap width label) : cells line ≤ width := by
  rw [wrap] at h
  split at h
  · exact absurd h List.not_mem_nil
  · obtain ⟨part, -, hline⟩ := List.mem_flatMap.1 h
    rw [wrapLine_eq] at hline
    obtain ⟨laid, -, rfl⟩ := List.mem_map.1 hline
    exact cells_fitLine_le ..

theorem not_mem_of_mem_wrap (hwidth : 2 ≤ width) (h : line ∈ wrap width label) :
    '\n' ∉ line := by
  rw [wrap, if_neg (by omega)] at h
  obtain ⟨part, hpart, hline⟩ := List.mem_flatMap.1 h
  intro hmem
  rcases mem_of_mem_wrapLine hwidth hline hmem with heq | hmem
  · exact absurd heq (by decide)
  · exact not_mem_of_mem_splitLines hpart hmem

end GraphMotif
