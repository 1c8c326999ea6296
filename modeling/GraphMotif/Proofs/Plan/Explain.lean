import GraphMotif.Plan.Explain
import GraphMotif.Proofs.Text.Wrap
import Mathlib.Data.List.Forall2

/-!
# Explained plans say what the plans are

The tree of a plan shows its labels one after the other, the pattern first and then every operator
before its inputs, each on lines of its own behind the guides of its depth. Guides aside, these
lines say what the label says, as long as they leave room for it: each level takes four cells of the
page, and at depth thirty there are none left. Operators that far down are not shown at all.
-/

namespace GraphMotif

/-! ## Guides -/

/-- What guides are made of. -/
def guidePieces : List String :=
  [branchGuide true, branchGuide false, trunkGuide true, trunkGuide false]

/-- The guides before the lines of a label at a depth, a piece for each level. -/
inductive IsGuides : Nat → String → Prop
  | none : IsGuides 0 ""
  | append {depth : Nat} {guides piece : String} (h : IsGuides depth guides)
    (hpiece : piece ∈ guidePieces) : IsGuides (depth + 1) (guides ++ piece)

theorem branchGuide_mem (last : Bool) : branchGuide last ∈ guidePieces := by
  cases last <;> decide

theorem trunkGuide_mem (last : Bool) : trunkGuide last ∈ guidePieces := by
  cases last <;> decide

theorem IsGuides.not_mem {depth : Nat} {guides : String} (h : IsGuides depth guides) :
    '\n' ∉ guides.toList := by
  induction h with
  | none => exact List.not_mem_nil
  | append _ hpiece ih =>
    have hpieces : ∀ piece ∈ guidePieces, '\n' ∉ piece.toList := by decide
    rw [String.toList_append, List.mem_append, not_or]
    exact ⟨ih, hpieces _ hpiece⟩

/-! ## Blocks of lines -/

/-- The lines of a label, each with the guides before it. -/
abbrev Block := List (String × String)

/-- The lines of a label behind one guide, and behind another after the first line. -/
def Block.ofLines (firstGuide otherGuide : String) : List String → Block
  | [] => []
  | line :: lines => (firstGuide, line) :: lines.map (otherGuide, ·)

/-- What a block says without guides and white space. -/
def Block.text (block : Block) : List Char := visible (block.flatMap (·.2.toList))

/-- A line of a block. -/
def guidedLine (line : String × String) : String := line.1 ++ line.2

theorem guided_eq (firstGuide otherGuide : String) (lines : List String) :
    guided firstGuide otherGuide lines =
      (Block.ofLines firstGuide otherGuide lines).map guidedLine := by
  cases lines with
  | nil => rfl
  | cons line lines =>
    rw [guided, Block.ofLines, List.map_cons, List.map_map]
    rfl

/-- There is room for labels at a depth. -/
def HasRoom (depth : Nat) : Prop := 4 * depth < pageWidth

instance (depth : Nat) : Decidable (HasRoom depth) := inferInstanceAs (Decidable (_ < _))

/-- What is shown of a label at a depth, white space aside. -/
def shownText (depth : Nat) (label : String) : List Char :=
  if HasRoom depth then visible (label.toList.filter (!isCursorControl ·)) else []

/-- A block shows a label at a depth: its lines are behind guides and fit the page, and they say
what is shown of the label. -/
structure Shows (level : Nat × String) (block : Block) : Prop where
  guides : ∀ line ∈ block, IsGuides level.1 line.1
  fits : ∀ line ∈ block, '\n' ∉ line.2.toList ∧ cells line.2.toList ≤ pageWidth - 4 * level.1
  text : block.text = shownText level.1 level.2

theorem mem_ofLines {firstGuide otherGuide : String} {lines : List String} {line : String × String}
    (h : line ∈ Block.ofLines firstGuide otherGuide lines) :
    (line.1 = firstGuide ∨ line.1 = otherGuide) ∧ line.2 ∈ lines := by
  cases lines with
  | nil => exact absurd h List.not_mem_nil
  | cons first lines =>
    rcases List.mem_cons.1 h with rfl | h
    · exact ⟨.inl rfl, List.mem_cons_self⟩
    · obtain ⟨other, hother, rfl⟩ := List.mem_map.1 h
      exact ⟨.inr rfl, List.mem_cons_of_mem _ hother⟩

theorem text_ofLines (firstGuide otherGuide : String) (lines : List String) :
    (Block.ofLines firstGuide otherGuide lines).text = visible (lines.flatMap String.toList) := by
  cases lines with
  | nil => rfl
  | cons line lines =>
    rw [Block.text, Block.ofLines, List.flatMap_cons, List.flatMap_cons, List.flatMap_map]

/-- Where there is no room, labels have no lines. -/
theorem labelLines_of_not_hasRoom {depth : Nat} (h : ¬HasRoom depth) (label : String) :
    labelLines depth label = [] := by
  have hwidth : pageWidth - 4 * depth = 0 := by
    rw [HasRoom] at h
    omega
  rw [labelLines, hwidth, wrap_zero, List.map_nil]

/-- Where there is some room, there is room for four cells. -/
theorem four_le_of_hasRoom {depth : Nat} (h : HasRoom depth) : 4 ≤ pageWidth - 4 * depth := by
  rw [HasRoom, pageWidth] at h
  rw [pageWidth]
  omega

theorem shows_ofLines {depth : Nat} {firstGuide otherGuide : String}
    (hfirst : IsGuides depth firstGuide) (hother : IsGuides depth otherGuide) (label : String) :
    Shows (depth, label) (.ofLines firstGuide otherGuide (labelLines depth label)) where
  guides line hline := by
    rcases (mem_ofLines hline).1 with heq | heq
    · exact heq ▸ hfirst
    · exact heq ▸ hother
  fits line hline := by
    by_cases hroom : HasRoom depth
    · have hwidth : 2 ≤ pageWidth - 4 * depth := (four_le_of_hasRoom hroom).trans' (by decide)
      obtain ⟨wrapped, hwrapped, heq⟩ := List.mem_map.1 (mem_ofLines hline).2
      rw [← heq, String.toList_ofList]
      exact ⟨not_mem_of_mem_wrap hwidth hwrapped, cells_le_of_mem_wrap hwrapped⟩
    · rw [labelLines_of_not_hasRoom hroom] at hline
      exact absurd hline List.not_mem_nil
  text := by
    rw [text_ofLines, shownText]
    split
    · next hroom =>
      have hwidth : 2 ≤ pageWidth - 4 * depth := (four_le_of_hasRoom hroom).trans' (by decide)
      rw [labelLines, List.flatMap_map, ← visible_wrap hwidth]
      simp only [String.toList_ofList]
      rw [List.flatMap_id']
    · next hroom => rw [labelLines_of_not_hasRoom hroom]; rfl

/-! ## Trees -/

namespace Plan

/-- An operator and all below it, each before its inputs and with its depth. -/
def leveled (depth : Nat) : Plan → List (Nat × Plan)
  | empty columns => [(depth, empty columns)]
  | scan element tag columns => [(depth, scan element tag columns)]
  | join left right equalities =>
    (depth, join left right equalities) ::
      (left.leveled (depth + 1) ++ right.leveled (depth + 1))
  | antiJoin left right equalities =>
    (depth, antiJoin left right equalities) ::
      (left.leveled (depth + 1) ++ right.leveled (depth + 1))
  | filter child equalities => (depth, filter child equalities) :: child.leveled (depth + 1)
  | project child outputs => (depth, project child outputs) :: child.leveled (depth + 1)

/-- The lines of an operator and all below it, one block for each. -/
def blocks (depth : Nat) (guides : String) (last : Bool) (node : Plan) : List Block :=
  let own := Block.ofLines (guides ++ branchGuide last) (guides ++ trunkGuide last)
    (labelLines depth node.describe)
  let below := guides ++ trunkGuide last
  match node with
  | empty _ | scan .. => [own]
  | join left right _ | antiJoin left right _ =>
    own :: (left.blocks (depth + 1) below false ++ right.blocks (depth + 1) below true)
  | filter child _ | project child _ => own :: child.blocks (depth + 1) below true

theorem map_snd_leveled (depth : Nat) (node : Plan) :
    (node.leveled depth).map Prod.snd = node.walk := by
  induction node generalizing depth with
  | empty columns => rfl
  | scan element tag columns => rfl
  | join left right equalities ihl ihr | antiJoin left right equalities ihl ihr =>
    rw [leveled, walk, List.map_cons, List.map_append, ihl, ihr]
  | filter child equalities ih => rw [leveled, walk, List.map_cons, ih]
  | project child outputs ih => rw [leveled, walk, List.map_cons, ih]

theorem treeLines_eq (depth : Nat) (guides : String) (last : Bool) (node : Plan) :
    node.treeLines depth guides last = (node.blocks depth guides last).flatten.map guidedLine := by
  induction node generalizing depth guides last with
  | empty columns | scan element tag columns =>
    rw [treeLines, blocks, List.flatten_singleton, guided_eq]
  | join left right equalities ihl ihr | antiJoin left right equalities ihl ihr =>
    rw [treeLines, blocks, List.flatten_cons, List.flatten_append, List.map_append, List.map_append,
      ← ihl, ← ihr, guided_eq, List.append_assoc]
  | filter child equalities ih | project child outputs ih =>
    rw [treeLines, blocks, List.flatten_cons, List.map_append, ← ih, guided_eq]

theorem shows_own {depth : Nat} {guides : String} (hguides : IsGuides depth guides) (last : Bool)
    (label : String) : Shows (depth + 1, label) (.ofLines (guides ++ branchGuide last)
      (guides ++ trunkGuide last) (labelLines (depth + 1) label)) :=
  shows_ofLines (hguides.append (branchGuide_mem last)) (hguides.append (trunkGuide_mem last)) label

/-- Every operator is shown, in the order in which they are walked. -/
theorem shows_blocks {depth : Nat} {guides : String} (hguides : IsGuides depth guides) (last : Bool)
    (node : Plan) : List.Forall₂ Shows
      ((node.leveled (depth + 1)).map fun level => (level.1, level.2.describe))
      (node.blocks (depth + 1) guides last) := by
  induction node generalizing depth guides last with
  | empty columns | scan element tag columns =>
    exact .cons (shows_own hguides last _) .nil
  | join left right equalities ihl ihr | antiJoin left right equalities ihl ihr =>
    have hbelow := hguides.append (trunkGuide_mem last)
    rw [leveled, List.map_cons, List.map_append]
    exact .cons (shows_own hguides last _) (List.rel_append (ihl hbelow false) (ihr hbelow true))
  | filter child equalities ih | project child outputs ih =>
    exact .cons (shows_own hguides last _) (ih (hguides.append (trunkGuide_mem last)) true)

end Plan

/-! ## Quoted texts -/

theorem isPrintable_of_mem_hexDigits {width n : Nat} {c : Char} (hc : c ∈ hexDigits width n) :
    isPrintable c = true := by
  have hdigits : ∀ digit < 16, isPrintable (Nat.digitChar digit) = true := by decide
  obtain ⟨i, -, rfl⟩ := List.mem_map.1 hc
  exact hdigits _ (Nat.mod_lt _ (by decide))

theorem isPrintable_of_mem_escapeChar {quote c d : Char} (hquote : isPrintable quote = true)
    (hd : d ∈ escapeChar quote c) : isPrintable d = true := by
  have hbackslash : isPrintable '\\' = true := by decide
  have hescape {rest : List Char} (hrest : ∀ e ∈ rest, isPrintable e = true)
      (hd : d ∈ '\\' :: rest) : isPrintable d = true := by
    rcases List.mem_cons.1 hd with rfl | hd
    · exact hbackslash
    · exact hrest d hd
  have hhex (letter : Char) (hletter : isPrintable letter = true) (width : Nat) :
      ∀ e ∈ letter :: hexDigits width c.toNat, isPrintable e = true :=
    List.forall_mem_cons.2 ⟨hletter, fun _ => isPrintable_of_mem_hexDigits⟩
  rw [escapeChar] at hd
  split at hd
  · next h =>
    have hc : isPrintable c = true := by
      rcases h with rfl | rfl
      · exact hquote
      · exact hbackslash
    exact hescape (List.forall_mem_singleton.2 hc) hd
  split at hd
  · exact hescape (List.forall_mem_singleton.2 (by decide)) hd
  split at hd
  · exact hescape (List.forall_mem_singleton.2 (by decide)) hd
  split at hd
  · exact hescape (List.forall_mem_singleton.2 (by decide)) hd
  split at hd
  · next hc =>
    rw [List.mem_singleton.1 hd]
    exact hc
  split at hd
  · exact hescape (hhex 'x' (by decide) 2) hd
  split at hd
  · exact hescape (hhex 'u' (by decide) 4) hd
  · exact hescape (hhex 'U' (by decide) 8) hd

/-- A quoted text is printable. -/
theorem isPrintable_of_mem_quoted {text : String} {c : Char} (hc : c ∈ (quoted text).toList) :
    isPrintable c = true := by
  have hquote : isPrintable (quoteFor text.toList) = true := by
    rw [quoteFor]
    split <;> decide
  rw [quoted, String.toList_ofList, List.mem_append, List.mem_cons] at hc
  rcases hc with (rfl | hc) | hc
  · exact hquote
  · obtain ⟨d, -, hc⟩ := List.mem_flatMap.1 hc
    exact isPrintable_of_mem_escapeChar hquote hc
  · rw [List.mem_singleton.1 hc]
    exact hquote

/-! ## What is said -/

/-- An operator is not described by white space alone. -/
theorem Plan.visible_describe (node : Plan) : visible node.describe.toList ≠ [] := by
  have happend {a : String} (ha : visible a.toList ≠ []) (b : String) :
      visible (a ++ b).toList ≠ [] := by
    rw [String.toList_append, visible_append]
    exact List.append_ne_nil_of_left_ne_nil ha _
  cases node with
  | empty columns =>
    rw [Plan.describe]
    decide
  | scan element tag columns =>
    rw [Plan.describe, String.append_assoc, String.append_assoc]
    exact happend (by decide) _
  | join left right equalities =>
    rw [Plan.describe]
    split
    · decide
    · exact happend (by decide) _
  | antiJoin left right equalities =>
    rw [Plan.describe]
    split
    · decide
    · exact happend (by decide) _
  | filter child equalities => exact happend (by decide) _
  | project child outputs =>
    rw [Plan.describe]
    split
    · decide
    · exact happend (by decide) _

/-- A label is shown as it is, white space aside, if there is room for it and it does not ring or
step back. -/
theorem shownText_eq_iff {depth : Nat} {label : String} (hlabel : visible label.toList ≠ []) :
    shownText depth label = visible label.toList ↔
      HasRoom depth ∧ '\x07' ∉ label.toList ∧ '\x08' ∉ label.toList := by
  have hcontrols : visible (label.toList.filter (!isCursorControl ·)) = visible label.toList ↔
      '\x07' ∉ label.toList ∧ '\x08' ∉ label.toList := by
    have hsplit : visible (label.toList.filter (!isCursorControl ·)) =
        (visible label.toList).filter (!isCursorControl ·) := List.filter_comm ..
    rw [hsplit, List.filter_eq_self]
    constructor
    · intro hall
      refine ⟨fun hmem => ?_, fun hmem => ?_⟩
      · exact absurd (hall _ (List.mem_filter.2 ⟨hmem, rfl⟩)) (by decide)
      · exact absurd (hall _ (List.mem_filter.2 ⟨hmem, rfl⟩)) (by decide)
    · rintro ⟨hbell, hback⟩ c hc
      obtain ⟨hmem, hblank⟩ := List.mem_filter.1 hc
      rw [Bool.not_eq_true'] at hblank ⊢
      refine Bool.eq_false_iff.2 fun hcontrol => ?_
      simp only [isCursorControl, Bool.or_eq_true, beq_iff_eq] at hcontrol
      -- the other cursor controls are white space
      rcases hcontrol with (((rfl | rfl) | rfl) | rfl) | rfl
      · exact hbell hmem
      · exact hback hmem
      all_goals exact absurd hblank (by decide)
  rw [shownText]
  split
  · next hroom => rw [hcontrols, and_iff_right hroom]
  · next hroom => exact iff_of_false hlabel.symm fun h => hroom h.1

theorem sublist_shownText (depth : Nat) (label : String) :
    (shownText depth label).Sublist (visible label.toList) := by
  rw [shownText]
  split
  · exact List.filter_sublist.filter _
  · exact List.nil_sublist _

theorem flatMap_sublist {α β : Type} {f g : α → List β} {xs : List α}
    (h : ∀ x ∈ xs, (f x).Sublist (g x)) : (xs.flatMap f).Sublist (xs.flatMap g) := by
  induction xs with
  | nil => exact .slnil
  | cons x xs ih =>
    obtain ⟨hx, hxs⟩ := List.forall_mem_cons.1 h
    exact hx.append (ih hxs)

/-- Where every part may lose items only, the whole is the same if every part is. -/
theorem flatMap_eq_iff_of_sublist {α β : Type} {f g : α → List β} {xs : List α}
    (h : ∀ x ∈ xs, (f x).Sublist (g x)) :
    xs.flatMap f = xs.flatMap g ↔ ∀ x ∈ xs, f x = g x := by
  refine ⟨fun heq => ?_, List.flatMap_congr⟩
  induction xs with
  | nil => exact fun _ hx => absurd hx List.not_mem_nil
  | cons x xs ih =>
    obtain ⟨hx, hxs⟩ := List.forall_mem_cons.1 h
    rw [List.flatMap_cons, List.flatMap_cons] at heq
    -- neither the first part nor the others can be shorter
    have hlength := congrArg List.length heq
    rw [List.length_append, List.length_append] at hlength
    have hfirst := hx.eq_of_length (by
      have := hx.length_le
      have := (flatMap_sublist hxs).length_le
      omega)
    rw [hfirst] at heq
    exact List.forall_mem_cons.2 ⟨hfirst, ih hxs (List.append_cancel_left heq)⟩

theorem exists_shows {levels : List (Nat × String)} {blocks : List Block}
    (h : List.Forall₂ Shows levels blocks) {block : Block} (hblock : block ∈ blocks) :
    ∃ level, Shows level block := by
  induction h with
  | nil => exact absurd hblock List.not_mem_nil
  | cons hshows _ ih =>
    rcases List.mem_cons.1 hblock with rfl | hblock
    · exact ⟨_, hshows⟩
    · exact ih hblock

/-- Blocks say what is shown of their labels. -/
theorem flatMap_text_eq {levels : List (Nat × String)} {blocks : List Block}
    (h : List.Forall₂ Shows levels blocks) :
    blocks.flatMap Block.text = levels.flatMap fun level => shownText level.1 level.2 := by
  induction h with
  | nil => rfl
  | cons hshows _ ih => rw [List.flatMap_cons, List.flatMap_cons, hshows.text, ih]

/-! ## The page -/

theorem splitLines_flatMap {lines : List (List Char)} (hlines : ∀ line ∈ lines, '\n' ∉ line) :
    splitLines (lines.flatMap (· ++ ['\n'])) = lines ++ [[]] := by
  induction lines with
  | nil => rfl
  | cons line lines ih =>
    obtain ⟨hline, hlines⟩ := List.forall_mem_cons.1 hlines
    rw [List.flatMap_cons, List.append_assoc, List.singleton_append, splitLines_append hline,
      ih hlines, List.cons_append]

namespace MatchPlan

/-- The label of the pattern. -/
def title (p : MatchPlan) : String := "Pattern " ++ quoted p.pattern

/-- The labels with their depths: the pattern, then every operator before its inputs. -/
def labels (p : MatchPlan) : List (Nat × String) :=
  (0, p.title) :: (p.root.leveled 1).map fun level => (level.1, level.2.describe)

/-- The lines, a block for each label. -/
def blocks (p : MatchPlan) : List Block :=
  .ofLines "" "" (labelLines 0 p.title) :: p.root.blocks 1 "" true

theorem treeLines_eq (p : MatchPlan) : p.treeLines = p.blocks.flatten.map guidedLine := by
  have hown : guided "" "" (labelLines 0 p.title) = labelLines 0 p.title := by
    cases labelLines 0 p.title with
    | nil => rfl
    | cons line lines =>
      simp only [guided, String.empty_append, List.map_id']
  rw [treeLines, blocks, List.flatten_cons, List.map_append, ← guided_eq, hown, Plan.treeLines_eq]
  rfl

theorem shows_blocks (p : MatchPlan) : List.Forall₂ Shows p.labels p.blocks :=
  .cons (shows_ofLines .none .none p.title) (Plan.shows_blocks .none true p.root)

/-- The lines of an explanation, each ended by a line feed, are those of its blocks. -/
theorem splitLines_explain (p : MatchPlan) : splitLines p.explain.toList =
    (p.blocks.flatten.map fun line => (guidedLine line).toList) ++ [[]] := by
  have hexplain : p.explain.toList =
      (p.blocks.flatten.map fun line => (guidedLine line).toList).flatMap (· ++ ['\n']) := by
    rw [explain, treeLines_eq, String.toList_join, List.map_map, List.flatMap_map, List.flatMap_map]
    exact List.flatMap_congr fun line _ => String.toList_append
  rw [hexplain, splitLines_flatMap]
  rw [List.forall_mem_map]
  intro line hline
  obtain ⟨block, hblock, hline⟩ := List.mem_flatten.1 hline
  obtain ⟨level, hshows⟩ := exists_shows p.shows_blocks hblock
  rw [guidedLine, String.toList_append, List.mem_append, not_or]
  exact ⟨(hshows.guides line hline).not_mem, (hshows.fits line hline).1⟩

/-- What the lines say is what the labels say, white space aside, exactly if there is room for every
operator and no description rings or steps back. -/
theorem flatMap_text_eq_iff (p : MatchPlan) :
    p.blocks.flatMap Block.text = p.labels.flatMap (fun level => visible level.2.toList) ↔
      ∀ level ∈ p.root.leveled 1, HasRoom level.1 ∧
        '\x07' ∉ level.2.describe.toList ∧ '\x08' ∉ level.2.describe.toList := by
  have htitle : visible p.title.toList ≠ [] := by
    rw [title, String.toList_append, visible_append]
    exact List.append_ne_nil_of_left_ne_nil (by decide) _
  have hcontrol (c : Char) (hword : c ∉ "Pattern ".toList) (hc : isPrintable c = false) :
      c ∉ p.title.toList := by
    rw [title, String.toList_append, List.mem_append, not_or]
    refine ⟨hword, fun hmem => ?_⟩
    rw [isPrintable_of_mem_quoted hmem] at hc
    cases hc
  have hshown : shownText 0 p.title = visible p.title.toList :=
    (shownText_eq_iff htitle).2
      ⟨by decide, hcontrol _ (by decide) (by decide), hcontrol _ (by decide) (by decide)⟩
  rw [flatMap_text_eq p.shows_blocks,
    flatMap_eq_iff_of_sublist fun level _ => sublist_shownText level.1 level.2, labels,
    List.forall_mem_cons, List.forall_mem_map, and_iff_right hshown]
  exact forall₂_congr fun level _ => shownText_eq_iff level.2.visible_describe

theorem map_snd_labels (p : MatchPlan) :
    p.labels.map Prod.snd = p.title :: p.root.walk.map Plan.describe := by
  rw [labels, List.map_cons, List.map_map, ← Plan.map_snd_leveled 1 p.root, List.map_map]
  rfl

/-- White space aside, the lines say what the title and all descriptions say, one after the other,
exactly if no operator is below depth twenty-nine and no description rings or steps back. -/
theorem flatMap_text_eq_walk_iff (p : MatchPlan) :
    p.blocks.flatMap Block.text =
        (p.title :: p.root.walk.map Plan.describe).flatMap (fun label => visible label.toList) ↔
      ∀ level ∈ p.root.leveled 1, level.1 < 30 ∧
        '\x07' ∉ level.2.describe.toList ∧ '\x08' ∉ level.2.describe.toList := by
  have hroom (depth : Nat) : HasRoom depth ↔ depth < 30 := by
    rw [HasRoom, pageWidth]
    omega
  rw [← map_snd_labels, List.flatMap_map, flatMap_text_eq_iff]
  simp only [hroom]

/-- The lines of an explanation are blocks, one for the title and one for each operator, in the
order of the walk. The lines of a block are behind the guides of its depth and fit the page. White
space aside, they say what the label says, but for the characters that ring and step back, or there
are none at all from depth thirty on. So the explanation says all that the plan says exactly if no
operator is that deep and no description has such characters. -/
theorem explain_shows (p : MatchPlan) :
    splitLines p.explain.toList =
        (p.blocks.flatten.map fun line => (guidedLine line).toList) ++ [[]] ∧
    List.Forall₂ Shows p.labels p.blocks ∧
    p.labels.map Prod.snd = p.title :: p.root.walk.map Plan.describe ∧
    (p.blocks.flatMap Block.text =
        (p.title :: p.root.walk.map Plan.describe).flatMap (fun label => visible label.toList) ↔
      ∀ level ∈ p.root.leveled 1, level.1 < 30 ∧
        '\x07' ∉ level.2.describe.toList ∧ '\x08' ∉ level.2.describe.toList) :=
  ⟨p.splitLines_explain, p.shows_blocks, p.map_snd_labels, p.flatMap_text_eq_walk_iff⟩

/-- Vertices none of which has anything to do with another, one more of them than the number. -/
def scattered : Nat → Plan
  | 0 => .scan .vertex "v" [idColumn]
  | n + 1 => .join (scattered n) (.scan .vertex "v" [idColumn]) []

/-- The plan of thirty vertices, none of which has anything to do with another. -/
def scatteredPlan : MatchPlan where
  child := scattered 29
  outputs := []
  pattern := ""

/-- The scan at the bottom of the plan is not shown. -/
theorem explain_scatteredPlan :
    (31, .scan .vertex "v" [idColumn]) ∈ scatteredPlan.root.leveled 1 ∧
    scatteredPlan.blocks.flatMap Block.text ≠
      (scatteredPlan.title :: scatteredPlan.root.walk.map Plan.describe).flatMap
        (fun label => visible label.toList) := by
  have hmem : (31, .scan .vertex "v" [idColumn]) ∈ scatteredPlan.root.leveled 1 := by
    decide +kernel
  refine ⟨hmem, fun heq => ?_⟩
  have hdepth := (scatteredPlan.flatMap_text_eq_walk_iff.1 heq _ hmem).1
  exact absurd hdepth (by decide)

end MatchPlan

end GraphMotif
