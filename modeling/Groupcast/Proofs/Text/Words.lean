import Groupcast.Text.Words
import Mathlib.Data.List.Basic

/-!
# What a text is made of

A line is made of words, which hold no blanks, and of gaps, which hold nothing else (`Spaced`).  A
text is made of lines, each of which but the last has one of the two endings (`Rows`).  Both are
said without regard to how a text is taken apart; `words_eq_iff` and `map_words_lines_iff` say that
taking it apart gives back what it is made of, and so that every text is made in one way.

The readers of configuration files see the lines that hold a word, each with its number
(`Rows.numberedLines_eq`).
-/

namespace Groupcast.Text

/-! ## Words in a line -/

/-- Blanks only. -/
def IsGap (cs : List Char) : Prop := ∀ c ∈ cs, isBlank c = true

/-- One character or more, and no blanks. -/
def IsWord (cs : List Char) : Prop := cs ≠ [] ∧ ∀ c ∈ cs, isBlank c = false

/-- A word may end where `rest` begins: there is a blank, or nothing. -/
def Separates (rest : List Char) : Prop := ∀ c ∈ rest.head?, isBlank c = true

/-- A line that holds words, with gaps before, between and after them. -/
inductive Spaced : List (List Char) → List Char → Prop
  | gap {gap : List Char} (hgap : IsGap gap) : Spaced [] gap
  | word {gap word rest : List Char} {ws : List (List Char)} (hgap : IsGap gap)
      (hword : IsWord word) (hrest : Separates rest) (hspaced : Spaced ws rest) :
      Spaced (word :: ws) (gap ++ word ++ rest)

variable {ws : List (List Char)} {line rest gap word : List Char} {c : Char}

theorem isGap_nil : IsGap [] := nofun

theorem IsGap.cons (hc : isBlank c = true) (h : IsGap gap) : IsGap (c :: gap) :=
  List.forall_mem_cons.mpr ⟨hc, h⟩

theorem Spaced.cons_blank (hc : isBlank c = true) (h : Spaced ws line) : Spaced ws (c :: line) := by
  cases h with
  | gap hgap => exact .gap (hgap.cons hc)
  | word hgap hword hrest hspaced => exact .word (hgap.cons hc) hword hrest hspaced

theorem Spaced.append_blank (hc : isBlank c = true) (h : Spaced ws line) :
    Spaced ws (line ++ [c]) := by
  induction h with
  | gap hgap =>
    exact .gap (List.forall_mem_append.mpr ⟨hgap, List.forall_mem_singleton.mpr hc⟩)
  | @word gap word rest ws hgap hword hrest _ ih =>
    rw [List.append_assoc]
    refine .word hgap hword (fun d hd => ?_) ih
    cases rest with
    | nil =>
      cases hd
      exact hc
    | cons e rest => exact hrest d hd

theorem firstWord_cons_blank (hc : isBlank c = true) (cs : List Char) :
    firstWord (c :: cs) = ([], words cs) := if_pos hc

theorem firstWord_cons (hc : isBlank c = false) (cs : List Char) :
    firstWord (c :: cs) = (c :: (firstWord cs).1, (firstWord cs).2) :=
  if_neg (hc ▸ Bool.false_ne_true)

theorem words_cons_blank (hc : isBlank c = true) (cs : List Char) : words (c :: cs) = words cs := by
  rw [words, firstWord_cons_blank hc]
  rfl

theorem words_gap_append (hgap : IsGap gap) (cs : List Char) : words (gap ++ cs) = words cs := by
  induction gap with
  | nil => rfl
  | cons c gap ih =>
    obtain ⟨hc, hgap⟩ := List.forall_mem_cons.mp hgap
    rw [List.cons_append, words_cons_blank hc, ih hgap]

/-- The first word ends where a blank is. -/
theorem firstWord_append (hword : ∀ c ∈ word, isBlank c = false) (hrest : Separates rest) :
    firstWord (word ++ rest) = (word, words rest) := by
  induction word with
  | nil =>
    cases rest with
    | nil => rfl
    | cons c rest =>
      rw [List.nil_append, words_cons_blank (hrest c rfl), firstWord_cons_blank (hrest c rfl)]
  | cons c word ih =>
    obtain ⟨hc, hword⟩ := List.forall_mem_cons.mp hword
    rw [List.cons_append, firstWord_cons hc, ih hword]

theorem Spaced.words_eq (h : Spaced ws line) : words line = ws := by
  induction h with
  | @gap gap hgap =>
    rw [← List.append_nil gap, words_gap_append hgap]
    rfl
  | @word gap word rest ws hgap hword hrest _ ih =>
    obtain ⟨c, w, rfl⟩ := List.exists_cons_of_ne_nil hword.1
    rw [List.append_assoc, words_gap_append hgap, words, firstWord_append hword.2 hrest, ih]
    rfl

theorem Spaced.consWord (hword : ∀ c ∈ word, isBlank c = false) (hrest : Separates rest)
    (h : Spaced ws rest) : Spaced (consWord word ws) (word ++ rest) := by
  cases word with
  | nil => exact h
  | cons c word => exact .word isGap_nil ⟨List.cons_ne_nil c word, hword⟩ hrest h

/-- A line is its first word, and words and gaps after that. -/
theorem exists_firstWord (line : List Char) :
    ∃ rest, line = (firstWord line).1 ++ rest ∧ (∀ c ∈ (firstWord line).1, isBlank c = false) ∧
      Separates rest ∧ Spaced (firstWord line).2 rest := by
  induction line with
  | nil => exact ⟨[], rfl, nofun, nofun, .gap nofun⟩
  | cons c line ih =>
    obtain ⟨rest, heq, hword, hrest, hspaced⟩ := ih
    cases hc : isBlank c with
    | true =>
      have hwords := hspaced.consWord hword hrest
      rw [← heq] at hwords
      rw [firstWord_cons_blank hc]
      refine ⟨c :: line, rfl, nofun, fun d hd => ?_, hwords.cons_blank hc⟩
      cases hd
      exact hc
    | false =>
      rw [firstWord_cons hc]
      exact ⟨rest, congrArg (c :: ·) heq, List.forall_mem_cons.mpr ⟨hc, hword⟩, hrest, hspaced⟩

theorem spaced_words (line : List Char) : Spaced (words line) line := by
  obtain ⟨rest, heq, hword, hrest, hspaced⟩ := exists_firstWord line
  have hwords := hspaced.consWord hword hrest
  rwa [← heq] at hwords

/-- **A line holds its words**, and no others. -/
theorem words_eq_iff : words line = ws ↔ Spaced ws line :=
  ⟨fun h => h ▸ spaced_words line, Spaced.words_eq⟩

/-! ## Lines in a text -/

/-- The two ways in which a line ends. -/
def endings : List (List Char) := [['\n'], ['\r', '\n']]

/-- A text with the words of each of its lines.  The last line has no ending. -/
inductive Rows : List (List (List Char)) → List Char → Prop
  | last {ws : List (List Char)} {line : List Char} (hspaced : Spaced ws line)
      (hline : '\n' ∉ line) : Rows [ws] line
  | line {ws : List (List Char)} {rows : List (List (List Char))} {line ending text : List Char}
      (hspaced : Spaced ws line) (hline : '\n' ∉ line) (hending : ending ∈ endings)
      (hrows : Rows rows text) : Rows (ws :: rows) (line ++ ending ++ text)

variable {rows : List (List (List Char))} {text : List Char}

theorem pieces_of_not_mem {separator : Char} {cs : List Char} (h : separator ∉ cs) :
    pieces separator cs = [cs] := by
  induction cs with
  | nil => rfl
  | cons c cs ih =>
    obtain ⟨hc, hcs⟩ := not_or.mp (List.mem_cons.not.mp h)
    rw [pieces, if_neg (Ne.symm hc), ih hcs]

theorem pieces_append {separator : Char} {cs : List Char} (h : separator ∉ cs)
    (rest : List Char) :
    pieces separator (cs ++ separator :: rest) = cs :: pieces separator rest := by
  induction cs with
  | nil => exact if_pos rfl
  | cons c cs ih =>
    obtain ⟨hc, hcs⟩ := not_or.mp (List.mem_cons.not.mp h)
    rw [List.cons_append, pieces, if_neg (Ne.symm hc), ih hcs]

theorem Rows.map_words_lines (h : Rows rows text) : (lines text).map words = rows := by
  induction h with
  | last hspaced hline =>
    rw [lines, pieces_of_not_mem hline, List.map_singleton, hspaced.words_eq]
  | @line ws rows line ending text hspaced hline hending _ ih =>
    rw [endings, List.mem_pair] at hending
    rcases hending with rfl | rfl
    · rw [List.append_assoc, List.singleton_append, lines, pieces_append hline, List.map_cons,
        hspaced.words_eq]
      exact congrArg (ws :: ·) ih
    · -- a carriage return is a blank at the end of its line
      have hline' : '\n' ∉ line ++ ['\r'] := by simp [hline]
      have happend : line ++ ['\r', '\n'] ++ text = line ++ ['\r'] ++ '\n' :: text := by simp
      rw [happend, lines, pieces_append hline', List.map_cons,
        (hspaced.append_blank (by decide)).words_eq]
      exact congrArg (ws :: ·) ih

theorem rows_map_words_lines (text : List Char) : Rows ((lines text).map words) text := by
  by_cases hmem : '\n' ∈ text
  · obtain ⟨line, rest, heq, hline⟩ := List.eq_append_cons_of_mem hmem
    have hshort : rest.length < text.length := by
      rw [heq, List.length_append, List.length_cons]
      omega
    rw [heq, lines, pieces_append hline, List.map_cons, List.append_cons]
    exact .line (spaced_words line) hline List.mem_cons_self (rows_map_words_lines rest)
  · rw [lines, pieces_of_not_mem hmem, List.map_singleton]
    exact .last (spaced_words text) hmem
termination_by text.length

/-- **A text has its lines**, and no others. -/
theorem map_words_lines_iff : (lines text).map words = rows ↔ Rows rows text :=
  ⟨fun h => h ▸ rows_map_words_lines text, Rows.map_words_lines⟩

/-- Every text is made of lines. -/
theorem exists_rows (text : List Char) : ∃ rows, Rows rows text := ⟨_, rows_map_words_lines text⟩

/-! ## Lines with words -/

/-- The rows that hold a word, each with its number.  All rows count. -/
def heldRows (rows : List (List (List Char))) : List (Nat × List (List Char)) :=
  (numberFrom 1 rows).filter fun r => !r.2.isEmpty

theorem map_snd_heldRows : (heldRows rows).map Prod.snd = rows.filter fun row => !row.isEmpty := by
  rw [heldRows]
  generalize 1 = n
  induction rows generalizing n with
  | nil => rfl
  | cons row rows ih =>
    rw [numberFrom, List.filter_cons, List.filter_cons]
    split
    · rw [List.map_cons, ih]
    · exact ih (n + 1)

/-- The readers of configuration files see the rows that hold a word. -/
theorem Rows.numberedLines_eq (h : Rows rows text) : numberedLines text = heldRows rows := by
  rw [numberedLines, h.map_words_lines]
  rfl

end Groupcast.Text
