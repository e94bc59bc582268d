import Groupcast.Proofs.FirstFault
import Groupcast.Proofs.Text.Numeral
import Groupcast.Proofs.Text.Words
import Groupcast.Scenario

/-!
# What scenario files mean

The lines of a scenario file that hold a word describe a scenario (`Describes`) or have a fault
(`Fault`), and the fault says which line is to blame and why.  Every file does one or the other
(`describes_or_fault`), since what is looked at is settled in a fixed order: the header, then the
announced proposals line by line, then their number.

`parse_exact` says that a file is read as what it describes, and refused for its fault, in every
case but one.  Room for the proposals is made before the lines are looked at, so that a header that
announces more of them than any list can hold (`Overflows`) ends the program whatever follows it.
-/

namespace Groupcast.Scenario

open Numeral (Stands)

/-! ## The grammar -/

/-- A word that is a number of 64 bits. -/
def IsCount (word : List Char) (n : Nat) : Prop := Stands word n ∧ n < UInt64.size

/-- A word that is a number of 32 bits. -/
def IsValue (word : List Char) : Prop := ∃ v : Value, Stands word v.toNat

/-- A header that announces that many proposals, of so many values each at most. -/
def Announces (header : List (List Char)) (slots most : Nat) : Prop :=
  ∃ distinct, List.Forall₂ IsCount header [slots, most, distinct]

/-- A line that consists of values, of which it has at most `most` with repeats. -/
def IsProposal (most : Nat) (line : Nat × List (List Char)) : Prop :=
  (∀ word ∈ line.2, IsValue word) ∧ line.2.length ≤ most

/-- A line and the set of the values in it. -/
def Proposes (most : Nat) (line : Nat × List (List Char)) (set : ValueSet) : Prop :=
  IsProposal most line ∧ ∀ v, v ∈ set ↔ ∃ word ∈ line.2, Stands word v.toNat

/-- The lines of a scenario file, and the scenario.  What stands after the last line that is due
does not matter. -/
inductive Describes : Mode → List (Nat × List (List Char)) → Scenario → Prop
  | links {n : Nat} {rest : List (Nat × List (List Char))} {word₁ word₂ : List Char}
      {messages : UInt32} {receiver : HostId} (hmessages : Stands word₁ messages.toNat)
      (hreceiver : Stands word₂ receiver.toNat) :
      Describes .links ((n, [word₁, word₂]) :: rest) (.links messages receiver)
  | fifo {n : Nat} {rest : List (Nat × List (List Char))} {word : List Char} {messages : UInt32}
      (hmessages : Stands word messages.toNat) :
      Describes .fifo ((n, [word]) :: rest) (.fifo messages)
  | lattice {n slots most : Nat} {header : List (List Char)}
      {rest : List (Nat × List (List Char))} {proposals : List ValueSet}
      (hheader : Announces header slots most) (henough : slots ≤ rest.length)
      (hproposals : List.Forall₂ (Proposes most) (rest.take slots) proposals) :
      Describes .lattice ((n, header) :: rest) (.lattice proposals)

/-- A word that may stand in a header. -/
def IsHeaderWord : Mode → List Char → Prop
  | .lattice, word => ∃ n, IsCount word n
  | _, word => IsValue word

/-- How many words a header has. -/
def headerLength : Mode → Nat
  | .links => 2
  | .fifo => 1
  | .lattice => 3

/-- What is wrong with a header that has another number of words. -/
def notHeader : Mode → LineError
  | .links => .notLinksHeader
  | .fifo => .notBroadcastHeader
  | .lattice => .notLatticeHeader

/-- The lines of a file that describes no scenario, the number of the line that is to blame, and
what is wrong with that line. -/
inductive Fault : Mode → List (Nat × List (List Char)) → Nat → LineError → Prop
  | empty {mode : Mode} : Fault mode [] 1 .empty
  | headerWord {mode : Mode} {n : Nat} {header : List (List Char)}
      {rest : List (Nat × List (List Char))} {word : List Char}
      (hword : First (IsHeaderWord mode) word header) :
      Fault mode ((n, header) :: rest) n (.bad .number word)
  | headerLength {mode : Mode} {n : Nat} {header : List (List Char)}
      {rest : List (Nat × List (List Char))} (hwords : ∀ word ∈ header, IsHeaderWord mode word)
      (hlength : header.length ≠ headerLength mode) :
      Fault mode ((n, header) :: rest) n (notHeader mode)
  | value {n slots most : Nat} {header : List (List Char)} {rest : List (Nat × List (List Char))}
      {line : Nat × List (List Char)} {word : List Char} (hheader : Announces header slots most)
      (hline : First (IsProposal most) line (rest.take slots)) (hword : First IsValue word line.2) :
      Fault .lattice ((n, header) :: rest) line.1 (.bad .value word)
  | tooManyValues {n slots most : Nat} {header : List (List Char)}
      {rest : List (Nat × List (List Char))} {line : Nat × List (List Char)}
      (hheader : Announces header slots most)
      (hline : First (IsProposal most) line (rest.take slots))
      (hwords : ∀ word ∈ line.2, IsValue word) :
      Fault .lattice ((n, header) :: rest) line.1 (.tooManyValues most)
  | tooFew {n slots most : Nat} {header : List (List Char)} {rest : List (Nat × List (List Char))}
      (hheader : Announces header slots most) (hlines : ∀ line ∈ rest, IsProposal most line)
      (hfew : rest.length < slots) :
      Fault .lattice ((n, header) :: rest) n (.tooFewProposals slots)

/-- The lines of a file whose header announces more proposals than any list can hold. -/
inductive Overflows : Mode → List (Nat × List (List Char)) → Prop
  | announced {n slots most : Nat} {header : List (List Char)}
      {rest : List (Nat × List (List Char))} (hheader : Announces header slots most)
      (hslots : mostProposals < slots) : Overflows .lattice ((n, header) :: rest)

variable {mode : Mode} {lines rest : List (Nat × List (List Char))} {line : Nat × List (List Char)}
  {n slots most : Nat} {header words : List (List Char)} {word : List Char} {scenario : Scenario}
  {values : List Value} {counts : List Nat} {set : ValueSet} {proposals : List ValueSet}
  {path : String} {cause : LineError} {e : SetupError}

/-! ## Values -/

/-- The words of a line as values. -/
def IsValues (words : List (List Char)) (values : List Value) : Prop :=
  List.Forall₂ (fun word v => Stands word v.toNat) words values

theorem IsValues.mem_iff (h : IsValues words values) {v : Value} :
    v ∈ values ↔ ∃ word ∈ words, Stands word v.toNat := by
  have hread : List.Forall₂ (fun word v => Numeral.readWord? word = some v) words values :=
    h.imp fun _ _ => Numeral.readWord?_eq_some_iff.mpr
  have heq : words.map Numeral.readWord? = values.map some := by
    rw [← List.forall₂_eq_eq_eq, List.forall₂_map_left_iff, List.forall₂_map_right_iff]
    exact hread
  calc v ∈ values
    _ ↔ some v ∈ values.map some := by simp
    _ ↔ ∃ word ∈ words, Stands word v.toNat := by
      rw [← heq, List.mem_map]
      simp only [Numeral.readWord?_eq_some_iff]

theorem Proposes.exists_isValues (h : Proposes most line set) :
    ∃ values, IsValues line.2 values ∧ values.length ≤ most ∧ .ofList values = set := by
  obtain ⟨⟨hwords, hlength⟩, hmem⟩ := h
  obtain ⟨values, hvalues⟩ : ∃ values, IsValues line.2 values := exists_forall₂ hwords
  refine ⟨values, hvalues, hvalues.length_eq ▸ hlength, Std.ExtTreeSet.ext_mem fun v => ?_⟩
  rw [ValueSet.mem_ofList, hvalues.mem_iff, hmem]

/-! ## Every file describes a scenario or has a fault -/

theorem exists_proposes (h : IsProposal most line) : ∃ set, Proposes most line set := by
  obtain ⟨values, hvalues⟩ : ∃ values, IsValues line.2 values := exists_forall₂ h.1
  refine ⟨.ofList values, h, fun v => ?_⟩
  rw [ValueSet.mem_ofList, hvalues.mem_iff]

theorem announced_or_fault (hheader : Announces header slots most) (n : Nat)
    (rest : List (Nat × List (List Char))) :
    (∃ scenario, Describes .lattice ((n, header) :: rest) scenario) ∨
      ∃ n' cause, Fault .lattice ((n, header) :: rest) n' cause := by
  obtain hlines | ⟨line, hline⟩ := forall_or_first (IsProposal most) (rest.take slots)
  · by_cases henough : slots ≤ rest.length
    · obtain ⟨proposals, hproposals⟩ :=
        exists_forall₂ fun line hline => exists_proposes (hlines line hline)
      exact Or.inl ⟨_, .lattice hheader henough hproposals⟩
    · rw [List.take_of_length_le (Nat.le_of_not_le henough)] at hlines
      exact Or.inr ⟨_, _, .tooFew hheader hlines (Nat.lt_of_not_le henough)⟩
  · obtain hwords | ⟨word, hword⟩ := forall_or_first IsValue line.2
    · exact Or.inr ⟨_, _, .tooManyValues hheader hline hwords⟩
    · exact Or.inr ⟨_, _, .value hheader hline hword⟩

/-- **Every file describes a scenario or has a fault.** -/
theorem describes_or_fault (mode : Mode) (lines : List (Nat × List (List Char))) :
    (∃ scenario, Describes mode lines scenario) ∨ ∃ n cause, Fault mode lines n cause := by
  cases lines with
  | nil => exact Or.inr ⟨1, .empty, .empty⟩
  | cons line rest =>
    obtain ⟨n, header⟩ := line
    obtain hwords | ⟨word, hword⟩ := forall_or_first (IsHeaderWord mode) header
    · by_cases hlength : header.length = headerLength mode
      · cases mode with
        | links =>
          obtain ⟨word₁, word₂, rfl⟩ := List.length_eq_two.mp hlength
          obtain ⟨messages, hmessages⟩ := hwords word₁ (by simp)
          obtain ⟨receiver, hreceiver⟩ := hwords word₂ (by simp)
          exact Or.inl ⟨_, .links hmessages hreceiver⟩
        | fifo =>
          obtain ⟨word, rfl⟩ := List.length_eq_one_iff.mp hlength
          obtain ⟨messages, hmessages⟩ := hwords word (by simp)
          exact Or.inl ⟨_, .fifo hmessages⟩
        | lattice =>
          obtain ⟨counts, hcounts⟩ := exists_forall₂ hwords
          obtain ⟨slots, most, distinct, rfl⟩ :=
            List.length_eq_three.mp (hcounts.length_eq.symm.trans hlength)
          exact announced_or_fault ⟨distinct, hcounts⟩ n rest
      · exact Or.inr ⟨_, _, .headerLength hwords hlength⟩
    · exact Or.inr ⟨_, _, .headerWord hword⟩

/-! ## Words -/

section Words

variable {α : Type} {role : WordRole} {read? : List Char → Option α} {as : List α}

theorem readWords_eq_ok (h : List.Forall₂ (fun word a => read? word = some a) words as) :
    readWords path n role read? words = .ok as := by
  induction h with
  | nil => rfl
  | cons ha _ ih =>
    rw [readWords, ha, ih]
    rfl

theorem readWords_eq_error (h : First (fun word => ∃ a, read? word = some a) word words) :
    readWords path n role read? words = .error (.malformed path n (.bad role word)) := by
  induction h with
  | here hbad => rw [readWords, Option.eq_none_iff_forall_ne_some.mpr (not_exists.mp hbad)]
  | later hgood _ ih =>
    obtain ⟨a, ha⟩ := hgood
    rw [readWords, ha, ih]
    rfl

end Words

theorem readWords_values (h : IsValues words values) :
    readWords path n role Numeral.readWord? words = .ok values :=
  readWords_eq_ok (h.imp fun _ _ => Numeral.readWord?_eq_some_iff.mpr)

theorem readWords_values_error (h : First IsValue word words) :
    readWords path n role Numeral.readWord? words = .error (.malformed path n (.bad role word)) :=
  readWords_eq_error (h.congr fun _ => exists_congr fun _ => Numeral.readWord?_eq_some_iff.symm)

theorem readWords_counts (h : List.Forall₂ IsCount words counts) :
    readWords path n role Numeral.readCount? words = .ok counts :=
  readWords_eq_ok (h.imp fun _ _ => Numeral.readCount?_eq_some_iff.mpr)

theorem readWords_counts_error (h : First (fun word => ∃ n, IsCount word n) word words) :
    readWords path n role Numeral.readCount? words = .error (.malformed path n (.bad role word)) :=
  readWords_eq_error (h.congr fun _ => exists_congr fun _ => Numeral.readCount?_eq_some_iff.symm)

/-! ## Proposals -/

/-- Reads one proposal of at most `most` values. -/
def readProposal (path : String) (most : Nat) (line : Nat × List (List Char)) :
    Except SetupError ValueSet := do
  let values ← readWords path line.1 .value Numeral.readWord? line.2
  if most < values.length then throw (.malformed path line.1 (.tooManyValues most))
  pure (.ofList values)

theorem readProposals_cons : readProposals path most (line :: rest) = (do
    let set ← readProposal path most line
    let proposals ← readProposals path most rest
    pure (set :: proposals)) := by
  rw [readProposals, readProposal]
  cases readWords path line.1 .value Numeral.readWord? line.2 with
  | error e => rfl
  | ok values =>
    change (if _ then _ else _) = (if _ then _ else _) >>= _
    split <;> rfl

theorem Proposes.readProposal_eq (h : Proposes most line set) :
    readProposal path most line = .ok set := by
  obtain ⟨values, hvalues, hlength, rfl⟩ := h.exists_isValues
  rw [readProposal, readWords_values hvalues]
  exact if_neg (Nat.not_lt.mpr hlength)

theorem readProposal_bad (h : First IsValue word line.2) :
    readProposal path most line = .error (.malformed path line.1 (.bad .value word)) := by
  rw [readProposal, readWords_values_error h]
  rfl

theorem readProposal_long (h : ∀ word ∈ line.2, IsValue word) (hline : ¬ IsProposal most line) :
    readProposal path most line = .error (.malformed path line.1 (.tooManyValues most)) := by
  obtain ⟨values, hvalues⟩ : ∃ values, IsValues line.2 values := exists_forall₂ h
  have hlong : most < values.length := by
    rw [← hvalues.length_eq]
    exact Nat.lt_of_not_le fun hle => hline ⟨h, hle⟩
  rw [readProposal, readWords_values hvalues]
  exact if_pos hlong

theorem readProposals_eq_ok (h : List.Forall₂ (Proposes most) lines proposals) :
    readProposals path most lines = .ok proposals := by
  induction h with
  | nil => rfl
  | cons hline _ ih =>
    rw [readProposals_cons, hline.readProposal_eq, ih]
    rfl

/-- Proposals are refused for the first line that is none. -/
theorem readProposals_eq_error (h : First (IsProposal most) line lines)
    (herror : readProposal path most line = .error e) :
    readProposals path most lines = .error e := by
  induction h with
  | here =>
    rw [readProposals_cons, herror]
    rfl
  | later hgood _ ih =>
    obtain ⟨set, hset⟩ := exists_proposes hgood
    rw [readProposals_cons, hset.readProposal_eq, ih]
    rfl

/-! ## Files -/

theorem readHeader_lattice (h : Announces header slots most) (hroom : slots ≤ mostProposals) :
    ofLines path .lattice ((n, header) :: rest) = (do
      let proposals ← readProposals path most (rest.take slots)
      if proposals.length ≠ slots then throw (.malformed path n (.tooFewProposals slots))
      pure (.lattice proposals)) := by
  obtain ⟨distinct, hcounts⟩ := h
  rw [ofLines, readWords_counts hcounts]
  exact if_neg (Nat.not_lt.mpr hroom)

theorem Overflows.ofLines_eq (h : Overflows mode lines) :
    ofLines path mode lines = .error .tooLarge := by
  obtain ⟨⟨distinct, hcounts⟩, hslots⟩ := h
  rw [ofLines, readWords_counts hcounts]
  exact if_pos hslots

theorem Announces.room (h : Announces header slots most)
    (hroom : ¬ Overflows .lattice ((n, header) :: rest)) : slots ≤ mostProposals :=
  Nat.le_of_not_lt fun hslots => hroom (.announced h hslots)

/-- What a file describes is what it is read as. -/
theorem Describes.ofLines_eq (h : Describes mode lines scenario) (hroom : ¬ Overflows mode lines) :
    ofLines path mode lines = .ok scenario := by
  cases h with
  | links hmessages hreceiver =>
    rw [ofLines, readWords_values (.cons hmessages (.cons hreceiver .nil))]
    rfl
  | fifo hmessages =>
    rw [ofLines, readWords_values (.cons hmessages .nil)]
    rfl
  | lattice hheader henough hproposals =>
    have hlength := hproposals.length_eq.symm.trans (List.length_take_of_le henough)
    rw [readHeader_lattice hheader (hheader.room hroom), readProposals_eq_ok hproposals]
    exact if_neg (not_not.mpr hlength)

theorem headerWord_ofLines (h : First (IsHeaderWord mode) word header) :
    ofLines path mode ((n, header) :: rest) = .error (.malformed path n (.bad .number word)) := by
  cases mode with
  | links | fifo =>
    rw [ofLines, readWords_values_error h]
    rfl
  | lattice =>
    rw [ofLines, readWords_counts_error h]
    rfl

theorem headerLength_ofLines (hwords : ∀ word ∈ header, IsHeaderWord mode word)
    (hlength : header.length ≠ headerLength mode) :
    ofLines path mode ((n, header) :: rest) = .error (.malformed path n (notHeader mode)) := by
  cases mode with
  | links | fifo =>
    obtain ⟨values, hvalues⟩ : ∃ values, IsValues header values := exists_forall₂ hwords
    rw [hvalues.length_eq] at hlength
    rw [ofLines, readWords_values hvalues]
    simp only [bind, Except.bind]
    split
    · exact absurd rfl hlength
    · rfl
  | lattice =>
    obtain ⟨counts, hcounts⟩ := exists_forall₂ hwords
    rw [hcounts.length_eq] at hlength
    rw [ofLines, readWords_counts hcounts]
    simp only [bind, Except.bind]
    split
    · exact absurd rfl hlength
    · rfl

/-- The fault of a file is what it is refused for. -/
theorem Fault.ofLines_eq (h : Fault mode lines n cause) (hroom : ¬ Overflows mode lines) :
    ofLines path mode lines = .error (.malformed path n cause) := by
  cases h with
  | empty => rfl
  | headerWord hword => exact headerWord_ofLines hword
  | headerLength hwords hlength => exact headerLength_ofLines hwords hlength
  | value hheader hline hword =>
    rw [readHeader_lattice hheader (hheader.room hroom),
      readProposals_eq_error hline (readProposal_bad hword)]
    rfl
  | tooManyValues hheader hline hwords =>
    rw [readHeader_lattice hheader (hheader.room hroom),
      readProposals_eq_error hline (readProposal_long hwords hline.not_good)]
    rfl
  | tooFew hheader hlines hfew =>
    obtain ⟨proposals, hproposals⟩ :=
      exists_forall₂ fun line hline => exists_proposes (hlines line hline)
    have hlength : proposals.length ≠ _ := hproposals.length_eq ▸ Nat.ne_of_lt hfew
    rw [readHeader_lattice hheader (hheader.room hroom), List.take_of_length_le (Nat.le_of_lt hfew),
      readProposals_eq_ok hproposals]
    exact if_pos hlength

/-- **A file is read as what it describes, and refused for its fault**, unless its header announces
more proposals than any list can hold.  Such a file is not read at all, even one whose fault is
known without them.  Memory is taken to be unlimited below that: a list that can hold the proposals
is held to find room for them. -/
theorem parse_exact (mode : Mode) (path : String) (text : List Char) :
    ∃ rows, Text.Rows rows text ∧
      (∀ scenario, parse mode path text = .ok scenario ↔
        Describes mode (Text.heldRows rows) scenario ∧ ¬ Overflows mode (Text.heldRows rows)) ∧
      (∀ n cause, parse mode path text = .error (.malformed path n cause) ↔
        Fault mode (Text.heldRows rows) n cause ∧ ¬ Overflows mode (Text.heldRows rows)) ∧
      (parse mode path text = .error .tooLarge ↔ Overflows mode (Text.heldRows rows)) ∧
      ((∃ scenario, Describes mode (Text.heldRows rows) scenario) ∨
        ∃ n cause, Fault mode (Text.heldRows rows) n cause) := by
  obtain ⟨rows, hrows⟩ := Text.exists_rows text
  refine ⟨rows, hrows, ?_⟩
  rw [parse, hrows.numberedLines_eq]
  generalize Text.heldRows rows = lines
  have htotal := describes_or_fault mode lines
  by_cases hover : Overflows mode lines
  · -- nothing else can come of the file
    simp only [hover.ofLines_eq, hover, not_true_eq_false, and_false, reduceCtorEq,
      Except.error.injEq, implies_true, true_and, htotal]
  · refine ⟨fun scenario => ⟨fun hok => ⟨?_, hover⟩, fun h => h.1.ofLines_eq hover⟩,
      fun n cause => ⟨fun herror => ⟨?_, hover⟩, fun h => h.1.ofLines_eq hover⟩,
      ⟨fun herror => ?_, fun h => absurd h hover⟩, htotal⟩
    · obtain ⟨scenario', h⟩ | ⟨n, cause, h⟩ := htotal
      · cases (h.ofLines_eq hover).symm.trans hok
        exact h
      · cases (h.ofLines_eq hover).symm.trans hok
    · obtain ⟨scenario', h⟩ | ⟨n', cause', h⟩ := htotal
      · cases (h.ofLines_eq hover).symm.trans herror
      · cases (h.ofLines_eq hover).symm.trans herror
        exact h
    · obtain ⟨scenario', h⟩ | ⟨n', cause', h⟩ := htotal
      · rw [h.ofLines_eq hover] at herror
        cases herror
      · rw [h.ofLines_eq hover] at herror
        cases herror

/-- The header announces one proposal more than a list can hold, and one line follows it.  The fault
is that the other lines are missing, but the program ends before it gets to count them. -/
theorem ends_before_lines :
    let rows := [["384307168202282326".toList, ['1'], ['1']], [['1']]]
    let text := "384307168202282326 1 1\n1".toList
    Text.Rows rows text ∧
      Fault .lattice (Text.heldRows rows) 1 (.tooFewProposals 384307168202282326) ∧
      parse .lattice "run.config" text = .error .tooLarge := by
  refine ⟨Text.map_words_lines_iff.mp (by decide +kernel), ?_, by decide +kernel⟩
  have hslots : IsCount "384307168202282326".toList 384307168202282326 :=
    Numeral.readCount?_eq_some_iff.mp (by decide +kernel)
  have hone : IsCount ['1'] 1 := Numeral.readCount?_eq_some_iff.mp (by decide +kernel)
  have hvalue : IsValue ['1'] := ⟨1, Numeral.readWord?_eq_some_iff.mp (by decide +kernel)⟩
  refine .tooFew ⟨1, .cons hslots (.cons hone (.cons hone .nil))⟩ (fun line hline => ?_)
    (by decide)
  cases List.mem_singleton.mp hline
  exact ⟨List.forall_mem_singleton.mpr hvalue, Nat.le_refl 1⟩

end Groupcast.Scenario
