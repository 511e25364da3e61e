import RaftConsensus.Model.Effect
import RaftConsensus.Model.LogFile

/-!
# The log file

`utils::write_log_to` writes one line for every entry, and `utils::read_log_from` reads them back.
A command may contain semicolons, since the reader takes everything after the first one, but not a
newline: `log_file_round_trip` says that the log is read back exactly when no command has one.

The reader accepts files that the writer never writes, and does not always read what they say. It
takes any number that a line begins with for its term, and the whole line for its command when it
has no semicolon (`not_readsFaithfully_term`). `readsFaithfully_iff` says which files are read
faithfully.
-/

set_option autoImplicit false
set_option relaxedAutoImplicit false

namespace RaftConsensus

open DelimitedText

variable {log : List Entry} {lines : List ByteString} {line : ByteString} {el : Entry}

/-! ### Lines and entries -/

/-- A loop over a list succeeds when it does on every element. -/
theorem mapM_eq_ok_iff {ε α β : Type} {f : α → Except ε β} {l : List α} {results : List β} :
    l.mapM f = .ok results ↔ List.Forall₂ (fun a b ↦ f a = .ok b) l results := by
  induction l generalizing results with
  | nil => simp [pure, Except.pure, eq_comm]
  | cons a l ih =>
    rw [List.mapM_cons, except_bind_eq_ok_iff, List.forall₂_cons_left_iff]
    simp only [except_bind_eq_ok_iff, ih, pure, Except.pure, Except.ok.injEq]
    constructor
    · rintro ⟨b, hb, later, hlater, rfl⟩
      exact ⟨b, later, hb, hlater, rfl⟩
    · rintro ⟨b, later, hb, hlater, rfl⟩
      exact ⟨b, hb, later, hlater, rfl⟩

/-- A loop over a list fails when it does on an element. -/
theorem mapM_eq_error_iff {ε α β : Type} {f : α → Except ε β} {l : List α} :
    (∃ fault, l.mapM f = .error fault) ↔ ∃ a ∈ l, ∃ fault, f a = .error fault := by
  induction l with
  | nil => simp [pure, Except.pure]
  | cons a l ih =>
    rw [List.exists_mem_cons_iff, ← ih]
    simp only [List.mapM_cons, except_bind_eq_error_iff, pure, Except.pure, reduceCtorEq, and_false,
      exists_false, or_false]
    cases f a with
    | error fault => simp
    | ok b => simp

/-- An element of the second of two related lists is related to one of the first. -/
theorem exists_of_forall₂ {α β : Type} {R : α → β → Prop} {l : List α} {results : List β}
    (h : List.Forall₂ R l results) {b : β} (hb : b ∈ results) : ∃ a ∈ l, R a b := by
  induction h with
  | nil => simp at hb
  | @cons a b' l results hab _ ih =>
    rcases List.mem_cons.mp hb with rfl | hlater
    · exact ⟨a, List.mem_cons_self, hab⟩
    · obtain ⟨other, hother, hrelated⟩ := ih hlater
      exact ⟨other, List.mem_cons_of_mem a hother, hrelated⟩

/-- Reading a file succeeds when every line of it is read as an entry. -/
theorem readLogFrom_eq_ok_iff {content : ByteString} :
    readLogFrom (some content) = .ok log ↔
      List.Forall₂ (fun line el ↦ readEntry line = .ok el) (tokens 10 content) log := by
  rw [readLogFrom, getlines_eq_tokens, mapM_eq_ok_iff]

/-- `std::stoi` yields an `int`, the number at the front of the text. -/
theorem stoi_eq_ok_iff {text : ByteString} {value : ℤ} :
    stoi text = .ok value ↔ parseInteger text = some value ∧ InInt value := by
  unfold stoi
  cases parseInteger text with
  | none => simp
  | some number =>
    dsimp only
    split_ifs with hint
    · rw [Except.ok.injEq, Option.some.injEq]
      refine ⟨fun h ↦ ⟨h, h ▸ hint⟩, And.left⟩
    · refine iff_of_false (by simp) ?_
      rintro ⟨hvalue, hrange⟩
      exact hint (Option.some.inj hvalue ▸ hrange)

/-- What is read from a line without a newline. -/
theorem readEntry_eq_ok_iff (hline : 10 ∉ line) :
    readEntry line = .ok el ↔ stoi (termText line) = .ok el.1 ∧ el.2 = commandText line := by
  rw [readEntry_eq hline]
  cases stoi (termText line) with
  | error fault => simp [Except.map]
  | ok term => simp [Except.map, Prod.ext_iff, eq_comm]

/-- The line that `write_log_to` writes for an entry. -/
def entryLine (el : Entry) : ByteString := toDecimal el.1 ++ 59 :: el.2

/-- `write_log_to` writes a line for every entry. -/
theorem writeLogTo_eq_terminated : writeLogTo log = terminated 10 (log.map entryLine) := by
  simp [writeLogTo, terminated, entryLine, List.flatMap_map, bytes]

/-- The line of an entry has a newline exactly when the command has one. -/
theorem mem_entryLine_iff : 10 ∈ entryLine el ↔ 10 ∈ el.2 := by
  have hterm := not_mem_toDecimal (c := 10) rfl (by decide) el.1
  simp [entryLine, hterm]

/-- An entry without a newline is read back from its line. -/
theorem readEntry_entryLine (hterm : InInt el.1) (hcmd : 10 ∉ el.2) :
    readEntry (entryLine el) = .ok el := by
  have hsemi : 59 ∉ toDecimal el.1 := not_mem_toDecimal rfl (by decide) el.1
  rw [readEntry_eq_ok_iff (mt mem_entryLine_iff.mp hcmd)]
  constructor
  · rw [termText, entryLine, before_append hsemi, stoi_eq_ok_iff]
    exact ⟨parseInteger_toDecimal el.1, hterm⟩
  · rw [commandText, if_pos (by simp [entryLine]), entryLine, after_append hsemi]

/-- A log without newlines in its commands is read back. -/
theorem readLogFrom_writeLogTo (hlog : ∀ el ∈ log, InInt el.1 ∧ 10 ∉ el.2) :
    readLogFrom (some (writeLogTo log)) = .ok log := by
  have hlines : ∀ line ∈ log.map entryLine, 10 ∉ line := by
    intro line hline
    obtain ⟨el, hel, rfl⟩ := List.mem_map.mp hline
    exact mt mem_entryLine_iff.mp (hlog el hel).2
  rw [readLogFrom_eq_ok_iff, writeLogTo_eq_terminated, tokens_terminated hlines,
    List.forall₂_map_left_iff, List.forall₂_same]
  exact fun el hel ↦ readEntry_entryLine (hlog el hel).1 (hlog el hel).2

/-- What has been read from a file has terms of type `int` and commands without newlines. -/
theorem of_readLogFrom {file : Option ByteString} (h : readLogFrom file = .ok log) :
    ∀ el ∈ log, InInt el.1 ∧ 10 ∉ el.2 := by
  intro el hel
  cases file with
  | none =>
    obtain rfl := Except.ok.inj h
    simp at hel
  | some content =>
    obtain ⟨line, hline, hread⟩ := exists_of_forall₂ (readLogFrom_eq_ok_iff.mp h) hel
    have hnewline := not_mem_of_mem_tokens hline
    obtain ⟨hterm, hcmd⟩ := (readEntry_eq_ok_iff hnewline).mp hread
    refine ⟨(stoi_eq_ok_iff.mp hterm).2, ?_⟩
    rw [hcmd, commandText]
    split_ifs
    · exact fun hmem ↦ hnewline (mem_of_mem_after hmem)
    · exact hnewline

/-- A log with a newline in a command is read as a longer one, if at all. -/
theorem length_lt_of_readLogFrom {read : List Entry} (hnewline : ∃ el ∈ log, 10 ∈ el.2)
    (hread : readLogFrom (some (writeLogTo log)) = .ok read) : log.length < read.length := by
  obtain ⟨el, hel, hmem⟩ := hnewline
  have hlines : ∃ line ∈ log.map entryLine, 10 ∈ line :=
    ⟨entryLine el, List.mem_map_of_mem hel, mem_entryLine_iff.mpr hmem⟩
  have hlength := (readLogFrom_eq_ok_iff.mp hread).length_eq
  rw [writeLogTo_eq_terminated] at hlength
  calc log.length = (log.map entryLine).length := (List.length_map ..).symm
    _ < _ := length_lt_tokens_terminated hlines
    _ = read.length := hlength

/-- A log is read back from the file that it was written to exactly when no command of it has a
newline; otherwise the reader throws, or finds more entries. Reading, writing and reading again
yields what was read the first time, whatever the file was. -/
theorem log_file_round_trip {log : List Entry} (hterms : ∀ el ∈ log, InInt el.1) :
    (readLogFrom (some (writeLogTo log)) = .ok log ↔ ∀ el ∈ log, 10 ∉ el.2) ∧
      ((∃ el ∈ log, 10 ∈ el.2) →
        (∃ fault, readLogFrom (some (writeLogTo log)) = .error fault) ∨
        ∃ read, readLogFrom (some (writeLogTo log)) = .ok read ∧ log.length < read.length) ∧
      ∀ file read, readLogFrom file = .ok read →
        readLogFrom (some (writeLogTo read)) = .ok read := by
  refine ⟨⟨fun hread el hel hmem ↦ ?_, fun hlog ↦ ?_⟩, fun hnewline ↦ ?_, fun file read hread ↦ ?_⟩
  · exact lt_irrefl _ (length_lt_of_readLogFrom ⟨el, hel, hmem⟩ hread)
  · exact readLogFrom_writeLogTo fun el hel ↦ ⟨hterms el hel, hlog el hel⟩
  · cases hread : readLogFrom (some (writeLogTo log)) with
    | error fault => exact Or.inl ⟨fault, rfl⟩
    | ok read => exact Or.inr ⟨read, rfl, length_lt_of_readLogFrom hnewline hread⟩
  · exact readLogFrom_writeLogTo (of_readLogFrom hread)

/-- A log with a negative term, an empty command and one with semicolons is read back. -/
theorem log_file_round_trip_semicolons :
    readLogFrom (some (writeLogTo [(-1, []), (12, bytes ";ADD;5;")])) =
      .ok [(-1, []), (12, bytes ";ADD;5;")] :=
  (log_file_round_trip (by decide)).1.mpr (by decide)

/-! ### What the reader makes of a file -/

/-- An entry is what a line of a file says: the number that makes up the whole text before its first
semicolon, and the text after it. -/
def Says (line : ByteString) (el : Entry) : Prop :=
  InInt el.1 ∧ wholeInteger (before 59 line) = some el.1 ∧ el.2 = after 59 line

/-- A file is read faithfully: what the reader returns is what the lines say, and it throws when the
text before the first semicolon of a line is not an `int`. -/
def ReadsFaithfully (content : ByteString) : Prop :=
  (∀ log, readLogFrom (some content) = .ok log →
      List.Forall₂ Says (getlines 10 content) log) ∧
    ((∃ line ∈ getlines 10 content,
        ∀ term, InInt term → wholeInteger (before 59 line) ≠ some term) →
      ∃ fault, readLogFrom (some content) = .error fault)

/-- Reading throws exactly when `std::stoi` throws on the text before the first semicolon of a
line. -/
theorem readLogFrom_eq_error_iff {content : ByteString} :
    (∃ fault, readLogFrom (some content) = .error fault) ↔
      ∃ line ∈ getlines 10 content, ∃ fault, stoi (before 59 line) = .error fault := by
  rw [readLogFrom, mapM_eq_error_iff]
  refine exists_congr fun line ↦ and_congr_right fun hline ↦ exists_congr fun fault ↦ ?_
  rw [getlines_eq_tokens] at hline
  rw [readEntry_eq (not_mem_of_mem_tokens hline), termText]
  cases stoi (before 59 line) <;> simp [Except.map]

/-- What is read from a line is what it says exactly when the line has a semicolon and a whole
number before the first one. -/
theorem says_iff (hline : 10 ∉ line) (hread : readEntry line = .ok el) :
    Says line el ↔ 59 ∈ line ∧ (wholeInteger (before 59 line)).isSome := by
  obtain ⟨hterm, hcmd⟩ := (readEntry_eq_ok_iff hline).mp hread
  obtain ⟨hnumber, hint⟩ := stoi_eq_ok_iff.mp hterm
  constructor
  · rintro ⟨-, hwhole, hafter⟩
    refine ⟨?_, by rw [hwhole]; rfl⟩
    by_contra hsemi
    rw [hcmd, commandText, if_neg hsemi, after_of_not_mem hsemi] at hafter
    rw [hafter] at hwhole
    exact ne_nil_of_wholeInteger hwhole rfl
  · rintro ⟨hsemi, hwhole⟩
    obtain ⟨number, hwhole⟩ := Option.isSome_iff_exists.mp hwhole
    have hsame : number = el.1 :=
      Option.some.inj ((parseInteger_of_wholeInteger hwhole).symm.trans hnumber)
    exact ⟨hint, hsame ▸ hwhole, by rw [hcmd, commandText, if_pos hsemi]⟩

/-- The entries read from some lines are what these say exactly when each has a semicolon and a
whole number before the first one. -/
theorem forall₂_says_iff (hlines : ∀ line ∈ lines, 10 ∉ line)
    (hread : List.Forall₂ (fun line el ↦ readEntry line = .ok el) lines log) :
    List.Forall₂ Says lines log ↔
      ∀ line ∈ lines, 59 ∈ line ∧ (wholeInteger (before 59 line)).isSome := by
  induction hread with
  | nil => simp
  | cons hfirst _ ih =>
    obtain ⟨hline, hlater⟩ := List.forall_mem_cons.mp hlines
    rw [List.forall₂_cons, List.forall_mem_cons, says_iff hline hfirst, ih hlater]

/-- The reader throws on a whole number that is not an `int`. -/
theorem stoi_of_wholeInteger {text : ByteString} {number : ℤ}
    (hwhole : wholeInteger text = some number) (hrange : ¬ InInt number) :
    ∃ fault, stoi text = .error fault := by
  cases hterm : stoi text with
  | error fault => exact ⟨fault, rfl⟩
  | ok term =>
    obtain ⟨hnumber, hint⟩ := stoi_eq_ok_iff.mp hterm
    have hsame := Option.some.inj (hnumber.symm.trans (parseInteger_of_wholeInteger hwhole))
    exact absurd (hsame ▸ hint) hrange

/-- A file is read faithfully exactly when `std::stoi` throws on the text before the first semicolon
of a line, or every line has a semicolon and a whole number before the first one. -/
theorem readsFaithfully_iff (content : ByteString) :
    ReadsFaithfully content ↔
      (∃ line ∈ getlines 10 content, ∃ fault, stoi (before 59 line) = .error fault) ∨
        ∀ line ∈ getlines 10 content, 59 ∈ line ∧ (wholeInteger (before 59 line)).isSome := by
  have hnewline : ∀ line ∈ getlines 10 content, 10 ∉ line := by
    intro line hline
    rw [getlines_eq_tokens] at hline
    exact not_mem_of_mem_tokens hline
  cases hread : readLogFrom (some content) with
  | error fault =>
    have hthrows := readLogFrom_eq_error_iff.mp ⟨fault, hread⟩
    refine iff_of_true ⟨fun log hlog ↦ ?_, fun _ ↦ ⟨fault, hread⟩⟩ (Or.inl hthrows)
    rw [hread] at hlog
    cases hlog
  | ok log =>
    have hreturns : ¬ ∃ line ∈ getlines 10 content, ∃ fault,
        stoi (before 59 line) = .error fault := by
      rw [← readLogFrom_eq_error_iff, hread]
      simp
    have hlines := forall₂_says_iff hnewline (mapM_eq_ok_iff.mp hread)
    rw [or_iff_right hreturns, ← hlines]
    refine ⟨fun hfaithful ↦ hfaithful.1 log hread, fun hlog ↦ ⟨fun other hother ↦ ?_, ?_⟩⟩
    · rw [← Except.ok.inj (hread.symm.trans hother)]
      exact hlog
    · rintro ⟨line, hline, hint⟩
      obtain ⟨-, hwhole⟩ := hlines.mp hlog line hline
      obtain ⟨number, hwhole⟩ := Option.isSome_iff_exists.mp hwhole
      exact absurd ⟨line, hline, stoi_of_wholeInteger hwhole fun h ↦ hint number h hwhole⟩ hreturns

/-- A file with a line that is only a number is read as an entry that has the number as its
command. -/
theorem not_readsFaithfully_term : ¬ ∀ content, ReadsFaithfully content := by
  intro hclaim
  have hlines := (hclaim (bytes "7")).1 [(7, bytes "7")] (by decide)
  rcases hlines with - | ⟨hline, -⟩
  exact absurd hline.2.2 (by decide)

end RaftConsensus
