import Mathlib.Data.List.Basic
import Mathlib.Data.List.Count
import Mathlib.Data.List.TakeWhile

/-!
# Delimited text

A text is a list over any type, and a delimiter ends a token of it. `tokens` are the tokens of a
text; a delimiter at its end begins no further token. `terminated` writes every token with a
delimiter after it.

Tokens without a delimiter are read back as they were written (`tokens_terminated`). Tokens that
have some are read as more tokens than were written (`length_lt_tokens_terminated`).
-/

set_option autoImplicit false
set_option relaxedAutoImplicit false

namespace DelimitedText

variable {α : Type*} [DecidableEq α] {delim : α} {text token rest : List α}
  {lines : List (List α)}

/-- The tokens of a text, each ended by a delimiter or by the end of the text. -/
def tokens (delim : α) : List α → List (List α)
  | [] => []
  | c :: rest =>
    if c = delim then [] :: tokens delim rest
    else
      match tokens delim rest with
      | [] => [[c]]
      | token :: later => (c :: token) :: later

/-- Every token with a delimiter after it. -/
def terminated (delim : α) (lines : List (List α)) : List α :=
  lines.flatMap fun line ↦ line ++ [delim]

/-- The part of a text before its first delimiter. -/
def before (delim : α) (text : List α) : List α := text.takeWhile fun c ↦ decide (c ≠ delim)

/-- The part of a text after its first delimiter, empty when there is none. -/
def after (delim : α) (text : List α) : List α :=
  (text.dropWhile fun c ↦ decide (c ≠ delim)).tail

/-! ### The first token -/

@[simp] theorem before_nil : before delim ([] : List α) = [] := rfl

@[simp] theorem after_nil : after delim ([] : List α) = [] := rfl

@[simp] theorem before_cons_self : before delim (delim :: rest) = [] := by simp [before]

@[simp] theorem after_cons_self : after delim (delim :: rest) = rest := by simp [after]

theorem before_cons_of_ne {c : α} (h : c ≠ delim) :
    before delim (c :: rest) = c :: before delim rest := by
  simp [before, h]

theorem after_cons_of_ne {c : α} (h : c ≠ delim) : after delim (c :: rest) = after delim rest := by
  simp [after, h]

/-- A text without a delimiter is all before it. -/
theorem before_of_not_mem (h : delim ∉ text) : before delim text = text := by
  refine List.takeWhile_eq_self_iff.mpr fun c hc ↦ ?_
  simpa using ne_of_mem_of_not_mem hc h

/-- Nothing is after the first delimiter when there is none. -/
theorem after_of_not_mem (h : delim ∉ text) : after delim text = [] := by
  have hnone : (text.dropWhile fun c ↦ decide (c ≠ delim)) = [] :=
    List.dropWhile_eq_nil_iff.mpr fun c hc ↦ by simpa using ne_of_mem_of_not_mem hc h
  rw [after, hnone, List.tail_nil]

/-- What stands before the first delimiter of a text that begins with a token and one. -/
theorem before_append (h : delim ∉ token) : before delim (token ++ delim :: rest) = token := by
  induction token with
  | nil => simp
  | cons c token ih =>
    obtain ⟨hc, htoken⟩ := List.ne_and_not_mem_of_not_mem_cons h
    rw [List.cons_append, before_cons_of_ne (Ne.symm hc), ih htoken]

/-- What stands after the first delimiter of a text that begins with a token and one. -/
theorem after_append (h : delim ∉ token) : after delim (token ++ delim :: rest) = rest := by
  induction token with
  | nil => simp
  | cons c token ih =>
    obtain ⟨hc, htoken⟩ := List.ne_and_not_mem_of_not_mem_cons h
    rw [List.cons_append, after_cons_of_ne (Ne.symm hc), ih htoken]

/-- The elements after the first delimiter are elements of the text. -/
theorem mem_of_mem_after {c : α} (h : c ∈ after delim text) : c ∈ text :=
  (List.dropWhile_sublist _).subset (List.mem_of_mem_tail h)

/-! ### All tokens -/

@[simp] theorem tokens_nil : tokens delim ([] : List α) = [] := rfl

/-- The first token of a nonempty text is what stands before its first delimiter, and the others are
the tokens of what stands after it. -/
theorem tokens_eq_cons (h : text ≠ []) :
    tokens delim text = before delim text :: tokens delim (after delim text) := by
  induction text with
  | nil => exact absurd rfl h
  | cons c rest ih =>
    by_cases hc : c = delim
    · subst hc
      simp [tokens]
    · rw [tokens, if_neg hc, before_cons_of_ne hc, after_cons_of_ne hc]
      by_cases hrest : rest = []
      · subst hrest
        rfl
      · rw [ih hrest]

/-- A token with a delimiter after it is the first token. -/
theorem tokens_append (h : delim ∉ token) :
    tokens delim (token ++ delim :: rest) = token :: tokens delim rest := by
  rw [tokens_eq_cons (by simp), before_append h, after_append h]

/-- A nonempty text without a delimiter is its only token. -/
theorem tokens_of_not_mem (hne : text ≠ []) (h : delim ∉ text) : tokens delim text = [text] := by
  rw [tokens_eq_cons hne, before_of_not_mem h, after_of_not_mem h, tokens_nil]

/-- A token has no delimiter. -/
theorem not_mem_of_mem_tokens (h : token ∈ tokens delim text) : delim ∉ token := by
  induction text generalizing token with
  | nil => simp at h
  | cons c rest ih =>
    by_cases hc : c = delim
    · rw [tokens, if_pos hc, List.mem_cons] at h
      rcases h with rfl | hlater
      · exact List.not_mem_nil
      · exact ih hlater
    · rw [tokens, if_neg hc] at h
      cases hrest : tokens delim rest with
      | nil =>
        rw [hrest] at h
        obtain rfl := List.mem_singleton.mp h
        simpa using Ne.symm hc
      | cons first later =>
        rw [hrest] at h
        rcases List.mem_cons.mp h with rfl | hlater
        · simpa [Ne.symm hc] using ih (by rw [hrest]; exact List.mem_cons_self)
        · exact ih (by rw [hrest]; exact List.mem_cons_of_mem _ hlater)

/-- A text has at least as many tokens as delimiters. -/
theorem count_le_length_tokens : text.count delim ≤ (tokens delim text).length := by
  induction text with
  | nil => exact Nat.zero_le _
  | cons c rest ih =>
    by_cases hc : c = delim
    · subst hc
      simpa [tokens] using ih
    · rw [tokens, if_neg hc, List.count_cons_of_ne hc]
      cases hrest : tokens delim rest with
      | nil => exact ih.trans (by simp [hrest])
      | cons token later => simpa [hrest] using ih

/-! ### Writing and reading tokens -/

omit [DecidableEq α] in
@[simp] theorem terminated_cons :
    terminated delim (token :: lines) = token ++ delim :: terminated delim lines := by
  simp [terminated]

/-- Tokens without a delimiter are read back as they were written. -/
theorem tokens_terminated (h : ∀ line ∈ lines, delim ∉ line) :
    tokens delim (terminated delim lines) = lines := by
  induction lines with
  | nil => rfl
  | cons line lines ih =>
    obtain ⟨hline, hlines⟩ := List.forall_mem_cons.mp h
    rw [terminated_cons, tokens_append hline, ih hlines]

/-- What is written has one delimiter for every token, and those in the tokens. -/
theorem length_le_count_terminated : lines.length ≤ (terminated delim lines).count delim := by
  induction lines with
  | nil => simp
  | cons line lines ih =>
    rw [terminated_cons, List.count_append, List.count_cons_self, List.length_cons]
    omega

/-- Tokens with a delimiter are read as more tokens than were written. -/
theorem length_lt_tokens_terminated (h : ∃ line ∈ lines, delim ∈ line) :
    lines.length < (tokens delim (terminated delim lines)).length := by
  refine lt_of_lt_of_le ?_ count_le_length_tokens
  induction lines with
  | nil => simp at h
  | cons line lines ih =>
    rw [terminated_cons, List.count_append, List.count_cons_self, List.length_cons]
    obtain ⟨other, hother, hdelim⟩ := h
    rcases List.mem_cons.mp hother with rfl | hlater
    · have hpos := List.count_pos_iff.mpr hdelim
      have hle : lines.length ≤ (terminated delim lines).count delim :=
        length_le_count_terminated
      omega
    · have hlt := ih ⟨other, hlater, hdelim⟩
      omega

end DelimitedText
