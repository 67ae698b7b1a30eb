import CssSelectors.Proofs.Grammar.Front
import CssSelectors.Proofs.Masking.Visible

namespace CssSelectors

open Unicode Pattern Grammar Text

namespace Tag

-- The characters that the text of a token can begin with, that it can end with, and that it can
-- hold while its hidden parts are covered.
def opens : Tag → Char → Bool
  | attr, c => c = '['
  | id, c => c = '#'
  | className, c => c = '.'
  | comma, c => c = ',' || isBlank c
  | combinator, c => isBlank c || isSymbol c
  | pseudoElement, c => c = ':'
  | pseudoClass, c => c = ':'
  | universal, c => c ∈ ['*', '|'] || isNameChar c
  | typeName, c => c ∈ ['*', '|'] || isNameChar c

def closes : Tag → Char → Bool
  | attr, c => c = ']'
  | comma, c => c = ',' || isBlank c
  | combinator, c => isBlank c || isSymbol c
  | pseudoElement, c => c = ')' || isNameChar c
  | pseudoClass, c => c = ')' || isNameChar c
  | universal, c => c = '*'
  | _, c => isNameChar c

def holds : Tag → Char → Bool
  | attr, _ => true
  | id, c => c = '#' || isNameChar c
  | className, c => c = '.' || isNameChar c
  | comma, c => c = ',' || isBlank c
  | combinator, c => isBlank c || isSymbol c
  | pseudoElement, c => c ∈ [':', '(', ')'] || isNameChar c
  | pseudoClass, c => c ∈ [':', '(', ')'] || isNameChar c
  | universal, c => c ∈ ['*', '|'] || isNameChar c
  | typeName, c => c ∈ ['*', '|'] || isNameChar c

end Tag

namespace Grammar

theorem isNameChar_of_isCover {c : Char} (h : isCover c = true) : isNameChar c = true := by
  rcases isCover_iff.mp h with rfl | rfl | rfl <;> decide

theorem IsNs.holds {ns : Text} (h : IsNs ns) : ∀ c ∈ ns, (c ∈ ['*', '|'] || isNameChar c) = true := by
  rcases h with rfl | ⟨ns, rfl | hrun, rfl⟩
  · simp
  · intro c hc
    have hc : c = '*' ∨ c = '|' := by simpa using hc
    rcases hc with rfl | rfl
    · rfl
    · rfl
  · intro c hc
    rcases List.mem_append.mp hc with hc | hc
    · simp [hrun c hc]
    · simp [List.mem_singleton.mp hc]

theorem IsGroup.holds {group : Text} (h : IsGroup group) :
    ∀ c ∈ group, (c ∈ [':', '(', ')'] || isNameChar c) = true := by
  rcases h with rfl | ⟨body, _, hbody, rfl⟩
  · simp
  · intro c hc
    simp only [List.cons_append, List.mem_cons, List.mem_append, List.not_mem_nil, or_false] at hc
    rcases hc with rfl | hc | rfl
    · decide
    · rw [hbody c hc]
      decide
    · decide

theorem IsGroup.closes {run group : Text} (hrun : IsRun run) (h : IsGroup group) :
    ∀ c ∈ (run ++ group).getLast?, (c = ')' || isNameChar c) = true := by
  rcases h with rfl | ⟨body, _, _, rfl⟩
  · intro c hc
    rw [List.append_nil] at hc
    simp [hrun c (List.mem_of_getLast? hc)]
  · intro c hc
    rw [← List.append_assoc, List.getLast?_concat] at hc
    simp [← Option.some.inj hc]

end Grammar

namespace Tag.Shape

variable {tag : Tag} {text : Text}

theorem ne_nil (h : tag.Shape text) : text ≠ [] := by
  rintro rfl
  cases tag <;> simp [Shape] at h

theorem holds (h : tag.Shape text) (hattr : tag ≠ .attr) : ∀ c ∈ text, tag.holds c = true := by
  intro c hc
  cases tag with
  | attr => exact absurd rfl hattr
  | id | className =>
    obtain ⟨run, _, hrun, rfl⟩ := h
    rcases List.mem_cons.mp hc with rfl | hc
    · rfl
    · simp [Tag.holds, hrun c hc]
  | comma =>
    obtain ⟨before, after, hbefore, hafter, rfl⟩ := h
    simp only [List.mem_append, List.mem_cons] at hc
    rcases hc with hc | rfl | hc
    · simp [Tag.holds, hbefore c hc]
    · rfl
    · simp [Tag.holds, hafter c hc]
  | combinator =>
    obtain ⟨before, d, after, hbefore, hd, hafter, rfl⟩ := h
    simp only [List.mem_append, List.mem_cons] at hc
    rcases hc with hc | rfl | hc
    · simp [Tag.holds, hbefore c hc]
    · exact hd
    · simp [Tag.holds, hafter c hc]
  | pseudoElement | pseudoClass =>
    obtain ⟨run, group, _, hrun, hgroup, rfl⟩ := h
    simp only [List.cons_append, List.mem_cons, List.mem_append] at hc
    have hcases : c = ':' ∨ c ∈ run ∨ c ∈ group := by tauto
    rcases hcases with rfl | hc | hc
    · rfl
    · simp [Tag.holds, hrun c hc]
    · exact hgroup.holds c hc
  | universal =>
    obtain ⟨ns, hns, rfl⟩ := h
    rcases List.mem_append.mp hc with hc | hc
    · exact hns.holds c hc
    · simp [Tag.holds, List.mem_singleton.mp hc]
  | typeName =>
    obtain ⟨ns, run, hns, _, hrun, rfl⟩ := h
    rcases List.mem_append.mp hc with hc | hc
    · exact hns.holds c hc
    · simp [Tag.holds, hrun c hc]

theorem opens (h : tag.Shape text) : ∀ c ∈ text.head?, tag.opens c = true := by
  intro c hc
  cases tag with
  | comma | combinator | universal | typeName => exact h.holds (by decide) c (List.mem_of_head? hc)
  | attr =>
    obtain ⟨inner, rfl⟩ := h
    obtain rfl : '[' = c := by simpa using hc
    rfl
  | id | className =>
    obtain ⟨run, _, _, rfl⟩ := h
    simpa [Tag.opens, eq_comm] using hc
  | pseudoElement | pseudoClass =>
    obtain ⟨run, group, _, _, _, rfl⟩ := h
    simpa [Tag.opens, eq_comm] using hc

theorem closes (h : tag.Shape text) : ∀ c ∈ text.getLast?, tag.closes c = true := by
  intro c hc
  cases tag with
  | comma | combinator => exact h.holds (by decide) c (List.mem_of_getLast? hc)
  | attr =>
    obtain ⟨inner, rfl⟩ := h
    rw [List.getLast?_concat] at hc
    simp [Tag.closes, ← Option.some.inj hc]
  | id | className =>
    obtain ⟨run, hne, hrun, rfl⟩ := h
    obtain ⟨d, run, rfl⟩ := List.exists_cons_of_ne_nil hne
    rw [List.getLast?_cons_cons] at hc
    exact hrun c (List.mem_of_getLast? hc)
  | pseudoElement | pseudoClass =>
    obtain ⟨run, group, hne, hrun, hgroup, rfl⟩ := h
    obtain ⟨d, run, rfl⟩ := List.exists_cons_of_ne_nil hne
    simp only [List.cons_append, List.getLast?_cons_cons] at hc
    exact hgroup.closes hrun c hc
  | universal =>
    obtain ⟨ns, _, rfl⟩ := h
    rw [List.getLast?_concat] at hc
    simp [Tag.closes, ← Option.some.inj hc]
  | typeName =>
    obtain ⟨ns, run, _, hne, hrun, rfl⟩ := h
    have hlast : c ∈ run := by
      rw [List.getLast?_append, List.getLast?_eq_some_getLast hne] at hc
      obtain rfl : run.getLast hne = c := by simpa using hc
      exact List.getLast_mem hne
    exact hrun c hlast

end Tag.Shape

namespace Tag

-- What tokens begin with that are neither delimiters nor names by themselves, and what delimits.
def signs : List Char := ['[', '#', '.', ',', '>', '+', '~', ':']

theorem notMem_signs_of_isNameChar {c : Char} (h : isNameChar c = true) : c ∉ signs := by
  intro hmem
  simp only [signs, List.mem_cons, List.not_mem_nil, or_false] at hmem
  rcases hmem with rfl | rfl | rfl | rfl | rfl | rfl | rfl | rfl <;> revert h <;> decide

-- Anything else but a blank begins an asterisk or a name, if it begins a token.
theorem opens_eq_false {tag : Tag} (huniversal : tag ≠ universal) (htype : tag ≠ typeName) {c : Char}
    (hblank : isBlank c = false) (hsign : c ∉ signs) : tag.opens c = false := by
  have hother : ∀ d ∈ signs, c ≠ d := by
    rintro d hd rfl
    exact hsign hd
  cases tag with
  | universal => exact absurd rfl huniversal
  | typeName => exact absurd rfl htype
  | comma => simp [opens, hblank, hother ',' (by decide)]
  | combinator =>
    simp [opens, hblank, isSymbol, hother '>' (by decide), hother '+' (by decide), hother '~' (by decide)]
  | attr => simp [opens, hother '[' (by decide)]
  | id => simp [opens, hother '#' (by decide)]
  | className => simp [opens, hother '.' (by decide)]
  | pseudoElement | pseudoClass => simp [opens, hother ':' (by decide)]

-- No token begins with what closes a hidden stretch or ends with what opens one. Where a cover
-- stands at an end, it belongs to a name.
theorem of_opens {tag : Tag} {c : Char} (h : tag.opens c = true) :
    c ≠ ')' ∧ isQuote c = false ∧ c ≠ '=' ∧ (isCover c = true → tag = universal ∨ tag = typeName) := by
  refine ⟨?_, ?_, ?_, ?_⟩
  · rintro rfl
    revert h
    cases tag <;> decide
  · by_contra hquote
    rcases isQuote_iff.mp (eq_true_of_ne_false hquote) with rfl | rfl <;> revert h <;> cases tag <;> decide
  · rintro rfl
    revert h
    cases tag <;> decide
  · intro hcover
    rcases isCover_iff.mp hcover with rfl | rfl | rfl <;> revert h <;> cases tag <;> decide

theorem of_closes {tag : Tag} {c : Char} (h : tag.closes c = true) :
    c ≠ '(' ∧ isQuote c = false ∧ (isCover c = true →
      (tag = id ∨ tag = className ∨ tag = typeName) ∨ tag = pseudoElement ∨ tag = pseudoClass) := by
  refine ⟨?_, ?_, ?_⟩
  · rintro rfl
    revert h
    cases tag <;> decide
  · by_contra hquote
    rcases isQuote_iff.mp (eq_true_of_ne_false hquote) with rfl | rfl <;> revert h <;> cases tag <;> decide
  · intro hcover
    rcases isCover_iff.mp hcover with rfl | rfl | rfl <;> revert h <;> cases tag <;> decide

end Tag

end CssSelectors
