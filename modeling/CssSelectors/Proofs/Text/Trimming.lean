import CssSelectors.Text.Basic
import Mathlib.Data.List.DropRight

namespace CssSelectors.Text

open Unicode

def IsBlank (text : Text) : Prop := ∀ c ∈ text, isBlank c = true

theorem trim_eq_rdropWhile (text : Text) : text.trim = (text.dropWhile isBlank).rdropWhile isBlank := rfl

theorem mem_of_mem_trim {text : Text} {c : Char} (h : c ∈ text.trim) : c ∈ text := by
  rw [trim_eq_rdropWhile] at h
  exact (List.dropWhile_suffix isBlank).subset ((List.rdropWhile_prefix isBlank _).subset h)

theorem length_trim_le (text : Text) : text.trim.length ≤ text.length := by
  rw [trim_eq_rdropWhile]
  exact (List.rdropWhile_prefix _ _).length_le.trans (List.dropWhile_suffix _).length_le

-- A text is trimmed if it has no blank at either end.
structure Trimmed (text : Text) : Prop where
  head : ∀ c ∈ text.head?, isBlank c = false
  last : ∀ c ∈ text.getLast?, isBlank c = false

theorem trimmed_of_forall {text : Text} (h : ∀ c ∈ text, isBlank c = false) : Trimmed text where
  head c hc := h c (List.mem_of_head? hc)
  last c hc := h c (List.mem_of_getLast? hc)

-- The ends of a text are those of what it is joined from.
theorem trimmed_append {u v : Text} (hu : u ≠ []) (hv : v ≠ []) (hhead : ∀ c ∈ u.head?, isBlank c = false)
    (hlast : ∀ c ∈ v.getLast?, isBlank c = false) : Trimmed (u ++ v) where
  head c hc := by
    rw [List.head?_append_of_ne_nil u hu] at hc
    exact hhead c hc
  last c hc := by
    rw [List.getLast?_append_of_ne_nil u hv] at hc
    exact hlast c hc

theorem trimmed_trim (text : Text) : Trimmed text.trim where
  head := by
    intro c hc
    rw [trim_eq_rdropWhile] at hc
    obtain ⟨after, hafter⟩ := List.rdropWhile_prefix isBlank (l := text.dropWhile isBlank)
    have hhead := List.head?_dropWhile_not isBlank text
    rw [← hafter, List.head?_append, Option.mem_def.mp hc, Option.some_or] at hhead
    exact hhead
  last := by
    intro c hc
    rw [trim_eq_rdropWhile] at hc
    have hne : (text.dropWhile isBlank).rdropWhile isBlank ≠ [] := List.ne_nil_of_mem (List.mem_of_getLast? hc)
    have hlast := List.rdropWhile_last_not isBlank (text.dropWhile isBlank) hne
    rw [List.getLast?_eq_some_getLast hne, Option.mem_some_iff] at hc
    simpa [hc] using hlast

theorem Trimmed.trim_eq {text : Text} (h : Trimmed text) : text.trim = text := by
  have hfront : text.dropWhile isBlank = text := by
    cases text with
    | nil => rfl
    | cons c text => rw [List.dropWhile_cons_of_neg (by simp [h.head c rfl])]
  rw [trim_eq_rdropWhile, hfront, List.rdropWhile_eq_self_iff]
  intro hne
  simp [h.last _ (List.getLast?_eq_some_getLast hne)]

-- Blanks in a trimmed text have something on both sides of them.
theorem Trimmed.sides_ne_nil {u blanks v : Text} (h : Trimmed (u ++ blanks ++ v)) (hne : blanks ≠ [])
    (hblank : IsBlank blanks) : u ≠ [] ∧ v ≠ [] := by
  constructor
  · rintro rfl
    obtain ⟨c, rest, rfl⟩ := List.exists_cons_of_ne_nil hne
    have hhead := h.head c rfl
    simp [hblank c List.mem_cons_self] at hhead
  · rintro rfl
    have hlast := h.last (blanks.getLast hne) (by simp [List.getLast?_eq_some_getLast hne])
    simp [hblank _ (List.getLast_mem hne)] at hlast

theorem trim_eq_nil {text : Text} (h : IsBlank text) : text.trim = [] := by
  have hnil : text.dropWhile isBlank = [] := by
    rw [List.dropWhile_eq_nil_iff]
    exact h
  rw [trim_eq_rdropWhile, hnil, List.rdropWhile_nil]

-- One character between blanks is what is left when they are gone.
theorem trim_blanks_append {before after : Text} {c : Char} (hbefore : IsBlank before) (hc : isBlank c = false)
    (hafter : IsBlank after) : Text.trim (before ++ c :: after) = [c] := by
  have hfront : (before ++ c :: after).dropWhile isBlank = c :: after := by
    rw [List.dropWhile_append_of_pos hbefore, List.dropWhile_cons_of_neg (by simp [hc])]
  have hblank : after.reverse.dropWhile isBlank = [] := by
    rw [List.dropWhile_eq_nil_iff]
    exact fun c hc => hafter c (List.mem_reverse.mp hc)
  rw [trim_eq_rdropWhile, hfront, List.rdropWhile, List.reverse_cons, List.dropWhile_append, hblank]
  simp [hc]

-- Blanks before and after a text make no difference to what is left without them.
theorem trim_append_left {before : Text} (h : IsBlank before) (text : Text) : Text.trim (before ++ text) = text.trim := by
  rw [trim_eq_rdropWhile, List.dropWhile_append_of_pos h]
  rfl

theorem trim_append_right (text : Text) {after : Text} (h : IsBlank after) : Text.trim (text ++ after) = text.trim := by
  have hreverse : ∀ c ∈ after.reverse, isBlank c = true := fun c hc => h c (List.mem_reverse.mp hc)
  rw [trim_eq_rdropWhile, List.dropWhile_append]
  split
  case isTrue hnil =>
    rw [List.dropWhile_eq_nil_iff.mpr h, trim_eq_rdropWhile, List.isEmpty_iff.mp hnil]
  case isFalse =>
    rw [List.rdropWhile, List.reverse_append, List.dropWhile_append_of_pos hreverse]
    rfl

-- A run of characters ends at the first character that is not of its kind.
theorem takeWhile_append_of_head? {accepts : Char → Bool} {u v : Text} (hu : ∀ c ∈ u, accepts c = true)
    (hv : ∀ c ∈ v.head?, accepts c = false) : (u ++ v).takeWhile accepts = u := by
  rw [List.takeWhile_append_of_pos hu]
  cases v with
  | nil => simp
  | cons c v => simp [hv c rfl]

theorem append_inj_of_run {accepts : Char → Bool} {u u' v v' : Text} {c c' : Char}
    (hu : ∀ d ∈ u, accepts d = true) (hu' : ∀ d ∈ u', accepts d = true) (hc : accepts c = false)
    (hc' : accepts c' = false) (h : u ++ c :: v = u' ++ c' :: v') : u = u' ∧ c :: v = c' :: v' := by
  have hrun := congrArg (List.takeWhile accepts) h
  rw [takeWhile_append_of_head? hu (by simpa using hc), takeWhile_append_of_head? hu' (by simpa using hc')] at hrun
  subst hrun
  exact ⟨rfl, List.append_cancel_left h⟩

end CssSelectors.Text
