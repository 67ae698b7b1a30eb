import CssSelectors.Pattern.Lemmas

namespace CssSelectors.Pattern

variable {ι : Type}

-- The texts that a pattern describes. Preference plays no part here: it only decides which of
-- several such texts is taken.
def Matches : Pattern ι → Text → Prop
  | nothing, text => text = []
  | char accepts, text => ∃ c, accepts c = true ∧ text = [c]
  | seq first second, text => ∃ u v, text = u ++ v ∧ first.Matches u ∧ second.Matches v
  | alt preferred other, text => preferred.Matches text ∨ other.Matches text
  | many _ body, text => ∃ parts : List Text, text = parts.flatten ∧ ∀ part ∈ parts, body.Matches part
  | field _ body, text => body.Matches text

-- A place in a text is reached by taking a text of some language from the front of what is left.
def TakesIn (language : Text → Prop) (s t : Cursor ι) : Prop :=
  ∃ taken, s.rest = taken ++ t.rest ∧ t.offset = s.offset + taken.length ∧ language taken

theorem TakesIn.mono {language language' : Text → Prop} {s t : Cursor ι}
    (h : TakesIn language s t) (himp : ∀ text, language text → language' text) :
    TakesIn language' s t := by
  obtain ⟨taken, hrest, hoffset, hin⟩ := h
  exact ⟨taken, hrest, hoffset, himp taken hin⟩

private theorem takesIn_many {appetite : Appetite} {body : Pattern ι}
    (ih : ∀ s t, t ∈ body.outcomes s → TakesIn body.Matches s t) {n : Nat} {s t : Cursor ι}
    (h : t ∈ iterations appetite body.outcomes n s) :
    TakesIn (many appetite body).Matches s t := by
  refine iterations_induction (R := TakesIn (many appetite body).Matches) ?_ ?_ ?_ n s t h
  · intro s
    exact ⟨[], by simp, by simp, [], by simp⟩
  · rintro s t u ⟨first, hfirst, hoffset, parts, rfl, hparts⟩ ⟨second, hsecond, hoffset', parts', rfl, hparts'⟩
    refine ⟨(parts ++ parts').flatten, ?_, ?_, parts ++ parts', rfl, ?_⟩
    · rw [hfirst, hsecond, List.flatten_append, List.append_assoc]
    · rw [hoffset', hoffset, List.flatten_append, List.length_append, Nat.add_assoc]
    · intro part hpart
      exact (List.mem_append.mp hpart).elim (hparts part) (hparts' part)
  · intro s t ht
    obtain ⟨taken, hrest, hoffset, hin⟩ := ih s t ht
    exact ⟨taken, hrest, hoffset, [taken], by simp, by simpa using hin⟩

-- Whatever a match takes belongs to the language of the pattern.
theorem takesIn_of_mem_outcomes {p : Pattern ι} {s t : Cursor ι} (h : t ∈ p.outcomes s) :
    TakesIn p.Matches s t := by
  induction p generalizing s t with
  | nothing =>
    rw [outcomes, List.mem_singleton] at h
    subst h
    exact ⟨[], by simp, by simp, rfl⟩
  | char accepts =>
    obtain ⟨c, hc, hrest, hoffset, _⟩ := next?_eq_some_iff.mp (Option.mem_toList.mp h)
    exact ⟨[c], hrest, hoffset, c, hc, rfl⟩
  | seq p q hp hq =>
    obtain ⟨u, hu, ht⟩ := List.mem_flatMap.mp h
    obtain ⟨first, hfirst, hoffset, hin⟩ := hp hu
    obtain ⟨second, hsecond, hoffset', hin'⟩ := hq ht
    refine ⟨first ++ second, ?_, ?_, first, second, rfl, hin, hin'⟩
    · rw [hfirst, hsecond, List.append_assoc]
    · rw [hoffset', hoffset, List.length_append, Nat.add_assoc]
  | alt p q hp hq =>
    rcases List.mem_append.mp h with h | h
    · exact (hp h).mono fun _ => .inl
    · exact (hq h).mono fun _ => .inr
  | many appetite body ih => exact takesIn_many (fun _ _ => ih) h
  | field label body ih =>
    obtain ⟨u, hu, rfl⟩ := List.mem_map.mp h
    have htakes : TakesIn body.Matches s u := ih hu
    exact htakes

private theorem self_mem_iterations (appetite : Appetite) (step : Cursor ι → List (Cursor ι))
    (n : Nat) (s : Cursor ι) : s ∈ iterations appetite step n s := by
  cases n with
  | zero => simp [iterations]
  | succ n => cases appetite <;> simp [iterations]

private theorem mem_iterations_of_step {appetite : Appetite} {step : Cursor ι → List (Cursor ι)}
    {n : Nat} {s t u : Cursor ι} (ht : t ∈ step s) (hlt : s.offset < t.offset)
    (hu : u ∈ iterations appetite step n t) : u ∈ iterations appetite step (n + 1) s := by
  have hmore : u ∈ ((step s).filter fun t => s.offset < t.offset).flatMap
      (iterations appetite step n) :=
    List.mem_flatMap.mpr ⟨t, List.mem_filter.mpr ⟨ht, by simpa using hlt⟩, hu⟩
  cases appetite with
  | greedy => exact List.mem_append_left _ hmore
  | modest => exact List.mem_cons_of_mem _ hmore

-- The bound on the number of iterations cuts nothing off: parts that are not empty are never
-- more than the characters they are made of.
private theorem exists_mem_iterations {appetite : Appetite} {body : Pattern ι}
    (ih : ∀ s taken rest, body.Matches taken → s.rest = taken ++ rest →
      ∃ t ∈ body.outcomes s, t.rest = rest)
    (parts : List Text) (hparts : ∀ part ∈ parts, body.Matches part) (n : Nat) (s : Cursor ι)
    (rest : Text) (hrest : s.rest = parts.flatten ++ rest) (hn : s.rest.length ≤ n) :
    ∃ t ∈ iterations appetite body.outcomes n s, t.rest = rest := by
  induction parts generalizing n s with
  | nil => exact ⟨s, self_mem_iterations _ _ _ _, by simpa using hrest⟩
  | cons part parts ihparts =>
    have hmore : ∀ part ∈ parts, body.Matches part :=
      fun part h => hparts part (List.mem_cons_of_mem _ h)
    rw [List.flatten_cons, List.append_assoc] at hrest
    by_cases hempty : part = []
    · subst hempty
      exact ihparts hmore n s (by simpa using hrest) hn
    · obtain ⟨t, ht, htrest⟩ := ih s part _ (hparts part List.mem_cons_self) hrest
      obtain ⟨taken, htaken, hoffset, _⟩ := takesIn_of_mem_outcomes ht
      have hlength : taken.length = part.length := by
        have h := congrArg List.length (htaken.symm.trans hrest)
        simp only [List.length_append, htrest] at h
        omega
      have hpos : 0 < part.length := List.length_pos_iff.mpr hempty
      have hlong := congrArg List.length htaken
      simp only [List.length_append] at hlong
      obtain ⟨m, rfl⟩ : ∃ m, n = m + 1 := ⟨n - 1, by omega⟩
      obtain ⟨u, hu, hurest⟩ := ihparts hmore m t htrest (by omega)
      exact ⟨u, mem_iterations_of_step ht (by omega) hu, hurest⟩

-- Conversely, every text of the language at the front of what is left can be taken.
theorem exists_mem_outcomes_of_matches {p : Pattern ι} {s : Cursor ι} {taken rest : Text}
    (h : p.Matches taken) (hrest : s.rest = taken ++ rest) :
    ∃ t ∈ p.outcomes s, t.rest = rest := by
  induction p generalizing s taken rest with
  | nothing =>
    obtain rfl : taken = [] := h
    exact ⟨s, by simp [outcomes], by simpa using hrest⟩
  | char accepts =>
    obtain ⟨c, hc, rfl⟩ := h
    refine ⟨⟨s.offset + 1, rest, s.spans⟩, ?_, rfl⟩
    exact Option.mem_toList.mpr (next?_eq_some_iff.mpr ⟨c, hc, by simpa using hrest, rfl, rfl⟩)
  | seq p q hp hq =>
    obtain ⟨u, v, rfl, hu, hv⟩ := h
    rw [List.append_assoc] at hrest
    obtain ⟨t, ht, htrest⟩ := hp hu hrest
    obtain ⟨t', ht', htrest'⟩ := hq hv htrest
    exact ⟨t', List.mem_flatMap.mpr ⟨t, ht, ht'⟩, htrest'⟩
  | alt p q hp hq =>
    rcases h with h | h
    · obtain ⟨t, ht, htrest⟩ := hp h hrest
      exact ⟨t, List.mem_append_left _ ht, htrest⟩
    · obtain ⟨t, ht, htrest⟩ := hq h hrest
      exact ⟨t, List.mem_append_right _ ht, htrest⟩
  | many appetite body ih =>
    obtain ⟨parts, rfl, hparts⟩ := h
    exact exists_mem_iterations (fun _ _ _ h hrest => ih h hrest) parts hparts _ s rest hrest
      (Nat.le_refl _)
  | field label body ih =>
    obtain ⟨t, ht, htrest⟩ := ih h hrest
    exact ⟨t.note label s.offset, List.mem_map.mpr ⟨t, ht, rfl⟩, htrest⟩

-- A pattern matches at the front of a text exactly where the text begins with one that it
-- describes.
theorem front?_isSome_iff {p : Pattern ι} {text : Text} :
    (p.front? text).isSome ↔ ∃ taken rest, text = taken ++ rest ∧ p.Matches taken := by
  rw [front?_eq_head?, List.isSome_head?]
  constructor
  · intro h
    obtain ⟨t, ht⟩ := List.exists_mem_of_ne_nil _ h
    obtain ⟨taken, hrest, _, hin⟩ := takesIn_of_mem_outcomes ht
    exact ⟨taken, t.rest, hrest, hin⟩
  · rintro ⟨taken, rest, htext, hin⟩
    obtain ⟨t, ht, _⟩ := exists_mem_outcomes_of_matches (s := .start text) hin htext
    exact List.ne_nil_of_mem ht

-- It matches a text as a whole exactly where it describes that text.
theorem whole?_isSome_iff {p : Pattern ι} {text : Text} :
    (p.whole? text).isSome ↔ p.Matches text := by
  rw [whole?_eq_find?, List.find?_isSome]
  constructor
  · rintro ⟨t, ht, hempty⟩
    obtain ⟨taken, hrest, _, hin⟩ := takesIn_of_mem_outcomes ht
    have htext : text = taken ++ t.rest := hrest
    rw [List.isEmpty_iff.mp hempty, List.append_nil] at htext
    exact htext ▸ hin
  · intro h
    obtain ⟨t, ht, hempty⟩ := exists_mem_outcomes_of_matches (s := .start text) h (List.append_nil _).symm
    exact ⟨t, ht, List.isEmpty_iff.mpr hempty⟩

end CssSelectors.Pattern
