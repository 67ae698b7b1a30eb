import CssSelectors.Pattern.Search

namespace CssSelectors.Pattern

variable {ι : Type}

-- What every single step keeps is kept by all iterations of it.
theorem iterations_induction {appetite : Appetite}
    {step : Cursor ι → List (Cursor ι)} {R : Cursor ι → Cursor ι → Prop}
    (hrefl : ∀ s, R s s) (htrans : ∀ s t u, R s t → R t u → R s u)
    (hstep : ∀ s, ∀ t ∈ step s, R s t) (n : Nat) (s : Cursor ι) :
    ∀ t ∈ iterations appetite step n s, R s t := by
  induction n generalizing s with
  | zero =>
    intro t ht
    rw [iterations, List.mem_singleton] at ht
    exact ht ▸ hrefl s
  | succ n ih =>
    have hmore : ∀ t ∈ ((step s).filter fun t => s.offset < t.offset).flatMap
        (iterations appetite step n), R s t := by
      intro t ht
      obtain ⟨u, hu, ht⟩ := List.mem_flatMap.mp ht
      exact htrans s u t (hstep s u (List.mem_filter.mp hu).1) (ih u t ht)
    intro t ht
    cases appetite with
    | greedy =>
      simp only [iterations, List.mem_append, List.mem_singleton] at ht
      rcases ht with ht | rfl
      · exact hmore t ht
      · exact hrefl t
    | modest =>
      simp only [iterations, List.mem_cons] at ht
      rcases ht with rfl | ht
      · exact hrefl t
      · exact hmore t ht

-- A match takes a stretch of text from the front of what is left and moves on by its length.
def Takes (s t : Cursor ι) : Prop :=
  ∃ taken, s.rest = taken ++ t.rest ∧ t.offset = s.offset + taken.length

theorem Takes.refl (s : Cursor ι) : Takes s s := ⟨[], by simp⟩

theorem Takes.trans {s t u : Cursor ι} (hst : Takes s t) (htu : Takes t u) : Takes s u := by
  obtain ⟨first, hfirst, hoffset⟩ := hst
  obtain ⟨second, hsecond, hoffset'⟩ := htu
  refine ⟨first ++ second, ?_, ?_⟩
  · rw [hfirst, hsecond, List.append_assoc]
  · rw [hoffset', hoffset, List.length_append]
    omega

-- Accepting a character takes just that.
theorem next?_eq_some_iff {accepts : Char → Bool} {s t : Cursor ι} :
    s.next? accepts = some t ↔
      ∃ c, accepts c = true ∧ s.rest = c :: t.rest ∧ t.offset = s.offset + 1 ∧
        t.spans = s.spans := by
  obtain ⟨offset, rest, spans⟩ := s
  obtain ⟨offset', rest', spans'⟩ := t
  cases rest with
  | nil => simp [Cursor.next?]
  | cons c rest =>
    cases h : accepts c with
    | false =>
      simp only [Cursor.next?, h, Bool.false_eq_true, if_false, reduceCtorEq, false_iff]
      rintro ⟨d, hd, hrest, _⟩
      obtain ⟨rfl, _⟩ := List.cons.inj hrest
      simp [h] at hd
    | true =>
      simp only [Cursor.next?, h, if_true, Option.some.injEq, Cursor.mk.injEq]
      constructor
      · rintro ⟨rfl, rfl, rfl⟩
        exact ⟨c, h, rfl, rfl, rfl⟩
      · rintro ⟨d, _, hrest, hoffset, hspans⟩
        exact ⟨hoffset.symm, (List.cons.inj hrest).2, hspans.symm⟩

private theorem takes_of_next? {accepts : Char → Bool} {s t : Cursor ι}
    (h : s.next? accepts = some t) : Takes s t := by
  obtain ⟨c, _, hrest, hoffset, _⟩ := next?_eq_some_iff.mp h
  exact ⟨[c], hrest, hoffset⟩

-- Every place that a pattern can reach lies behind the stretch that it takes.
theorem takes_of_mem_outcomes {p : Pattern ι} {s t : Cursor ι} (h : t ∈ p.outcomes s) :
    Takes s t := by
  induction p generalizing s t with
  | nothing =>
    rw [outcomes, List.mem_singleton] at h
    exact h ▸ .refl s
  | char accepts => exact takes_of_next? (by simpa [outcomes] using h)
  | seq p q hp hq =>
    obtain ⟨u, hu, ht⟩ := List.mem_flatMap.mp h
    exact (hp hu).trans (hq ht)
  | alt p q hp hq =>
    rcases List.mem_append.mp h with h | h
    · exact hp h
    · exact hq h
  | many appetite body ih =>
    exact iterations_induction (R := Takes) .refl (fun _ _ _ => .trans) (fun _ _ => ih) _ s t h
  | field label body ih =>
    obtain ⟨u, hu, rfl⟩ := List.mem_map.mp h
    have htakes : Takes s u := ih hu
    exact htakes

-- Where a pattern and a character after it match, the character is left.
theorem mem_rest_of_append_lit {p : Pattern ι} {c : Char} {s t : Cursor ι}
    (h : t ∈ (p ++ lit c).outcomes s) : c ∈ s.rest := by
  obtain ⟨u, hu, ht⟩ := List.mem_flatMap.mp h
  obtain ⟨taken, hrest, _⟩ := takes_of_mem_outcomes hu
  obtain ⟨d, hd, hrest', _⟩ := next?_eq_some_iff.mp (Option.mem_toList.mp ht)
  obtain rfl : d = c := by simpa using hd
  simp [hrest, hrest']

end CssSelectors.Pattern
