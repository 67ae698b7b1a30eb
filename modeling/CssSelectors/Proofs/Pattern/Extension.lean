import CssSelectors.Pattern.Lemmas
import Mathlib.Data.List.Basic

namespace CssSelectors

variable {ι : Type}

-- The same place in a text that goes on further.
def Cursor.extend (more : Text) (s : Cursor ι) : Cursor ι := { s with rest := s.rest ++ more }

-- The places that are still at or before the point where a text was extended.
def Cursor.within (more : Text) (s : Cursor ι) : Bool := more.length ≤ s.rest.length

namespace Pattern

theorem length_rest_le {p : Pattern ι} {s t : Cursor ι} (h : t ∈ p.outcomes s) :
    t.rest.length ≤ s.rest.length := by
  obtain ⟨taken, hrest, _⟩ := takes_of_mem_outcomes h
  simp [hrest]

theorem length_rest_lt {p : Pattern ι} {s t : Cursor ι} (h : t ∈ p.outcomes s)
    (hoffset : s.offset < t.offset) : t.rest.length < s.rest.length := by
  obtain ⟨taken, hrest, hlength⟩ := takes_of_mem_outcomes h
  simp only [hrest, List.length_append]
  omega

private theorem iterations_succ_congr {appetite : Appetite} {step : Cursor ι → List (Cursor ι)} {m n : Nat}
    {s : Cursor ι}
    (h : ((step s).filter fun t => s.offset < t.offset).flatMap (iterations appetite step m) =
      ((step s).filter fun t => s.offset < t.offset).flatMap (iterations appetite step n)) :
    iterations appetite step (m + 1) s = iterations appetite step (n + 1) s := by
  simp only [iterations, h]

-- A bound beyond the text that is left allows no further iterations.
theorem iterations_stable {p : Pattern ι} {appetite : Appetite} {s : Cursor ι} {m n : Nat}
    (hm : s.rest.length ≤ m) (hn : s.rest.length ≤ n) :
    iterations appetite p.outcomes m s = iterations appetite p.outcomes n s := by
  have hstep : ∀ n (s : Cursor ι), s.rest.length ≤ n →
      iterations appetite p.outcomes (n + 1) s = iterations appetite p.outcomes n s := by
    intro n
    induction n with
    | zero =>
      intro s hs
      have hnone : (p.outcomes s).filter (fun t => s.offset < t.offset) = [] := by
        refine List.filter_eq_nil_iff.mpr fun t ht hlt => ?_
        have hless := length_rest_lt ht (by simpa using hlt)
        omega
      cases appetite <;> simp [iterations, hnone]
    | succ n ih =>
      intro s hs
      apply iterations_succ_congr
      apply List.flatMap_congr
      intro t ht
      obtain ⟨ht, hlt⟩ := List.mem_filter.mp ht
      have hless := length_rest_lt ht (by simpa using hlt)
      exact ih t (by omega)
  have hup : ∀ k, iterations appetite p.outcomes (s.rest.length + k) s =
      iterations appetite p.outcomes s.rest.length s := by
    intro k
    induction k with
    | zero => rfl
    | succ k ih => rw [← Nat.add_assoc, hstep _ s (by omega), ih]
  rw [← Nat.add_sub_of_le hm, ← Nat.add_sub_of_le hn, hup, hup]

-- A second match only goes on, so it comes back to no place that the first has passed.
private theorem filter_flatMap_within {more : Text} {places : List (Cursor ι)}
    {f : Cursor ι → List (Cursor ι)}
    (hf : ∀ u ∈ places, ∀ t ∈ f u, t.rest.length ≤ u.rest.length) :
    (places.flatMap f).filter (Cursor.within more) =
      (places.filter (Cursor.within more)).flatMap fun u => (f u).filter (Cursor.within more) := by
  induction places with
  | nil => rfl
  | cons u places ih =>
    rw [List.flatMap_cons, List.filter_append, ih fun v hv => hf v (List.mem_cons_of_mem _ hv), List.filter_cons]
    cases hu : u.within more with
    | true => simp
    | false =>
      have hnone : (f u).filter (Cursor.within more) = [] := by
        refine List.filter_eq_nil_iff.mpr fun t ht hwithin => ?_
        have hle := hf u List.mem_cons_self t ht
        simp only [Cursor.within, decide_eq_false_iff_not, decide_eq_true_eq] at hu hwithin
        omega
      simp [hnone]

private theorem length_rest_le_of_mem_iterations {p : Pattern ι} {appetite : Appetite} {n : Nat}
    {s t : Cursor ι} (h : t ∈ iterations appetite p.outcomes n s) :
    t.rest.length ≤ s.rest.length :=
  iterations_induction (R := fun s t => t.rest.length ≤ s.rest.length) (fun _ => Nat.le_refl _)
    (fun _ _ _ hst htu => Nat.le_trans htu hst) (fun _ _ => length_rest_le) n s t h

private theorem filter_iterations_extend {p : Pattern ι} {appetite : Appetite} {more : Text}
    (ih : ∀ s : Cursor ι, (p.outcomes (s.extend more)).filter (Cursor.within more) =
      (p.outcomes s).map (Cursor.extend more)) (n : Nat) (s : Cursor ι) :
    (iterations appetite p.outcomes n (s.extend more)).filter (Cursor.within more) =
      (iterations appetite p.outcomes n s).map (Cursor.extend more) := by
  have hself : (s.extend more).within more = true := by simp [Cursor.within, Cursor.extend]
  induction n generalizing s with
  | zero => simp [iterations, hself]
  | succ n ihn =>
    have hmore : (((p.outcomes (s.extend more)).filter fun t => (s.extend more).offset < t.offset).flatMap
          (iterations appetite p.outcomes n)).filter (Cursor.within more) =
        (((p.outcomes s).filter fun t => s.offset < t.offset).flatMap
          (iterations appetite p.outcomes n)).map (Cursor.extend more) := by
      rw [filter_flatMap_within fun _ _ _ => length_rest_le_of_mem_iterations, List.filter_comm, ih,
        List.filter_map, List.flatMap_map, List.map_flatMap]
      apply List.flatMap_congr
      intro t _
      exact ihn t (by simp [Cursor.within, Cursor.extend])
    cases appetite with
    | greedy => simp only [iterations, List.filter_append, hmore, List.filter_cons, hself, List.map_append]; rfl
    | modest => simp only [iterations, hmore, List.filter_cons, hself, List.map_cons]; rfl

-- Among the matches in an extended text, those that end before the extension are the matches in
-- the text itself, in the same order of preference.
theorem filter_outcomes_extend (p : Pattern ι) (more : Text) (s : Cursor ι) :
    (p.outcomes (s.extend more)).filter (Cursor.within more) =
      (p.outcomes s).map (Cursor.extend more) := by
  induction p generalizing s with
  | nothing => simp [outcomes, Cursor.within, Cursor.extend]
  | char accepts =>
    obtain ⟨offset, rest, spans⟩ := s
    cases rest with
    | nil =>
      cases more with
      | nil => simp [outcomes, Cursor.extend, Cursor.next?]
      | cons c more => cases h : accepts c <;> simp [outcomes, Cursor.extend, Cursor.next?, Cursor.within, h]
    | cons c rest => cases h : accepts c <;> simp [outcomes, Cursor.extend, Cursor.next?, Cursor.within, h]
  | seq p q hp hq =>
    simp only [outcomes]
    rw [filter_flatMap_within fun _ _ _ => length_rest_le, hp, List.flatMap_map, List.map_flatMap]
    exact List.flatMap_congr fun t _ => hq t
  | alt p q hp hq => simp only [outcomes, List.filter_append, hp, hq, List.map_append]
  | many appetite body ih =>
    have hlength : s.rest.length ≤ (s.extend more).rest.length := by simp [Cursor.extend]
    simp only [outcomes]
    rw [filter_iterations_extend ih, iterations_stable hlength (Nat.le_refl _)]
  | field label body ih =>
    simp only [outcomes, List.filter_map, List.map_map]
    have hwithin : (Cursor.within more ∘ Cursor.note label (s.extend more).offset) = Cursor.within more := rfl
    rw [hwithin, ih, List.map_map]
    rfl

end Pattern

end CssSelectors
