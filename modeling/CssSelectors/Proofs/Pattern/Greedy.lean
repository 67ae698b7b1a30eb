import CssSelectors.Pattern.Lemmas
import Mathlib.Data.List.Basic

namespace CssSelectors

variable {ι : Type}

namespace Cursor

-- The place a number of characters further on, with the same fields seen.
def skip (s : Cursor ι) (n : Nat) : Cursor ι := ⟨s.offset + n, s.rest.drop n, s.spans⟩

@[simp] theorem skip_offset (s : Cursor ι) (n : Nat) : (s.skip n).offset = s.offset + n := rfl

@[simp] theorem skip_rest (s : Cursor ι) (n : Nat) : (s.skip n).rest = s.rest.drop n := rfl

@[simp] theorem skip_zero (s : Cursor ι) : s.skip 0 = s := by
  cases s
  simp [skip]

@[simp] theorem skip_skip (s : Cursor ι) (m n : Nat) : (s.skip m).skip n = s.skip (m + n) := by
  simp [skip, Nat.add_assoc, List.drop_drop]

@[simp] theorem note_rest (label : ι) (opened : Nat) (s : Cursor ι) :
    (s.note label opened).rest = s.rest := rfl

@[simp] theorem note_offset (label : ι) (opened : Nat) (s : Cursor ι) :
    (s.note label opened).offset = s.offset := rfl

end Cursor

namespace Pattern

-- A step over one character depends on that character alone.
theorem outcomes_char_cons {accepts : Char → Bool} {s : Cursor ι} {c : Char} {rest : Text}
    (hrest : s.rest = c :: rest) :
    (char accepts).outcomes s = if accepts c then [s.skip 1] else [] := by
  obtain ⟨offset, text, spans⟩ := s
  obtain rfl : text = c :: rest := hrest
  cases h : accepts c <;> simp [outcomes, Cursor.next?, Cursor.skip, h]

theorem head?_outcomes_lit {c : Char} {s : Cursor ι} {rest : Text} (hrest : s.rest = c :: rest) :
    ((lit c).outcomes s).head? = some (s.skip 1) := by
  simp [lit, outcomes_char_cons hrest]

theorem outcomes_char_nil {accepts : Char → Bool} {s : Cursor ι} (hrest : s.rest = []) :
    (char accepts).outcomes s = [] := by
  obtain ⟨offset, text, spans⟩ := s
  obtain rfl : text = [] := hrest
  simp [outcomes, Cursor.next?]

private theorem iterations_char (accepts : Char → Bool) (n : Nat) (s : Cursor ι)
    (hn : s.rest.length ≤ n) :
    iterations .modest (char accepts).outcomes n s =
        (List.range ((s.rest.takeWhile accepts).length + 1)).map s.skip ∧
      iterations .greedy (char accepts).outcomes n s =
        ((List.range ((s.rest.takeWhile accepts).length + 1)).map s.skip).reverse := by
  induction n generalizing s with
  | zero =>
    have hrest : s.rest = [] := List.length_eq_zero_iff.mp (by omega)
    simp [iterations, hrest]
  | succ n ih =>
    cases hrest : s.rest with
    | nil => simp [iterations, outcomes_char_nil hrest]
    | cons c rest =>
      cases hc : accepts c with
      | false => simp [iterations, outcomes_char_cons hrest, hc]
      | true =>
        have hlength : (s.skip 1).rest.length ≤ n := by
          simp only [hrest, List.length_cons] at hn
          simp only [Cursor.skip_rest, hrest, List.drop_succ_cons, List.drop_zero]
          omega
        obtain ⟨hmodest, hgreedy⟩ := ih (s.skip 1) hlength
        have hskip : (s.skip 1).skip = s.skip ∘ Nat.succ := by
          funext k
          simp [Nat.add_comm]
        simp only [iterations, outcomes_char_cons hrest, hc, if_true, List.filter_cons,
          Cursor.skip_offset, Nat.lt_add_one, decide_true, List.filter_nil, List.flatMap_cons,
          List.flatMap_nil, List.append_nil, hmodest, hgreedy, List.takeWhile_cons,
          List.length_cons]
        rw [List.range_succ_eq_map (n := (rest.takeWhile accepts).length + 1)]
        simp [hrest, hskip]

-- A run of accepted characters can be taken up to any of them, the shortest stretch first.
theorem outcomes_many_modest (accepts : Char → Bool) (s : Cursor ι) :
    (many .modest (char accepts)).outcomes s =
      (List.range ((s.rest.takeWhile accepts).length + 1)).map s.skip :=
  (iterations_char accepts _ s (Nat.le_refl _)).1

-- A greedy match takes the longest stretch first.
theorem outcomes_many_greedy (accepts : Char → Bool) (s : Cursor ι) :
    (many .greedy (char accepts)).outcomes s =
      ((List.range ((s.rest.takeWhile accepts).length + 1)).map s.skip).reverse :=
  (iterations_char accepts _ s (Nat.le_refl _)).2

-- The preferred greedy match is the whole run.
theorem head?_outcomes_many_greedy (accepts : Char → Bool) (s : Cursor ι) :
    ((many .greedy (char accepts)).outcomes s).head? =
      some (s.skip (s.rest.takeWhile accepts).length) := by
  rw [outcomes_many_greedy, List.head?_reverse, List.range_succ, List.map_append]
  simp

-- At least one character is a run without its empty stretch.
theorem outcomes_oneOrMore_greedy (accepts : Char → Bool) (s : Cursor ι) :
    (oneOrMore .greedy (char accepts)).outcomes s =
      ((List.range (s.rest.takeWhile accepts).length).map fun k => s.skip (k + 1)).reverse := by
  change ((char accepts).outcomes s).flatMap (many .greedy (char accepts)).outcomes = _
  cases hrest : s.rest with
  | nil => simp [outcomes_char_nil hrest]
  | cons c rest =>
    cases hc : accepts c with
    | false => simp [outcomes_char_cons hrest, hc]
    | true =>
      have hskip : (s.skip 1).skip = fun k => s.skip (k + 1) := by
        funext k
        rw [Cursor.skip_skip, Nat.add_comm]
      simp [outcomes_char_cons hrest, hc, outcomes_many_greedy, hskip, hrest]

theorem outcomes_oneOrMore_modest (accepts : Char → Bool) (s : Cursor ι) :
    (oneOrMore .modest (char accepts)).outcomes s =
      (List.range (s.rest.takeWhile accepts).length).map fun k => s.skip (k + 1) := by
  change ((char accepts).outcomes s).flatMap (many .modest (char accepts)).outcomes = _
  cases hrest : s.rest with
  | nil => simp [outcomes_char_nil hrest]
  | cons c rest =>
    cases hc : accepts c with
    | false => simp [outcomes_char_cons hrest, hc]
    | true =>
      have hskip : (s.skip 1).skip = fun k => s.skip (k + 1) := by
        funext k
        rw [Cursor.skip_skip, Nat.add_comm]
      simp [outcomes_char_cons hrest, hc, outcomes_many_modest, hskip, hrest]

theorem head?_outcomes_oneOrMore_greedy (accepts : Char → Bool) (s : Cursor ι) :
    ((oneOrMore .greedy (char accepts)).outcomes s).head? =
      if s.rest.takeWhile accepts = [] then none
      else some (s.skip (s.rest.takeWhile accepts).length) := by
  rw [outcomes_oneOrMore_greedy, List.head?_reverse]
  cases s.rest.takeWhile accepts with
  | nil => rfl
  | cons c run => simp [List.range_succ]

-- Repetitions of two patterns agree where the patterns do, as long as what is left stays in a
-- class of texts that is closed under suffixes.
theorem outcomes_many_congr {P : Text → Prop} (hsuffix : ∀ u v, P (u ++ v) → P v)
    {p q : Pattern ι} (h : ∀ s : Cursor ι, P s.rest → p.outcomes s = q.outcomes s)
    (appetite : Appetite) {s : Cursor ι} (hs : P s.rest) :
    (many appetite p).outcomes s = (many appetite q).outcomes s := by
  have hall : ∀ n (s : Cursor ι), P s.rest →
      iterations appetite p.outcomes n s = iterations appetite q.outcomes n s := by
    intro n
    induction n with
    | zero => intro s _; rfl
    | succ n ih =>
      intro s hs
      have hmore : ((p.outcomes s).filter fun t => s.offset < t.offset).flatMap
            (iterations appetite p.outcomes n) =
          ((q.outcomes s).filter fun t => s.offset < t.offset).flatMap
            (iterations appetite q.outcomes n) := by
        rw [← h s hs]
        apply List.flatMap_congr
        intro t ht
        obtain ⟨taken, hrest, _⟩ := takes_of_mem_outcomes (List.mem_filter.mp ht).1
        exact ih t (hsuffix taken _ (hrest ▸ hs))
      simp only [iterations, hmore]
  exact hall _ s hs

-- The preferred match of a sequence continues some match of its first part, and where the
-- second part always matches, the preferred one.
theorem exists_of_head?_append {p q : Pattern ι} {s t : Cursor ι}
    (h : ((p ++ q).outcomes s).head? = some t) :
    ∃ u ∈ p.outcomes s, (q.outcomes u).head? = some t := by
  rw [outcomes_append] at h
  generalize p.outcomes s = places at h ⊢
  induction places with
  | nil => simp at h
  | cons u more ih =>
    rw [List.flatMap_cons, List.head?_append] at h
    cases hu : (q.outcomes u).head? with
    | none =>
      obtain ⟨v, hv, ht⟩ := ih (by simpa [hu] using h)
      exact ⟨v, List.mem_cons_of_mem _ hv, ht⟩
    | some v =>
      obtain rfl : v = t := by simpa [hu] using h
      exact ⟨u, List.mem_cons_self, hu⟩

theorem head?_append_of_total {p q : Pattern ι} (htotal : ∀ s, q.outcomes s ≠ []) (s : Cursor ι) :
    ((p ++ q).outcomes s).head? = (p.outcomes s).head?.bind fun t => (q.outcomes t).head? := by
  rw [outcomes_append]
  cases p.outcomes s with
  | nil => rfl
  | cons u more =>
    obtain ⟨v, hv⟩ := Option.ne_none_iff_exists'.mp (mt List.head?_eq_none_iff.mp (htotal u))
    simp [List.flatMap_cons, List.head?_append, hv]

-- Where the second part matches after the preferred match of the first, the two go together.
theorem head?_append_of_head? {p q : Pattern ι} {s u t : Cursor ι} (hp : (p.outcomes s).head? = some u)
    (hq : (q.outcomes u).head? = some t) : ((p ++ q).outcomes s).head? = some t := by
  obtain ⟨others, hothers⟩ := List.head?_eq_some_iff.mp hp
  rw [outcomes_append, hothers, List.flatMap_cons, List.head?_append, hq, Option.some_or]

end Pattern

end CssSelectors
