namespace CssSelectors

variable {α : Type}

-- A list cut at the elements that a test picks: the run before the first of them, then each of
-- them with the run after it.
def runs (cuts : α → Bool) : List α → List α × List (α × List α)
  | [] => ([], [])
  | x :: xs =>
    let (first, more) := runs cuts xs
    if cuts x then ([], (x, first) :: more) else (x :: first, more)

-- The list that runs were cut from.
def joinRuns (first : List α) (more : List (α × List α)) : List α :=
  first ++ more.flatMap fun (cut, run) => cut :: run

theorem joinRuns_runs (cuts : α → Bool) (xs : List α) :
    joinRuns (runs cuts xs).1 (runs cuts xs).2 = xs := by
  induction xs with
  | nil => rfl
  | cons x xs ih =>
    unfold joinRuns at ih ⊢
    cases h : cuts x with
    | true => simp [runs, h, ih]
    | false => simp [runs, h, ih]

-- The first run holds no cut.
theorem cuts_of_mem_first {cuts : α → Bool} {xs : List α} {x : α}
    (h : x ∈ (runs cuts xs).1) : cuts x = false := by
  induction xs with
  | nil => simp [runs] at h
  | cons y xs ih =>
    cases hy : cuts y with
    | true => simp [runs, hy] at h
    | false =>
      have hmem : x = y ∨ x ∈ (runs cuts xs).1 := by simpa [runs, hy] using h
      rcases hmem with rfl | hmem
      · exact hy
      · exact ih hmem

-- After the first run every run follows a cut and holds none.
theorem cuts_of_mem_more {cuts : α → Bool} {xs : List α} {r : α × List α}
    (h : r ∈ (runs cuts xs).2) : cuts r.1 = true ∧ ∀ x ∈ r.2, cuts x = false := by
  induction xs with
  | nil => simp [runs] at h
  | cons y xs ih =>
    cases hy : cuts y with
    | true =>
      have hmem : r = (y, (runs cuts xs).1) ∨ r ∈ (runs cuts xs).2 := by
        simpa [runs, hy] using h
      rcases hmem with rfl | hmem
      · exact ⟨hy, fun x hx => cuts_of_mem_first hx⟩
      · exact ih hmem
    | false => exact ih (by simpa [runs, hy] using h)

end CssSelectors
