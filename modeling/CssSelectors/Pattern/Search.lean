import CssSelectors.Pattern.Basic

namespace CssSelectors.Pattern

variable {ι β : Type}

-- The iterations of `Pattern.iterations`, tried one after another until the goal is met.
def iterate (appetite : Appetite) (step : Cursor ι → (Cursor ι → Option β) → Option β) :
    Nat → Cursor ι → (Cursor ι → Option β) → Option β
  | 0, s, goal => goal s
  | n + 1, s, goal =>
    let further (t : Cursor ι) : Option β :=
      if s.offset < t.offset then iterate appetite step n t goal else none
    match appetite with
    | .greedy => (step s further).or (goal s)
    | .modest => (goal s).or (step s further)

-- What the goal makes of the first place that meets it, in the order of preference. A place
-- is only visited once those preferred to it have failed.
def first? : Pattern ι → Cursor ι → (Cursor ι → Option β) → Option β
  | nothing, s, goal => goal s
  | char accepts, s, goal => (s.next? accepts).bind goal
  | seq p q, s, goal => p.first? s fun t => q.first? t goal
  | alt p q, s, goal => (p.first? s goal).or (q.first? s goal)
  | many appetite body, s, goal => iterate appetite body.first? s.rest.length s goal
  | field label body, s, goal => body.first? s fun t => goal (t.note label s.offset)

private theorem findSome?_flatMap {α γ : Type} (xs : List α) (f : α → List γ)
    (g : γ → Option β) :
    (xs.flatMap f).findSome? g = xs.findSome? fun x => (f x).findSome? g := by
  induction xs with
  | nil => rfl
  | cons x xs ih =>
    rw [List.flatMap_cons, List.findSome?_append, ih, List.findSome?_cons]
    cases (f x).findSome? g <;> rfl

private theorem findSome?_filter {α : Type} (xs : List α) (keep : α → Bool)
    (g : α → Option β) :
    (xs.filter keep).findSome? g = xs.findSome? fun x => if keep x then g x else none := by
  induction xs with
  | nil => rfl
  | cons x xs ih =>
    rw [List.filter_cons, List.findSome?_cons]
    cases hx : keep x with
    | false => simp [ih]
    | true =>
      simp only [if_true, List.findSome?_cons, ih]

-- Trying iterations one after another finds the first that meets the goal, if the step finds
-- the first of its places.
theorem iterate_eq_findSome? (appetite : Appetite)
    {step : Cursor ι → (Cursor ι → Option β) → Option β} {places : Cursor ι → List (Cursor ι)}
    (hstep : ∀ s goal, step s goal = (places s).findSome? goal) (n : Nat) (s : Cursor ι)
    (goal : Cursor ι → Option β) :
    iterate appetite step n s goal = (iterations appetite places n s).findSome? goal := by
  induction n generalizing s with
  | zero => simp [iterate, iterations]
  | succ n ih =>
    have hmore : (step s fun t =>
          if s.offset < t.offset then iterate appetite step n t goal else none) =
        (((places s).filter fun t => s.offset < t.offset).flatMap
          (iterations appetite places n)).findSome? goal := by
      simp only [hstep, findSome?_flatMap, findSome?_filter, ih, decide_eq_true_eq]
    cases appetite with
    | greedy =>
      simp only [iterate, iterations, hmore, List.findSome?_append, List.findSome?_singleton]
    | modest =>
      simp only [iterate, iterations, hmore, List.findSome?_cons]
      cases goal s <;> rfl

-- The search agrees with the meaning of the pattern.
theorem first?_eq_findSome? (p : Pattern ι) (s : Cursor ι) (goal : Cursor ι → Option β) :
    p.first? s goal = (p.outcomes s).findSome? goal := by
  induction p generalizing s goal with
  | nothing => simp [first?, outcomes]
  | char accepts => cases h : s.next? accepts <;> simp [first?, outcomes, h]
  | seq p q hp hq => simp only [first?, outcomes, findSome?_flatMap, hp, hq]
  | alt p q hp hq => simp only [first?, outcomes, List.findSome?_append, hp, hq]
  | many appetite body ih => exact iterate_eq_findSome? appetite ih _ s goal
  | field label body ih =>
    rw [first?, outcomes, ih, List.findSome?_map]
    rfl

-- The preferred match at the front of a text.
def front? (p : Pattern ι) (text : Text) : Option (Cursor ι) :=
  p.first? (.start text) some

-- The preferred match of a text as a whole.
def whole? (p : Pattern ι) (text : Text) : Option (Cursor ι) :=
  p.first? (.start text) fun s => if s.rest.isEmpty then some s else none

theorem front?_eq_head? (p : Pattern ι) (text : Text) :
    p.front? text = (p.outcomes (.start text)).head? := by
  rw [front?, first?_eq_findSome?]
  cases p.outcomes (.start text) <;> rfl

theorem whole?_eq_find? (p : Pattern ι) (text : Text) :
    p.whole? text = (p.outcomes (.start text)).find? (·.rest.isEmpty) := by
  rw [whole?, first?_eq_findSome?]
  induction p.outcomes (.start text) with
  | nil => rfl
  | cons s more ih =>
    rw [List.findSome?_cons, List.find?_cons, ih]
    cases s.rest.isEmpty <;> rfl

end CssSelectors.Pattern
