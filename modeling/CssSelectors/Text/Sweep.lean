import CssSelectors.Text.Basic

namespace CssSelectors

-- What a sweep over a text leaves behind: single characters that nothing wanted, and
-- stretches of text that were taken as one item.
inductive Swept (α : Type) where
  | loose (c : Char)
  | taken (item : α) (text : Text)
deriving DecidableEq, Repr

namespace Swept

variable {α : Type}

-- The text that a part of a sweep stands for.
def source : Swept α → Text
  | loose c => [c]
  | taken _ text => text

end Swept

namespace Text

variable {α : Type}

-- A sweep that first passes over a number of characters. At every other place the offer is
-- asked with the character there and the text after it. It answers with an item and the number
-- of further characters that belong to it, which the sweep then passes over.
def sweepAfter (offer : Char → Text → Option (α × Nat)) : Nat → Text → List (Swept α)
  | _, [] => []
  | skip + 1, _ :: rest => sweepAfter offer skip rest
  | 0, c :: rest =>
    match offer c rest with
    | none => .loose c :: sweepAfter offer 0 rest
    | some (item, more) => .taken item (c :: rest.take more) :: sweepAfter offer more rest

-- A text from left to right, each place either taken or left alone.
def sweep (offer : Char → Text → Option (α × Nat)) (text : Text) : List (Swept α) :=
  sweepAfter offer 0 text

variable {offer : Char → Text → Option (α × Nat)}

@[simp] theorem sweep_nil : sweep offer [] = [] := by
  simp [sweep, sweepAfter]

-- To pass over characters is to sweep the text without them.
theorem sweepAfter_eq_sweep_drop (skip : Nat) (text : Text) :
    sweepAfter offer skip text = sweep offer (text.drop skip) := by
  induction text generalizing skip with
  | nil => cases skip <;> simp [sweep, sweepAfter]
  | cons c rest ih =>
    cases skip with
    | zero => rfl
    | succ skip => simpa [sweepAfter] using ih skip

-- Where nothing is offered one character is left alone.
theorem sweep_cons_of_none {c : Char} {rest : Text} (h : offer c rest = none) :
    sweep offer (c :: rest) = .loose c :: sweep offer rest := by
  simp [sweep, sweepAfter, h]

-- Where an item is offered the sweep goes on after its text.
theorem sweep_cons_of_some {c : Char} {rest : Text} {item : α} {more : Nat}
    (h : offer c rest = some (item, more)) :
    sweep offer (c :: rest) =
      .taken item (c :: rest.take more) :: sweep offer (rest.drop more) := by
  rw [sweep, sweepAfter, h]
  simp only [sweepAfter_eq_sweep_drop]

-- Induction along a sweep: what holds of the text after a place at which the sweep stops holds
-- of the text from there.
theorem sweep_induction (offer : Char → Text → Option (α × Nat)) {motive : Text → Prop}
    (nil : motive [])
    (loose : ∀ c rest, offer c rest = none → motive rest → motive (c :: rest))
    (taken : ∀ c rest item more, offer c rest = some (item, more) → motive (rest.drop more) →
      motive (c :: rest))
    (text : Text) : motive text := by
  induction h : text.length using Nat.strongRecOn generalizing text with
  | ind n ih =>
    cases text with
    | nil => exact nil
    | cons c rest =>
      rw [List.length_cons] at h
      cases hoffer : offer c rest with
      | none => exact loose c rest hoffer (ih rest.length (by omega) rest rfl)
      | some found =>
        obtain ⟨item, more⟩ := found
        have hlt : (rest.drop more).length < n := by
          rw [List.length_drop]
          omega
        exact taken c rest item more hoffer (ih _ hlt _ rfl)

-- A sweep loses nothing: its parts in order are the text.
theorem flatMap_source_sweep (text : Text) :
    (sweep offer text).flatMap Swept.source = text := by
  induction text using sweep_induction offer with
  | nil => simp
  | loose c rest hoffer ih =>
    rw [sweep_cons_of_none hoffer, List.flatMap_cons, ih]
    rfl
  | taken c rest item more hoffer ih =>
    rw [sweep_cons_of_some hoffer, List.flatMap_cons, ih]
    simp [Swept.source]

end Text

end CssSelectors
