import CssSelectors.Proofs.Pattern.Language
import Mathlib.Data.List.Forall2

namespace CssSelectors.Pattern

variable {ι : Type}

-- The preferred one of the matches that take all that is left.
def finish? (p : Pattern ι) (s : Cursor ι) : Option (Cursor ι) := (p.outcomes s).find? (·.rest.isEmpty)

theorem whole?_eq_finish? (p : Pattern ι) (text : Text) : p.whole? text = p.finish? (.start text) :=
  whole?_eq_find? p text

theorem mem_of_finish? {p : Pattern ι} {s t : Cursor ι} (h : p.finish? s = some t) : t ∈ p.outcomes s ∧ t.rest = [] :=
  ⟨List.mem_of_find?_eq_some h, List.isEmpty_iff.mp (by simpa using List.find?_some h)⟩

theorem finish?_isSome_iff {p : Pattern ι} {s : Cursor ι} : (p.finish? s).isSome ↔ p.Matches s.rest := by
  rw [finish?, List.find?_isSome]
  constructor
  · rintro ⟨t, ht, hempty⟩
    obtain ⟨taken, hrest, _, hin⟩ := takesIn_of_mem_outcomes ht
    rw [List.isEmpty_iff.mp hempty, List.append_nil] at hrest
    exact hrest ▸ hin
  · intro h
    obtain ⟨t, ht, hempty⟩ := exists_mem_outcomes_of_matches h (List.append_nil _).symm
    exact ⟨t, ht, List.isEmpty_iff.mpr hempty⟩

theorem matches_of_finish? {p : Pattern ι} {s t : Cursor ι} (h : p.finish? s = some t) : p.Matches s.rest :=
  finish?_isSome_iff.mp (h ▸ rfl)

theorem finish?_eq_none_iff {p : Pattern ι} {s : Cursor ι} : p.finish? s = none ↔ ¬p.Matches s.rest := by
  rw [← finish?_isSome_iff, Option.not_isSome_iff_eq_none]

-- A sequence is finished after the first place that its first part can reach and from which the
-- second part can finish.
theorem finish?_append (p q : Pattern ι) (s : Cursor ι) : (p ++ q).finish? s = (p.outcomes s).findSome? q.finish? := by
  rw [finish?, outcomes_append, List.find?_flatMap]
  rfl

-- If that is possible from the preferred place, then it is finished from there.
theorem finish?_append_of_head? {p q : Pattern ι} {s u : Cursor ι} (hu : (p.outcomes s).head? = some u)
    (hq : q.Matches u.rest) : (p ++ q).finish? s = q.finish? u := by
  obtain ⟨others, hothers⟩ := List.head?_eq_some_iff.mp hu
  obtain ⟨t, ht⟩ := Option.isSome_iff_exists.mp (finish?_isSome_iff.mpr hq)
  rw [finish?_append, hothers, List.findSome?_cons, ht]

-- So it is if there is no other place.
theorem finish?_append_of_forall_mem {p q : Pattern ι} {s u : Cursor ι} (hu : u ∈ p.outcomes s)
    (hall : ∀ v ∈ p.outcomes s, v = u) : (p ++ q).finish? s = q.finish? u := by
  rw [finish?_append]
  cases hfound : (p.outcomes s).findSome? q.finish? with
  | none => exact (List.findSome?_eq_none_iff.mp hfound u hu).symm
  | some t =>
    obtain ⟨v, hv, ht⟩ := List.exists_of_findSome?_eq_some hfound
    rw [← ht, hall v hv]

theorem findSome?_congr {α β : Type} {f g : α → Option β} {places : List α} (h : ∀ s ∈ places, f s = g s) :
    places.findSome? f = places.findSome? g := by
  induction places with
  | nil => rfl
  | cons s places ih =>
    obtain ⟨hs, hplaces⟩ := List.forall_mem_cons.mp h
    rw [List.findSome?_cons, List.findSome?_cons, hs, ih hplaces]

-- Two searches that go through related places find related results, if the second succeeds where
-- the first ends and fails where the first goes on to a success.
theorem exists_of_forall₂_findSome? {α β γ δ : Type} {R : α → β → Prop} {P : γ → δ → Prop} {f : α → Option γ}
    {g : β → Option δ} {places : List α} {places' : List β} {c : γ} (h : List.Forall₂ R places places')
    (hfound : places.findSome? f = some c)
    (hstop : ∀ a b, R a b → f a = some c → ∃ d, g b = some d ∧ P c d)
    (hpass : places.Pairwise fun a a' => f a = none → (f a').isSome → ∀ b, R a b → g b = none) :
    ∃ d, places'.findSome? g = some d ∧ P c d := by
  induction h with
  | nil => cases hfound
  | @cons a b places places' hab _ ih =>
    obtain ⟨hlater, hpass⟩ := List.pairwise_cons.mp hpass
    rw [List.findSome?_cons] at hfound ⊢
    cases ha : f a with
    | some c' =>
      rw [ha] at hfound
      obtain rfl : c' = c := Option.some.inj hfound
      obtain ⟨d, hd, hcd⟩ := hstop a b hab ha
      exact ⟨d, by rw [hd], hcd⟩
    | none =>
      rw [ha] at hfound
      obtain ⟨a', ha', hc⟩ := List.exists_of_findSome?_eq_some hfound
      rw [hlater a' ha' ha (hc ▸ rfl) b hab]
      exact ih hfound hpass

end CssSelectors.Pattern
