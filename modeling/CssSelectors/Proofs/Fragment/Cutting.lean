import CssSelectors.Fragment
import CssSelectors.Proofs.Grammar.Ends
import CssSelectors.Proofs.Grammar.Front

namespace CssSelectors

open Grammar Text

namespace Tag

-- No kind of token has an empty text.
theorem ne_nil_of_matches {tag : Tag} {text : Text} (h : (pattern coveredArgument tag).Matches text) : text ≠ [] := by
  rintro rfl
  exact (shape_of_matches unescaped_nil h).ne_nil rfl

theorem exists_of_front?_cons {tag : Tag} {text : Text} {kind : Kind Selector} {width : Nat}
    (h : tag.front? text = some (kind, width)) :
    ∃ c taken rest, text = c :: taken ++ rest ∧ (c :: taken).length = width := by
  obtain ⟨taken, rest, rfl, rfl, hmatches, -⟩ := exists_of_front? h
  obtain ⟨c, taken, rfl⟩ := List.exists_cons_of_ne_nil (ne_nil_of_matches hmatches)
  exact ⟨c, taken, rest, rfl, rfl⟩

end Tag

namespace Fragment

-- The text that a fragment stands for.
def text : Fragment → Text
  | uncut text => text
  | cut _ content => content

def isUncut : Fragment → Bool
  | uncut _ => true
  | cut .. => false

-- How a text falls into the tokens of one kind and what is left between them: a token stands
-- wherever one is found after the last, and a stretch without a token goes on up to the next one.
inductive Cutting (tag : Tag) : Text → List Fragment → Prop
  | nil : Cutting tag [] []
  | cut {kind : Kind Selector} {w rest : Text} {fragments : List Fragment}
      (hfront : tag.front? (w ++ rest) = some (kind, w.length)) (hrest : Cutting tag rest fragments) :
      Cutting tag (w ++ rest) (cut kind w :: fragments)
  | uncut {u rest : Text} {fragments : List Fragment} (hne : u ≠ [])
      (hnone : ∀ a b, u = a ++ b → b ≠ [] → tag.front? (b ++ rest) = none)
      (hnext : ∀ fragment ∈ fragments.head?, fragment.isUncut = false) (hrest : Cutting tag rest fragments) :
      Cutting tag (u ++ rest) (uncut u :: fragments)

theorem ofSwept_map_loose {u : Text} (hne : u ≠ []) {parts : List (Swept (Kind Selector))}
    (hnext : ∀ fragment ∈ (ofSwept parts).head?, fragment.isUncut = false) :
    ofSwept (u.map .loose ++ parts) = uncut u :: ofSwept parts := by
  induction u with
  | nil => exact absurd rfl hne
  | cons c u ih =>
    rw [List.map_cons, List.cons_append, ofSwept]
    cases u with
    | cons d u => rw [ih (List.cons_ne_nil d u)]
    | nil =>
      rw [List.map_nil, List.nil_append]
      cases hparts : ofSwept parts with
      | nil => rfl
      | cons fragment more =>
        cases fragment with
        | cut kind content => rfl
        | uncut text => simp [hparts, isUncut] at hnext

-- What a sweep for tokens of one kind asks at every place.
def offer (tag : Tag) (c : Char) (rest : Text) : Option (Kind Selector × Nat) :=
  (tag.front? (c :: rest)).map fun (kind, width) => (kind, width - 1)

theorem cutOut_uncut (tag : Tag) (text : Text) : cutOut tag (uncut text) = ofSwept (text.sweep (offer tag)) := rfl

theorem sweep_offer_append_of_none {tag : Tag} {u rest : Text}
    (hnone : ∀ a b, u = a ++ b → b ≠ [] → tag.front? (b ++ rest) = none) :
    (u ++ rest).sweep (offer tag) = u.map .loose ++ rest.sweep (offer tag) := by
  induction u with
  | nil => rfl
  | cons c u ih =>
    have hc := hnone [] (c :: u) rfl (List.cons_ne_nil c u)
    rw [List.cons_append] at hc ⊢
    rw [sweep_cons_of_none (by simp [offer, hc]), ih fun a b hab => hnone (c :: a) b (by rw [hab]; rfl)]
    rfl

theorem sweep_offer_of_front? {tag : Tag} {kind : Kind Selector} {w rest : Text}
    (h : tag.front? (w ++ rest) = some (kind, w.length)) :
    (w ++ rest).sweep (offer tag) = .taken kind w :: rest.sweep (offer tag) := by
  obtain ⟨c, taken, rest', htext, hlength⟩ := Tag.exists_of_front?_cons h
  obtain ⟨rfl, rfl⟩ := List.append_inj htext hlength.symm
  rw [List.cons_append] at h ⊢
  have hoffer : offer tag c (taken ++ rest) = some (kind, taken.length) := by simp [offer, h]
  rw [sweep_cons_of_some hoffer, List.take_left, List.drop_left]

-- Cutting determines the fragments,
theorem Cutting.cutOut_eq {tag : Tag} {text : Text} {fragments : List Fragment}
    (h : Cutting tag text fragments) : cutOut tag (.uncut text) = fragments := by
  rw [cutOut_uncut]
  induction h with
  | nil => rfl
  | cut hfront _ ih => rw [sweep_offer_of_front? hfront, ofSwept, ih]
  | uncut hne hnone hnext _ ih =>
    rw [sweep_offer_append_of_none hnone, ofSwept_map_loose hne (by rwa [ih]), ih]

-- A character at which no token is found joins the stretch after it.
theorem Cutting.cons {tag : Tag} {c : Char} {rest : Text} {parts : List (Swept (Kind Selector))}
    (h : Cutting tag rest (ofSwept parts)) (hfront : tag.front? (c :: rest) = none) :
    Cutting tag (c :: rest) (ofSwept (.loose c :: parts)) := by
  rw [ofSwept]
  split
  case h_1 u more hparts =>
    rw [hparts] at h
    cases h with
    | uncut hne hnone hnext htail =>
      refine .uncut (List.cons_ne_nil c u) (fun a b hab hb => ?_) hnext htail
      cases a with
      | nil =>
        rw [List.nil_append] at hab
        exact hab ▸ hfront
      | cons d a => exact hnone a b (List.cons.inj hab).2 hb
  case h_2 hnot =>
    refine .uncut (List.cons_ne_nil c []) (fun a b hab hb => ?_) ?_ h
    · cases a with
      | nil =>
        rw [List.nil_append] at hab
        exact hab ▸ hfront
      | cons d a => exact absurd (List.append_eq_nil_iff.mp (List.cons.inj hab).2.symm).2 hb
    · intro fragment hfragment
      cases fragment with
      | cut => rfl
      | uncut u =>
        obtain ⟨more, hmore⟩ := List.head?_eq_some_iff.mp hfragment
        exact absurd hmore (hnot u more)

-- and every text is cut.
theorem cutting_cutOut (tag : Tag) (text : Text) : Cutting tag text (cutOut tag (uncut text)) := by
  rw [cutOut_uncut]
  induction text using sweep_induction (offer tag) with
  | nil => exact .nil
  | loose c rest hoffer ih =>
    rw [sweep_cons_of_none hoffer]
    exact ih.cons (by simpa [offer] using hoffer)
  | taken c rest kind more hoffer ih =>
    obtain ⟨⟨found, width⟩, hfront, hfound⟩ := Option.map_eq_some_iff.mp hoffer
    obtain ⟨rfl, hmore⟩ := Prod.mk.inj hfound
    obtain ⟨d, taken, rest', htext, rfl⟩ := Tag.exists_of_front?_cons hfront
    rw [List.cons_append] at htext
    obtain ⟨rfl, rfl⟩ := List.cons.inj htext
    obtain rfl : taken.length = more := hmore
    rw [List.drop_left] at ih
    rw [← List.cons_append] at hfront ⊢
    rw [sweep_offer_of_front? hfront]
    exact .cut hfront ih

end Fragment

end CssSelectors
