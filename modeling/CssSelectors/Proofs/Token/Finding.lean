import CssSelectors.Proofs.Fragment.Missing
import CssSelectors.Proofs.Token.Tiling

namespace CssSelectors

namespace Tag

variable {tag : Tag} {text : Text} {found : Found} {offset : Nat}

-- Nothing is found in a text that has no token at the front of any of its ends.
theorem findFrom_eq_none_iff :
    tag.findFrom offset text = none ↔ ∀ a b, text = a ++ b → b ≠ [] → tag.front? b = none := by
  induction text generalizing offset with
  | nil =>
    simp only [findFrom, true_iff]
    intro a b hab hb
    exact absurd (List.append_eq_nil_iff.mp hab.symm).2 hb
  | cons c rest ih =>
    constructor
    · intro h a b hab hb
      rw [findFrom] at h
      cases hfront : tag.front? (c :: rest) with
      | some taken => rw [hfront] at h; cases h
      | none =>
        rw [hfront] at h
        cases a with
        | nil => rwa [← show c :: rest = b from hab]
        | cons d a => exact ih.mp h a b (List.cons.inj hab).2 hb
    · intro h
      rw [findFrom, h [] (c :: rest) rfl (List.cons_ne_nil c rest)]
      exact ih.mpr fun a b hab hb => h (c :: a) b (congrArg (c :: ·) hab) hb

-- What is found stands where no token begins sooner.
theorem exists_of_findFrom (h : tag.findFrom offset text = some found) :
    ∃ before w rest, text = before ++ (w ++ rest) ∧ w ≠ [] ∧
      found.span = ⟨offset + before.length, offset + before.length + w.length⟩ ∧
      tag.front? (w ++ rest) = some (found.kind, w.length) ∧
      ∀ a b, before = a ++ b → b ≠ [] → tag.front? (b ++ (w ++ rest)) = none := by
  induction text generalizing offset with
  | nil => cases h
  | cons c rest ih =>
    rw [findFrom] at h
    cases hfront : tag.front? (c :: rest) with
    | some taken =>
      obtain ⟨kind, width⟩ := taken
      rw [hfront] at h
      obtain rfl := Option.some.inj h
      obtain ⟨d, taken, rest', htext, rfl⟩ := exists_of_front?_cons hfront
      refine ⟨[], d :: taken, rest', htext, List.cons_ne_nil d taken, rfl, htext ▸ hfront, ?_⟩
      intro a b hab hb
      exact absurd (List.append_eq_nil_iff.mp hab.symm).2 hb
    | none =>
      rw [hfront] at h
      obtain ⟨before, w, rest', rfl, hw, hspan, hfound, hnone⟩ := ih h
      refine ⟨c :: before, w, rest', rfl, hw, ?_, hfound, ?_⟩
      · rw [hspan, List.length_cons, Nat.add_assoc, Nat.add_comm 1]
      · intro a b hab hb
        cases a with
        | nil => rwa [← show c :: before = b from hab]
        | cons d a => exact hnone a b (List.cons.inj hab).2 hb

-- It is one that none of its stretches matches.
theorem find?_eq_none_iff : tag.find? text = none ↔ tag.MissingFrom text :=
  findFrom_eq_none_iff.trans missingFrom_iff.symm

-- Before what is found, nothing is found in the text that ends there, either.
theorem find?_before_eq_none {before rest : Text}
    (h : ∀ a b, before = a ++ b → b ≠ [] → tag.front? (b ++ rest) = none) : tag.find? before = none :=
  find?_eq_none_iff.mpr (missingFrom_of_append h)

end Tag

-- Every token says what is read off its content, whether or not something of it was hidden.
theorem Token.read?_content_of_ofText {text : Text} {tokens : List Token} (h : ofText text = .ok tokens) {token : Token}
    (hmem : token ∈ tokens) : token.tag.read? token.content = some token.kind := by
  obtain ⟨ps, -, htokens⟩ := ofText_eq_ok_iff.mp h
  obtain ⟨p, -, start, htoken⟩ := Piece.exists_of_mem_tokensFrom? htokens hmem
  obtain ⟨kind, hread, rfl⟩ := Option.map_eq_some_iff.mp htoken
  have htag : kind.tag = p.tag := Tag.tag_of_read? hread
  exact (congrArg (·.read? p.content) htag).trans hread

-- A token that is found in a text takes something, is the first of its kind, and says the same when
-- it is read by itself, with its argument in plain sight. So does every token of a selector.
theorem Tag.read?_of_find? :
    (∀ (tag : Tag) (text : Text) (found : Found), tag.find? text = some found →
      found.span.start < found.span.stop ∧ found.span.stop ≤ text.length ∧
      tag.find? (text.take found.span.start) = none ∧ tag.read? (found.span.of text) = some found.kind) ∧
    ∀ (text : Text) (tokens : List Token), Token.ofText text = .ok tokens →
      ∀ token ∈ tokens, token.tag.read? token.content = some token.kind := by
  refine ⟨?_, fun text tokens h token hmem => Token.read?_content_of_ofText h hmem⟩
  intro tag text found h
  obtain ⟨before, w, rest, rfl, hw, hspan, hfront, hnone⟩ := exists_of_findFrom h
  have hlength : 0 < w.length := List.length_pos_iff.mpr hw
  have hof : found.span.of (before ++ (w ++ rest)) = w := by
    rw [hspan, Nat.zero_add, ← List.append_assoc]
    exact Span.of_append before w rest
  have hread : tag.read? (found.span.of (before ++ (w ++ rest))) = some found.kind := by
    rw [hof]
    exact read?_of_front? hfront
  simp only [hspan, Nat.zero_add, List.take_left, List.length_append] at hread ⊢
  exact ⟨by omega, by omega, find?_before_eq_none hnone, hread⟩

-- A pseudo-class with a hidden argument among other tokens, and an attribute with a hidden string.
theorem Tag.read?_of_find?_covered : ∃ found token,
    pseudoClass.find? "a:is(\ue002):b".toList = some found ∧ found.span = ⟨1, 7⟩ ∧
      pseudoClass.find? (List.take 1 "a:is(\ue002):b".toList) = none ∧
      pseudoClass.read? (found.span.of "a:is(\ue002):b".toList) = some found.kind ∧
    Token.ofText "[a=',']".toList = .ok [token] ∧ token.tag.read? token.content = some token.kind := by
  have hfind : ∃ found, pseudoClass.find? "a:is(\ue002):b".toList = some found ∧ found.span = ⟨1, 7⟩ := ⟨_, rfl, rfl⟩
  have htokens : ∃ token, Token.ofText "[a=',']".toList = .ok [token] := ⟨_, rfl⟩
  obtain ⟨found, hfound, hspan⟩ := hfind
  obtain ⟨token, htoken⟩ := htokens
  obtain ⟨-, -, hbefore, hread⟩ := read?_of_find?.1 _ _ found hfound
  rw [hspan] at hbefore
  exact ⟨found, token, hfound, hspan, hbefore, hread, htoken, read?_of_find?.2 _ _ htoken token List.mem_cons_self⟩

end CssSelectors
