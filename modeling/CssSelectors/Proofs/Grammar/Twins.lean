import CssSelectors.Proofs.Grammar.Closings
import CssSelectors.Proofs.Grammar.Recapture
import CssSelectors.Proofs.Grammar.Tails
import CssSelectors.Proofs.Pattern.Whole

namespace CssSelectors

open Unicode Pattern Grammar Text

namespace Veils

variable {w r : Text}

-- What is in sight and encloses nothing is there,
theorem exists_seen {c : Char} (h : Veils Encloses (c :: w) r) (hcover : isCover c = false) (hencloses : ¬Encloses c) :
    ∃ r', r = c :: r' ∧ Veils Encloses w r' := by
  cases h with
  | seen _ h => exact ⟨_, rfl, h⟩
  | escape d _ => exact absurd hcover (by decide)
  | enclosed hopens => exact absurd hopens hencloses

-- and so is what stands right before an equals sign.
theorem exists_cons_equals {c : Char} (h : Veils Encloses (c :: '=' :: w) r) :
    ∃ r', r = c :: '=' :: r' ∧ Veils Encloses w r' := by
  generalize hmore : '=' :: w = more at h
  cases h with
  | seen _ h =>
    subst hmore
    obtain ⟨r', rfl, hafter⟩ := h.exists_seen (by decide) (by decide)
    exact ⟨r', rfl, hafter⟩
  | escape d _ => exact absurd (List.cons.inj hmore).1 (by decide)
  | @enclosed _ hidden _ _ _ hopens hhidden _ _ =>
    cases hidden with
    | nil =>
      have hcloser := hopens.closer_cases
      rw [← (List.cons.inj hmore).1] at hcloser
      exact absurd hcloser (by decide)
    | cons d hidden =>
      have hcover := hhidden d List.mem_cons_self
      rw [← (List.cons.inj hmore).1] at hcover
      exact absurd hcover (by decide)

end Veils

namespace Grammar

-- The same place in a masked text and in its source, before a flag has been seen.
structure Twin (source : Text) (s s' : Cursor Field) : Prop where
  offset_eq : s'.offset = s.offset
  spans_eq : s'.spans = s.spans
  rest_eq : s'.rest = source.drop s.offset
  veils : Veils Encloses s.rest s'.rest
  unescaped : s.rest.Unescaped
  unflagged : ∀ span, (.caseFlag, span) ∉ s.spans

-- What a source has to be like in the fields that a match in the masked text has found: no name
-- or value holds a line feed, and at the end of the value there stands neither an escaped blank
-- nor, where no flag follows, an escaped blank with a letter for one.
structure Kept (source : Text) (t : Cursor Field) : Prop where
  line : ∀ field ∈ [.ns, .name, .value], ∀ span, (field, span) ∈ t.spans → '\n' ∉ span.of source
  blank : ∀ span, (.value, span) ∈ t.spans → ∀ before b, span.of source = before ++ ['\\', b] → isBlank b = false
  flag : (∀ span, (.caseFlag, span) ∉ t.spans) → ∀ span, (.value, span) ∈ t.spans → ∀ before b c,
    span.of source = before ++ ['\\', b, c] → isBlank b = true → isFlag c = false

-- A pattern is finished with the same fields in the source as in the masked text.
def Agrees (source : Text) (p : Pattern Field) : Prop :=
  ∀ s s' t, Twin source s s' → p.finish? s = some t → Kept source t → ∃ t', p.finish? s' = some t' ∧ t'.spans = t.spans

variable {source : Text} {s s' t : Cursor Field}

namespace Twin

theorem skip {a x b y : Text} (h : Twin source s s') (hrest : s.rest = a ++ x) (hrest' : s'.rest = b ++ y)
    (hlength : b.length = a.length) (hveils : Veils Encloses x y) :
    Twin source (s.skip a.length) (s'.skip a.length) where
  offset_eq := by simp [h.offset_eq]
  spans_eq := h.spans_eq
  rest_eq := by simp [h.rest_eq, List.drop_drop]
  veils := by
    rw [Cursor.skip_rest, Cursor.skip_rest, hrest, hrest', List.drop_left, ← hlength, List.drop_left]
    exact hveils
  unescaped := by
    rw [Cursor.skip_rest, hrest, List.drop_left]
    exact Text.Unescaped.of_append_right (hrest ▸ h.unescaped)
  unflagged := h.unflagged

theorem note (h : Twin source s s') {label : Field} (hlabel : label ≠ .caseFlag) (opened : Nat) :
    Twin source (s.note label opened) (s'.note label opened) where
  offset_eq := h.offset_eq
  spans_eq := by simp [Cursor.note, h.spans_eq, h.offset_eq]
  rest_eq := h.rest_eq
  veils := h.veils
  unescaped := h.unescaped
  unflagged := by
    intro span hmem
    rcases List.mem_cons.mp hmem with heq | hmem
    · exact hlabel (congrArg Prod.fst heq).symm
    · exact h.unflagged span hmem

theorem of_span {a x : Text} (h : Twin source s s') (hrest : s'.rest = a ++ x) :
    Span.of ⟨s.offset, s.offset + a.length⟩ source = a := by
  rw [h.rest_eq] at hrest
  simp [Span.of, Text.slice, hrest]

theorem eq_of_rest_eq (h : Twin source s s') (hrest : s'.rest = s.rest) : s' = s :=
  Cursor.ext h.offset_eq hrest h.spans_eq

end Twin

-- Fields that have been seen stay seen.
theorem mem_spans_of_mem_outcomes {p : Pattern Field} {entry : Field × Span} (ht : t ∈ p.outcomes s)
    (h : entry ∈ s.spans) : entry ∈ t.spans := by
  obtain ⟨_, added, hspans, _⟩ := notes_of_mem_outcomes ht
  exact hspans ▸ List.mem_append_right _ h

-- The outcomes for blanks are twins one by one,
theorem Twin.forall₂_blanks (h : Twin source s s') : List.Forall₂ (Twin source) (blanks.outcomes s) (blanks.outcomes s') := by
  obtain ⟨before, w, r, hbefore, hw, hr, hwhead, hrhead, hmore⟩ := h.veils.exists_blanks
  rw [blanks, outcomes_many_greedy, outcomes_many_greedy, hw, hr, takeWhile_append_of_head? hbefore hwhead,
    takeWhile_append_of_head? hbefore hrhead, List.forall₂_reverse_iff, List.forall₂_map_left_iff,
    List.forall₂_map_right_iff, List.forall₂_same]
  intro k hk
  have hlength : (before.take k).length = k := List.length_take_of_le (by have := List.mem_range.mp hk; omega)
  have htwin := h.skip (a := before.take k) (b := before.take k) (x := before.drop k ++ w) (y := before.drop k ++ r)
    (by rw [← List.append_assoc, List.take_append_drop, hw]) (by rw [← List.append_assoc, List.take_append_drop, hr]) rfl
    (hmore.append_left _)
  rwa [hlength] at htwin

-- those for a character in sight,
theorem Twin.forall₂_char (h : Twin source s s') (accepts : Char → Bool) {c : Char} {x x' : Text} (hrest : s.rest = c :: x)
    (hrest' : s'.rest = c :: x') (hveils : Veils Encloses x x') :
    List.Forall₂ (Twin source) ((char accepts).outcomes s) ((char accepts).outcomes s') := by
  rw [outcomes_char_cons hrest, outcomes_char_cons hrest']
  cases accepts c with
  | true => exact .cons (h.skip (a := [c]) (b := [c]) hrest hrest' rfl hveils) .nil
  | false => exact .nil

-- for an equals sign
theorem Twin.forall₂_equals (h : Twin source s s') :
    List.Forall₂ (Twin source) ((lit '=').outcomes s) ((lit '=').outcomes s') := by
  have hnone : ∀ {s : Cursor Field}, (∀ x, s.rest ≠ '=' :: x) → (lit '=').outcomes s = [] := by
    intro s hs
    refine List.eq_nil_iff_forall_not_mem.mpr fun t ht => ?_
    exact hs _ (exists_of_mem_lit ht).1
  by_cases hequals : ∃ x, s.rest = '=' :: x
  · obtain ⟨x, hx⟩ := hequals
    obtain ⟨x', hx', hveils⟩ := (hx ▸ h.veils).exists_seen (by decide) (by decide)
    exact h.forall₂_char _ hx hx' hveils
  · have hequals' : ∀ x, s'.rest ≠ '=' :: x := by
      intro x hx
      obtain ⟨more, hmore, _⟩ := (hx ▸ h.veils).eq_seen (by decide) (by decide)
      exact hequals ⟨more, hmore⟩
    rw [hnone (not_exists.mp hequals), hnone hequals']
    exact .nil

theorem Twin.forall₂_flatMap {f g : Cursor Field → List (Cursor Field)} {places places' : List (Cursor Field)}
    (h : List.Forall₂ (Twin source) places places') (hfg : ∀ s s', Twin source s s' → List.Forall₂ (Twin source) (f s) (g s')) :
    List.Forall₂ (Twin source) (places.flatMap f) (places'.flatMap g) :=
  List.rel_flatMap h fun s s' hs => hfg s s' hs

-- and for an operator.
theorem Twin.forall₂_operator (h : Twin source s s') {u x : Text} (hrest : s.rest = u ++ x) (hu : operator.Matches u) :
    List.Forall₂ (Twin source) (operator.outcomes s) (operator.outcomes s') := by
  have hfirst : ∃ c x x', s.rest = c :: x ∧ s'.rest = c :: x' ∧ Veils Encloses x x' := by
    obtain ⟨sign, _, rfl, hsign, hequals⟩ := hu
    obtain rfl := matches_lit.mp hequals
    rcases matches_perhaps.mp hsign with ⟨c, _, rfl⟩ | rfl
    · obtain ⟨x', hx', hveils⟩ := (hrest ▸ h.veils).exists_cons_equals
      exact ⟨c, '=' :: x, '=' :: x', hrest, hx', .seen '=' hveils⟩
    · obtain ⟨x', hx', hveils⟩ := (hrest ▸ h.veils).exists_seen (by decide) (by decide)
      exact ⟨'=', x, x', hrest, hx', hveils⟩
  obtain ⟨c, x, x', hx, hx', hveils⟩ := hfirst
  have hsplit : ∀ s : Cursor Field, operator.outcomes s = (((char fun c => !isWord c).outcomes s).flatMap (lit '=').outcomes ++
      (lit '=').outcomes s).map (Cursor.note .operator s.offset) := by
    intro s
    change (((char fun c => !isWord c).outcomes s ++ [s]).flatMap (lit '=').outcomes).map _ = _
    rw [List.flatMap_append, List.flatMap_singleton]
  rw [hsplit, hsplit, List.forall₂_map_left_iff, List.forall₂_map_right_iff, h.offset_eq]
  have hplaces := List.rel_append (Twin.forall₂_flatMap (h.forall₂_char (fun c => !isWord c) hx hx' hveils)
    fun _ _ h => h.forall₂_equals) h.forall₂_equals
  exact hplaces.imp fun _ _ h => h.note (by decide) _

end Grammar

end CssSelectors
