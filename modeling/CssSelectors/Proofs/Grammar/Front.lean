import CssSelectors.Grammar.Lemmas
import CssSelectors.Proofs.Grammar.Shapes
import CssSelectors.Proofs.Pattern.Spans

namespace CssSelectors

open Pattern Grammar

namespace Tag

theorem tag_of_kind? {tag : Tag} {read : Field → Option Text} {kind : Kind Selector}
    (h : tag.kind? read = some kind) : kind.tag = tag := by
  cases tag <;> simp only [kind?, Option.map_eq_some_iff, Option.some.injEq] at h
  case comma | combinator | universal => exact h ▸ rfl
  all_goals
    obtain ⟨_, _, rfl⟩ := h
    rfl

-- Every match notes a name, if its kind has one.
theorem kindAt?_isSome {tag : Tag} {argument : Pattern Field} {text : Text} {s reached : Cursor Field}
    (h : reached ∈ (pattern argument tag).outcomes s) : (tag.kindAt? text reached).isSome := by
  have hname : ∀ s, ∀ t ∈ name.outcomes s, Seen .name t := fun _ _ => seen_of_mem_field
  have hafter : ∀ {p q : Pattern Field} (s : Cursor Field), (∀ s, ∀ t ∈ p.outcomes s, Seen .name t) →
      ∀ t ∈ (p ++ q).outcomes s, Seen .name t := fun _ hp _ => seen_of_mem_append_left hp
  cases tag with
  | comma | combinator | universal => rfl
  | attr =>
    have hseen : Seen .name reached :=
      hafter s (fun s => hafter s (fun s => hafter s fun s t => seen_of_mem_append_right hname)) reached h
    simpa [kindAt?, kind?] using hseen.span?_isSome
  | id | className | typeName =>
    have hseen : Seen .name reached := seen_of_mem_append_right hname h
    simpa [kindAt?, kind?] using hseen.span?_isSome
  | pseudoElement | pseudoClass =>
    have hseen : Seen .name reached := hafter s (fun s t => seen_of_mem_append_right hname) reached h
    simpa [kindAt?, kind?] using hseen.span?_isSome

theorem front?_eq_some_iff {tag : Tag} {text : Text} {kind : Kind Selector} {width : Nat} :
    tag.front? text = some (kind, width) ↔
      ∃ reached, (pattern coveredArgument tag).front? text = some reached ∧
        tag.kindAt? text reached = some kind ∧ reached.offset = width := by
  rw [front?_eq]
  cases (pattern coveredArgument tag).front? text with
  | none => simp
  | some reached =>
    cases hkind : tag.kindAt? text reached with
    | none => simp [hkind]
    | some kind => simp [hkind]

theorem mem_outcomes_of_front? {p : Pattern Field} {text : Text} {reached : Cursor Field}
    (h : p.front? text = some reached) : reached ∈ p.outcomes (.start text) := by
  rw [front?_eq_head?] at h
  exact List.mem_of_head? h

-- A token is found at the front of a text wherever its pattern matches there.
theorem front?_isSome_iff {tag : Tag} {text : Text} :
    (tag.front? text).isSome ↔
      ∃ taken rest, text = taken ++ rest ∧ (pattern coveredArgument tag).Matches taken := by
  rw [← Pattern.front?_isSome_iff]
  constructor
  · intro h
    obtain ⟨⟨kind, width⟩, h⟩ := Option.isSome_iff_exists.mp h
    obtain ⟨reached, hreached, _⟩ := front?_eq_some_iff.mp h
    simp [hreached]
  · intro h
    obtain ⟨reached, hreached⟩ := Option.isSome_iff_exists.mp h
    have hsome : (tag.kindAt? text reached).isSome := kindAt?_isSome (mem_outcomes_of_front? hreached)
    obtain ⟨kind, hkind⟩ := Option.isSome_iff_exists.mp hsome
    simp [front?_eq_some_iff.mpr ⟨reached, hreached, hkind, rfl⟩]

-- What is found is a token of that kind, and its text has the kind's shape.
theorem exists_of_front? {tag : Tag} {text : Text} {kind : Kind Selector} {width : Nat}
    (h : tag.front? text = some (kind, width)) :
    ∃ taken rest, text = taken ++ rest ∧ taken.length = width ∧
      (pattern coveredArgument tag).Matches taken ∧ kind.tag = tag := by
  obtain ⟨reached, hreached, hkind, rfl⟩ := front?_eq_some_iff.mp h
  obtain ⟨taken, hrest, hoffset, hin⟩ := takesIn_of_mem_outcomes (mem_outcomes_of_front? hreached)
  exact ⟨taken, reached.rest, hrest, by simp [hoffset, Cursor.start], hin, tag_of_kind? hkind⟩

theorem tag_of_front? {tag : Tag} {text : Text} {kind : Kind Selector} {width : Nat}
    (h : tag.front? text = some (kind, width)) : kind.tag = tag := by
  obtain ⟨_, _, -, -, -, htag⟩ := exists_of_front? h
  exact htag

end Tag

end CssSelectors
