import CssSelectors.Grammar.Basic
import CssSelectors.Proofs.Pattern.Greedy
import CssSelectors.Proofs.Pattern.Language
import CssSelectors.Proofs.Text.Unescaped

namespace CssSelectors

open Unicode Pattern

namespace Pattern

variable {ι : Type}

@[simp] theorem matches_append {p q : Pattern ι} {text : Text} :
    (p ++ q).Matches text ↔ ∃ u v, text = u ++ v ∧ p.Matches u ∧ q.Matches v := Iff.rfl

@[simp] theorem matches_orElse {p q : Pattern ι} {text : Text} :
    (p <|> q).Matches text ↔ p.Matches text ∨ q.Matches text := Iff.rfl

@[simp] theorem matches_char {accepts : Char → Bool} {text : Text} :
    (char accepts : Pattern ι).Matches text ↔ ∃ c, accepts c = true ∧ text = [c] := Iff.rfl

@[simp] theorem matches_lit {c : Char} {text : Text} : (lit c : Pattern ι).Matches text ↔ text = [c] := by
  simp [lit]

@[simp] theorem matches_field {label : ι} {body : Pattern ι} {text : Text} :
    (field label body).Matches text ↔ body.Matches text := Iff.rfl

@[simp] theorem matches_perhaps {body : Pattern ι} {text : Text} :
    (perhaps body).Matches text ↔ body.Matches text ∨ text = [] := Iff.rfl

theorem matches_many_char {appetite : Appetite} {accepts : Char → Bool} {text : Text} :
    (many appetite (char accepts) : Pattern ι).Matches text ↔ ∀ c ∈ text, accepts c = true := by
  constructor
  · rintro ⟨parts, rfl, hparts⟩ c hc
    obtain ⟨part, hpart, hc⟩ := List.mem_flatten.mp hc
    obtain ⟨d, hd, rfl⟩ := hparts part hpart
    exact List.mem_singleton.mp hc ▸ hd
  · intro h
    refine ⟨text.map fun c => [c], by simp [← List.flatMap_def], ?_⟩
    intro part hpart
    obtain ⟨c, hc, rfl⟩ := List.mem_map.mp hpart
    exact ⟨c, h c hc, rfl⟩

theorem matches_oneOrMore_char {appetite : Appetite} {accepts : Char → Bool} {text : Text} :
    (oneOrMore appetite (char accepts) : Pattern ι).Matches text ↔
      text ≠ [] ∧ ∀ c ∈ text, accepts c = true := by
  change (∃ u v, text = u ++ v ∧ (char accepts).Matches u ∧ (many appetite (char accepts)).Matches v) ↔ _
  simp only [matches_many_char, matches_char]
  constructor
  · rintro ⟨u, v, rfl, ⟨c, hc, rfl⟩, hv⟩
    simp [hc]
    exact hv
  · rintro ⟨hne, hall⟩
    obtain ⟨c, rest, rfl⟩ := List.exists_cons_of_ne_nil hne
    exact ⟨[c], rest, rfl, ⟨c, hall c List.mem_cons_self, rfl⟩,
      fun d hd => hall d (List.mem_cons_of_mem c hd)⟩

end Pattern

namespace Grammar

-- Where no escape is in sight, a name is read character by character.
theorem outcomes_nameUnit {s : Cursor Field} (h : s.rest.Unescaped) :
    nameUnit.outcomes s = (char isNameChar).outcomes s := by
  have hescape : (lit '\\' ++ char (· != '\n') : Pattern Field).outcomes s = [] := by
    rw [outcomes_append]
    cases hrest : s.rest with
    | nil => simp [lit, outcomes_char_nil hrest]
    | cons c rest =>
      by_cases hc : c = '\\'
      · subst hc
        rw [hrest] at h
        have hnil : (s.skip 1).rest = [] := by simp [hrest, h.eq_nil_of_backslash]
        simp [lit, outcomes_char_cons hrest, outcomes_char_nil hnil]
      · simp [lit, outcomes_char_cons hrest, hc]
  rw [nameUnit, outcomes_orElse, hescape, List.append_nil]

theorem outcomes_many_nameUnit (appetite : Appetite) {s : Cursor Field} (h : s.rest.Unescaped) :
    (many appetite nameUnit).outcomes s = (many appetite (char isNameChar)).outcomes s :=
  outcomes_many_congr (fun _ _ => Text.Unescaped.of_append_right) (fun _ => outcomes_nameUnit) appetite h

theorem outcomes_oneOrMore_nameUnit {s : Cursor Field} (h : s.rest.Unescaped) :
    (oneOrMore .greedy nameUnit).outcomes s = (oneOrMore .greedy (char isNameChar)).outcomes s := by
  change (nameUnit.outcomes s).flatMap _ = ((char isNameChar).outcomes s).flatMap _
  rw [outcomes_nameUnit h]
  apply List.flatMap_congr
  intro t ht
  obtain ⟨taken, hrest, _⟩ := takes_of_mem_outcomes ht
  exact outcomes_many_nameUnit .greedy (Text.Unescaped.of_append_right (hrest ▸ h))

-- The preferred name is the whole run of name characters.
theorem head?_outcomes_name {s : Cursor Field} (h : s.rest.Unescaped) :
    (name.outcomes s).head? =
      if s.rest.takeWhile isNameChar = [] then none
      else some ((s.skip (s.rest.takeWhile isNameChar).length).note .name s.offset) := by
  rw [name, outcomes, List.head?_map, outcomes_oneOrMore_nameUnit h, head?_outcomes_oneOrMore_greedy]
  split <;> rfl

theorem matches_nameUnit {text : Text} (h : text.Unescaped) :
    nameUnit.Matches text ↔ (char isNameChar : Pattern Field).Matches text := by
  constructor
  · rintro (hchar | ⟨u, v, rfl, hu, c, _, rfl⟩)
    · exact hchar
    · obtain rfl := matches_lit.mp hu
      have hnil : [c] = [] := h.eq_nil_of_backslash
      simp at hnil
  · exact .inl

theorem matches_many_nameUnit {appetite : Appetite} {text : Text} (h : text.Unescaped) :
    (many appetite nameUnit).Matches text ↔ ∀ c ∈ text, isNameChar c = true := by
  rw [← @matches_many_char Field appetite]
  constructor
  all_goals
    rintro ⟨parts, rfl, hparts⟩
    refine ⟨parts, rfl, fun part hpart => ?_⟩
    obtain ⟨before, after, rfl⟩ := List.append_of_mem hpart
    rw [List.flatten_append, List.flatten_cons] at h
    have hun : part.Unescaped := h.of_append_right.of_append_left
  · exact (matches_nameUnit hun).mp (hparts part hpart)
  · exact (matches_nameUnit hun).mpr (hparts part hpart)

theorem matches_name {text : Text} (h : text.Unescaped) :
    name.Matches text ↔ text ≠ [] ∧ ∀ c ∈ text, isNameChar c = true := by
  rw [← @matches_oneOrMore_char Field .greedy]
  constructor
  · rintro ⟨u, v, rfl, hu, hv⟩
    exact ⟨u, v, rfl, (matches_nameUnit h.of_append_left).mp hu,
      matches_many_char.mpr ((matches_many_nameUnit h.of_append_right).mp hv)⟩
  · rintro ⟨u, v, rfl, hu, hv⟩
    exact ⟨u, v, rfl, (matches_nameUnit h.of_append_left).mpr hu,
      (matches_many_nameUnit h.of_append_right).mpr (matches_many_char.mp hv)⟩

-- A unit of a name is taken wherever it stands, and nothing else is.
theorem outcomes_nameUnit_of_matches {s : Cursor Field} {unit rest : Text} (hunit : nameUnit.Matches unit)
    (hrest : s.rest = unit ++ rest) : nameUnit.outcomes s = [s.skip unit.length] := by
  rcases hunit with ⟨c, hc, rfl⟩ | ⟨_, _, rfl, hslash, c, hc, rfl⟩
  · have hother : c ≠ '\\' := by
      rintro rfl
      simp [isNameChar] at hc
    simp [nameUnit, lit, outcomes_char_cons hrest, hc, hother]
  · obtain rfl := matches_lit.mp hslash
    have hnot : isNameChar '\\' = false := by decide
    have hnext : (s.skip 1).rest = c :: rest := by simp [hrest]
    simp [nameUnit, lit, outcomes_char_cons hrest, outcomes_char_cons hnext, hnot, hc]

-- No unit of a name begins with a character that is neither one of names nor a backslash.
theorem not_matches_nameUnit {c : Char} (hname : isNameChar c = false) (hslash : c ≠ '\\') {rest u v : Text}
    (h : c :: rest = u ++ v) : ¬nameUnit.Matches u := by
  rintro (⟨d, hd, rfl⟩ | ⟨_, _, rfl, hback, _⟩)
  · obtain ⟨rfl, _⟩ := List.cons.inj h
    simp [hname] at hd
  · obtain rfl := matches_lit.mp hback
    exact hslash (List.cons.inj h).1

theorem not_matches_nameUnit_nil : ¬nameUnit.Matches [] := by
  rintro (⟨_, _, h⟩ | ⟨_, _, h, hslash, _⟩)
  · simp at h
  · simp [matches_lit.mp hslash] at h

-- The preferred name is as long as there are units.
theorem head?_outcomes_many_nameUnit {units : List Text} {rest : Text} (hunits : ∀ unit ∈ units, nameUnit.Matches unit)
    (hstop : ∀ u v, rest = u ++ v → ¬nameUnit.Matches u) {s : Cursor Field} (hrest : s.rest = units.flatten ++ rest) :
    ((many .greedy nameUnit).outcomes s).head? = some (s.skip units.flatten.length) := by
  have hall : ∀ n (s : Cursor Field), s.rest = units.flatten ++ rest → s.rest.length ≤ n →
      (iterations .greedy nameUnit.outcomes n s).head? = some (s.skip units.flatten.length) := by
    clear hrest
    induction units with
    | nil =>
      intro n s hrest _
      have hnone : nameUnit.outcomes s = [] := by
        refine List.eq_nil_iff_forall_not_mem.mpr fun t ht => ?_
        obtain ⟨taken, htaken, _, hmatches⟩ := takesIn_of_mem_outcomes ht
        exact hstop taken t.rest (by rw [← htaken, hrest]; rfl) hmatches
      cases n <;> simp [iterations, hnone]
    | cons unit units ih =>
      obtain ⟨hunit, hunits⟩ := List.forall_mem_cons.mp hunits
      intro n s hrest hn
      rw [List.flatten_cons, List.append_assoc] at hrest
      have hpos : 0 < unit.length := by
        rcases hunit with ⟨c, _, rfl⟩ | ⟨u, v, rfl, _, c, _, rfl⟩ <;> simp
      obtain ⟨n, rfl⟩ : ∃ m, n = m + 1 := ⟨n - 1, by simp [hrest] at hn; omega⟩
      have hmore := ih hunits n (s.skip unit.length) (by simp [hrest]) (by simp [hrest] at hn ⊢; omega)
      simp [iterations, outcomes_nameUnit_of_matches hunit hrest, hpos, List.head?_append, hmore]
  exact hall _ s hrest (Nat.le_refl _)

theorem head?_outcomes_name_of_units {units : List Text} {rest : Text} (hne : units ≠ [])
    (hunits : ∀ unit ∈ units, nameUnit.Matches unit) (hstop : ∀ u v, rest = u ++ v → ¬nameUnit.Matches u)
    {s : Cursor Field} (hrest : s.rest = units.flatten ++ rest) :
    (name.outcomes s).head? = some ((s.skip units.flatten.length).note .name s.offset) := by
  obtain ⟨unit, units, rfl⟩ := List.exists_cons_of_ne_nil hne
  obtain ⟨hunit, hunits⟩ := List.forall_mem_cons.mp hunits
  rw [List.flatten_cons, List.append_assoc] at hrest
  have hmany := head?_outcomes_many_nameUnit hunits hstop (s := s.skip unit.length) (by simp [hrest])
  have hbody : ((oneOrMore .greedy nameUnit).outcomes s).head? = some (s.skip (unit :: units).flatten.length) := by
    change ((nameUnit.outcomes s).flatMap _).head? = _
    simp [outcomes_nameUnit_of_matches hunit hrest, hmany]
  rw [name, outcomes, List.head?_map, hbody]
  rfl

theorem head?_outcomes_name_of_matches {n rest : Text} (hn : name.Matches n)
    (hstop : ∀ u v, rest = u ++ v → ¬nameUnit.Matches u) {s : Cursor Field} (hrest : s.rest = n ++ rest) :
    (name.outcomes s).head? = some ((s.skip n.length).note .name s.offset) := by
  obtain ⟨unit, _, rfl, hunit, units, rfl, hunits⟩ := hn
  exact head?_outcomes_name_of_units (List.cons_ne_nil unit units) (List.forall_mem_cons.mpr ⟨hunit, hunits⟩) hstop hrest

end Grammar

end CssSelectors
