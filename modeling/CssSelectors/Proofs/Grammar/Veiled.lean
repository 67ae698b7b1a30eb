import CssSelectors.Proofs.Grammar.Ends
import CssSelectors.Proofs.Masking.Veils

namespace CssSelectors

open Unicode Pattern Grammar Text

namespace Grammar

-- The units of names, with escaped line feeds.
def IsUnit (unit : Text) : Prop := (∃ c, isNameChar c = true ∧ unit = [c]) ∨ ∃ c, unit = ['\\', c]

theorem isUnit_of_matches {unit : Text} (h : nameUnit.Matches unit) : IsUnit unit := by
  rcases h with hchar | ⟨_, _, rfl, hslash, c, _, rfl⟩
  · exact .inl hchar
  · obtain rfl := matches_lit.mp hslash
    exact .inr ⟨c, rfl⟩

theorem matches_of_isUnit {unit : Text} (h : IsUnit unit) (hline : '\n' ∉ unit) : nameUnit.Matches unit := by
  rcases h with ⟨c, hc, rfl⟩ | ⟨c, rfl⟩
  · exact .inl ⟨c, hc, rfl⟩
  · refine .inr ⟨['\\'], [c], rfl, matches_lit.mpr rfl, c, ?_, rfl⟩
    simp only [bne_iff_ne, ne_eq]
    rintro rfl
    simp at hline

theorem not_encloses_of_isNameChar {c : Char} (h : isNameChar c = true) : ¬Encloses c :=
  not_encloses_of_forall (by decide) h

theorem not_encloses_of_isBlank {c : Char} (h : isBlank c = true) : ¬Encloses c :=
  not_encloses_of_forall (by decide) h

end Grammar

namespace Veils

variable {w r z : Text}

-- The source of a whole run of name characters falls into units.
theorem exists_units {run : Text} (h : Veils Encloses (run ++ z) r) (hrun : IsRun run)
    (hz : ∀ c ∈ z.head?, isNameChar c = false) :
    ∃ units r', r = List.flatten units ++ r' ∧ units.flatten.length = run.length ∧ (∀ unit ∈ units, Grammar.IsUnit unit) ∧
      Veils Encloses z r' := by
  generalize hn : run.length = n
  induction n using Nat.strongRecOn generalizing run r with
  | ind n ih =>
    cases run with
    | nil => exact ⟨[], r, rfl, hn, by simp, h⟩
    | cons d run =>
      obtain ⟨hd, hmore⟩ := List.forall_mem_cons.mp hrun
      rw [List.length_cons] at hn
      rw [List.cons_append] at h
      generalize htext : run ++ z = text at h
      cases h with
      | seen _ h =>
        subst htext
        obtain ⟨units, r', rfl, hlength, hunits, hveils⟩ := ih run.length (by omega) h hmore rfl
        refine ⟨[d] :: units, r', rfl, ?_, List.forall_mem_cons.mpr ⟨.inl ⟨d, hd, rfl⟩, hunits⟩, hveils⟩
        rw [← hn, List.flatten_cons, List.length_append, hlength, Nat.add_comm]
        rfl
      | escape c h =>
        -- The second cover of the escape belongs to the run, too, since the run is whole.
        cases run with
        | nil =>
          obtain rfl : z = _ := htext
          have hcover := hz Cover.escape.char rfl
          rw [isNameChar_of_isCover (isCover_char .escape)] at hcover
          cases hcover
        | cons e run =>
          obtain ⟨rfl, rfl⟩ := List.cons.inj htext
          obtain ⟨_, hafter⟩ := List.forall_mem_cons.mp hmore
          rw [List.length_cons] at hn
          obtain ⟨units, r', rfl, hlength, hunits, hveils⟩ := ih run.length (by omega) h hafter rfl
          refine ⟨['\\', c] :: units, r', rfl, ?_, List.forall_mem_cons.mpr ⟨.inr ⟨c, rfl⟩, hunits⟩, hveils⟩
          rw [← hn, List.flatten_cons, List.length_append, hlength, Nat.add_comm]
          rfl
      | enclosed hopens => exact absurd hopens (not_encloses_of_isNameChar hd)

-- A backslash in sight is the last character.
theorem eq_escape {c : Char} (h : Veils Encloses w ('\\' :: c :: r)) (hun : w.Unescaped) :
    ∃ more, w = Cover.escape.char :: Cover.escape.char :: more ∧ Veils Encloses more r := by
  generalize hsource : '\\' :: c :: r = source at h
  cases h with
  | nil => cases hsource
  | seen d h =>
    obtain ⟨rfl, rfl⟩ := List.cons.inj hsource
    cases hun.eq_nil_of_backslash
    cases h
  | escape d h =>
    obtain ⟨_, hsource⟩ := List.cons.inj hsource
    obtain ⟨_, rfl⟩ := List.cons.inj hsource
    exact ⟨_, rfl, h⟩
  | enclosed hopens _ _ h =>
    obtain ⟨rfl, _⟩ := List.cons.inj hsource
    rcases hopens with hquote | hparen
    · simp [isQuote] at hquote
    · simp at hparen

-- Any other character is in sight, if it encloses nothing.
theorem eq_seen {c : Char} (h : Veils Encloses w (c :: r)) (hc : c ≠ '\\') (hencloses : ¬Encloses c) :
    ∃ more, w = c :: more ∧ Veils Encloses more r := by
  generalize hsource : c :: r = source at h
  cases h with
  | nil => cases hsource
  | seen d h =>
    obtain ⟨rfl, rfl⟩ := List.cons.inj hsource
    exact ⟨_, rfl, h⟩
  | escape d h => exact absurd (List.cons.inj hsource).1 hc
  | enclosed hopens =>
    obtain ⟨rfl, _⟩ := List.cons.inj hsource
    exact absurd hopens hencloses

theorem exists_cons {c : Char} (h : Veils Encloses w (c :: r)) (hc : c ≠ '\\') : ∃ more, w = c :: more := by
  generalize hsource : c :: r = source at h
  cases h with
  | nil => cases hsource
  | seen d h => exact ⟨_, by rw [(List.cons.inj hsource).1]⟩
  | escape d h => exact absurd (List.cons.inj hsource).1 hc
  | enclosed hopens => exact ⟨_, by rw [(List.cons.inj hsource).1]⟩

-- Over units there is a run of name characters.
theorem exists_run {units : List Text} (h : Veils Encloses w (units.flatten ++ r)) (hun : w.Unescaped)
    (hunits : ∀ unit ∈ units, nameUnit.Matches unit) :
    ∃ run more, w = run ++ more ∧ IsRun run ∧ run.length = units.flatten.length ∧ Veils Encloses more r := by
  induction units generalizing w with
  | nil => exact ⟨[], w, rfl, by simp [IsRun], rfl, h⟩
  | cons unit units ih =>
    obtain ⟨hunit, hmore⟩ := List.forall_mem_cons.mp hunits
    rcases isUnit_of_matches hunit with ⟨c, hc, rfl⟩ | ⟨c, rfl⟩
    · have hslash : c ≠ '\\' := by
        rintro rfl
        simp [isNameChar] at hc
      obtain ⟨w, rfl, hw⟩ := h.eq_seen hslash (not_encloses_of_isNameChar hc)
      obtain ⟨run, rest, rfl, hrun, hlength, hrest⟩ := ih hw hun.of_cons hmore
      exact ⟨c :: run, rest, rfl, List.forall_mem_cons.mpr ⟨hc, hrun⟩, by simp [hlength], hrest⟩
    · obtain ⟨w, rfl, hw⟩ := h.eq_escape hun
      obtain ⟨run, rest, rfl, hrun, hlength, hrest⟩ := ih hw hun.of_cons.of_cons hmore
      have hcover := isNameChar_of_isCover (isCover_char .escape)
      refine ⟨Cover.escape.char :: Cover.escape.char :: run, rest, rfl, ?_, by simp [hlength], hrest⟩
      exact List.forall_mem_cons.mpr ⟨hcover, List.forall_mem_cons.mpr ⟨hcover, hrun⟩⟩

-- A source of which nothing could be hidden is all in sight.
theorem eq_of_plain (h : Veils Encloses w r) (hplain : ∀ c ∈ r, c ≠ '\\' ∧ ¬Encloses c) : w = r := by
  induction h with
  | nil => rfl
  | seen c _ ih => rw [ih fun d hd => hplain d (List.mem_cons_of_mem c hd)]
  | escape d => exact absurd rfl (hplain '\\' List.mem_cons_self).1
  | enclosed hopens => exact absurd hopens (hplain _ List.mem_cons_self).2

-- At its end such a source is in sight but for its first character, which may be an escaped one.
theorem eq_suffix_of_plain {a y : Text} (h : Veils Encloses w (a ++ y))
    (hplain : ∀ c ∈ y, c ≠ '\\' ∧ ¬Encloses c ∧ c ≠ ')') :
    ∃ b x, w = b ++ x ∧ b.length = a.length ∧
      (x = y ∨ ∃ a' d z, a = a' ++ ['\\'] ∧ y = d :: z ∧ x = Cover.escape.char :: z) := by
  have hall : ∀ {w z : Text}, Veils Encloses w z → (∀ c ∈ z, c ∈ y) → w = z := fun h hz =>
    h.eq_of_plain fun c hc => ⟨(hplain c (hz c hc)).1, (hplain c (hz c hc)).2.1⟩
  generalize hr : a ++ y = r at h
  induction h generalizing a with
  | nil =>
    obtain ⟨rfl, rfl⟩ := List.append_eq_nil_iff.mp hr
    exact ⟨[], [], rfl, rfl, .inl rfl⟩
  | @seen c w r more ih =>
    cases a with
    | nil =>
      obtain rfl : y = c :: r := hr
      exact ⟨[], c :: w, rfl, rfl, .inl (by rw [hall more fun d hd => List.mem_cons_of_mem c hd])⟩
    | cons d a =>
      obtain ⟨rfl, hmore⟩ := List.cons.inj hr
      obtain ⟨b, x, rfl, hlength, hx⟩ := ih hmore
      refine ⟨d :: b, x, rfl, by simp [hlength], hx.imp_right ?_⟩
      rintro ⟨a', e, z, rfl, hy, hx⟩
      exact ⟨d :: a', e, z, rfl, hy, hx⟩
  | @escape d w r more ih =>
    match a with
    | [] =>
      obtain rfl : y = '\\' :: d :: r := hr
      exact absurd rfl (hplain '\\' List.mem_cons_self).1
    | [e] =>
      obtain ⟨rfl, rfl⟩ := List.cons.inj hr
      refine ⟨[Cover.escape.char], Cover.escape.char :: w, rfl, rfl, .inr ⟨[], d, r, rfl, rfl, ?_⟩⟩
      rw [hall more fun e he => List.mem_cons_of_mem d he]
    | e :: f :: a =>
      obtain ⟨rfl, hpair⟩ := List.cons.inj hr
      obtain ⟨rfl, hrest⟩ := List.cons.inj hpair
      obtain ⟨b, x, rfl, hlength, hx⟩ := ih hrest
      refine ⟨Cover.escape.char :: Cover.escape.char :: b, x, rfl, by simp [hlength], hx.imp_right ?_⟩
      rintro ⟨a', e, z, rfl, hy, hx⟩
      exact ⟨'\\' :: f :: a', e, z, rfl, hy, hx⟩
  | @enclosed opening hidden body w r hopens hhidden hlength more ih =>
    -- What is enclosed has its closer after it, so it comes before such an end.
    have hcloser : ∀ z : Text, y ≠ z ++ closer opening :: r := by
      rintro z rfl
      obtain ⟨_, hnot, hparen⟩ := hplain (closer opening) (by simp)
      exact hopens.closer_cases.elim hnot hparen
    cases a with
    | nil => exact absurd hr (hcloser (opening :: body))
    | cons d a =>
      obtain ⟨rfl, hmore⟩ := List.cons.inj hr
      rcases List.append_eq_append_iff.mp hmore with ⟨z, rfl, hz⟩ | ⟨z, rfl, hz⟩
      · exact absurd hz (hcloser z)
      · cases z with
        | nil => exact absurd hz.symm (hcloser [])
        | cons e z =>
          obtain ⟨rfl, hrest⟩ := List.cons.inj hz
          obtain ⟨b, x, rfl, hlength', hx⟩ := ih hrest.symm
          refine ⟨d :: (hidden ++ closer d :: b), x, by simp, by simp [hlength, hlength'], hx.imp_right ?_⟩
          rintro ⟨a', f, y', rfl, hy, hx⟩
          exact ⟨d :: (body ++ closer d :: a'), f, y', by simp, hy, hx⟩

-- Blanks are taken from both alike.
theorem exists_blanks (h : Veils Encloses w r) : ∃ before w' r', IsBlank before ∧ w = before ++ w' ∧ r = before ++ r' ∧
    (∀ c ∈ w'.head?, isBlank c = false) ∧ (∀ c ∈ r'.head?, isBlank c = false) ∧ Veils Encloses w' r' := by
  induction h with
  | nil => exact ⟨[], [], [], by simp [IsBlank], rfl, rfl, by simp, by simp, .nil⟩
  | @seen c w r more ih =>
    cases hc : isBlank c with
    | true =>
      obtain ⟨before, w', r', hbefore, rfl, rfl, hw, hr, hmore⟩ := ih
      exact ⟨c :: before, w', r', List.forall_mem_cons.mpr ⟨hc, hbefore⟩, rfl, rfl, hw, hr, hmore⟩
    | false => exact ⟨[], _, _, by simp [IsBlank], rfl, rfl, by simpa using hc, by simpa using hc, .seen c more⟩
  | @escape d w r more ih =>
    exact ⟨[], _, _, by simp [IsBlank], rfl, rfl, by simp [Cover.char]; decide, by simp; decide, .escape d more⟩
  | @enclosed opening hidden body w r hopens hhidden hlength more ih =>
    have hopening : isBlank opening = false := by
      rw [Bool.eq_false_iff]
      exact fun hblank => not_encloses_of_isBlank hblank hopens
    exact ⟨[], _, _, by simp [IsBlank], rfl, rfl, by simpa using hopening, by simpa using hopening,
      .enclosed hopens hhidden hlength more⟩

end Veils

end CssSelectors
