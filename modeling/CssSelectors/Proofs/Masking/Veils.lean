import CssSelectors.Proofs.Masking.Visible

namespace CssSelectors

open Masked

-- The character that ends what some character begins.
def closer (opening : Char) : Char := if opening = '(' then ')' else opening

theorem closer_of_isQuote {c : Char} (h : isQuote c = true) : closer c = c :=
  if_neg (ne_of_isQuote h).2.2.1

-- How a masked text lies over its source: most characters are in sight, two covers stand for an
-- escape, and covers stand for all that is enclosed by one of the given characters and its closer.
inductive Veils (opens : Char → Prop) : Text → Text → Prop
  | nil : Veils opens [] []
  | seen (c : Char) {w r : Text} (more : Veils opens w r) : Veils opens (c :: w) (c :: r)
  | escape (d : Char) {w r : Text} (more : Veils opens w r) :
      Veils opens (Cover.escape.char :: Cover.escape.char :: w) ('\\' :: d :: r)
  | enclosed {opening : Char} {hidden body w r : Text} (hopens : opens opening)
      (hhidden : ∀ c ∈ hidden, isCover c = true) (hlength : hidden.length = body.length) (more : Veils opens w r) :
      Veils opens (opening :: (hidden ++ closer opening :: w)) (opening :: (body ++ closer opening :: r))

namespace Veils

variable {opens takes : Char → Prop} {w r : Text}

theorem mono {opens' : Char → Prop} (h : Veils opens w r) (hopens : ∀ c, opens c → opens' c) : Veils opens' w r := by
  induction h with
  | nil => exact .nil
  | seen c _ ih => exact .seen c ih
  | escape d _ ih => exact .escape d ih
  | enclosed ho hhidden hlength _ ih => exact .enclosed (hopens _ ho) hhidden hlength ih

theorem append_left (u : Text) (h : Veils opens w r) : Veils opens (u ++ w) (u ++ r) := by
  induction u with
  | nil => exact h
  | cons c u ih => exact .seen c ih

theorem refl (w : Text) : Veils opens w w := by
  induction w with
  | nil => exact .nil
  | cons c w ih => exact .seen c ih

theorem length_eq (h : Veils opens w r) : w.length = r.length := by
  induction h with
  | nil => rfl
  | seen c _ ih => simp [ih]
  | escape d _ ih => simp [ih]
  | enclosed _ _ hlength _ ih => simp [ih, hlength]

-- The relation holds on both sides of a character in sight that encloses nothing.
theorem exists_split {u v : Text} {c : Char} (h : Veils opens (u ++ c :: v) r) (hcover : isCover c = false)
    (hc : ∀ o, opens o → c ≠ o ∧ c ≠ closer o) :
    ∃ a b, r = a ++ c :: b ∧ u.length = a.length ∧ Veils opens v b := by
  generalize htext : u ++ c :: v = w at h
  induction h generalizing u with
  | nil => simp at htext
  | @seen d w r more ih =>
    cases u with
    | nil =>
      obtain ⟨rfl, rfl⟩ := List.cons.inj htext
      exact ⟨[], r, rfl, rfl, more⟩
    | cons x u =>
      obtain ⟨rfl, hmore⟩ := List.cons.inj htext
      obtain ⟨a, b, rfl, hlength, hb⟩ := ih hmore
      exact ⟨x :: a, b, rfl, by simp [hlength], hb⟩
  | @escape d w r more ih =>
    have hnot : c ≠ Cover.escape.char := by
      rintro rfl
      simp [isCover_char] at hcover
    cases u with
    | nil => exact absurd (List.cons.inj htext).1 hnot
    | cons x u =>
      cases u with
      | nil => exact absurd (List.cons.inj (List.cons.inj htext).2).1 hnot
      | cons y u =>
        obtain ⟨a, b, rfl, hlength, hb⟩ := ih (List.cons.inj (List.cons.inj htext).2).2
        exact ⟨'\\' :: d :: a, b, rfl, by simp [hlength], hb⟩
  | @enclosed opening hidden body w r hopens hhidden hlength more ih =>
    obtain ⟨hopening, hclosing⟩ := hc opening hopens
    cases u with
    | nil => exact absurd (List.cons.inj htext).1 hopening
    | cons x u =>
      rcases List.append_eq_append_iff.mp (List.cons.inj htext).2 with ⟨m, rfl, hm⟩ | ⟨m, rfl, hm⟩
      · cases m with
        | nil => exact absurd (List.cons.inj hm).1 hclosing
        | cons y m =>
          obtain ⟨rfl, _⟩ := List.cons.inj hm
          simp [hhidden c (by simp)] at hcover
      · cases m with
        | nil => exact absurd (List.cons.inj hm).1.symm hclosing
        | cons y m =>
          obtain ⟨_, htext⟩ := List.cons.inj hm
          obtain ⟨a, b, rfl, hlength', hb⟩ := ih htext.symm
          exact ⟨opening :: (body ++ closer opening :: a), b, by simp, by simp [hlength, hlength'], hb⟩

theorem veils_of_isEscape {parts : Hidden} (h : ∀ part ∈ parts, part.IsEscape) :
    Veils (fun _ => False) (shown parts) (parts.flatMap Swept.source) := by
  induction parts with
  | nil => exact .nil
  | cons part parts ih =>
    obtain ⟨hpart, hparts⟩ := List.forall_mem_cons.mp h
    rw [shown_cons, List.flatMap_cons]
    rcases hpart with ⟨c, rfl⟩ | ⟨c, rfl⟩
    · exact .seen c (ih hparts)
    · exact .escape c (ih hparts)

end Veils

namespace Swept

-- A part that a sweep leaves alone, or of which it hides all between two ends.
def Encloses (takes : Char → Prop) (part : Swept (Option Text)) : Prop :=
  (∃ c, part = loose c) ∨ ∃ opening body hidden, takes opening ∧ (∀ c ∈ hidden, isCover c = true) ∧
    hidden.length = body.length ∧ part.source = opening :: (body ++ [closer opening]) ∧
      part.shown = opening :: (hidden ++ [closer opening])

theorem IsString.encloses {part : Swept (Option Text)} (h : part.IsString) : part.Encloses (isQuote · = true) := by
  refine h.imp_right ?_
  rintro ⟨quote, body, hquote, _, _, _, rfl⟩
  have hcloser : closer quote = quote := closer_of_isQuote hquote
  refine ⟨quote, body, List.replicate body.length Cover.string.char, hquote, ?_, by simp, by simp [source, hcloser], ?_⟩
  · intro c hc
    rw [List.eq_of_mem_replicate hc]
    exact isCover_char _
  · rw [IsString.eq_inside, inside, hcloser]
    rfl

theorem IsGroup.encloses {part : Swept (Option Text)} (h : part.IsGroup) : part.Encloses (· = '(') := by
  refine h.imp_right ?_
  rintro ⟨body, _, rfl⟩
  refine ⟨'(', body, List.replicate body.length Cover.group.char, rfl, ?_, by simp, rfl, rfl⟩
  intro c hc
  rw [List.eq_of_mem_replicate hc]
  exact isCover_char _

end Swept

-- Parts over a text that begins nothing are loose.
theorem Swept.exists_loose {takes : Char → Prop} {parts : Hidden} (h : ∀ part ∈ parts, part.Encloses takes) {u v : Text}
    (hu : ∀ c ∈ u, ¬takes c) (htext : parts.flatMap Swept.source = u ++ v) :
    ∃ more, parts = u.map .loose ++ more ∧ more.flatMap Swept.source = v := by
  induction u generalizing parts with
  | nil => exact ⟨parts, rfl, htext⟩
  | cons c u ih =>
    obtain ⟨hc, hmore⟩ := List.forall_mem_cons.mp hu
    cases parts with
    | nil => simp at htext
    | cons part parts =>
      obtain ⟨hpart, hparts⟩ := List.forall_mem_cons.mp h
      rw [List.flatMap_cons] at htext
      rcases hpart with ⟨d, rfl⟩ | ⟨opening, body, _, hopening, _, _, hsource, _⟩
      · obtain ⟨rfl, hrest⟩ := List.cons.inj htext
        obtain ⟨more, rfl, hsource⟩ := ih hparts hmore hrest
        exact ⟨more, rfl, hsource⟩
      · rw [hsource] at htext
        obtain ⟨rfl, _⟩ := List.cons.inj htext
        exact absurd hopening hc

namespace Veils

variable {opens takes : Char → Prop}

-- A further sweep veils more.
theorem shown (htakes : ∀ c, takes c → isCover c = false ∧ isCover (closer c) = false)
    (hapart : ∀ c d, takes c → opens d → c ≠ d ∧ c ≠ closer d ∧ closer c ≠ d ∧ closer c ≠ closer d) {parts : Hidden}
    (hparts : ∀ part ∈ parts, part.Encloses takes) {r : Text} (h : Veils opens (parts.flatMap Swept.source) r) :
    Veils (fun c => opens c ∨ takes c) (Masked.shown parts) r := by
  have hcover : ∀ cover : Cover, ¬takes cover.char := fun cover hc => by simpa [isCover_char] using (htakes _ hc).1
  induction hn : parts.length using Nat.strongRecOn generalizing parts r with
  | ind n ih =>
    cases parts with
    | nil =>
      cases h
      exact .nil
    | cons part parts =>
      obtain ⟨hpart, hrest⟩ := List.forall_mem_cons.mp hparts
      simp only [List.length_cons] at hn
      rw [shown_cons]
      have hagain : ∀ (u : Text) (more : Hidden) (b : Text), parts = u.map .loose ++ more →
          Veils opens (more.flatMap Swept.source) b → Veils (fun c => opens c ∨ takes c) (Masked.shown more) b := by
        intro u more b hsplit hb
        refine ih more.length ?_ (fun p hp => hrest p (by simp [hsplit, hp])) hb rfl
        rw [hsplit, List.length_append] at hn
        omega
      rcases hpart with ⟨c, rfl⟩ | ⟨opening, body, hidden, hopening, hhidden, hlength, hsource, hshown⟩
      · change Veils opens (c :: parts.flatMap Swept.source) r at h
        generalize hmore : parts.flatMap Swept.source = more at h
        cases h with
        | seen _ h =>
          subst hmore
          exact .seen c (hagain [] parts _ rfl h)
        | escape d h =>
          have hplain : ∀ c ∈ [Cover.escape.char], ¬takes c := by simpa using hcover .escape
          obtain ⟨more, hsplit, rfl⟩ := Swept.exists_loose hrest hplain hmore
          rw [hsplit, shown_append, Layers.shown_loose]
          exact .escape d (hagain _ more _ hsplit h)
        | @enclosed _ hidden body w r hopens hhidden hlength h =>
          have hplain : ∀ d ∈ hidden ++ [closer c], ¬takes d := by
            intro d hd htakesd
            rcases List.mem_append.mp hd with hd | hd
            · simpa [hhidden d hd] using (htakes d htakesd).1
            · exact (hapart d c htakesd hopens).2.1 (List.mem_singleton.mp hd)
          obtain ⟨more, hsplit, rfl⟩ := Swept.exists_loose hrest (v := w) hplain (by simpa using hmore)
          rw [hsplit, shown_append, Layers.shown_loose, List.append_assoc]
          exact .enclosed (.inl hopens) hhidden hlength (hagain _ more _ hsplit h)
      · rw [List.flatMap_cons, hsource, List.cons_append, List.append_assoc, List.singleton_append] at h
        rw [hshown, List.cons_append, List.append_assoc, List.singleton_append]
        generalize hmore : body ++ closer opening :: parts.flatMap Swept.source = more at h
        cases h with
        | seen _ h =>
          subst hmore
          obtain ⟨a, b, rfl, hlength', hb⟩ := h.exists_split (htakes opening hopening).2 fun o ho =>
            ⟨(hapart opening o hopening ho).2.2.1, (hapart opening o hopening ho).2.2.2⟩
          exact .enclosed (.inr hopening) hhidden (hlength.trans hlength') (hagain [] parts _ rfl hb)
        | escape d h => exact absurd hopening (hcover .escape)
        | enclosed hopens _ _ h => exact absurd rfl (hapart opening opening hopening hopens).1

end Veils

-- What begins a stretch that may be hidden.
def Encloses (c : Char) : Prop := isQuote c = true ∨ c = '('

instance : DecidablePred Encloses := fun c => inferInstanceAs (Decidable (isQuote c = true ∨ c = '('))

-- What ends such a stretch could begin one itself, but for a closing paren.
theorem Encloses.closer_cases {c : Char} (h : Encloses c) : Encloses (closer c) ∨ closer c = ')' := by
  rcases h with hquote | rfl
  · rw [closer_of_isQuote hquote]
    exact .inl (.inl hquote)
  · exact .inr rfl

theorem not_encloses_of_forall {accepts : Char → Bool} (haccepts : ['\x22', '\x27', '('].any accepts = false) {c : Char}
    (hc : accepts c = true) : ¬Encloses c := by
  have hnot : c ∉ ['\x22', '\x27', '('] := fun hmem => List.any_eq_false.mp haccepts c hmem hc
  rintro (hquote | rfl)
  · rcases isQuote_iff.mp hquote with rfl | rfl <;> simp at hnot
  · simp at hnot

-- The masked text of a stretch lies over its source.
theorem Layers.Linked.veils {l : Layers} (h : l.Linked) : Veils Encloses l.text l.source := by
  have hescapes := Veils.veils_of_isEscape h.isEscape
  rw [← h.strings_eq] at hescapes
  have hquote : ∀ c, isQuote c = true → isCover c = false ∧ isCover (closer c) = false := by
    intro c hc
    rw [closer_of_isQuote hc]
    exact ⟨isCover_of_isQuote hc, isCover_of_isQuote hc⟩
  have hstrings := hescapes.shown hquote (by simp) fun part hpart => (h.isString part hpart).encloses
  rw [← h.groups_eq] at hstrings
  have hparen : ∀ c, c = '(' → isCover c = false ∧ isCover (closer c) = false := by
    rintro c rfl
    decide
  refine (hstrings.shown hparen ?_ fun part hpart =>
    (h.isGroup part hpart).encloses).mono fun c hc => ?_
  · rintro c d rfl hd
    rcases isQuote_iff.mp (hd.resolve_left id) with rfl | rfl <;> decide
  · exact hc.imp_left fun hc => hc.resolve_left id

end CssSelectors
