import CssSelectors.Proofs.Grammar.Agreement
import CssSelectors.Proofs.Masking.Refilling

namespace CssSelectors

open Unicode Pattern Grammar Text

namespace Grammar

-- A pattern that takes no equals sign, quote or opening paren which is in sight.
def Quiet (p : Pattern Field) : Prop :=
  ∀ w u z, Veils Encloses w (u ++ z) → w.Unescaped → p.Matches u →
    ∃ a more, w = a ++ more ∧ a.length = u.length ∧ (∀ c ∈ a, c ≠ '=' ∧ ¬Encloses c) ∧ Veils Encloses more z

namespace Quiet

variable {p q : Pattern Field}

theorem nothing : Quiet .nothing := by
  rintro w u z h - rfl
  exact ⟨[], w, rfl, rfl, by simp, h⟩

theorem char {accepts : Char → Bool} (haccepts : ['\\', '=', '(', '\x22', '\x27'].any accepts = false) :
    Quiet (.char accepts) := by
  rintro w u z h - ⟨c, hc, rfl⟩
  have hne : ∀ d ∈ ['\\', '=', '(', '\x22', '\x27'], c ≠ d := by
    rintro d hd rfl
    exact List.any_eq_false.mp haccepts c hd hc
  have hencloses : ¬Encloses c := by
    simp only [Encloses, isQuote_iff, not_or]
    exact ⟨⟨hne '\x22' (by simp), hne '\x27' (by simp)⟩, hne '(' (by simp)⟩
  obtain ⟨more, rfl, hmore⟩ := h.eq_seen (hne '\\' (by simp)) hencloses
  exact ⟨[c], more, rfl, rfl, by simpa using ⟨hne '=' (by simp), hencloses⟩, hmore⟩

theorem append (hp : Quiet p) (hq : Quiet q) : Quiet (p ++ q) := by
  rintro w _ z h hun ⟨u, v, rfl, hu, hv⟩
  rw [List.append_assoc] at h
  obtain ⟨a, more, rfl, ha, hquiet, hmore⟩ := hp w u (v ++ z) h hun hu
  obtain ⟨b, more, rfl, hb, hquiet', hmore⟩ := hq more v z hmore hun.of_append_right hv
  refine ⟨a ++ b, more, by simp, by simp [ha, hb], fun c hc => ?_, hmore⟩
  exact (List.mem_append.mp hc).elim (hquiet c) (hquiet' c)

theorem orElse (hp : Quiet p) (hq : Quiet q) : Quiet (p <|> q) :=
  fun w u z h hun hu => hu.elim (hp w u z h hun) (hq w u z h hun)

theorem field (label : Field) (hp : Quiet p) : Quiet (.field label p) := hp

theorem many (appetite : Appetite) (hp : Quiet p) : Quiet (.many appetite p) := by
  rintro w _ z h hun ⟨parts, rfl, hparts⟩
  induction parts generalizing w with
  | nil => exact nothing w [] z h hun rfl
  | cons part parts ih =>
    obtain ⟨hpart, hparts⟩ := List.forall_mem_cons.mp hparts
    rw [List.flatten_cons] at h ⊢
    rw [List.append_assoc] at h
    obtain ⟨a, more, rfl, ha, hquiet, hmore⟩ := hp w part (parts.flatten ++ z) h hun hpart
    obtain ⟨b, more, rfl, hb, hquiet', hmore⟩ := ih more hun.of_append_right hparts hmore
    refine ⟨a ++ b, more, by simp, by simp [ha, hb], fun c hc => ?_, hmore⟩
    exact (List.mem_append.mp hc).elim (hquiet c) (hquiet' c)

-- Such a pattern ends before any of these characters.
theorem exists_append (hp : Quiet p) {w f z : Text} (hveils : Veils Encloses w (f ++ z)) (hun : w.Unescaped) {c : Char}
    (hc : c = '=' ∨ Encloses c) (hmem : c ∈ w.take f.length) {taken rest : Text} (hsplit : f ++ z = taken ++ rest)
    (htaken : p.Matches taken) : ∃ x, f = taken ++ x ∧ x ≠ [] ∧ rest = x ++ z := by
  obtain ⟨a, more, rfl, ha, hquiet, -⟩ := hp w taken rest (hsplit ▸ hveils) hun htaken
  have hless : a.length < f.length := by
    refine Nat.lt_of_not_le fun hle => ?_
    rw [List.take_append_of_le_length hle] at hmem
    obtain ⟨hequals, hencloses⟩ := hquiet c (List.mem_of_mem_take hmem)
    exact hc.elim hequals hencloses
  obtain ⟨x, rfl⟩ : taken <+: f := List.prefix_of_prefix_length_le (hsplit ▸ List.prefix_append taken rest)
    (List.prefix_append f z) (by omega)
  rw [List.append_assoc] at hsplit
  rw [List.length_append] at hless
  exact ⟨x, rfl, List.length_pos_iff.mp (by omega), (List.append_cancel_left hsplit).symm⟩

end Quiet

theorem quiet_blanks : Quiet blanks := .many _ (.char (by decide))

-- What a backslash lets into a name is hidden with it.
theorem quiet_nameUnit : Quiet nameUnit := by
  intro w u z h hun hu
  rcases isUnit_of_matches hu with ⟨c, hc, rfl⟩ | ⟨c, rfl⟩
  · have hchar : Quiet (.char isNameChar) := .char (by decide)
    exact hchar w [c] z h hun ⟨c, hc, rfl⟩
  · obtain ⟨more, rfl, hmore⟩ := h.eq_escape hun
    refine ⟨List.replicate 2 Cover.escape.char, more, rfl, rfl, fun d hd => ?_, hmore⟩
    rw [List.eq_of_mem_replicate hd]
    decide

theorem quiet_name : Quiet name := .field _ (.append quiet_nameUnit (.many _ quiet_nameUnit))

theorem quiet_opening : Quiet opening := by
  have hns : Quiet nsBar :=
    .orElse (.append (.field _ (.orElse (.char (by decide)) (.many _ quiet_nameUnit))) (.char (by decide))) .nothing
  exact .append (.append (.append (.append (.char (by decide)) quiet_blanks) hns) quiet_name) quiet_blanks

section

variable {front body body' back : Text} {quote : Char} {s t : Cursor Field}

-- An operator and the blanks after it end before a quote, if they begin before it.
theorem length_le_of_matches_operator (hquote : isQuote quote = true) (hne : front ≠ []) {more taken rest : Text}
    (hsplit : front ++ quote :: more = taken ++ rest) (h : (operator ++ blanks).Matches taken) :
    taken.length ≤ front.length := by
  obtain ⟨_, before, rfl, ⟨first, _, rfl, hfirst, hequals⟩, hblank⟩ := h
  obtain rfl := matches_lit.mp hequals
  have hafter : quote ∉ '=' :: before := by
    intro hmem
    rcases List.mem_cons.mp hmem with rfl | hmem
    · exact absurd hquote (by decide)
    · exact not_encloses_of_isBlank (matches_blanks.mp hblank quote hmem) (.inl hquote)
  rcases List.append_eq_append_iff.mp hsplit with ⟨x, htaken, hx⟩ | ⟨x, rfl, -⟩
  · cases x with
    | nil => rw [htaken, List.append_nil]
    | cons c x =>
      -- A quote in it would have to come first.
      obtain ⟨rfl, -⟩ := List.cons.inj hx
      obtain ⟨d, front, rfl⟩ := List.exists_cons_of_ne_nil hne
      have hmem : quote ∈ front ++ quote :: x := List.mem_append_right front List.mem_cons_self
      rcases hfirst with ⟨e, -, rfl⟩ | rfl
      · have hmore : '=' :: before = front ++ quote :: x := (List.cons.inj htaken).2
        exact absurd (hmore ▸ hmem) hafter
      · have hmore : before = front ++ quote :: x := (List.cons.inj htaken).2
        exact absurd (List.mem_cons_of_mem '=' (hmore ▸ hmem)) hafter
  · simp only [List.length_append]
    omega

-- A value that is followed by the end of an attribute goes on behind a string in it.
theorem exists_of_closing (hquote : isQuote quote = true) {v x : Text} (hsplit : front ++ quote :: back = v ++ x)
    (h : closing.Matches x) : ∃ y, v = front ++ quote :: y ∧ back = y ++ x := by
  have hnot : quote ∉ x := fun hmem => (plain_of_matches_closing h quote hmem).2.2.1 (.inl hquote)
  rcases List.append_eq_append_iff.mp hsplit with ⟨y, rfl, hy⟩ | ⟨y, rfl, rfl⟩
  · cases y with
    | nil =>
      obtain rfl : quote :: back = x := hy
      simp at hnot
    | cons c y =>
      obtain ⟨rfl, rfl⟩ := List.cons.inj hy
      exact ⟨y, rfl, rfl⟩
  · simp at hnot

-- So all that its end depends on is what follows the string, as long as no line feed stands before that.
theorem finish?_value_past_iff (hquote : isQuote quote = true) :
    (value ++ closing).finish? (s.extend (quote :: (body ++ quote :: back))) = some t ↔ ∃ y x, back = y ++ x ∧
      '\n' ∉ s.rest ++ quote :: (body ++ quote :: y) ∧
      closing.finish? (Cursor.note .value s.offset ⟨s.offset + (s.rest.length + body.length + y.length + 2), x, s.spans⟩) =
        some t ∧ ∀ z x', back = z ++ x' → z.length < y.length → ¬closing.Matches x' := by
  have hrest : (s.extend (quote :: (body ++ quote :: back))).rest = (s.rest ++ quote :: body) ++ quote :: back := by
    simp [Cursor.extend]
  have hskip : ∀ y x, back = y ++ x → (s.extend (quote :: (body ++ quote :: back))).skip
      (s.rest ++ quote :: body ++ quote :: y).length =
        ⟨s.offset + (s.rest.length + body.length + y.length + 2), x, s.spans⟩ := by
    rintro y x rfl
    have hdrop : (s.rest ++ quote :: body ++ quote :: (y ++ x)).drop (s.rest ++ quote :: body ++ quote :: y).length = x := by
      rw [← List.cons_append, ← List.append_assoc, List.drop_left]
    have hlength : (s.rest ++ quote :: body ++ quote :: y).length = s.rest.length + body.length + y.length + 2 := by
      simp only [List.length_append, List.length_cons]
      omega
    rw [Cursor.skip, hrest, hdrop, hlength]
    rfl
  rw [finish?_value_iff]
  constructor
  · rintro ⟨v, x, hsplit, -, hline, hclosing, hfirst⟩
    have hx : closing.Matches x := by
      have hmatches := matches_of_finish? hclosing
      rwa [Cursor.note_rest, Cursor.skip_rest, hsplit, List.drop_left] at hmatches
    obtain ⟨y, rfl, hback⟩ := exists_of_closing hquote (hrest.symm.trans hsplit) hx
    rw [hskip y x hback] at hclosing
    refine ⟨y, x, hback, by simpa using hline, hclosing, fun z x' hz hless => ?_⟩
    refine hfirst (s.rest ++ quote :: body ++ quote :: z) x' (by rw [hrest, hz]; simp) (by simp) ?_
    simp only [List.length_append, List.length_cons]
    omega
  · rintro ⟨y, x, hback, hline, hclosing, hfirst⟩
    refine ⟨s.rest ++ quote :: body ++ quote :: y, x, by rw [hrest, hback]; simp, by simp, by simpa using hline, ?_, ?_⟩
    · rw [hskip y x hback]
      exact hclosing
    · intro v x' hsplit _ hless hx'
      obtain ⟨z, rfl, hz⟩ := exists_of_closing hquote (hrest.symm.trans hsplit) hx'
      refine hfirst z x' hz ?_ hx'
      simp only [List.length_append, List.length_cons] at hless
      omega

-- Where more is left than a bracket after the name of an attribute, it is a comparison.
theorem finish?_compared (h : ¬(opening ++ lit ']').Matches s.rest) :
    (opening ++ ending).finish? s = ((opening ++ (operator ++ blanks)) ++ (value ++ closing)).finish? s := by
  have hassoc : ((opening ++ (operator ++ blanks)) ++ (value ++ closing)).finish? s =
      (opening ++ ((operator ++ blanks) ++ (value ++ closing))).finish? s := by
    refine congrArg (List.find? _) ?_
    rw [outcomes_append, outcomes_append, outcomes_append, List.flatMap_assoc]
    rfl
  rw [hassoc, finish?_append, finish?_append]
  refine findSome?_congr fun u hu => ?_
  have hnone : (lit ']').finish? u = none := by
    refine finish?_eq_none_iff.mpr fun hbracket => h ?_
    obtain ⟨taken, hrest, -, hin⟩ := takesIn_of_mem_outcomes hu
    exact ⟨taken, u.rest, hrest, hin, hbracket⟩
  rw [finish?_ending, hnone, Option.or_none]

variable {w : Text}

-- The head of an attribute ends before a string that is in sight after an equals sign.
theorem length_le_of_matches_head (hquote : isQuote quote = true) (hun : w.Unescaped)
    (hveils : Veils Encloses w (front ++ quote :: back)) (hequals : '=' ∈ w.take front.length) {taken rest : Text}
    (hsplit : front ++ quote :: back = taken ++ rest) (h : (opening ++ (operator ++ blanks)).Matches taken) :
    taken.length ≤ front.length := by
  obtain ⟨u, v, rfl, hu, hv⟩ := h
  rw [List.append_assoc] at hsplit
  obtain ⟨x, rfl, hne, hrest⟩ := quiet_opening.exists_append hveils hun (.inl rfl) hequals hsplit hu
  have hle := length_le_of_matches_operator hquote hne hrest.symm hv
  rw [List.length_append, List.length_append]
  omega

-- Whatever a string in the value of an attribute holds, the attribute is read with the same fields.
theorem finish?_attr_of_refilled (hquote : isQuote quote = true) (hun : w.Unescaped)
    (hveils : Veils Encloses w (front ++ quote :: (body ++ quote :: back)))
    (hveils' : Veils Encloses w (front ++ quote :: (body' ++ quote :: back))) (hequals : '=' ∈ w.take front.length)
    (hlength : body'.length = body.length) (hline : '\n' ∉ body')
    (h : (opening ++ ending).finish? (.start (front ++ quote :: (body ++ quote :: back))) = some t) :
    (opening ++ ending).finish? (.start (front ++ quote :: (body' ++ quote :: back))) = some t := by
  have hfinish : ∀ body : Text, Veils Encloses w (front ++ quote :: (body ++ quote :: back)) →
      (opening ++ ending).finish? (.start (front ++ quote :: (body ++ quote :: back))) =
        ((opening ++ (operator ++ blanks)).outcomes (.start front)).findSome? fun u =>
          (value ++ closing).finish? (u.extend (quote :: (body ++ quote :: back))) := by
    intro body hveils
    have hlong : ¬(opening ++ lit ']').Matches (front ++ quote :: (body ++ quote :: back)) := by
      rintro ⟨u, v, hsplit, hu, hv⟩
      obtain ⟨x, -, -, rfl⟩ := quiet_opening.exists_append hveils hun (.inl rfl) hequals hsplit hu
      have hlengths := congrArg List.length (matches_lit.mp hv)
      simp only [List.length_append, List.length_cons, List.length_nil] at hlengths
      omega
    have hextend := outcomes_extend_of_within (s := .start front) (z := quote :: (body ++ quote :: back))
      fun taken rest hsplit => length_le_of_matches_head hquote hun hveils hequals hsplit
    rw [finish?_compared hlong, finish?_append]
    refine (congrArg (List.findSome? _) hextend).trans ?_
    rw [List.findSome?_map]
    rfl
  rw [hfinish _ hveils] at h
  rw [hfinish _ hveils', ← h]
  obtain ⟨u, -, hu⟩ := List.exists_of_findSome?_eq_some h
  obtain ⟨y, x, -, hclean, -⟩ := (finish?_value_past_iff hquote).mp hu
  refine findSome?_congr fun u _ => Option.ext fun t => ?_
  rw [finish?_value_past_iff hquote, finish?_value_past_iff hquote, hlength]
  simp only [List.mem_append, List.mem_cons, not_or] at hclean ⊢
  simp only [hclean.2.2.1, hline]

-- Neither does an argument depend on it, whatever the string holds.
theorem matches_parens_of_refilled (hquote : isQuote quote = true)
    (h : (parens plainArgument).Matches (front ++ quote :: (body ++ quote :: back))) :
    (parens plainArgument).Matches (front ++ quote :: (body' ++ quote :: back)) := by
  obtain ⟨-, -, hopen, hclose⟩ := ne_of_isQuote hquote
  rcases h with ⟨_, _, hsplit, ⟨_, inner, rfl, hopening, -⟩, hclosing⟩ | hnil
  · obtain rfl := matches_lit.mp hopening
    obtain rfl := matches_lit.mp hclosing
    obtain ⟨x, rfl⟩ : ∃ x, front = '(' :: x := by
      cases front with
      | nil => exact absurd (List.cons.inj hsplit).1 hopen
      | cons c x => exact ⟨x, by rw [(List.cons.inj hsplit).1]⟩
    obtain ⟨y, rfl⟩ : ∃ y, back = y ++ [')'] := by
      rcases List.eq_nil_or_concat back with rfl | ⟨y, c, rfl⟩
      · have hlast : ('(' :: x ++ quote :: body) ++ [quote] = ('(' :: inner) ++ [')'] := by simpa using hsplit
        exact absurd (by simpa using (List.append_inj' hlast rfl).2) hclose
      · have hlast : ('(' :: x ++ quote :: (body ++ quote :: y)) ++ [c] = ('(' :: inner) ++ [')'] := by simpa using hsplit
        obtain rfl : c = ')' := by simpa using (List.append_inj' hlast rfl).2
        exact ⟨y, by simp⟩
    refine .inl ⟨'(' :: (x ++ quote :: (body' ++ quote :: y)), [')'], by simp, ⟨['('], _, rfl, matches_lit.mpr rfl, ?_⟩,
      matches_lit.mpr rfl⟩
    exact matches_field.mpr (matches_oneOrMore_char.mpr ⟨by simp, fun _ _ => rfl⟩)
  · cases (List.append_eq_nil_iff.mp hnil).2

theorem matches_argument_of_refilled {base : Pattern Field} (hbase : Quiet base) (hquote : isQuote quote = true)
    (hun : w.Unescaped) (hveils : Veils Encloses w (front ++ quote :: (body ++ quote :: back)))
    (hparen : '(' ∈ w.take front.length)
    (h : (base ++ parens plainArgument).Matches (front ++ quote :: (body ++ quote :: back))) :
    (base ++ parens plainArgument).Matches (front ++ quote :: (body' ++ quote :: back)) := by
  obtain ⟨u, v, hsplit, hu, hv⟩ := h
  obtain ⟨x, rfl, -, rfl⟩ := hbase.exists_append hveils hun (.inr (.inr rfl)) hparen hsplit hu
  exact ⟨u, _, List.append_assoc u x _, hu, matches_parens_of_refilled hquote hv⟩

theorem matches_ending {text : Text} :
    ending.Matches text ↔ ((operator ++ blanks) ++ (value ++ closing)).Matches text ∨ text = [']'] := by
  have hfinish := congrArg Option.isSome (finish?_ending (.start text))
  rw [Option.isSome_or, Bool.eq_iff_iff, Bool.or_eq_true, finish?_isSome_iff, finish?_isSome_iff, finish?_isSome_iff] at hfinish
  exact hfinish.trans (or_congr Iff.rfl matches_lit)

theorem finish?_opening (argument : Pattern Field) (s : Cursor Field) :
    (pattern argument .attr).finish? s = (opening ++ ending).finish? s :=
  congrArg (List.find? _) (outcomes_attr argument s)

theorem matches_attr {argument : Pattern Field} {text : Text} :
    (pattern argument .attr).Matches text ↔ (opening ++ ending).Matches text := by
  have hfinish := congrArg Option.isSome (finish?_opening argument (.start text))
  rwa [Bool.eq_iff_iff, finish?_isSome_iff, finish?_isSome_iff] at hfinish

-- A character after the front of a text and at most one more, which is neither the next one nor followed by it,
-- stands behind that.
theorem mem_left_of_append_eq {a u first rest more : Text} {mark c d : Char} (hfirst : first.length ≤ 1)
    (hmark : mark ∉ u) (hne : mark ≠ d) (hc : c ≠ d) (h : a ++ mark :: c :: rest = (u ++ first) ++ d :: more) : d ∈ a := by
  rcases List.append_eq_append_iff.mp h with ⟨x, hx, hrest⟩ | ⟨x, rfl, hrest⟩
  · cases x with
    | nil => exact absurd (List.cons.inj hrest).1 hne
    | cons e x =>
      obtain ⟨rfl, hmore⟩ := List.cons.inj hrest
      cases x with
      | nil => exact absurd (List.cons.inj hmore).1 hc
      | cons e x =>
        have hlengths := congrArg List.length hx
        simp only [List.length_append, List.length_cons] at hlengths
        have hprefix : a ++ [mark] <+: u ++ first := ⟨e :: x, by rw [hx]; simp⟩
        have hu := List.prefix_of_prefix_length_le hprefix (List.prefix_append u first) (by
          rw [List.length_append, List.length_singleton]
          omega)
        exact absurd (hu.subset (List.mem_append_right a List.mem_cons_self)) hmark
  · cases x with
    | nil => exact absurd (List.cons.inj hrest).1.symm hne
    | cons e x =>
      obtain ⟨rfl, -⟩ := List.cons.inj hrest
      simp

-- A hidden part of an attribute stands after its equals sign.
theorem equals_mem_take {n : Nat} (hun : w.Unescaped) (hhides : Hides w n) (h : (opening ++ ending).Matches w) :
    '=' ∈ w.take n := by
  obtain ⟨a, mark, c, rest, rfl, hc, hplace⟩ := hhides
  have hmark : Encloses mark := hplace.imp And.left And.left
  have hle : a.length ≤ n := by omega
  suffices hequals : '=' ∈ a from (List.take_prefix_take_left hle).subset (by simpa using hequals)
  obtain ⟨u, v, hsplit, hu, hv⟩ := h
  have hnot : mark ∉ u := by
    obtain ⟨u', more, heq, hlength, hquiet, -⟩ := quiet_opening _ u v (hsplit ▸ .refl _) hun hu
    rw [(List.append_inj (hsplit.symm.trans heq) hlength.symm).1]
    exact fun hmem => (hquiet mark hmem).2 hmark
  have hne : mark ≠ '=' := by
    rintro rfl
    revert hmark
    decide
  rcases matches_ending.mp hv with ⟨_, more, rfl, ⟨_, before, rfl, ⟨first, _, rfl, hfirst, hequal⟩, -⟩, -⟩ | rfl
  · obtain rfl := matches_lit.mp hequal
    have hshort : first.length ≤ 1 := by
      rcases hfirst with ⟨d, -, rfl⟩ | rfl <;> simp
    have hcovered : c ≠ '=' := by
      rintro rfl
      cases hc
    have hsplit : a ++ mark :: c :: rest = (u ++ first) ++ '=' :: (before ++ more) := by simpa using hsplit
    exact mem_left_of_append_eq hshort hnot hne hcovered hsplit
  · have hmem : mark ∈ u ++ [']'] := hsplit ▸ List.mem_append_right a List.mem_cons_self
    rcases List.mem_append.mp hmem with hmem | hmem
    · exact absurd hmem hnot
    · obtain rfl := List.mem_singleton.mp hmem
      exact absurd hmark (by decide)

-- Of the other kinds only those with an argument hide anything that begins in sight.
theorem paren_mem_take {tag : Tag} {n : Nat} (hattr : tag ≠ .attr) (hhides : Hides w n) (h : tag.Shape w) :
    (tag = .pseudoElement ∨ tag = .pseudoClass) ∧ '(' ∈ w.take n := by
  obtain ⟨a, mark, c, rest, rfl, -, hplace⟩ := hhides
  have hholds : tag.holds mark = true := h.holds hattr mark (List.mem_append_right a List.mem_cons_self)
  rcases hplace with ⟨hquote, -⟩ | ⟨rfl, hless⟩
  · have hnone : tag.holds '\x22' = false ∧ tag.holds '\x27' = false := by
      revert hattr
      cases tag <;> decide
    rcases isQuote_iff.mp hquote with rfl | rfl
    · exact absurd hholds (by rw [hnone.1]; decide)
    · exact absurd hholds (by rw [hnone.2]; decide)
  · constructor
    · revert hholds hattr
      cases tag <;> decide
    · have hprefix : a ++ ['('] <+: a ++ '(' :: c :: rest := ⟨c :: rest, by simp⟩
      have htake := List.prefix_of_prefix_length_le hprefix (List.take_prefix n _) (by
        simp only [List.length_append, List.length_take, List.length_cons, List.length_nil]
        omega)
      exact htake.subset (List.mem_append_right a List.mem_cons_self)

-- So whatever a string in a token holds, the token is read with the same fields.
theorem whole?_of_refilled {tag : Tag} (hmatches : (pattern coveredArgument tag).Matches w) (hun : w.Unescaped)
    (hhides : Hides w front.length) (hquote : isQuote quote = true)
    (hveils : Veils Encloses w (front ++ quote :: (body ++ quote :: back)))
    (hveils' : Veils Encloses w (front ++ quote :: (body' ++ quote :: back))) (hline : '\n' ∉ body')
    (h : (pattern plainArgument tag).whole? (front ++ quote :: (body ++ quote :: back)) = some t) :
    (pattern plainArgument tag).whole? (front ++ quote :: (body' ++ quote :: back)) = some t := by
  have hlengths := hveils'.length_eq.symm.trans hveils.length_eq
  rw [whole?_eq_finish?] at h ⊢
  by_cases hattr : tag = .attr
  · subst hattr
    have hequals : '=' ∈ w.take front.length := equals_mem_take hun hhides (matches_attr.mp hmatches)
    have hlength : body'.length = body.length := by
      simp only [List.length_append, List.length_cons] at hlengths
      omega
    rw [finish?_opening] at h ⊢
    exact finish?_attr_of_refilled hquote hun hveils hveils' hequals hlength hline h
  · obtain ⟨hpseudo, hparen⟩ := paren_mem_take hattr hhides (shape_of_matches hun hmatches)
    have hmatches' : (pattern plainArgument tag).Matches (front ++ quote :: (body' ++ quote :: back)) := by
      have hmatched := matches_of_finish? h
      have hcolon : Quiet (lit ':') := .char (by decide)
      rcases hpseudo with rfl | rfl
      · exact matches_argument_of_refilled (.append (.append hcolon hcolon) quiet_name) hquote hun hveils hparen hmatched
      · exact matches_argument_of_refilled (.append hcolon quiet_name) hquote hun hveils hparen hmatched
    -- Where both are read, they are read like the masked text.
    obtain ⟨t', ht'⟩ := Option.isSome_iff_exists.mp ((finish?_isSome_iff (s := .start _)).mpr hmatches')
    obtain ⟨u, hu⟩ := Option.isSome_iff_exists.mp ((finish?_isSome_iff (s := .start w)).mpr hmatches)
    obtain ⟨hmem, hend⟩ := mem_of_finish? h
    obtain ⟨hmem', hend'⟩ := mem_of_finish? ht'
    obtain ⟨hcovered, hempty⟩ := mem_of_finish? hu
    have hspans : t'.spans = t.spans :=
      (spans_eq_of_veils hattr hveils' hun hcovered hempty hmem' hend').symm.trans
        (spans_eq_of_veils hattr hveils hun hcovered hempty hmem hend)
    have hoffset : t'.offset = t.offset := by
      rw [offset_eq_length hmem hend, offset_eq_length hmem' hend', hlengths]
    exact ht'.trans (congrArg some (Cursor.ext hoffset (hend'.trans hend.symm) hspans))

end

end Grammar

end CssSelectors
