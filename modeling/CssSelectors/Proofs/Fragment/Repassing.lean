import CssSelectors.Proofs.Fragment.Narrowing

namespace CssSelectors

open Unicode Pattern Grammar Text

theorem Kind.eq_comma {kind : Kind Selector} (h : kind.tag = .comma) : kind = .comma := by
  cases kind <;> simp_all [Kind.tag]

theorem Kind.eq_combinator {kind : Kind Selector} (h : kind.tag = .combinator) : kind = .combinator := by
  cases kind <;> simp_all [Kind.tag]

namespace Tag

variable {tag : Tag} {rest : Text}

theorem pairwise_all : all.Pairwise fun a b => a.priority < b.priority := by decide

-- An id or a class ends at the first character that is no part of its name.
theorem front?_congr_of_named {w z z' : Text} {kind : Kind Selector} (htag : tag = id ∨ tag = className)
    (hun : Text.Unescaped (w ++ z')) (hz' : ∀ c ∈ z'.head?, isNameChar c = false)
    (h : tag.front? (w ++ z) = some (kind, w.length)) : tag.front? (w ++ z') = some (kind, w.length) := by
  have hsome : (tag.front? (w ++ z')).isSome := front?_isSome_iff.mpr ⟨w, z', rfl, matches_of_front? h⟩
  obtain ⟨⟨kind', width⟩, hfront⟩ := Option.isSome_iff_exists.mp hsome
  refine front?_congr_of_within h hfront ?_
  obtain ⟨taken, rest, htext, rfl, hshape, _⟩ := exists_shape_of_front? hun hfront
  have hrun : ∀ c ∈ taken.tail, isNameChar c = true := by
    rcases htag with rfl | rfl <;> obtain ⟨run, _, hrun, rfl⟩ := hshape <;> exact hrun
  by_contra hlong
  rcases List.append_eq_append_iff.mp htext with ⟨v, rfl, hv⟩ | ⟨v, rfl, _⟩
  · obtain ⟨a, w, rfl⟩ := List.exists_cons_of_ne_nil (shape_of_front? hun.of_append_left h).ne_nil
    cases v with
    | nil => simp at hlong
    | cons c v =>
      have hc := hz' c (by rw [hv]; rfl)
      simp [hrun c (by simp)] at hc
  · simp at hlong

theorem front?_comma (hun : Text.Unescaped (',' :: rest)) (hrest : ∀ c ∈ rest.head?, isBlank c = false) :
    comma.front? (',' :: rest) = some (.comma, 1) := by
  have hshape : comma.Shape [','] := ⟨[], [], by simp [IsBlank], by simp [IsBlank], rfl⟩
  have hsome : (comma.front? (',' :: rest)).isSome = true :=
    front?_isSome_of_shape (by decide) (unescaped_singleton ',') hshape rest
  obtain ⟨⟨kind, width⟩, hfront⟩ := Option.isSome_iff_exists.mp hsome
  obtain ⟨taken, rest', htext, rfl, ⟨before, after, hbefore, hafter, rfl⟩, hkind⟩ := exists_shape_of_front? hun hfront
  cases before with
  | cons b before =>
    obtain ⟨rfl, _⟩ := List.cons.inj htext
    exact absurd (hbefore ',' List.mem_cons_self) (by decide)
  | nil =>
    cases after with
    | nil => rw [hfront, Kind.eq_comma hkind]; rfl
    | cons c after =>
      have hc := hrest c (by rw [(List.cons.inj htext).2]; rfl)
      simp [hafter c List.mem_cons_self] at hc

-- A comma takes a blank before it.
theorem front?_comma_isSome {w : Text} {c : Char} (hun : w.Unescaped) (hshape : comma.Shape w) (hc : isBlank c = true)
    (rest : Text) : (comma.front? (c :: (w ++ rest))).isSome := by
  obtain ⟨before, after, hbefore, hafter, rfl⟩ := hshape
  have hne : c ≠ '\\' := by
    rintro rfl
    exact absurd hc (by decide)
  have hwider : comma.Shape (c :: (before ++ ',' :: after)) :=
    ⟨c :: before, after, List.forall_mem_cons.mpr ⟨hc, hbefore⟩, hafter, rfl⟩
  exact front?_isSome_of_shape (by decide) (.cons hne hun) hwider rest

theorem front?_combinator {c : Char} (hun : Text.Unescaped (c :: rest)) (hc : (isBlank c || isSymbol c) = true)
    (hrest : ∀ d ∈ rest.head?, isBlank d = false) (hsymbol : isBlank c = true → ∀ d ∈ rest.head?, isSymbol d = false) :
    combinator.front? (c :: rest) = some (.combinator, 1) := by
  have hshape : combinator.Shape [c] := ⟨[], c, [], by simp [IsBlank], hc, by simp [IsBlank], rfl⟩
  have hsome : (combinator.front? (c :: rest)).isSome = true :=
    front?_isSome_of_shape (by decide) (unescaped_singleton c) hshape rest
  obtain ⟨⟨kind, width⟩, hfront⟩ := Option.isSome_iff_exists.mp hsome
  obtain ⟨taken, rest', htext, rfl, ⟨before, d, after, hbefore, hd, hafter, rfl⟩, hkind⟩ :=
    exists_shape_of_front? hun hfront
  cases before with
  | cons b before =>
    obtain ⟨rfl, hmore⟩ := List.cons.inj htext
    have hb := hbefore c List.mem_cons_self
    obtain ⟨e, he, heblank⟩ : ∃ e ∈ rest.head?, (isBlank e || isSymbol e) = true := by
      rw [hmore]
      cases before with
      | nil => exact ⟨d, rfl, hd⟩
      | cons e before => exact ⟨e, rfl, by simp [hbefore e (by simp)]⟩
    simp [hrest e he, hsymbol hb e he] at heblank
  | nil =>
    cases after with
    | nil => rw [hfront, Kind.eq_combinator hkind]; rfl
    | cons e after =>
      have he := hrest e (by rw [(List.cons.inj htext).2]; rfl)
      simp [hafter e List.mem_cons_self] at he

-- Blanks are a combinator of their own only where no symbol follows.
theorem head?_rest_of_blanks {w : Text} {kind : Kind Selector} (hblank : w.IsBlank)
    (h : combinator.front? (w ++ rest) = some (kind, w.length)) : ∀ c ∈ rest.head?, isSymbol c = false := by
  by_contra hnot
  push Not at hnot
  obtain ⟨c, hc, hsymbol⟩ := hnot
  rw [Bool.ne_false_iff] at hsymbol
  obtain ⟨rest, rfl⟩ : ∃ more, rest = c :: more := List.head?_eq_some_iff.mp hc
  obtain ⟨t, ht, hrest⟩ := exists_cursor_of_front? h
  let s : Cursor Field := .start (w ++ c :: rest)
  let step : Pattern Field := .char fun c => isBlank c || c ∈ ['>', '+', '~']
  have hskip : (s.skip w.length).rest = c :: rest := List.drop_left
  have hrun : s.rest.takeWhile isBlank = w := by
    change (w ++ c :: rest).takeWhile isBlank = w
    rw [List.takeWhile_append_of_pos hblank, List.takeWhile_cons_of_neg (by simp [Token.isBlank_of_isSymbol hsymbol]),
      List.append_nil]
  have hblanks : (blanks.outcomes s).head? = some (s.skip w.length) := by
    rw [blanks, head?_outcomes_many_greedy, hrun]
  have hstep : step.outcomes (s.skip w.length) = [(s.skip w.length).skip 1] := by
    rw [outcomes_char_cons hskip, if_pos]
    rw [Bool.or_eq_true]
    exact .inr hsymbol
  have hfirst : ((blanks ++ step).outcomes s).head? = some ((s.skip w.length).skip 1) := by
    obtain ⟨others, hothers⟩ := List.head?_eq_some_iff.mp hblanks
    rw [outcomes_append, hothers, List.flatMap_cons, hstep]
    rfl
  have htotal : (((blanks ++ step) ++ blanks).outcomes s).head? = some t := ht
  rw [head?_append_of_total blanks_ne_nil, hfirst, Option.bind_some] at htotal
  have hle := length_rest_le (List.mem_of_head? htotal)
  rw [hrest, Cursor.skip_rest, hskip, List.length_drop, List.length_cons] at hle
  omega

-- Whatever a token begins with later, an id, a class or an attribute does not begin there.
theorem opens_eq_false_of_holds {later : Tag} {c : Char} (htag : tag = attr ∨ tag = id ∨ tag = className)
    (hlater : tag.priority < later.priority) (h : later.holds c = true) : tag.opens c = false := by
  by_contra hopens
  rw [Bool.not_eq_false] at hopens
  rcases htag with rfl | rfl | rfl <;> simp only [opens, decide_eq_true_eq] at hopens <;> subst hopens <;>
    revert hlater h <;> cases later <;> decide

end Tag

namespace Word

variable {tag : Tag} {us vs : List Word}

-- To narrow the words after an attribute brings no end into sight for a value that begins at the
-- bracket of the attribute.
def Calm (words : List Word) : Prop :=
  ∀ us word vs, words = us ++ word :: vs → word.tag = .attr → OpenEnded word.text →
    ReachesEnd (textOf (narrowAll vs)) → ReachesEnd (textOf vs)

theorem Calm.of_append_right (h : Calm (us ++ vs)) : Calm vs := by
  rintro before word after rfl
  exact h (us ++ before) word after (by simp)

theorem Calm.of_later (h : ∀ u ∈ us, tag.priority < u.tag.priority) : Calm us := by
  rintro before word after rfl hattr
  have hlt := h word (by simp)
  rw [hattr] at hlt
  exact absurd hlt (Nat.not_lt_zero _)

-- A word that was found before other words is found before these when all are narrowed.
theorem front?_narrow {word : Word} (htag : word.tag.priority ≤ Tag.combinator.priority)
    (hshapes : ∀ v ∈ vs, v.tag.Shape v.text) (hun : Text.Unescaped (word.text ++ textOf vs))
    (hcalm : Calm (word :: vs))
    (h : word.tag.front? (word.text ++ textOf vs) = some (word.kind, word.text.length)) :
    word.tag.front? (word.narrow.text ++ textOf (narrowAll vs)) = some (word.kind, word.narrow.text.length) := by
  have hshape : word.tag.Shape word.text := Tag.shape_of_front? hun.of_append_left h
  have hall : ∀ v ∈ word :: vs, v.tag.Shape v.text := List.forall_mem_cons.mpr ⟨hshape, hshapes⟩
  have hun' : Text.Unescaped (word.narrow.text ++ textOf (narrowAll vs)) := unescaped_narrowAll hall hun
  cases hword : word.tag <;> rw [hword] at h htag
  case attr =>
    rw [narrow_eq_self (by rw [hword]; rfl)] at hun' ⊢
    exact Tag.front?_attr_congr hun hun' (head?_textOf_ne_equals hshapes)
      (head?_textOf_ne_equals (shape_narrowAll hshapes)) (hcalm [] word vs rfl hword) h
  case id =>
    rw [narrow_eq_self (by rw [hword]; rfl)] at hun' ⊢
    refine Tag.front?_congr_of_named (.inl rfl) hun' (head?_textOf_narrowAll_of_named hshapes ?_) h
    exact Tag.head?_rest_of_named hun (.inl rfl) h
  case className =>
    rw [narrow_eq_self (by rw [hword]; rfl)] at hun' ⊢
    refine Tag.front?_congr_of_named (.inr rfl) hun' (head?_textOf_narrowAll_of_named hshapes ?_) h
    exact Tag.head?_rest_of_named hun (.inr (.inl rfl)) h
  case comma =>
    have hrest := Tag.head?_rest_of_delimiter (.inl rfl) h
    rw [← head?_textOf_narrowAll hshapes hrest] at hrest
    rw [text_narrow_comma hword hshape] at hun' ⊢
    rw [Kind.eq_comma hword]
    exact Tag.front?_comma hun' hrest
  case combinator =>
    have hrest := Tag.head?_rest_of_delimiter (.inr rfl) h
    have hhead := head?_textOf_narrowAll hshapes hrest
    rcases text_narrow_combinator hword hshape with ⟨hblank, hnarrow⟩ | ⟨before, c, after, _, hc, _, htext, hnarrow⟩
    · rw [hnarrow] at hun' ⊢
      have hsymbol := Tag.head?_rest_of_blanks hblank h
      rw [← hhead] at hrest hsymbol
      rw [Kind.eq_combinator hword]
      exact Tag.front?_combinator hun' (by decide) hrest fun _ => hsymbol
    · rw [hnarrow] at hun' ⊢
      rw [← hhead] at hrest
      rw [Kind.eq_combinator hword]
      exact Tag.front?_combinator hun' (by simp [hc]) hrest fun hblank => by
        simp [Token.isBlank_of_isSymbol hc] at hblank
  all_goals exact absurd htag (by decide)

theorem holds_of_mem_textOf {words : List Word} (h : ∀ word ∈ words, word.tag.Shape word.text)
    (hattr : ∀ word ∈ words, word.tag ≠ .attr) {c : Char} (hc : c ∈ textOf words) :
    ∃ word ∈ words, word.tag.holds c = true := by
  obtain ⟨word, hword, hc⟩ := List.mem_flatMap.mp hc
  exact ⟨word, hword, (h word hword).holds (hattr word hword) c hc⟩

-- A narrowed text ends in a blank only if the text itself does.
theorem getLast?_of_narrowAll {words : List Word} (h : ∀ word ∈ words, word.tag.Shape word.text) {c : Char}
    (hc : (textOf (narrowAll words)).getLast? = some c) (hblank : isBlank c = true) :
    ∃ d, (textOf words).getLast? = some d ∧ isBlank d = true := by
  rcases List.eq_nil_or_concat words with rfl | ⟨words, word, rfl⟩
  · simp at hc
  · have hword := h word (by simp)
    have hnarrow := shape_narrow hword
    simp only [List.concat_eq_append, narrowAll_append, narrowAll_cons, narrowAll_nil, textOf_append, textOf_cons,
      textOf_nil, List.append_nil, List.getLast?_append] at hc ⊢
    rw [List.getLast?_eq_some_getLast hnarrow.ne_nil, Option.some_or] at hc
    rw [List.getLast?_eq_some_getLast hword.ne_nil, Option.some_or]
    refine ⟨_, rfl, ?_⟩
    cases hdelimits : word.tag.delimits with
    | false =>
      have hsame := narrow_eq_self hdelimits
      simp only [hsame, Option.some.injEq] at hc
      rwa [hc]
    | true =>
      obtain ⟨d, htext, _, _, hd⟩ := narrow_of_delimits hdelimits hword
      simp only [htext, List.getLast_singleton, Option.some.injEq] at hc
      subst hc
      rcases hd with ⟨_, hd⟩ | ⟨_, hall⟩
      · simp [hd] at hblank
      · exact hall _ (List.getLast_mem hword.ne_nil)

theorem blank_of_front?_comma {b rest : Text} {kind : Kind Selector} {width : Nat} (hun : Text.Unescaped (b ++ rest))
    (h : Tag.comma.front? (b ++ rest) = some (kind, width)) (hnot : ',' ∉ b) : b.IsBlank ∧ ',' ∈ rest := by
  obtain ⟨taken, more, htext, _, ⟨before, after, hbefore, _, rfl⟩, _⟩ := Tag.exists_shape_of_front? hun h
  rw [List.append_assoc] at htext
  rcases List.append_eq_append_iff.mp htext with ⟨x, rfl, hrest⟩ | ⟨x, rfl, hrest⟩
  · exact ⟨fun c hc => hbefore c (List.mem_append_left _ hc), by simp [hrest]⟩
  · cases x with
    | nil =>
      rw [List.nil_append] at hrest
      exact ⟨by simpa using hbefore, by simp [← hrest]⟩
    | cons c x =>
      obtain ⟨rfl, _⟩ := List.cons.inj hrest
      simp at hnot

-- All of a text of later words is held by tokens of later kinds.
theorem holds_of_mem_narrow (hus : ∀ u ∈ us, u.tag.Shape u.text) (hlater : ∀ u ∈ us, tag.priority < u.tag.priority)
    {c : Char} (hc : c ∈ textOf (narrowAll us)) :
    ∃ later : Tag, tag.priority < later.priority ∧ later.holds c = true := by
  have hattr : ∀ u ∈ narrowAll us, u.tag ≠ .attr := by
    intro u hu heq
    obtain ⟨wide, hwide, rfl⟩ := List.mem_map.mp hu
    have hlt := hlater wide hwide
    rw [tag_narrow] at heq
    rw [heq] at hlt
    exact absurd hlt (Nat.not_lt_zero _)
  obtain ⟨u, hu, hholds⟩ := holds_of_mem_textOf (shape_narrowAll hus) hattr hc
  obtain ⟨wide, hwide, rfl⟩ := List.mem_map.mp hu
  exact ⟨wide.tag, hlater wide hwide, hholds⟩

-- A comma would take the blanks at the end of what it follows, and these are there in the text as
-- it was, too.
theorem comma_front?_eq_none_narrow (hus : ∀ u ∈ us, u.tag.Shape u.text) (hvs : ∀ v ∈ vs, v.tag.Shape v.text)
    (hlater : ∀ u ∈ us, Tag.comma.priority < u.tag.priority) (hnext : ∀ v ∈ vs.head?, v.tag = .comma)
    (hun : (textOf vs).Unescaped)
    (hnone : ∀ a b, textOf us = a ++ b → b ≠ [] → Tag.comma.front? (b ++ textOf vs) = none) {a b : Text}
    (hab : textOf (narrowAll us) = a ++ b) (hb : b ≠ []) (hun' : Text.Unescaped (b ++ textOf (narrowAll vs))) :
    Tag.comma.front? (b ++ textOf (narrowAll vs)) = none := by
  rw [Option.eq_none_iff_forall_ne_some]
  rintro ⟨kind, width⟩ hfront
  have hnot : ',' ∉ b := by
    intro hmem
    obtain ⟨later, hlt, hholds⟩ := holds_of_mem_narrow hus hlater (by rw [hab]; exact List.mem_append_right a hmem)
    revert hlt hholds
    cases later <;> decide
  obtain ⟨hblank, hmem⟩ := blank_of_front?_comma hun' hfront hnot
  have hlast : (textOf (narrowAll us)).getLast? = some (b.getLast hb) := by
    rw [hab, List.getLast?_append, List.getLast?_eq_some_getLast hb, Option.some_or]
  obtain ⟨d, hd, hdblank⟩ := getLast?_of_narrowAll hus hlast (hblank _ (List.getLast_mem hb))
  have hnoned := hnone _ [d] (List.dropLast_append_getLast? d hd).symm (List.cons_ne_nil d [])
  cases vs with
  | nil => simp at hmem
  | cons v vs =>
    have hcomma : v.tag = .comma := hnext v rfl
    have hshape : Tag.comma.Shape v.text := hcomma ▸ hvs v List.mem_cons_self
    have hsome := Tag.front?_comma_isSome hun.of_append_left hshape hdblank (textOf vs)
    rw [← textOf_cons, ← List.singleton_append, hnoned] at hsome
    cases hsome

-- No later word is narrowed, so a combinator among them would have been found before.
theorem combinator_front?_eq_none_narrow (hlater : ∀ u ∈ us, Tag.combinator.priority < u.tag.priority)
    (hnone : ∀ a b, textOf us = a ++ b → b ≠ [] → Tag.combinator.front? (b ++ textOf vs) = none) {a b : Text}
    (hab : textOf (narrowAll us) = a ++ b) (hb : b ≠ []) (hun' : Text.Unescaped (b ++ textOf (narrowAll vs))) :
    Tag.combinator.front? (b ++ textOf (narrowAll vs)) = none := by
  have hself : narrowAll us = us := narrowAll_eq_self fun u hu => by
    have hlt := hlater u hu
    revert hlt
    cases u.tag <;> decide
  rw [hself] at hab
  obtain ⟨c, b, rfl⟩ := List.exists_cons_of_ne_nil hb
  have hnoneb := hnone a (c :: b) hab hb
  rw [Option.eq_none_iff_forall_ne_some]
  rintro ⟨kind, width⟩ hfront
  obtain ⟨taken, rest, htext, _, hshape, _⟩ := Tag.exists_shape_of_front? hun' hfront
  obtain ⟨d, taken, rfl⟩ := List.exists_cons_of_ne_nil hshape.ne_nil
  obtain ⟨rfl, _⟩ := List.cons.inj htext
  have hsingle : Tag.combinator.Shape [c] :=
    ⟨[], c, [], by simp [IsBlank], hshape.opens c rfl, by simp [IsBlank], rfl⟩
  have hsome := Tag.front?_isSome_of_shape (by decide) (unescaped_singleton c) hsingle (b ++ textOf vs)
  rw [List.singleton_append, ← List.cons_append, hnoneb] at hsome
  cases hsome

-- In words of later kinds no token of an earlier kind is found, narrowed or not.
theorem front?_eq_none_narrow (htag : tag.priority ≤ Tag.combinator.priority) (hus : ∀ u ∈ us, u.tag.Shape u.text)
    (hvs : ∀ v ∈ vs, v.tag.Shape v.text) (hlater : ∀ u ∈ us, tag.priority < u.tag.priority)
    (hnext : ∀ v ∈ vs.head?, v.tag = tag) (hun : Text.Unescaped (textOf us ++ textOf vs))
    (hnone : ∀ a b, textOf us = a ++ b → b ≠ [] → tag.front? (b ++ textOf vs) = none) {a b : Text}
    (hab : textOf (narrowAll us) = a ++ b) (hb : b ≠ []) : tag.front? (b ++ textOf (narrowAll vs)) = none := by
  have hshapes : ∀ word ∈ us ++ vs, word.tag.Shape word.text := List.forall_mem_append.mpr ⟨hus, hvs⟩
  have hun' : Text.Unescaped (b ++ textOf (narrowAll vs)) := by
    have hall := unescaped_narrowAll hshapes (by rwa [textOf_append])
    rw [narrowAll_append, textOf_append, hab, List.append_assoc] at hall
    exact hall.of_append_right
  by_cases hsign : tag = .attr ∨ tag = .id ∨ tag = .className
  · obtain ⟨c, b, rfl⟩ := List.exists_cons_of_ne_nil hb
    have hmem : c ∈ textOf (narrowAll us) := by rw [hab]; exact List.mem_append_right a List.mem_cons_self
    obtain ⟨later, hlt, hholds⟩ := holds_of_mem_narrow hus hlater hmem
    exact Tag.front?_eq_none_of_opens hun' (Tag.opens_eq_false_of_holds hsign hlt hholds)
  · by_cases hcomma : tag = .comma
    · subst hcomma
      exact comma_front?_eq_none_narrow hus hvs hlater hnext hun.of_append_right hnone hab hb hun'
    · have hcombinator : tag = .combinator := by
        revert hsign hcomma htag
        cases tag <;> decide
      subst hcombinator
      exact combinator_front?_eq_none_narrow hlater hnone hab hb hun'

end Word

namespace Fragment

open Word

variable {tag : Tag} {tags : List Tag}

private theorem exists_narrow_cutting (htag : tag.priority ≤ Tag.combinator.priority)
    (hlater : ∀ later ∈ tags, tag.priority < later.priority)
    (ih : ∀ {text : Text} {words : List Word}, text.Unescaped → Calm words →
      passes tags [uncut text] = words.map Word.fragment →
      passes tags [uncut (textOf (narrowAll words))] = (narrowAll words).map Word.fragment)
    {text : Text} {fragments : List Fragment} (hcutting : Cutting tag text fragments) {words : List Word}
    (hun : text.Unescaped) (hcalm : Calm words) (h : passes tags fragments = words.map Word.fragment) :
    ∃ narrowed, Cutting tag (textOf (narrowAll words)) narrowed ∧
      passes tags narrowed = (narrowAll words).map Word.fragment ∧
      ((∀ fragment ∈ fragments.head?, fragment.isUncut = false) →
        ∀ fragment ∈ narrowed.head?, fragment.isUncut = false) := by
  induction hcutting generalizing words with
  | nil =>
    obtain rfl : words = [] := by simpa using h.symm
    exact ⟨[], .nil, by simp, by simp⟩
  | @cut kind w rest fragments hfront hrest ihrest =>
    obtain ⟨word, words, rfl, rfl, rfl, hmore⟩ := exists_of_passes_cut_cons h
    have hkind : word.tag = tag := Tag.tag_of_front? hfront
    obtain ⟨narrowed, hcut, hpasses, _⟩ :=
      ihrest hun.of_append_right (Calm.of_append_right (show Calm ([word] ++ words) from hcalm)) hmore
    have hcovered := covered_of_cutting covered_of_passes hrest hun.of_append_right hmore
    have hshapes : ∀ v ∈ words, v.tag.Shape v.text := fun v hv => (hcovered.found v hv).shape
    have hnarrow := front?_narrow (by rwa [hkind]) hshapes (by rwa [hcovered.textOf_eq]) hcalm
      (by rwa [hcovered.textOf_eq, hkind])
    refine ⟨cut word.kind word.narrow.text :: narrowed, ?_, ?_, fun _ => by simp [isUncut]⟩
    · exact .cut (by rwa [← hkind]) hcut
    · rw [passes_cut_cons, hpasses]
      rfl
  | @uncut u rest fragments hne hnone hnext hrest ihrest =>
    obtain ⟨us, vs, rfl, hus, hvs⟩ := exists_of_passes_uncut_cons h
    have hu := covered_of_passes hun.of_append_left hus
    have hv := covered_of_cutting covered_of_passes hrest hun.of_append_right hvs
    obtain ⟨narrowed, hcut, hpasses, hhead⟩ := ihrest hun.of_append_right hcalm.of_append_right hvs
    have hlaterus : ∀ u ∈ us, tag.priority < u.tag.priority := fun u hu' => hlater _ (hu.tag_mem u hu')
    refine ⟨uncut (textOf (narrowAll us)) :: narrowed, ?_, ?_, fun hnot => ?_⟩
    · rw [narrowAll_append, textOf_append]
      refine .uncut ?_ (fun a b hab hb => ?_) (hhead hnext) hcut
      · refine textOf_ne_nil (shape_narrowAll fun u hu' => (hu.found u hu').shape) fun hnil => hne ?_
        rw [← hu.textOf_eq, List.map_eq_nil_iff.mp hnil, textOf_nil]
      · refine front?_eq_none_narrow htag (fun u hu' => (hu.found u hu').shape) (fun v hv' => (hv.found v hv').shape)
          hlaterus (hrest.tag_of_head? hnext hvs) ?_ ?_ hab hb
        · rwa [hu.textOf_eq, hv.textOf_eq]
        · rwa [hu.textOf_eq, hv.textOf_eq]
    · rw [passes_uncut_cons, ih hun.of_append_left (.of_later hlaterus) hus, hpasses, narrowAll_append,
        List.map_append]
    · simp [isUncut] at hnot

-- The words of a text are cut out of the narrowed text in the same way.
theorem passes_narrow (htags : tags.Pairwise fun a b => a.priority < b.priority) {text : Text} {words : List Word}
    (hun : text.Unescaped) (hcalm : Calm words) (h : passes tags [uncut text] = words.map Word.fragment) :
    passes tags [uncut (textOf (narrowAll words))] = (narrowAll words).map Word.fragment := by
  induction tags generalizing text words with
  | nil => exact absurd h (uncut_ne_words text words)
  | cons tag tags ih =>
    obtain ⟨hlater, htags⟩ := List.pairwise_cons.mp htags
    by_cases htag : tag.priority ≤ Tag.combinator.priority
    · have hcutting := cutting_cutOut tag text
      rw [passes_cons_uncut] at h ⊢
      obtain ⟨narrowed, hcut, hpasses, _⟩ := exists_narrow_cutting htag hlater (ih htags) hcutting hun hcalm h
      rw [hcut.cutOut_eq, hpasses]
    · -- Past the combinators no word is a delimiter.
      have hcovered := covered_of_passes hun h
      have hself : narrowAll words = words := narrowAll_eq_self fun word hword => by
        have hpriority : ¬word.tag.priority ≤ Tag.combinator.priority := by
          rcases List.mem_cons.mp (hcovered.tag_mem word hword) with heq | hmem
          · rwa [heq]
          · have hlt := hlater _ hmem
            omega
        revert hpriority
        cases word.tag <;> decide
      rw [hself, hcovered.textOf_eq, h]

end Fragment

end CssSelectors
