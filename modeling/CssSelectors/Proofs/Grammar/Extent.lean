import CssSelectors.Proofs.Grammar.Ends
import CssSelectors.Proofs.Grammar.Rereading

namespace CssSelectors

open Unicode Pattern Grammar Text

-- A stretch of covers runs across the point where two texts meet.
def CoversAt (u v : Text) : Prop := ∃ a ∈ u.getLast?, ∃ b ∈ v.head?, isCover a = true ∧ isCover b = true

theorem head?_drop_takeWhile {accepts : Char → Bool} {text : Text} :
    ∀ c ∈ (text.drop (text.takeWhile accepts).length).head?, accepts c = false := by
  intro c hc
  have hdrop : text.drop (text.takeWhile accepts).length = text.dropWhile accepts := by
    have hsplit : text.takeWhile accepts ++ text.dropWhile accepts = text := List.takeWhile_append_dropWhile
    calc text.drop (text.takeWhile accepts).length
        = (text.takeWhile accepts ++ text.dropWhile accepts).drop (text.takeWhile accepts).length := by rw [hsplit]
      _ = text.dropWhile accepts := List.drop_left
  have hhead := List.head?_dropWhile_not accepts text
  rw [← hdrop, Option.mem_def.mp hc] at hhead
  exact hhead

namespace Grammar

-- After a name there is no further character of a name.
theorem head?_rest_of_name {s t : Cursor Field} (h : s.rest.Unescaped) (ht : (name.outcomes s).head? = some t) :
    ∀ c ∈ t.rest.head?, isNameChar c = false := by
  rw [head?_outcomes_name h] at ht
  split at ht
  case isTrue => simp at ht
  case isFalse =>
    obtain rfl := Option.some.inj ht
    exact head?_drop_takeWhile

theorem blanks_ne_nil (s : Cursor Field) : blanks.outcomes s ≠ [] := by
  intro hnil
  have hhead := head?_outcomes_many_greedy isBlank s
  rw [← blanks, hnil] at hhead
  simp at hhead

-- Blanks are taken as far as they go.
theorem head?_outcomes_append_blanks {p : Pattern Field} {s t : Cursor Field}
    (h : ((p ++ blanks).outcomes s).head? = some t) : ∀ c ∈ t.rest.head?, isBlank c = false := by
  rw [head?_append_of_total blanks_ne_nil, Option.bind_eq_some_iff] at h
  obtain ⟨u, _, hu⟩ := h
  rw [blanks, head?_outcomes_many_greedy] at hu
  obtain rfl := Option.some.inj hu
  exact head?_drop_takeWhile

end Grammar

namespace Tag

variable {tag : Tag} {w rest : Text} {kind : Kind Selector}

-- The match behind a token at the front of a text.
theorem exists_cursor_of_front? (h : tag.front? (w ++ rest) = some (kind, w.length)) :
    ∃ t, ((pattern coveredArgument tag).outcomes (.start (w ++ rest))).head? = some t ∧ t.rest = rest := by
  obtain ⟨t, ht, _, hoffset⟩ := front?_eq_some_iff.mp h
  refine ⟨t, by rw [← front?_eq_head?, ht], ?_⟩
  exact rest_eq_of_offset (mem_outcomes_of_front? ht) hoffset

theorem matches_of_front? (h : tag.front? (w ++ rest) = some (kind, w.length)) :
    (pattern coveredArgument tag).Matches w := by
  obtain ⟨taken, rest', htext, hlength, hmatches, _⟩ := exists_of_front? h
  obtain ⟨rfl, _⟩ := List.append_inj htext hlength.symm
  exact hmatches

theorem shape_of_front? (hun : w.Unescaped) (h : tag.front? (w ++ rest) = some (kind, w.length)) :
    tag.Shape w :=
  shape_of_matches hun (matches_of_front? h)

theorem exists_shape_of_front? {text : Text} {kind : Kind Selector} {width : Nat} (hun : text.Unescaped)
    (h : tag.front? text = some (kind, width)) :
    ∃ taken rest, text = taken ++ rest ∧ taken.length = width ∧ tag.Shape taken ∧ kind.tag = tag := by
  obtain ⟨taken, rest, rfl, hlength, hmatches, hkind⟩ := exists_of_front? h
  exact ⟨taken, rest, rfl, hlength, shape_of_matches hun.of_append_left hmatches, hkind⟩

theorem front?_isSome_of_shape {w : Text} (hattr : tag ≠ attr) (hun : w.Unescaped) (h : tag.Shape w) (rest : Text) :
    (tag.front? (w ++ rest)).isSome = true :=
  front?_isSome_iff.mpr ⟨w, rest, rfl, matches_of_shape hun hattr h⟩

theorem front?_eq_none_of_opens {c : Char} (hun : Text.Unescaped (c :: rest)) (h : tag.opens c = false) :
    tag.front? (c :: rest) = none := by
  rw [Option.eq_none_iff_forall_ne_some]
  rintro ⟨kind, width⟩ hfront
  obtain ⟨taken, rest', htext, _, hshape, _⟩ := exists_shape_of_front? hun hfront
  obtain ⟨d, taken, rfl⟩ := List.exists_cons_of_ne_nil hshape.ne_nil
  obtain ⟨rfl, _⟩ := List.cons.inj htext
  simp [hshape.opens c rfl] at h

theorem front?_eq_none_of_forall_opens {text : Text} (hun : text.Unescaped) (h : ∀ c ∈ text, tag.opens c = false)
    {a b : Text} (hab : text = a ++ b) (hb : b ≠ []) : tag.front? b = none := by
  obtain ⟨c, b, rfl⟩ := List.exists_cons_of_ne_nil hb
  exact front?_eq_none_of_opens (hab ▸ hun).of_append_right (h c (by simp [hab]))

-- Where two texts go on from the same token, a match in the second that stays within the token is
-- the token.
theorem front?_congr_of_within {rest' : Text} {kind' : Kind Selector} {width : Nat}
    (h : tag.front? (w ++ rest) = some (kind, w.length)) (h' : tag.front? (w ++ rest') = some (kind', width))
    (hle : width ≤ w.length) : tag.front? (w ++ rest') = some (kind, w.length) := by
  obtain ⟨t, ht, hrest⟩ := exists_cursor_of_front? h
  obtain ⟨t', ht', hkind', hoffset'⟩ := front?_eq_some_iff.mp h'
  rw [front?_eq_head?] at ht'
  have hwithin' : t'.within rest' = true := by
    obtain ⟨taken, htaken, hoffset⟩ := takes_of_mem_outcomes (List.mem_of_head? ht')
    have hlength := congrArg List.length (show w ++ rest' = taken ++ t'.rest from htaken)
    simp only [List.length_append] at hlength
    have hoffset : t'.offset = 0 + taken.length := hoffset
    simp only [Cursor.within, decide_eq_true_eq]
    omega
  obtain ⟨u, hu, rfl⟩ := exists_head?_of_extend (s := .start w) ht (by simp [Cursor.within, hrest])
  obtain ⟨u', hu', rfl⟩ := exists_head?_of_extend (s := .start w) ht' hwithin'
  obtain rfl : u = u' := Option.some.inj (hu.symm.trans hu')
  have hnil : u.rest = [] := by simpa [Cursor.extend] using hrest
  obtain ⟨taken, htaken, hoffset⟩ := takes_of_mem_outcomes (List.mem_of_head? hu)
  have htaken : w = taken ++ u.rest := htaken
  rw [hnil, List.append_nil] at htaken
  have hwidth : width = w.length := by
    rw [← hoffset', htaken]
    simpa [Cursor.extend, Cursor.start] using hoffset
  rw [hwidth] at h'
  have hsame := (read?_of_front? h').symm.trans (read?_of_front? h)
  rw [h', Option.some.inj hsame]

-- A token whose text ends in a name ends where the name does.
theorem head?_rest_of_named (hun : Text.Unescaped (w ++ rest)) (htag : tag = id ∨ tag = className ∨ tag = typeName)
    (h : tag.front? (w ++ rest) = some (kind, w.length)) : ∀ c ∈ rest.head?, isNameChar c = false := by
  obtain ⟨t, ht, rfl⟩ := exists_cursor_of_front? h
  have hname : ∀ p : Pattern Field, ((p ++ name).outcomes (.start (w ++ t.rest))).head? = some t →
      ∀ c ∈ t.rest.head?, isNameChar c = false := by
    intro p hp
    obtain ⟨u, hu, hut⟩ := exists_of_head?_append hp
    obtain ⟨taken, hrest, _⟩ := takes_of_mem_outcomes hu
    have hu : u.rest.Unescaped := Text.Unescaped.of_append_right (u := taken) (hrest ▸ hun)
    exact head?_rest_of_name hu hut
  rcases htag with rfl | rfl | rfl
  · exact hname _ ht
  · exact hname _ ht
  · exact hname _ ht

-- A pseudo-class or pseudo-element ends where its name does, too, or else with a paren.
theorem head?_rest_of_pseudo (hun : Text.Unescaped (w ++ rest)) (htag : tag = pseudoElement ∨ tag = pseudoClass)
    (h : tag.front? (w ++ rest) = some (kind, w.length)) :
    w.getLast? = some ')' ∨ ∀ c ∈ rest.head?, isNameChar c = false := by
  obtain ⟨t, ht, rfl⟩ := exists_cursor_of_front? h
  have hend : ∀ p : Pattern Field,
      (((p ++ name) ++ parens coveredArgument).outcomes (.start (w ++ t.rest))).head? = some t →
      w.getLast? = some ')' ∨ ∀ c ∈ t.rest.head?, isNameChar c = false := by
    intro p hp
    rw [head?_append_of_total (parens_ne_nil _), Option.bind_eq_some_iff] at hp
    obtain ⟨v, hv, hvt⟩ := hp
    obtain ⟨u, hu, huv⟩ := exists_of_head?_append hv
    obtain ⟨first, hfirst, _⟩ := takes_of_mem_outcomes hu
    obtain ⟨second, hsecond, _⟩ := takes_of_mem_outcomes (List.mem_of_head? huv)
    obtain ⟨third, hthird, _, hgroup⟩ := takesIn_of_mem_outcomes (List.mem_of_head? hvt)
    have hu : u.rest.Unescaped := Text.Unescaped.of_append_right (u := first) (hfirst ▸ hun)
    rcases matches_parens.mp hgroup with rfl | ⟨body, _, _, rfl⟩
    · rw [List.nil_append] at hthird
      exact .inr (hthird ▸ head?_rest_of_name hu huv)
    · have hw : w = first ++ (second ++ ('(' :: body ++ [')'])) := by
        have htext : w ++ t.rest = first ++ (second ++ ('(' :: body ++ [')'] ++ t.rest)) := by
          rw [← hthird, ← hsecond]
          exact hfirst
        rw [← List.append_assoc, ← List.append_assoc] at htext
        rw [← List.append_assoc]
        exact List.append_cancel_right htext
      left
      rw [hw, ← List.append_assoc, ← List.append_assoc, List.getLast?_concat]
  rcases htag with rfl | rfl
  · exact hend _ ht
  · exact hend _ ht

theorem head?_rest_of_delimiter (htag : tag = comma ∨ tag = combinator)
    (h : tag.front? (w ++ rest) = some (kind, w.length)) : ∀ c ∈ rest.head?, isBlank c = false := by
  obtain ⟨t, ht, rfl⟩ := exists_cursor_of_front? h
  rcases htag with rfl | rfl
  · exact head?_outcomes_append_blanks ht
  · exact head?_outcomes_append_blanks ht

-- No token ends within a stretch of covers.
theorem not_coversAt_of_front? (hun : Text.Unescaped (w ++ rest))
    (h : tag.front? (w ++ rest) = some (kind, w.length)) : ¬CoversAt w rest := by
  rintro ⟨a, ha, b, hb, hacover, hbcover⟩
  have hbname := isNameChar_of_isCover hbcover
  have hclose := (shape_of_front? hun.of_append_left h).closes a ha
  rcases (of_closes hclose).2.2 hacover with htag | htag
  · simp [head?_rest_of_named hun htag h b hb] at hbname
  · rcases head?_rest_of_pseudo hun htag h with hparen | hrest
    · obtain rfl : ')' = a := Option.some.inj (hparen.symm.trans ha)
      simp [isCover, Cover.char] at hacover
    · simp [hrest b hb] at hbname

-- A namespace that begins in a name goes on to the left as far as the name does.
private theorem isNs_cons {a : Char} {ns : Text} (ha : isNameChar a = true) (h : IsNs ns) (hne : ns ≠ [])
    (hstar : ns.head? ≠ some '*') : IsNs (a :: ns) := by
  rcases h with rfl | ⟨body, rfl | hrun, rfl⟩
  · exact absurd rfl hne
  · exact absurd rfl hstar
  · exact .inr ⟨a :: body, .inr (List.forall_mem_cons.mpr ⟨ha, hrun⟩), rfl⟩

private theorem shape_cons {a b : Char} {text : Text} (hacover : isCover a = true) (hbcover : isCover b = true)
    (hb : text.head? = some b) (htag : tag = universal ∨ tag = typeName) (h : tag.Shape text) :
    tag.Shape (a :: text) := by
  have ha := isNameChar_of_isCover hacover
  have hstar : ∀ more, text ≠ '*' :: more := by
    rintro more rfl
    obtain rfl : '*' = b := Option.some.inj hb
    simp [isCover, Cover.char] at hbcover
  rcases htag with rfl | rfl
  · obtain ⟨ns, hns, rfl⟩ := h
    cases ns with
    | nil => exact absurd rfl (hstar [])
    | cons c ns =>
      refine ⟨a :: c :: ns, isNs_cons ha hns (List.cons_ne_nil c ns) ?_, rfl⟩
      rintro hc
      exact hstar (ns ++ ['*']) (by rw [Option.some.inj hc, List.cons_append])
  · obtain ⟨ns, run, hns, hne, hrun, rfl⟩ := h
    cases ns with
    | nil => exact ⟨[], a :: run, .inl rfl, List.cons_ne_nil a run, List.forall_mem_cons.mpr ⟨ha, hrun⟩, rfl⟩
    | cons c ns =>
      refine ⟨a :: c :: ns, run, isNs_cons ha hns (List.cons_ne_nil c ns) ?_, hne, hrun, rfl⟩
      rintro hc
      exact hstar (ns ++ run) (by rw [Option.some.inj hc, List.cons_append])

-- No token begins within a stretch of covers, since it could as well begin before.
theorem front?_isSome_of_coversAt {u z : Text} (hun : Text.Unescaped (u ++ z)) (hcovers : CoversAt u z)
    (h : (tag.front? z).isSome) : ∃ a, u.getLast? = some a ∧ (tag.front? (a :: z)).isSome := by
  obtain ⟨a, ha, b, hb, hacover, hbcover⟩ := hcovers
  refine ⟨a, ha, ?_⟩
  obtain ⟨u, rfl⟩ : ∃ u', u = u' ++ [a] := ⟨u.dropLast, (List.dropLast_append_getLast? a ha).symm⟩
  rw [List.append_assoc] at hun
  obtain ⟨taken, rest, rfl, hmatches⟩ := front?_isSome_iff.mp h
  have haun : Text.Unescaped (a :: taken) := (hun.of_append_right (v := a :: taken ++ rest)).of_append_left
  have hshape := shape_of_matches haun.of_cons hmatches
  have hhead : b ∈ taken.head? := by
    obtain ⟨c, taken, rfl⟩ := List.exists_cons_of_ne_nil hshape.ne_nil
    exact hb
  have htag := (of_opens (hshape.opens b hhead)).2.2.2 hbcover
  have hattr : tag ≠ attr := by rcases htag with rfl | rfl <;> decide
  exact front?_isSome_iff.mpr
    ⟨a :: taken, rest, rfl, matches_of_shape haun hattr (shape_cons hacover hbcover hhead htag hshape)⟩

end Tag

end CssSelectors
