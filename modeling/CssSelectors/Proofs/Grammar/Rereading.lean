import CssSelectors.Proofs.Grammar.Front
import CssSelectors.Proofs.Pattern.Extension

namespace CssSelectors

open Pattern Grammar

namespace Pattern

variable {ι : Type}

-- A preferred match that stays within a text is preferred in that text alone, too.
theorem exists_head?_of_extend {p : Pattern ι} {more : Text} {s t : Cursor ι}
    (h : (p.outcomes (s.extend more)).head? = some t) (hwithin : t.within more = true) :
    ∃ t', (p.outcomes s).head? = some t' ∧ t'.extend more = t := by
  obtain ⟨places, hplaces⟩ := List.head?_eq_some_iff.mp h
  have hfilter := filter_outcomes_extend p more s
  rw [hplaces, List.filter_cons_of_pos hwithin] at hfilter
  cases houtcomes : p.outcomes s with
  | nil => simp [houtcomes] at hfilter
  | cons t' others =>
    rw [houtcomes, List.map_cons] at hfilter
    exact ⟨t', rfl, (List.cons.inj hfilter).1.symm⟩

theorem rest_eq_of_offset {p : Pattern ι} {w z : Text} {t : Cursor ι}
    (h : t ∈ p.outcomes (.start (w ++ z))) (hoffset : t.offset = w.length) : t.rest = z := by
  obtain ⟨taken, hrest, hlength⟩ := takes_of_mem_outcomes h
  have htaken : taken.length = w.length := by simpa [Cursor.start, hlength] using hoffset
  exact (List.append_inj hrest htaken.symm).2.symm

-- So a match at the front of a text matches what it takes as a whole.
theorem whole?_of_front? {p : Pattern ι} {w z : Text} {t : Cursor ι}
    (h : p.front? (w ++ z) = some t) (hoffset : t.offset = w.length) :
    p.whole? w = some { t with rest := [] } := by
  rw [front?_eq_head?] at h
  have hrest := rest_eq_of_offset (List.mem_of_head? h) hoffset
  obtain ⟨t', ht', rfl⟩ := exists_head?_of_extend (s := .start w) h (by simp [Cursor.within, hrest])
  have hnil : t'.rest = [] := by simpa [Cursor.extend] using hrest
  obtain ⟨others, hothers⟩ := List.head?_eq_some_iff.mp ht'
  rw [whole?_eq_find?, hothers, List.find?_cons_of_pos (by simp [hnil])]
  cases t'
  simp_all [Cursor.extend]

end Pattern

namespace Grammar

theorem parens_ne_nil (argument : Pattern Field) (s : Cursor Field) : (parens argument).outcomes s ≠ [] := by
  simp [parens, perhaps, outcomes]

-- A whole argument is found whichever pattern accepts its characters, the last paren being the
-- one that closes it.
theorem find?_parens (accepts : Char → Bool) {s : Cursor Field} {body : Text}
    (hrest : s.rest = '(' :: body ++ [')']) (hne : body ≠ []) (hall : ∀ c ∈ body, accepts c = true) :
    ((parens (oneOrMore .greedy (char accepts))).outcomes s).find? (·.rest.isEmpty) =
      some ((((s.skip 1).skip body.length).note .argument (s.skip 1).offset).skip 1) := by
  obtain ⟨n, hn⟩ : ∃ n, body.length = n + 1 :=
    ⟨body.length - 1, by have := List.length_pos_iff.mpr hne; omega⟩
  have hskip : (s.skip 1).rest = body ++ [')'] := by simp [hrest]
  have hrun : (s.skip 1).rest.takeWhile accepts = if accepts ')' then body ++ [')'] else body := by
    rw [hskip, List.takeWhile_append_of_pos hall]
    cases h : accepts ')' <;> simp [h]
  have hclosing : ∀ t : Cursor Field, t.rest = [')'] → (lit ')').outcomes t = [t.skip 1] :=
    fun t ht => by simp [lit, outcomes_char_cons ht]
  have hend : ∀ t : Cursor Field, t.rest = [] → (lit ')').outcomes t = [] :=
    fun t ht => by simp [lit, outcomes_char_nil ht]
  have hlast : (((s.skip 1).skip (n + 1)).note .argument (s.skip 1).offset).rest = [')'] := by
    rw [Cursor.note_rest, Cursor.skip_rest, hskip, ← hn, List.drop_left]
  have hpast : (((s.skip 1).skip (n + 1 + 1)).note .argument (s.skip 1).offset).rest = [] := by
    rw [Cursor.note_rest, Cursor.skip_rest, hskip]
    exact List.drop_eq_nil_of_le (by simp [hn])
  have hempty : ((((s.skip 1).skip (n + 1)).note .argument (s.skip 1).offset).skip 1).rest.isEmpty = true := by
    rw [Cursor.skip_rest, hlast]
    rfl
  have hopening : (lit '(').outcomes s = [s.skip 1] := by simp [lit, outcomes_char_cons hrest]
  rw [parens, perhaps, outcomes, List.find?_append, outcomes_append, outcomes_append, hopening]
  simp only [List.flatMap_cons, List.flatMap_nil, List.append_nil, outcomes, outcomes_oneOrMore_greedy, hrun]
  cases h : accepts ')' with
  | false =>
    simp only [Bool.false_eq_true, if_false, hn, List.range_succ, List.map_append, List.map_cons,
      List.map_nil, List.reverse_append, List.reverse_cons, List.reverse_nil, List.nil_append,
      List.cons_append, List.flatMap_cons, hclosing _ hlast, List.find?_cons, hempty, Option.some_or]
  | true =>
    simp only [if_true, List.length_append, List.length_cons, List.length_nil, Nat.zero_add, hn,
      List.range_succ, List.map_append, List.map_cons, List.map_nil, List.reverse_append,
      List.reverse_cons, List.reverse_nil, List.nil_append, List.cons_append, List.flatMap_cons,
      hclosing _ hlast, hend _ hpast, List.find?_cons, hempty, Option.some_or]

-- Once it is in sight, an argument is found where it was found while it was hidden.
theorem whole?_plain_of_front? {base : Pattern Field} {w z : Text} {t : Cursor Field}
    (h : (base ++ parens coveredArgument).front? (w ++ z) = some t) (hoffset : t.offset = w.length) :
    (base ++ parens plainArgument).whole? w = some { t with rest := [] } := by
  rw [front?_eq_head?] at h
  have hrest := rest_eq_of_offset (List.mem_of_head? h) hoffset
  rw [head?_append_of_total (parens_ne_nil _), Option.bind_eq_some_iff] at h
  obtain ⟨u, hu, ht⟩ := h
  have hle : z.length ≤ u.rest.length := hrest ▸ length_rest_le (List.mem_of_head? ht)
  obtain ⟨u, hbase, rfl⟩ := exists_head?_of_extend (s := .start w) hu (by simpa [Cursor.within] using hle)
  obtain ⟨t, hparens, rfl⟩ := exists_head?_of_extend ht (by simp [Cursor.within, hrest])
  have hnil : t.rest = [] := by simpa [Cursor.extend] using hrest
  have hfind : ((parens plainArgument).outcomes u).find? (·.rest.isEmpty) = some t := by
    obtain ⟨taken, htaken, _, hmatches⟩ := takesIn_of_mem_outcomes (List.mem_of_head? hparens)
    obtain ⟨others, hothers⟩ := List.head?_eq_some_iff.mp hparens
    have hcovered : ((parens coveredArgument).outcomes u).find? (·.rest.isEmpty) = some t := by
      rw [hothers, List.find?_cons_of_pos (by simp [hnil])]
    rw [hnil, List.append_nil] at htaken
    rcases matches_parens.mp hmatches with rfl | ⟨body, hne, hall, rfl⟩
    · have hnone : (lit '(').outcomes u = [] := by simp [lit, outcomes_char_nil htaken]
      rw [parens, perhaps, outcomes, outcomes_append, outcomes_append, hnone] at hcovered ⊢
      exact hcovered
    · have hexplicit := find?_parens (· == Cover.group.char) htaken hne (by simpa using hall)
      rw [plainArgument, find?_parens _ htaken hne fun _ _ => rfl, ← hexplicit]
      exact hcovered
  obtain ⟨others, hothers⟩ := List.head?_eq_some_iff.mp hbase
  rw [whole?_eq_find?, outcomes_append, hothers, List.flatMap_cons, List.find?_append, hfind]
  cases t
  simp_all [Cursor.extend]

end Grammar

theorem Text.slice_append_left {w z : Text} {start stop : Nat} (h : stop ≤ w.length) :
    Text.slice (w ++ z) start stop = Text.slice w start stop := by
  unfold Text.slice
  by_cases hstart : start ≤ w.length
  · rw [List.drop_append_of_le_length hstart, List.take_append_of_le_length (by simp; omega)]
  · have hzero : stop - start = 0 := by omega
    simp [hzero]

namespace Tag

-- The fields of a match depend on the text that it takes alone.
theorem kindAt?_append {tag : Tag} {p : Pattern Field} {w z : Text} {t : Cursor Field}
    (h : t ∈ p.outcomes (.start (w ++ z))) (hoffset : t.offset = w.length) :
    tag.kindAt? (w ++ z) t = tag.kindAt? w { t with rest := [] } := by
  have hread : (fun field => (t.span? field).map (·.of (w ++ z))) =
      fun field => (t.span? field).map (·.of w) := by
    funext field
    cases hspan : t.span? field with
    | none => rfl
    | some span =>
      have hstop := (stop_le_of_span? h hspan).2
      simp only [Option.map_some, Span.of, Text.slice_append_left (hoffset ▸ hstop)]
  unfold kindAt?
  rw [hread]
  rfl

-- A token that is found at the front of a text says the same when its text is read alone.
theorem read?_of_front? {tag : Tag} {w z : Text} {kind : Kind Selector}
    (h : tag.front? (w ++ z) = some (kind, w.length)) : tag.read? w = some kind := by
  obtain ⟨t, ht, hkind, hoffset⟩ := front?_eq_some_iff.mp h
  rw [kindAt?_append (mem_outcomes_of_front? ht) hoffset] at hkind
  have hwhole : (pattern plainArgument tag).whole? w = some { t with rest := [] } := by
    cases tag with
    | pseudoElement | pseudoClass => exact whole?_plain_of_front? ht hoffset
    | attr | id | className | comma | combinator | universal | typeName => exact whole?_of_front? ht hoffset
  simp [read?, hwhole, hkind]

end Tag

end CssSelectors
