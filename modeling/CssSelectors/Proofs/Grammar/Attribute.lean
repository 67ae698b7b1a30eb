import CssSelectors.Proofs.Grammar.Extent

namespace CssSelectors

open Unicode Pattern Grammar

namespace Pattern

variable {ι : Type} {z z' : Text}

-- A pattern that cannot leave a text does not see what follows it.
theorem outcomes_extend_of_within {p : Pattern ι} {s : Cursor ι}
    (h : ∀ taken rest, s.rest ++ z = taken ++ rest → p.Matches taken → taken.length ≤ s.rest.length) :
    p.outcomes (s.extend z) = (p.outcomes s).map (Cursor.extend z) := by
  rw [← filter_outcomes_extend, List.filter_eq_self.mpr]
  intro t ht
  obtain ⟨taken, hrest, _, hmatches⟩ := takesIn_of_mem_outcomes ht
  have hrest : s.rest ++ z = taken ++ t.rest := hrest
  have hle := h taken t.rest hrest hmatches
  have hlength := congrArg List.length hrest
  simp only [List.length_append] at hlength
  simp only [Cursor.within, decide_eq_true_eq]
  omega

-- The preferred match in a text that goes on in either of two ways: it is the same, or there is
-- none, or in the first it leaves the text.
inductive Alike (z z' : Text) : Option (Cursor ι) → Option (Cursor ι) → Prop
  | same (t : Cursor ι) : Alike z z' (some (t.extend z)) (some (t.extend z'))
  | none : Alike z z' none none
  | beyond {t : Cursor ι} (h : t.within z = false) (x : Option (Cursor ι)) : Alike z z' (some t) x

theorem Alike.or {x x' y y' : Option (Cursor ι)} (hx : Alike z z' x x') (hy : Alike z z' y y') :
    Alike z z' (x.or y) (x'.or y') := by
  cases hx with
  | same t => exact .same t
  | none => exact hy
  | beyond h x => exact .beyond h _

theorem Alike.head? {places places' : List (Cursor ι)} {inner : List (Cursor ι)}
    (h : places = inner.map (Cursor.extend z)) (h' : places' = inner.map (Cursor.extend z')) :
    Alike z z' places.head? places'.head? := by
  subst h h'
  cases inner with
  | nil => exact .none
  | cons t inner => exact .same t

theorem Alike.append {p q : Pattern ι} {s : Cursor ι} (h : p.outcomes (s.extend z) = (p.outcomes s).map (Cursor.extend z))
    (h' : p.outcomes (s.extend z') = (p.outcomes s).map (Cursor.extend z'))
    (hq : ∀ t ∈ p.outcomes s, Alike z z' (q.outcomes (t.extend z)).head? (q.outcomes (t.extend z')).head?) :
    Alike z z' ((p ++ q).outcomes (s.extend z)).head? ((p ++ q).outcomes (s.extend z')).head? := by
  rw [outcomes_append, outcomes_append, h, h']
  generalize p.outcomes s = places at hq
  induction places with
  | nil => exact .none
  | cons t places ih =>
    obtain ⟨ht, hplaces⟩ := List.forall_mem_cons.mp hq
    simp only [List.map_cons, List.flatMap_cons, List.head?_append]
    exact ht.or (ih hplaces)

end Pattern

namespace Grammar

variable {z z' : Text}

-- What is left of an attribute ends in the bracket.
def Closed (s : Cursor Field) : Prop := ∃ r, s.rest = r ++ [']']

theorem Closed.of_takes {s t : Cursor Field} (h : Closed s) (htakes : Takes s t) (hne : t.rest ≠ []) : Closed t := by
  obtain ⟨r, hrest⟩ := h
  obtain ⟨taken, htaken, _⟩ := htakes
  obtain ⟨r', c, hr'⟩ := (List.eq_nil_or_concat t.rest).resolve_left hne
  rw [List.concat_eq_append] at hr'
  refine ⟨r', ?_⟩
  rw [hrest, hr', ← List.append_assoc] at htaken
  obtain ⟨_, hc⟩ := List.append_inj' htaken rfl
  rw [hr', hc]

-- What cannot take the bracket stays before it.
theorem length_lt_of_avoids {s : Cursor Field} (h : Closed s) {taken rest : Text} (hrest : s.rest ++ z = taken ++ rest)
    (havoids : ']' ∉ taken) : taken.length < s.rest.length := by
  obtain ⟨r, hr⟩ := h
  by_contra hlong
  have hfront : s.rest <+: taken ++ rest := ⟨z, hrest⟩
  have hlength : s.rest.length ≤ taken.length := by omega
  have hwithin : s.rest <+: taken := List.prefix_of_prefix_length_le hfront (List.prefix_append taken rest) hlength
  exact havoids (hwithin.subset (by simp [hr]))

theorem stays {p : Pattern Field} {s : Cursor Field} (h : Closed s)
    (hshort : ∀ z : Text, z.head? ≠ some '=' → ∀ taken rest, s.rest ++ z = taken ++ rest → p.Matches taken →
      taken.length < s.rest.length) :
    (∀ z : Text, z.head? ≠ some '=' → p.outcomes (s.extend z) = (p.outcomes s).map (Cursor.extend z)) ∧
      ∀ t ∈ p.outcomes s, Closed t := by
  refine ⟨fun z hz => outcomes_extend_of_within fun taken rest hrest hmatches => ?_, fun t ht => ?_⟩
  · have hlt := hshort z hz taken rest hrest hmatches
    omega
  · obtain ⟨taken, hrest, hoffset, hmatches⟩ := takesIn_of_mem_outcomes ht
    refine h.of_takes ⟨taken, hrest, hoffset⟩ ?_
    have hlt := hshort [] (by simp) taken t.rest (by simp [hrest]) hmatches
    rw [hrest, List.length_append] at hlt
    exact List.length_pos_iff.mp (by omega)

theorem stays_blanks {s : Cursor Field} (h : Closed s) :
    (∀ z : Text, z.head? ≠ some '=' → blanks.outcomes (s.extend z) = (blanks.outcomes s).map (Cursor.extend z)) ∧
      ∀ t ∈ blanks.outcomes s, Closed t :=
  stays h fun z _ taken rest hrest hmatches => length_lt_of_avoids h hrest fun hmem => by
    have hblank := matches_blanks.mp hmatches ']' hmem
    revert hblank
    decide

theorem stays_operator {s : Cursor Field} (h : Closed s) :
    (∀ z : Text, z.head? ≠ some '=' → operator.outcomes (s.extend z) = (operator.outcomes s).map (Cursor.extend z)) ∧
      ∀ t ∈ operator.outcomes s, Closed t := by
  refine stays h fun z hz taken rest hrest hmatches => ?_
  obtain ⟨r, hr⟩ := h
  rw [hr] at hrest ⊢
  obtain ⟨lead, _, rfl, hlead, hequals⟩ := hmatches
  obtain rfl := matches_lit.mp hequals
  rcases matches_perhaps.mp hlead with ⟨c, _, rfl⟩ | rfl
  · match r with
    | [] =>
      cases z with
      | nil => simp at hrest
      | cons d z => simp_all
    | [a] => simp at hrest
    | a :: b :: r => simp
  · cases r with
    | nil => simp at hrest
    | cons a r => simp

-- What may stand between the value of an attribute and its end.
def closing : Pattern Field := blanks ++ (caseFlag ++ (blanks ++ lit ']'))

-- What may stand between the name of an attribute, with the blanks after it, and its end.
def ending : Pattern Field := perhaps comparison ++ lit ']'

theorem outcomes_ending (s : Cursor Field) :
    ending.outcomes s = ((operator ++ blanks) ++ (value ++ closing)).outcomes s ++ (lit ']').outcomes s := by
  rw [ending, outcomes_append, perhaps, outcomes, List.flatMap_append]
  simp only [comparison, closing, outcomes_append, List.flatMap_assoc, outcomes, List.flatMap_cons, List.flatMap_nil,
    List.append_nil]
  rfl

theorem matches_closing {text : Text} (h : closing.Matches text) :
    ∃ x, (∀ c ∈ x, c ≠ '[' ∧ c ≠ ']') ∧ text = x ++ [']'] := by
  obtain ⟨before, _, rfl, hbefore, flag, _, rfl, hflag, after, _, rfl, hafter, hbracket⟩ := h
  obtain rfl := matches_lit.mp hbracket
  have hblank {c : Char} (hc : isBlank c = true) : c ≠ '[' ∧ c ≠ ']' := by
    constructor <;> rintro rfl <;> revert hc <;> decide
  have hflag : ∀ c ∈ flag, c ≠ '[' ∧ c ≠ ']' := by
    rcases matches_perhaps.mp hflag with ⟨_, _, rfl, ⟨b, hb, rfl⟩, c, hc, rfl⟩ | rfl
    · have hc : c ≠ '[' ∧ c ≠ ']' := by
        constructor <;> rintro rfl <;> revert hc <;> decide
      simpa using ⟨hblank hb, hc⟩
    · simp
  refine ⟨before ++ flag ++ after, fun c hc => ?_, by simp⟩
  simp only [List.mem_append] at hc
  rcases hc with (hc | hc) | hc
  · exact hblank (matches_blanks.mp hbefore c hc)
  · exact hflag c hc
  · exact hblank (matches_blanks.mp hafter c hc)

theorem outcomes_closing_extend {s : Cursor Field} (h : Closed s) (z : Text) :
    closing.outcomes (s.extend z) = (closing.outcomes s).map (Cursor.extend z) := by
  refine outcomes_extend_of_within fun taken rest hrest hmatches => ?_
  obtain ⟨x, hx, rfl⟩ := matches_closing hmatches
  rw [List.append_assoc] at hrest
  have hlt := length_lt_of_avoids h hrest fun hmem => (hx _ hmem).2 rfl
  simp only [List.length_append, List.length_singleton]
  omega

theorem matches_closing_bracket : closing.Matches [']'] := by
  have hblanks : blanks.Matches [] := matches_blanks.mpr (by simp [Text.IsBlank])
  exact ⟨[], [']'], rfl, hblanks, [], [']'], rfl, .inr rfl, [], [']'], rfl, hblanks, matches_lit.mpr rfl⟩

-- A bracket that is left closes.
theorem outcomes_closing_ne_nil {s : Cursor Field} {rest : Text} (h : s.rest = ']' :: rest) : closing.outcomes s ≠ [] := by
  obtain ⟨t, ht, _⟩ := exists_mem_outcomes_of_matches matches_closing_bracket (show s.rest = [']'] ++ rest from h)
  exact List.ne_nil_of_mem ht

-- A value is anything on one line.
theorem matches_value {text : Text} : value.Matches text ↔ text ≠ [] ∧ '\n' ∉ text := by
  have hvalue : value.Matches text ↔ text ≠ [] ∧ ∀ c ∈ text, (c != '\n') = true := matches_oneOrMore_char
  simpa [List.forall_mem_ne'] using hvalue

theorem outcomes_value (s : Cursor Field) : value.outcomes s =
    (List.range (s.rest.takeWhile (· != '\n')).length).map fun k => (s.skip (k + 1)).note .value s.offset := by
  rw [value, outcomes, outcomes_oneOrMore_modest, List.map_map]
  rfl

-- A value that has begun can come to an end in a text.
def ReachesEnd (z : Text) : Prop := ∃ more x rest, z = more ++ x ++ rest ∧ '\n' ∉ more ∧ closing.Matches x

theorem mem_of_reachesEnd (h : ReachesEnd z) : ']' ∈ z := by
  obtain ⟨more, _, rest, rfl, _, hx⟩ := h
  obtain ⟨x, _, rfl⟩ := matches_closing hx
  simp

-- On one line every bracket is an end.
theorem reachesEnd_of_mem (hline : '\n' ∉ z) (h : ']' ∈ z) : ReachesEnd z := by
  obtain ⟨before, after, rfl⟩ := List.append_of_mem h
  exact ⟨before, [']'], after, by simp, fun hc => hline (List.mem_append_left _ hc), matches_closing_bracket⟩

-- A value that begins with the last bracket has to leave the text, and can where another end
-- comes into sight behind it.
private theorem alike_value_bracket {s : Cursor Field} (hs : s.rest = [']']) (hend : ReachesEnd z' → ReachesEnd z) :
    Alike z z' ((value ++ closing).outcomes (s.extend z)).head? ((value ++ closing).outcomes (s.extend z')).head? := by
  have hbeyond : ∀ z, ∀ t ∈ (value ++ closing).outcomes (s.extend z), t.within z = false ∧ ReachesEnd z := by
    intro z t ht
    obtain ⟨taken, hrest, _, v, w, rfl, hv, hw⟩ := takesIn_of_mem_outcomes ht
    obtain ⟨x, _, rfl⟩ := matches_closing hw
    obtain ⟨hne, hline⟩ := matches_value.mp hv
    obtain ⟨c, more, rfl⟩ := List.exists_cons_of_ne_nil hne
    have hrest : s.rest ++ z = c :: more ++ (x ++ [']']) ++ t.rest := hrest
    rw [hs] at hrest
    have hz : z = more ++ (x ++ [']']) ++ t.rest := (List.cons.inj hrest).2
    refine ⟨?_, more, x ++ [']'], t.rest, hz, fun hmem => ?_, hw⟩
    · have hlength := congrArg List.length hz
      simp only [List.length_append, List.length_singleton] at hlength
      simp only [Cursor.within, decide_eq_false_iff_not]
      omega
    · exact hline (List.mem_cons_of_mem c hmem)
  cases hhead : ((value ++ closing).outcomes (s.extend z)).head? with
  | some t => exact .beyond (hbeyond z t (List.mem_of_head? hhead)).1 _
  | none =>
    have hnone : ¬ReachesEnd z := by
      rintro ⟨more, x, rest, rfl, hline, hx⟩
      have hvalue : value.Matches (']' :: more) := matches_value.mpr ⟨List.cons_ne_nil _ _, by simp [hline]⟩
      have hmatches : (value ++ closing).Matches (']' :: more ++ x) := ⟨_, _, rfl, hvalue, hx⟩
      have hrest : (s.extend (more ++ x ++ rest)).rest = (']' :: more ++ x) ++ rest := by
        simp [Cursor.extend, hs]
      obtain ⟨t, ht, _⟩ := exists_mem_outcomes_of_matches hmatches hrest
      rw [List.head?_eq_none_iff.mp hhead] at ht
      exact List.not_mem_nil ht
    have hnone' : (value ++ closing).outcomes (s.extend z') = [] :=
      List.eq_nil_iff_forall_not_mem.mpr fun t ht => hnone (hend (hbeyond z' t ht).2)
    rw [hnone']
    exact .none

-- Where a value may end that is no longer than some length.
private def stops (s : Cursor Field) (n : Nat) : List (Cursor Field) :=
  (List.range n).map fun k => (s.skip (k + 1)).note .value s.offset

-- Before the last bracket what closes a value does not depend on what follows.
private theorem outcomes_stops {s : Cursor Field} {r : Text} (hs : s.rest = r ++ [']']) (z : Text) {n : Nat}
    (hn : n ≤ r.length) : (stops (s.extend z) n).flatMap closing.outcomes =
      ((stops s n).flatMap closing.outcomes).map (Cursor.extend z) := by
  rw [stops, stops, List.flatMap_map, List.map_flatMap, List.flatMap_map]
  apply List.flatMap_congr
  intro k hk
  have hk : k < r.length := Nat.lt_of_lt_of_le (List.mem_range.mp hk) hn
  have hdrop : s.rest.drop (k + 1) = r.drop (k + 1) ++ [']'] := by
    rw [hs, List.drop_append_of_le_length (by omega)]
  have hskip : ((s.extend z).skip (k + 1)).note .value (s.extend z).offset =
      ((s.skip (k + 1)).note .value s.offset).extend z := by
    have hle : k + 1 ≤ s.rest.length := by
      rw [hs, List.length_append]
      omega
    simp only [Cursor.extend, Cursor.skip, Cursor.note, List.drop_append_of_le_length hle]
  rw [hskip]
  exact outcomes_closing_extend ⟨r.drop (k + 1), hdrop⟩ z

-- A line feed ends all values before the last bracket.
private theorem outcomes_value_of_feed {s : Cursor Field} {r : Text} (hs : s.rest = r ++ [']']) (hline : '\n' ∈ r)
    (z : Text) : (value ++ closing).outcomes (s.extend z) =
      ((stops s (r.takeWhile (· != '\n')).length).flatMap closing.outcomes).map (Cursor.extend z) := by
  have hstop : (s.extend z).rest.takeWhile (· != '\n') = r.takeWhile (· != '\n') := by
    obtain ⟨before, after, rfl, hbefore⟩ := List.eq_append_cons_of_mem hline
    have hall : ∀ c ∈ before, (c != '\n') = true := by simpa [List.forall_mem_ne'] using hbefore
    simp [Cursor.extend, hs, List.takeWhile_append_of_pos hall]
  rw [outcomes_append, outcomes_value, hstop]
  exact outcomes_stops hs z (List.takeWhile_prefix _).length_le

-- Otherwise those that stay before the last bracket come first, and the last of them is followed by it.
private theorem exists_outcomes_value {s : Cursor Field} {r : Text} (hs : s.rest = r ++ [']']) (hline : '\n' ∉ r)
    (z : Text) : ∃ others, (value ++ closing).outcomes (s.extend z) =
      ((stops s r.length).flatMap closing.outcomes).map (Cursor.extend z) ++ others := by
  have hall : ∀ c ∈ r ++ [']'], (c != '\n') = true := by
    have hfeed : '\n' ∉ r ++ [']'] := by simp [hline]
    simpa only [bne_iff_ne, List.forall_mem_ne'] using hfeed
  have hlength : ((s.extend z).rest.takeWhile (· != '\n')).length =
      r.length + ((z.takeWhile (· != '\n')).length + 1) := by
    rw [Cursor.extend, hs, List.takeWhile_append_of_pos hall]
    simp only [List.length_append, List.length_singleton]
    omega
  have hstops := outcomes_stops hs z (Nat.le_refl _)
  rw [stops] at hstops
  rw [outcomes_append, outcomes_value, hlength, List.range_add, List.map_append, List.flatMap_append, hstops]
  exact ⟨_, rfl⟩

private theorem outcomes_stops_ne_nil {s : Cursor Field} {r : Text} (hs : s.rest = r ++ [']']) (hr : r ≠ []) :
    (stops s r.length).flatMap closing.outcomes ≠ [] := by
  have hpos := List.length_pos_iff.mpr hr
  have hlast : ((s.skip (r.length - 1 + 1)).note .value s.offset).rest = [']'] := by
    rw [Nat.sub_add_cancel hpos, Cursor.note_rest, Cursor.skip_rest, hs, List.drop_left]
  obtain ⟨t, ht⟩ := List.exists_mem_of_ne_nil _ (outcomes_closing_ne_nil hlast)
  exact List.ne_nil_of_mem
    (List.mem_flatMap.mpr ⟨_, List.mem_map.mpr ⟨r.length - 1, List.mem_range.mpr (by omega), rfl⟩, ht⟩)

-- Any other value is read up to a bracket within the text, or else up to a line feed there.
private theorem alike_value_inside {s : Cursor Field} {r : Text} (hs : s.rest = r ++ [']']) (hr : r ≠ []) :
    Alike z z' ((value ++ closing).outcomes (s.extend z)).head? ((value ++ closing).outcomes (s.extend z')).head? := by
  by_cases hline : '\n' ∈ r
  · exact Alike.head? (outcomes_value_of_feed hs hline z) (outcomes_value_of_feed hs hline z')
  · obtain ⟨others, hothers⟩ := exists_outcomes_value hs hline z
    obtain ⟨others', hothers'⟩ := exists_outcomes_value hs hline z'
    obtain ⟨t, more, hinner⟩ := List.exists_cons_of_ne_nil (outcomes_stops_ne_nil hs hr)
    rw [hothers, hothers', hinner]
    exact .same t

-- After the head of an attribute the same is read whatever follows, if what follows does not
-- begin with an equals sign and brings no end into sight for a value that begins at the bracket.
private theorem alike_end {s : Cursor Field} (h : Closed s) (hz : z.head? ≠ some '=') (hz' : z'.head? ≠ some '=')
    (hend : ∀ t ∈ (operator ++ blanks).outcomes s, t.rest = [']'] → ReachesEnd z' → ReachesEnd z) :
    Alike z z' (ending.outcomes (s.extend z)).head? (ending.outcomes (s.extend z')).head? := by
  have hclosing : ∀ z, (lit ']').outcomes (s.extend z) = ((lit ']').outcomes s).map (Cursor.extend z) := by
    intro z
    refine outcomes_extend_of_within fun taken rest hrest hmatches => ?_
    obtain rfl := matches_lit.mp hmatches
    obtain ⟨r, hr⟩ := h
    simp [hr]
  rw [outcomes_ending, outcomes_ending, List.head?_append, List.head?_append]
  refine Alike.or ?_ (Alike.head? (hclosing z) (hclosing z'))
  obtain ⟨hoperator, hafter⟩ := stays_operator h
  have hbefore : ∀ z : Text, z.head? ≠ some '=' →
      (operator ++ blanks).outcomes (s.extend z) = ((operator ++ blanks).outcomes s).map (Cursor.extend z) := by
    intro z hz
    rw [outcomes_append, outcomes_append, hoperator z hz, List.flatMap_map, List.map_flatMap]
    exact List.flatMap_congr fun t ht => (stays_blanks (hafter t ht)).1 z hz
  refine Alike.append (hbefore z hz) (hbefore z' hz') fun u hu => ?_
  obtain ⟨t, ht, hut⟩ := List.mem_flatMap.mp hu
  obtain ⟨r, hr⟩ := (stays_blanks (hafter t ht)).2 u hut
  by_cases hnil : r = []
  · subst hnil
    exact alike_value_bracket hr (hend u hu hr)
  · exact alike_value_inside hr hnil

-- The head of an attribute: its bracket and its name.
def opening : Pattern Field := lit '[' ++ blanks ++ nsBar ++ name ++ blanks

theorem outcomes_attr (argument : Pattern Field) (s : Cursor Field) :
    (pattern argument .attr).outcomes s = (opening ++ ending).outcomes s := by
  change ((opening ++ perhaps comparison) ++ lit ']').outcomes s = _
  rw [outcomes_append, outcomes_append, List.flatMap_assoc]
  rfl

-- The bracket of an attribute stands where its value might begin.
def OpenEnded (w : Text) : Prop := ∃ u, w = u ++ [']'] ∧ (opening ++ (operator ++ blanks)).Matches u

theorem avoids_of_matches_opening {text : Text} (hun : text.Unescaped) (h : opening.Matches text) : ']' ∉ text := by
  obtain ⟨_, after, rfl, ⟨_, named, rfl, ⟨_, ns, rfl, ⟨_, before, rfl, hbracket, hbefore⟩, hns⟩, hnamed⟩, hafter⟩ := h
  obtain rfl := matches_lit.mp hbracket
  have hblank {text : Text} (hblanks : blanks.Matches text) : ']' ∉ text := fun hmem => by
    have hblank := matches_blanks.mp hblanks ']' hmem
    revert hblank
    decide
  have hname : isNameChar ']' = false := by decide
  have hns : ']' ∉ ns := fun hmem => by
    have hholds := ((matches_nsBar hun.of_append_left.of_append_left.of_append_right).mp hns).holds ']' hmem
    simp [hname] at hholds
  have hnamed : ']' ∉ named := fun hmem => by
    have hholds := ((matches_name hun.of_append_left.of_append_right).mp hnamed).2 ']' hmem
    simp [hname] at hholds
  simp [hblank hbefore, hns, hnamed, hblank hafter]

section

variable {w : Text} (hclosed : Closed (.start w))
include hclosed

-- The head of an attribute ends before its last bracket, whatever follows that.
private theorem length_lt_of_opening {z taken rest : Text} (hun : Text.Unescaped (w ++ z)) (hrest : w ++ z = taken ++ rest)
    (hmatches : opening.Matches taken) : taken.length < w.length := by
  have htaken : taken.Unescaped := Text.Unescaped.of_append_left (v := rest) (hrest ▸ hun)
  exact length_lt_of_avoids hclosed hrest (avoids_of_matches_opening htaken hmatches)

private theorem outcomes_opening_extend {z : Text} (hun : Text.Unescaped (w ++ z)) :
    opening.outcomes (Cursor.extend z (.start w)) = (opening.outcomes (.start w)).map (Cursor.extend z) :=
  outcomes_extend_of_within fun _ _ hrest hmatches => Nat.le_of_lt (length_lt_of_opening hclosed hun hrest hmatches)

private theorem closed_of_mem_opening (hun : w.Unescaped) {u : Cursor Field} (hu : u ∈ opening.outcomes (.start w)) :
    Closed u := by
  obtain ⟨taken, hrest, hoffset, hmatches⟩ := takesIn_of_mem_outcomes hu
  have hrest : w = taken ++ u.rest := hrest
  have hwhole : w ++ [] = taken ++ u.rest := by rw [List.append_nil, hrest]
  have hlt := length_lt_of_opening hclosed (by simpa using hun) hwhole hmatches
  refine hclosed.of_takes ⟨taken, hrest, hoffset⟩ ?_
  rintro hnil
  rw [hnil, List.append_nil] at hrest
  simp [hrest] at hlt

private theorem alike_attr (hun : Text.Unescaped (w ++ z)) (hun' : Text.Unescaped (w ++ z')) (hz : z.head? ≠ some '=')
    (hz' : z'.head? ≠ some '=') (hend : OpenEnded w → ReachesEnd z' → ReachesEnd z) :
    Alike z z' ((pattern coveredArgument .attr).outcomes (.start (w ++ z))).head?
      ((pattern coveredArgument .attr).outcomes (.start (w ++ z'))).head? := by
  rw [outcomes_attr, outcomes_attr]
  refine Alike.append (outcomes_opening_extend hclosed hun) (outcomes_opening_extend hclosed hun') fun u hu => ?_
  refine alike_end (closed_of_mem_opening hclosed hun.of_append_left hu) hz hz' fun v hv hvrest => hend ?_
  obtain ⟨taken, hw, _, hmatches⟩ := takesIn_of_mem_outcomes hu
  obtain ⟨more, hu', _, hmore⟩ := takesIn_of_mem_outcomes hv
  refine ⟨taken ++ more, ?_, taken, more, rfl, hmatches, hmore⟩
  rw [List.append_assoc, ← hvrest, ← hu', ← hw]
  rfl

end

end Grammar

namespace Tag

-- What follows an attribute does not matter as long as it neither begins with an equals sign nor
-- brings an end into sight for a value that begins at its bracket.
theorem front?_attr_congr {w z z' : Text} {kind : Kind Selector} (hun : Text.Unescaped (w ++ z))
    (hun' : Text.Unescaped (w ++ z')) (hz : z.head? ≠ some '=') (hz' : z'.head? ≠ some '=')
    (hend : OpenEnded w → ReachesEnd z' → ReachesEnd z) (h : attr.front? (w ++ z) = some (kind, w.length)) :
    attr.front? (w ++ z') = some (kind, w.length) := by
  obtain ⟨t, ht, hrest⟩ := exists_cursor_of_front? h
  obtain ⟨inner, hinner⟩ := shape_of_front? hun.of_append_left h
  have hclosed : Closed (.start w) := ⟨'[' :: inner, hinner⟩
  have halike := alike_attr hclosed hun hun' hz hz' hend
  rw [ht] at halike
  generalize hhead : ((pattern coveredArgument attr).outcomes (.start (w ++ z'))).head? = head at halike
  cases halike with
  | beyond hbeyond => simp [Cursor.within, hrest] at hbeyond
  | same u =>
    have hsome : (attr.kindAt? (w ++ z') (u.extend z')).isSome := kindAt?_isSome (List.mem_of_head? hhead)
    obtain ⟨kind', hkind'⟩ := Option.isSome_iff_exists.mp hsome
    have hfront : attr.front? (w ++ z') = some (kind', u.offset) := by
      rw [front?_eq_some_iff]
      exact ⟨u.extend z', by rw [front?_eq_head?, hhead], hkind', rfl⟩
    refine front?_congr_of_within h hfront ?_
    obtain ⟨taken, hw, hoffset⟩ := takes_of_mem_outcomes (List.mem_of_head? hhead)
    have hlength := congrArg List.length (show w ++ z' = taken ++ (u.rest ++ z') from hw)
    have hoffset : u.offset = 0 + taken.length := hoffset
    simp only [List.length_append] at hlength
    omega

end Tag

end CssSelectors
