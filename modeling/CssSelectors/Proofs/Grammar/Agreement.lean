import CssSelectors.Proofs.Grammar.Twins
import Mathlib.Data.List.Pairwise

namespace CssSelectors

open Unicode Pattern Grammar Text

-- Over a name there begins a name.
theorem Veils.exists_nameChar {w named z : Text} (h : Veils Encloses w (named ++ z)) (hun : w.Unescaped)
    (hnamed : name.Matches named) : ∃ c more, w = c :: more ∧ isNameChar c = true := by
  obtain ⟨unit, _, rfl, hunit, units, rfl, _⟩ := hnamed
  have h : Veils Encloses w ([unit].flatten ++ (units.flatten ++ z)) := by simpa using h
  obtain ⟨run, more, rfl, hrun, hlength, _⟩ := h.exists_run hun (by simpa using hunit)
  have hpos : 0 < unit.length := by
    rcases hunit with ⟨c, _, rfl⟩ | ⟨u, v, rfl, _, c, _, rfl⟩ <;> simp
  cases run with
  | nil =>
    simp at hlength
    omega
  | cons c run => exact ⟨c, run ++ more, rfl, hrun c List.mem_cons_self⟩

namespace Grammar

variable {source : Text} {s s' t : Cursor Field}

theorem findSome?_range_eq_some_iff {α : Type} {f : Nat → Option α} {n : Nat} {a : α} :
    (List.range n).findSome? f = some a ↔ ∃ k < n, f k = some a ∧ ∀ j < k, f j = none := by
  induction n with
  | zero => simp
  | succ n ih =>
    rw [List.range_succ, List.findSome?_append, Option.or_eq_some_iff, ih, List.findSome?_singleton,
      List.findSome?_eq_none_iff]
    simp only [List.mem_range]
    constructor
    · rintro (⟨k, hk, hfound⟩ | ⟨hnone, ha⟩)
      · exact ⟨k, by omega, hfound⟩
      · exact ⟨n, by omega, ha, hnone⟩
    · rintro ⟨k, hk, ha, hnone⟩
      by_cases hlast : k = n
      · subst hlast
        exact .inr ⟨hnone, ha⟩
      · exact .inl ⟨k, by omega, ha, hnone⟩

-- A value ends where an end of the attribute is in sight for the first time.
theorem finish?_value_iff : (value ++ closing).finish? s = some t ↔ ∃ v x, s.rest = v ++ x ∧ v ≠ [] ∧ '\n' ∉ v ∧
    closing.finish? ((s.skip v.length).note .value s.offset) = some t ∧
      ∀ v' x', s.rest = v' ++ x' → v' ≠ [] → v'.length < v.length → ¬closing.Matches x' := by
  rw [finish?_append, outcomes_value, List.findSome?_map, findSome?_range_eq_some_iff]
  constructor
  · rintro ⟨k, hk, ht, hnone⟩
    have hwithin : k + 1 ≤ s.rest.length := Nat.le_trans hk (List.takeWhile_prefix _).length_le
    have hlength : (s.rest.take (k + 1)).length = k + 1 := List.length_take_of_le hwithin
    refine ⟨s.rest.take (k + 1), s.rest.drop (k + 1), (List.take_append_drop _ _).symm, ?_, ?_, ?_, ?_⟩
    · rw [← List.length_pos_iff]
      omega
    · have hfront : s.rest.take (k + 1) <+: s.rest.takeWhile (· != '\n') :=
        List.prefix_of_prefix_length_le (List.take_prefix _ _) (List.takeWhile_prefix _) (by omega)
      intro hmem
      simpa using List.mem_takeWhile_imp (hfront.subset hmem)
    · rw [hlength]
      exact ht
    · intro v' x' hrest hne hless hmatches
      have hpos := List.length_pos_iff.mpr hne
      have hmissed := hnone (v'.length - 1) (by omega)
      refine finish?_eq_none_iff.mp hmissed ?_
      rwa [Cursor.note_rest, Cursor.skip_rest, Nat.sub_add_cancel hpos, hrest, List.drop_left]
  · rintro ⟨v, x, hrest, hne, hline, ht, hnone⟩
    have hpos := List.length_pos_iff.mpr hne
    have hall : ∀ c ∈ v, (c != '\n') = true := by simpa [List.forall_mem_ne'] using hline
    refine ⟨v.length - 1, ?_, ?_, fun j hj => ?_⟩
    · rw [hrest, List.takeWhile_append_of_pos hall, List.length_append]
      omega
    · rw [Function.comp_apply, Nat.sub_add_cancel hpos]
      exact ht
    · refine finish?_eq_none_iff.mpr ?_
      rw [Cursor.note_rest, Cursor.skip_rest]
      have hlength : (s.rest.take (j + 1)).length = j + 1 := by
        rw [List.length_take, hrest, List.length_append]
        omega
      refine hnone (s.rest.take (j + 1)) _ (List.take_append_drop _ _).symm ?_ (by omega)
      rw [← List.length_pos_iff]
      omega

-- What closing loses stands behind a backslash, and a value ends with none of it if it is kept.
private theorem not_lost_of_kept {v x a lost z : Text} (hx : closing.Matches x) (hsplit : v ++ x = a ++ (lost ++ z))
    (hless : a.length < v.length) (hlong : v.length ≤ a.length + lost.length)
    (hblank : ∀ before b, v = before ++ ['\\', b] → isBlank b = false)
    (hflag : (∀ c ∈ x, isFlag c = false) → ∀ before b c, v = before ++ ['\\', b, c] → isBlank b = true → isFlag c = false)
    (ha : ∃ a', a = a' ++ ['\\']) : ¬Lost lost z := by
  obtain ⟨a, rfl⟩ := ha
  rintro (⟨d, hd, rfl⟩ | ⟨d, c, hd, hc, rfl, hnone⟩)
  · rw [← List.append_assoc] at hsplit
    have hv : v = a ++ ['\\'] ++ [d] := (List.append_inj hsplit (by simp at hlong hless ⊢; omega)).1
    rw [hblank a d (by rw [hv]; simp)] at hd
    cases hd
  by_cases hnear : v.length = (a ++ ['\\'] ++ [d]).length
  · -- The flag is the first of what follows the value.
    have hsplit : v ++ x = (a ++ ['\\'] ++ [d]) ++ (c :: z) := by simpa using hsplit
    obtain ⟨_, rfl⟩ := List.append_inj hsplit hnear
    rcases matches_closing_cons hx with ⟨rfl, _⟩ | ⟨hblank, _⟩
    · exact absurd hc (by decide)
    · rw [isBlank_of_isFlag hc] at hblank
      cases hblank
  · rw [← List.append_assoc] at hsplit
    have hfar : v.length = (a ++ ['\\'] ++ [d, c]).length := by
      simp at hlong hless hnear ⊢
      omega
    obtain ⟨hv, rfl⟩ := List.append_inj hsplit hfar
    rw [hflag hnone a d c (by rw [hv]; simp) hd] at hc
    cases hc

theorem agrees_value : Agrees source (value ++ closing) := by
  intro s s' t htwin ht hkept
  obtain ⟨v, x, hrest, hne, hline, hclosing, hfirst⟩ := finish?_value_iff.mp ht
  have hx : closing.Matches x := by
    have hmatches := matches_of_finish? hclosing
    rwa [Cursor.note_rest, Cursor.skip_rest, hrest, List.drop_left] at hmatches
  obtain ⟨v', hrest', hlength⟩ := (hrest ▸ htwin.veils).exists_append fun c hc => (plain_of_matches_closing hx c hc).1
  -- The same value ends at the same place in the source,
  have hspan : (.value, ⟨s.offset, s.offset + v'.length⟩) ∈ t.spans := by
    refine mem_spans_of_mem_outcomes (mem_of_finish? hclosing).1 ?_
    rw [hlength]
    exact List.mem_cons_self
  have htext := htwin.of_span hrest'
  have hsame : (s'.skip v'.length).note .value s'.offset = (s.skip v.length).note .value s.offset := by
    have hskip := (htwin.skip hrest hrest' hlength (.refl x)).eq_of_rest_eq (by
      rw [Cursor.skip_rest, Cursor.skip_rest, hrest, hrest', List.drop_left, ← hlength, List.drop_left])
    rw [hlength, hskip, htwin.offset_eq]
  refine ⟨t, finish?_value_iff.mpr ⟨v', x, hrest', ?_, ?_, ?_, ?_⟩, rfl⟩
  · rw [← List.length_pos_iff, hlength]
    exact List.length_pos_iff.mpr hne
  · exact htext ▸ hkept.line .value (by decide) _ hspan
  · rw [hsame, hclosing]
  · -- and no sooner.
    intro a y hay hane hless hy
    have hend : ∃ u, s.rest = u ++ [']'] := by
      obtain ⟨x, _, rfl⟩ := matches_closing hx
      exact ⟨v ++ x, by simp [hrest]⟩
    obtain ⟨b, z, lost, hbz, hz, rfl, hblength, hlost, _⟩ := (hay ▸ htwin.veils).exists_closing hend hy
    have hlong : v.length ≤ b.length := by
      by_contra hshort
      refine hfirst b z hbz ?_ (by omega) hz
      rw [← List.length_pos_iff] at hane ⊢
      omega
    have hunflagged : (∀ c ∈ x, isFlag c = false) → ∀ span, (.caseFlag, span) ∉ t.spans := by
      intro hnone span hmem
      rw [spans_of_mem_closing (mem_of_finish? hclosing).1 (by simpa [hrest] using hnone)] at hmem
      rcases List.mem_cons.mp hmem with heq | hmem
      · cases congrArg Prod.fst heq
      · exact htwin.unflagged span hmem
    rcases hlost with rfl | ⟨ha, hlost⟩
    · simp only [List.length_nil, Nat.add_zero] at hblength
      omega
    · refine not_lost_of_kept hx (hrest'.symm.trans hay) hless (by omega) ?_ ?_ ha hlost
      · exact fun before d hv => hkept.blank _ hspan before d (htext.trans hv)
      · exact fun hnone before d c hv => hkept.flag (hunflagged hnone) _ hspan before d c (htext.trans hv)

-- A comparison is taken from the source like from the masked text.
theorem agrees_comparison : Agrees source ((operator ++ blanks) ++ (value ++ closing)) := by
  intro s s' t htwin ht hkept
  obtain ⟨_, x, hrest, ⟨u, gap, rfl, hu, hgap⟩, v, z, rfl, hv, hz⟩ := matches_of_finish? ht
  have hplaces : List.Forall₂ (Twin source) ((operator ++ blanks).outcomes s) ((operator ++ blanks).outcomes s') := by
    refine Twin.forall₂_flatMap (htwin.forall₂_operator (x := gap ++ (v ++ z)) ?_ hu) fun _ _ h => h.forall₂_blanks
    rw [hrest, List.append_assoc]
  have hclosed : Closed s := by
    obtain ⟨w, _, rfl⟩ := matches_closing hz
    exact ⟨u ++ gap ++ v ++ w, by simp [hrest]⟩
  rw [finish?_append] at ht ⊢
  refine exists_of_forall₂_findSome? (P := fun t t' : Cursor Field => t'.spans = t.spans) hplaces ht
    (fun u u' hu ht => agrees_value u u' t hu ht hkept) ?_
  refine List.pairwise_of_forall_mem_list fun p hp _ _ hnone _ p' htwin' => ?_
  obtain ⟨q, hq, hp⟩ := List.mem_flatMap.mp hp
  have hpclosed := (stays_blanks ((stays_operator hclosed).2 q hq)).2 p hp
  -- A value in the source has its end in the masked text, too.
  rw [finish?_eq_none_iff] at hnone ⊢
  rintro ⟨v', y, hrest', hv', hy⟩
  refine hnone ?_
  obtain ⟨hne, hline⟩ := matches_value.mp hv'
  obtain ⟨b, z', lost, hbz, hz', _, hlength, _, hlines⟩ := (hrest' ▸ htwin'.veils).exists_closing hpclosed hy
  refine ⟨b, z', hbz, matches_value.mpr ⟨?_, hlines hline⟩, hz'⟩
  rw [← List.length_pos_iff] at hne ⊢
  omega

theorem finish?_ending (s : Cursor Field) :
    ending.finish? s = (((operator ++ blanks) ++ (value ++ closing)).finish? s).or ((lit ']').finish? s) := by
  rw [finish?, outcomes_ending, List.find?_append]
  rfl

theorem agrees_ending : Agrees source ending := by
  intro s s' t htwin ht hkept
  rw [finish?_ending] at ht ⊢
  rcases Option.or_eq_some_iff.mp ht with hcompared | ⟨_, hbracket⟩
  · obtain ⟨t', ht', hspans⟩ := agrees_comparison s s' t htwin hcompared hkept
    exact ⟨t', by rw [ht', Option.some_or], hspans⟩
  · have hrest := matches_lit.mp (matches_of_finish? hbracket)
    have hrest' : s'.rest = s.rest := by
      obtain ⟨b, hb, hlength⟩ := Veils.exists_append (a := []) (x := [']']) (hrest ▸ htwin.veils)
        (List.forall_mem_singleton.mpr rfl)
      rw [hb, hrest, List.length_eq_zero_iff.mp hlength, List.nil_append]
    rw [htwin.eq_of_rest_eq hrest']
    exact ⟨t, ht, rfl⟩

-- Blanks do not matter for where the rest of an attribute ends.
theorem agrees_tail : Agrees source tail := by
  intro s s' t htwin ht hkept
  obtain ⟨before, w, r, hbefore, hw, hr, hwhead, hrhead, hmore⟩ := htwin.veils.exists_blanks
  have hhead : ∀ {s : Cursor Field} {z : Text}, s.rest = before ++ z → (∀ c ∈ z.head?, isBlank c = false) →
      (blanks.outcomes s).head? = some (s.skip before.length) := by
    intro s z hrest hz
    rw [blanks, head?_outcomes_many_greedy, hrest, takeWhile_append_of_head? hbefore hz]
  have hending : ending.Matches w := by
    have htail := matches_of_finish? ht
    rw [hw] at htail
    exact matches_ending_of_tail (matches_tail_of_append htail (avoids_of_isBlank hbefore)) hwhead
  have htwin' := htwin.skip hw hr rfl hmore
  have hrest : (s.skip before.length).rest = w := by rw [Cursor.skip_rest, hw, List.drop_left]
  have hrest' : (s'.skip before.length).rest = r := by rw [Cursor.skip_rest, hr, List.drop_left]
  rw [tail, finish?_append_of_head? (hhead hw hwhead) (hrest ▸ hending)] at ht
  obtain ⟨t', ht', hspans⟩ := agrees_ending _ _ t htwin' ht hkept
  refine ⟨t', ?_, hspans⟩
  rw [tail, finish?_append_of_head? (hhead hr hrhead) (matches_of_finish? ht'), ht']

-- The whole run of name characters is the name, and so are the units under it.
theorem agrees_name : Agrees source (name ++ tail) := by
  intro s s' t htwin ht hkept
  obtain ⟨front, x, hsplit, hfront, htail⟩ := matches_of_finish? ht
  obtain ⟨hne, hfrontrun⟩ := (matches_name (Text.Unescaped.of_append_left (hsplit ▸ htwin.unescaped))).mp hfront
  obtain ⟨run, z, hrest, hrunne, hrun, hz, htailz⟩ : ∃ run z, s.rest = run ++ z ∧ run ≠ [] ∧ IsRun run ∧
      (∀ c ∈ z.head?, isNameChar c = false) ∧ tail.Matches z := by
    have hmore : IsRun (x.takeWhile isNameChar) := fun c hc => List.mem_takeWhile_imp hc
    refine ⟨front ++ x.takeWhile isNameChar, x.dropWhile isNameChar, ?_, by simp [hne], ?_, ?_, ?_⟩
    · rw [List.append_assoc, List.takeWhile_append_dropWhile, hsplit]
    · exact fun c hc => (List.mem_append.mp hc).elim (hfrontrun c) (hmore c)
    · intro c hc
      have hnot := List.head?_dropWhile_not isNameChar x
      rw [hc] at hnot
      simpa using hnot
    · rw [← List.takeWhile_append_dropWhile (p := isNameChar) (l := x)] at htail
      exact matches_tail_of_append htail (avoids_of_isRun hmore)
  obtain ⟨units, r, hr, hlength, hunits, hveils⟩ := (hrest ▸ htwin.veils).exists_units hrun hz
  have hhead : (name.outcomes s).head? = some ((s.skip run.length).note .name s.offset) := by
    rw [head?_outcomes_name htwin.unescaped, hrest, takeWhile_append_of_head? hrun hz, if_neg hrunne]
  have hskip : ((s.skip run.length).note .name s.offset).rest = z := by
    rw [Cursor.note_rest, Cursor.skip_rest, hrest, List.drop_left]
  have htwin' := (htwin.skip hrest hr hlength hveils).note (show Field.name ≠ .caseFlag by decide) s.offset
  rw [finish?_append_of_head? hhead (hskip ▸ htailz)] at ht
  have hline : '\n' ∉ units.flatten := by
    rw [← htwin.of_span hr, hlength]
    exact hkept.line .name (by decide) _ (mem_spans_of_mem_outcomes (mem_of_finish? ht).1 List.mem_cons_self)
  have hmatches : ∀ unit ∈ units, nameUnit.Matches unit := fun unit hunit =>
    matches_of_isUnit (hunits unit hunit) fun hmem => hline (List.mem_flatten.mpr ⟨unit, hunit, hmem⟩)
  have hunitsne : units ≠ [] := by
    rintro rfl
    exact hrunne (List.length_eq_zero_iff.mp hlength.symm)
  have hstop : ∀ u v, r = u ++ v → ¬nameUnit.Matches u := by
    rintro u v rfl hu
    have hun : z.Unescaped := Text.Unescaped.of_append_right (hrest ▸ htwin.unescaped)
    obtain ⟨c, z, rfl, hc⟩ := hveils.exists_nameChar hun ⟨u, [], (List.append_nil u).symm, hu, [], rfl, by simp⟩
    rw [hz c rfl] at hc
    cases hc
  have hhead' := head?_outcomes_name_of_units hunitsne hmatches hstop hr
  rw [hlength, htwin.offset_eq] at hhead'
  obtain ⟨t', ht', hspans⟩ := agrees_tail _ _ t htwin' ht hkept
  exact ⟨t', by rw [finish?_append_of_head? hhead' (matches_of_finish? ht'), ht'], hspans⟩

-- The one place behind the bar of a namespace.
theorem eq_of_mem_bar {u : Cursor Field} (htwin : Twin source s s') {ns x : Text} (hrest : s.rest = ns ++ '|' :: x)
    (hns : '|' ∉ ns) (hu : u ∈ bar.outcomes s') : u = ((s'.skip ns.length).note .ns s'.offset).skip 1 := by
  obtain ⟨ns', hns', hrest', rfl⟩ := exists_of_mem_bar hu
  obtain ⟨a, b, hab, hlength, ha, _⟩ := (hrest' ▸ htwin.veils).exists_bar htwin.unescaped hns'
  obtain ⟨rfl, _⟩ := eq_of_append_cons (notMem_bar ha) hns (hab.symm.trans hrest)
  rw [hlength]

theorem agrees_bar : Agrees source (bar ++ (name ++ tail)) := by
  intro s s' t htwin ht hkept
  rw [finish?_append] at ht
  obtain ⟨u, hu, ht⟩ := List.exists_of_findSome?_eq_some ht
  obtain ⟨ns, hns, hrest, hueq⟩ := exists_of_mem_bar hu
  have hnsrun := hns.eq_or_isRun (Text.Unescaped.of_append_left (hrest ▸ htwin.unescaped))
  have hspan : (.ns, ⟨s.offset, s.offset + ns.length⟩) ∈ t.spans := by
    refine mem_spans_of_mem_outcomes (mem_of_finish? ht).1 ?_
    rw [hueq]
    exact List.mem_cons_self
  obtain ⟨ns', r, hr, hlength, hns', hveils⟩ : ∃ ns' r, s'.rest = ns' ++ '|' :: r ∧ ns'.length = ns.length ∧
      IsNsName ns' ∧ Veils Encloses u.rest r := by
    rcases hnsrun with rfl | hrun
    · obtain ⟨r, hr, hmore⟩ := (hrest ▸ htwin.veils).exists_seen (by decide) (by decide)
      obtain ⟨r, rfl, hveils⟩ := hmore.exists_seen (by decide) (by decide)
      exact ⟨['*'], r, hr, rfl, .inl rfl, hveils⟩
    · have hbar : ∀ c ∈ ('|' :: u.rest).head?, isNameChar c = false := by
        intro c hc
        obtain rfl : '|' = c := by simpa using hc
        decide
      obtain ⟨units, r, hr, hlength, hunits, hmore⟩ := (hrest ▸ htwin.veils).exists_units hrun hbar
      obtain ⟨r, rfl, hveils⟩ := hmore.exists_seen (by decide) (by decide)
      have hline : '\n' ∉ units.flatten := by
        rw [← htwin.of_span hr, hlength]
        exact hkept.line .ns (by decide) _ hspan
      exact ⟨units.flatten, r, hr, hlength, .inr ⟨units, fun unit hunit => matches_of_isUnit (hunits unit hunit)
        fun hmem => hline (List.mem_flatten.mpr ⟨unit, hunit, hmem⟩), rfl⟩, hveils⟩
  have hmem : ((s'.skip ns.length).note .ns s'.offset).skip 1 ∈ bar.outcomes s' := by
    have hmatches : bar.Matches (ns' ++ ['|']) := matches_bar.mpr ⟨ns', hns', rfl⟩
    have hsplit : s'.rest = (ns' ++ ['|']) ++ r := by simp [hr]
    obtain ⟨v, hv, _⟩ := exists_mem_outcomes_of_matches hmatches hsplit
    rwa [← eq_of_mem_bar htwin hrest (notMem_bar hnsrun) hv]
  have hend := (htwin.skip hrest hr hlength (.seen '|' hveils)).note (show Field.ns ≠ .caseFlag by decide) s.offset
  have htwin' := hend.skip (a := ['|']) (x := u.rest) (b := ['|']) (y := r)
    (by rw [Cursor.note_rest, Cursor.skip_rest, hrest, List.drop_left]; rfl)
    (by rw [Cursor.note_rest, Cursor.skip_rest, hr, ← hlength, List.drop_left]; rfl) rfl hveils
  obtain ⟨t', ht', hspans⟩ := agrees_name _ _ t htwin' (hueq ▸ ht) hkept
  refine ⟨t', ?_, hspans⟩
  rw [finish?_append_of_forall_mem hmem fun v hv => eq_of_mem_bar htwin hrest (notMem_bar hnsrun) hv, htwin.offset_eq]
  exact ht'

-- A name with its namespace begins in the masked text where it begins in the source,
theorem exists_bar_name {w r : Text} (h : Veils Encloses w r) (hun : w.Unescaped)
    (hr : (bar ++ (name ++ tail)).Matches r) :
    ∃ ns c more, w = ns ++ '|' :: c :: more ∧ (ns = ['*'] ∨ IsRun ns) ∧ isNameChar c = true := by
  obtain ⟨_, _, rfl, hbar, run, x, rfl, hrun, _⟩ := hr
  obtain ⟨ns, hns, rfl⟩ := matches_bar.mp hbar
  rw [List.append_assoc, List.singleton_append] at h
  obtain ⟨a, b, rfl, _, ha, hmore⟩ := h.exists_bar hun hns
  obtain ⟨c, more, rfl, hc⟩ := hmore.exists_nameChar hun.of_append_right.of_cons hrun
  exact ⟨a, c, more, rfl, ha, hc⟩

-- and so does one with or without it.
theorem exists_head {w r : Text} (h : Veils Encloses w r) (hun : w.Unescaped) (hr : named.Matches r) :
    ∃ u z, w = u ++ z ∧ (nsBar ++ name).Matches u := by
  have hname : ∀ {c : Char}, isNameChar c = true → name.Matches [c] := fun hc =>
    ⟨[_], [], rfl, .inl ⟨_, hc, rfl⟩, [], rfl, by simp⟩
  obtain ⟨_, _, rfl, hns, hmore⟩ := hr
  rcases matches_perhaps.mp hns with hbar | rfl
  · obtain ⟨ns, c, more, rfl, hns, hc⟩ := exists_bar_name h hun ⟨_, _, rfl, hbar, hmore⟩
    have hunbar : Text.Unescaped (ns ++ ['|']) := by
      have hunsplit : Text.Unescaped ((ns ++ ['|']) ++ (c :: more)) := by simpa using hun
      exact hunsplit.of_append_left
    exact ⟨ns ++ ['|'] ++ [c], more, by simp, _, [c], rfl, (matches_nsBar hunbar).mpr (.inr ⟨ns, hns, rfl⟩), hname hc⟩
  · obtain ⟨run, x, rfl, hrun, _⟩ := hmore
    rw [List.nil_append] at h
    obtain ⟨c, more, rfl, hc⟩ := h.exists_nameChar hun hrun
    exact ⟨[c], more, rfl, [], [c], rfl, .inr rfl, hname hc⟩

theorem agrees_named : Agrees source named := by
  intro s s' t htwin ht hkept
  have hsplit : ∀ s : Cursor Field, named.finish? s = ((bar ++ (name ++ tail)).finish? s).or ((name ++ tail).finish? s) := by
    intro s
    have houtcomes : named.outcomes s = (bar ++ (name ++ tail)).outcomes s ++ (name ++ tail).outcomes s := by
      change ((bar.outcomes s ++ [s]).flatMap (name ++ tail).outcomes) = _
      rw [List.flatMap_append, List.flatMap_singleton]
      rfl
    rw [finish?, houtcomes, List.find?_append]
    rfl
  rw [hsplit] at ht ⊢
  rcases Option.or_eq_some_iff.mp ht with hbar | ⟨hnone, hname⟩
  · obtain ⟨t', ht', hspans⟩ := agrees_bar s s' t htwin hbar hkept
    exact ⟨t', by rw [ht', Option.some_or], hspans⟩
  · have hnone' : (bar ++ (name ++ tail)).finish? s' = none := by
      refine finish?_eq_none_iff.mpr fun hmatches => ?_
      obtain ⟨ns, c, more, hrest, hns, hc⟩ := exists_bar_name htwin.veils htwin.unescaped hmatches
      obtain ⟨run, x, hsplit, hrun, htail⟩ := matches_of_finish? hname
      have hun : Text.Unescaped run := Text.Unescaped.of_append_left (hsplit ▸ htwin.unescaped)
      obtain ⟨hne, hrunall⟩ := (matches_name hun).mp hrun
      -- A name without that namespace ends before the bar, which would have to begin an operator.
      have hbefore : ∃ ns', ns = run ++ ns' ∧ x = ns' ++ '|' :: c :: more := by
        rcases List.append_eq_append_iff.mp (hsplit.symm.trans hrest) with ⟨ns', hns', hx⟩ | ⟨beyond, hbeyond, hx⟩
        · exact ⟨ns', hns', hx⟩
        · cases beyond with
          | nil => exact ⟨[], by simpa using hbeyond.symm, by simpa using hx.symm⟩
          | cons d beyond =>
            obtain ⟨rfl, _⟩ := List.cons.inj hx
            exact absurd (hbeyond ▸ by simp) (notMem_of_isRun hrunall (c := '|') (by decide))
      obtain ⟨ns', rfl, rfl⟩ := hbefore
      have hns' : IsRun ns' := by
        rcases hns with hstar | hnsrun
        · obtain ⟨d, run, rfl⟩ := List.exists_cons_of_ne_nil hne
          obtain ⟨rfl, _⟩ := List.cons.inj hstar
          exact absurd (hrunall '*' List.mem_cons_self) (by decide)
        · exact fun d hd => hnsrun d (List.mem_append_right _ hd)
      obtain ⟨y, hy⟩ := exists_of_matches_tail_bar (matches_tail_of_append htail (avoids_of_isRun hns'))
      obtain ⟨rfl, _⟩ := List.cons.inj hy
      exact absurd hc (by decide)
    obtain ⟨t', ht', hspans⟩ := agrees_name s s' t htwin hname hkept
    exact ⟨t', by rw [hnone', ht', Option.none_or], hspans⟩

theorem finish?_attr (argument : Pattern Field) (s : Cursor Field) :
    (pattern argument .attr).finish? s = ((lit '[' ++ blanks) ++ named).finish? s := by
  have houtcomes : (pattern argument .attr).outcomes s = ((lit '[' ++ blanks) ++ named).outcomes s := by
    rw [outcomes_attr]
    simp only [opening, named, tail, outcomes_append, List.flatMap_assoc]
    rfl
  rw [finish?, houtcomes]
  rfl

theorem agrees_attr (argument argument' : Pattern Field) (hs : Twin source s s')
    (ht : (pattern argument .attr).finish? s = some t) (hkept : Kept source t) :
    ∃ t', (pattern argument' .attr).finish? s' = some t' ∧ t'.spans = t.spans := by
  rw [finish?_attr] at ht ⊢
  obtain ⟨_, x, hrest, ⟨_, before, rfl, hopening, hbefore⟩, hmore⟩ := matches_of_finish? ht
  obtain rfl := matches_lit.mp hopening
  have hrest : s.rest = '[' :: (before ++ x) := by simpa using hrest
  obtain ⟨r, hr, hveils⟩ := (hrest ▸ hs.veils).exists_seen (by decide) (by decide)
  have hplaces : List.Forall₂ (Twin source) ((lit '[' ++ blanks).outcomes s) ((lit '[' ++ blanks).outcomes s') :=
    Twin.forall₂_flatMap (hs.forall₂_char _ hrest hr hveils) fun _ _ h => h.forall₂_blanks
  rw [finish?_append] at ht ⊢
  refine exists_of_forall₂_findSome? (P := fun t t' : Cursor Field => t'.spans = t.spans) hplaces ht
    (fun u u' hu ht => agrees_named u u' t hu ht hkept) ?_
  have hsteps : (lit '[' ++ blanks).outcomes s = blanks.outcomes (s.skip 1) := by
    rw [outcomes_append, lit, outcomes_char_cons hrest]
    simp
  rw [hsteps, blanks, outcomes_many_greedy, List.pairwise_reverse, List.pairwise_map]
  refine List.Pairwise.imp_of_mem ?_ List.pairwise_lt_range
  intro k j _ hj hlt hnone hfound u htwin
  -- If a name can be taken after fewer blanks and stands after more of them, it can be taken there.
  rw [finish?_eq_none_iff] at hnone ⊢
  intro hu
  obtain ⟨front, z, hfront, hhead⟩ := exists_head htwin.veils htwin.unescaped hu
  obtain ⟨gap, hgap, hk⟩ : ∃ gap : Text, gap.IsBlank ∧ ((s.skip 1).skip k).rest = gap ++ ((s.skip 1).skip j).rest := by
    simp only [Cursor.skip_rest] at hj ⊢
    generalize s.rest.drop 1 = text at hj ⊢
    refine ⟨(text.take j).drop k, fun c hc => ?_, ?_⟩
    · have hle := List.mem_range.mp hj
      have hfront : text.take j <+: text.takeWhile isBlank :=
        List.prefix_of_prefix_length_le (List.take_prefix _ _) (List.takeWhile_prefix _) (by
          rw [List.length_take]
          omega)
      exact List.mem_takeWhile_imp (hfront.subset (List.mem_of_mem_drop hc))
    · rw [List.drop_take, ← Nat.add_sub_cancel' (Nat.le_of_lt hlt), ← List.drop_drop, Nat.add_sub_cancel_left,
        List.take_append_drop]
  have hun : Text.Unescaped (gap ++ ((s.skip 1).skip j).rest) := by
    rw [← hk, Cursor.skip_rest, Cursor.skip_rest]
    exact (hs.unescaped.drop 1).drop k
  exact hnone (matches_named_of_blanks hun hgap (hk ▸ finish?_isSome_iff.mp hfound) hfront hhead)

end Grammar

end CssSelectors
