import CssSelectors.Proofs.Grammar.Closings
import CssSelectors.Proofs.Grammar.Namespaces
import CssSelectors.Proofs.Grammar.Uncovering
import CssSelectors.Proofs.Token.Tokenizing

namespace CssSelectors

open Masked Unicode Grammar Text

namespace Grammar

-- A unit of a plain name is a character of names or an escaped character, and no blank in either case.
def IsPlainUnit (unit : Text) : Prop :=
  ∃ c, isBlank c = false ∧ (isNameChar c = true ∧ unit = [c] ∨ unit = ['\\', c])

def IsPlainName (text : Text) : Prop :=
  ∃ units : List Text, (∀ unit ∈ units, IsPlainUnit unit) ∧ text = units.flatten

theorem IsPlainUnit.isBlank_eq_false {unit : Text} (h : IsPlainUnit unit) : ∀ c ∈ unit, isBlank c = false := by
  obtain ⟨d, hblank, ⟨_, rfl⟩ | rfl⟩ := h
  · simpa using hblank
  · simpa using ⟨(by decide : isBlank '\\' = false), hblank⟩

theorem IsPlainUnit.matches {unit : Text} (h : IsPlainUnit unit) : nameUnit.Matches unit := by
  refine matches_of_isUnit ?_ fun hline => absurd (h.isBlank_eq_false _ hline) (by decide)
  obtain ⟨c, _, ⟨hname, rfl⟩ | rfl⟩ := h
  · exact .inl ⟨c, hname, rfl⟩
  · exact .inr ⟨c, rfl⟩

theorem IsPlainName.isBlank_eq_false {text : Text} (h : IsPlainName text) : ∀ c ∈ text, isBlank c = false := by
  obtain ⟨units, hunits, rfl⟩ := h
  intro c hc
  obtain ⟨unit, hunit, hc⟩ := List.mem_flatten.mp hc
  exact (hunits unit hunit).isBlank_eq_false c hc

theorem IsPlainName.isNsName {text : Text} (h : IsPlainName text) : IsNsName text := by
  obtain ⟨units, hunits, rfl⟩ := h
  exact .inr ⟨units, fun unit hunit => (hunits unit hunit).matches, rfl⟩

theorem IsPlainName.matches_name {text : Text} (h : IsPlainName text) (hne : text ≠ []) : name.Matches text := by
  obtain ⟨units, hunits, rfl⟩ := h
  have hunitsne : units ≠ [] := by
    rintro rfl
    exact hne rfl
  exact matches_name_of_units hunitsne fun unit hunit => (hunits unit hunit).matches

theorem IsPlainName.ne_star {text : Text} (h : IsPlainName text) : text ≠ ['*'] := by
  obtain ⟨units, hunits, rfl⟩ := h
  intro hstar
  exact head?_units_ne_star (fun unit hunit => (hunits unit hunit).matches) [] (by rw [hstar]; rfl)

theorem isNsName_of_isRun {run : Text} (hun : run.Unescaped) (h : run = ['*'] ∨ IsRun run) : IsNsName run := by
  refine h.imp_right fun hrun => ?_
  have hmatches : (Pattern.many .greedy nameUnit).Matches run := (matches_many_nameUnit hun).mpr hrun
  obtain ⟨units, rfl, hunits⟩ := hmatches
  exact ⟨units, hunits, rfl⟩

end Grammar

namespace Veils

variable {w r : Text}

theorem eq_nil_iff {opens : Char → Prop} (h : Veils opens w r) : w = [] ↔ r = [] := by
  rw [← List.length_eq_zero_iff, h.length_eq, List.length_eq_zero_iff]

-- What has no blanks shows none.
theorem isBlank_eq_false (h : Veils Encloses w r) (hr : ∀ c ∈ r, isBlank c = false) : ∀ c ∈ w, isBlank c = false := by
  have hall := h.forall₂
  clear h
  induction hall with
  | nil => simp
  | @cons c d w r hcd _ ih =>
    obtain ⟨hd, hr⟩ := List.forall_mem_cons.mp hr
    refine List.forall_mem_cons.mpr ⟨?_, ih hr⟩
    rcases hcd with rfl | hcover
    · exact hd
    · exact Bool.eq_false_iff.mpr fun hblank => by simp [isCover_of_isBlank hblank] at hcover

-- Over a plain name stands a run of name characters.
theorem exists_run_of_isPlainName {text : Text} (h : Veils Encloses w (text ++ r)) (hun : w.Unescaped)
    (hplain : IsPlainName text) :
    ∃ run more, w = run ++ more ∧ IsRun run ∧ run.length = text.length ∧ Veils Encloses more r := by
  obtain ⟨units, hunits, rfl⟩ := hplain
  exact h.exists_run hun fun unit hunit => (hunits unit hunit).matches

theorem matches_name_of_isPlainName {text : Text} (h : Veils Encloses w text) (hun : w.Unescaped)
    (hplain : IsPlainName text) (hne : text ≠ []) : name.Matches w ∧ IsRun w := by
  obtain ⟨run, more, rfl, hrun, -, hmore⟩ := (text.append_nil.symm ▸ h).exists_run_of_isPlainName hun hplain
  obtain rfl := hmore.eq_nil_iff.mpr rfl
  rw [List.append_nil] at h hun ⊢
  exact ⟨(Grammar.matches_name hun).mpr ⟨mt h.eq_nil_iff.mp hne, hrun⟩, hrun⟩

end Veils

namespace Layers

theorem veils_ofText (text : Text) : Veils Encloses (ofText text).text text := by
  have hveils := (linked_ofText text).veils
  rwa [source_ofText] at hveils

-- Where no paren is in sight, none is left over.
theorem imbalanceFrom_eq_none {text : Text} (h : ∀ c ∈ (ofText text).text, c ≠ '(' ∧ c ≠ ')') :
    imbalanceFrom 0 (ofText text).groups = none := by
  refine imbalanceFrom_eq_none_iff.mpr fun c hc => h c ?_
  rw [Layers.text, shown_eq_flatMap]
  exact List.mem_flatMap.mpr ⟨.loose c, hc, List.mem_singleton.mpr rfl⟩

end Layers

namespace Token

variable {ns n : Text}

-- What a namespace and what it belongs to look like while escapes are covered.
private def IsSide (side : Text) : Prop := side = ['*'] ∨ IsRun side

private theorem IsSide.notMem_signs {side : Text} (h : IsSide side) : ∀ c ∈ side, c ∉ Tag.signs ∧ c ≠ '(' ∧ c ≠ ')' := by
  intro c hc
  rcases h with rfl | hrun
  · obtain rfl := List.mem_singleton.mp hc
    decide
  · refine ⟨Tag.notMem_signs_of_isNameChar (hrun c hc), ?_, ?_⟩ <;> rintro rfl <;> exact absurd (hrun _ hc) (by decide)

private theorem notMem_signs_of_bar {a b : Text} (ha : IsSide a) (hb : IsSide b) :
    ∀ c ∈ a ++ '|' :: b, c ∉ Tag.signs ∧ c ≠ '(' ∧ c ≠ ')' := by
  have hbar : ∀ c ∈ '|' :: b, c ∉ Tag.signs ∧ c ≠ '(' ∧ c ≠ ')' :=
    List.forall_mem_cons.mpr ⟨by decide, hb.notMem_signs⟩
  exact List.forall_mem_append.mpr ⟨ha.notMem_signs, hbar⟩

-- The kinds that a text is searched for before asterisks and names.
private def beforeUniversal : List Tag := [.attr, .id, .className, .comma, .combinator, .pseudoElement, .pseudoClass]

-- With a bar between two sides nothing of these kinds is in sight, and no paren.
private theorem quiet_of_bar {text a b : Text} (hplain : ∀ c ∈ text, isBlank c = false)
    (hmasked : (Layers.ofText text).text = a ++ '|' :: b) (ha : IsSide a) (hb : IsSide b) :
    imbalanceFrom 0 (Layers.ofText text).groups = none ∧
      ∀ tag ∈ beforeUniversal, ∀ u v, (Layers.ofText text).text = u ++ v → v ≠ [] → tag.front? v = none := by
  have hchars := notMem_signs_of_bar ha hb
  rw [← hmasked] at hchars
  refine ⟨Layers.imbalanceFrom_eq_none fun c hc => (hchars c hc).2, fun tag htag u v huv hv => ?_⟩
  have hother : tag ≠ .universal ∧ tag ≠ .typeName := by
    constructor <;> rintro rfl <;> revert htag <;> decide
  refine Tag.front?_eq_none_of_forall_opens (Layers.unescaped_text_ofText text) (fun c hc => ?_) huv hv
  have hblank := (Layers.veils_ofText text).isBlank_eq_false hplain c hc
  exact Tag.opens_eq_false hother.1 hother.2 hblank (hchars c hc).1

theorem isBlank_eq_false_of_ns (hns : ns = ['*'] ∨ IsPlainName ns) : ∀ c ∈ ns, isBlank c = false := by
  rcases hns with rfl | hplain
  · exact List.forall_mem_singleton.mpr (by decide)
  · exact hplain.isBlank_eq_false

-- A name with a plain namespace is one token,
theorem ofText_typeName (hns : IsPlainName ns) (hn : IsPlainName n) (hne : n ≠ []) : ofText (ns ++ '|' :: n) =
    .ok [⟨.typeName (some ns) n, ns ++ '|' :: n, 0, (ns ++ '|' :: n).length⟩] := by
  have hun := Layers.unescaped_text_ofText (ns ++ '|' :: n)
  have hveils := Layers.veils_ofText (ns ++ '|' :: n)
  have hplain : ∀ c ∈ ns ++ '|' :: n, isBlank c = false :=
    List.forall_mem_append.mpr ⟨hns.isBlank_eq_false, List.forall_mem_cons.mpr ⟨by decide, hn.isBlank_eq_false⟩⟩
  obtain ⟨a, more, hmasked, ha, -, hmore⟩ := hveils.exists_run_of_isPlainName hun hns
  obtain ⟨b, rfl, hb⟩ := hmore.eq_seen (by decide) (by decide)
  rw [hmasked] at hun
  obtain ⟨hname, hbrun⟩ := hb.matches_name_of_isPlainName hun.of_append_right.of_cons hn hne
  obtain ⟨hbalanced, hquiet⟩ := quiet_of_bar hplain hmasked (.inr ha) (.inr hbrun)
  have hstar : '*' ∉ a ++ '|' :: b := by
    simp [notMem_of_isRun ha (c := '*') (by decide), notMem_of_isRun hbrun (c := '*') (by decide)]
  have hfront := Tag.front?_typeName (isNsName_of_isRun hun.of_append_left (.inr ha)) hname
  rw [← hmasked] at hstar hfront
  have huniversal : ∀ u v, (Layers.ofText (ns ++ '|' :: n)).text = u ++ v → v ≠ [] → Tag.universal.front? v = none :=
    fun u v huv _ => Tag.front?_universal_eq_none fun hmem => hstar (by simp [huv, hmem])
  have hread := Tag.read?_of_front?_whole (Tag.front?_typeName hns.isNsName (hn.matches_name hne))
  have hall : Tag.all = (beforeUniversal ++ [.universal]) ++ .typeName :: [] := rfl
  exact ofText_of_front? (trimmed_of_forall hplain) hbalanced hall rfl
    (List.forall_mem_append.mpr ⟨hquiet, by simpa using huniversal⟩) hfront hread

section

variable (hns : ns = ['*'] ∨ IsPlainName ns)
include hns

-- so is an asterisk with any namespace,
theorem ofText_universal : ofText (ns ++ ['|', '*']) =
    .ok [⟨.universal (some ns), ns ++ ['|', '*'], 0, (ns ++ ['|', '*']).length⟩] := by
  have hname : IsNsName ns := hns.elim .inl IsPlainName.isNsName
  have hun := Layers.unescaped_text_ofText (ns ++ ['|', '*'])
  have hplain : ∀ c ∈ ns ++ ['|', '*'], isBlank c = false :=
    List.forall_mem_append.mpr ⟨isBlank_eq_false_of_ns hns, by simp; decide⟩
  obtain ⟨a, b, hmasked, -, ha, hb⟩ := (Layers.veils_ofText (ns ++ ['|', '*'])).exists_bar hun hname
  obtain ⟨more, rfl, hmore⟩ := hb.eq_seen (by decide) (by decide)
  obtain rfl := hmore.eq_nil_iff.mpr rfl
  rw [hmasked] at hun
  obtain ⟨hbalanced, hquiet⟩ := quiet_of_bar hplain hmasked ha (.inl rfl)
  have hfront := Tag.front?_universal (isNsName_of_isRun hun.of_append_left ha)
  rw [← hmasked] at hfront
  have hread := Tag.read?_of_front?_whole (Tag.front?_universal hname)
  have hall : Tag.all = beforeUniversal ++ .universal :: [.typeName] := rfl
  exact ofText_of_front? (trimmed_of_forall hplain) hbalanced hall rfl hquiet hfront hread

-- and so is an attribute.
theorem ofText_attr (hn : IsPlainName n) (hne : n ≠ []) : ofText ('[' :: ns ++ '|' :: n ++ [']']) =
    .ok [⟨.attr (some ns) n none none none, '[' :: ns ++ '|' :: n ++ [']'], 0,
      ('[' :: ns ++ '|' :: n ++ [']']).length⟩] := by
  have hname : IsNsName ns := hns.elim .inl IsPlainName.isNsName
  have hnsblank := isBlank_eq_false_of_ns hns
  have hread := Tag.read?_of_front?_whole
    (Tag.front?_attr hname (fun c hc => hnsblank c (List.mem_of_head? hc)) (hn.matches_name hne))
  have hsource : '[' :: ns ++ '|' :: n ++ [']'] = '[' :: (ns ++ '|' :: (n ++ [']'])) := by simp
  rw [hsource] at hread ⊢
  have hplain : ∀ c ∈ '[' :: (ns ++ '|' :: (n ++ [']'])), isBlank c = false := by
    simpa [or_imp, forall_and] using ⟨(by decide : isBlank '[' = false), hnsblank, (by decide : isBlank '|' = false),
      hn.isBlank_eq_false, (by decide : isBlank ']' = false)⟩
  have hun := Layers.unescaped_text_ofText ('[' :: (ns ++ '|' :: (n ++ [']'])))
  have hveils := Layers.veils_ofText ('[' :: (ns ++ '|' :: (n ++ [']'])))
  have hblank := hveils.isBlank_eq_false hplain
  obtain ⟨w, hmasked, hinside⟩ := hveils.eq_seen (by decide) (by decide)
  rw [hmasked] at hun hblank
  obtain ⟨a, w, rfl, -, ha, hnamed⟩ := hinside.exists_bar hun.of_cons hname
  have hnamedun := hun.of_cons.of_append_right.of_cons
  obtain ⟨b, w, rfl, hb, hlength, hclosing⟩ := hnamed.exists_run_of_isPlainName hnamedun hn
  obtain ⟨w, rfl, hend⟩ := hclosing.eq_seen (by decide) (by decide)
  obtain rfl := hend.eq_nil_iff.mpr rfl
  have hbne : b ≠ [] := by
    rintro rfl
    exact hne (List.length_eq_zero_iff.mp hlength.symm)
  have hfront := Tag.front?_attr (isNsName_of_isRun hun.of_cons.of_append_left ha)
    (fun c hc => hblank c (by simp [List.mem_of_head? hc])) ((matches_name hnamedun.of_append_left).mpr ⟨hbne, hb⟩)
  have hsame : '[' :: a ++ '|' :: b ++ [']'] = '[' :: (a ++ '|' :: (b ++ [']'])) := by simp
  rw [hsame, ← hmasked] at hfront
  have hchars := notMem_signs_of_bar ha (.inr hb)
  have hparens : ∀ c ∈ '[' :: (a ++ '|' :: (b ++ [']'])), c ≠ '(' ∧ c ≠ ')' := by
    intro c hc
    rw [← hsame] at hc
    rcases List.mem_append.mp hc with hc | hc
    · rcases List.mem_cons.mp hc with rfl | hc
      · decide
      · exact (hchars c hc).2
    · obtain rfl := List.mem_singleton.mp hc
      decide
  rw [← hmasked] at hparens
  have hall : Tag.all = [] ++ .attr :: Tag.all.tail := rfl
  exact ofText_of_front? (trimmed_of_forall hplain) (Layers.imbalanceFrom_eq_none hparens) hall rfl (by simp) hfront hread

end

-- Asterisks are looked for before names, so the one for any namespace is cut off by itself, and its
-- bar is left to the name.
private theorem fragments_star {b : Text} (hname : name.Matches b) (hrun : IsRun b)
    (hquiet : ∀ tag ∈ beforeUniversal, ∀ u v, '*' :: '|' :: b = u ++ v → v ≠ [] → tag.front? v = none) :
    Fragment.ofText ('*' :: '|' :: b) = [.cut (.universal none) ['*'], .cut (.typeName (some []) b) ('|' :: b)] := by
  have hnot : '*' ∉ '|' :: b := by simp [notMem_of_isRun hrun (c := '*') (by decide)]
  have hstar : Tag.universal.front? ('*' :: '|' :: b) = some (.universal none, 1) :=
    Tag.front?_star fun hhead => hnot (List.mem_cons_of_mem _ (List.mem_of_head? hhead))
  have hrest : Tag.typeName.front? ('|' :: b) = some (.typeName (some []) b, ('|' :: b).length) :=
    Tag.front?_typeName (.inr ⟨[], by simp, rfl⟩) hname
  have hnone : ∀ u v, '|' :: b = u ++ v → v ≠ [] → Tag.universal.front? (v ++ []) = none := by
    intro u v huv _
    rw [List.append_nil]
    exact Tag.front?_universal_eq_none fun hmem => hnot (huv ▸ List.mem_append_right u hmem)
  have hcutting : Fragment.Cutting .universal (['*'] ++ ('|' :: b ++ []))
      [.cut (.universal none) ['*'], .uncut ('|' :: b)] :=
    .cut (by simpa using hstar) (.uncut (by simp) hnone (by simp) .nil)
  rw [List.append_nil, List.singleton_append] at hcutting
  have hall : Tag.all = beforeUniversal ++ .universal :: [.typeName] := rfl
  rw [Fragment.ofText_eq_passes_cutOut hall (by simp) hquiet, hcutting.cutOut_eq, Fragment.passes_cut_cons,
    Fragment.passes_cons_uncut, Fragment.cutOut_eq_cut hrest]
  rfl

theorem ofText_star (hn : IsPlainName n) (hne : n ≠ []) : ofText ('*' :: '|' :: n) =
    .ok [⟨.universal none, ['*'], 0, 1⟩, ⟨.typeName (some []) n, '|' :: n, 1, n.length + 2⟩] := by
  have hun := Layers.unescaped_text_ofText ('*' :: '|' :: n)
  have hplain : ∀ c ∈ '*' :: '|' :: n, isBlank c = false :=
    List.forall_mem_cons.mpr ⟨by decide, List.forall_mem_cons.mpr ⟨by decide, hn.isBlank_eq_false⟩⟩
  obtain ⟨w, hmasked, hbar⟩ := (Layers.veils_ofText ('*' :: '|' :: n)).eq_seen (by decide) (by decide)
  obtain ⟨b, rfl, hb⟩ := hbar.eq_seen (by decide) (by decide)
  rw [hmasked] at hun
  obtain ⟨hname, hrun⟩ := hb.matches_name_of_isPlainName hun.of_cons.of_cons hn hne
  obtain ⟨hbalanced, hquiet⟩ := quiet_of_bar hplain (a := ['*']) hmasked (.inl rfl) (.inr hrun)
  rw [hmasked] at hquiet
  let words : List Word := [⟨.universal none, ['*']⟩, ⟨.typeName (some []) b, '|' :: b⟩]
  have hcut : Fragment.ofText (Layers.ofText ('*' :: '|' :: n)).text = words.map Word.fragment := by
    rw [hmasked, fragments_star hname hrun hquiet]
    rfl
  -- The first piece is as long as its word, so the source is divided at the bar, too.
  obtain ⟨ps, hreading, hps⟩ := Piece.exists_reading_of_words hbalanced hcut
  obtain ⟨p, ps, rfl, hp, hps⟩ := List.map_eq_cons_iff.mp hps
  obtain ⟨q, rfl, hq⟩ := List.map_eq_singleton_iff.mp hps
  obtain ⟨hpkind, hptext⟩ := Word.mk.inj hp
  obtain ⟨hqkind, -⟩ := Word.mk.inj hq
  have hlength : p.source.length = 1 := by
    rw [Piece.source, ← (hreading.linked p List.mem_cons_self).length_text, hptext]
    rfl
  have hsource : p.source ++ q.source = ['*'] ++ '|' :: n := by
    simpa [Piece.joined, Piece.source] using hreading.source_joined
  obtain ⟨hpsource, hqsource⟩ := List.append_inj hsource hlength
  have hptag : p.tag = .universal := congrArg Kind.tag hpkind
  have hqtag : q.tag = .typeName := congrArg Kind.tag hqkind
  have hpread : p.tag.read? p.source = some (.universal none) := by
    rw [hptag, hpsource]
    rfl
  have hqread : q.tag.read? q.source = some (.typeName (some []) n) := by
    rw [hqtag, hqsource]
    exact Tag.read?_of_front?_whole (Tag.front?_typeName (.inr ⟨[], by simp, rfl⟩) (hn.matches_name hne))
  have hptoken := Piece.token?_of_not_delimits (by rw [hptag]; rfl) hpread 0
  have hqtoken := Piece.token?_of_not_delimits (by rw [hqtag]; rfl) hqread 1
  refine ofText_eq_ok_iff.mpr ⟨[p, q], (trimmed_of_forall hplain).trim_eq.symm ▸ hreading, ?_⟩
  simp [Piece.tokensFrom?, hptoken, hqtoken, hpsource, hqsource]
  omega

-- A namespace stays with the asterisk, attribute or name that it is written before, unless it is the
-- asterisk for any namespace before a name.
theorem ofText_namespaced (hns : ns = ['*'] ∨ IsPlainName ns) (hn : IsPlainName n) (hne : n ≠ []) :
    ofText (ns ++ ['|', '*']) = .ok [⟨.universal (some ns), ns ++ ['|', '*'], 0, (ns ++ ['|', '*']).length⟩] ∧
      ofText ('[' :: ns ++ '|' :: n ++ [']']) = .ok [⟨.attr (some ns) n none none none, '[' :: ns ++ '|' :: n ++ [']'], 0,
        ('[' :: ns ++ '|' :: n ++ [']']).length⟩] ∧
      ofText (ns ++ '|' :: n) = .ok (if ns = ['*'] then
        [⟨.universal none, ['*'], 0, 1⟩, ⟨.typeName (some []) n, '|' :: n, 1, n.length + 2⟩]
      else [⟨.typeName (some ns) n, ns ++ '|' :: n, 0, (ns ++ '|' :: n).length⟩]) := by
  refine ⟨ofText_universal hns, ofText_attr hns hn hne, ?_⟩
  rcases hns with rfl | hplain
  · exact ofText_star hn hne
  · rw [if_neg hplain.ne_star, ofText_typeName hplain hn hne]

theorem ofText_namespaced_escaped :
    ofText ['a', '\\', '|', '|', '*'] = .ok [⟨.universal (some ['a', '\\', '|']), ['a', '\\', '|', '|', '*'], 0, 5⟩] ∧
    ofText ['[', 'a', '\\', '|', '|', 'é', ']'] =
      .ok [⟨.attr (some ['a', '\\', '|']) ['é'] none none none, ['[', 'a', '\\', '|', '|', 'é', ']'], 0, 7⟩] ∧
    ofText ['a', '\\', '|', '|', 'é'] =
      .ok [⟨.typeName (some ['a', '\\', '|']) ['é'], ['a', '\\', '|', '|', 'é'], 0, 5⟩] := by
  have hns : IsPlainName ['a', '\\', '|'] :=
    ⟨[['a'], ['\\', '|']], by simpa using ⟨⟨'a', by decide⟩, '|', by decide⟩, rfl⟩
  have hn : IsPlainName ['é'] := ⟨[['é']], by simpa using ⟨'é', by decide⟩, rfl⟩
  have hall := ofText_namespaced (.inr hns) hn (by decide)
  rw [if_neg (by decide)] at hall
  exact hall

-- Before a name the asterisk for any namespace is cut off.
theorem not_ofText_namespaced : ¬∀ ns n, (ns = ['*'] ∨ IsPlainName ns) → IsPlainName n → n ≠ [] →
    ofText (ns ++ '|' :: n) = .ok [⟨.typeName (some ns) n, ns ++ '|' :: n, 0, (ns ++ '|' :: n).length⟩] := by
  intro hall
  have htokens : ofText ['*', '|', 'a'] =
    .ok [⟨.universal none, ['*'], 0, 1⟩, ⟨.typeName (some []) ['a'], ['|', 'a'], 1, 3⟩] := rfl
  have hn : IsPlainName ['a'] := ⟨[['a']], by simpa using ⟨'a', by decide⟩, rfl⟩
  have hone : ofText ['*', '|', 'a'] = .ok [⟨.typeName (some ['*']) ['a'], ['*', '|', 'a'], 0, 3⟩] :=
    hall ['*'] ['a'] (.inl rfl) hn (by decide)
  rw [htokens] at hone
  simp at hone

end Token

end CssSelectors
