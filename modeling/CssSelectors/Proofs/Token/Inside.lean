import CssSelectors.Proofs.Grammar.Counts
import CssSelectors.Proofs.Grammar.Recapture
import CssSelectors.Proofs.Masking.Inside
import CssSelectors.Proofs.Pattern.Whole
import CssSelectors.Proofs.Token.Bridging
import CssSelectors.Proofs.Token.Enclosing

namespace CssSelectors

open Unicode Pattern Grammar Masked Text

namespace Grammar

-- The letters of the words in a count and after it hide nothing,
theorem idle_of_letters {text : Text} (h : ∀ c ∈ text, c.toLower ∈ ['e', 'v', 'n', 'o', 'd', 'f']) : text.Idle := by
  have hletters : ∀ c ∈ text, decide (c.toLower ∈ ['e', 'v', 'n', 'o', 'd', 'f']) = true :=
    fun c hc => decide_eq_true (h c hc)
  exact idle_of_forall (by decide) hletters

-- and neither does a count.
theorem idle_of_matches_count {index : Text} (h : count.Matches index) : index.Idle := by
  rcases matches_count.mp h with ⟨a, b, c, e, ha, hb, hc, he, rfl⟩ | ⟨a, b, c, ha, hb, hc, rfl⟩ | ⟨front, last, hfront, hlast, rfl⟩
  · exact idle_of_letters (by simp [ha, hb, hc, he])
  · exact idle_of_letters (by simp [ha, hb, hc])
  · have hchars : ∀ c ∈ front ++ [last], isCountChar c = true := by
      intro c hc
      rcases List.mem_append.mp hc with hc | hc
      · exact hfront c hc
      · obtain rfl := List.mem_singleton.mp hc
        exact isCountChar_of_last hlast
    exact idle_of_forall (by decide) hchars

end Grammar

-- The selector in an argument that can be masked can be masked by itself, without the blanks
-- around it.
theorem maskable_of_selectorIn? {name argument text : Text} {count : Option Text} (hargument : argument.Maskable)
    (h : selectorIn? name argument = some (count, text)) : Maskable text.trim := by
  have htext : Maskable text := by
    rw [selectorIn?] at h
    split at h
    case isTrue =>
      obtain ⟨⟨index, selector⟩, hsplit, heq⟩ := Option.map_eq_some_iff.mp h
      obtain rfl := (Prod.mk.inj heq).2
      obtain ⟨before, gap, o, f, gap', after, rfl, hbefore, hindex, hgap, ho, hf, hgap', hafter⟩ :=
        exists_of_splitCount? hsplit
      have hfront : Idle (before ++ (index ++ (gap ++ ([o, f] ++ gap')))) :=
        hbefore.idle.append ((idle_of_matches_count hindex).append (hgap.idle.append
          ((idle_of_letters (by simp [ho, hf])).append hgap'.idle)))
      have hassoc : before ++ (index ++ (gap ++ o :: f :: (gap' ++ (selector ++ after)))) =
          (before ++ (index ++ (gap ++ ([o, f] ++ gap')))) ++ (selector ++ after) := by simp
      rw [hassoc, maskable_append_left hfront, maskable_append_right hafter.idle] at hargument
      exact hargument
    case isFalse =>
      split at h
      case isTrue =>
        obtain rfl := (Prod.mk.inj (Option.some.inj h)).2
        exact hargument
      case isFalse => cases h
  obtain ⟨lead, trail, hlead, htrail, hsplit⟩ := text.exists_eq_trim
  rw [hsplit, maskable_append_right htrail.idle, maskable_append_left hlead.idle] at htext
  exact htext

-- The argument of a pseudo-class is all that stands between the paren after its name and the last one.
theorem Tag.exists_of_read?_argument {content name argument : Text} {index : Option Text} {subtree : Option Selector}
    (h : Tag.pseudoClass.read? content = some (.pseudoClass name (some argument) index subtree)) :
    ∃ (units : List Text) (body : Text), (∀ unit ∈ units, nameUnit.Matches unit) ∧
      content = ':' :: (units.flatten ++ '(' :: body) ∧
      Span.of ⟨1 + units.flatten.length + 1, content.length - 1⟩ content = argument := by
  obtain ⟨t, hwhole, hkind⟩ := Option.bind_eq_some_iff.mp h
  rw [whole?_eq_finish?] at hwhole
  obtain ⟨hmem, hend⟩ := mem_of_finish? hwhole
  have hargument : (t.span? .argument).map (·.of content) = some argument := by
    obtain ⟨_, _, heq⟩ := Option.map_eq_some_iff.mp hkind
    exact (Kind.pseudoClass.inj heq).2.1
  have hbase : ∀ s, ∀ u ∈ (lit ':' : Pattern Field).outcomes s, s.rest = List.replicate 1 ':' ++ u.rest ∧ u = s.skip 1 :=
    fun s u hu => exists_of_mem_lit hu
  have hplain : plainArgument.Fieldless := ⟨trivial, trivial⟩
  obtain ⟨units, hunits, ⟨-, hspans⟩ | ⟨body, hcontent, hspans⟩⟩ := spans_of_pseudo hplain hbase hmem hend
  · rw [Cursor.span?, hspans] at hargument
    cases hargument
  · rw [Cursor.span?, hspans] at hargument
    exact ⟨units, body, hunits, hcontent, Option.some.inj hargument⟩

namespace Piece

variable {source : Text} {ps : List Piece} {p : Piece}

-- Over the name of a pseudo-class with an argument stands a name, and over the argument covers.
theorem exists_hidden_of_pseudoClass (hp : p.layers.Linked) (hfound : p.word.Found) (htag : p.tag = .pseudoClass)
    {units : List Text} (hunits : ∀ unit ∈ units, nameUnit.Matches unit) {body : Text}
    (hsource : p.source = ':' :: (units.flatten ++ '(' :: body)) : ∃ run hidden, IsRun run ∧
      run.length = units.flatten.length ∧ (∀ c ∈ hidden, isCover c = true) ∧
        p.layers.text = ':' :: run ++ '(' :: (hidden ++ [')']) := by
  have hveils : Veils Encloses p.layers.text (':' :: (units.flatten ++ '(' :: body)) := hsource ▸ hp.veils
  have hun : p.layers.text.Unescaped := hfound.unescaped
  have hshape : Tag.Shape .pseudoClass p.layers.text := htag ▸ hfound.shape
  obtain ⟨more, htext, hmore⟩ := hveils.eq_seen (by decide) (by decide)
  rw [htext] at hshape hun ⊢
  obtain ⟨run, rest, rfl, hrun, hlength, hrest⟩ := hmore.exists_run hun.of_cons hunits
  obtain ⟨rest, rfl⟩ := hrest.exists_cons (by decide)
  obtain ⟨run', group, -, hrun', hgroup, heq⟩ := hshape
  have hparen : isNameChar '(' = false := by decide
  have htail : run ++ '(' :: rest = run' ++ group := (List.cons.inj heq).2
  rcases hgroup with rfl | ⟨hidden, -, hhidden, rfl⟩
  · rw [List.append_nil] at htail
    exact absurd (htail ▸ by simp) (notMem_of_isRun hrun' hparen)
  · obtain ⟨rfl, rfl⟩ := eq_of_append_cons (notMem_of_isRun hrun hparen) (notMem_of_isRun hrun' hparen) htail
    refine ⟨run, hidden, hrun, hlength, fun c hc => ?_, rfl⟩
    rw [hhidden c hc]
    exact isCover_char .group

-- The argument of a pseudo-class can be masked by itself.
theorem Reading.maskable_argument (h : Reading source ps) (hp : p ∈ ps) (htag : p.tag = .pseudoClass)
    {name argument : Text} {index : Option Text} {subtree : Option Selector}
    (hread : p.tag.read? p.content = some (.pseudoClass name (some argument) index subtree)) : argument.Maskable := by
  have hlinked := h.linked p hp
  have hdelimits : p.tag.delimits = false := by rw [htag]; rfl
  rw [content_eq_source hdelimits, htag] at hread
  obtain ⟨units, body, hunits, hsource, hargument⟩ := Tag.exists_of_read?_argument hread
  obtain ⟨run, hidden, hrun, hlength, hhidden, htext⟩ :=
    exists_hidden_of_pseudoClass hlinked (h.found p hp) htag hunits hsource
  have hidle : Idle (':' :: run) := idle_pseudoClass hrun
  have hlast : ∀ c ∈ (':' :: run).getLast?, c ≠ '(' ∧ isQuote c = false := fun c hc =>
    ⟨(hidle.2 c (List.mem_of_getLast? hc)).1, (hidle.1 c (List.mem_of_getLast? hc)).2⟩
  obtain ⟨A, item, y, C, hgroups, hA, hy⟩ :=
    hlinked.exists_group (fun c hc => (h.loose_mem_groups hp hc).1) hlast hhidden htext
  rw [← h.layers_ofText hp] at hgroups
  obtain ⟨before, inner, after, hsplit, hbefore, hinner, hmaskable⟩ := Layers.exists_maskable_of_group hgroups
  -- The group goes on to the end of the piece, so its body is the argument.
  have hwidth : p.source.length = p.layers.text.length := hlinked.length_text.symm
  rw [htext] at hwidth
  have hafter : after = [] := by
    rw [hsplit] at hwidth
    simp only [List.length_append, List.length_cons, List.length_nil] at hwidth hA
    exact List.length_eq_zero_iff.mp (by omega)
  have hspan : (⟨1 + units.flatten.length + 1, p.source.length - 1⟩ : Span) =
      ⟨(before ++ ['(']).length, (before ++ ['(']).length + inner.length⟩ := by
    simp only [List.length_append, List.length_cons, List.length_nil] at hwidth hA ⊢
    rw [Span.mk.injEq]
    omega
  have hof : Span.of ⟨1 + units.flatten.length + 1, p.source.length - 1⟩ p.source = inner := by
    rw [hspan]
    have hparts : p.source = before ++ ['('] ++ inner ++ [')'] := by
      rw [hsplit, hafter]
      simp
    rw [hparts]
    exact Span.of_append _ inner [')']
  rwa [← hargument, hof]

end Piece

-- So what is parsed for a token of a selector can be masked by itself.
theorem Token.maskable_of_ofText {outer : Text} {tokens : List Token} (h : ofText outer = .ok tokens) {token : Token}
    (hmem : token ∈ tokens) {name argument text : Text} {index count : Option Text} {subtree : Option Selector}
    (hkind : token.kind = .pseudoClass name (some argument) index subtree)
    (hfound : selectorIn? name argument = some (count, text)) : Maskable text.trim := by
  obtain ⟨ps, hreading, htokens⟩ := ofText_eq_ok_iff.mp h
  obtain ⟨p, hp, start, htoken⟩ := Piece.exists_of_mem_tokensFrom? htokens hmem
  obtain ⟨kind, hread, rfl⟩ := Option.map_eq_some_iff.mp htoken
  obtain rfl : kind = _ := hkind
  exact maskable_of_selectorIn? (hreading.maskable_argument hp (Tag.tag_of_read? hread).symm hread) hfound

end CssSelectors
