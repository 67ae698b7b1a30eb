import CssSelectors.Proofs.Selector.Imbalance
import CssSelectors.Proofs.Token.Uncovering
import CssSelectors.Specificity

namespace CssSelectors

open Token

theorem Span.of_subset (span : Span) (text : Text) : span.of text ⊆ text :=
  fun _ hc => List.mem_of_mem_drop (List.mem_of_mem_take hc)

-- An argument is cut out of the content of its token.
theorem Tag.argument_subset {tag : Tag} {content argument : Text} {kind : Kind Selector}
    (h : tag.read? content = some kind) (hargument : kind.argument? = some argument) : argument ⊆ content := by
  obtain ⟨reached, -, hkind⟩ := Option.bind_eq_some_iff.mp h
  have hcut : (reached.span? .argument).map (·.of content) = some argument := by
    rw [Tag.kindAt?] at hkind
    cases tag <;> simp only [Tag.kind?, Option.map_eq_some_iff, Option.some.injEq] at hkind
    case pseudoElement | pseudoClass =>
      obtain ⟨_, -, rfl⟩ := hkind
      exact hargument
    case comma | combinator | universal =>
      subst hkind
      cases hargument
    all_goals
      obtain ⟨_, -, rfl⟩ := hkind
      cases hargument
  obtain ⟨span, -, rfl⟩ := Option.map_eq_some_iff.mp hcut
  exact span.of_subset content

namespace Token

-- On one line every token that is found has a meaning.
theorem not_malformed_of_ofText {text : Text} (hline : '\n' ∉ text) {tag : Tag} {content : Text} :
    ofText text ≠ .error (.malformed tag content) := by
  intro h
  rcases bind_eq_error.mp h with hmasked | ⟨masked, hmasked, h⟩
  · obtain ⟨side, offset, himbalance⟩ := Masked.isImbalance_of_ofText hmasked
    cases himbalance
  rcases bind_eq_error.mp h with hplaced | ⟨placed, hplaced, h⟩
  · obtain ⟨left, start, hleftover⟩ := exists_leftover_of_place hplaced
    cases hleftover
  obtain ⟨token, hmem, huncover⟩ := exists_of_mapM_eq_error h
  obtain ⟨kind, hkind⟩ := exists_read?_unmask hline hmasked hplaced hmem
  obtain ⟨content', hunmask, -⟩ := masked.exists_unmask_eq token
  unfold uncover at huncover
  split at huncover
  case h_1 token' hresult =>
    rw [hresult] at hkind hunmask
    obtain rfl : token' = { token with content := content' } := hunmask
    have hread : token.tag.read? content' = some kind := hkind
    have hreread : reread { token with content := content' } = .ok { token with kind, content := content' } :=
      reread_eq_ok.mpr ⟨kind, hread, rfl⟩
    rw [hreread] at huncover
    cases huncover
  case h_2 => cases huncover

end Token

namespace Selector

variable {outer inner text : Text} {tokens : List Token} {tag : Tag} {content : Text}

theorem Holds.subset (h : Holds outer inner) : inner ⊆ outer := by
  obtain ⟨tokens, htokens, token, hmem, name, written, index, subtree, count, hkind, hfound⟩ := h
  obtain ⟨ps, hreading, hpieces⟩ := ofText_eq_ok_iff.mp htokens
  obtain ⟨p, hp, start, htoken⟩ := Piece.exists_of_mem_tokensFrom? hpieces hmem
  obtain ⟨kind, hread, rfl⟩ := Option.map_eq_some_iff.mp htoken
  obtain rfl : kind = .pseudoClass name (some written) index subtree := hkind
  have hdelimits : p.tag.delimits = false := by
    rw [← Tag.tag_of_read? hread]
    rfl
  have hcontent : p.content ⊆ (Piece.joined ps).source := by
    rw [Piece.content_eq_source hdelimits]
    exact Piece.source_subset_joined hp
  rw [hreading.source_joined] at hcontent
  intro c hc
  exact Text.mem_of_mem_trim (hcontent (Tag.argument_subset hread rfl ((infix_of_selectorIn? hfound).subset hc)))

-- So are the arguments in that one, at whatever depth.
theorem subset_of_holds (h : Relation.ReflTransGen Holds outer inner) : inner ⊆ outer := by
  induction h with
  | refl => exact List.Subset.refl outer
  | tail _ hlast ih => exact fun c hc => ih (hlast.subset hc)

-- All combinators can be read, so it takes an argument to make a selector malformed.
theorem exists_holds_of_malformed {argument : Nat → Text → Except Error Selector} {options : Options} {above : Nat}
    (htokens : Token.ofText outer = .ok tokens)
    (h : build argument options above tokens = .error (.malformed tag content)) :
    ∃ chain inner, Holds outer inner ∧ argument chain inner = .error (.malformed tag content) := by
  rcases error_cases_of_build htokens h with hdeep | hassemble | ⟨-, inner, hinner, hargument⟩
  · cases hdeep
  · cases fault_of_assemble hassemble with
    | unread hmem hcombinator hunread =>
      obtain ⟨combinator, hread⟩ := exists_combinator htokens hmem hcombinator
      rw [hunread] at hread
      cases hread
  · exact ⟨_, inner, hinner, hargument⟩

theorem not_malformed_of_ofArgument {levels above : Nat} (hline : '\n' ∉ text) :
    ofArgument levels above text ≠ .error (.malformed tag content) := by
  induction levels generalizing above text with
  | zero =>
    intro h
    cases h
  | succ levels ih =>
    intro h
    rcases bind_eq_error.mp h with htokens | ⟨tokens, htokens, hbuild⟩
    · exact not_malformed_of_ofText hline htokens
    · obtain ⟨chain, inner, hinner, hargument⟩ := exists_holds_of_malformed htokens hbuild
      exact ih (fun hfeed => hline (hinner.subset hfeed)) hargument

-- It takes a line feed for a token to be found that cannot be read with its hidden parts put back. Combinators
-- can be read even then.
theorem ofText_ne_malformed :
    (∀ text, '\n' ∉ text →
      (∀ tag content, Token.ofText text ≠ .error (.malformed tag content) ∧
        (∀ options, ofText options text ≠ .error (.malformed tag content) ∧
          Specificity.ofSelector <$> ofText options text ≠ .error (.malformed tag content))) ∧
      ∀ inner, Relation.ReflTransGen Holds text inner → ∀ masked placed, Masked.ofText inner.trim = .ok masked →
        place inner.trim 0 (Fragment.ofText masked.text) = .ok placed → ∀ token ∈ placed,
          ∃ kind, kind.tag = token.tag ∧ token.tag.read? (masked.unmask token).1.content = some kind) ∧
    ∀ text tokens, Token.ofText text = .ok tokens → ∀ token ∈ tokens, token.isCombinator = true →
      ∃ combinator, Combinator.ofText? token.content = some combinator := by
  refine ⟨fun text hline => ⟨fun tag content => ?_, fun inner hinner masked placed hmasked hplaced token hmem => ?_⟩,
    fun text tokens htokens token hmem => exists_combinator htokens hmem⟩
  · have hparsed : ∀ options, ofText options text ≠ .error (.malformed tag content) := by
      intro options h
      rcases bind_eq_error.mp h with htokens | ⟨tokens, htokens, hbuild⟩
      · exact not_malformed_of_ofText hline htokens
      · obtain ⟨chain, inner, hinner, hargument⟩ := exists_holds_of_malformed htokens hbuild
        exact not_malformed_of_ofArgument (fun hfeed => hline (hinner.subset hfeed)) hargument
    exact ⟨not_malformed_of_ofText hline, fun options => ⟨hparsed options, fun h => hparsed options (map_eq_error.mp h)⟩⟩
  · have hfeed : '\n' ∉ inner := fun hfeed => hline (subset_of_holds hinner hfeed)
    obtain ⟨kind, hkind⟩ := exists_read?_unmask hfeed hmasked hplaced hmem
    exact ⟨kind, Tag.tag_of_read? hkind, hkind⟩

-- An escape in an argument, and one of a line feed.
theorem ofText_ne_malformed_nested : '\n' ∉ "a :is(.b\\:)".toList ∧
    Relation.ReflTransGen Holds "a :is(.b\\:)".toList ".b\\:".toList ∧
    (∃ kind, kind.tag = .className ∧ Tag.read? .className ".b\\:".toList = some kind) ∧
    ofText {} "a :is(.b\\:)".toList ≠ .error (.malformed .className ".b\\:".toList) ∧
    (∃ combinator, Combinator.ofText? [' '] = some combinator) ∧
    ofText {} "a :is(.b\\\nc)".toList = .error (.malformed .className ".b\\\nc".toList) := by
  have hline : '\n' ∉ "a :is(.b\\:)".toList := by decide
  let space : Token := ⟨.combinator, [' '], 1, 2⟩
  let token : Token := ⟨.pseudoClass "is".toList (some ".b\\:".toList) none none, ":is(.b\\:)".toList, 2, 11⟩
  have htokens : Token.ofText "a :is(.b\\:)".toList = .ok [⟨.typeName none ['a'], ['a'], 0, 1⟩, space, token] := rfl
  have hholds : Holds "a :is(.b\\:)".toList ".b\\:".toList :=
    ⟨_, htokens, token, by simp, "is".toList, _, none, none, none, rfl, rfl⟩
  have hnested : Relation.ReflTransGen Holds "a :is(.b\\:)".toList ".b\\:".toList := .single hholds
  obtain ⟨hnever, hread⟩ := ofText_ne_malformed.1 _ hline
  refine ⟨hline, hnested, ?_, ((hnever _ _).2 {}).1, ?_, rfl⟩
  · exact hread _ hnested _ _ rfl rfl _ List.mem_cons_self
  · exact ofText_ne_malformed.2 _ _ htokens space (by simp) rfl

end Selector

end CssSelectors
