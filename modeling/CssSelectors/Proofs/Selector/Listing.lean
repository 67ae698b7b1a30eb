import CssSelectors.Proofs.Selector.Assembling

namespace CssSelectors

-- If a token is a combinator, it is one that there is.
def Token.Readable (token : Token) : Prop :=
  token.isCombinator = true → ∃ combinator : Combinator, token.content = combinator.text

theorem Token.readable_of_content {token : Token}
    (h : token.isCombinator = true → token.content ∈ [[' '], ['>'], ['+'], ['~']]) : token.Readable := by
  intro htoken
  have hcontent := h htoken
  simp only [List.mem_cons, List.not_mem_nil, or_false] at hcontent
  rcases hcontent with hcontent | hcontent | hcontent | hcontent
  · exact ⟨.descendant, hcontent⟩
  · exact ⟨.child, hcontent⟩
  · exact ⟨.nextSibling, hcontent⟩
  · exact ⟨.subsequentSibling, hcontent⟩

namespace Selector

open Token

-- The tokens between commas: runs with one combinator between each two of them.
inductive Group : List Token → Prop
  | run {run : List Token} (hne : run ≠ []) (hrun : ∀ token ∈ run, token.delimits = false) : Group run
  | chain {group run : List Token} {token : Token} (hgroup : Group group) (htoken : token.isCombinator = true)
    (hne : run ≠ []) (hrun : ∀ token ∈ run, token.delimits = false) : Group (group ++ token :: run)

-- The tokens of a selector: groups with one comma between each two of them.
inductive Listing : List Token → Prop
  | group {group : List Token} (hgroup : Group group) : Listing group
  | list {group more : List Token} {comma : Token} (hgroup : Group group) (hcomma : comma.isComma = true)
    (hmore : Listing more) : Listing (group ++ comma :: more)

variable {tree : Selector} {tokens : List Token}

-- A tree can be made of every listing whose combinators can be read.
theorem exists_chained_of_group (h : Group tokens) (hread : ∀ token ∈ tokens, token.Readable) :
    ∃ tree, Chained tree ∧ tokens.map kept = linear tree := by
  induction h with
  | run hne hrun =>
    obtain ⟨tree, htree, hlinear⟩ := Block.exists_linear_eq hne hrun
    exact ⟨tree, .block htree, htree.map_kept_eq_iff.mpr hlinear.symm⟩
  | @chain group run token _ htoken hne hrun ih =>
    obtain ⟨hgroup, hmore⟩ := List.forall_mem_append.mp hread
    obtain ⟨left, hleft, hlinear⟩ := ih hgroup
    obtain ⟨right, hright, rfl⟩ := Block.exists_linear_eq hne hrun
    obtain ⟨combinator, hcontent⟩ := hmore token List.mem_cons_self htoken
    refine ⟨.complex combinator left right, .complex combinator hleft hright, ?_⟩
    rw [List.map_append, List.map_cons, hlinear, kept_eq_ofCombinator_iff.mpr ⟨htoken, hcontent⟩,
      map_kept_eq_self hrun, linear]

theorem exists_trees_of_listing (h : Listing tokens) (hread : ∀ token ∈ tokens, token.Readable) :
    ∃ tree trees, (∀ t ∈ tree :: trees, Chained t) ∧ tokens.map kept = linearAll (tree :: trees) := by
  induction h with
  | group hgroup =>
    obtain ⟨tree, hchained, hlinear⟩ := exists_chained_of_group hgroup hread
    exact ⟨tree, [], by simpa using hchained, by rw [hlinear, linearAll]⟩
  | @list group more comma hgroup hcomma _ ih =>
    obtain ⟨hfirst, hmore⟩ := List.forall_mem_append.mp hread
    obtain ⟨tree, hchained, hlinear⟩ := exists_chained_of_group hgroup hfirst
    obtain ⟨next, trees, hall, hlinears⟩ := ih fun token hmem => hmore token (List.mem_cons_of_mem comma hmem)
    refine ⟨tree, next :: trees, List.forall_mem_cons.mpr ⟨hchained, hall⟩, ?_⟩
    rw [List.map_append, List.map_cons, hlinear, kept_eq_separator_iff.mpr hcomma, hlinears, linearAll_cons_cons]

theorem exists_wellShaped_of_listing (h : Listing tokens) (hread : ∀ token ∈ tokens, token.Readable) :
    ∃ tree, WellShaped tree ∧ tokens.map kept = linear tree := by
  obtain ⟨tree, trees, hall, hlinear⟩ := exists_trees_of_listing h hread
  cases trees with
  | nil =>
    rw [linearAll] at hlinear
    exact ⟨tree, .single (hall tree List.mem_cons_self), hlinear⟩
  | cons next trees => exact ⟨.list (tree :: next :: trees), .list (by simp) hall, by rw [linear, hlinear]⟩

theorem group_of_chained (h : Chained tree) (hkept : tokens.map kept = linear tree) : Group tokens := by
  induction h generalizing tokens with
  | block htree =>
    obtain rfl := htree.map_kept_eq_iff.mp hkept
    exact .run htree.linear_ne_nil htree.delimits_of_mem
  | complex combinator hleft hright ih =>
    rw [linear] at hkept
    obtain ⟨before, after, rfl, hbefore, hafter⟩ := List.map_eq_append_iff.mp hkept
    obtain ⟨token, after, rfl, htoken, hafter⟩ := List.map_eq_cons_iff.mp hafter
    obtain rfl := hright.map_kept_eq_iff.mp hafter
    exact .chain (ih hbefore) (kept_eq_ofCombinator_iff.mp htoken).1 hright.linear_ne_nil hright.delimits_of_mem

theorem listing_of_linearAll {trees : List Selector} (hne : trees ≠ []) (h : ∀ tree ∈ trees, Chained tree)
    (hkept : tokens.map kept = linearAll trees) : Listing tokens := by
  induction trees generalizing tokens with
  | nil => exact absurd rfl hne
  | cons tree trees ih =>
    obtain ⟨hchained, hall⟩ := List.forall_mem_cons.mp h
    cases trees with
    | nil =>
      rw [linearAll] at hkept
      exact .group (group_of_chained hchained hkept)
    | cons next trees =>
      rw [linearAll_cons_cons] at hkept
      obtain ⟨group, after, rfl, hgroup, hafter⟩ := List.map_eq_append_iff.mp hkept
      obtain ⟨comma, after, rfl, hcomma, hafter⟩ := List.map_eq_cons_iff.mp hafter
      exact .list (group_of_chained hchained hgroup) (kept_eq_separator_iff.mp hcomma) (ih (by simp) hall hafter)

theorem listing_of_wellShaped (h : WellShaped tree) (hkept : tokens.map kept = linear tree) : Listing tokens := by
  cases h with
  | single hchained => exact .group (group_of_chained hchained hkept)
  | @list trees hlength hall =>
    refine listing_of_linearAll ?_ hall hkept
    rintro rfl
    simp at hlength

-- Tokens make up a tree if and only if they are groups between commas, and the tree has their
-- order: it is the only one whose tokens they are, and every tree of its shape is made like this.
theorem assemble_inverts_linear (hcombinator : ∀ token ∈ tokens, token.isCombinator = true →
    token.content ∈ [[' '], ['>'], ['+'], ['~']]) :
    ((∃ tree, assemble true tokens = .ok tree) ↔ Listing tokens) ∧
      (∀ tree, assemble true tokens = .ok tree ↔ WellShaped tree ∧ tokens.map kept = linear tree) ∧
      ∀ tree, WellShaped tree → assemble true (linear tree) = .ok tree := by
  refine ⟨⟨?_, fun hlisting => ?_⟩, fun tree => ofList_eq_ok_iff, fun tree hshape => ?_⟩
  · rintro ⟨tree, htree⟩
    obtain ⟨hshape, hkept⟩ := ofList_eq_ok_iff.mp htree
    exact listing_of_wellShaped hshape hkept
  · have hread : ∀ token ∈ tokens, token.Readable := fun token hmem => readable_of_content (hcombinator token hmem)
    obtain ⟨tree, hshape, hkept⟩ := exists_wellShaped_of_listing hlisting hread
    exact ⟨tree, ofList_eq_ok_iff.mpr ⟨hshape, hkept⟩⟩
  · exact ofList_eq_ok_iff.mpr ⟨hshape, hshape.map_kept_linear⟩

theorem assemble_inverts_linear_pair :
    ∃ tokens tree, textOf tokens = "#a>.b,*".toList ∧ Listing tokens ∧ assemble true tokens = .ok tree ∧
      WellShaped tree ∧ tokens.map kept = linear tree ∧ assemble true (linear tree) = .ok tree := by
  have h := @assemble_inverts_linear [⟨.id "a".toList, "#a".toList, 0, 2⟩, ⟨.combinator, ['>'], 2, 5⟩,
    ⟨.className "b".toList, ".b".toList, 5, 7⟩, ⟨.comma, [','], 7, 9⟩, ⟨.universal none, ['*'], 9, 10⟩]
    (by decide)
  have hlisting := h.1.mp ⟨_, rfl⟩
  have htree := (h.2.1 _).mp rfl
  exact ⟨_, _, rfl, hlisting, rfl, htree.1, htree.2, h.2.2 _ htree.1⟩

end Selector

end CssSelectors
