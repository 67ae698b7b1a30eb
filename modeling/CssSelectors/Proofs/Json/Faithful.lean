import CssSelectors.Proofs.Json.Reading
import CssSelectors.Proofs.Json.Same

namespace CssSelectors

open Json

theorem tokensToJson_eq_map (tokens : List Token) : tokensToJson tokens = tokens.map Token.toJson := by
  induction tokens with
  | nil => rfl
  | cons token more ih => rw [tokensToJson, ih, List.map_cons]

theorem selectorsToJson_eq_map (trees : List Selector) : selectorsToJson trees = trees.map Selector.toJson := by
  induction trees with
  | nil => rfl
  | cons tree more ih => rw [selectorsToJson, ih, List.map_cons]

namespace Selector

-- The word that says what a selector is.
def word : Selector → String
  | .leaf token => token.tag.text
  | .compound _ => "compound"
  | .complex .. => "complex"
  | .list _ => "list"

theorem exists_members (tree : Selector) :
    ∃ members, toJson tree = .obj members ∧ Members.word members = .ok tree.word := by
  cases tree with
  | leaf token => exact ⟨_, by rw [toJson, Token.toJson_eq], token.word_members⟩
  | compound tokens => exact ⟨_, rfl, rfl⟩
  | complex combinator left right => exact ⟨_, rfl, rfl⟩
  | list alternatives => exact ⟨_, rfl, rfl⟩

theorem word_eq_of_same {tree other : Selector} (h : Same (toJson tree) (toJson other)) : tree.word = other.word := by
  obtain ⟨members, hmembers, hword⟩ := tree.exists_members
  obtain ⟨others, hothers, hword'⟩ := other.exists_members
  rw [hmembers, hothers] at h
  exact Except.ok.inj (hword.symm.trans (h.word_eq.trans hword'))

-- The word tells the node.
theorem exists_of_word (tree : Selector) :
    (tree.word = "compound" → ∃ tokens, tree = .compound tokens) ∧
    (tree.word = "complex" → ∃ combinator left right, tree = .complex combinator left right) ∧
    (tree.word = "list" → ∃ alternatives, tree = .list alternatives) ∧
    ∀ tag : Tag, tree.word = tag.text → ∃ token, tree = .leaf token := by
  have hnode : ∀ {word : String} {tag : Tag}, word ∈ ["list", "complex", "compound"] → word ≠ tag.text := by
    rintro word tag hword rfl
    obtain ⟨hlist, hcomplex, hcompound⟩ := tag.text_ne
    simp [hlist, hcomplex, hcompound] at hword
  cases tree with
  | leaf token => simp [word, token.tag.text_ne]
  | compound tokens => simp [word, hnode]
  | complex combinator left right => simp [word, hnode]
  | list alternatives => simp [word, hnode]

end Selector

theorem Token.place_eq_of_same {token other : Token} (h : Same (.obj token.members) (.obj other.members)) :
    Members.place token.members = Members.place other.members := by
  have hlookup := h.lookup "pos"
  rw [members, members, Kind.lookup_members_append _ (by simp), Kind.lookup_members_append _ (by simp)] at hlookup
  have hpos : Same (.arr [.ofNat token.start, .ofNat token.stop]) (.arr [.ofNat other.start, .ofNat other.stop]) :=
    Option.rel_some_some.mp hlookup
  obtain ⟨hstart, hmore⟩ := List.forall₂_cons.mp hpos.forall₂
  obtain ⟨hstop, -⟩ := List.forall₂_cons.mp hmore
  rw [place_members, place_members, hstart.eq_of_ofNat, hstop.eq_of_ofNat]

-- Tokens that say the same are the same, if that holds of their subtrees.
theorem Token.eq_of_same {token other : Token} (h : Same (.obj token.members) (.obj other.members))
    (hsub : ∀ tree, token.kind.subtree? = some tree →
      ∀ tree', Same (Selector.toJson tree) (Selector.toJson tree') → tree = tree') : token = other := by
  have hsubtree : token.kind.subtree? = other.kind.subtree? := by
    have hlookup := h.lookup "subtree"
    rw [members, members, Kind.lookup_members_subtree, Kind.lookup_members_subtree] at hlookup
    generalize other.kind.subtree? = subtree' at hlookup ⊢
    generalize token.kind.subtree? = subtree at hlookup hsub ⊢
    cases subtree <;> cases subtree' <;> cases hlookup
    case none.none => rfl
    case some.some tree tree' hsame => rw [hsub tree rfl tree' hsame]
  have hread := h.token_eq (place_eq_of_same h) (.ok token.kind.subtree?)
  rw [token.token_members, hsubtree, other.token_members] at hread
  exact Except.ok.inj hread

namespace Selector

-- Selectors whose values say the same are the same.
theorem hereditary_same : Hereditary fun tree => ∀ other, Same (toJson tree) (toJson other) → tree = other where
  leaf token hsub other h := by
    obtain ⟨-, -, -, hleaf⟩ := exists_of_word other
    obtain ⟨token', rfl⟩ := hleaf token.tag (word_eq_of_same h).symm
    rw [toJson, toJson, Token.toJson_eq, Token.toJson_eq] at h
    rw [Token.eq_of_same h hsub]
  compound tokens hsub other h := by
    obtain ⟨hcompound, -⟩ := exists_of_word other
    obtain ⟨tokens', rfl⟩ := hcompound (word_eq_of_same h).symm
    rw [toJson, toJson] at h
    have hitems : Same (.arr (tokensToJson tokens)) (.arr (tokensToJson tokens')) :=
      Option.rel_some_some.mp (h.lookup "list")
    rw [tokensToJson_eq_map, tokensToJson_eq_map] at hitems
    refine congrArg Tree.compound (eq_of_forall₂_map (fun token hmem token' hsame => ?_) hitems.forall₂)
    rw [Token.toJson_eq, Token.toJson_eq] at hsame
    exact Token.eq_of_same hsame (hsub token hmem)
  complex combinator left right hleft hright other h := by
    obtain ⟨-, hcomplex, -⟩ := exists_of_word other
    obtain ⟨combinator', left', right', rfl⟩ := hcomplex (word_eq_of_same h).symm
    rw [toJson, toJson] at h
    have hcombinator : Same (.str combinator.text) (.str combinator'.text) :=
      Option.rel_some_some.mp (h.lookup "combinator")
    have hread := combinator'.ofText?_text
    rw [← hcombinator.eq_of_str, Combinator.ofText?_text] at hread
    have hleft' : Same (toJson left) (toJson left') := Option.rel_some_some.mp (h.lookup "left")
    have hright' : Same (toJson right) (toJson right') := Option.rel_some_some.mp (h.lookup "right")
    rw [Option.some.inj hread, hleft left' hleft', hright right' hright']
  list alternatives hsub other h := by
    obtain ⟨-, -, hlist, -⟩ := exists_of_word other
    obtain ⟨alternatives', rfl⟩ := hlist (word_eq_of_same h).symm
    rw [toJson, toJson] at h
    have hitems : Same (.arr (selectorsToJson alternatives)) (.arr (selectorsToJson alternatives')) :=
      Option.rel_some_some.mp (h.lookup "list")
    rw [selectorsToJson_eq_map, selectorsToJson_eq_map] at hitems
    exact congrArg Tree.list (eq_of_forall₂_map hsub hitems.forall₂)

end Selector

theorem Kind.distinctMembers_members (kind : Kind Selector)
    (h : ∀ tree, kind.subtree? = some tree → (Selector.toJson tree).Distinct) : DistinctMembers kind.members := by
  cases kind with
  | pseudoClass name argument index subtree =>
    have hsubtree : DistinctMembers (subtreeMember subtree) := by
      cases subtree with
      | none => simp [subtreeMember, DistinctMembers]
      | some tree => simp [subtreeMember, DistinctMembers, h tree rfl]
    simp [members, DistinctMembers, distinctMembers_append, distinctMembers_given, Distinct, ofString, hsubtree]
  | _ => simp [members, DistinctMembers, distinctMembers_append, distinctMembers_given, Distinct, ofString]

theorem Token.distinct_members (token : Token)
    (h : ∀ tree, token.kind.subtree? = some tree → (Selector.toJson tree).Distinct) :
    (obj token.members).Distinct := by
  refine ⟨?_, ?_⟩
  · rw [members, List.map_append]
    exact (token.kind.map_fst_members_sublist.append (.refl _)).nodup token.tag.nodup_keys
  · rw [members, distinctMembers_append]
    refine ⟨token.kind.distinctMembers_members h, ?_⟩
    simp [DistinctMembers, Distinct, DistinctItems, ofNat]

namespace Selector

theorem hereditary_distinct : Hereditary fun tree => (toJson tree).Distinct where
  leaf token h := by
    rw [toJson, Token.toJson_eq]
    exact token.distinct_members h
  compound tokens h := by
    have hitems : DistinctItems (tokensToJson tokens) := by
      rw [tokensToJson_eq_map, distinctItems_iff, List.forall_mem_map]
      intro token hmem
      rw [Token.toJson_eq]
      exact token.distinct_members (h token hmem)
    simp [toJson, Distinct, DistinctMembers, ofString, hitems]
  complex combinator left right hleft hright := by
    simp [toJson, Distinct, DistinctMembers, ofString, hleft, hright]
  list alternatives h := by
    have hitems : DistinctItems (selectorsToJson alternatives) := by
      rwa [selectorsToJson_eq_map, distinctItems_iff, List.forall_mem_map]
    simp [toJson, Distinct, DistinctMembers, ofString, hitems]

-- The value made of a selector has no key twice in one object, the selector can be read off it again,
-- and no other selector has a value that says the same.
theorem toJson_faithful (tree : Selector) :
    (toJson tree).Distinct ∧ ofJson (toJson tree) = .ok tree ∧
      ∀ other, Same (toJson tree) (toJson other) ↔ tree = other := by
  refine ⟨hereditary_distinct.all tree, ofJson_toJson tree, fun other => ⟨hereditary_same.all tree other, ?_⟩⟩
  rintro rfl
  exact Same.refl _

end Selector

end CssSelectors
