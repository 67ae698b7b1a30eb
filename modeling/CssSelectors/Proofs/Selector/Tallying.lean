import CssSelectors.Proofs.Selector.Parts
import CssSelectors.Proofs.Token.Inside
import CssSelectors.Proofs.Token.Tiling

namespace CssSelectors

open Pattern Token

mutual

-- How many tokens a selector holds, those of the selectors in arguments included.
def Selector.tally : Selector → Nat
  | .leaf token => token.tally
  | .compound tokens => tallyTokens tokens
  | .complex _ left right => Selector.tally left + Selector.tally right
  | .list alternatives => tallySelectors alternatives

def Token.tally : Token → Nat
  | ⟨kind, _, _, _⟩ => kind.tallyInside + 1

def Kind.tallyInside : Kind Selector → Nat
  | .pseudoClass _ _ _ (some subtree) => Selector.tally subtree
  | _ => 0

def tallyTokens : List Token → Nat
  | [] => 0
  | token :: more => token.tally + tallyTokens more

def tallySelectors : List Selector → Nat
  | [] => 0
  | tree :: more => Selector.tally tree + tallySelectors more

end

theorem tallyTokens_append (tokens more : List Token) :
    tallyTokens (tokens ++ more) = tallyTokens tokens + tallyTokens more := by
  induction tokens with
  | nil => rw [List.nil_append, tallyTokens, Nat.zero_add]
  | cons token tokens ih => rw [List.cons_append, tallyTokens, tallyTokens, ih, Nat.add_assoc]

namespace Selector

mutual

-- The tally is a matter of the tokens alone.
theorem tally_eq_tallyTokens (tree : Selector) : tree.tally = tallyTokens tree.tokens := by
  cases tree with
  | leaf token => rw [tally, Tree.tokens, tallyTokens, tallyTokens, Nat.add_zero]
  | compound tokens => rw [tally, Tree.tokens]
  | complex combinator left right =>
    rw [tally, Tree.tokens, tallyTokens_append, tally_eq_tallyTokens left, tally_eq_tallyTokens right]
  | list alternatives => rw [tally, Tree.tokens, tallySelectors_eq_tallyTokens alternatives]

theorem tallySelectors_eq_tallyTokens (trees : List Selector) :
    tallySelectors trees = tallyTokens (Tree.tokensAll trees) := by
  cases trees with
  | nil => rfl
  | cons tree more =>
    rw [tallySelectors, Tree.tokensAll, tallyTokens_append, tally_eq_tallyTokens tree,
      tallySelectors_eq_tallyTokens more]

end

end Selector

namespace Token

variable {token : Token}

theorem tally_of_subtree {tree : Selector} (h : token.kind.subtree? = some tree) : token.tally = tree.tally + 1 := by
  obtain ⟨kind, content, start, stop⟩ := token
  cases kind with
  | pseudoClass name argument index subtree =>
    obtain rfl : subtree = some tree := h
    rfl
  | _ => cases h

theorem Unparsed.tally_eq_one (h : token.Unparsed) : token.tally = 1 := by
  obtain ⟨kind, content, start, stop⟩ := token
  cases kind with
  | pseudoClass name argument index subtree =>
    obtain ⟨-, rfl⟩ := h name argument index subtree rfl
    rfl
  | _ => rfl

-- How much of the source a token covers.
def extent (token : Token) : Nat := token.stop - token.start

theorem Tiles.extent_pos {start stop : Nat} {tokens : List Token} (h : Tiles start tokens stop) :
    ∀ token ∈ tokens, 0 < token.extent := by
  induction tokens generalizing start with
  | nil => exact fun _ hmem => absurd hmem List.not_mem_nil
  | cons token more ih =>
    obtain ⟨rfl, hstop, hmore⟩ := h
    refine List.forall_mem_cons.mpr ⟨?_, ih hmore⟩
    rw [extent]
    omega

-- Tokens that tile a text, or some of them, have no more in them than the text has characters, if none of them has more
-- in it than it covers.
theorem Tiles.tallyTokens_le {start stop : Nat} {tokens held tokens' : List Token} (h : Tiles start tokens stop)
    (hheld : held.Sublist tokens)
    (htallies : List.Forall₂ (fun token token' => token'.tally ≤ token.extent) held tokens') :
    start + tallyTokens tokens' ≤ stop := by
  induction hheld generalizing start tokens' with
  | slnil =>
    cases htallies
    exact Nat.le_of_eq h
  | cons token _ ih =>
    obtain ⟨rfl, hstop, hmore⟩ := h
    have hrest := ih hmore htallies
    omega
  | cons_cons token _ ih =>
    obtain ⟨rfl, hstop, hmore⟩ := h
    obtain ⟨token', more', htoken, hmore', rfl⟩ := List.forall₂_cons_left_iff.mp htallies
    have hrest := ih hmore hmore'
    rw [extent] at htoken
    rw [tallyTokens]
    omega

theorem tiles_trim_of_ofText {text : Text} {tokens : List Token} (h : ofText text = .ok tokens) :
    Tiles 0 tokens text.trim.length := by
  obtain ⟨ps, hreading, htokens⟩ := ofText_eq_ok_iff.mp h
  have htiles : Tiles 0 tokens (Piece.joined ps).source.length :=
    (tiles_of_tokensFrom? [] hreading.linked hreading.found htokens).1
  rwa [hreading.source_joined] at htiles

end Token

-- An argument is shorter than the content of its token, which has a colon, a name and two parens besides.
theorem Tag.length_argument_lt {content name argument : Text} {index : Option Text} {subtree : Option Selector}
    (h : Tag.pseudoClass.read? content = some (.pseudoClass name (some argument) index subtree)) :
    argument.length < content.length := by
  obtain ⟨units, body, -, hcontent, rfl⟩ := Tag.exists_of_read?_argument h
  have hlength := congrArg List.length hcontent
  rw [List.length_cons] at hlength
  rw [Span.of, Text.length_slice]
  dsimp only
  omega

theorem Token.length_argument_lt_extent {text : Text} {tokens : List Token} (h : ofText text = .ok tokens)
    {token : Token} (hmem : token ∈ tokens) {name argument : Text} {index : Option Text} {subtree : Option Selector}
    (hkind : token.kind = .pseudoClass name (some argument) index subtree) : argument.length < token.extent := by
  obtain ⟨ps, -, htokens⟩ := ofText_eq_ok_iff.mp h
  obtain ⟨p, -, start, htoken⟩ := Piece.exists_of_mem_tokensFrom? htokens hmem
  obtain ⟨kind, hread, rfl⟩ := Option.map_eq_some_iff.mp htoken
  obtain rfl : kind = .pseudoClass name (some argument) index subtree := hkind
  have htag : p.tag = .pseudoClass := (Tag.tag_of_read? hread).symm
  have hdelimits : p.tag.delimits = false := by rw [htag]; rfl
  rw [htag, Piece.content_eq_source hdelimits] at hread
  rw [extent, Nat.add_sub_cancel_left]
  exact Tag.length_argument_lt hread

-- What a tree holds of tokens without their arguments parsed are some of these, in the same order.
theorem Token.sublist_of_becomes {tokens : List Token} {parts : List (Part Token)}
    (h : List.Forall₂ Becomes tokens parts) : ((parts.filterMap Part.held?).map erased).Sublist tokens := by
  induction h with
  | nil => exact List.nil_sublist _
  | @cons token part tokens parts hbecomes _ ih =>
    cases hbecomes with
    | held hnot herased =>
      rw [← herased]
      exact ih.cons_cons _
    | joint _ _ => exact ih.cons _
    | separator _ => exact ih.cons _

namespace Selector

variable {tree bare : Selector} {tokens : List Token} {text : Text} {list : Bool}

theorem tokens_sublist_of_assemble (htokens : Token.ofText text = .ok tokens) (h : assemble list tokens = .ok tree) :
    tree.tokens.Sublist tokens := by
  have hsublist := Token.sublist_of_becomes (becomes_of_assemble (unparsed_of_ofText htokens) h)
  rw [← Tree.tokens_eq_filterMap] at hsublist
  have hself : tree.tokens.map erased = tree.tokens :=
    (List.map_congr_left fun token hmem => (unparsed_of_assemble htokens h token hmem).erased_eq).trans (List.map_id _)
  rwa [hself] at hsublist

variable {argument : Nat → Text → Except Error Selector} {options : Options} {levels above : Nat}

-- A token with its argument parsed has as many tokens in it as it has characters, at the most: those in the
-- argument fit into the argument.
theorem tally_le_of_attach {parse : Text → Except Error Selector} (htokens : Token.ofText text = .ok tokens)
    {token token' : Token} (hmem : token ∈ tokens)
    (hparse : ∀ inner subtree, parse inner = .ok subtree → subtree.tally ≤ inner.trim.length)
    (h : attach parse token = .ok token') : token'.tally ≤ token.extent := by
  rcases attach_cases h with ⟨name, argument, index, subtree, count, inner, selector, hkind, hfound, hselector, rfl⟩ |
    ⟨-, rfl⟩
  · have hshorter := length_argument_lt_extent htokens hmem hkind
    calc Token.tally _ = selector.tally + 1 := tally_of_subtree rfl
      _ ≤ inner.trim.length + 1 := Nat.succ_le_succ (hparse inner selector hselector)
      _ ≤ inner.length + 1 := Nat.succ_le_succ inner.length_trim_le
      _ ≤ argument.length + 1 := Nat.succ_le_succ (infix_of_selectorIn? hfound).length_le
      _ ≤ token.extent := hshorter
  · rw [(unparsed_of_ofText htokens token' hmem).tally_eq_one]
    exact (tiles_trim_of_ofText htokens).extent_pos token' hmem

-- The tokens of a tree share the text among them.
theorem tally_le_of_build (htokens : Token.ofText text = .ok tokens)
    (hargument : ∀ chain inner subtree, argument chain inner = .ok subtree → subtree.tally ≤ inner.trim.length)
    (h : build argument options above tokens = .ok tree) : tree.tally ≤ text.trim.length := by
  obtain ⟨-, bare, hbare, htree⟩ := build_eq_ok_iff.mp h
  have hsublist := tokens_sublist_of_assemble htokens hbare
  have htallies : List.Forall₂ (fun token token' => token'.tally ≤ token.extent) bare.tokens tree.tokens := by
    by_cases hrecursive : options.recursive = true
    · rw [if_pos hrecursive] at htree
      refine Tree.forall₂_imp (fun token hmem token' _ hattach => ?_) (Tree.mapM_eq_ok_iff.mp htree).tokens
      exact tally_le_of_attach htokens (hsublist.subset hmem) (hargument _) hattach
    · rw [if_neg hrecursive] at htree
      obtain rfl := Except.ok.inj htree
      rw [List.forall₂_same]
      intro token hmem
      rw [(unparsed_of_assemble htokens hbare token hmem).tally_eq_one]
      exact (tiles_trim_of_ofText htokens).extent_pos token (hsublist.subset hmem)
  have hle := (tiles_trim_of_ofText htokens).tallyTokens_le hsublist htallies
  rwa [Nat.zero_add, ← tally_eq_tallyTokens] at hle

theorem tally_le_of_ofArgument (h : ofArgument levels above text = .ok tree) : tree.tally ≤ text.trim.length := by
  induction levels generalizing above text tree with
  | zero => cases h
  | succ levels ih =>
    obtain ⟨tokens, htokens, hbuild⟩ := bind_eq_ok.mp h
    exact tally_le_of_build htokens (fun _ _ _ => ih) hbuild

-- A selector holds no more tokens than its text has characters, at whatever depth they stand.
theorem tally_le_of_ofText (h : ofText options text = .ok tree) : tree.tally ≤ text.trim.length := by
  obtain ⟨tokens, htokens, hbuild⟩ := bind_eq_ok.mp h
  exact tally_le_of_build htokens (fun _ _ _ => tally_le_of_ofArgument) hbuild

end Selector

end CssSelectors
