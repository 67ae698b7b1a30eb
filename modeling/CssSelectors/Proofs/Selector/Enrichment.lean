import CssSelectors.Proofs.Grammar.Counts
import CssSelectors.Proofs.Selector.Assembling
import CssSelectors.Proofs.Selector.Building
import CssSelectors.Proofs.Token.Tokenizing

namespace CssSelectors

open Pattern Token

theorem mem_selectorClasses {name : Text} (h : name ∈ countingClasses) : name ∈ selectorClasses := by
  have htakes := takesSelector_of_takesCount (decide_eq_true h : takesCount name = true)
  exact of_decide_eq_true htakes

theorem selectorIn?_of_counting {name : Text} (h : name ∈ countingClasses) (argument : Text) :
    selectorIn? name argument = (splitCount? argument).map fun (count, text) => (some count, text) := by
  rw [selectorIn?, takesCount, if_pos (decide_eq_true h)]

theorem selectorIn?_of_not_counting {name : Text} (h : name ∉ countingClasses) (argument : Text) :
    selectorIn? name argument = if name ∈ selectorClasses then some (none, argument) else none := by
  simp [selectorIn?, takesCount, takesSelector, h]

namespace Token

-- A token whose argument is not parsed yet.
def Unparsed (token : Token) : Prop := ∀ name argument index subtree,
  token.kind = .pseudoClass name argument index subtree → index = none ∧ subtree = none

theorem Unparsed.of_kind_eq {token token' : Token} (h : token.Unparsed) (hkind : token'.kind = token.kind) :
    token'.Unparsed := by
  intro name argument index subtree heq
  exact h name argument index subtree (hkind ▸ heq)

theorem unparsed_of_read? {token : Token} {tag : Tag} {content : Text} (h : tag.read? content = some token.kind) :
    token.Unparsed := by
  intro name argument index subtree hkind
  obtain ⟨reached, _, hread⟩ := Option.bind_eq_some_iff.mp h
  rw [hkind, Tag.kindAt?] at hread
  cases tag <;> simp only [Tag.kind?, Option.map_eq_some_iff, Option.some.injEq, reduceCtorEq, and_false,
    exists_false] at hread
  obtain ⟨_, _, hread⟩ := hread
  obtain ⟨_, _, hindex, hsubtree⟩ := Kind.pseudoClass.inj hread
  exact ⟨hindex.symm, hsubtree.symm⟩

-- The tokens of a text come with their arguments as they are.
theorem unparsed_of_ofText {text : Text} {tokens : List Token} (h : ofText text = .ok tokens) :
    ∀ token ∈ tokens, token.Unparsed := by
  obtain ⟨ps, _, htokens⟩ := ofText_eq_ok_iff.mp h
  intro token hmem
  obtain ⟨p, _, offset, htoken⟩ := Piece.exists_of_mem_tokensFrom? htokens hmem
  obtain ⟨kind, hkind, rfl⟩ := Option.map_eq_some_iff.mp htoken
  exact unparsed_of_read? hkind

end Token

namespace Selector

-- A token stands somewhere in a tree: at the top or in the subtree of one that does.
inductive Within (token : Token) : Selector → Prop
  | top {tree : Selector} (hmem : token ∈ tree.tokens) : Within token tree
  | inside {tree subtree : Selector} {outer : Token} (hmem : outer ∈ tree.tokens)
    (hsubtree : outer.kind.subtree? = some subtree) (hwithin : Within token subtree) : Within token tree

variable {parse : Text → Except Error Selector} {tokens : List Token} {tree : Selector} {token bare : Token}
variable {name written text : Text} {argument index : Option Text} {subtree : Option Selector}

end Selector

end CssSelectors
