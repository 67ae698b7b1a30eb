import CssSelectors.Argument

namespace CssSelectors.Selector

-- A property that a selector has whenever all that stands in it has it, the subtrees of its tokens included.
structure Hereditary (motive : Selector → Prop) : Prop where
  leaf : ∀ token : Token, (∀ tree, token.kind.subtree? = some tree → motive tree) → motive (.leaf token)
  compound : ∀ tokens : List Token,
    (∀ token ∈ tokens, ∀ tree, token.kind.subtree? = some tree → motive tree) → motive (.compound tokens)
  complex : ∀ combinator (left right : Selector), motive left → motive right → motive (.complex combinator left right)
  list : ∀ alternatives : List Selector, (∀ tree ∈ alternatives, motive tree) → motive (.list alternatives)

namespace Hereditary

variable {motive : Selector → Prop}

mutual

-- All selectors have it.
theorem all (h : Hereditary motive) (tree : Selector) : motive tree := by
  cases tree with
  | leaf token => exact h.leaf token (h.subtree token)
  | compound tokens => exact h.compound tokens (h.subtrees tokens)
  | complex combinator left right => exact h.complex combinator left right (h.all left) (h.all right)
  | list alternatives => exact h.list alternatives (h.alternatives alternatives)

theorem subtree (h : Hereditary motive) (token : Token) : ∀ tree, token.kind.subtree? = some tree → motive tree := by
  intro tree htree
  obtain ⟨kind, content, start, stop⟩ := token
  cases kind with
  | pseudoClass name argument index subtree =>
    cases subtree with
    | none => cases htree
    | some subtree =>
      obtain rfl : subtree = tree := Option.some.inj htree
      exact h.all subtree
  | _ => cases htree

theorem subtrees (h : Hereditary motive) (tokens : List Token) :
    ∀ token ∈ tokens, ∀ tree, token.kind.subtree? = some tree → motive tree := by
  cases tokens with
  | nil => exact fun _ hmem => absurd hmem List.not_mem_nil
  | cons token more => exact List.forall_mem_cons.mpr ⟨h.subtree token, h.subtrees more⟩

theorem alternatives (h : Hereditary motive) (trees : List Selector) : ∀ tree ∈ trees, motive tree := by
  cases trees with
  | nil => exact fun _ hmem => absurd hmem List.not_mem_nil
  | cons tree more => exact List.forall_mem_cons.mpr ⟨h.all tree, h.alternatives more⟩

end

end Hereditary

end CssSelectors.Selector
