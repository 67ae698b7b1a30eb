import CssSelectors.Proofs.Tree.Traversal

namespace CssSelectors.Tree

variable {α : Type}

-- The nodes right below a node. The tokens that a compound holds count as nodes here.
def children : Tree α → List (Tree α)
  | leaf _ => []
  | compound tokens => tokens.map leaf
  | complex _ left right => [left, right]
  | list alternatives => alternatives

-- The node that is reached from a root by going to one child after the other. The same token may stand in several
-- places, so a place is the way to it.
def node? (tree : Tree α) : List Nat → Option (Tree α)
  | [] => some tree
  | i :: more => tree.children[i]?.bind fun child => child.node? more

theorem node?_cons_eq_some_iff {tree node : Tree α} {i : Nat} {more : List Nat} :
    tree.node? (i :: more) = some node ↔ ∃ child, tree.children[i]? = some child ∧ child.node? more = some node := by
  simp [node?, Option.bind_eq_some_iff]

-- The places of the tokens of a tree, one for each entry that flattening makes, in the order of the tree. The parent
-- of an entry is the node one step above.
structure Located (parent : Option (Tree α)) (tree : Tree α) (places : List (List Nat)) : Prop where
  entries : List.Forall₂ (fun place entry => tree.node? place = some (leaf entry.1) ∧
    entry.2 = if place = [] then parent else tree.node? place.dropLast) places (tree.flattenUnder parent)
  ordered : places.Pairwise (· < ·)
  complete : ∀ place token, tree.node? place = some (leaf token) → place ∈ places

-- The same for children from some index on.
structure LocatedAll (parent : Option (Tree α)) (trees : List (Tree α)) (start : Nat) (places : List (List Nat)) : Prop where
  entries : List.Forall₂ (fun place entry => ∃ i child rest, trees[i]? = some child ∧ place = (start + i) :: rest ∧
    child.node? rest = some (leaf entry.1) ∧ entry.2 = if rest = [] then parent else child.node? rest.dropLast)
    places (flattenAll parent trees)
  ordered : places.Pairwise (· < ·)
  complete : ∀ i child rest token, trees[i]? = some child → child.node? rest = some (leaf token) →
    (start + i) :: rest ∈ places

variable {parent : Option (Tree α)} {tree : Tree α} {more : List (Tree α)} {start : Nat} {ps qs : List (List Nat)}

namespace LocatedAll

theorem nil : LocatedAll parent [] start [] := ⟨.nil, .nil, by simp⟩

-- All places in a child come before those in a later one.
theorem cons (h : Located parent tree ps) (hmore : LocatedAll parent more (start + 1) qs) :
    LocatedAll parent (tree :: more) start (ps.map (start :: ·) ++ qs) where
  entries := by
    refine List.rel_append ?_ (hmore.entries.imp ?_)
    · rw [List.forall₂_map_left_iff]
      exact h.entries.imp fun place entry ⟨hnode, hparent⟩ => ⟨0, tree, place, rfl, rfl, hnode, hparent⟩
    · rintro place entry ⟨i, child, rest, hchild, rfl, hentry⟩
      exact ⟨i + 1, child, rest, hchild, by rw [Nat.add_assoc, Nat.add_comm 1 i], hentry⟩
  ordered := by
    refine List.pairwise_append.mpr ⟨?_, hmore.ordered, ?_⟩
    · rw [List.pairwise_map]
      exact h.ordered.imp fun hlt => List.cons_lt_cons_iff.mpr (.inr ⟨rfl, hlt⟩)
    · intro first hfirst second hsecond
      obtain ⟨place, -, rfl⟩ := List.mem_map.mp hfirst
      obtain ⟨entry, -, i, child, rest, -, rfl, -⟩ := exists_of_forall₂ hmore.entries.flip hsecond
      exact List.cons_lt_cons_iff.mpr (.inl (by omega))
  complete := by
    intro i child rest token hchild hnode
    cases i with
    | zero =>
      obtain rfl : tree = child := Option.some.inj hchild
      exact List.mem_append_left _ (List.mem_map.mpr ⟨rest, h.complete rest token hnode, rfl⟩)
    | succ i =>
      have hplace := hmore.complete i child rest token hchild hnode
      rw [Nat.add_assoc, Nat.add_comm 1 i] at hplace
      exact List.mem_append_right _ hplace

end LocatedAll

namespace Located

theorem leaf (parent : Option (Tree α)) (token : α) : Located parent (leaf token) [[]] where
  entries := .cons ⟨rfl, rfl⟩ .nil
  ordered := List.pairwise_singleton _ _
  complete := by
    rintro (_ | ⟨i, more⟩) other hnode
    · exact List.mem_singleton_self []
    · simp [node?, children] at hnode

-- A node that is no leaf has its tokens in its children, and they have it for a parent if they are its children.
theorem of_children (hflatten : tree.flattenUnder parent = flattenAll (some tree) tree.children)
    (hnot : ∀ token, tree ≠ .leaf token) (h : LocatedAll (some tree) tree.children 0 ps) : Located parent tree ps where
  entries := by
    rw [hflatten]
    refine h.entries.imp ?_
    rintro place entry ⟨i, child, rest, hchild, rfl, hnode, hparent⟩
    rw [Nat.zero_add]
    refine ⟨node?_cons_eq_some_iff.mpr ⟨child, hchild, hnode⟩, ?_⟩
    rw [hparent, if_neg (List.cons_ne_nil i rest)]
    cases rest with
    | nil => rfl
    | cons j rest =>
      rw [if_neg (List.cons_ne_nil j rest), List.dropLast_cons_cons, node?, hchild]
      rfl
  ordered := h.ordered
  complete := by
    rintro (_ | ⟨i, rest⟩) token hnode
    · exact absurd (Option.some.inj hnode) (hnot token)
    · obtain ⟨child, hchild, hnode⟩ := node?_cons_eq_some_iff.mp hnode
      have hplace := h.complete i child rest token hchild hnode
      rwa [Nat.zero_add] at hplace

end Located

theorem exists_locatedAll_leaves (parent : Option (Tree α)) (tokens : List α) (start : Nat) :
    ∃ places, LocatedAll parent (tokens.map leaf) start places := by
  induction tokens generalizing start with
  | nil => exact ⟨[], .nil⟩
  | cons token tokens ih =>
    obtain ⟨places, hplaces⟩ := ih (start + 1)
    exact ⟨_, .cons (.leaf parent token) hplaces⟩

theorem flattenAll_map_leaf (parent : Option (Tree α)) (tokens : List α) :
    flattenAll parent (tokens.map leaf) = tokens.map fun token => (token, parent) := by
  induction tokens with
  | nil => rfl
  | cons token tokens ih =>
    rw [List.map_cons, flattenAll, ih]
    rfl

mutual

-- Every token of a tree is flattened once and in its place, and next to it stands the node that holds it.
theorem exists_located (parent : Option (Tree α)) (tree : Tree α) : ∃ places, Located parent tree places := by
  cases tree with
  | leaf token => exact ⟨[[]], .leaf parent token⟩
  | compound tokens =>
    obtain ⟨places, hplaces⟩ := exists_locatedAll_leaves (some (compound tokens)) tokens 0
    exact ⟨places, .of_children (flattenAll_map_leaf _ tokens).symm (by simp) hplaces⟩
  | complex combinator left right =>
    obtain ⟨ps, hleft⟩ := exists_located (some (complex combinator left right)) left
    obtain ⟨qs, hright⟩ := exists_located (some (complex combinator left right)) right
    refine ⟨_, .of_children ?_ (by simp) (.cons hleft (.cons hright .nil))⟩
    simp [flattenUnder, children, flattenAll]
  | list alternatives =>
    obtain ⟨places, hplaces⟩ := exists_locatedAll (some (list alternatives)) alternatives 0
    refine ⟨places, .of_children ?_ (by simp) hplaces⟩
    rw [flattenUnder, children]

theorem exists_locatedAll (parent : Option (Tree α)) (trees : List (Tree α)) (start : Nat) :
    ∃ places, LocatedAll parent trees start places := by
  cases trees with
  | nil => exact ⟨[], .nil⟩
  | cons tree more =>
    obtain ⟨ps, htree⟩ := exists_located parent tree
    obtain ⟨qs, hmore⟩ := exists_locatedAll parent more (start + 1)
    exact ⟨_, .cons htree hmore⟩

end

end CssSelectors.Tree
