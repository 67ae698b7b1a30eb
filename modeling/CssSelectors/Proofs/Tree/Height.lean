import CssSelectors.Proofs.Tree.Traversal

namespace CssSelectors.Tree

variable {α β : Type}

mutual

-- The most complex nodes on the way from the root of a tree down to one of its tokens.
def height : Tree α → Nat
  | leaf _ => 0
  | compound _ => 0
  | complex _ left right => max left.height right.height + 1
  | list alternatives => heightOfAll alternatives

def heightOfAll : List (Tree α) → Nat
  | [] => 0
  | tree :: more => max tree.height (heightOfAll more)

end

theorem height_le_of_mem {trees : List (Tree α)} {tree : Tree α} (h : tree ∈ trees) :
    tree.height ≤ heightOfAll trees := by
  induction trees with
  | nil => cases h
  | cons first more ih =>
    rw [heightOfAll]
    rcases List.mem_cons.mp h with rfl | h
    · exact Nat.le_max_left ..
    · exact Nat.le_trans (ih h) (Nat.le_max_right ..)

-- Some tree of a list is as high as all of them together.
theorem exists_height_eq {trees : List (Tree α)} (hne : trees ≠ []) :
    ∃ tree ∈ trees, tree.height = heightOfAll trees := by
  induction trees with
  | nil => exact absurd rfl hne
  | cons tree more ih =>
    rw [heightOfAll]
    by_cases hle : heightOfAll more ≤ tree.height
    · exact ⟨tree, List.mem_cons_self, (Nat.max_eq_left hle).symm⟩
    · have hmore : more ≠ [] := by
        rintro rfl
        exact hle (Nat.zero_le _)
      obtain ⟨highest, hmem, hheight⟩ := ih hmore
      refine ⟨highest, List.mem_cons_of_mem tree hmem, ?_⟩
      omega

theorem mem_tokensAll {trees : List (Tree α)} {tree : Tree α} (hmem : tree ∈ trees) {token : α} (htoken : token ∈ tree.tokens) :
    token ∈ tokensAll trees := by
  induction trees with
  | nil => cases hmem
  | cons first more ih =>
    rw [tokensAll]
    rcases List.mem_cons.mp hmem with rfl | hmem
    · exact List.mem_append_left _ htoken
    · exact List.mem_append_right _ (ih hmem)

mutual

-- The height is a matter of the shape alone.
theorem Paired.height_eq {R : α → β → Prop} {tree : Tree α} {tree' : Tree β} (h : Paired R tree tree') :
    tree'.height = tree.height := by
  cases h with
  | leaf htoken => rw [height, height]
  | compound htokens => rw [height, height]
  | complex combinator hleft hright => rw [height, height, hleft.height_eq, hright.height_eq]
  | list htrees => rw [height, height, htrees.heightOfAll_eq]

theorem PairedAll.heightOfAll_eq {R : α → β → Prop} {trees : List (Tree α)} {trees' : List (Tree β)}
    (h : PairedAll R trees trees') : heightOfAll trees' = heightOfAll trees := by
  cases h with
  | nil => rw [heightOfAll, heightOfAll]
  | cons htree hmore => rw [heightOfAll, heightOfAll, htree.height_eq, hmore.heightOfAll_eq]

end

end CssSelectors.Tree
