import CssSelectors.Proofs.Outcome
import CssSelectors.Proofs.Tree.Mapping

namespace CssSelectors.Tree

variable {α β ε : Type}

mutual

-- Trees of one shape whose tokens are related one by one.
inductive Paired (R : α → β → Prop) : Tree α → Tree β → Prop
  | leaf {x : α} {y : β} (htoken : R x y) : Paired R (leaf x) (leaf y)
  | compound {xs : List α} {ys : List β} (htokens : List.Forall₂ R xs ys) : Paired R (compound xs) (compound ys)
  | complex (combinator : Combinator) {left right : Tree α} {left' right' : Tree β} (hleft : Paired R left left')
    (hright : Paired R right right') : Paired R (complex combinator left right) (complex combinator left' right')
  | list {trees : List (Tree α)} {trees' : List (Tree β)} (htrees : PairedAll R trees trees') :
    Paired R (list trees) (list trees')

inductive PairedAll (R : α → β → Prop) : List (Tree α) → List (Tree β) → Prop
  | nil : PairedAll R [] []
  | cons {tree : Tree α} {tree' : Tree β} {more : List (Tree α)} {more' : List (Tree β)} (htree : Paired R tree tree')
    (hmore : PairedAll R more more') : PairedAll R (tree :: more) (tree' :: more')

end

section

variable {f : α → Except ε β}

mutual

theorem paired_of_mapM {tree : Tree α} {tree' : Tree β} (h : tree.mapM f = .ok tree') :
    Paired (fun x y => f x = .ok y) tree tree' := by
  cases tree with
  | leaf token =>
    simp only [mapM, bind_eq_ok, pure_eq_ok] at h
    obtain ⟨token', htoken, rfl⟩ := h
    exact .leaf htoken
  | compound tokens =>
    simp only [mapM, bind_eq_ok, pure_eq_ok] at h
    obtain ⟨tokens', htokens, rfl⟩ := h
    exact .compound (mapM_eq_ok.mp htokens)
  | complex combinator left right =>
    simp only [mapM, bind_eq_ok, pure_eq_ok] at h
    obtain ⟨left', hleft, right', hright, rfl⟩ := h
    exact .complex combinator (paired_of_mapM hleft) (paired_of_mapM hright)
  | list trees =>
    simp only [mapM, bind_eq_ok, pure_eq_ok] at h
    obtain ⟨trees', htrees, rfl⟩ := h
    exact .list (pairedAll_of_mapAllM htrees)

theorem pairedAll_of_mapAllM {trees : List (Tree α)} {trees' : List (Tree β)} (h : mapAllM f trees = .ok trees') :
    PairedAll (fun x y => f x = .ok y) trees trees' := by
  cases trees with
  | nil =>
    obtain rfl := pure_eq_ok.mp h
    exact .nil
  | cons tree more =>
    simp only [mapAllM, bind_eq_ok, pure_eq_ok] at h
    obtain ⟨tree', htree, more', hmore, rfl⟩ := h
    exact .cons (paired_of_mapM htree) (pairedAll_of_mapAllM hmore)

end

mutual

theorem mapM_of_paired {tree : Tree α} {tree' : Tree β} (h : Paired (fun x y => f x = .ok y) tree tree') :
    tree.mapM f = .ok tree' := by
  cases h with
  | leaf htoken =>
    rw [mapM, htoken]
    rfl
  | compound htokens =>
    rw [mapM, mapM_eq_ok.mpr htokens]
    rfl
  | complex combinator hleft hright =>
    rw [mapM, mapM_of_paired hleft, mapM_of_paired hright]
    rfl
  | list htrees =>
    rw [mapM, mapAllM_of_pairedAll htrees]
    rfl

theorem mapAllM_of_pairedAll {trees : List (Tree α)} {trees' : List (Tree β)}
    (h : PairedAll (fun x y => f x = .ok y) trees trees') : mapAllM f trees = .ok trees' := by
  cases h with
  | nil => rfl
  | cons htree hmore =>
    rw [mapAllM, mapM_of_paired htree, mapAllM_of_pairedAll hmore]
    rfl

end

-- What runs through a tree has run through its tokens.
theorem mapM_eq_ok_iff {tree : Tree α} {tree' : Tree β} :
    tree.mapM f = .ok tree' ↔ Paired (fun x y => f x = .ok y) tree tree' :=
  ⟨paired_of_mapM, mapM_of_paired⟩

-- What runs through the tokens of a tree runs through the tree.
theorem exists_of_mapM_tokens {tree : Tree α} {tokens : List β} (h : tree.tokens.mapM f = .ok tokens) :
    ∃ tree', tree.mapM f = .ok tree' ∧ tree'.tokens = tokens := by
  rw [← tokens_mapM] at h
  exact map_eq_ok.mp h

theorem exists_of_tokens_append {tree : Tree α} {tree' : Tree β} {before after : List α}
    (htokens : tree.tokens = before ++ after) (h : tree.mapM f = .ok tree') : ∃ before' after',
      before.mapM f = .ok before' ∧ after.mapM f = .ok after' ∧ tree'.tokens = before' ++ after' := by
  have hmapped : tokens <$> tree.mapM f = .ok tree'.tokens := map_eq_ok.mpr ⟨tree', h, rfl⟩
  rw [tokens_mapM, htokens, List.mapM_append] at hmapped
  simp only [bind_eq_ok, pure_eq_ok] at hmapped
  obtain ⟨before', hbefore, after', hafter, hsplit⟩ := hmapped
  exact ⟨before', after', hbefore, hafter, hsplit.symm⟩

-- What fails on a tree has been through the tokens before one that it fails on.
theorem mapM_eq_error_iff {tree : Tree α} {error : ε} : tree.mapM f = .error error ↔ ∃ before token after,
    tree.tokens = before ++ token :: after ∧ (∀ other ∈ before, ∃ other', f other = .ok other') ∧
      f token = .error error := by
  rw [← CssSelectors.mapM_eq_error_iff, ← tokens_mapM, map_eq_error]

theorem exists_of_mapM_eq_error {tree : Tree α} {error : ε} (h : tree.mapM f = .error error) :
    ∃ token ∈ tree.tokens, f token = .error error := by
  obtain ⟨before, token, after, hsplit, -, htoken⟩ := mapM_eq_error_iff.mp h
  exact ⟨token, by simp [hsplit], htoken⟩

end

variable {R S : α → β → Prop}

theorem exists_of_forall₂ {xs : List α} {ys : List β} (h : List.Forall₂ R xs ys) {y : β} (hy : y ∈ ys) :
    ∃ x ∈ xs, R x y := by
  induction h with
  | nil => simp at hy
  | @cons x _ xs _ hx _ ih =>
    rcases List.mem_cons.mp hy with rfl | hy
    · exact ⟨x, List.mem_cons_self, hx⟩
    · obtain ⟨x', hmem, hx'⟩ := ih hy
      exact ⟨x', List.mem_cons_of_mem x hmem, hx'⟩

theorem forall₂_imp {xs : List α} {ys : List β} (himp : ∀ x ∈ xs, ∀ y ∈ ys, R x y → S x y) (h : List.Forall₂ R xs ys) :
    List.Forall₂ S xs ys := by
  induction h with
  | nil => exact .nil
  | @cons x y xs ys hxy _ ih =>
    refine .cons (himp x List.mem_cons_self y List.mem_cons_self hxy) (ih fun x' hx y' hy => ?_)
    exact himp x' (List.mem_cons_of_mem x hx) y' (List.mem_cons_of_mem y hy)

mutual

theorem Paired.imp {tree : Tree α} {tree' : Tree β} (himp : ∀ x ∈ tree.tokens, ∀ y ∈ tree'.tokens, R x y → S x y)
    (h : Paired R tree tree') : Paired S tree tree' := by
  cases h with
  | leaf htoken => exact .leaf (himp _ List.mem_cons_self _ List.mem_cons_self htoken)
  | compound htokens => exact .compound (forall₂_imp himp htokens)
  | complex combinator hleft hright =>
    exact .complex combinator
      (hleft.imp fun x hx y hy => himp x (List.mem_append_left _ hx) y (List.mem_append_left _ hy))
      (hright.imp fun x hx y hy => himp x (List.mem_append_right _ hx) y (List.mem_append_right _ hy))
  | list htrees => exact .list (htrees.imp himp)

theorem PairedAll.imp {trees : List (Tree α)} {trees' : List (Tree β)}
    (himp : ∀ x ∈ tokensAll trees, ∀ y ∈ tokensAll trees', R x y → S x y) (h : PairedAll R trees trees') :
    PairedAll S trees trees' := by
  cases h with
  | nil => exact .nil
  | cons htree hmore =>
    exact .cons
      (htree.imp fun x hx y hy => himp x (List.mem_append_left _ hx) y (List.mem_append_left _ hy))
      (hmore.imp fun x hx y hy => himp x (List.mem_append_right _ hx) y (List.mem_append_right _ hy))

end

mutual

-- Where a function gives the tokens of one tree from those of another, it gives the tree.
theorem Paired.eq_map {f : β → α} {tree : Tree α} {tree' : Tree β} (h : Paired (fun x y => x = f y) tree tree') :
    tree = tree'.map f := by
  cases h with
  | leaf htoken => rw [map, htoken]
  | @compound xs ys htokens =>
    have hmap : xs = ys.map f := by
      rw [← List.forall₂_eq_eq_eq]
      exact List.forall₂_map_right_iff.mpr htokens
    rw [map, hmap]
  | complex combinator hleft hright => rw [map, hleft.eq_map, hright.eq_map]
  | list htrees => rw [map, htrees.eq_mapAll]

theorem PairedAll.eq_mapAll {f : β → α} {trees : List (Tree α)} {trees' : List (Tree β)}
    (h : PairedAll (fun x y => x = f y) trees trees') : trees = mapAll f trees' := by
  cases h with
  | nil => rfl
  | cons htree hmore => rw [mapAll, htree.eq_map, hmore.eq_mapAll]

end

mutual

theorem Paired.tokens {tree : Tree α} {tree' : Tree β} (h : Paired R tree tree') :
    List.Forall₂ R tree.tokens tree'.tokens := by
  cases h with
  | leaf htoken => exact .cons htoken .nil
  | compound htokens => exact htokens
  | complex combinator hleft hright => exact List.rel_append hleft.tokens hright.tokens
  | list htrees => exact htrees.tokensAll

theorem PairedAll.tokensAll {trees : List (Tree α)} {trees' : List (Tree β)} (h : PairedAll R trees trees') :
    List.Forall₂ R (tokensAll trees) (tokensAll trees') := by
  cases h with
  | nil => exact .nil
  | cons htree hmore => exact List.rel_append htree.tokens hmore.tokensAll

end

section

variable {text : α → Text} {text' : β → Text}

theorem flatMap_eq_of_forall₂ {xs : List α} {ys : List β} (h : List.Forall₂ (fun x y => text x = text' y) xs ys) :
    xs.flatMap text = ys.flatMap text' := by
  induction h with
  | nil => rfl
  | cons htoken _ ih => rw [List.flatMap_cons, List.flatMap_cons, htoken, ih]

mutual

-- Trees whose tokens have the same text have the same text.
theorem Paired.render_eq {tree : Tree α} {tree' : Tree β} (h : Paired (fun x y => text x = text' y) tree tree') :
    tree.render text = tree'.render text' := by
  cases h with
  | leaf htoken => exact htoken
  | compound htokens => exact flatMap_eq_of_forall₂ htokens
  | complex combinator hleft hright => rw [render, render, hleft.render_eq, hright.render_eq]
  | list htrees => exact htrees.renderAll_eq

theorem PairedAll.renderAll_eq {trees : List (Tree α)} {trees' : List (Tree β)}
    (h : PairedAll (fun x y => text x = text' y) trees trees') : renderAll text trees = renderAll text' trees' := by
  cases h with
  | nil => rfl
  | cons htree hmore =>
    have htext := htree.render_eq
    have hrest := hmore.renderAll_eq
    cases hmore with
    | nil => exact htext
    | cons _ _ => rw [renderAll_cons_cons, renderAll_cons_cons, htext, hrest]

end

end

end CssSelectors.Tree
