import CssSelectors.Proofs.Selector.Assembling
import CssSelectors.Proofs.Selector.Building

namespace CssSelectors

section

variable {α : Type} {cuts : α → Bool}

-- What was joined is cut in the same places.
theorem runs_joinRuns {first : List α} {more : List (α × List α)} (hfirst : ∀ x ∈ first, cuts x = false)
    (hmore : ∀ r ∈ more, cuts r.1 = true ∧ ∀ x ∈ r.2, cuts x = false) : runs cuts (joinRuns first more) = (first, more) := by
  induction more generalizing first with
  | nil => rw [joinRuns, List.flatMap_nil, List.append_nil, runs_eq_self hfirst]
  | cons r more ih =>
    obtain ⟨x, run⟩ := r
    obtain ⟨⟨hx, hrun⟩, hmore⟩ := List.forall_mem_cons.mp hmore
    rw [joinRuns_cons, runs_append_cons first hx, ih hrun hmore, runs_eq_self hfirst]
    rfl

end

theorem exists_forall₂_and {α β γ : Type} {R : α → β → Prop} {S : β → γ → Prop} {xs : List α} {zs : List γ} :
    (∃ ys, List.Forall₂ R xs ys ∧ List.Forall₂ S ys zs) ↔ List.Forall₂ (fun x z => ∃ y, R x y ∧ S y z) xs zs := by
  constructor
  · rintro ⟨ys, hxs, hzs⟩
    induction hxs generalizing zs with
    | nil =>
      obtain rfl := List.forall₂_nil_left_iff.mp hzs
      exact .nil
    | @cons x y xs ys hxy _ ih =>
      obtain ⟨z, zs, hyz, hmore, rfl⟩ := List.forall₂_cons_left_iff.mp hzs
      exact .cons ⟨y, hxy, hyz⟩ (ih hmore)
  · intro h
    induction h with
    | nil => exact ⟨[], .nil, .nil⟩
    | @cons x z xs zs hxz _ ih =>
      obtain ⟨y, hxy, hyz⟩ := hxz
      obtain ⟨ys, hxs, hzs⟩ := ih
      exact ⟨y :: ys, .cons hxy hxs, .cons hyz hzs⟩

theorem forall₂_congr {α β : Type} {R S : α → β → Prop} {xs : List α} {ys : List β}
    (h : ∀ x ∈ xs, ∀ y, R x y ↔ S x y) : List.Forall₂ R xs ys ↔ List.Forall₂ S xs ys := by
  induction xs generalizing ys with
  | nil => rw [List.forall₂_nil_left_iff, List.forall₂_nil_left_iff]
  | cons x xs ih =>
    obtain ⟨hx, hxs⟩ := List.forall_mem_cons.mp h
    simp only [List.forall₂_cons_left_iff, hx, ih hxs]

theorem Tree.mapAllM_eq_ok_iff {ε α β : Type} {f : α → Except ε β} {trees : List (Tree α)} {trees' : List (Tree β)} :
    mapAllM f trees = .ok trees' ↔ List.Forall₂ (fun tree tree' => tree.mapM f = .ok tree') trees trees' := by
  induction trees generalizing trees' with
  | nil =>
    rw [mapAllM, pure_eq_ok, List.forall₂_nil_left_iff]
    exact eq_comm
  | cons tree trees ih =>
    simp only [mapAllM, bind_eq_ok, pure_eq_ok, List.forall₂_cons_left_iff, ih]
    constructor
    · rintro ⟨tree', htree, more, hmore, rfl⟩
      exact ⟨tree', more, htree, hmore, rfl⟩
    · rintro ⟨tree', more, htree, hmore, rfl⟩
      exact ⟨tree', htree, more, hmore, rfl⟩

namespace Selector

open Token

-- No alternative may be empty, and each is a group of its own.
theorem ofAlternatives_eq_ok_iff {before : Nat} {group : List Token} {more : List (Token × List Token)}
    {trees : List Selector} : ofAlternatives before group more = .ok trees ↔
      List.Forall₂ (fun group tree => ofGroup group = .ok tree) (group :: more.map Prod.snd) trees := by
  have hempty : ∀ tree, ofGroup [] ≠ .ok tree := fun tree h => by cases h
  induction more generalizing before group trees with
  | nil =>
    rw [ofAlternatives]
    cases group with
    | nil => simp [List.forall₂_cons_left_iff, hempty]
    | cons token group =>
      simp only [List.isEmpty_cons, Bool.false_eq_true, if_false, bind_eq_ok, pure_eq_ok, List.map_nil,
        List.forall₂_cons_left_iff, List.forall₂_nil_left_iff]
      constructor
      · rintro ⟨tree, htree, rfl⟩
        exact ⟨tree, [], htree, rfl, rfl⟩
      · rintro ⟨tree, _, htree, rfl, rfl⟩
        exact ⟨tree, htree, rfl⟩
  | cons r more ih =>
    obtain ⟨comma, next⟩ := r
    rw [ofAlternatives]
    cases group with
    | nil => simp [List.forall₂_cons_left_iff, hempty]
    | cons token group =>
      simp only [List.isEmpty_cons, Bool.false_eq_true, if_false, bind_eq_ok, pure_eq_ok, List.map_cons, ih]
      rw [List.forall₂_cons_left_iff]
      constructor
      · rintro ⟨tree, htree, rest, hrest, rfl⟩
        exact ⟨tree, rest, htree, hrest, rfl⟩
      · rintro ⟨tree, rest, htree, hrest, rfl⟩
        exact ⟨tree, htree, rest, hrest, rfl⟩

variable {first : List Token} {more : List (Token × List Token)} {tree : Selector}
variable {argument : Nat → Text → Except Error Selector} {above : Nat}

-- Each group has as many combinators as it is long, and the list as many as its longest group.
theorem longestChain_of_group {group : List Token} (h : ∀ token ∈ group, token.isComma = false) :
    longestChain true group = group.countP Token.isCombinator := by
  simp [longestChain, runs_eq_self h]

section

variable (hfirst : ∀ token ∈ first, token.isComma = false)
variable (hmore : ∀ r ∈ more, r.1.isComma = true ∧ ∀ token ∈ r.2, token.isComma = false)
include hfirst hmore

theorem longestChain_le_joinRuns {group : List Token} (h : group ∈ first :: more.map Prod.snd) :
    longestChain true group ≤ longestChain true (joinRuns first more) := by
  have hgroup : ∀ token ∈ group, token.isComma = false := by
    rcases List.mem_cons.mp h with rfl | h
    · exact hfirst
    · obtain ⟨r, hr, rfl⟩ := List.mem_map.mp h
      exact (hmore r hr).2
  rw [longestChain_of_group hgroup, longestChain, if_pos rfl, runs_joinRuns hfirst hmore]
  clear hfirst hmore hgroup
  dsimp only
  induction more with
  | nil => simp_all
  | cons r more ih =>
    rw [List.foldr_cons]
    rw [List.map_cons, List.mem_cons, List.mem_cons] at h
    rcases h with rfl | rfl | h
    · exact Nat.le_trans (ih List.mem_cons_self) (Nat.le_max_right _ _)
    · exact Nat.le_max_left _ _
    · exact Nat.le_trans (ih (List.mem_cons_of_mem _ h)) (Nat.le_max_right _ _)

theorem assemble_joinRuns_eq_ok_iff (hne : more ≠ []) : assemble true (joinRuns first more) = .ok tree ↔
    ∃ trees, tree = .list trees ∧
      List.Forall₂ (fun group tree => ofGroup group = .ok tree) (first :: more.map Prod.snd) trees := by
  obtain ⟨r, more, rfl⟩ := List.exists_cons_of_ne_nil hne
  rw [assemble, if_pos rfl, ofList, runs_joinRuns hfirst hmore]
  simp only [bind_eq_ok, pure_eq_ok, ofAlternatives_eq_ok_iff]
  constructor
  · rintro ⟨trees, htrees, rfl⟩
    exact ⟨trees, rfl, htrees⟩
  · rintro ⟨trees, rfl, htrees⟩
    exact ⟨trees, htrees, rfl⟩

-- A list makes up the list of its alternatives. Each of them is built as if the combinators that the
-- longest alternative has beyond its own stood above it, too.
theorem build_joinRuns_eq_ok_iff (hne : more ≠ []) : build argument {} above (joinRuns first more) = .ok tree ↔
    ∃ trees, tree = .list trees ∧ List.Forall₂ (fun group alternative =>
      build argument {} (above + (longestChain true (joinRuns first more) - longestChain true group)) group =
        .ok alternative) (first :: more.map Prod.snd) trees := by
  have hle : ∀ group ∈ first :: more.map Prod.snd, longestChain true group ≤ longestChain true (joinRuns first more) :=
    fun _ => longestChain_le_joinRuns hfirst hmore
  have hjoined : build argument {} above (joinRuns first more) = .ok tree ↔
      above + longestChain true (joinRuns first more) ≤ maxChain ∧
        ∃ bare, assemble true (joinRuns first more) = .ok bare ∧
          bare.mapM (attach (argument (above + longestChain true (joinRuns first more)))) = .ok tree :=
    build_eq_ok_iff
  generalize longestChain true (joinRuns first more) = longest at hle hjoined ⊢
  have hgroup : ∀ group ∈ first :: more.map Prod.snd, ∀ alternative,
      build argument {} (above + (longest - longestChain true group)) group = .ok alternative ↔
        above + longest ≤ maxChain ∧ ∃ bare, ofGroup group = .ok bare ∧
          bare.mapM (attach (argument (above + longest))) = .ok alternative := by
    intro group hmem alternative
    have hcomma : ∀ token ∈ group, token.isComma = false := by
      rcases List.mem_cons.mp hmem with rfl | hmem
      · exact hfirst
      · obtain ⟨r, hr, rfl⟩ := List.mem_map.mp hmem
        exact (hmore r hr).2
    rw [build_eq_ok_iff, Nat.add_assoc, Nat.sub_add_cancel (hle group hmem), assemble_eq_ofGroup _ hcomma]
    rfl
  simp only [hjoined, forall₂_congr hgroup, assemble_joinRuns_eq_ok_iff hfirst hmore hne]
  constructor
  · rintro ⟨hlongest, _, ⟨bares, rfl, hbares⟩, htree⟩
    rw [Tree.mapM, bind_eq_ok] at htree
    obtain ⟨trees, htrees, htree⟩ := htree
    have hall := exists_forall₂_and.mp ⟨bares, hbares, Tree.mapAllM_eq_ok_iff.mp htrees⟩
    exact ⟨trees, (pure_eq_ok.mp htree).symm, hall.imp fun _ _ h => ⟨hlongest, h⟩⟩
  · rintro ⟨trees, rfl, hall⟩
    obtain ⟨_, _, ⟨hlongest, _⟩, _, _⟩ := List.forall₂_cons_left_iff.mp hall
    obtain ⟨bares, hbares, htrees⟩ := exists_forall₂_and.mpr (hall.imp fun _ _ => And.right)
    refine ⟨hlongest, .list bares, ⟨bares, rfl, hbares⟩, ?_⟩
    rw [Tree.mapM, Tree.mapAllM_eq_ok_iff.mpr htrees]
    rfl

-- So what a list parses to, each of its alternatives parses to by itself. The converse needs room for
-- the longest chain above the arguments of every alternative.
theorem ofTokens_joinRuns (hne : more ≠ []) :
    (ofTokens {} (joinRuns first more) = .ok tree ↔ ∃ trees, tree = .list trees ∧
      List.Forall₂ (fun group alternative => build (ofArgument maxNesting) {}
        (longestChain true (joinRuns first more) - longestChain true group) group = .ok alternative)
        (first :: more.map Prod.snd) trees) ∧
    (ofTokens {} (joinRuns first more) = .ok tree → ∃ trees, tree = .list trees ∧
      List.Forall₂ (fun group alternative => ofTokens {} group = .ok alternative) (first :: more.map Prod.snd) trees) := by
  have hiff : build (ofArgument maxNesting) {} 0 (joinRuns first more) = .ok tree ↔ _ :=
    build_joinRuns_eq_ok_iff hfirst hmore hne
  simp only [Nat.zero_add] at hiff
  refine ⟨hiff, fun h => ?_⟩
  obtain ⟨trees, htree, hall⟩ := hiff.mp h
  refine ⟨trees, htree, hall.imp fun _ _ halternative => ?_⟩
  exact build_mono (Nat.zero_le _) (fun _ _ _ _ habove => ofArgument_mono (Nat.le_refl _) habove) halternative

end

-- Two alternatives of one token each.
theorem ofTokens_joinRuns_pair : ∃ (first group : Token) (comma : Token), comma.isComma = true ∧
    ofTokens {} (joinRuns [first] [(comma, [group])]) = .ok (.list [.leaf first, .leaf group]) ∧
      ofTokens {} [first] = .ok (.leaf first) ∧ ofTokens {} [group] = .ok (.leaf group) := by
  let first : Token := ⟨.id ['a'], "#a".toList, 0, 2⟩
  let group : Token := ⟨.className ['b'], ".b".toList, 3, 5⟩
  let comma : Token := ⟨.comma, [','], 2, 3⟩
  have hjoined : ofTokens {} (joinRuns [first] [(comma, [group])]) = .ok (.list [.leaf first, .leaf group]) := rfl
  have hfirst : ∀ token ∈ [first], token.isComma = false := by decide
  have hmore : ∀ r ∈ [(comma, [group])], r.1.isComma = true ∧ ∀ token ∈ r.2, token.isComma = false := by decide
  obtain ⟨trees, htrees, hall⟩ := (ofTokens_joinRuns hfirst hmore (by simp)).2 hjoined
  obtain rfl := Tree.list.inj htrees
  simp only [List.map_cons, List.map_nil, List.forall₂_cons, List.forall₂_nil_right_iff, and_true] at hall
  exact ⟨first, group, comma, rfl, hjoined, hall.1, hall.2⟩

-- Compounds below each other, as they stand in a text.
def descendants (n : Nat) : List Token :=
  ⟨.typeName none ['a'], ['a'], 0, 1⟩ :: (List.range n).flatMap fun k =>
    [⟨.combinator, [' '], 2 * k + 1, 2 * k + 2⟩, ⟨.typeName none ['a'], ['a'], 2 * k + 2, 2 * k + 3⟩]

-- A chain of the greatest length leaves nothing to the argument in another alternative.
theorem not_ofTokens_joinRuns : ∃ (first group : List Token) (comma : Token),
    (∀ token ∈ first ++ group, token.isComma = false) ∧ comma.isComma = true ∧
      (ofTokens {} first).isOk = true ∧ (ofTokens {} group).isOk = true ∧
      (ofTokens {} (joinRuns first [(comma, group)])).isOk = false := by
  refine ⟨descendants 128, [⟨.pseudoClass "is".toList (some "a a".toList) none none, ":is(a a)".toList, 258, 266⟩],
    ⟨.comma, [','], 257, 258⟩, ?_⟩
  decide +kernel

end Selector

end CssSelectors
