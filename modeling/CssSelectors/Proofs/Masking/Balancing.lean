import CssSelectors.Proofs.Masking.Inside
import CssSelectors.Proofs.Masking.Sight
import Mathlib.Order.Bounds.Basic

namespace CssSelectors

open Masked Text

namespace Text

-- No prefix closes more parens than it opens, and the whole text closes all.
structure WellParenthesized (text : Text) : Prop where
  nonneg : ∀ place, 0 ≤ text.depth place
  total : text.depth text.length = 0

-- A closing paren after which more are closed than opened.
def Unopened (text : Text) (place : Nat) : Prop :=
  text.sight[place]? = some (some ')') ∧ text.depth (place + 1) < 0

-- A paren that opens at depth zero, to which the depth never returns.
def Unclosed (text : Text) (place : Nat) : Prop :=
  text.sight[place]? = some (some '(') ∧ text.depth place = 0 ∧ ∀ later, place < later → text.depth later ≠ 0

-- The depth before some place in a text of which everything is in sight.
def height (text : Text) (place : Nat) : Int := (text.levels.take place).sum

theorem depth_eq_height (text : Text) (place : Nat) : text.depth place = text.unquoted.height place := by
  rw [depth, map_level_sight, height]

@[simp] theorem height_zero (text : Text) : text.height 0 = 0 := by
  simp [height]

@[simp] theorem height_nil (place : Nat) : height [] place = 0 := by
  simp [height, levels]

theorem height_cons (c : Char) (text : Text) (place : Nat) :
    height (c :: text) (place + 1) = level (some c) + text.height place := by
  simp [height, levels]

theorem height_append_left {u : Text} (v : Text) {place : Nat} (h : place ≤ u.length) :
    height (u ++ v) place = u.height place := by
  rw [height, height, levels_append, List.take_append_of_le_length (by simpa [levels] using h)]

theorem height_append_right (u v : Text) (place : Nat) :
    height (u ++ v) (u.length + place) = u.height u.length + v.height place := by
  have hlength : u.levels.length = u.length := by simp [levels]
  have htake : ∀ further, u.levels.take (u.length + further) = u.levels := fun further =>
    List.take_of_length_le (by omega)
  have hwhole : u.levels.take u.length = u.levels := htake 0
  rw [height, levels_append, List.take_append, List.sum_append, hlength, Nat.add_sub_cancel_left, htake, height, height,
    hwhole]

-- A text that opens and closes its parens by itself.
structure Even (text : Text) : Prop where
  nonneg : ∀ place, 0 ≤ text.height place
  total : text.height text.length = 0

theorem even_nil : Even [] := ⟨by simp, by simp⟩

theorem even_singleton {c : Char} (h : level (some c) = 0) : Even [c] where
  nonneg place := by
    cases place with
    | zero => simp
    | succ place => simp [height_cons, h]
  total := by simp [height_cons, h]

theorem Even.append {u v : Text} (hu : u.Even) (hv : v.Even) : Even (u ++ v) where
  nonneg place := by
    rcases Nat.le_total place u.length with hle | hle
    · rw [height_append_left v hle]
      exact hu.nonneg place
    · obtain ⟨further, rfl⟩ := Nat.exists_eq_add_of_le hle
      rw [height_append_right, hu.total, Int.zero_add]
      exact hv.nonneg further
  total := by rw [List.length_append, height_append_right, hu.total, hv.total, Int.add_zero]

theorem level_of_ne {c : Char} (hopen : c ≠ '(') (hclose : c ≠ ')') : level (some c) = 0 := by
  unfold level
  split <;> simp_all

theorem level_of_shifts {depth next : Nat} {c : Char} (h : Shifts depth c next) :
    (depth : Int) + level (some c) = next := by
  cases h with
  | opening => rfl
  | closing => simp [level]
  | other _ hopen hclose => rw [level_of_ne hopen hclose, Int.add_zero]

-- What a group holds goes down by the parens that are open before it, and never further.
theorem height_of_groupBody? {depth : Nat} {rest body : Text} (h : groupBody? depth rest = some body) :
    (∀ place, 0 ≤ depth + body.height place) ∧ depth + body.height body.length = 0 := by
  induction rest generalizing depth body with
  | nil => simp [groupBody?] at h
  | cons c rest ih =>
    rcases shifts_or_last depth c with ⟨next, hshifts⟩ | ⟨rfl, rfl⟩
    · rw [hshifts.groupBody?_cons] at h
      obtain ⟨tail, htail, rfl⟩ := Option.map_eq_some_iff.mp h
      obtain ⟨hnonneg, htotal⟩ := ih htail
      have hlevel := level_of_shifts hshifts
      refine ⟨fun place => ?_, ?_⟩
      · cases place with
        | zero => simp
        | succ place =>
          have hplace := hnonneg place
          rw [height_cons]
          omega
      · rw [List.length_cons, height_cons]
        omega
    · rw [groupBody?_last] at h
      obtain rfl := Option.some.inj h
      simp

-- After a paren that no group takes the depth stays above the one before it.
theorem height_of_groupBody?_eq_none {depth : Nat} {rest : Text} (h : groupBody? depth rest = none) (place : Nat) :
    0 ≤ depth + rest.height place := by
  induction rest generalizing depth place with
  | nil => simp
  | cons c rest ih =>
    cases place with
    | zero => simp
    | succ place =>
      rcases shifts_or_last depth c with ⟨next, hshifts⟩ | ⟨rfl, rfl⟩
      · rw [hshifts.groupBody?_cons, Option.map_eq_none_iff] at h
        have hlevel := level_of_shifts hshifts
        have hplace := ih h place
        rw [height_cons]
        omega
      · rw [groupBody?_last] at h
        cases h

-- Within a group the depth is one more than its body makes it, and after the group it is zero again.
theorem height_group {body : Text} (h : groupBody? 0 (body ++ [')']) = some body) (place : Nat) :
    height ('(' :: body ++ [')']) (place + 1) = if place ≤ body.length then 1 + body.height place else 0 := by
  rw [List.cons_append, height_cons, level]
  by_cases hle : place ≤ body.length
  · rw [if_pos hle, height_append_left [')'] hle]
  · obtain ⟨further, rfl⟩ : ∃ further, place = body.length + (further + 1) := ⟨place - body.length - 1, by omega⟩
    have htotal := (height_of_groupBody? h).2
    rw [if_neg hle, height_append_right, height_cons, height_nil]
    simp only [level]
    omega

theorem even_group {body : Text} (h : groupBody? 0 (body ++ [')']) = some body) : Even ('(' :: body ++ [')']) where
  nonneg place := by
    cases place with
    | zero => simp
    | succ place =>
      have hnonneg := (height_of_groupBody? h).1 place
      rw [height_group h]
      split <;> omega
  total := by
    rw [List.cons_append, List.length_cons, ← List.cons_append, height_group h, if_neg (by simp)]

end Text

namespace Swept

theorem IsGroup.even {part : Swept (Option Text)} (h : part.IsGroup) (hloose : ∀ c, part = .loose c → c ≠ '(' ∧ c ≠ ')') :
    Even part.source := by
  rcases h with ⟨c, rfl⟩ | ⟨body, hbody, rfl⟩
  · obtain ⟨hopen, hclose⟩ := hloose c rfl
    exact even_singleton (level_of_ne hopen hclose)
  · exact even_group (hbody [])

end Swept

namespace Masked

theorem even_of_imbalanceFrom {offset : Nat} {parts : Hidden} (hgroups : ∀ part ∈ parts, part.IsGroup)
    (h : imbalanceFrom offset parts = none) : Even (parts.flatMap Swept.source) := by
  rw [imbalanceFrom_eq_none_iff] at h
  induction parts with
  | nil => exact even_nil
  | cons part parts ih =>
    obtain ⟨hpart, hparts⟩ := List.forall_mem_cons.mp hgroups
    rw [List.flatMap_cons]
    refine .append ?_ (ih hparts fun c hc => h c (List.mem_cons_of_mem part hc))
    exact hpart.even fun c hc => h c (hc ▸ List.mem_cons_self)

-- Parts in which no paren is left over do not change which one is found first.
theorem imbalanceFrom_append {offset : Nat} {before parts : Hidden} (h : imbalanceFrom 0 before = none) :
    imbalanceFrom offset (before ++ parts) = imbalanceFrom (offset + (before.flatMap Swept.source).length) parts := by
  rw [imbalanceFrom_eq_none_iff] at h
  induction before generalizing offset with
  | nil => rfl
  | cons part before ih =>
    have hmore : ∀ offset, imbalanceFrom offset (before ++ parts) =
        imbalanceFrom (offset + (before.flatMap Swept.source).length) parts :=
      fun _ => ih fun c hc => h c (List.mem_cons_of_mem part hc)
    rw [List.flatMap_cons, List.length_append, ← Nat.add_assoc, List.cons_append]
    cases part with
    | loose c =>
      obtain ⟨hopen, hclose⟩ := h c List.mem_cons_self
      rw [imbalanceFrom, if_neg hopen, if_neg hclose, hmore]
      rfl
    | taken item text => exact hmore _

-- Which paren is left over first.
theorem exists_of_imbalanceFrom {parts : Hidden} {error : Error} (h : imbalanceFrom 0 parts = some error) :
    ∃ before c after, parts = before ++ .loose c :: after ∧ imbalanceFrom 0 before = none ∧
      (c = '(' ∧ error = .imbalance .unclosed (before.flatMap Swept.source).length ∨
        c = ')' ∧ error = .imbalance .unopened (before.flatMap Swept.source).length) := by
  obtain ⟨before, c, after, rfl, hc, hbefore⟩ := exists_loose_of_imbalanceFrom (h ▸ Option.some_ne_none error)
  refine ⟨before, c, after, rfl, hbefore, ?_⟩
  rw [imbalanceFrom_append hbefore, Nat.zero_add, imbalanceFrom] at h
  rcases hc with rfl | rfl
  · exact .inl ⟨rfl, (Option.some.inj h).symm⟩
  · exact .inr ⟨rfl, (Option.some.inj h).symm⟩

end Masked

namespace Text

variable {text : Text}

theorem length_unquoted (text : Text) : text.unquoted.length = text.length := by
  rw [unquoted, (Layers.linked_ofText text).length_strings, Layers.source_ofText]

theorem sight_getElem?_iff {place : Nat} {paren : Char} (hparen : paren = '(' ∨ paren = ')') :
    text.sight[place]? = some (some paren) ↔ text.unquoted[place]? = some paren := by
  have hlevel : ∀ seen : Option Char, level seen = level (some paren) ↔ seen = some paren := by
    intro seen
    unfold level
    rcases hparen with rfl | rfl
    · split <;> simp_all
    · split <;> simp_all
  have hlevels := congrArg (fun levels => levels[place]?) (map_level_sight text)
  simp only [levels, List.getElem?_map] at hlevels
  constructor
  · intro h
    rw [h] at hlevels
    cases hseen : text.unquoted[place]? with
    | none => simp [hseen] at hlevels
    | some c =>
      rw [hseen] at hlevels
      exact (hlevel _).mp (Option.some.inj hlevels).symm
  · intro h
    rw [h] at hlevels
    cases hseen : text.sight[place]? with
    | none => simp [hseen] at hlevels
    | some seen =>
      rw [hseen] at hlevels
      exact congrArg some ((hlevel seen).mp (Option.some.inj hlevels))

theorem WellParenthesized.not_unopened (h : text.WellParenthesized) (place : Nat) : ¬text.Unopened place :=
  fun hunopened => absurd hunopened.2 (not_lt.mpr (h.nonneg _))

theorem WellParenthesized.not_unclosed (h : text.WellParenthesized) (place : Nat) : ¬text.Unclosed place := by
  rintro ⟨hopen, -, hnever⟩
  rw [sight_getElem?_iff (.inl rfl)] at hopen
  obtain ⟨hlt, -⟩ := List.getElem?_eq_some_iff.mp hopen
  exact hnever text.length (by rwa [length_unquoted] at hlt) h.total

end Text

namespace Masked

variable {text : Text}

theorem groups_eq_unquoted (text : Text) : (Layers.ofText text).groups.flatMap Swept.source = text.unquoted :=
  (Layers.linked_ofText text).groups_eq

theorem wellParenthesized_of_imbalanceFrom (h : imbalanceFrom 0 (Layers.ofText text).groups = none) :
    text.WellParenthesized := by
  have heven := even_of_imbalanceFrom (Layers.linked_ofText text).isGroup h
  rw [groups_eq_unquoted] at heven
  exact ⟨fun place => depth_eq_height text place ▸ heven.nonneg place,
    by rw [depth_eq_height, ← length_unquoted]; exact heven.total⟩

-- The paren that is left over first is the first that is not opened or, if all are, the first that is not closed.
theorem cases_of_imbalanceFrom {error : Error} (h : imbalanceFrom 0 (Layers.ofText text).groups = some error) :
    (∃ place, error = .imbalance .unopened place ∧ IsLeast {place | text.Unopened place} place) ∨
      ∃ place, error = .imbalance .unclosed place ∧ (∀ place, ¬text.Unopened place) ∧
        IsLeast {place | text.Unclosed place} place := by
  obtain ⟨before, c, after, hparts, hbefore, hc⟩ := exists_of_imbalanceFrom h
  have hgroups := (Layers.linked_ofText text).isGroup
  rw [hparts] at hgroups
  have heven := even_of_imbalanceFrom (fun part hpart => hgroups part (List.mem_append_left _ hpart)) hbefore
  obtain ⟨hwhole, hsweep⟩ := sweep_eq_append (show sweep groupAt text.unquoted = _ from hparts)
  obtain ⟨v, hv, hnone, -⟩ := sweep_eq_loose_cons hsweep
  rw [hv] at hwhole
  generalize before.flatMap Swept.source = u at heven hc hwhole
  have hat : text.unquoted[u.length]? = some c := by simp [hwhole]
  have hfront : ∀ place ≤ u.length, 0 ≤ text.depth place := by
    intro place hle
    rw [depth_eq_height, hwhole, height_append_left _ hle]
    exact heven.nonneg place
  have hzero : text.depth u.length = 0 := by
    rw [depth_eq_height, hwhole, height_append_left _ le_rfl]
    exact heven.total
  have hback : ∀ further, text.depth (u.length + (further + 1)) = level (some c) + height v further := by
    intro further
    rw [depth_eq_height, hwhole, height_append_right, heven.total, height_cons, Int.zero_add]
  rcases hc with ⟨rfl, rfl⟩ | ⟨rfl, rfl⟩
  · have habove : ∀ later, u.length < later → 0 < text.depth later := by
      intro later hlt
      obtain ⟨further, rfl⟩ : ∃ further, later = u.length + (further + 1) := ⟨later - u.length - 1, by omega⟩
      have hnonneg := height_of_groupBody?_eq_none (groupAt_eq_none.mp hnone rfl) further
      rw [hback]
      simp only [level]
      omega
    refine .inr ⟨u.length, rfl, fun place hunopened => ?_, ⟨(sight_getElem?_iff (.inl rfl)).mpr hat, hzero, ?_⟩, ?_⟩
    · rcases Nat.lt_or_ge u.length (place + 1) with hlt | hle
      · exact absurd hunopened.2 (not_lt.mpr (habove _ hlt).le)
      · exact absurd hunopened.2 (not_lt.mpr (hfront _ hle))
    · exact fun later hlt => (habove later hlt).ne'
    · exact fun place hunclosed => not_lt.mp fun hlt => hunclosed.2.2 u.length hlt hzero
  · have hnegative : text.depth (u.length + 1) < 0 := by
      rw [hback, height_zero]
      decide
    refine .inl ⟨u.length, rfl, ⟨(sight_getElem?_iff (.inr rfl)).mpr hat, hnegative⟩, fun place hunopened => ?_⟩
    exact not_lt.mp fun hlt => absurd hunopened.2 (not_lt.mpr (hfront _ hlt))

-- A text can be masked if its parens in sight are paired. Otherwise the first one that closes too much is to blame or, if
-- there is none, the first that opens for good.
theorem ofText_outcome (text : Text) :
    ((∃ masked, ofText text = .ok masked) ↔ text.WellParenthesized) ∧
    ∀ error, ofText text = .error error ↔
      (∃ place, error = .imbalance .unopened place ∧ IsLeast {place | text.Unopened place} place) ∨
      ∃ place, error = .imbalance .unclosed place ∧ (∀ place, ¬text.Unopened place) ∧
        IsLeast {place | text.Unclosed place} place := by
  have hok : ∀ {masked}, ofText text = .ok masked → text.WellParenthesized := fun h =>
    wellParenthesized_of_imbalanceFrom (ofText_eq_ok_iff.mp h).1
  have herror : ∀ {error}, ofText text = .error error →
      imbalanceFrom 0 (Layers.ofText text).groups = some error := by
    intro error h
    unfold ofText at h
    dsimp only at h
    split at h
    case h_1 error' herror =>
      obtain rfl := Except.error.inj h
      exact herror
    case h_2 => cases h
  refine ⟨⟨fun ⟨masked, h⟩ => hok h, fun hpaired => ?_⟩, fun error => ⟨fun h => cases_of_imbalanceFrom (herror h), ?_⟩⟩
  · cases houtcome : ofText text with
    | ok masked => exact ⟨masked, rfl⟩
    | error error =>
      rcases cases_of_imbalanceFrom (herror houtcome) with ⟨place, -, hleast⟩ | ⟨place, -, -, hleast⟩
      · exact absurd hleast.1 (hpaired.not_unopened place)
      · exact absurd hleast.1 (hpaired.not_unclosed place)
  · intro hblame
    cases houtcome : ofText text with
    | ok masked =>
      have hpaired := hok houtcome
      rcases hblame with ⟨place, -, hleast⟩ | ⟨place, -, -, hleast⟩
      · exact absurd hleast.1 (hpaired.not_unopened place)
      · exact absurd hleast.1 (hpaired.not_unclosed place)
    | error error' =>
      rcases cases_of_imbalanceFrom (herror houtcome) with ⟨place', rfl, hleast'⟩ | ⟨place', rfl, hnone', hleast'⟩ <;>
        rcases hblame with ⟨place, rfl, hleast⟩ | ⟨place, rfl, hnone, hleast⟩
      · rw [hleast.unique hleast']
      · exact absurd hleast'.1 (hnone place')
      · exact absurd hleast.1 (hnone' place)
      · rw [hleast.unique hleast']

end Masked

end CssSelectors
