import CssSelectors.Proofs.Masking.Following

namespace CssSelectors

open Masked Text

namespace Text

variable {α : Type} {offer : Char → Text → Option (α × Nat)}

-- Characters for which nothing is ever offered are all left alone.
theorem sweep_append_of_idle {u : Text} (h : ∀ c ∈ u, ∀ rest, offer c rest = none) (v : Text) :
    sweep offer (u ++ v) = u.map .loose ++ sweep offer v := by
  induction u with
  | nil => rfl
  | cons c u ih =>
    obtain ⟨hc, hu⟩ := List.forall_mem_cons.mp h
    rw [List.cons_append, sweep_cons_of_none (hc _), ih hu, List.map_cons, List.cons_append]

theorem sweep_of_idle {u : Text} (h : ∀ c ∈ u, ∀ rest, offer c rest = none) : sweep offer u = u.map .loose := by
  simpa using sweep_append_of_idle h []

-- A text that neither marks an escape nor opens or closes a string, and one that does not open or
-- close a group, either.
def Plain (text : Text) : Prop := ∀ c ∈ text, c ≠ '\\' ∧ isQuote c = false

def Idle (text : Text) : Prop := text.Plain ∧ ∀ c ∈ text, c ≠ '(' ∧ c ≠ ')'

theorem idle_of_forall {accepts : Char → Bool} (haccepts : ['\\', '\x22', '\x27', '(', ')'].any accepts = false)
    {text : Text} (h : ∀ c ∈ text, accepts c = true) : text.Idle := by
  have hne : ∀ c ∈ text, ∀ d ∈ ['\\', '\x22', '\x27', '(', ')'], c ≠ d := by
    rintro c hc d hd rfl
    exact List.any_eq_false.mp haccepts c hd (h c hc)
  refine ⟨fun c hc => ⟨hne c hc _ (by simp), ?_⟩, fun c hc => ⟨hne c hc _ (by simp), hne c hc _ (by simp)⟩⟩
  simp [isQuote, hne c hc '\x22' (by simp), hne c hc '\x27' (by simp)]

theorem Plain.append {u v : Text} (hu : u.Plain) (hv : v.Plain) : Plain (u ++ v) :=
  fun c hc => (List.mem_append.mp hc).elim (hu c) (hv c)

theorem Idle.append {u v : Text} (hu : u.Idle) (hv : v.Idle) : Idle (u ++ v) :=
  ⟨hu.1.append hv.1, fun c hc => (List.mem_append.mp hc).elim (hu.2 c) (hv.2 c)⟩

end Text

namespace Masked

-- Where no backslash stays in sight, escapes are the same whatever follows.
theorem sweep_escapeAt_append {text : Text} (h : '\\' ∉ shown (text.sweep escapeAt)) (more : Text) :
    sweep escapeAt (text ++ more) = text.sweep escapeAt ++ sweep escapeAt more := by
  refine sweep_append_of_congr text (sweep_escapeAt_congr_of_open fun before after hsplit => ?_)
  refine absurd ?_ h
  rw [hsplit, shown_append, shown_cons]
  exact List.mem_append_right _ List.mem_cons_self

-- Strings are the same before a text that has no quotes to close one.
theorem sweep_stringAt_append (text : Text) {more : Text} (h : ∀ c ∈ more, isQuote c = false) :
    sweep stringAt (text ++ more) = text.sweep stringAt ++ more.map .loose := by
  rw [← sweep_of_idle fun c hc => stringAt_of_not_quote (h c hc)]
  refine sweep_append_of_congr text (sweep_stringAt_congr fun _ c _ _ hquote hnone => ?_)
  rw [List.append_nil] at hnone
  exact stringBody?_eq_none_append hnone fun hc => by simp [h c hc] at hquote

-- Parens that are balanced in a text do not close a group around it.
def Balanced (text : Text) : Prop :=
  ∀ depth more, groupBody? depth (text ++ more) = (groupBody? depth more).map (text ++ ·)

theorem Balanced.append {u v : Text} (hu : Balanced u) (hv : Balanced v) : Balanced (u ++ v) := by
  intro depth more
  rw [List.append_assoc, hu, hv, Option.map_map]
  simp [Function.comp_def]

theorem balanced_nil : Balanced [] := by
  intro depth more
  simp

theorem balanced_singleton {c : Char} (hopen : c ≠ '(') (hclose : c ≠ ')') : Balanced [c] := by
  intro depth more
  exact (Shifts.other depth hopen hclose).groupBody?_cons more

theorem balanced_of_notMem {text : Text} (h : ∀ c ∈ text, c ≠ '(' ∧ c ≠ ')') : Balanced text := by
  induction text with
  | nil => exact balanced_nil
  | cons c text ih =>
    obtain ⟨⟨hopen, hclose⟩, htext⟩ := List.forall_mem_cons.mp h
    exact (balanced_singleton hopen hclose).append (ih htext)

-- What a group holds closes as many parens as it opens.
theorem groupBody?_add {depth : Nat} {body rest : Text} (h : groupBody? depth (body ++ ')' :: rest) = some body)
    (outer : Nat) (more : Text) :
    groupBody? (depth + outer) (body ++ more) = (groupBody? outer more).map (body ++ ·) := by
  induction body generalizing depth with
  | nil =>
    cases depth with
    | zero => simp
    | succ depth => simp [groupBody?] at h
  | cons c body ih =>
    rw [List.cons_append] at h ⊢
    rcases shifts_or_last depth c with ⟨next, hshifts⟩ | ⟨rfl, rfl⟩
    · have hinner : groupBody? next (body ++ ')' :: rest) = some body := by simpa [hshifts.groupBody?_cons] using h
      rw [(hshifts.add outer).groupBody?_cons, ih hinner, Option.map_map]
      rfl
    · rw [groupBody?_last] at h
      cases h

theorem balanced_group {body : Text} (h : ∀ more, groupBody? 0 (body ++ ')' :: more) = some body) :
    Balanced ('(' :: body ++ [')']) := by
  intro depth more
  have hbody := groupBody?_add (h []) (depth + 1) (')' :: more)
  rw [Nat.zero_add] at hbody
  rw [List.cons_append, List.cons_append, (Shifts.opening depth).groupBody?_cons, List.append_assoc,
    List.singleton_append, hbody, (Shifts.closing depth).groupBody?_cons]
  simp [Function.comp_def]

-- A text without imbalance is balanced.
theorem balanced_of_imbalanceFrom {offset : Nat} {parts : Hidden} (hgroups : ∀ part ∈ parts, part.IsGroup)
    (h : imbalanceFrom offset parts = none) : Balanced (parts.flatMap Swept.source) := by
  induction parts generalizing offset with
  | nil => exact balanced_nil
  | cons part parts ih =>
    obtain ⟨hpart, hparts⟩ := List.forall_mem_cons.mp hgroups
    rw [List.flatMap_cons]
    rcases hpart with ⟨c, rfl⟩ | ⟨body, hbody, rfl⟩
    · rw [imbalanceFrom] at h
      split at h
      case isTrue => cases h
      case isFalse hopen =>
        split at h
        case isTrue => cases h
        case isFalse hclose => exact (balanced_singleton hopen hclose).append (ih hparts h)
    · exact (balanced_group hbody).append (ih hparts h)

theorem sweep_escapeAt_of_plain {u : Text} (hu : u.Plain) (v : Text) :
    sweep escapeAt (u ++ v) = u.map .loose ++ sweep escapeAt v :=
  sweep_append_of_idle (fun c hc => escapeAt_of_ne (hu c hc).1) v

theorem sweep_escapeAt_plain {u : Text} (hu : u.Plain) : u.sweep escapeAt = u.map .loose :=
  sweep_of_idle fun c hc => escapeAt_of_ne (hu c hc).1

theorem sweep_stringAt_of_plain {u : Text} (hu : u.Plain) (v : Text) :
    sweep stringAt (u ++ v) = u.map .loose ++ sweep stringAt v :=
  sweep_append_of_idle (fun c hc => stringAt_of_not_quote (hu c hc).2) v

theorem sweep_stringAt_plain {u : Text} (hu : u.Plain) : u.sweep stringAt = u.map .loose :=
  sweep_of_idle fun c hc => stringAt_of_not_quote (hu c hc).2

end Masked

namespace Layers

-- A text that can stand in parens: it does not hide the closing one, and its own are balanced.
structure Enclosable (text : Text) : Prop where
  escapes : '\\' ∉ shown (ofText text).escapes
  balanced : imbalanceFrom 0 (ofText text).groups = none

variable {front before text after : Text}

-- What stands around such a text does not change what the first two sweeps find in it.
theorem strings_ofText_append (h : Enclosable text) (hbefore : before.Plain) (hafter : after.Plain) :
    (ofText (before ++ text ++ after)).strings = before.map .loose ++ (ofText text).strings ++ after.map .loose := by
  have hescapes : sweep escapeAt (before ++ text ++ after) =
      before.map .loose ++ text.sweep escapeAt ++ after.map .loose := by
    rw [List.append_assoc, sweep_escapeAt_of_plain hbefore, sweep_escapeAt_append h.escapes,
      sweep_escapeAt_plain hafter, List.append_assoc]
  change sweep stringAt (shown (sweep escapeAt (before ++ text ++ after))) = _
  rw [hescapes, shown_append, shown_append, shown_loose, shown_loose, List.append_assoc,
    sweep_stringAt_of_plain hbefore, sweep_stringAt_append _ fun c hc => (hafter c hc).2, ← List.append_assoc]
  rfl

-- In parens it is hidden as one group.
theorem groups_ofText_enclosed (h : Enclosable text) (hfront : front.Idle) (hbefore : before.Idle)
    (hafter : after.Idle) :
    (ofText (front ++ '(' :: (before ++ text ++ after) ++ [')'])).groups =
      front.map .loose ++ [.taken (some (inside '(' ')' .group (before ++ text ++ after)))
        ('(' :: (before ++ shown (ofText text).strings ++ after) ++ [')'])] := by
  let shownText : Text := before ++ shown (ofText text).strings ++ after
  have hstrings : shown (ofText (front ++ '(' :: (before ++ text ++ after) ++ [')'])).strings =
      front ++ '(' :: (shownText ++ [')']) := by
    have hopening : Plain (front ++ '(' :: before) :=
      hfront.1.append (.append (u := ['(']) (by simp [Plain, isQuote]) hbefore.1)
    have hclosing : Plain (after ++ [')']) := hafter.1.append (by simp [Plain, isQuote])
    have hsource : front ++ '(' :: (before ++ text ++ after) ++ [')'] =
        (front ++ '(' :: before) ++ text ++ (after ++ [')']) := by simp
    rw [hsource, strings_ofText_append h hopening hclosing, shown_append, shown_append, shown_loose, shown_loose]
    simp [shownText]
  have hbalanced : Balanced shownText := by
    have hgroups := balanced_of_imbalanceFrom (linked_ofText text).isGroup h.balanced
    rw [(linked_ofText text).groups_eq] at hgroups
    exact ((balanced_of_notMem hbefore.2).append hgroups).append (balanced_of_notMem hafter.2)
  have hoffer : groupAt '(' (shownText ++ [')']) = some (some (inside '(' ')' .group shownText), shownText.length + 1) := by
    refine groupAt_eq_some.mpr ⟨rfl, shownText, ?_, rfl, rfl⟩
    rw [hbalanced]
    simp [groupBody?]
  have hinside : inside '(' ')' .group shownText = inside '(' ')' .group (before ++ text ++ after) := by
    simp [inside, shownText, (linked_ofText text).length_strings]
  change sweep groupAt (shown (ofText _).strings) = _
  rw [hstrings, sweep_append_of_idle fun c hc => groupAt_of_ne (hfront.2 c hc).1, sweep_cons_of_some hoffer,
    hinside, List.take_of_length_le (by simp), List.drop_of_length_le (by simp), sweep_nil]
  simp [shownText]

-- So nothing of it is in sight, and no paren is left over.
theorem text_ofText_enclosed (h : Enclosable text) (hfront : front.Idle) (hbefore : before.Idle) (hafter : after.Idle) :
    (ofText (front ++ '(' :: (before ++ text ++ after) ++ [')'])).text =
      front ++ inside '(' ')' .group (before ++ text ++ after) := by
  rw [Layers.text, groups_ofText_enclosed h hfront hbefore hafter, shown_append, shown_loose, shown_cons, shown_nil,
    List.append_nil]
  rfl

theorem imbalanceFrom_loose {u : Text} (hu : ∀ c ∈ u, c ≠ '(' ∧ c ≠ ')') (offset : Nat) (parts : Hidden) :
    imbalanceFrom offset (u.map .loose ++ parts) = imbalanceFrom (offset + u.length) parts := by
  induction u generalizing offset with
  | nil => rfl
  | cons c u ih =>
    obtain ⟨hc, hu⟩ := List.forall_mem_cons.mp hu
    rw [List.map_cons, List.cons_append, imbalanceFrom, if_neg hc.1, if_neg hc.2, ih hu, List.length_cons]
    congr 1
    omega

theorem imbalanceFrom_ofText_enclosed (h : Enclosable text) (hfront : front.Idle) (hbefore : before.Idle)
    (hafter : after.Idle) :
    imbalanceFrom 0 (ofText (front ++ '(' :: (before ++ text ++ after) ++ [')'])).groups = none := by
  rw [groups_ofText_enclosed h hfront hbefore hafter, imbalanceFrom_loose hfront.2]
  rfl

end Layers

end CssSelectors
