import CssSelectors.Proofs.Grammar.Spelling
import CssSelectors.Proofs.Token.Tokenizing

namespace CssSelectors

open Masked Unicode Grammar Text

-- A backslash with nothing after it is part of no token,
theorem Tag.front?_backslash (tag : Tag) : ∀ a b, ['\\'] = a ++ b → b ≠ [] → tag.front? b = none := by
  intro a b hab hb
  cases a with
  | nil =>
    obtain rfl : ['\\'] = b := hab
    cases tag <;> rfl
  | cons c a => exact absurd (List.append_eq_nil_iff.mp (List.cons.inj hab).2.symm).2 hb

-- so behind one it is left over.
theorem Fragment.ofText_append_backslash {before after : List Tag} {tag : Tag} (hall : Tag.all = before ++ tag :: after)
    {w : Text} (hquiet : ∀ other ∈ before, ∀ a b, w ++ ['\\'] = a ++ b → b ≠ [] → other.front? b = none)
    {kind : Kind Selector} (hfront : tag.front? (w ++ ['\\']) = some (kind, w.length)) : ofText (w ++ ['\\']) = [.cut kind w, .uncut ['\\']] := by
  have hnone : ∀ other : Tag, ∀ a b, ['\\'] = a ++ b → b ≠ [] → other.front? (b ++ []) = none := by
    intro other a b
    rw [List.append_nil]
    exact other.front?_backslash a b
  have hcutting : Cutting tag (w ++ (['\\'] ++ [])) [.cut kind w, .uncut ['\\']] :=
    .cut hfront (.uncut (by simp) (hnone tag) (by simp) .nil)
  rw [List.append_nil] at hcutting
  rw [ofText_eq_passes_cutOut hall (by simp) hquiet, hcutting.cutOut_eq, passes_cut_cons,
    passes_eq_self (by simp) fun other _ => other.front?_backslash]

namespace Token

-- A text that no token has taken is an error.
theorem ofText_of_place_eq_error {text : Text} {masked : Masked} {error : Error}
    (hmasked : Masked.ofText text.trim = .ok masked) (hplace : place text.trim 0 (Fragment.ofText masked.text) = .error error) : ofText text = .error error := by
  simp only [ofText, bind_eq_error]
  exact .inr ⟨masked, hmasked, .inl hplace⟩

section

variable {tag : Tag} {lead : Text} (hlead : tag.lead? = some lead)
include hlead

variable {n : Text} (hn : IsFreeName n)
include hn

-- A name is one token whatever it escapes, as long as nothing of it is trimmed.
theorem ofText_name (hne : n ≠ []) (hlast : ∀ c ∈ n.getLast?, isBlank c = false) {kind : Kind Selector}
    (hkind : tag.named? n none = some kind) : ofText (lead ++ n) = .ok [⟨kind, lead ++ n, 0, (lead ++ n).length⟩] := by
  have htrimmed : Trimmed (lead ++ n) := by
    refine ⟨Tag.isBlank_eq_false_of_head? hlead hn, fun c hc => hlast c ?_⟩
    rwa [List.getLast?_append_of_ne_nil lead hne] at hc
  have hfront : ∀ {name : Text} {kind : Kind Selector}, Pattern.Matches Grammar.name name →
      tag.named? name none = some kind → tag.front? (lead ++ name) = some (kind, (lead ++ name).length) := by
    intro name kind hname hkind
    have hfront : tag.front? (lead ++ name ++ []) = _ :=
      Tag.front?_named hlead hname stopsName_nil (by simp) (by simp)
    rwa [List.append_nil, hkind] at hfront
  obtain ⟨found, hfound⟩ := Option.isSome_iff_exists.mp (Tag.named?_isSome hlead (Layers.ofText n).text none)
  have hmasked := Tag.text_ofText_append_name hlead n
  have hun := Layers.unescaped_text_ofText (lead ++ n)
  have hquiet := Tag.front?_eq_none_of_name hlead hn [] (by simp) (by rwa [List.append_nil, ← hmasked])
  rw [List.append_nil, ← hmasked] at hquiet
  have hcovered := hfront (Layers.matches_name_text hn hne) hfound
  rw [← hmasked] at hcovered
  exact ofText_of_front? htrimmed (Tag.selfContained_append_name hlead hn).balanced tag.all_eq_take
    (Tag.not_delimits_of_lead? hlead) hquiet hcovered (Tag.read?_of_front?_whole (hfront (hn.matches_name hne) hkind))

-- A name after which a backslash stands alone is found, but the backslash is left over.
theorem ofText_name_backslash (hne : n ≠ []) :
    ofText (lead ++ n ++ ['\\']) = .error (.leftover ['\\'] (lead ++ n).length) := by
  obtain ⟨found, hfound⟩ := Option.isSome_iff_exists.mp (Tag.named?_isSome hlead (Layers.ofText n).text none)
  have hcontained := Tag.selfContained_append_name hlead hn
  have hmasked : (Layers.ofText (lead ++ n ++ ['\\'])).text = lead ++ (Layers.ofText n).text ++ ['\\'] := by
    rw [hcontained.text_append, Tag.text_ofText_append_name hlead]
    rfl
  have hun := Layers.unescaped_text_ofText (lead ++ n ++ ['\\'])
  rw [hmasked, List.append_assoc] at hun
  have hquiet := Tag.front?_eq_none_of_name hlead hn ['\\'] (List.forall_mem_singleton.mpr (by decide)) hun
  rw [← List.append_assoc] at hquiet
  have hfront := Tag.front?_named hlead (Layers.matches_name_text hn hne) stopsName_backslash (by decide) (by decide)
  rw [hfound, Option.map_some] at hfront
  have hcut := Fragment.ofText_append_backslash tag.all_eq_take hquiet hfront
  have htrimmed : Trimmed (lead ++ n ++ ['\\']) :=
    trimmed_append (List.append_ne_nil_of_right_ne_nil lead hne) (by simp) (Tag.isBlank_eq_false_of_head? hlead hn)
      (by simpa using (by decide : isBlank '\\' = false))
  have hbalanced : imbalanceFrom 0 (Layers.ofText (lead ++ n ++ ['\\'])).groups = none :=
    hcontained.imbalanceFrom_append rfl
  have hlength : (lead ++ (Layers.ofText n).text).length = (lead ++ n).length := by
    rw [← Tag.text_ofText_append_name hlead, Layers.length_text_ofText]
  refine ofText_of_place_eq_error (htrimmed.trim_eq.symm ▸ Masked.ofText_eq_ok_iff.mpr ⟨hbalanced, rfl⟩) ?_
  rw [htrimmed.trim_eq, hmasked, hcut, place, hlength, place]
  simp [slice]

end

-- The tokens that are made of a name: what stands before it, and what they say.
def headed (n : Text) : List (Text × Kind Selector) :=
  [(['#'], .id n), (['.'], .className n), ([':'], .pseudoClass n none none none), ([':', ':'], .pseudoElement n none),
    ([], .typeName none n)]

theorem exists_tag_of_mem_headed {n lead : Text} {kind : Kind Selector} (h : (lead, kind) ∈ headed n) :
    ∃ tag : Tag, tag.lead? = some lead ∧ tag.named? n none = some kind := by
  simp only [headed, List.mem_cons, Prod.mk.injEq, List.not_mem_nil, or_false] at h
  rcases h with ⟨rfl, rfl⟩ | ⟨rfl, rfl⟩ | ⟨rfl, rfl⟩ | ⟨rfl, rfl⟩ | ⟨rfl, rfl⟩
  · exact ⟨.id, rfl, rfl⟩
  · exact ⟨.className, rfl, rfl⟩
  · exact ⟨.pseudoClass, rfl, rfl⟩
  · exact ⟨.pseudoElement, rfl, rfl⟩
  · exact ⟨.typeName, rfl, rfl⟩

-- A name is read whole whatever it escapes, unless the last character that it escapes is a blank. That is trimmed
-- before anything else, and its backslash is left over.
theorem ofText_escaped {n lead : Text} {kind : Kind Selector} (hn : IsFreeName n) (hhead : (lead, kind) ∈ headed n) :
    ∀ last, n.getLast? = some last →
      (isBlank last = false → ofText (lead ++ n) = .ok [⟨kind, lead ++ n, 0, (lead ++ n).length⟩]) ∧
      (isBlank last = true → ∃ before, n = before ++ ['\\', last] ∧ ofText (lead ++ n) =
        .error (if before = [] then .leftover (lead ++ ['\\']) 0 else .leftover ['\\'] (lead ++ before).length)) := by
  intro last hlast
  obtain ⟨tag, hlead, hkind⟩ := exists_tag_of_mem_headed hhead
  constructor
  · intro hblank
    have hne : n ≠ [] := by
      rintro rfl
      cases hlast
    refine ofText_name hlead hn hne (fun c hc => ?_) hkind
    obtain rfl : last = c := Option.some.inj (hlast.symm.trans hc)
    exact hblank
  · intro hblank
    obtain ⟨before, rfl, hbefore⟩ := MadeOf.exists_of_getLast? hn hlast fun h => by simp [h.2] at hblank
    refine ⟨before, rfl, ?_⟩
    have htrim : Text.trim (lead ++ (before ++ ['\\', last])) = Text.trim (lead ++ before ++ ['\\']) := by
      have hsplit : lead ++ (before ++ ['\\', last]) = (lead ++ before ++ ['\\']) ++ [last] := by simp
      rw [hsplit, trim_append_right _ (by simpa [IsBlank] using hblank)]
    have hsame : ofText (lead ++ (before ++ ['\\', last])) = ofText (lead ++ before ++ ['\\']) := by
      rw [ofText, ofText, htrim]
    rw [hsame]
    split
    case isTrue hnil =>
      subst hnil
      cases tag <;> cases hlead <;> rfl
    case isFalse hne => exact ofText_name_backslash hlead hbefore hne

theorem ofText_escaped_within :
    ofText "#a\\ \\\x22".toList = .ok [⟨.id "a\\ \\\x22".toList, "#a\\ \\\x22".toList, 0, 6⟩] ∧
      ofText "::\\:\\ ".toList = .error (.leftover ['\\'] 4) := by
  have hquote : IsFreeName "a\\ \\\x22".toList :=
    .single (by decide) (by decide) (.escape (by decide) (.escape (by decide) .nil))
  have hcolon : IsFreeName "\\:\\ ".toList := .escape (by decide) (.escape (by decide) .nil)
  have hhead : ([':', ':'], .pseudoElement "\\:\\ ".toList none) ∈ headed "\\:\\ ".toList := by simp [headed]
  obtain ⟨before, hbefore, herror⟩ := (ofText_escaped hcolon hhead ' ' rfl).2 (by decide)
  obtain rfl : ['\\', ':'] = before := (List.append_inj' (show ['\\', ':'] ++ ['\\', ' '] = _ from hbefore) rfl).1
  exact ⟨(ofText_escaped hquote List.mem_cons_self '\x22' rfl).1 (by decide), herror⟩

-- An escaped blank at the end of a name is not kept.
theorem not_ofText_escaped : ¬∀ n lead kind, IsFreeName n → n ≠ [] → (lead, kind) ∈ headed n →
    ofText (lead ++ n) = .ok [⟨kind, lead ++ n, 0, (lead ++ n).length⟩] := by
  intro hall
  have hn : IsFreeName ['a', '\\', ' '] := .single (by decide) (by decide) (.escape (by decide) .nil)
  have herror : ofText ['#', 'a', '\\', ' '] = .error (.leftover ['\\'] 2) := rfl
  have htoken : ofText ['#', 'a', '\\', ' '] = .ok [⟨.id ['a', '\\', ' '], ['#', 'a', '\\', ' '], 0, 4⟩] :=
    hall ['a', '\\', ' '] ['#'] _ hn (by decide) List.mem_cons_self
  rw [herror] at htoken
  cases htoken

end Token

end CssSelectors
