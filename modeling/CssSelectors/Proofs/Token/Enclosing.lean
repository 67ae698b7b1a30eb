import CssSelectors.Proofs.Grammar.Arguments
import CssSelectors.Proofs.Masking.Enclosing
import CssSelectors.Proofs.Token.Namespaces

namespace CssSelectors

open Masked Unicode Grammar Text

theorem Grammar.IsPlainName.isFreeName {n : Text} (h : IsPlainName n) : IsFreeName n := by
  obtain ⟨units, hunits, rfl⟩ := h
  induction units with
  | nil => exact .nil
  | cons unit units ih =>
    obtain ⟨hunit, hmore⟩ := List.forall_mem_cons.mp hunits
    obtain ⟨c, hblank, ⟨hname, rfl⟩ | rfl⟩ := hunit
    · refine .single ⟨hname, hblank⟩ ?_ (ih hmore)
      rintro rfl
      revert hname
      decide
    · refine .escape ?_ (ih hmore)
      rintro rfl
      revert hblank
      decide

theorem Text.exists_eq_trim (text : Text) :
    ∃ before after, IsBlank before ∧ IsBlank after ∧ text = before ++ text.trim ++ after := by
  refine ⟨text.takeWhile isBlank, (text.dropWhile isBlank).rtakeWhile isBlank, ?_, ?_, ?_⟩
  · exact fun c hc => List.mem_takeWhile_imp hc
  · exact fun c hc => List.mem_rtakeWhile_imp hc
  · rw [trim_eq_rdropWhile, List.append_assoc, List.rdropWhile_append_rtakeWhile, List.takeWhile_append_dropWhile]

theorem Text.IsBlank.idle {text : Text} (h : text.IsBlank) : text.Idle := idle_of_forall (by decide) h

-- No token ends with a backslash in sight, so what follows it is not escaped.
theorem Tag.Shape.getLast?_ne_backslash {tag : Tag} {text : Text} (h : tag.Shape text) :
    text.getLast? ≠ some '\\' := by
  intro hlast
  have hcloses := h.closes '\\' hlast
  revert hcloses
  cases tag <;> decide

theorem Word.getLast?_textOf_ne_backslash {words : List Word} (h : ∀ word ∈ words, word.Found) :
    (textOf words).getLast? ≠ some '\\' := by
  induction words with
  | nil => simp
  | cons word words ih =>
    obtain ⟨hword, hwords⟩ := List.forall_mem_cons.mp h
    rw [textOf_cons, List.getLast?_append]
    cases hlast : (textOf words).getLast? with
    | none => simpa using hword.shape.getLast?_ne_backslash
    | some c => simpa [hlast] using ih hwords

-- Parens can stand around whatever can be cut into tokens.
theorem Piece.Reading.enclosable {source : Text} {ps : List Piece} (h : Reading source ps) :
    Layers.Enclosable source where
  balanced := h.balanced
  escapes := by
    intro hmem
    have hlinked := Layers.linked_ofText source
    obtain ⟨before, after, hshown⟩ := List.append_of_mem hmem
    have hun : (shown (Layers.ofText source).escapes).Unescaped := unescaped_shown_escapes source
    obtain rfl := hun before after hshown
    have hlast : (Layers.ofText source).text.getLast? = some '\\' := by
      rw [Layers.text, getLast?_shown fun p hp => (hlinked.isGroup p hp).keepsEnds, hlinked.groups_eq,
        getLast?_shown fun p hp => (hlinked.isString p hp).keepsEnds, hlinked.strings_eq, hshown, List.getLast?_concat]
    have hcovered := Fragment.covered_of_passes (Layers.unescaped_text_ofText source) h.fragments_eq
    rw [← hcovered.textOf_eq] at hlast
    exact Word.getLast?_textOf_ne_backslash hcovered.found hlast

theorem Text.idle_pseudoClass {run : Text} (hrun : ∀ c ∈ run, isNameChar c = true) : Idle (':' :: run) := by
  have hall : ∀ c ∈ ':' :: run, (c == ':' || isNameChar c) = true :=
    List.forall_mem_cons.mpr ⟨rfl, fun c hc => by simp [hrun c hc]⟩
  exact idle_of_forall (by decide) hall

namespace Token

-- A name is one token with the argument that its parens hide.
theorem ofText_of_covered {tag : Tag} {lead : Text} (hlead : tag.lead? = some lead) (htakes : tag.takesArgument = true)
    {n body : Text} (hn : IsFreeName n) (hne : n ≠ []) (hbody : body ≠ [])
    (hmasked : (Layers.ofText (lead ++ n ++ '(' :: body ++ [')'])).text =
      lead ++ ((Layers.ofText n).text ++ inside '(' ')' .group body))
    (hbalanced : imbalanceFrom 0 (Layers.ofText (lead ++ n ++ '(' :: body ++ [')'])).groups = none) {kind : Kind Selector}
    (hkind : tag.named? n (some body) = some kind) : ofText (lead ++ n ++ '(' :: body ++ [')']) =
      .ok [⟨kind, lead ++ n ++ '(' :: body ++ [')'], 0, (lead ++ n ++ '(' :: body ++ [')']).length⟩] := by
  have hread := (Tag.read?_argument hlead htakes (hn.matches_name hne) hbody).trans hkind
  have hwritten : lead ++ (n ++ ('(' :: body ++ [')'])) = lead ++ n ++ '(' :: body ++ [')'] := by
    rw [List.append_assoc, List.append_assoc]
  rw [hwritten] at hread
  have htrimmed : Trimmed (lead ++ n ++ '(' :: body ++ [')']) := by
    rw [List.append_assoc]
    refine trimmed_append (List.append_ne_nil_of_right_ne_nil lead hne) (by simp)
      (Tag.isBlank_eq_false_of_head? hlead hn) fun c hc => ?_
    rw [List.getLast?_concat] at hc
    obtain rfl := Option.some.inj hc
    decide
  have hun := Layers.unescaped_text_ofText (lead ++ n ++ '(' :: body ++ [')'])
  have hinner : ∀ c ∈ inside '(' ')' .group body, c ∉ Tag.signs ∧ isBlank c = false ∧ c ≠ '*' := by
    intro c hc
    simp only [inside, List.mem_append, List.mem_cons, List.mem_replicate, List.not_mem_nil, or_false] at hc
    rcases hc with (rfl | ⟨_, rfl⟩) | rfl <;> decide
  have hquiet := Tag.front?_eq_none_of_name hlead hn _ hinner (hmasked ▸ hun)
  obtain ⟨found, hfront⟩ :=
    Tag.exists_front?_argument hlead htakes (Layers.matches_name_text hn hne) (List.length_pos_iff.mpr hbody)
  have hwidth : lead.length + (Layers.ofText n).text.length + body.length + 2 =
      (Layers.ofText (lead ++ n ++ '(' :: body ++ [')'])).text.length := by
    simp [Layers.length_text_ofText]
    omega
  have hcovered : lead ++ ((Layers.ofText n).text ++ ('(' :: List.replicate body.length Cover.group.char ++ [')'])) =
      (Layers.ofText (lead ++ n ++ '(' :: body ++ [')'])).text := by
    rw [hmasked]
    rfl
  rw [hwidth, hcovered] at hfront
  rw [← hmasked] at hquiet
  have hdelimits : tag.delimits = false := Tag.not_delimits_of_lead? hlead
  exact ofText_of_front? htrimmed hbalanced tag.all_eq_take hdelimits hquiet hfront hread

-- What the parens are around may be anything that is masked in them as one group,
theorem ofText_argument {tag : Tag} {lead : Text} (hlead : tag.lead? = some lead) (htakes : tag.takesArgument = true)
    {n body : Text} (hn : IsFreeName n) (hne : n ≠ []) (hbody : body ≠ []) (henclosable : Layers.Enclosable body)
    {kind : Kind Selector} (hkind : tag.named? n (some body) = some kind) : ofText (lead ++ n ++ '(' :: body ++ [')']) =
      .ok [⟨kind, lead ++ n ++ '(' :: body ++ [')'], 0, (lead ++ n ++ '(' :: body ++ [')']).length⟩] := by
  have hcontained := Tag.selfContained_append_name hlead hn
  refine ofText_of_covered hlead htakes hn hne hbody ?_ (Layers.imbalanceFrom_enclosed_append hcontained henclosable) hkind
  rw [Layers.text_ofText_enclosed_append hcontained henclosable, Tag.text_ofText_append_name hlead, List.append_assoc]

-- so a text that can be cut into tokens, and one with something harmless before it.
theorem ofText_pseudoClass {run : Text} (hne : run ≠ []) (hrun : ∀ c ∈ run, isNameChar c = true ∧ isBlank c = false)
    {before text : Text} (hbefore : before.Idle) {tokens : List Token} (h : ofText text = .ok tokens)
    (hargument : before ++ text ≠ []) :
    ofText (':' :: run ++ '(' :: (before ++ text) ++ [')']) =
      .ok [⟨.pseudoClass run (some (before ++ text)) none none, ':' :: run ++ '(' :: (before ++ text) ++ [')'], 0,
        (':' :: run ++ '(' :: (before ++ text) ++ [')']).length⟩] := by
  obtain ⟨ps, hreading, _⟩ := ofText_eq_ok_iff.mp h
  obtain ⟨lead, trail, hlead, htrail, htext⟩ := text.exists_eq_trim
  have hsplit : before ++ text = (before ++ lead) ++ text.trim ++ trail := by
    rw [List.append_assoc, List.append_assoc, ← List.append_assoc lead, ← htext]
  have hfront : Idle (':' :: run) := Text.idle_pseudoClass fun c hc => (hrun c hc).1
  have hopening : Idle (before ++ lead) := hbefore.append hlead.idle
  have hname : Idle run := idle_of_forall (by decide) fun c hc => (hrun c hc).1
  have hmasked : (Layers.ofText (':' :: run ++ '(' :: (before ++ text) ++ [')'])).text =
      [':'] ++ ((Layers.ofText run).text ++ inside '(' ')' .group (before ++ text)) := by
    rw [hsplit, Layers.text_ofText_enclosed hreading.enclosable hfront hopening htrail.idle, Layers.text_ofText_idle hname]
    rfl
  have hbalanced : imbalanceFrom 0 (Layers.ofText (':' :: run ++ '(' :: (before ++ text) ++ [')'])).groups = none := by
    rw [hsplit, Layers.imbalanceFrom_ofText_enclosed hreading.enclosable hfront hopening htrail.idle]
  have hcolon : Tag.pseudoClass.lead? = some [':'] := rfl
  exact ofText_of_covered hcolon rfl (isFreeName_of_forall hrun) hne hargument hmasked hbalanced rfl

-- Whatever is balanced once it is masked on its own, quotes without a partner among it, is kept to the letter between the
-- parens of a pseudo-class or a pseudo-element, as long as no backslash of it is left to escape the last paren.
theorem ofText_parenthesised {n body : Text} (hn : IsPlainName n) (hne : n ≠ []) (hbody : body ≠ [])
    (hpaired : body.MadeOf (fun _ => True) fun _ => True) {masked : Masked} (hmasked : Masked.ofText body = .ok masked) :
    ofText (':' :: n ++ '(' :: body ++ [')']) =
        .ok [⟨.pseudoClass n (some body) none none, ':' :: n ++ '(' :: body ++ [')'], 0, n.length + body.length + 3⟩] ∧
      ofText (':' :: ':' :: n ++ '(' :: body ++ [')']) =
        .ok [⟨.pseudoElement n (some body), ':' :: ':' :: n ++ '(' :: body ++ [')'], 0, n.length + body.length + 4⟩] := by
  have henclosable : Layers.Enclosable body := ⟨hpaired.notMem_shown, (Masked.ofText_eq_ok_iff.mp hmasked).1⟩
  have hfree := hn.isFreeName
  constructor
  · have hcolon : Tag.pseudoClass.lead? = some [':'] := rfl
    have hlength : (':' :: n ++ '(' :: body ++ [')']).length = n.length + body.length + 3 := by
      simp
      omega
    rw [← hlength]
    exact ofText_argument hcolon rfl hfree hne hbody henclosable rfl
  · have hcolons : Tag.pseudoElement.lead? = some [':', ':'] := rfl
    have hlength : (':' :: ':' :: n ++ '(' :: body ++ [')']).length = n.length + body.length + 4 := by
      simp
      omega
    rw [← hlength]
    exact ofText_argument hcolons rfl hfree hne hbody henclosable rfl

theorem ofText_parenthesised_unpaired :
    ofText [':', 'i', 's', '(', ' ', '(', '\n', ')', '\\', ')', '\x22', ')'] = .ok [⟨.pseudoClass ['i', 's']
        (some [' ', '(', '\n', ')', '\\', ')', '\x22']) none none,
        [':', 'i', 's', '(', ' ', '(', '\n', ')', '\\', ')', '\x22', ')'], 0, 12⟩] ∧
      ofText [':', ':', 'i', 's', '(', ' ', '(', '\n', ')', '\\', ')', '\x22', ')'] = .ok [⟨.pseudoElement ['i', 's']
        (some [' ', '(', '\n', ')', '\\', ')', '\x22']),
        [':', ':', 'i', 's', '(', ' ', '(', '\n', ')', '\\', ')', '\x22', ')'], 0, 13⟩] := by
  have hn : IsPlainName ['i', 's'] :=
    ⟨[['i'], ['s']], by simpa [IsPlainUnit] using by decide, rfl⟩
  have hpaired : Text.MadeOf (fun _ => True) (fun _ => True) [' ', '(', '\n', ')', '\\', ')', '\x22'] :=
    .single trivial (by decide) (.single trivial (by decide) (.single trivial (by decide) (.single trivial (by decide)
      (.escape trivial (.single trivial (by decide) .nil)))))
  obtain ⟨masked, hmasked⟩ : ∃ masked, Masked.ofText [' ', '(', '\n', ')', '\\', ')', '\x22'] = .ok masked := ⟨_, rfl⟩
  have htokens := ofText_parenthesised hn (by decide) (by decide) hpaired hmasked
  exact htokens

end Token

end CssSelectors
