import CssSelectors.Proofs.Masking.Enclosing
import CssSelectors.Proofs.Text.Trimming

namespace CssSelectors

open Masked Text

-- A text that can be masked, since its parens are balanced once escapes and strings are hidden.
def Text.Maskable (text : Text) : Prop := imbalanceFrom 0 (Layers.ofText text).groups = none

theorem Text.maskable_iff {text : Text} : text.Maskable ↔ ∃ masked, Masked.ofText text = .ok masked := by
  simp [Maskable, ofText_eq_ok_iff]

namespace Masked

-- A paren that a text does not close is closed by none that follows it, if there are none.
theorem groupBody?_eq_none_append {depth : Nat} {rest more : Text} (h : groupBody? depth rest = none)
    (hmore : ∀ c ∈ more, c ≠ '(' ∧ c ≠ ')') : groupBody? depth (rest ++ more) = none := by
  induction rest generalizing depth with
  | nil =>
    have hbalanced := balanced_of_notMem hmore depth []
    rwa [List.append_nil] at hbalanced
  | cons c rest ih =>
    rw [List.cons_append]
    rcases shifts_or_last depth c with ⟨next, hshifts⟩ | ⟨rfl, rfl⟩
    · rw [hshifts.groupBody?_cons, Option.map_eq_none_iff] at h ⊢
      exact ih h
    · rw [groupBody?_last] at h
      cases h

-- One closing paren after it is not enough if one more is open.
theorem groupBody?_succ_eq_none {depth : Nat} {rest : Text} (h : groupBody? depth rest = none) :
    groupBody? (depth + 1) (rest ++ [')']) = none := by
  induction rest generalizing depth with
  | nil => simp [groupBody?]
  | cons c rest ih =>
    rw [List.cons_append]
    rcases shifts_or_last depth c with ⟨next, hshifts⟩ | ⟨rfl, rfl⟩
    · rw [hshifts.groupBody?_cons, Option.map_eq_none_iff] at h
      rw [(hshifts.add 1).groupBody?_cons, Option.map_eq_none_iff]
      exact ih h
    · rw [groupBody?_last] at h
      cases h

-- Groups are the same before a text without parens.
theorem sweep_groupAt_append (text : Text) {more : Text} (h : ∀ c ∈ more, c ≠ '(' ∧ c ≠ ')') :
    sweep groupAt (text ++ more) = text.sweep groupAt ++ more.map .loose := by
  rw [← sweep_of_idle fun c hc => groupAt_of_ne (h c hc).1]
  refine sweep_append_of_congr text (sweep_groupAt_congr_of_open fun _ after _ hnone => ?_)
  rw [List.append_nil] at hnone
  exact groupBody?_eq_none_append hnone h

-- If parens are out of balance, there is a first one that is left over.
theorem exists_loose_of_imbalanceFrom {offset : Nat} {parts : Hidden} (h : imbalanceFrom offset parts ≠ none) :
    ∃ before c after, parts = before ++ .loose c :: after ∧ (c = '(' ∨ c = ')') ∧ imbalanceFrom 0 before = none := by
  induction parts generalizing offset with
  | nil => exact absurd rfl h
  | cons part parts ih =>
    by_cases hpart : ∃ c, (c = '(' ∨ c = ')') ∧ part = .loose c
    · obtain ⟨c, hc, rfl⟩ := hpart
      exact ⟨[], c, parts, rfl, hc, rfl⟩
    · have hparts : imbalanceFrom 0 parts ≠ none := by
        rw [ne_eq, imbalanceFrom_eq_none_iff] at h ⊢
        refine fun hparts => h fun c hc => ?_
        rcases List.mem_cons.mp hc with rfl | hc
        · exact not_or.mp fun hparen => hpart ⟨c, hparen, rfl⟩
        · exact hparts c hc
      obtain ⟨before, c, after, rfl, hc, hbefore⟩ := ih hparts
      refine ⟨part :: before, c, after, rfl, hc, ?_⟩
      rw [imbalanceFrom_eq_none_iff] at hbefore ⊢
      intro d hd
      rcases List.mem_cons.mp hd with rfl | hd
      · exact not_or.mp fun hparen => hpart ⟨d, hparen, rfl⟩
      · exact hbefore d hd

-- What a group holds is balanced by itself.
theorem imbalanceFrom_groupBody {body : Text} (h : groupBody? 0 (body ++ [')']) = some body) :
    imbalanceFrom 0 (body.sweep groupAt) = none := by
  rw [Option.eq_none_iff_forall_ne_some]
  intro error herror
  have himbalance : imbalanceFrom 0 (body.sweep groupAt) ≠ none := by simp [herror]
  obtain ⟨before, c, after, hparts, hc, hbefore⟩ := exists_loose_of_imbalanceFrom himbalance
  have hbalanced : Balanced (before.flatMap Swept.source) := by
    refine balanced_of_imbalanceFrom (fun part hpart => ?_) hbefore
    have hmem : part ∈ body.sweep groupAt := hparts ▸ List.mem_append_left _ hpart
    exact Swept.isGroup_of_mem hmem
  obtain ⟨hbody, hsweep⟩ := sweep_eq_append hparts
  obtain ⟨rest, hrest, hnone, -⟩ := sweep_eq_loose_cons hsweep
  rw [hbody, hrest, List.append_assoc, hbalanced, List.cons_append] at h
  rcases hc with rfl | rfl
  · rw [(Shifts.opening 0).groupBody?_cons, groupBody?_succ_eq_none (groupAt_eq_none.mp hnone rfl)] at h
    cases h
  · simp [groupBody?] at h

end Masked

namespace Text

variable {text before after : Text}

-- What stands before a text and hides nothing makes no difference,
theorem maskable_append_left (hbefore : before.Idle) : Maskable (before ++ text) ↔ Maskable text := by
  have hgroups : (Layers.ofText (before ++ text)).groups = before.map .loose ++ (Layers.ofText text).groups := by
    have hidle : ∀ c ∈ before, ∀ rest, groupAt c rest = none := fun c hc => groupAt_of_ne (hbefore.2 c hc).1
    simp only [Layers.ofText, sweep_escapeAt_of_plain hbefore.1, shown_append, Layers.shown_loose,
      sweep_stringAt_of_plain hbefore.1, sweep_append_of_idle hidle]
  rw [Maskable, hgroups, Layers.imbalanceFrom_loose hbefore.2, Maskable, imbalanceFrom_eq_none_iff,
    imbalanceFrom_eq_none_iff]

-- A last backslash of a text may escape what follows it. Up to there its escapes are the same.
theorem exists_shown_escapes_append (text : Text) (hafter : after.Idle) : ∃ front back back',
    shown (sweep escapeAt (text ++ after)) = front ++ back ∧ shown (text.sweep escapeAt) = front ++ back' ∧
      ∀ c ∈ back ++ back', isQuote c = false ∧ c ≠ '(' ∧ c ≠ ')' := by
  have hshown : ∀ {u : Text}, u.Idle → shown (sweep escapeAt u) = u := fun hu => by
    rw [sweep_escapeAt_plain hu.1, Layers.shown_loose]
  have hidle : ∀ c ∈ after, isQuote c = false ∧ c ≠ '(' ∧ c ≠ ')' := fun c hc => ⟨(hafter.1 c hc).2, hafter.2 c hc⟩
  induction text using sweep_induction escapeAt with
  | nil => exact ⟨[], after, [], hshown hafter, rfl, by simpa using hidle⟩
  | loose c rest hoffer ih =>
    by_cases hc : c = '\\'
    · obtain rfl : rest = [] := escapeAt_eq_none.mp hoffer hc
      subst hc
      cases after with
      | nil => exact ⟨[], ['\\'], ['\\'], rfl, rfl, by simp [isQuote]⟩
      | cons d after =>
        have hrest : Idle after :=
          ⟨fun c hc => hafter.1 c (List.mem_cons_of_mem d hc), fun c hc => hafter.2 c (List.mem_cons_of_mem d hc)⟩
        refine ⟨[], List.replicate 2 Cover.escape.char ++ after, ['\\'], ?_, rfl, ?_⟩
        · rw [List.singleton_append, shown_sweep_escape, hshown hrest]
          rfl
        · simp only [List.mem_append, List.mem_replicate, List.mem_singleton]
          rintro c ((⟨-, rfl⟩ | hc) | rfl)
          · decide
          · exact hidle c (List.mem_cons_of_mem d hc)
          · decide
    · obtain ⟨front, back, back', hfront, hfront', hback⟩ := ih
      refine ⟨c :: front, back, back', ?_, ?_, hback⟩
      · rw [List.cons_append, shown_sweep_cons fun _ _ hslash _ => hc hslash, hfront]
        rfl
      · rw [shown_sweep_cons fun _ _ hslash _ => hc hslash, hfront']
        rfl
  | taken c rest item more hoffer ih =>
    obtain ⟨rfl, hne, -, rfl⟩ := escapeAt_eq_some.mp hoffer
    obtain ⟨d, rest, rfl⟩ := List.exists_cons_of_ne_nil hne
    obtain ⟨front, back, back', hfront, hfront', hback⟩ := ih
    rw [List.drop_one, List.tail_cons] at hfront hfront'
    refine ⟨Cover.escape.char :: Cover.escape.char :: front, back, back', ?_, ?_, hback⟩
    · rw [List.cons_append, List.cons_append, shown_sweep_escape, hfront]
      rfl
    · rw [shown_sweep_escape, hfront']
      rfl

-- What neither opens nor closes a string or a group makes no difference to parens before it.
theorem imbalanceFrom_append_eq_none_iff {front back : Text} (h : ∀ c ∈ back, isQuote c = false ∧ c ≠ '(' ∧ c ≠ ')') :
    imbalanceFrom 0 (sweep groupAt (shown (sweep stringAt (front ++ back)))) = none ↔
      imbalanceFrom 0 (sweep groupAt (shown (front.sweep stringAt))) = none := by
  have hparens : ∀ c ∈ back, c ≠ '(' ∧ c ≠ ')' := fun c hc => (h c hc).2
  rw [sweep_stringAt_append front fun c hc => (h c hc).1, shown_append, Layers.shown_loose,
    sweep_groupAt_append _ hparens, imbalanceFrom_eq_none_iff, imbalanceFrom_eq_none_iff]
  constructor
  · exact fun hall c hc => hall c (List.mem_append_left _ hc)
  · intro hall c hc
    rcases List.mem_append.mp hc with hc | hc
    · exact hall c hc
    · obtain ⟨d, hd, hcd⟩ := List.mem_map.mp hc
      obtain rfl := Swept.loose.inj hcd
      exact hparens d hd

-- nor does such a text after it.
theorem maskable_append_right (hafter : after.Idle) : Maskable (text ++ after) ↔ Maskable text := by
  obtain ⟨front, back, back', hlong, hshort, hback⟩ := exists_shown_escapes_append text hafter
  rw [Maskable, Maskable, Layers.ofText, Layers.ofText, hlong, hshort]
  rw [imbalanceFrom_append_eq_none_iff fun c hc => hback c (List.mem_append_left _ hc),
    imbalanceFrom_append_eq_none_iff fun c hc => hback c (List.mem_append_right _ hc)]

end Text

namespace Masked

-- Where a character is shown that nothing is hidden by, it was left alone.
theorem exists_loose_of_shown {parts : Hidden} {c : Char}
    (hc : ∀ item text, .taken item text ∈ parts → c ∉ (Swept.taken item text).shown) {u v : Text}
    (h : shown parts = u ++ c :: v) : ∃ P Q, parts = P ++ .loose c :: Q ∧ shown P = u ∧ shown Q = v := by
  induction parts generalizing u with
  | nil => simp at h
  | cons part parts ih =>
    have hmore := fun item text (hmem : .taken item text ∈ parts) => hc item text (List.mem_cons_of_mem part hmem)
    rw [shown_cons] at h
    cases part with
    | loose d =>
      cases u with
      | nil =>
        obtain ⟨rfl, rfl⟩ := List.cons.inj h
        exact ⟨[], parts, rfl, rfl, rfl⟩
      | cons e u =>
        obtain ⟨rfl, hrest⟩ := List.cons.inj h
        obtain ⟨P, Q, rfl, rfl, rfl⟩ := ih hmore hrest
        exact ⟨.loose d :: P, Q, rfl, rfl, rfl⟩
    | taken item text =>
      rcases List.append_eq_append_iff.mp h with ⟨w, rfl, hw⟩ | ⟨w, hshown, hw⟩
      · obtain ⟨P, Q, rfl, rfl, rfl⟩ := ih hmore hw
        exact ⟨.taken item text :: P, Q, rfl, shown_cons _ P, rfl⟩
      · cases w with
        | nil =>
          obtain ⟨P, Q, rfl, hP, rfl⟩ := ih hmore (show shown parts = [] ++ c :: v from hw.symm)
          refine ⟨.taken item text :: P, Q, rfl, ?_, rfl⟩
          rw [shown_cons, hP, hshown, List.append_nil, List.append_nil]
        | cons d w =>
          obtain ⟨rfl, -⟩ := List.cons.inj hw
          exact absurd (hshown ▸ List.mem_append_right u List.mem_cons_self) (hc item text List.mem_cons_self)

end Masked

namespace Layers

variable {text : Text}

theorem notMem_shown_of_isEscape {item : Option Text} {taken : Text} {c : Char} (hcover : isCover c = false)
    (h : (Swept.taken item taken).IsEscape) : c ∉ (Swept.taken item taken).shown := by
  rcases h with ⟨d, hd⟩ | ⟨d, hd⟩
  · cases hd
  · rw [hd]
    intro hmem
    obtain ⟨-, rfl⟩ := List.mem_replicate.mp hmem
    simp [isCover_char] at hcover

theorem notMem_shown_of_isString {item : Option Text} {taken : Text} {c : Char} (hcover : isCover c = false)
    (hquote : isQuote c = false) (h : (Swept.taken item taken).IsString) : c ∉ (Swept.taken item taken).shown := by
  rcases h with ⟨d, hd⟩ | ⟨quote, body, hq, -, -, -, hd⟩
  · cases hd
  · rw [hd, Swept.IsString.eq_inside]
    have hne : c ≠ quote := by
      rintro rfl
      rw [hquote] at hq
      cases hq
    intro hmem
    simp only [inside, List.cons_append, List.mem_cons, List.mem_append, List.mem_replicate, List.not_mem_nil,
      or_false, hne, false_or] at hmem
    obtain ⟨-, rfl⟩ := hmem
    simp [isCover_char] at hcover

-- A character that is in sight after two sweeps has been left alone by both.
theorem exists_loose_of_shown_strings {c : Char} (hcover : isCover c = false) (hquote : isQuote c = false) {E S : Hidden}
    (hescape : ∀ part ∈ E, part.IsEscape) (hstring : ∀ part ∈ S, part.IsString)
    (hlinked : S.flatMap Swept.source = shown E) {u v : Text} (h : shown S = u ++ c :: v) :
    ∃ E₁ E₂ S₁ S₂, E = E₁ ++ .loose c :: E₂ ∧ S = S₁ ++ .loose c :: S₂ ∧ shown S₁ = u ∧ shown S₂ = v ∧
      S₁.flatMap Swept.source = shown E₁ ∧ S₂.flatMap Swept.source = shown E₂ := by
  obtain ⟨S₁, S₂, rfl, rfl, rfl⟩ := exists_loose_of_shown
    (fun item taken hmem => notMem_shown_of_isString hcover hquote (hstring _ hmem)) h
  rw [List.flatMap_append, List.flatMap_cons] at hlinked
  obtain ⟨E₁, E₂, rfl, hfront, hback⟩ := exists_loose_of_shown
    (fun item taken hmem => notMem_shown_of_isEscape hcover (hescape _ hmem)) hlinked.symm
  exact ⟨E₁, E₂, S₁, S₂, rfl, rfl, rfl, rfl, hfront.symm, hback.symm⟩

-- What a group holds can be masked by itself.
theorem exists_maskable_of_group {A C : Hidden} {item : Option Text} {y : Text}
    (h : (ofText text).groups = A ++ .taken item ('(' :: y ++ [')']) :: C) : ∃ before body after,
      text = before ++ '(' :: (body ++ ')' :: after) ∧ before.length = (A.flatMap Swept.source).length ∧
        body.length = y.length ∧ Maskable body := by
  have hlinked := linked_ofText text
  have hgroups := hlinked.groups_eq
  have hgroup := hlinked.isGroup (.taken item ('(' :: y ++ [')'])) (by simp [h])
  rw [h, List.flatMap_append, List.flatMap_cons] at hgroups
  obtain ⟨E₁, E, S₁, S, hE, hS, hfront, hinner, hlink, hmore⟩ := exists_loose_of_shown_strings (c := '(') (by decide)
    (by decide) hlinked.isEscape hlinked.isString hlinked.strings_eq (u := A.flatMap Swept.source)
    (v := y ++ ')' :: C.flatMap Swept.source) (by rw [← hgroups]; simp [Swept.source])
  have hescape : ∀ part ∈ E₁ ++ .loose '(' :: E, part.IsEscape := hE ▸ hlinked.isEscape
  have hstring : ∀ part ∈ S₁ ++ .loose '(' :: S, part.IsString := hS ▸ hlinked.isString
  obtain ⟨E₂, E₃, S₂, S₃, rfl, rfl, hbody, -, hlink', -⟩ := exists_loose_of_shown_strings (c := ')') (by decide)
    (by decide) (fun part hpart => hescape part (by simp [hpart])) (fun part hpart => hstring part (by simp [hpart]))
    hmore hinner
  have hlength : ∀ {E S : Hidden}, (∀ part ∈ E, part.IsEscape) → (∀ part ∈ S, part.IsString) →
      S.flatMap Swept.source = shown E → (E.flatMap Swept.source).length = (shown S).length := by
    intro E S hE hS hlink
    rw [length_shown fun part hpart => (hS part hpart).fits, hlink, length_shown fun part hpart => (hE part hpart).fits]
  refine ⟨E₁.flatMap Swept.source, E₂.flatMap Swept.source, E₃.flatMap Swept.source, ?_, ?_, ?_, ?_⟩
  · have hsource := source_ofText text
    rw [source, hE] at hsource
    rw [← hsource]
    simp [Swept.source]
  · rw [hlength (fun part hpart => hescape part (by simp [hpart])) (fun part hpart => hstring part (by simp [hpart]))
      hlink, hfront]
  · rw [hlength (fun part hpart => hescape part (by simp [hpart])) (fun part hpart => hstring part (by simp [hpart]))
      hlink', hbody]
  · have hescapes : sweep escapeAt (E₂.flatMap Swept.source) = E₂ := by
      have hsweep := sweep_escapes_ofText text
      rw [hE, List.append_cons] at hsweep
      exact sweep_middle (fun V => sweep_escapeAt_congr fun _ => rfl) hsweep
    have hstrings : sweep stringAt (S₂.flatMap Swept.source) = S₂ := by
      have hsweep := sweep_strings_ofText text
      rw [hS, List.append_cons] at hsweep
      refine sweep_middle (fun V => sweep_stringAt_congr fun _ _ _ _ _ hnone => ?_) hsweep
      rw [List.append_nil]
      exact stringBody?_eq_none_of_append hnone
    have hgroupBody : groupBody? 0 (y ++ [')']) = some y := by
      rcases hgroup with ⟨c, hc⟩ | ⟨body, hbody, hpart⟩
      · cases hc
      · have heq : '(' :: y ++ [')'] = '(' :: body ++ [')'] := (Swept.taken.inj hpart).2
        obtain rfl : y = body := by simpa using heq
        exact hbody []
    simp only [Maskable, ofText, hescapes, ← hlink', hstrings, hbody]
    exact imbalanceFrom_groupBody hgroupBody

-- Where a group is seen to be hidden, there is one.
theorem Linked.exists_group {l : Layers} (h : l.Linked) (hloose : ∀ c, .loose c ∈ l.groups → c ≠ '(') {front back : Text}
    (hfront : ∀ c ∈ front.getLast?, c ≠ '(' ∧ isQuote c = false) {hidden : Text} (hhidden : ∀ c ∈ hidden, isCover c = true)
    (htext : l.text = front ++ '(' :: (hidden ++ ')' :: back)) : ∃ A item y C,
      l.groups = A ++ .taken item ('(' :: y ++ [')']) :: C ∧ (A.flatMap Swept.source).length = front.length ∧
        y.length = hidden.length := by
  have hfits := h.fits_groups
  have huntied : ¬TiedAt front ('(' :: (hidden ++ ')' :: back)) := by
    rintro ⟨a, ha, b, hb, htied⟩
    obtain rfl : '(' = b := by simpa using hb
    obtain ⟨hopen, hquote⟩ := hfront a ha
    simp [Tied, isCover_iff, isQuote_iff, hopen, hquote] at htied
  obtain ⟨A, Q, hgroups, hA, hQ⟩ := exists_parts_of_untied hfits htext huntied
  rw [hgroups] at hloose hfits
  have hlength : (A.flatMap Swept.source).length = front.length := by
    rw [← hA, length_shown fun part hpart => hfits part (List.mem_append_left _ hpart)]
  cases Q with
  | nil => cases hQ
  | cons part C =>
    rcases h.isGroup part (by simp [hgroups]) with ⟨c, rfl⟩ | ⟨y, -, rfl⟩
    · obtain ⟨rfl, -⟩ := List.cons.inj hQ
      exact absurd rfl (hloose '(' (by simp))
    · refine ⟨A, _, y, C, hgroups, hlength, ?_⟩
      -- Both are all that stands before the first closing paren.
      have hinner : List.replicate y.length Cover.group.char ++ ')' :: shown C = hidden ++ ')' :: back := by
        simpa [shown_cons, Swept.shown, inside] using hQ
      have hcovers : ∀ c ∈ List.replicate y.length Cover.group.char, isCover c = true := fun c hc => by
        rw [List.eq_of_mem_replicate hc]
        exact isCover_char .group
      have hsame := (append_inj_of_run hcovers hhidden (by decide) (by decide) hinner).1
      rw [← hsame, List.length_replicate]

end Layers

end CssSelectors
