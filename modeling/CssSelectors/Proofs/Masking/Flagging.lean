import CssSelectors.Proofs.Masking.Unmasking

namespace CssSelectors

open Masked

namespace Replacement

-- Every hidden stretch is one of some text.
theorem exists_isOf (r : Replacement) : ∃ text, r.IsOf text := by
  refine ⟨List.replicate r.offset ' ' ++ r.value, fun k _ => ?_⟩
  rw [List.getElem?_append_right (by simp), List.length_replicate, Nat.add_sub_cancel_left]

-- To put a stretch back changes nothing if it is there already, or if the token does not take it back.
theorem content_putBack_eq_iff {r : Replacement} {token : Token} : (r.putBack token).content = token.content ↔
    ∀ k < r.value.length, r.FitsIn token → ∀ j, token.start + j = r.offset + k → token.content[j]? = r.value[k]? := by
  obtain ⟨text, htext⟩ := r.exists_isOf
  constructor
  · intro hsame k hk hfits j hj
    have hspans : r.Spans (token.start + j) := by
      unfold Spans stop
      omega
    rw [← hsame, getElem?_putBack htext, if_pos ⟨hfits, hspans⟩, hj, htext k hk]
  · intro hshows
    refine List.ext_getElem? fun j => ?_
    rw [getElem?_putBack htext]
    split
    case isTrue hback =>
      obtain ⟨hfits, hspans⟩ := hback
      obtain ⟨k, hk, hj⟩ := hspans.exists_add
      rw [hj, htext k hk, hshows k hk hfits j hj]
    case isFalse => rfl

end Replacement

namespace Masked

open Replacement

variable {text : Text} {masked : Masked} {token : Token}

-- If no step has changed a token, each step alone leaves its content as it is.
theorem snd_unmask_eq_false_iff :
    (masked.unmask token).2 = false ↔ ∀ r ∈ masked.replacements, (r.putBack token).content = token.content := by
  obtain ⟨masking, replacements⟩ := masked
  induction replacements with
  | nil => simp [unmask]
  | cons r more ih =>
    have hstep : (unmask ⟨masking, r :: more⟩ token).2 = ((unmask ⟨masking, more⟩ token).2 ||
        (r.putBack (unmask ⟨masking, more⟩ token).1).content != (unmask ⟨masking, more⟩ token).1.content) := rfl
    rw [hstep, Bool.or_eq_false_iff, bne_eq_false_iff_eq, List.forall_mem_cons, ← ih, and_comm]
    refine and_congr_left fun hunchanged => ?_
    rw [eq_of_unchanged hunchanged]

-- A token is changed by some step if it comes out different, or if it takes back a stretch that held covers when it was
-- hidden. What these stand for comes back in a later step.
theorem snd_unmask_eq_true_iff (h : ofText text = .ok masked) : (masked.unmask token).2 = true ↔
    (masked.unmask token).1.content ≠ token.content ∨ ∃ r ∈ masked.replacements, r.FitsIn token ∧ ¬r.IsOf text := by
  have hback : ∀ {r}, r ∈ masked.replacements → r.FitsIn token → ∀ k < r.value.length, ∀ j,
      token.start + j = r.offset + k → (masked.unmask token).1.content[j]? = text[r.offset + k]? := by
    intro r hr hfits k hk j hj
    have hspans : r.Spans (token.start + j) := by
      unfold Spans stop
      omega
    rw [getElem?_unmask h, if_pos ⟨r, hr, hfits, hspans⟩, hj]
  rw [← not_iff_not, Bool.not_eq_true, snd_unmask_eq_false_iff]
  simp only [not_or, not_exists, not_and, not_not]
  constructor
  · intro hsteps
    have hsame : (masked.unmask token).1.content = token.content :=
      content_eq_of_unchanged (snd_unmask_eq_false_iff.mpr hsteps)
    refine ⟨hsame, fun r hr hfits k hk => ?_⟩
    obtain ⟨j, hj⟩ : ∃ j, token.start + j = r.offset + k := ⟨r.offset - token.start + k, by have := hfits.1; omega⟩
    rw [← hback hr hfits k hk j hj, hsame, content_putBack_eq_iff.mp (hsteps r hr) k hk hfits j hj]
  · rintro ⟨hsame, hsource⟩ r hr
    refine content_putBack_eq_iff.mpr fun k hk hfits j hj => ?_
    rw [← hsame, hback hr hfits k hk j hj, hsource r hr hfits k hk]

-- The places that are listed are those of the tokens that some step has changed,
theorem mem_changed_iff {tokens : List Token} {i : Nat} : i ∈ (masked.unmaskAll tokens).2 ↔
    ∃ token, tokens[i]? = some token ∧ (masked.unmask token).2 = true := by
  simp [unmaskAll, List.mem_zipIdx_iff_getElem?]

-- from left to right.
theorem pairwise_changed (masked : Masked) (tokens : List Token) : (masked.unmaskAll tokens).2.Pairwise (· < ·) := by
  have hplaces : ((tokens.map masked.unmask).zipIdx.map Prod.snd).Pairwise (· < ·) := by
    rw [List.zipIdx_map_snd]
    exact List.pairwise_lt_range'
  exact hplaces.sublist (List.filter_sublist.map _)

-- Of the tokens that are unmasked those are listed, each once and from left to right, that come out different or take
-- back a stretch which held covers when it was hidden. So a token is listed though it comes out as it went in exactly
-- if it shows the source already and takes back something in which something else was hidden.
theorem mem_changed_iff_of_ofText (h : ofText text = .ok masked) (tokens : List Token) :
    (masked.unmaskAll tokens).2.Pairwise (· < ·) ∧
    ∀ i, i ∈ (masked.unmaskAll tokens).2 ↔ ∃ before after, tokens[i]? = some before ∧
      (masked.unmaskAll tokens).1[i]? = some after ∧
      (after.content ≠ before.content ∨ ∃ r ∈ masked.replacements, r.FitsIn before ∧ ¬r.IsOf text) := by
  refine ⟨pairwise_changed masked tokens, fun i => ?_⟩
  have hafter : (masked.unmaskAll tokens).1[i]? = tokens[i]?.map fun token => (masked.unmask token).1 := by
    simp [unmaskAll, Function.comp_def]
  rw [mem_changed_iff, hafter]
  simp only [snd_unmask_eq_true_iff h]
  constructor
  · rintro ⟨before, hbefore, hchanged⟩
    exact ⟨before, _, hbefore, by rw [hbefore]; rfl, hchanged⟩
  · rintro ⟨before, after, hbefore, hafter, hchanged⟩
    rw [hbefore] at hafter
    obtain rfl := Option.some.inj hafter
    exact ⟨before, hbefore, hchanged⟩

-- An escape in parens, and a token that shows it as it is. It is listed, for the parens come back with covers in them
-- before the escape does. A token that stands around the escape alone is not.
theorem mem_changed_iff_of_ofText_escape :
    let whole : Token := ⟨.pseudoClass "is".toList (some "\\,".toList) none none, ":is(\\,)".toList, 0, 7⟩
    let part : Token := ⟨.universal none, "\\,".toList, 4, 6⟩
    ∃ masked, ofText ":is(\\,)".toList = .ok masked ∧ (masked.unmaskAll [whole, part]).2 = [0] ∧
      (masked.unmaskAll [whole, part]).1.map Token.content = [whole, part].map Token.content ∧
      (masked.unmaskAll [whole, part]).2.Pairwise (· < ·) ∧
      ∃ before after, [whole, part][0]? = some before ∧ (masked.unmaskAll [whole, part]).1[0]? = some after ∧
        (after.content ≠ before.content ∨
          ∃ r ∈ masked.replacements, r.FitsIn before ∧ ¬r.IsOf ":is(\\,)".toList) := by
  intro whole part
  have hmasked : ∃ masked, ofText ":is(\\,)".toList = .ok masked ∧ (masked.unmaskAll [whole, part]).2 = [0] ∧
      (masked.unmaskAll [whole, part]).1.map Token.content = [whole, part].map Token.content := ⟨_, rfl, rfl, rfl⟩
  obtain ⟨masked, h, hlisted, hsame⟩ := hmasked
  obtain ⟨hpairwise, hiff⟩ := mem_changed_iff_of_ofText h [whole, part]
  exact ⟨masked, h, hlisted, hsame, hpairwise, (hiff 0).mp (hlisted ▸ List.mem_singleton_self 0)⟩

-- So what is listed is not always different.
theorem not_mem_changed_iff : ¬∀ text masked tokens, ofText text = .ok masked →
    (∀ token ∈ tokens, token.start ≤ token.stop) → ∀ i, i ∈ (masked.unmaskAll tokens).2 ↔
      ∃ before after, tokens[i]? = some before ∧ (masked.unmaskAll tokens).1[i]? = some after ∧
        after.content ≠ before.content := by
  intro hclaim
  let whole : Token := ⟨.pseudoClass "is".toList (some "\\,".toList) none none, ":is(\\,)".toList, 0, 7⟩
  have hmasked : ∃ masked, ofText ":is(\\,)".toList = .ok masked ∧ 0 ∈ (masked.unmaskAll [whole]).2 ∧
      ∀ after, (masked.unmaskAll [whole]).1[0]? = some after → after.content = whole.content :=
    ⟨_, rfl, List.mem_cons_self, fun _ hafter => Option.some.inj hafter ▸ rfl⟩
  obtain ⟨masked, h, hlisted, hsame⟩ := hmasked
  obtain ⟨before, after, hbefore, hafter, hdiffers⟩ :=
    (hclaim _ masked [whole] h (List.forall_mem_singleton.mpr (Nat.zero_le 7)) 0).mp hlisted
  obtain rfl : whole = before := Option.some.inj hbefore
  exact hdiffers (hsame after hafter)

end Masked

end CssSelectors
