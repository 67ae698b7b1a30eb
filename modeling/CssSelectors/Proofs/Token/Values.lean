import CssSelectors.Proofs.Grammar.Values
import CssSelectors.Proofs.Token.Enclosing

namespace CssSelectors

open Masked Unicode Grammar Text

namespace Layers

theorem idle_operator {op : Text} (hop : op ∈ operators) : op.Idle := by
  have hall : operators.all (List.all · ['=', '~', '|', '^', '$', '*'].contains) = true := by decide
  exact idle_of_forall (by decide) (List.all_eq_true.mp (List.all_eq_true.mp hall op hop))

theorem idle_ended {flag : Option (Char × Char)} (hflag : ∀ p ∈ flag, isBlank p.1 = true ∧ isFlag p.2 = true) :
    Idle (ended flag) := by
  have hall : ∀ c ∈ ended flag, (isBlank c || isFlag c || c == ']') = true := by
    cases flag with
    | none => simp [ended]
    | some p =>
      obtain ⟨hblank, hletter⟩ := hflag _ rfl
      simp [ended, hblank, hletter]
  exact idle_of_forall (by decide) hall

section

variable {n op body : Text} {quote : Char} {flag : Option (Char × Char)} (hn : IsFreeName n) (hop : op ∈ operators)
  (hquote : isQuote quote = true) (hbody : body.MadeOf (fun c => c ≠ quote ∧ c ≠ '\n') (· ≠ '\n'))
  (hflag : ∀ p ∈ flag, isBlank p.1 = true ∧ isFlag p.2 = true)
include hn hop hquote hbody hflag

-- Of an attribute with a quoted value only that and the escapes of the name are hidden.
theorem text_ofText_quoted : (ofText ('[' :: (n ++ (op ++ (quote :: body ++ [quote] ++ ended flag))))).text =
    '[' :: ((ofText n).text ++ (op ++ (inside quote quote .string body ++ ended flag))) := by
  have hbracket : Idle ['['] := by simp [Idle, Plain, isQuote]
  have hopen := (selfContained_idle hbracket).text_append (n ++ (op ++ (quote :: body ++ [quote] ++ ended flag)))
  rw [List.singleton_append] at hopen
  rw [hopen, (selfContained_name hn).text_append, (selfContained_idle (idle_operator hop)).text_append,
    (selfContained_string hquote hbody).text_append, text_ofText_idle hbracket, text_ofText_idle (idle_operator hop),
    text_ofText_string hquote hbody, text_ofText_idle (idle_ended hflag)]
  rfl

theorem selfContained_quoted : SelfContained ('[' :: (n ++ (op ++ (quote :: body ++ [quote] ++ ended flag)))) := by
  have hbracket : Idle ['['] := by simp [Idle, Plain, isQuote]
  have hvalue := (selfContained_string hquote hbody).append (selfContained_idle (idle_ended hflag))
  have hcompared := (selfContained_idle (idle_operator hop)).append hvalue
  exact (selfContained_idle hbracket).append ((selfContained_name hn).append hcompared)

end

end Layers

namespace Token

-- An attribute with a quoted value is one token, with or without a flag.
theorem ofText_quoted {n op body : Text} {quote : Char} {flag : Option (Char × Char)} (hn : IsPlainName n) (hne : n ≠ [])
    (hop : op ∈ operators) (hquote : isQuote quote = true) (hbody : body.MadeOf (fun c => c ≠ quote ∧ c ≠ '\n') (· ≠ '\n'))
    (hflag : ∀ p ∈ flag, isBlank p.1 = true ∧ isFlag p.2 = true) :
    ofText ('[' :: (n ++ (op ++ (quote :: body ++ [quote] ++ ended flag)))) =
      .ok [⟨.attr none n (some op) (some (quote :: body ++ [quote])) (flag.map fun p => [p.2]),
        '[' :: (n ++ (op ++ (quote :: body ++ [quote] ++ ended flag))), 0,
        ('[' :: (n ++ (op ++ (quote :: body ++ [quote] ++ ended flag)))).length⟩] := by
  have hmasked := Layers.text_ofText_quoted hn.isFreeName hop hquote hbody hflag
  have hbalanced := (Layers.selfContained_quoted hn.isFreeName hop hquote hbody hflag).balanced
  have hline : '\n' ∉ body := by
    intro hmem
    have hfeed := hbody.forall_mem (P := (· ≠ '\n')) (by decide) (fun _ hc => hc.2) (fun _ hc => hc) _ hmem
    exact hfeed rfl
  have hread := Tag.read?_quoted (hn.matches_name hne) (fun c hc => hn.isBlank_eq_false c (List.mem_of_head? hc)) hop hquote
    hline hflag
  have hchars := Layers.forall_mem_text_name hn.isFreeName
  have hbracket : ']' ∉ (Layers.ofText n).text := by
    intro hmem
    exact absurd (hchars _ hmem).1 (by decide)
  have hcovered : ∀ c ∈ ['\n', ']'], c ∉ List.replicate body.length Cover.string.char := by
    intro c hc hmem
    obtain rfl := (List.mem_replicate.mp hmem).2
    revert hc
    decide
  have hfront := Tag.front?_quoted (Layers.matches_name_text hn.isFreeName hne)
    (fun c hc => (hchars c (List.mem_of_head? hc)).2) hop hquote (hcovered _ (by simp)) hflag hbracket (hcovered _ (by simp))
  have hcover : '[' :: ((Layers.ofText n).text ++ (op ++ (quote :: List.replicate body.length Cover.string.char ++ [quote] ++
      ended flag))) = (Layers.ofText ('[' :: (n ++ (op ++ (quote :: body ++ [quote] ++ ended flag))))).text := hmasked.symm
  rw [hcover] at hfront
  have htrimmed : Trimmed ('[' :: (n ++ (op ++ (quote :: body ++ [quote] ++ ended flag)))) := by
    have hlast : (ended flag).getLast? = some ']' := by cases flag <;> rfl
    refine trimmed_append (u := ['[']) (by simp) (by simp) (by simpa using (by decide : isBlank '[' = false)) fun c hc => ?_
    obtain rfl : ']' = c := by simpa [List.getLast?_cons, List.getLast?_append, hlast] using hc
    decide
  have hall : Tag.all = [] ++ .attr :: Tag.all.tail := rfl
  exact ofText_of_front? htrimmed hbalanced hall rfl (by simp) hfront hread

-- Between the quotes of a value anything may stand but a line feed, brackets and what looks like the end of the attribute
-- too. A bar before an equals sign is no namespace.
theorem ofText_compared {n op body : Text} {quote : Char} (hn : IsPlainName n) (hne : n ≠ []) (hop : op ∈ operators)
    (hquote : isQuote quote = true) (hbody : body.MadeOf (fun c => c ≠ quote ∧ c ≠ '\n') (· ≠ '\n')) :
    ofText ('[' :: n ++ op ++ quote :: body ++ [quote, ']']) =
        .ok [⟨.attr none n (some op) (some (quote :: body ++ [quote])) none, '[' :: n ++ op ++ quote :: body ++ [quote, ']'], 0,
          ('[' :: n ++ op ++ quote :: body ++ [quote, ']']).length⟩] ∧
      ∀ blank letter, isBlank blank = true → letter ∈ ['i', 'I', 's', 'S'] →
        ofText ('[' :: n ++ op ++ quote :: body ++ [quote, blank, letter, ']']) =
          .ok [⟨.attr none n (some op) (some (quote :: body ++ [quote])) (some [letter]),
            '[' :: n ++ op ++ quote :: body ++ [quote, blank, letter, ']'], 0,
            ('[' :: n ++ op ++ quote :: body ++ [quote, blank, letter, ']']).length⟩] := by
  have hwritten : ∀ flag, '[' :: (n ++ (op ++ (quote :: body ++ [quote] ++ ended flag))) =
      '[' :: n ++ op ++ quote :: body ++ quote :: ended flag := by
    intro flag
    simp
  constructor
  · have hnone : ∀ p ∈ (none : Option (Char × Char)), isBlank p.1 = true ∧ isFlag p.2 = true := by simp
    have htoken := ofText_quoted hn hne hop hquote hbody hnone
    rwa [hwritten] at htoken
  · intro blank letter hblank hletter
    have hflag : ∀ p ∈ some (blank, letter), isBlank p.1 = true ∧ isFlag p.2 = true := by
      simpa using ⟨hblank, isFlag_iff.mpr (by simpa using hletter)⟩
    have htoken := ofText_quoted hn hne hop hquote hbody hflag
    rwa [hwritten] at htoken

theorem ofText_compared_bar :
    ofText ['[', 'a', '\\', '|', '|', '=', '\x22', ']', '\\', '\x22', ' ', 'i', '\x22', ']'] =
        .ok [⟨.attr none ['a', '\\', '|'] (some ['|', '=']) (some ['\x22', ']', '\\', '\x22', ' ', 'i', '\x22']) none,
          ['[', 'a', '\\', '|', '|', '=', '\x22', ']', '\\', '\x22', ' ', 'i', '\x22', ']'], 0, 14⟩] ∧
      ofText ['[', 'a', '\\', '|', '|', '=', '\x22', ']', '\\', '\x22', ' ', 'i', '\x22', '\n', 'S', ']'] =
        .ok [⟨.attr none ['a', '\\', '|'] (some ['|', '=']) (some ['\x22', ']', '\\', '\x22', ' ', 'i', '\x22']) (some ['S']),
          ['[', 'a', '\\', '|', '|', '=', '\x22', ']', '\\', '\x22', ' ', 'i', '\x22', '\n', 'S', ']'], 0, 16⟩] := by
  have hn : IsPlainName ['a', '\\', '|'] :=
    ⟨[['a'], ['\\', '|']], by simpa using ⟨⟨'a', by decide⟩, '|', by decide⟩, rfl⟩
  have hbody : Text.MadeOf (fun c => c ≠ '\x22' ∧ c ≠ '\n') (· ≠ '\n') [']', '\\', '\x22', ' ', 'i'] :=
    .single (by decide) (by decide) (.escape (by decide) (.single (by decide) (by decide) (.single (by decide) (by decide) .nil)))
  have hop : ['|', '='] ∈ operators := by decide
  obtain ⟨hplain, hflagged⟩ := ofText_compared hn (by decide) hop (by decide) hbody
  exact ⟨hplain, hflagged '\n' 'S' (by decide) (by decide)⟩

end Token

end CssSelectors
