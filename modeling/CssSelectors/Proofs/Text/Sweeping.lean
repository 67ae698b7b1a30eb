import CssSelectors.Text.Sweep

namespace CssSelectors.Text

variable {α : Type} {offer : Char → Text → Option (α × Nat)}

-- What is found in joined texts is found in one of them.
theorem exists_split_of_flatMap {β : Type} {f : α → List β} {l : List α} {before after : List β} {c : β}
    (h : l.flatMap f = before ++ c :: after) : ∃ us x vs u v, l = us ++ x :: vs ∧ f x = u ++ c :: v ∧
      before = us.flatMap f ++ u ∧ after = v ++ vs.flatMap f := by
  induction l generalizing before with
  | nil => simp at h
  | cons y l ih =>
    rw [List.flatMap_cons] at h
    rcases List.append_eq_append_iff.mp h with ⟨w, rfl, hw⟩ | ⟨w, hy, hw⟩
    · obtain ⟨us, x, vs, u, v, rfl, hx, rfl, rfl⟩ := ih hw
      exact ⟨y :: us, x, vs, u, v, rfl, hx, by simp, rfl⟩
    · cases w with
      | nil =>
        rw [List.append_nil] at hy
        obtain ⟨us, x, vs, u, v, rfl, hx, hu, rfl⟩ := ih (show l.flatMap f = [] ++ c :: after from hw.symm)
        exact ⟨y :: us, x, vs, u, v, rfl, hx, by simp [hy, ← hu], rfl⟩
      | cons d w =>
        obtain ⟨rfl, rfl⟩ := List.cons.inj hw
        exact ⟨[], y, l, before, w, rfl, hy, rfl, rfl⟩

-- What the first part of a sweep says about the text: nothing was offered for a character that is left alone,
theorem sweep_eq_loose_cons {text : Text} {c : Char} {Q : List (Swept α)} (h : sweep offer text = .loose c :: Q) :
    ∃ rest, text = c :: rest ∧ offer c rest = none ∧ sweep offer rest = Q := by
  cases text with
  | nil => simp at h
  | cons d rest =>
    cases hoffer : offer d rest with
    | none =>
      rw [sweep_cons_of_none hoffer] at h
      obtain ⟨hpart, hrest⟩ := List.cons.inj h
      obtain rfl := Swept.loose.inj hpart
      exact ⟨rest, rfl, hoffer, hrest⟩
    | some found =>
      rw [sweep_cons_of_some hoffer] at h
      cases (List.cons.inj h).1

-- and an item was offered for a stretch that is taken.
theorem sweep_eq_taken_cons {text : Text} {item : α} {stretch : Text} {Q : List (Swept α)}
    (h : sweep offer text = .taken item stretch :: Q) : ∃ c rest more, text = c :: rest ∧
      offer c rest = some (item, more) ∧ stretch = c :: rest.take more ∧ sweep offer (rest.drop more) = Q := by
  cases text with
  | nil => simp at h
  | cons c rest =>
    cases hoffer : offer c rest with
    | none =>
      rw [sweep_cons_of_none hoffer] at h
      cases (List.cons.inj h).1
    | some found =>
      obtain ⟨found, more⟩ := found
      rw [sweep_cons_of_some hoffer] at h
      obtain ⟨hpart, hrest⟩ := List.cons.inj h
      obtain ⟨rfl, rfl⟩ := Swept.taken.inj hpart
      exact ⟨c, rest, more, rfl, hoffer, rfl, hrest⟩

-- A sweep can be resumed at any point between two of its parts: what it has passed by then does
-- not matter.
theorem sweep_eq_append {text : Text} {P Q : List (Swept α)} (h : sweep offer text = P ++ Q) :
    text = P.flatMap Swept.source ++ Q.flatMap Swept.source ∧ sweep offer (Q.flatMap Swept.source) = Q := by
  refine ⟨by rw [← List.flatMap_append, ← h, flatMap_source_sweep], ?_⟩
  induction P generalizing text with
  | nil =>
    rw [List.nil_append] at h
    rw [← h, flatMap_source_sweep]
  | cons part P ih =>
    cases part with
    | loose c =>
      obtain ⟨rest, -, -, hrest⟩ := sweep_eq_loose_cons h
      exact ih hrest
    | taken item stretch =>
      obtain ⟨c, rest, more, -, -, -, hrest⟩ := sweep_eq_taken_cons h
      exact ih hrest

theorem sweep_source_append {P Q : List (Swept α)} (h : sweep offer ((P ++ Q).flatMap Swept.source) = P ++ Q) :
    sweep offer (P.flatMap Swept.source ++ Q.flatMap Swept.source) = P ++ sweep offer (Q.flatMap Swept.source) := by
  rw [(sweep_eq_append h).2, ← List.flatMap_append, h]

-- How a part came about: nothing was offered for it, or it was.
theorem of_mem_sweep {text : Text} {part : Swept α} (h : part ∈ sweep offer text) :
    (∃ c rest, offer c rest = none ∧ part = .loose c) ∨
      ∃ c rest item more, offer c rest = some (item, more) ∧ part = .taken item (c :: rest.take more) := by
  obtain ⟨P, Q, hparts⟩ := List.append_of_mem h
  obtain ⟨-, hsweep⟩ := sweep_eq_append hparts
  cases part with
  | loose c =>
    obtain ⟨rest, -, hoffer, -⟩ := sweep_eq_loose_cons hsweep
    exact .inl ⟨c, rest, hoffer, rfl⟩
  | taken item stretch =>
    obtain ⟨c, rest, more, -, hoffer, rfl, -⟩ := sweep_eq_taken_cons hsweep
    exact .inr ⟨c, rest, item, more, hoffer, rfl⟩

-- A sweep takes the same parts of a text whatever follows it, if it is offered the same there.
theorem sweep_append_congr {M : List (Swept α)} {V W : Text}
    (hmore : ∀ c rest item more, offer c rest = some (item, more) → more ≤ rest.length)
    (hnone : ∀ before c after, M = before ++ .loose c :: after → offer c (after.flatMap Swept.source ++ V) = none →
      offer c (after.flatMap Swept.source ++ W) = none)
    (hsome : ∀ c rest item more, more ≤ rest.length → offer c (rest ++ V) = some (item, more) →
      offer c (rest ++ W) = some (item, more))
    (h : sweep offer (M.flatMap Swept.source ++ V) = M ++ sweep offer V) :
    sweep offer (M.flatMap Swept.source ++ W) = M ++ sweep offer W := by
  induction M with
  | nil => rfl
  | cons part M ih =>
    have hM := ih fun before c after hsplit => hnone (part :: before) c after (by rw [hsplit]; rfl)
    rw [List.flatMap_cons, List.append_assoc, List.cons_append] at h ⊢
    cases part with
    | loose c =>
      obtain ⟨rest, htext, hoffer, hrest⟩ := sweep_eq_loose_cons h
      obtain rfl : M.flatMap Swept.source ++ V = rest := (List.cons.inj htext).2
      have hoffer' := hnone [] c M rfl hoffer
      rw [Swept.source, List.singleton_append, sweep_cons_of_none hoffer', hM hrest]
    | taken item stretch =>
      obtain ⟨c, rest, more, htext, hoffer, rfl, hrest⟩ := sweep_eq_taken_cons h
      have hle := hmore c rest item more hoffer
      have hrest' : rest = rest.take more ++ (M.flatMap Swept.source ++ V) := (List.cons.inj htext).2.symm
      rw [Swept.source, List.cons_append]
      generalize htaken : rest.take more = taken at hrest' ⊢
      have hlength : taken.length = more := by rw [← htaken, List.length_take, Nat.min_eq_left hle]
      subst hrest' hlength
      have hoffer' : offer c (taken ++ (M.flatMap Swept.source ++ W)) = some (item, taken.length) := by
        rw [← List.append_assoc]
        refine hsome c (taken ++ M.flatMap Swept.source) item taken.length ?_ ?_
        · rw [List.length_append]
          omega
        · rwa [List.append_assoc]
      rw [List.drop_left] at hrest
      rw [sweep_cons_of_some hoffer', List.take_left, List.drop_left, hM hrest]

-- A stretch of parts is swept by itself as it is among the others, if the text may end after it.
theorem sweep_middle {P M Q : List (Swept α)}
    (hcongr : ∀ V, sweep offer (M.flatMap Swept.source ++ V) = M ++ sweep offer V →
      sweep offer (M.flatMap Swept.source ++ []) = M ++ sweep offer [])
    (h : sweep offer ((P ++ (M ++ Q)).flatMap Swept.source) = P ++ (M ++ Q)) :
    sweep offer (M.flatMap Swept.source) = M := by
  obtain ⟨_, hrest⟩ := sweep_eq_append h
  simpa using hcongr _ (sweep_source_append hrest)

-- A text is swept before another one as it is by itself, if its parts are found again there.
theorem sweep_append_of_congr (text : Text) {more : Text}
    (hcongr : sweep offer ((text.sweep offer).flatMap Swept.source ++ []) = text.sweep offer ++ sweep offer [] →
      sweep offer ((text.sweep offer).flatMap Swept.source ++ more) = text.sweep offer ++ sweep offer more) :
    sweep offer (text ++ more) = text.sweep offer ++ sweep offer more := by
  simpa only [flatMap_source_sweep] using hcongr (by simp [flatMap_source_sweep])

end CssSelectors.Text
