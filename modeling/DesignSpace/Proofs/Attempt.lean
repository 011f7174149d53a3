/-
  Subject:   COMPUTATIONS THAT MAY FAIL. When one of them gives a result, and what a result in the
             end says of the steps before it.

  * `Attempt.bind_eq_ok_iff`, `bind_eq_error_iff`: one step after another;
  * `Attempt.mapError_eq_ok_iff`, `mapError_eq_error_iff`: errors renamed;
  * `Attempt.forM_eq_ok_iff`, `exists_of_forM_eq_error`: a check of every item of a list;
  * `Attempt.foldlM_agree`: two ways to go through a list that agree step by step;
  * `Attempt.foldlM_parts`, `foldlM_total`: one way, where every step succeeds;
  * `Attempt.foldlM_fst`: one way with notes taken on the side.
-/

namespace DesignSpace.Attempt

variable {ε ε' α β γ : Type}

theorem bind_eq_ok_iff {x : Except ε α} {f : α → Except ε β} {b : β} :
    (x >>= f) = .ok b ↔ ∃ a, x = .ok a ∧ f a = .ok b := by
  cases x with
  | error e => exact ⟨nofun, nofun⟩
  | ok a =>
      refine ⟨fun h => ⟨a, rfl, h⟩, ?_⟩
      rintro ⟨_, ⟨⟩, h⟩
      exact h

theorem bind_eq_error_iff {x : Except ε α} {f : α → Except ε β} {e : ε} :
    (x >>= f) = .error e ↔ x = .error e ∨ ∃ a, x = .ok a ∧ f a = .error e := by
  cases x with
  | error e' =>
      refine ⟨fun h => .inl (congrArg Except.error (Except.error.inj h)), ?_⟩
      rintro (⟨⟨⟩⟩ | ⟨_, ⟨⟩, _⟩)
      rfl
  | ok a =>
      refine ⟨fun h => .inr ⟨a, rfl, h⟩, ?_⟩
      rintro (⟨⟨⟩⟩ | ⟨_, ⟨⟩, h⟩)
      exact h

theorem mapError_eq_ok_iff {x : Except ε α} {f : ε → ε'} {a : α} :
    x.mapError f = .ok a ↔ x = .ok a := by
  cases x with
  | error e => exact ⟨nofun, nofun⟩
  | ok b => exact ⟨fun h => congrArg _ (Except.ok.inj h), fun h => congrArg _ (Except.ok.inj h)⟩

theorem mapError_eq_error_iff {x : Except ε α} {f : ε → ε'} {e : ε'} :
    x.mapError f = .error e ↔ ∃ e', x = .error e' ∧ f e' = e := by
  cases x with
  | error e' =>
      refine ⟨fun h => ⟨e', rfl, Except.error.inj h⟩, ?_⟩
      rintro ⟨_, ⟨⟩, rfl⟩
      rfl
  | ok a => exact ⟨nofun, nofun⟩

/-- A list passes a check if all its items do. -/
theorem forM_eq_ok_iff {f : α → Except ε Unit} {xs : List α} :
    xs.forM f = .ok () ↔ ∀ x ∈ xs, f x = .ok () := by
  induction xs with
  | nil => exact ⟨fun _ _ h => absurd h List.not_mem_nil, fun _ => rfl⟩
  | cons x xs ih =>
      show (f x >>= fun _ => xs.forM f) = .ok () ↔ _
      rw [bind_eq_ok_iff, List.forall_mem_cons]
      constructor
      · rintro ⟨⟨⟩, hx, hxs⟩
        exact ⟨hx, ih.mp hxs⟩
      · rintro ⟨hx, hxs⟩
        exact ⟨(), hx, ih.mpr hxs⟩

/-- A list that fails a check has an item that fails it so. -/
theorem exists_of_forM_eq_error {f : α → Except ε Unit} {xs : List α} {e : ε}
    (h : xs.forM f = .error e) : ∃ x ∈ xs, f x = .error e := by
  induction xs with
  | nil => cases h
  | cons x xs ih =>
      have h : (f x >>= fun _ => xs.forM f) = .error e := h
      rcases bind_eq_error_iff.mp h with hx | ⟨-, -, hxs⟩
      · exact ⟨x, List.mem_cons_self, hx⟩
      · obtain ⟨y, hy, hfy⟩ := ih hxs
        exact ⟨y, List.mem_cons_of_mem _ hy, hfy⟩

/-- **Two runs side by side**: if each step succeeds in both ways with one result, and the result
    keeps a property, then so do all steps together. -/
theorem foldlM_agree {P : β → Prop} {f g : β → α → Except ε β} {xs : List α} {b : β}
    (step : ∀ b a, P b → ∃ b', f b a = .ok b' ∧ g b a = .ok b' ∧ P b') (hb : P b) :
    ∃ b', xs.foldlM f b = .ok b' ∧ xs.foldlM g b = .ok b' ∧ P b' := by
  induction xs generalizing b with
  | nil => exact ⟨b, rfl, rfl, hb⟩
  | cons x xs ih =>
      obtain ⟨c, hf, hg, hc⟩ := step b x hb
      obtain ⟨b', hf', hg', hb'⟩ := ih hc
      refine ⟨b', ?_, ?_, hb'⟩
      · rw [List.foldlM_cons]
        exact bind_eq_ok_iff.mpr ⟨c, hf, hf'⟩
      · rw [List.foldlM_cons]
        exact bind_eq_ok_iff.mpr ⟨c, hg, hg'⟩

/-- **One run, and what it has done**: if each step succeeds for the items of a list, each of which
    adds its part to what is done, then so do all steps together. -/
theorem foldlM_parts {P : List γ → β → Prop} {f : β → α → Except ε β} {part : α → List γ}
    {xs : List α} {done : List γ} {b : β}
    (step : ∀ done b, ∀ a ∈ xs, P done b → ∃ b', f b a = .ok b' ∧ P (done ++ part a) b')
    (hb : P done b) : ∃ b', xs.foldlM f b = .ok b' ∧ P (done ++ xs.flatMap part) b' := by
  induction xs generalizing done b with
  | nil => exact ⟨b, rfl, (List.append_nil done).symm ▸ hb⟩
  | cons x xs ih =>
      obtain ⟨c, hf, hc⟩ := step done b x List.mem_cons_self hb
      obtain ⟨b', hf', hb'⟩ :=
        ih (fun done b a ha => step done b a (List.mem_cons_of_mem _ ha)) hc
      refine ⟨b', ?_, ?_⟩
      · rw [List.foldlM_cons]
        exact bind_eq_ok_iff.mpr ⟨c, hf, hf'⟩
      · rwa [List.flatMap_cons, ← List.append_assoc]

/-- **One run**: if each step succeeds for the items of a list and keeps a property, then so do all
    steps together. -/
theorem foldlM_total {P : β → Prop} {f : β → α → Except ε β} {xs : List α} {b : β}
    (step : ∀ b, ∀ a ∈ xs, P b → ∃ b', f b a = .ok b' ∧ P b') (hb : P b) :
    ∃ b', xs.foldlM f b = .ok b' ∧ P b' :=
  -- nothing is noted of what is done
  @foldlM_parts ε α β Unit (fun _ => P) f (fun _ => []) xs [] b
    (fun _ b a ha hb => step b a ha hb) hb

/-- **A run with notes taken on the side** is the run itself, if each step is. -/
theorem foldlM_fst {f : β → α → Except ε β} {g : β × γ → α → Except ε (β × γ)}
    (step : ∀ b a, (g b a).map Prod.fst = f b.1 a) (xs : List α) (b : β × γ) :
    (xs.foldlM g b).map Prod.fst = xs.foldlM f b.1 := by
  induction xs generalizing b with
  | nil => rfl
  | cons x xs ih =>
      rw [List.foldlM_cons, List.foldlM_cons, ← step b x]
      cases g b x with
      | error e => rfl
      | ok c => exact ih c

end DesignSpace.Attempt
