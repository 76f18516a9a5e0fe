import Disguise.Text.Bytes

/-!
When computations that may fail succeed: a sequence does if all its parts do.
-/
namespace Disguise.Results
variable {ε ε' α β σ τ : Type}

@[simp] theorem bind_eq_ok {x : Except ε α} {k : α → Except ε β} {b : β} :
    (x >>= k) = .ok b ↔ ∃ a, x = .ok a ∧ k a = .ok b := by
  cases x with
  | error e => simp [bind, Except.bind]
  | ok a => simp [bind, Except.bind]

theorem exists_unit {p : Unit → Prop} : (∃ u, p u) ↔ p () := ⟨fun ⟨_, h⟩ => h, fun h => ⟨(), h⟩⟩

theorem ite_error_eq_ok {c : Prop} [Decidable c] {e : ε} {x : Except ε α} {a : α} :
    (if c then .error e else x) = .ok a ↔ ¬ c ∧ x = .ok a := by
  split <;> simp [*]

theorem ok_bind (a : α) (k : α → Except ε β) : (Except.ok a >>= k) = k a := rfl

@[simp] theorem map_eq_ok {x : Except ε α} {k : α → β} {b : β} :
    x.map k = .ok b ↔ ∃ a, x = .ok a ∧ k a = b := by
  cases x with
  | error e => simp [Except.map]
  | ok a => simp [Except.map]

theorem mapError_ok (a : α) (k : ε → ε') : (Except.ok a : Except ε α).mapError k = .ok a := rfl

theorem mapError_error (e : ε) (k : ε → ε') :
    (Except.error e : Except ε α).mapError k = .error (k e) := rfl

@[simp] theorem mapError_eq_ok {x : Except ε α} {k : ε → ε'} {a : α} :
    x.mapError k = .ok a ↔ x = .ok a := by
  cases x with
  | error e => simp [mapError_error]
  | ok a => simp [mapError_ok]

@[simp] theorem pure_eq_ok {a b : α} : (pure a : Except ε α) = .ok b ↔ a = b := by
  simp [pure, Except.pure]

theorem forM_eq_ok {l : List α} {k : α → Except ε Unit} :
    l.forM k = .ok () ↔ ∀ a ∈ l, k a = .ok () := by
  induction l with
  | nil => simp [List.forM, pure, Except.pure]
  | cons a l ih =>
    change (k a >>= fun _ => l.forM k) = .ok () ↔ _
    rw [bind_eq_ok, exists_unit, List.forall_mem_cons, ← ih]

/-- A list of computations that all succeed gives the list of their results. -/
theorem mapM_eq_ok {l : List α} {k : α → Except ε β} {h : α → β} (hk : ∀ a ∈ l, k a = .ok (h a)) :
    l.mapM k = .ok (l.map h) := by
  induction l with
  | nil => rfl
  | cons a l ih =>
    rw [List.mapM_cons, hk a (by simp), ih fun a ha => hk a (List.mem_cons_of_mem _ ha)]
    rfl

/-- Each result of a list of computations is that of one of them. -/
theorem exists_of_mapM {l : List α} {k : α → Except ε β} {bs : List β} {b : β}
    (h : l.mapM k = .ok bs) (hb : b ∈ bs) : ∃ a ∈ l, k a = .ok b := by
  induction l generalizing bs with
  | nil =>
    obtain rfl : [] = bs := by simpa using h
    cases hb
  | cons a l ih =>
    simp only [List.mapM_cons, bind_eq_ok, pure_eq_ok] at h
    obtain ⟨b', hb', bs', hbs', rfl⟩ := h
    rcases List.mem_cons.1 hb with rfl | hb
    · exact ⟨a, by simp, hb'⟩
    · obtain ⟨a', ha', hk⟩ := ih hbs' hb
      exact ⟨a', by simp [ha'], hk⟩

/-- What a fold keeps when every step succeeds and keeps it. -/
theorem foldlM_invariant {l : List α} {k : σ → α → Except ε σ} {P : List α → σ → Prop}
    {s : σ} (hs : P l s)
    (h : ∀ a rest s, (∃ done, l = done ++ a :: rest) → P (a :: rest) s →
      ∃ s', k s a = .ok s' ∧ P rest s') :
    ∃ s', l.foldlM k s = .ok s' ∧ P [] s' := by
  suffices ∀ rest s, (∃ done, l = done ++ rest) → P rest s →
      ∃ s', rest.foldlM k s = .ok s' ∧ P [] s' from this l s ⟨[], rfl⟩ hs
  intro rest
  induction rest with
  | nil => intro s _ hp; exact ⟨s, rfl, hp⟩
  | cons a rest ih =>
    rintro s ⟨done, hl⟩ hp
    obtain ⟨s₁, h₁, hp₁⟩ := h a rest s ⟨done, hl⟩ hp
    obtain ⟨s₂, h₂, hp₂⟩ := ih s₁ ⟨done ++ [a], by simp [hl]⟩ hp₁
    refine ⟨s₂, ?_, hp₂⟩
    rw [List.foldlM_cons, h₁]
    exact h₂

/-- The same, told by the elements that are done. -/
theorem foldlM_done {l : List α} {k : σ → α → Except ε σ} {P : List α → σ → Prop} {s : σ}
    (hs : P [] s)
    (h : ∀ done a rest s, l = done ++ a :: rest → P done s →
      ∃ s', k s a = .ok s' ∧ P (done ++ [a]) s') :
    ∃ s', l.foldlM k s = .ok s' ∧ P l s' := by
  obtain ⟨s', hok, done, hl, hp⟩ := foldlM_invariant (k := k)
    (P := fun rest s => ∃ done, l = done ++ rest ∧ P done s) ⟨[], rfl, hs⟩ (by
      rintro a rest s - ⟨done, hl, hp⟩
      obtain ⟨s', hok, hp'⟩ := h done a rest s hl hp
      exact ⟨s', hok, done ++ [a], by simp [hl], hp'⟩)
  rw [List.append_nil] at hl
  exact ⟨s', hok, hl ▸ hp⟩

/-- What a fold without failures keeps, told by the elements that are done. -/
theorem foldl_done {l : List α} {k : σ → α → σ} {P : List α → σ → Prop} {s : σ} (hs : P [] s)
    (h : ∀ done a rest s, l = done ++ a :: rest → P done s → P (done ++ [a]) (k s a)) :
    P l (l.foldl k s) := by
  suffices ∀ rest done s, l = done ++ rest → P done s → P l (rest.foldl k s) from
    this l [] s rfl hs
  intro rest
  induction rest with
  | nil =>
    intro done s hl hp
    rw [hl, List.append_nil]
    exact hp
  | cons a rest ih =>
    exact fun done s hl hp => ih (done ++ [a]) (k s a) (by simp [hl]) (h done a rest s hl hp)

/-- What a fold that succeeds has kept when every step keeps it. -/
theorem foldlM_keeps {l : List α} {step : σ → α → Except ε σ} {P : σ → Prop} {s s' : σ} (hs : P s)
    (h : ∀ a ∈ l, ∀ s s', P s → step s a = .ok s' → P s') (hok : l.foldlM step s = .ok s') :
    P s' := by
  induction l generalizing s with
  | nil =>
    obtain rfl : s = s' := by simpa using hok
    exact hs
  | cons a l ih =>
    rw [List.foldlM_cons, bind_eq_ok] at hok
    obtain ⟨s₁, h₁, hok⟩ := hok
    exact ih (h a (by simp) s s₁ hs h₁) (fun b hb => h b (by simp [hb])) hok

theorem map_bind {x : Except ε σ} {φ : σ → τ} {k : τ → Except ε α} :
    (φ <$> x >>= k) = x >>= fun s => k (φ s) := by
  cases x <;> rfl

theorem map_of_bind {x : Except ε α} {φ : σ → τ} {k : α → Except ε σ} :
    φ <$> (x >>= k) = x >>= fun a => φ <$> k a := by
  cases x <;> rfl

/-- A fold that starts at an image ends at the image when each step respects images. -/
theorem foldlM_image (φ : σ → τ) (k : σ → α → Except ε σ) (k' : τ → α → Except ε τ)
    (h : ∀ s a, k' (φ s) a = φ <$> k s a) (l : List α) (s : σ) :
    l.foldlM k' (φ s) = φ <$> l.foldlM k s := by
  induction l generalizing s with
  | nil => rfl
  | cons a l ih =>
    rw [List.foldlM_cons, List.foldlM_cons, h, map_bind, map_of_bind]
    congr
    funext s'
    exact ih s'

end Disguise.Results
