import Disguise.Proofs.Words
import Disguise.Random

/-!
What holds for every outcome of random choices. `Always` says that a computation stops at no
violation and that its result has a property, whatever the source; there is one rule for each way
of putting computations together.
-/
namespace Disguise

theorem Choice.run_bind {α β : Type} (c : Choice α) (k : α → Choice β) (r : Rand) :
    (c >>= k).run r = match c.run r with
      | (.ok a, r') => (k a).run r'
      | (.error e, r') => (.error e, r') := by
  simp only [Choice.run, ExceptT.run_bind, StateT.run_bind]
  rcases hc : (ExceptT.run c).run r with ⟨x, r'⟩
  cases x <;> rfl

theorem Choice.run_get (r : Rand) : (get : Choice Rand).run r = (.ok r, r) := rfl

theorem Choice.run_set (r s : Rand) : (set s : Choice PUnit).run r = (.ok ⟨⟩, s) := rfl

theorem Choice.run_pure {α : Type} (a : α) (r : Rand) :
    (pure a : Choice α).run r = (.ok a, r) := rfl

theorem Choice.run_lift {α : Type} (x : Except Violation α) (r : Rand) :
    (liftM x : Choice α).run r = (x, r) := by
  cases x <;> rfl

/-- Whatever is chosen, the computation succeeds with a result that has the property. -/
def Always {α : Type} (c : Choice α) (P : α → Prop) : Prop :=
  ∀ r, ∃ a r', c.run r = (.ok a, r') ∧ P a

namespace Always
variable {α β σ : Type} {P : α → Prop} {Q : β → Prop}

theorem pure {a : α} (h : P a) : Always (pure a) P := fun r => ⟨a, r, rfl, h⟩

theorem bind {c : Choice α} {k : α → Choice β} (hc : Always c P) (hk : ∀ a, P a → Always (k a) Q) :
    Always (c >>= k) Q := by
  intro r
  obtain ⟨a, r₁, hrun, ha⟩ := hc r
  obtain ⟨b, r₂, hrun', hb⟩ := hk a ha r₁
  refine ⟨b, r₂, ?_, hb⟩
  rw [Choice.run_bind, hrun]
  exact hrun'

theorem mono {c : Choice α} {P' : α → Prop} (h : Always c P) (himp : ∀ a, P a → P' a) :
    Always c P' := by
  intro r
  obtain ⟨a, r', hrun, ha⟩ := h r
  exact ⟨a, r', hrun, himp a ha⟩

theorem and {c : Choice α} {P' : α → Prop} (h : Always c P) (h' : Always c P') :
    Always c fun a => P a ∧ P' a := by
  intro r
  obtain ⟨a, r₁, hrun, ha⟩ := h r
  obtain ⟨b, r₂, hrun', hb⟩ := h' r
  rw [hrun] at hrun'
  cases hrun'
  exact ⟨a, r₁, hrun, ha, hb⟩

/-- A computation without choices that succeeds. -/
theorem lift {x : Except Violation α} {a : α} (hx : x = .ok a) (h : P a) :
    Always (liftM x : Choice α) P := by
  subst hx
  exact fun r => ⟨a, r, rfl, h⟩

theorem ite {p : Prop} [Decidable p] {c d : Choice α} (hc : p → Always c P)
    (hd : ¬ p → Always d P) : Always (if p then c else d) P := by
  split
  · exact hc ‹_›
  · exact hd ‹_›

/-- What a fold keeps when every step keeps it. -/
theorem foldlM {l : List α} {step : σ → α → Choice σ} {I : List α → σ → Prop} {s : σ} (hs : I l s)
    (h : ∀ a rest s, (∃ done, l = done ++ a :: rest) → I (a :: rest) s →
      Always (step s a) (I rest)) :
    Always (l.foldlM step s) (I []) := by
  suffices ∀ rest s, (∃ done, l = done ++ rest) → I rest s →
      Always (rest.foldlM step s) (I []) from this l s ⟨[], rfl⟩ hs
  intro rest
  induction rest with
  | nil => exact fun s _ hi => pure hi
  | cons a rest ih =>
    rintro s ⟨done, hl⟩ hi
    rw [List.foldlM_cons]
    exact (h a rest s ⟨done, hl⟩ hi).bind fun s' hi' => ih s' ⟨done ++ [a], by simp [hl]⟩ hi'

theorem below {n : Int} (hn : 0 < n) : Always (Choice.below n) fun v => v < n.toNat := by
  intro r
  have hle : ¬ n ≤ 0 := by omega
  have hlt := r.source.below_lt (Int.lt_toNat.2 hn)
  rcases hdraw : r.source.below n.toNat with ⟨v, source⟩
  rw [hdraw] at hlt
  refine ⟨v, ⟨source, .below n.toNat v :: r.trace⟩, ?_, hlt⟩
  simp only [Choice.below, hle, if_false, Choice.run_bind, Choice.run_get, Choice.run_set,
    Choice.run_pure, hdraw]

theorem value {bits : Int} (h : Word.goodWidth bits) :
    Always (Choice.value bits) fun v => Word.fits v bits := by
  intro r
  rcases hdraw : r.source.word with ⟨w, source⟩
  refine ⟨_, ⟨source, .value bits (Word.low w bits.toNat) :: r.trace⟩, ?_, Word.fits_low h w⟩
  simp only [Choice.value, Choice.run_bind, Choice.run_get, Choice.run_set, Choice.run_lift,
    Choice.run_pure, hdraw, Word.truncate_of_good h]

theorem any_of_below {n : Int} (hn : 0 < n) {k : Nat → β} :
    Always (Choice.below n >>= fun v => Pure.pure (k v)) fun _ => True :=
  (below hn).bind fun _ _ => pure trivial

theorem coin : Always Choice.coin fun _ => True := any_of_below (by decide)

theorem oneIn {n : Int} (hn : 0 < n) : Always (Choice.oneIn n) fun _ => True := any_of_below hn

theorem outOf {n total : Int} (hn : 0 < n) (ht : n < total) :
    Always (Choice.outOf n total) fun _ => True := by
  unfold Choice.outOf
  rw [if_neg (by omega)]
  exact any_of_below (by omega)

theorem word : Always Choice.word fun _ => True := by
  intro r
  rcases hdraw : r.source.word with ⟨v, source⟩
  refine ⟨v, ⟨source, .word v :: r.trace⟩, ?_, trivial⟩
  simp only [Choice.word, Choice.run_bind, Choice.run_get, Choice.run_set, Choice.run_pure, hdraw]

/-- At every width of a byte or more there are special numbers. -/
theorem special {bits : Int} (h8 : 8 ≤ bits) (h64 : bits ≤ 64) :
    Always (Choice.special bits) fun _ => True := by
  have hcounts : ∀ i < 9, ∃ n, Special.counts[i]? = some n ∧ 0 < n := by decide +kernel
  obtain ⟨n, hn, hpos⟩ := hcounts (bits / 8).toNat (by omega)
  unfold Choice.special
  simp only [hn]
  exact any_of_below (by omega)

theorem shortened (v : UInt64) : Always (Choice.shortened v) fun _ => True :=
  (outOf (by decide) (by decide)).bind fun _ _ => .ite (fun _ => pure trivial) fun _ =>
    (outOf (by decide) (by decide)).bind fun _ _ =>
      .ite (fun _ => pure trivial) fun _ => pure trivial

theorem likely {bits : Int} (h64 : bits ≤ 64) (v : UInt64) :
    Always (Choice.likely v bits) fun _ => True :=
  (outOf (by decide) (by decide)).bind fun _ _ => .ite (fun _ => pure trivial) fun _ =>
    .ite (fun _ => shortened v) fun h8 => (outOf (by decide) (by decide)).bind fun _ _ =>
      .ite (fun _ => special (by omega) h64) fun _ => shortened v

theorem biased {bits : Int} (h : Word.goodWidth bits) :
    Always (Choice.biased bits) fun v => Word.fits v bits := by
  obtain ⟨w, hw, -, h64⟩ := Word.goodWidth_iff.1 h
  refine word.bind fun v _ => (likely (by omega) v).bind fun v _ => (oneIn (by decide)).bind
    fun negate _ => ?_
  exact lift (Word.truncate_of_good h _) (Word.fits_low h _)

end Always

/-- Whatever is chosen, the computation stops at a violation or its result has the property. -/
def Yields {α : Type} (c : Choice α) (P : α → Prop) : Prop :=
  ∀ r a r', c.run r = (.ok a, r') → P a

namespace Yields
variable {α β : Type} {P : α → Prop} {Q : β → Prop}

theorem pure {a : α} (h : P a) : Yields (pure a) P := by
  intro r b r' hrun
  rw [Choice.run_pure] at hrun
  cases hrun
  exact h

theorem bind {c : Choice α} {k : α → Choice β} (hc : Yields c P) (hk : ∀ a, P a → Yields (k a) Q) :
    Yields (c >>= k) Q := by
  intro r b r' hrun
  rw [Choice.run_bind] at hrun
  rcases hmid : c.run r with ⟨x, r₁⟩
  rw [hmid] at hrun
  cases x with
  | error e => cases hrun
  | ok a => exact hk a (hc r a r₁ hmid) r₁ b r' hrun

theorem any (c : Choice α) : Yields c fun _ => True := fun _ _ _ _ => trivial

theorem lift {x : Except Violation α} (h : ∀ a, x = .ok a → P a) :
    Yields (liftM x : Choice α) P := by
  intro r a r' hrun
  rw [Choice.run_lift] at hrun
  cases hrun
  exact h a rfl

theorem ite {p : Prop} [Decidable p] {c d : Choice α} (hc : p → Yields c P)
    (hd : ¬ p → Yields d P) : Yields (if p then c else d) P := by
  split
  · exact hc ‹_›
  · exact hd ‹_›

/-- What a fold keeps when every step keeps it. -/
theorem foldlM {σ : Type} {l : List α} {step : σ → α → Choice σ} {I : σ → Prop} {s : σ} (hs : I s)
    (h : ∀ a ∈ l, ∀ s, I s → Yields (step s a) I) : Yields (l.foldlM step s) I := by
  induction l generalizing s with
  | nil => exact pure hs
  | cons a l ih =>
    rw [List.foldlM_cons]
    exact bind (h a (by simp) s hs) fun s' hs' => ih hs' fun b hb => h b (by simp [hb])

theorem of_always {c : Choice α} (h : Always c P) : Yields c P := by
  intro r a r' hrun
  obtain ⟨b, r₁, hrun', hb⟩ := h r
  rw [hrun] at hrun'
  cases hrun'
  exact hb

end Yields

/-- Two computations that make the same choices, whatever the source; they stop at the same
violation or their results are related. -/
def Together {α β : Type} (c : Choice α) (d : Choice β) (R : α → β → Prop) : Prop :=
  ∀ r, (∃ a b r', c.run r = (.ok a, r') ∧ d.run r = (.ok b, r') ∧ R a b) ∨
    ∃ v r', c.run r = (.error v, r') ∧ d.run r = (.error v, r')

namespace Together
variable {α β α' β' σ τ : Type} {R : α → β → Prop} {S : α' → β' → Prop}

theorem pure {a : α} {b : β} (h : R a b) : Together (pure a) (pure b) R :=
  fun r => .inl ⟨a, b, r, rfl, rfl, h⟩

theorem refl (c : Choice α) : Together c c Eq := by
  intro r
  rcases hrun : c.run r with ⟨x, r'⟩
  cases x with
  | ok a => exact .inl ⟨a, a, r', rfl, rfl, rfl⟩
  | error v => exact .inr ⟨v, r', rfl, rfl⟩

theorem bind {c : Choice α} {d : Choice β} {k : α → Choice α'} {l : β → Choice β'}
    (h : Together c d R) (hk : ∀ a b, R a b → Together (k a) (l b) S) :
    Together (c >>= k) (d >>= l) S := by
  intro r
  rw [Choice.run_bind, Choice.run_bind]
  rcases h r with ⟨a, b, r₁, hc, hd, hab⟩ | ⟨v, r₁, hc, hd⟩
  · rw [hc, hd]
    exact hk a b hab r₁
  · rw [hc, hd]
    exact .inr ⟨v, r₁, rfl, rfl⟩

/-- Computations without choices; the second one is the first one's image. -/
theorem lift {x : Except Violation α} {φ : α → β} (h : ∀ a, x = .ok a → R a (φ a)) :
    Together (liftM x) (liftM (φ <$> x)) R := by
  cases x with
  | ok a => exact fun r => .inl ⟨a, φ a, r, rfl, rfl, h a rfl⟩
  | error v => exact fun r => .inr ⟨v, r, rfl, rfl⟩

/-- Two folds over one list whose steps keep their states related. -/
theorem foldlM {I : σ → τ → Prop} {l : List α} {k : σ → α → Choice σ} {k' : τ → α → Choice τ}
    (h : ∀ a ∈ l, ∀ s t, I s t → Together (k s a) (k' t a) I) {s : σ} {t : τ} (hs : I s t) :
    Together (l.foldlM k s) (l.foldlM k' t) I := by
  induction l generalizing s t with
  | nil => exact pure hs
  | cons a l ih =>
    rw [List.foldlM_cons, List.foldlM_cons]
    apply (h a (by simp) s t hs).bind
    intro s' t' hs'
    exact ih (fun b hb => h b (by simp [hb])) hs'

/-- What always holds of the second result always holds of a related one. -/
theorem always {c : Choice α} {d : Choice β} {P : β → Prop} (h : Together c d R)
    (hd : Always d P) : Always c fun a => ∃ b, R a b ∧ P b := by
  intro r
  obtain ⟨b, r₁, hrun, hb⟩ := hd r
  rcases h r with ⟨a, b', r₂, hc, hd', hab⟩ | ⟨v, r₂, hc, hd'⟩
  · rw [hrun] at hd'
    cases hd'
    exact ⟨a, r₁, hc, b, hab, hb⟩
  · rw [hrun] at hd'
    cases hd'

theorem eq {c d : Choice α} (h : Together c d Eq) : c = d := by
  funext r
  rcases h r with ⟨a, _, r', hc, hd, rfl⟩ | ⟨v, r', hc, hd⟩
  · exact hc.trans hd.symm
  · exact hc.trans hd.symm

end Together
end Disguise
