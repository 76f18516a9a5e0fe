import Disguise.Proofs.Contents
import Disguise.Proofs.Naming
import Mathlib.Data.List.TakeWhile

/-!
Texts with other names. What stands behind a percent sign is renamed and all other bytes stay; a
reader that accepts the one text accepts the other, and gives the same under the new names.
-/
namespace Disguise.Syntax
open Bytes Reader Results

/-- The name with which a text begins, apart from blanks; it may be empty. -/
def nameAhead (s : Bytes) : Bytes := (s.dropWhile isSpace).takeWhile isIdentByte

/-- A text in which the names behind percent signs have become others. -/
inductive Renamed (ρ : Bytes → Bytes) : Bytes → Bytes → Prop
  | nil : Renamed ρ [] []
  | keep {b : UInt8} {s s' : Bytes} (plain : b = byte '%' → nameAhead s = [])
      (rest : Renamed ρ s s') : Renamed ρ (b :: s) (b :: s')
  | name {blanks name s s' : Bytes} (blank : ∀ b ∈ blanks, isSpace b) (ident : IsIdent name)
      (stops : Stops s) (rest : Renamed ρ s s') :
      Renamed ρ (byte '%' :: (blanks ++ (name ++ s))) (byte '%' :: (blanks ++ (ρ name ++ s')))

namespace Reader
variable {α β : Type}

theorem expect_eq_ok {b : UInt8} {s t : Bytes} {u : Unit} :
    expect b s = .ok (u, t) ↔ ∃ r, s = b :: r ∧ r.dropWhile isSpace = t := by
  constructor
  · intro h
    cases s with
    | nil => cases h
    | cons c r =>
      by_cases hc : c = b
      · subst hc
        have htakes : Takes (expect c) (c :: r) () _ := takes_expect rfl
        exact ⟨r, rfl, congrArg Prod.snd (Except.ok.inj (htakes.symm.trans h))⟩
      · unfold expect at h
        obtain ⟨_, _, hget, h⟩ := bind_run_eq_ok.1 h
        obtain ⟨rfl, rfl⟩ := Prod.mk.inj (Except.ok.inj hget)
        dsimp only at h
        rw [if_neg hc] at h
        cases h
  · rintro ⟨r, rfl, ht⟩
    exact takes_expect ht

theorem stops_dropWhile (s : Bytes) : Stops (s.dropWhile isIdentByte) := by
  intro b hb
  have hhead := List.head?_dropWhile_not isIdentByte s
  rw [hb] at hhead
  exact hhead

theorem ident_eq_ok {s t name : Bytes} :
    ident s = .ok (name, t) ↔
      IsIdent name ∧ ∃ r, Stops r ∧ s = name ++ r ∧ r.dropWhile isSpace = t := by
  constructor
  · intro h
    have hname := gives_ident s name t h
    unfold ident at h
    obtain ⟨_, _, hget, h⟩ := bind_run_eq_ok.1 h
    obtain ⟨rfl, rfl⟩ := Prod.mk.inj (Except.ok.inj hget)
    rw [List.span_eq_takeWhile_dropWhile] at h
    dsimp only at h
    split at h
    · cases h
    · obtain ⟨rfl, ht⟩ := Prod.mk.inj (Except.ok.inj h)
      exact ⟨hname, s.dropWhile isIdentByte, stops_dropWhile s,
        List.takeWhile_append_dropWhile.symm, ht⟩
  · rintro ⟨hname, r, hr, rfl, ht⟩
    exact takes_ident hname hr ht

theorem nameAhead_of_ident {s t name : Bytes} (h : ident (s.dropWhile isSpace) = .ok (name, t)) :
    nameAhead s = name := by
  obtain ⟨hname, r, hr, hs, -⟩ := ident_eq_ok.1 h
  have hspan := span_ident hname.bytes hr
  rw [List.span_eq_takeWhile_dropWhile] at hspan
  rw [nameAhead, hs]
  exact congrArg Prod.fst hspan

/-- What is accepted is longer than what is left by so many bytes. -/
def Consumes (n : Nat) (r : Reader α) : Prop :=
  ∀ s a t, r s = .ok (a, t) → t.length + n ≤ s.length

theorem Consumes.bind {m n : Nat} {r : Reader α} {k : α → Reader β} (h : Consumes m r)
    (hk : ∀ a, Consumes n (k a)) : Consumes (m + n) (r >>= k) := by
  intro s b t hread
  obtain ⟨a, u, ha, hb⟩ := bind_run_eq_ok.1 hread
  have hfirst := h s a u ha
  have hsecond := hk a u b t hb
  omega

theorem Consumes.mono {m n : Nat} {r : Reader α} (h : Consumes n r) (hle : m ≤ n) : Consumes m r :=
  fun s a t hread => Nat.le_trans (Nat.add_le_add_left hle _) (h s a t hread)

theorem Consumes.ite {n : Nat} {p : Prop} [Decidable p] {r r' : Reader α} (h : Consumes n r)
    (h' : Consumes n r') : Consumes n (if p then r else r') := by
  split
  · exact h
  · exact h'

theorem consumes_pure (a : α) : Consumes 0 (pure a : Reader α) := by
  intro s b t h
  obtain ⟨-, rfl⟩ := pure_run_eq_ok.1 h
  exact Nat.le_refl _

theorem consumes_fail (n : Nat) (fault : LineFault) : Consumes n (fail fault : Reader α) :=
  fun _ _ _ h => nomatch h

theorem consumes_atEnd : Consumes 0 atEnd := by
  intro s b t h
  obtain ⟨-, rfl⟩ := atEnd_eq_ok.1 h
  exact Nat.le_refl _

theorem consumes_peek : Consumes 0 peek := by
  intro s b t h
  cases s with
  | nil => cases h
  | cons c s =>
    obtain ⟨-, rfl⟩ := Prod.mk.inj (Except.ok.inj h)
    exact Nat.le_refl _

theorem consumes_expect (b : UInt8) : Consumes 1 (expect b) := by
  intro s u t h
  obtain ⟨r, rfl, rfl⟩ := expect_eq_ok.1 h
  exact Nat.succ_le_succ (List.dropWhile_suffix isSpace).length_le

theorem consumes_ident : Consumes 1 ident := by
  intro s name t h
  obtain ⟨hname, r, -, rfl, rfl⟩ := ident_eq_ok.1 h
  have hpos := List.length_pos_of_ne_nil hname.nonempty
  have hle := (List.dropWhile_suffix (l := r) isSpace).length_le
  rw [List.length_append]
  omega

theorem consumes_operand (bits : Int) : Consumes 1 (operand bits) := by
  unfold operand
  refine consumes_peek.bind (n := 1) fun b => .ite ?_ (.ite ?_ (consumes_fail _ _))
  · refine Consumes.mono (n := 1 + (1 + 0)) ?_ (by decide)
    exact (consumes_expect _).bind fun _ => consumes_ident.bind fun _ => consumes_pure _
  · refine consumes_ident.bind (n := 0) fun numeral => ?_
    cases Numeral.anyBase UInt64.size numeral with
    | error fault => exact consumes_fail _ _
    | ok n => exact .ite (consumes_pure _) (consumes_fail _ _)

/-- What stands between two items of a list that ends with the line. -/
def separator : Reader Unit := do
  if !(← atEnd) then expect (byte ',')

theorem consumes_separator : Consumes 0 separator := by
  unfold separator
  refine consumes_atEnd.bind (n := 0) fun b => .ite ?_ (consumes_pure _)
  exact (consumes_expect _).mono (Nat.zero_le 1)

theorem listToEnd_succ_eq_ok {item : Reader α} {fuel : Nat} {s t : Bytes} {l : List α} :
    listToEnd item (fuel + 1) s = .ok (l, t) ↔ (s = [] ∧ l = [] ∧ t = []) ∨
      (s ≠ [] ∧ ∃ a rest u v, item s = .ok (a, u) ∧ separator u = .ok ((), v) ∧
        listToEnd item fuel v = .ok (rest, t) ∧ l = a :: rest) := by
  have hseparate : ∀ {k : Reader (List α)},
      (do if !(← atEnd) then (do expect (byte ','); k) else k) = (do separator; k) := by
    intro k
    unfold separator
    rw [bind_assoc]
    refine congrArg _ (funext fun b => ?_)
    cases b <;> rfl
  have hstep : listToEnd item (fuel + 1) = (do
      if ← atEnd then pure [] else do
        let a ← item
        separator
        pure (a :: (← listToEnd item fuel))) := by
    rw [listToEnd]
    simp only [hseparate]
  rw [hstep]
  constructor
  · intro h
    obtain ⟨_, _, hend, h⟩ := bind_run_eq_ok.1 h
    obtain ⟨rfl, rfl⟩ := atEnd_eq_ok.1 hend
    split at h
    · rename_i hnil
      obtain ⟨rfl, rfl⟩ := pure_run_eq_ok.1 h
      exact .inl ⟨List.isEmpty_iff.1 hnil, rfl, List.isEmpty_iff.1 hnil⟩
    · rename_i hne
      obtain ⟨a, u, ha, h⟩ := bind_run_eq_ok.1 h
      obtain ⟨_, v, hv, h⟩ := bind_run_eq_ok.1 h
      obtain ⟨rest, _, hrest, h⟩ := bind_run_eq_ok.1 h
      obtain ⟨rfl, rfl⟩ := pure_run_eq_ok.1 h
      exact .inr ⟨fun hnil => hne (List.isEmpty_iff.2 hnil), a, rest, u, v, ha, hv, hrest, rfl⟩
  · rintro (⟨rfl, rfl, rfl⟩ | ⟨hne, a, rest, u, v, ha, hv, hrest, rfl⟩)
    · rfl
    · refine bind_run_eq_ok.2 ⟨_, _, atEnd_eq_ok.2 ⟨rfl, rfl⟩, ?_⟩
      rw [if_neg fun hnil => hne (List.isEmpty_iff.1 hnil)]
      refine bind_run_eq_ok.2 ⟨a, u, ha, bind_run_eq_ok.2 ⟨(), v, hv, ?_⟩⟩
      exact bind_run_eq_ok.2 ⟨rest, t, hrest, rfl⟩

end Reader

/-- Every text is the same under the same names. -/
theorem renamed_id (s : Bytes) : Renamed id s s := by
  match s with
  | [] => exact .nil
  | b :: s =>
    by_cases hname : b = byte '%' ∧ nameAhead s ≠ []
    · obtain ⟨rfl, hne⟩ := hname
      have hsplit : s.takeWhile isSpace ++ (nameAhead s ++
          (s.dropWhile isSpace).dropWhile isIdentByte) = s := by
        rw [nameAhead, List.takeWhile_append_dropWhile, List.takeWhile_append_dropWhile]
      have hlt : ((s.dropWhile isSpace).dropWhile isIdentByte).length < s.length + 1 := by
        have hspace := (List.dropWhile_suffix (l := s) isSpace).length_le
        have hident := (List.dropWhile_suffix (l := s.dropWhile isSpace) isIdentByte).length_le
        omega
      have hident : IsIdent (nameAhead s) :=
        isIdent_of_all (by simpa using hne) List.all_takeWhile
      have hblank : ∀ b ∈ s.takeWhile isSpace, isSpace b := fun b hb => List.mem_takeWhile_imp hb
      have hall := Renamed.name hblank hident
        (stops_dropWhile _) (renamed_id ((s.dropWhile isSpace).dropWhile isIdentByte))
      rwa [id, hsplit] at hall
    · exact .keep (fun hb => by_contra fun hne => hname ⟨hb, hne⟩) (renamed_id s)
termination_by s.length

namespace Renamed
variable {ρ : Bytes → Bytes} {s s' : Bytes} (h : Renamed ρ s s')
include h

theorem head?_eq : s'.head? = s.head? := by
  cases h <;> rfl

theorem isEmpty_eq : s'.isEmpty = s.isEmpty := by
  cases h <;> rfl

theorem stops (hs : Stops s) : Stops s' := by
  rw [Stops, h.head?_eq]
  exact hs

/-- A run of bytes that begins both texts. -/
theorem span {p : UInt8 → Bool} (hp : p (byte '%') = false) :
    s'.takeWhile p = s.takeWhile p ∧ Renamed ρ (s.dropWhile p) (s'.dropWhile p) := by
  induction h with
  | nil => exact ⟨rfl, .nil⟩
  | @keep b s s' plain rest ih =>
    simp only [List.takeWhile_cons, List.dropWhile_cons]
    cases p b with
    | true => exact ⟨congrArg (b :: ·) ih.1, ih.2⟩
    | false => exact ⟨rfl, .keep plain rest⟩
  | name blank ident stops rest =>
    simp only [List.takeWhile_cons, List.dropWhile_cons, hp, Bool.false_eq_true, if_false,
      true_and]
    exact .name blank ident stops rest

/-- A text without names. -/
theorem eq_of_all {p : UInt8 → Bool} (hp : p (byte '%') = false) (hs : s.all p) : s' = s := by
  obtain ⟨htake, hdrop⟩ := h.span hp
  have hall := List.all_eq_true.1 hs
  have hself : s.takeWhile p = s := List.takeWhile_eq_self_iff.2 hall
  rw [List.dropWhile_eq_nil_iff.2 hall] at hdrop
  have hrest : s'.dropWhile p = [] := List.isEmpty_iff.1 hdrop.isEmpty_eq
  calc s' = s'.takeWhile p ++ s'.dropWhile p := List.takeWhile_append_dropWhile.symm
    _ = s := by rw [htake, hrest, hself, List.append_nil]

theorem skipBlanks : Renamed ρ (s.dropWhile isSpace) (s'.dropWhile isSpace) :=
  (h.span (p := isSpace) (by decide)).2

end Renamed

theorem nameAhead_of_isPrefix {s t : Bytes} (h : s <+: t) (ht : nameAhead t = []) :
    nameAhead s = [] := by
  obtain ⟨r, rfl⟩ := h
  induction s with
  | nil => rfl
  | cons b s ih =>
    rw [nameAhead, List.cons_append, List.dropWhile_cons] at ht
    rw [nameAhead, List.dropWhile_cons]
    cases hspace : isSpace b with
    | true =>
      rw [hspace] at ht
      exact ih ht
    | false =>
      rw [hspace] at ht
      cases hident : isIdentByte b with
      | true => simp [hident] at ht
      | false => simp [hident]

/-- Renaming does not touch the ends of lines. -/
theorem Renamed.trim {ρ : Bytes → Bytes} (hρ : ∀ name, IsIdent name → IsIdent (ρ name))
    {s s' : Bytes} (h : Renamed ρ s s') : Renamed ρ (trimRight s) (trimRight s') := by
  induction h with
  | nil => exact .nil
  | @keep b s s' plain rest ih =>
    have hone : Renamed ρ (trimRight [b]) (trimRight [b]) := by
      have hcases : trimRight [b] = if endsLine b then [] else [b] :=
        List.rdropWhile_singleton endsLine b
      rw [hcases]
      split
      · exact .nil
      · exact .keep (fun _ => rfl) .nil
    rw [← List.singleton_append, ← List.singleton_append (l := s'), trimRight_append,
      trimRight_append, ih.isEmpty_eq]
    split
    · exact hone
    · exact .keep (fun hpercent => nameAhead_of_isPrefix (trimRight_isPrefix s) (plain hpercent)) ih
  | @name blanks name s s' blank ident stops rest ih =>
    have hword : ∀ {n r : Bytes}, IsIdent n →
        trimRight (byte '%' :: (blanks ++ (n ++ r))) =
          byte '%' :: (blanks ++ (n ++ trimRight r)) := by
      intro n r hn
      have hends := (hn.inline.ends.append blanks).cons (byte '%')
      have hall := trimRight_append_of_ends hends r
      simpa only [List.cons_append, List.append_assoc] using hall
    rw [hword ident, hword (hρ name ident)]
    refine .name blank ident (fun b hb => stops b ?_) ih
    obtain ⟨r, hr⟩ := trimRight_isPrefix s
    rw [← hr, List.head?_append, hb]
    rfl

/-- A line whose results are renamed says what it said with the results renamed. -/
theorem Renamed.content {ρ : Bytes → Bytes} (hρ : ∀ name, IsIdent name → IsIdent (ρ name))
    {s s' : Bytes} (h : Renamed ρ s s') : Renamed ρ (Syntax.content s) (Syntax.content s') :=
  (h.trim hρ).skipBlanks

def DraftArg.rename (ρ : Bytes → Bytes) : DraftArg → DraftArg
  | .const c => .const c
  | .named name => .named (ρ name)

/-- The second reader does to renamed texts what the first one does, up to a change of results. -/
def Mirrors {α β : Type} (ρ : Bytes → Bytes) (φ : α → β) (r : Reader α) (r' : Reader β) : Prop :=
  ∀ s s' a t, Renamed ρ s s' → r s = .ok (a, t) → ∃ t', r' s' = .ok (φ a, t') ∧ Renamed ρ t t'

section
variable {α β γ δ : Type} {ρ : Bytes → Bytes} {φ : α → β} {ψ : γ → δ} {r : Reader α}
  {r' : Reader β} {k : α → Reader γ} {k' : β → Reader δ}

theorem mirrors_pure {a : α} {b : β} (h : φ a = b) : Mirrors ρ φ (pure a) (pure b) := by
  intro s s' c t hs hread
  obtain ⟨rfl, rfl⟩ := pure_run_eq_ok.1 hread
  exact ⟨s', pure_run_eq_ok.2 ⟨h.symm, rfl⟩, hs⟩

theorem mirrors_fail (fault : LineFault) : Mirrors ρ φ (fail fault) r' :=
  fun _ _ _ _ _ hread => nomatch hread

theorem Mirrors.bind (h : Mirrors ρ φ r r') (hk : ∀ a, Mirrors ρ ψ (k a) (k' (φ a))) :
    Mirrors ρ ψ (r >>= k) (r' >>= k') := by
  intro s s' b t hs hread
  obtain ⟨a, u, ha, hb⟩ := bind_run_eq_ok.1 hread
  obtain ⟨u', ha', hu⟩ := h s s' a u hs ha
  obtain ⟨t', hb', ht⟩ := hk a u u' b t hu hb
  exact ⟨t', bind_run_eq_ok.2 ⟨_, _, ha', hb'⟩, ht⟩

theorem Mirrors.ite {p : Prop} [Decidable p] {q : Reader α} {q' : Reader β}
    (h : Mirrors ρ φ r r') (h' : Mirrors ρ φ q q') :
    Mirrors ρ φ (if p then r else q) (if p then r' else q') := by
  split
  · exact h
  · exact h'

theorem mirrors_atEnd : Mirrors ρ id atEnd atEnd := by
  intro s s' b t hs hread
  obtain ⟨rfl, rfl⟩ := atEnd_eq_ok.1 hread
  exact ⟨s', atEnd_eq_ok.2 ⟨hs.isEmpty_eq, rfl⟩, hs⟩

theorem mirrors_peek : Mirrors ρ id peek peek := by
  intro s s' b t hs hread
  cases hs with
  | nil => cases hread
  | keep plain rest =>
    obtain ⟨rfl, rfl⟩ := Prod.mk.inj (Except.ok.inj hread)
    exact ⟨_, rfl, .keep plain rest⟩
  | name blank ident stops rest =>
    obtain ⟨rfl, rfl⟩ := Prod.mk.inj (Except.ok.inj hread)
    exact ⟨_, rfl, .name blank ident stops rest⟩

theorem mirrors_expect {b : UInt8} (hb : b ≠ byte '%') : Mirrors ρ id (expect b) (expect b) := by
  intro s s' u t hs hread
  obtain ⟨v, rfl, rfl⟩ := expect_eq_ok.1 hread
  cases hs with
  | keep plain rest => exact ⟨_, expect_eq_ok.2 ⟨_, rfl, rfl⟩, rest.skipBlanks⟩
  | name => exact absurd rfl hb

theorem mirrors_ident : Mirrors ρ id ident ident := by
  intro s s' name t hs hread
  obtain ⟨hname, r, hr, rfl, rfl⟩ := ident_eq_ok.1 hread
  obtain ⟨htake, hdrop⟩ := hs.span (p := isIdentByte) (by decide)
  have hspan := span_ident hname.bytes hr
  rw [List.span_eq_takeWhile_dropWhile] at hspan
  obtain ⟨hfirst, hrest⟩ := Prod.mk.inj hspan
  rw [hfirst] at htake
  rw [hrest] at hdrop
  refine ⟨_, ident_eq_ok.2 ⟨hname, s'.dropWhile isIdentByte, hdrop.stops hr, ?_, rfl⟩,
    hdrop.skipBlanks⟩
  rw [id, ← htake, List.takeWhile_append_dropWhile]

/-- A percent sign and the name behind it. -/
theorem mirrors_named (hρ : ∀ name, IsIdent name → IsIdent (ρ name)) {k : Bytes → Reader γ}
    {k' : Bytes → Reader δ} (hk : ∀ name, Mirrors ρ ψ (k name) (k' (ρ name))) :
    Mirrors ρ ψ (do expect (byte '%'); k (← ident)) (do expect (byte '%'); k' (← ident)) := by
  intro s s' b t hs hread
  obtain ⟨_, _, hpercent, hread⟩ := bind_run_eq_ok.1 hread
  obtain ⟨v, rfl, rfl⟩ := expect_eq_ok.1 hpercent
  obtain ⟨name, u, hident, hread⟩ := bind_run_eq_ok.1 hread
  have hskip : ∀ {blanks n rest : Bytes}, (∀ b ∈ blanks, isSpace b) → IsIdent n →
      (blanks ++ (n ++ rest)).dropWhile isSpace = n ++ rest := by
    intro blanks n rest hblank hn
    rw [List.dropWhile_append_of_pos hblank, dropWhile_ident hn]
  cases hs with
  | keep plain rest =>
    have hnone := (nameAhead_of_ident hident).symm.trans (plain rfl)
    exact absurd hnone (gives_ident _ _ _ hident).nonempty
  | @name blanks n s₁ s₁' blank hn stops rest =>
    rw [hskip blank hn] at hident
    obtain ⟨rfl, hu⟩ := Prod.mk.inj (Except.ok.inj ((takes_ident hn stops rfl).symm.trans hident))
    rw [← hu] at hread
    obtain ⟨t', hread', ht⟩ := hk n _ _ b t rest.skipBlanks hread
    have hident' := takes_ident (hρ n hn) (rest.stops stops) rfl
    refine ⟨t', bind_run_eq_ok.2 ⟨(), _, expect_eq_ok.2 ⟨_, rfl, rfl⟩, ?_⟩, ht⟩
    rw [hskip blank (hρ n hn)]
    exact bind_run_eq_ok.2 ⟨_, _, hident', hread'⟩

theorem mirrors_type : Mirrors ρ id type type := by
  unfold type
  refine mirrors_ident.bind fun name => ?_
  rw [id]
  cases name with
  | nil => exact mirrors_fail _
  | cons i ds =>
    dsimp only
    cases Numeral.decimal ds with
    | error fault => exact mirrors_fail _
    | ok bits => exact .ite (mirrors_pure rfl) (mirrors_fail _)

theorem mirrors_separator : Mirrors ρ id separator separator := by
  unfold separator
  exact mirrors_atEnd.bind fun b => .ite (mirrors_expect (by decide)) (mirrors_pure rfl)

theorem mirrors_done : Mirrors ρ id done done := by
  unfold done
  exact mirrors_atEnd.bind fun b => .ite (mirrors_fail _) (mirrors_pure rfl)

/-- Lists up to the end of the line; the texts differ in length, and so do the bounds. -/
theorem mirrors_listToEnd {item : Reader α} {item' : Reader β} (h : Mirrors ρ φ item item')
    (hitem : Consumes 1 item) (hitem' : Consumes 1 item') :
    Mirrors ρ (List.map φ) (do listToEnd item ((← get).length + 1))
      (do listToEnd item' ((← get).length + 1)) := by
  suffices ∀ fuel fuel' s s' l t, s.length < fuel → s'.length < fuel' → Renamed ρ s s' →
      listToEnd item fuel s = .ok (l, t) →
      ∃ t', listToEnd item' fuel' s' = .ok (l.map φ, t') ∧ Renamed ρ t t' from
    fun s s' l t hs hread =>
      this _ _ s s' l t (Nat.lt_succ_self _) (Nat.lt_succ_self _) hs hread
  intro fuel
  induction fuel with
  | zero => exact fun _ _ _ _ _ hlt => absurd hlt (Nat.not_lt_zero _)
  | succ fuel ih =>
    intro fuel' s s' l t hlt hlt' hs hread
    obtain ⟨n, rfl⟩ : ∃ n, fuel' = n + 1 := ⟨fuel' - 1, by omega⟩
    rw [listToEnd_succ_eq_ok] at hread
    simp only [listToEnd_succ_eq_ok]
    rcases hread with ⟨rfl, rfl, rfl⟩ | ⟨hne, a, rest, u, v, ha, hv, hrest, rfl⟩
    · cases hs
      exact ⟨[], .inl ⟨rfl, rfl, rfl⟩, .nil⟩
    · obtain ⟨u', ha', hu⟩ := h s s' a u hs ha
      obtain ⟨v', hv', hsep⟩ := mirrors_separator u u' () v hu hv
      have hshort := hitem s a u ha
      have hshort' := hitem' s' _ u' ha'
      have hsepShort := consumes_separator u () v hv
      have hsepShort' := consumes_separator u' () v' hv'
      obtain ⟨t', hrest', ht⟩ := ih n v v' rest t (by omega) (by omega) hsep hrest
      refine ⟨t', .inr ⟨fun hnil => hne ?_, _, _, u', v', ha', hv', hrest', rfl⟩, ht⟩
      rw [← List.isEmpty_iff, ← hs.isEmpty_eq, List.isEmpty_iff, hnil]

variable (hρ : ∀ name, IsIdent name → IsIdent (ρ name))
include hρ

theorem mirrors_operand (bits : Int) :
    Mirrors ρ (DraftArg.rename ρ) (operand bits) (operand bits) := by
  unfold operand
  refine mirrors_peek.bind fun b => .ite ?_ (.ite ?_ (mirrors_fail _))
  · exact mirrors_named hρ fun name => mirrors_pure rfl
  · refine mirrors_ident.bind fun numeral => ?_
    rw [id]
    cases Numeral.anyBase UInt64.size numeral with
    | error fault => exact mirrors_fail _
    | ok n => exact .ite (mirrors_pure rfl) (mirrors_fail _)

theorem mirrors_operands (bits : Int) :
    Mirrors ρ (List.map (DraftArg.rename ρ)) (do listToEnd (operand bits) ((← get).length + 1))
      (do listToEnd (operand bits) ((← get).length + 1)) :=
  mirrors_listToEnd (mirrors_operand hρ bits) (consumes_operand bits) (consumes_operand bits)

theorem mirrors_terminatorParts (retBits : Int) (code : Opcode) :
    Mirrors ρ (fun parts => (parts.1.map (DraftArg.rename ρ), parts.2))
      (terminatorParts retBits code) (terminatorParts retBits code) := by
  unfold terminatorParts
  split
  · refine mirrors_atEnd.bind fun b => .ite (mirrors_pure rfl) ?_
    exact (mirrors_operand hρ retBits).bind fun a => mirrors_pure rfl
  · exact mirrors_ident.bind fun name => mirrors_pure rfl
  · refine (mirrors_operand hρ 1).bind fun a => ?_
    refine (mirrors_expect (by decide)).bind fun _ => mirrors_ident.bind fun yes => ?_
    exact (mirrors_expect (by decide)).bind fun _ => mirrors_ident.bind fun no => mirrors_pure rfl
  · exact mirrors_pure rfl

/-- A terminator behind its code. -/
theorem mirrors_terminator (retBits : Int) (code : Opcode) :
    Mirrors ρ (fun parts => (parts.1.map (DraftArg.rename ρ), parts.2))
      (do let parts ← terminatorParts retBits code; done; pure parts)
      (do let parts ← terminatorParts retBits code; done; pure parts) :=
  (mirrors_terminatorParts hρ retBits code).bind fun _ => mirrors_done.bind fun _ =>
    mirrors_pure rfl

/-- An op with a result, up to its code. -/
theorem mirrors_result :
    Mirrors ρ (fun parts => (ρ parts.1, parts.2))
      (do expect (byte '%'); let result ← ident; expect (byte '='); pure (result, ← ident))
      (do expect (byte '%'); let result ← ident; expect (byte '='); pure (result, ← ident)) :=
  mirrors_named hρ fun result => (mirrors_expect (by decide)).bind fun _ =>
    mirrors_ident.bind fun name => mirrors_pure rfl

/-- The rest of it. -/
theorem mirrors_typed :
    Mirrors ρ (fun parts => (parts.1, parts.2.map (DraftArg.rename ρ)))
      (do let bits ← type; pure (bits, ← listToEnd (operand bits) ((← get).length + 1)))
      (do let bits ← type; pure (bits, ← listToEnd (operand bits) ((← get).length + 1))) := by
  refine mirrors_type.bind fun bits => ?_
  have hlist : Mirrors ρ (fun parts : Int × List DraftArg =>
      (parts.1, parts.2.map (DraftArg.rename ρ)))
      (do let args ← (do listToEnd (operand bits) ((← get).length + 1)); pure (bits, args))
      (do let args ← (do listToEnd (operand bits) ((← get).length + 1)); pure (bits, args)) :=
    (mirrors_operands hρ bits).bind fun args => mirrors_pure rfl
  simp only [bind_assoc] at hlist
  exact hlist

end
end Disguise.Syntax
