import Disguise.Proofs.WellFormed

/-!
A function is accepted if and only if it is well formed. Each checking function has one lemma that
says when it succeeds; `validateFunc_eq_ok` puts them together.
-/
namespace Disguise
open Results

namespace Validity
variable {g : Graph} {f : FuncId}

theorem checkParams_eq_ok {ps : List ParamId} {seen : Dictionary Unit} :
    checkParams g f seen ps = .ok () ↔
      (∀ p ∈ ps, (g.param p).func = some f) ∧ (∀ p ∈ ps, Word.goodWidth (g.param p).bits) ∧
      (∀ p ∈ ps, seen.contains (g.param p).name = false) ∧
      (ps.map fun p => (g.param p).name).Nodup := by
  induction ps generalizing seen with
  | nil => simp [checkParams]
  | cons p ps ih =>
    unfold checkParams
    by_cases howner : (g.param p).func = some f
    · by_cases hwidth : Word.goodWidth (g.param p).bits
      · by_cases hseen : seen.contains (g.param p).name
        · simp [howner, hwidth, hseen]
        · simp only [howner, hwidth, hseen, ne_eq, not_true_eq_false, if_false, Bool.not_true,
            Bool.false_eq_true]
          rw [ih]
          simp only [Dictionary.contains_insert, Bool.or_eq_false_iff, decide_eq_false_iff_not,
            List.mem_cons, forall_eq_or_imp, List.map_cons, List.nodup_cons, List.mem_map,
            not_exists, not_and, howner, hwidth, true_and, Bool.eq_false_iff.2 hseen]
          constructor
          · rintro ⟨h1, h2, h3, h4⟩
            exact ⟨h1, h2, fun q hq => (h3 q hq).2, fun q hq => (h3 q hq).1, h4⟩
          · rintro ⟨h1, h2, h3, h4, h5⟩
            exact ⟨h1, h2, fun q hq => ⟨h4 q hq, h3 q hq⟩, h5⟩
      · simp [howner, hwidth]
    · simp [howner]

/-- Where the ops of one block stand. -/
theorem placeOps_eq_ok {b : BlockId} {bi oi : Nat} {places : Table (Option Place)}
    {ops : List OpId} :
    (∃ places', placeOps g b bi oi places ops = .ok places') ↔
      (∀ o ∈ ops, (g.op o).block = some b) ∧ ops.Nodup ∧ ∀ o ∈ ops, places.get o.idx = none := by
  induction ops generalizing oi places with
  | nil => simp [placeOps]
  | cons o ops ih =>
    unfold placeOps
    by_cases howner : (g.op o).block = some b
    · by_cases hplace : (places.get o.idx).isSome
      · obtain ⟨p, hp⟩ := Option.isSome_iff_exists.1 hplace
        simp [howner, hp]
      · have hnone : places.get o.idx = none := by simpa using hplace
        simp only [howner, hnone, ne_eq, not_true_eq_false, if_false, Option.isSome_none,
          Bool.false_eq_true]
        rw [ih]
        simp only [List.mem_cons, forall_eq_or_imp, List.nodup_cons, howner, hnone, true_and]
        constructor
        · rintro ⟨h1, h2, h3⟩
          have hne : ∀ q ∈ ops, q ≠ o := by
            rintro q hq rfl
            simpa [Table.get_set] using h3 q hq
          refine ⟨h1, ⟨fun hm => hne o hm rfl, h2⟩, fun q hq => ?_⟩
          simpa [Table.get_set, OpId.idx_inj, hne q hq] using h3 q hq
        · rintro ⟨h1, ⟨h2, h3⟩, h4⟩
          refine ⟨h1, h3, fun q hq => ?_⟩
          have hne : q ≠ o := by
            rintro rfl
            exact h2 hq
          simp [Table.get_set, OpId.idx_inj, hne, h4 q hq]
    · simp [howner]

theorem get_placeOps {b : BlockId} {bi oi : Nat} {places places' : Table (Option Place)}
    {ops : List OpId} (h : placeOps g b bi oi places ops = .ok places') (hn : ops.Nodup)
    (u : OpId) :
    places'.get u.idx =
      if u ∈ ops then some ⟨bi, oi + ops.idxOf u⟩ else places.get u.idx := by
  induction ops generalizing oi places with
  | nil =>
    simp only [placeOps, Except.ok.injEq] at h
    simp [h]
  | cons o ops ih =>
    unfold placeOps at h
    split at h
    · simp at h
    · split at h
      · simp at h
      · rw [ih h (List.nodup_cons.1 hn).2, Table.get_set]
        simp only [OpId.idx_inj]
        by_cases hu : u = o
        · subst hu
          simp [(List.nodup_cons.1 hn).1]
        · have ho : (o == u) = false := by simp [Ne.symm hu]
          by_cases hm : u ∈ ops
          · simp [hm, List.idxOf_cons, ho]
            omega
          · simp [hm, hu]

theorem placeBlocks_cons {seen : Dictionary Unit} {bi : Nat} {places places' : Table (Option Place)}
    {b : BlockId} {bs : List BlockId} :
    placeBlocks g f seen bi places (b :: bs) = .ok places' ↔
      (g.block b).owner = some f ∧ seen.contains (g.block b).name = false ∧
      ∃ places₁, placeOps g b bi 0 places (g.block b).ops = .ok places₁ ∧
        placeBlocks g f (seen.insert () (g.block b).name) (bi + 1) places₁ bs = .ok places' := by
  rw [placeBlocks]
  by_cases howner : (g.block b).owner = some f
  · cases hseen : seen.contains (g.block b).name with
    | true => simp [howner]
    | false => simp [howner, bind_eq_ok]
  · simp [howner]

/-- Where the ops of all blocks stand. -/
theorem placeBlocks_eq_ok {seen : Dictionary Unit} {bi : Nat} {places : Table (Option Place)}
    {bs : List BlockId} :
    (∃ places', placeBlocks g f seen bi places bs = .ok places') ↔
      (∀ b ∈ bs, (g.block b).owner = some f) ∧ (∀ b ∈ bs, seen.contains (g.block b).name = false) ∧
      (bs.map fun b => (g.block b).name).Nodup ∧
      (∀ b ∈ bs, ∀ o ∈ (g.block b).ops, (g.op o).block = some b) ∧
      (∀ b ∈ bs, (g.block b).ops.Nodup) ∧
      ∀ b ∈ bs, ∀ o ∈ (g.block b).ops, places.get o.idx = none := by
  induction bs generalizing seen bi places with
  | nil => simp [placeBlocks]
  | cons b bs ih =>
    simp only [placeBlocks_cons, List.mem_cons, forall_eq_or_imp, List.map_cons, List.nodup_cons,
      List.mem_map, not_exists, not_and]
    constructor
    · rintro ⟨places', howner, hseen, places₁, h₁, h₂⟩
      obtain ⟨hops, hnodup, hnone⟩ := placeOps_eq_ok.1 ⟨places₁, h₁⟩
      obtain ⟨h3, h4, h5, h6, h7, h8⟩ := ih.1 ⟨places', h₂⟩
      simp only [Dictionary.contains_insert, get_placeOps h₁ hnodup, Bool.or_eq_false_iff,
        decide_eq_false_iff_not] at h4 h8
      have hapart := fun c hc => (h4 c hc).1
      have hunseen := fun c hc => (h4 c hc).2
      refine ⟨⟨howner, h3⟩, ⟨hseen, hunseen⟩, ⟨hapart, h5⟩, ⟨hops, h6⟩, ⟨hnodup, h7⟩, hnone, ?_⟩
      intro c hc o ho
      have hnot := h8 c hc o ho
      split at hnot
      · simp at hnot
      · exact hnot
    · rintro ⟨⟨howner, h3⟩, ⟨hseen, h4⟩, ⟨hname, h5⟩, ⟨hops, h6⟩, ⟨hnodup, h7⟩, hnone, h8⟩
      obtain ⟨places₁, h₁⟩ : ∃ places₁, placeOps g b bi 0 places (g.block b).ops = .ok places₁ :=
        placeOps_eq_ok.2 ⟨hops, hnodup, hnone⟩
      have hrest : ∀ c ∈ bs, ∀ o ∈ (g.block c).ops, places₁.get o.idx = none := by
        intro c hc o ho
        rw [get_placeOps h₁ hnodup, if_neg]
        · exact h8 c hc o ho
        · intro hob
          have hbc : b = c := by
            have := (hops o hob).symm.trans (h6 c hc o ho)
            simpa using this
          exact hname c hc (by rw [hbc])
      obtain ⟨places', h₂⟩ : ∃ places', placeBlocks g f (seen.insert () (g.block b).name)
          (bi + 1) places₁ bs = .ok places' := ih.2
        ⟨h3, fun c hc => by simp [Dictionary.contains_insert, hname c hc, h4 c hc],
          h5, h6, h7, hrest⟩
      exact ⟨places', howner, hseen, places₁, h₁, h₂⟩

/-- The ops of a block had no place before, so their new places do not hide old ones. -/
theorem get_placeOps_iff {b : BlockId} {bi : Nat} {places places' : Table (Option Place)}
    {ops : List OpId} (h : placeOps g b bi 0 places ops = .ok places') (u : OpId) (p : Place) :
    places'.get u.idx = some p ↔
      places.get u.idx = some p ∨ p.block = bi ∧ ops[p.op]? = some u := by
  obtain ⟨-, hn, hnone⟩ := placeOps_eq_ok.1 ⟨places', h⟩
  rw [get_placeOps h hn]
  by_cases hu : u ∈ ops
  · rw [if_pos hu, hnone u hu]
    obtain ⟨pb, po⟩ := p
    simp only [Option.some.injEq, Place.mk.injEq, Nat.zero_add, reduceCtorEq, false_or]
    constructor
    · rintro ⟨rfl, rfl⟩
      exact ⟨rfl, by simp [List.idxOf_lt_length_of_mem hu]⟩
    · rintro ⟨rfl, hget⟩
      obtain ⟨hlt, rfl⟩ := List.getElem?_eq_some_iff.1 hget
      exact ⟨rfl, hn.idxOf_getElem po hlt⟩
  · rw [if_neg hu]
    constructor
    · exact .inl
    · rintro (hp | ⟨-, hget⟩)
      · exact hp
      · exact absurd (List.mem_of_getElem? hget) hu

theorem get_placeBlocks {seen : Dictionary Unit} {bi : Nat} {places places' : Table (Option Place)}
    {bs : List BlockId} (h : placeBlocks g f seen bi places bs = .ok places') (u : OpId)
    (p : Place) :
    places'.get u.idx = some p ↔ places.get u.idx = some p ∨
      ∃ k b, bs[k]? = some b ∧ p.block = bi + k ∧ (g.block b).ops[p.op]? = some u := by
  induction bs generalizing seen bi places with
  | nil =>
    simp only [placeBlocks, Except.ok.injEq] at h
    simp [h]
  | cons b bs ih =>
    obtain ⟨-, -, places₁, h₁, h₂⟩ := placeBlocks_cons.1 h
    rw [ih h₂, get_placeOps_iff h₁]
    constructor
    · rintro ((hp | ⟨hb, hget⟩) | ⟨k, c, hk, hb, hget⟩)
      · exact .inl hp
      · exact .inr ⟨0, b, rfl, hb, hget⟩
      · exact .inr ⟨k + 1, c, by simpa using hk, by omega, hget⟩
    · rintro (hp | ⟨k, c, hk, hb, hget⟩)
      · exact .inl (.inl hp)
      · cases k with
        | zero =>
          simp only [List.getElem?_cons_zero, Option.some.injEq] at hk
          subst hk
          exact .inl (.inr ⟨hb, hget⟩)
        | succ k => exact .inr ⟨k, c, by simpa using hk, by omega, hget⟩

/-- Two members of a list without repetitions stand in the order of their places. -/
theorem pair_sublist_iff {α : Type} {l : List α} (hn : l.Nodup) {i j : Nat} {d u : α}
    (hi : l[i]? = some d) (hj : l[j]? = some u) : [d, u].Sublist l ↔ i < j := by
  induction l generalizing i j with
  | nil => simp at hi
  | cons a l ih =>
    obtain ⟨hal, hnl⟩ := List.nodup_cons.1 hn
    cases i with
    | zero =>
      simp only [List.getElem?_cons_zero, Option.some.injEq] at hi
      subst hi
      cases j with
      | zero =>
        simp only [List.getElem?_cons_zero, Option.some.injEq] at hj
        subst hj
        simp [hal]
      | succ j =>
        have hm : u ∈ l := List.mem_of_getElem? (by simpa using hj)
        simp [hm]
    | succ i =>
      have hdl : d ∈ l := List.mem_of_getElem? (by simpa using hi)
      have hda : d ≠ a := fun heq => hal (heq ▸ hdl)
      have hskip : [d, u].Sublist (a :: l) ↔ [d, u].Sublist l := by
        constructor
        · intro h
          cases h with
          | cons _ h => exact h
          | cons_cons _ h => exact absurd rfl hda
        · exact fun h => h.cons a
      rw [hskip]
      cases j with
      | zero =>
        simp only [List.getElem?_cons_zero, Option.some.injEq] at hj
        subst hj
        simp only [Nat.not_lt_zero, iff_false]
        intro h
        exact hal (h.subset (by simp))
      | succ j =>
        rw [ih hnl (by simpa using hi) (by simpa using hj)]
        omega

theorem exists_one {α : Type} {P : α → Prop} {l : List (Option α)} (hlen : l.length = 1)
    (h : ∀ v ∈ l, ∃ w, v = some w ∧ P w) : ∃ w, l = [some w] ∧ P w := by
  obtain ⟨x, rfl⟩ := List.length_eq_one_iff.1 hlen
  obtain ⟨w, rfl, hw⟩ := h x (by simp)
  exact ⟨w, rfl, hw⟩

theorem exists_two {α : Type} {P : α → Prop} {l : List (Option α)} (hlen : l.length = 2)
    (h : ∀ v ∈ l, ∃ w, v = some w ∧ P w) : ∃ v w, l = [some v, some w] ∧ P v ∧ P w := by
  obtain ⟨x, y, rfl⟩ := List.length_eq_two.1 hlen
  obtain ⟨v, rfl, hv⟩ := h x (by simp)
  obtain ⟨w, rfl, hw⟩ := h y (by simp)
  exact ⟨v, w, rfl, hv, hw⟩

namespace Context
variable {places : Table (Option Place)}

/-- A context whose places are those of the function's ops. -/
def Placed (g : Graph) (f : FuncId) (places : Table (Option Place)) : Prop :=
  ∀ u p, places.get (OpId.idx u) = some p ↔
    ∃ b, (g.func f).blocks[Place.block p]? = some b ∧ (g.block b).ops[p.op]? = some u

/-- Every op of the function has a place. -/
theorem Placed.exists_place (hp : Placed g f places) {o : OpId} (ho : o ∈ g.opsOf f) :
    ∃ p b, places.get o.idx = some p ∧ (g.func f).blocks[p.block]? = some b ∧
      (g.block b).ops[p.op]? = some o := by
  obtain ⟨b, hbf, hob⟩ := Graph.mem_opsOf.1 ho
  obtain ⟨i, hi⟩ := List.getElem?_of_mem hbf
  obtain ⟨k, hk⟩ := List.getElem?_of_mem hob
  exact ⟨⟨i, k⟩, b, (hp o ⟨i, k⟩).2 ⟨b, hi, hk⟩, hi, hk⟩

/-- The place of an op is the only one it has. -/
theorem Placed.place_eq (hp : Placed g f places)
    (howner : ∀ b ∈ (g.func f).blocks, ∀ o ∈ (g.block b).ops, (g.op o).block = some b)
    (hb : (g.func f).blocks.Nodup) {o : OpId} {p : Place} {i : Nat} {c : BlockId}
    (hget : places.get o.idx = some p) (hi : (g.func f).blocks[i]? = some c)
    (ho : o ∈ (g.block c).ops) : p.block = i ∧ (g.block c).ops[p.op]? = some o := by
  obtain ⟨b, hpb, hpo⟩ := (hp o p).1 hget
  have hbo := howner b (List.mem_of_getElem? hpb) o (List.mem_of_getElem? hpo)
  have hco := howner c (List.mem_of_getElem? hi) o ho
  obtain rfl : b = c := Option.some.inj (hbo.symm.trans hco)
  obtain ⟨h1, e1⟩ := List.getElem?_eq_some_iff.1 hpb
  obtain ⟨h2, e2⟩ := List.getElem?_eq_some_iff.1 hi
  exact ⟨hb.getElem_inj_iff.1 (e1.trans e2.symm), hpo⟩

/-- Whether a result is available, told by the places. -/
theorem Placed.available_iff (hp : Placed g f places)
    (hn : ∀ b ∈ (g.func f).blocks, (g.block b).ops.Nodup)
    (ho : ∀ b ∈ (g.func f).blocks, ∀ o ∈ (g.block b).ops, (g.op o).block = some b)
    (hb : (g.func f).blocks.Nodup) {d u : OpId} {pd pu : Place}
    (hpd : places.get d.idx = some pd) (hpu : places.get u.idx = some pu) :
    g.Available f d u ↔ ∀ above, (g.dominators f)[pu.block]? = some (some above) →
      if pd.block = pu.block then pd.op < pu.op else above.contains pd.block := by
  obtain ⟨bd, hbd, hopd⟩ := (hp d pd).1 hpd
  obtain ⟨bu, hbu, hopu⟩ := (hp u pu).1 hpu
  constructor
  · intro havail above habove
    have hkey := havail pd.block pu.block bd bu above hbd (List.mem_of_getElem? hopd) hbu
      (List.mem_of_getElem? hopu) habove
    split
    · rename_i heq
      have hbc : bd = bu := by
        rw [heq] at hbd
        exact Option.some.inj (hbd.symm.trans hbu)
      subst hbc
      rwa [if_pos heq, pair_sublist_iff (hn bd (List.mem_of_getElem? hbd)) hopd hopu] at hkey
    · rename_i hne
      rwa [if_neg hne] at hkey
  · intro h i j b c above hi hdb hj huc habove
    obtain ⟨rfl, hopd⟩ := hp.place_eq ho hb hpd hi hdb
    obtain ⟨rfl, hopu⟩ := hp.place_eq ho hb hpu hj huc
    have hkey := h above habove
    split
    · rename_i heq
      have hbc : b = c := by
        rw [heq] at hi
        exact Option.some.inj (hi.symm.trans hj)
      subst hbc
      rw [if_pos heq] at hkey
      exact (pair_sublist_iff (hn b (List.mem_of_getElem? hi)) hopd hopu).2 hkey
    · rename_i hne
      rwa [if_neg hne] at hkey

theorem checkUse_eq_ok (hp : Placed g f places)
    (hn : ∀ b ∈ (g.func f).blocks, (g.block b).ops.Nodup)
    (ho : ∀ b ∈ (g.func f).blocks, ∀ o ∈ (g.block b).ops, (g.op o).block = some b)
    (hb : (g.func f).blocks.Nodup) {d u : OpId} (hu : u ∈ g.opsOf f) :
    checkUse ⟨g, f, places, g.dominators f⟩ d u = .ok () ↔
      d ∈ g.opsOf f ∧ (g.op d).code.isTerminator = false ∧ g.Available f d u := by
  obtain ⟨pu, bu, hpu, -⟩ := hp.exists_place hu
  rw [checkUse]
  cases hpd : places.get d.idx with
  | none =>
    have hout : d ∉ g.opsOf f := by
      intro hd
      obtain ⟨pd, bd, hget, -⟩ := hp.exists_place hd
      rw [hpd] at hget
      cases hget
    simp [hout]
  | some pd =>
    obtain ⟨bd, hbd, hopd⟩ := (hp d pd).1 hpd
    have hd : d ∈ g.opsOf f :=
      Graph.mem_opsOf.2 ⟨bd, List.mem_of_getElem? hbd, List.mem_of_getElem? hopd⟩
    rw [hp.available_iff hn ho hb hpd hpu]
    simp only [hd, true_and, hpu, Option.getD_some, List.getD_eq_getElem?_getD]
    by_cases hterm : (g.op d).code.isTerminator
    · simp [hterm]
    · rcases hdom : (g.dominators f)[pu.block]? with _ | _ | above
      · simp [hterm]
      · simp [hterm]
      · by_cases heq : pd.block = pu.block
        · simp [hterm, heq]
        · simp [hterm, heq]

/-- What the checks of operands come to once the places are known. -/
def Sees (g : Graph) (f : FuncId) (places : Table (Option Place)) : Prop :=
  ∀ d u, u ∈ g.opsOf f → (checkUse ⟨g, f, places, g.dominators f⟩ d u = .ok () ↔
    d ∈ g.opsOf f ∧ (g.op d).code.isTerminator = false ∧ g.Available f d u)

theorem checkOperand_eq_ok (hs : Sees g f places) {u : OpId} (hu : u ∈ g.opsOf f) {bits : Int}
    {i : Nat} {v : Option Operand} :
    checkOperand ⟨g, f, places, g.dominators f⟩ u bits i v = .ok () ↔
      ∃ w, v = some w ∧ g.OperandOk f u bits w := by
  cases v with
  | none => simp [checkOperand]
  | some w =>
    simp only [checkOperand, Option.some.injEq, exists_eq_left']
    by_cases hw : g.width w = bits
    · rw [if_neg (by simpa using hw)]
      cases w with
      | const c =>
        simp only [Graph.width] at hw
        simp [Graph.OperandOk, hw]
      | param p =>
        simp only [Graph.width] at hw
        by_cases hm : p ∈ (g.func f).params <;> simp [Graph.OperandOk, func, hw, hm]
      | result o =>
        simp only [Graph.width] at hw
        simp [Graph.OperandOk, hw, hs o u hu]
    · rw [if_pos hw]
      cases w <;> simp_all [Graph.width, Graph.OperandOk]

theorem checkOperands_eq_ok (hs : Sees g f places) {u : OpId} (hu : u ∈ g.opsOf f) {bits : Int}
    {i : Nat} {vs : List (Option Operand)} :
    checkOperands ⟨g, f, places, g.dominators f⟩ u bits i vs = .ok () ↔
      ∀ v ∈ vs, ∃ w, v = some w ∧ g.OperandOk f u bits w := by
  induction vs generalizing i with
  | nil => simp [checkOperands]
  | cons v vs ih =>
    rw [checkOperands, bind_eq_ok, exists_unit, List.forall_mem_cons, ← ih (i := i + 1),
      ← checkOperand_eq_ok hs hu (i := i)]

/-- The targets of an op, none of them empty or in another function. -/
theorem targets_any_eq_false {ts : List (Option BlockId)} :
    (ts.any fun t => t.all fun b => (g.block b).owner ≠ some f) = false ↔
      ∀ t ∈ ts, ∃ b, t = some b ∧ (g.block b).owner = some f := by
  simp only [List.any_eq_false, Option.all_eq_true, decide_eq_true_eq]
  constructor
  · intro h t ht
    cases t with
    | none => exact absurd (by simp) (h none ht)
    | some b => exact ⟨b, rfl, by simpa using h (some b) ht⟩
  · intro h t ht
    obtain ⟨b, rfl, hb⟩ := h t ht
    simp [hb]

/-- The check of an op, condition by condition. -/
theorem checkOp_iff (hs : Sees g f places) {u : OpId} (hu : u ∈ g.opsOf f) :
    checkOp ⟨g, f, places, g.dominators f⟩ u = .ok () ↔ ∃ args targets bits,
      signature ⟨g, f, places, g.dominators f⟩ (g.op u) = .ok (args, targets, bits) ∧
      (g.op u).args.length = args ∧ (g.op u).targets.length = targets ∧
      ((g.op u).code.isTerminator = false → Word.goodWidth (g.op u).bits) ∧
      ((g.op u).code.isFloat → (g.op u).bits = 32 ∨ (g.op u).bits = 64) ∧
      (∀ t ∈ (g.op u).targets, ∃ b, t = some b ∧ (g.block b).owner = some f) ∧
      ∀ v ∈ (g.op u).args, ∃ w, v = some w ∧ g.OperandOk f u bits w := by
  have hwidth : (!(g.op u).code.isTerminator && !Word.goodWidth (g.op u).bits) = false ↔
      ((g.op u).code.isTerminator = false → Word.goodWidth (g.op u).bits) := by
    cases (g.op u).code.isTerminator <;> simp
  have hfloat : ((g.op u).code.isFloat && (g.op u).bits ≠ 32 && (g.op u).bits ≠ 64) = false ↔
      ((g.op u).code.isFloat → (g.op u).bits = 32 ∨ (g.op u).bits = 64) := by
    cases (g.op u).code.isFloat with
    | false => simp
    | true => simp [or_iff_not_imp_left]
  simp only [checkOp, bind_eq_ok, Prod.exists]
  refine exists_congr fun args => exists_congr fun targets => exists_congr fun bits =>
    and_congr_right fun _ => ?_
  rw [ite_error_eq_ok, ite_error_eq_ok, ite_error_eq_ok, ite_error_eq_ok,
    checkOperands_eq_ok hs hu, Bool.not_eq_true, Bool.not_eq_true, Bool.not_eq_true, hwidth,
    hfloat, targets_any_eq_false]
  simp only [not_or, not_not, and_assoc]

theorem signature_eq_ok {c : Context} {op : Op} {args targets : Nat} {bits : Int} :
    signature c op = .ok (args, targets, bits) ↔
      (op.code.isBinary ∧ args = 2 ∧ targets = 0 ∧ bits = op.bits) ∨
      (op.code.isUnary ∧ args = 1 ∧ targets = 0 ∧ bits = op.bits) ∨
      (op.code = .ret ∧ args = 1 ∧ targets = 0 ∧ bits = c.func.retBits) ∨
      (op.code = .br ∧ args = 0 ∧ targets = 1 ∧ bits = op.bits) ∨
      (op.code = .brif ∧ args = 1 ∧ targets = 2 ∧ bits = 1) := by
  unfold signature
  generalize op.code = code
  cases code <;> simp [Opcode.isBinary, Opcode.isUnary, eq_comm]

theorem checkOp_eq_ok (hs : Sees g f places) {u : OpId} (hu : u ∈ g.opsOf f) :
    checkOp ⟨g, f, places, g.dominators f⟩ u = .ok () ↔ g.OpForm f u := by
  rw [checkOp_iff hs hu]
  constructor
  · rintro ⟨args, targets, bits, hsig, hargs, htargets, hwidth, hfloat, howner, hops⟩
    rcases signature_eq_ok.1 hsig with ⟨code, rfl, rfl, rfl⟩ | ⟨code, rfl, rfl, rfl⟩ |
      ⟨code, rfl, rfl, rfl⟩ | ⟨code, rfl, rfl, rfl⟩ | ⟨code, rfl, rfl, rfl⟩
    · obtain ⟨v, w, hvw, hv, hw⟩ := exists_two hargs hops
      exact .binary v w code hvw (List.length_eq_zero_iff.1 htargets)
        (hwidth (Opcode.not_isTerminator_of_isBinary code)) hfloat hv hw
    · obtain ⟨v, hargs, hv⟩ := exists_one hargs hops
      exact .unary v code hargs (List.length_eq_zero_iff.1 htargets)
        (hwidth (Opcode.not_isTerminator_of_isUnary code)) hv
    · obtain ⟨v, hargs, hv⟩ := exists_one hargs hops
      exact .ret v code hargs (List.length_eq_zero_iff.1 htargets) hv
    · obtain ⟨t, htargets, ht⟩ := exists_one htargets howner
      exact .br t code (List.length_eq_zero_iff.1 hargs) htargets ht
    · obtain ⟨v, hargs, hv⟩ := exists_one hargs hops
      obtain ⟨t, e, htargets, ht, he⟩ := exists_two htargets howner
      exact .brif v t e code hargs htargets ht he hv
  · intro hform
    cases hform with
    | binary x y code args targets width float left right =>
      refine ⟨2, 0, _, signature_eq_ok.2 (.inl ⟨code, rfl, rfl, rfl⟩), ?_⟩
      simpa [args, targets, width, left, right] using float
    | unary x code args targets width operand =>
      have hfloat : (g.op u).code.isFloat = false := by
        cases hc : (g.op u).code <;> simp_all [Opcode.isFloat, Opcode.isUnary]
      refine ⟨1, 0, _, signature_eq_ok.2 (.inr (.inl ⟨code, rfl, rfl, rfl⟩)), ?_⟩
      simp [args, targets, width, hfloat, operand]
    | ret x code args targets operand =>
      refine ⟨1, 0, _, signature_eq_ok.2 (.inr (.inr (.inl ⟨code, rfl, rfl, rfl⟩))), ?_⟩
      simp [code, args, targets, Opcode.isTerminator, Opcode.isFloat, func, operand]
    | br t code args targets owner =>
      refine ⟨0, 1, _, signature_eq_ok.2 (.inr (.inr (.inr (.inl ⟨code, rfl, rfl, rfl⟩)))), ?_⟩
      simp [code, args, targets, Opcode.isTerminator, Opcode.isFloat, owner]
    | brif x t e code args targets yes no operand =>
      refine ⟨1, 2, 1, signature_eq_ok.2 (.inr (.inr (.inr (.inr ⟨code, rfl, rfl, rfl⟩)))), ?_⟩
      simp [code, args, targets, Opcode.isTerminator, Opcode.isFloat, yes, no, operand]

theorem ended_singleton {o : OpId} : g.Ended [o] ↔ (g.op o).code.isTerminator := by
  constructor
  · rintro ⟨body, last, heq, hlast, -⟩
    have hlen : body = [] := by
      have := congrArg List.length heq
      simpa using this
    subst hlen
    simp only [List.nil_append, List.cons.injEq, and_true] at heq
    rwa [heq]
  · intro h
    exact ⟨[], o, rfl, h, by simp⟩

theorem ended_cons {o : OpId} {ops : List OpId} (hne : ops ≠ []) :
    g.Ended (o :: ops) ↔ (g.op o).code.isTerminator = false ∧ g.Ended ops := by
  constructor
  · rintro ⟨body, last, heq, hlast, hbody⟩
    cases body with
    | nil =>
      simp only [List.nil_append, List.cons.injEq] at heq
      exact absurd heq.2 hne
    | cons a body =>
      simp only [List.cons_append, List.cons.injEq] at heq
      obtain ⟨rfl, heq⟩ := heq
      exact ⟨hbody o (by simp), body, last, heq, hlast,
        fun u hu => hbody u (List.mem_cons_of_mem _ hu)⟩
  · rintro ⟨ho, body, last, heq, hlast, hbody⟩
    refine ⟨o :: body, last, by simp [heq], hlast, fun u hu => ?_⟩
    rcases List.mem_cons.1 hu with rfl | hu
    · exact ho
    · exact hbody u hu

theorem checkOps_eq_ok {c : Context} {i : Nat} {ops : List OpId} (hne : ops ≠ []) :
    c.checkOps i ops = .ok () ↔ c.graph.Ended ops ∧ ∀ o ∈ ops, c.checkOp o = .ok () := by
  induction ops generalizing i with
  | nil => exact absurd rfl hne
  | cons o ops ih =>
    cases ops with
    | nil =>
      rw [ended_singleton]
      by_cases ht : (c.graph.op o).code.isTerminator
      · simp [checkOps, ht, exists_unit]
      · simp [checkOps, ht]
    | cons o' ops =>
      rw [ended_cons (by simp), checkOps]
      by_cases ht : (c.graph.op o).code.isTerminator
      · simp [ht]
      · have ih' := ih (i := i + 1) (by simp)
        simp only [List.isEmpty_cons, Bool.false_and, Bool.false_eq_true, if_false, ht,
          Bool.and_false, bind_eq_ok, mapError_eq_ok, exists_unit, ih', true_and,
          List.forall_mem_cons (a := o)]
        exact and_left_comm

theorem checkBlock_eq_ok {c : Context} {b : BlockId} :
    c.checkBlock b = .ok () ↔
      c.graph.Ended (c.graph.block b).ops ∧ ∀ o ∈ (c.graph.block b).ops, c.checkOp o = .ok () := by
  rw [checkBlock]
  by_cases hne : (c.graph.block b).ops = []
  · have hnot : ¬ c.graph.Ended (c.graph.block b).ops := by
      rintro ⟨body, last, heq, -⟩
      rw [hne] at heq
      simp at heq
    simp [hne] at hnot ⊢
    exact hnot
  · simp only [List.isEmpty_iff, hne, if_false]
    exact checkOps_eq_ok hne

end Context

/-- What a demand says of a value. -/
def Demand.of (d : Demand) : Operand → UseSet
  | .const _ => .empty
  | .param p => d.params.get p.idx
  | .result o => d.ops.get o.idx

theorem count_demand_add (user : OpId) (d : Demand) (a : Option Operand) (v : Operand)
    (hv : ∀ c, v ≠ .const c) (w : OpId) :
    ((d.add user a).of v).count w =
      (d.of v).count w + if w = user ∧ a = some v then 1 else 0 := by
  match a with
  | none => simp [Demand.add]
  | some (.const c) =>
    have : some (Operand.const c) ≠ some v := fun h => hv c (Option.some.inj h).symm
    simp [Demand.add, this]
  | some (.param p) =>
    cases v with
    | const c => exact absurd rfl (hv c)
    | result o => simp [Demand.add, Demand.of]
    | param q =>
      by_cases h : q = p
      · subst h
        simp [Demand.add, Demand.of, Table.get_modify, UseSet.count_add]
      · have h' : ¬ p = q := fun e => h e.symm
        simp [Demand.add, Demand.of, Table.get_modify, ParamId.idx_inj, h, h']
  | some (.result o) =>
    cases v with
    | const c => exact absurd rfl (hv c)
    | param p => simp [Demand.add, Demand.of]
    | result q =>
      by_cases h : q = o
      · subst h
        simp [Demand.add, Demand.of, Table.get_modify, UseSet.count_add]
      · have h' : ¬ o = q := fun e => h e.symm
        simp [Demand.add, Demand.of, Table.get_modify, OpId.idx_inj, h, h']

theorem count_demand_args (user : OpId) (args : List (Option Operand)) (d : Demand) (v : Operand)
    (hv : ∀ c, v ≠ .const c) (w : OpId) :
    ((args.foldl (·.add user ·) d).of v).count w =
      (d.of v).count w + if w = user then args.count (some v) else 0 := by
  induction args generalizing d with
  | nil => simp
  | cons a args ih =>
    rw [List.foldl_cons, ih, count_demand_add user d a v hv, List.count_cons]
    by_cases hw : w = user
    · by_cases ha : a = some v <;> simp [hw, ha]
      omega
    · simp [hw]

theorem count_demand_from (ops : List OpId) (hn : ops.Nodup) (d : Demand) (v : Operand)
    (hv : ∀ c, v ≠ .const c) (w : OpId) :
    ((ops.foldl (fun d o => (g.op o).args.foldl (·.add o ·) d) d).of v).count w =
      (d.of v).count w + if w ∈ ops then g.slots w v else 0 := by
  induction ops generalizing d with
  | nil => simp
  | cons o ops ih =>
    obtain ⟨ho, hn⟩ := List.nodup_cons.1 hn
    rw [List.foldl_cons, ih hn, count_demand_args o _ d v hv]
    by_cases hw : w = o
    · subst hw
      simp [ho, Graph.slots]
    · simp [hw]

theorem count_demand (ops : List OpId) (hn : ops.Nodup) (v : Operand)
    (hv : ∀ c, v ≠ .const c) (w : OpId) :
    ((demand g ops).of v).count w = if w ∈ ops then g.slots w v else 0 := by
  have hempty : ((({} : Demand).of v).count w) = 0 := by
    cases v <;> simp only [Demand.of, Table.get_empty] <;> rfl
  rw [demand, count_demand_from ops hn {} v hv, hempty, Nat.zero_add]

theorem checkUses_eq_ok {v : Operand} {users want : UseSet} :
    checkUses g v users want = .ok () ↔ users = want := by
  unfold checkUses
  constructor
  · intro h
    by_cases hsize : users.size = want.size
    · rw [if_neg (not_not.2 hsize)] at h
      split at h
      · rename_i hall
        simp only [List.all_eq_true, decide_eq_true_eq] at hall
        exact UseSet.eq_of_entries hsize hall
      · cases h
    · rw [if_pos hsize] at h
      cases h
  · rintro rfl
    have hall : (users.entries.all fun e => users.count e.1 = e.2) = true := by
      simp only [List.all_eq_true, decide_eq_true_eq]
      exact fun e he => UseSet.count_of_mem_entries he
    rw [if_neg (not_not.2 rfl), if_pos hall]

/-- The use sets are those that are asked for if and only if they are exact. -/
theorem uses_eq_demand (hn : (g.opsOf f).Nodup) :
    ((∀ p ∈ (g.func f).params, (g.param p).uses = (demand g (g.opsOf f)).params.get p.idx) ∧
      ∀ o ∈ g.opsOf f, (g.op o).uses = (demand g (g.opsOf f)).ops.get o.idx) ↔
    ∀ v, g.IsValue f v → ∀ u, g.recorded v u = if u ∈ g.opsOf f then g.slots u v else 0 := by
  have hparam : ∀ p u, ((demand g (g.opsOf f)).params.get (ParamId.idx p)).count u =
      if u ∈ g.opsOf f then g.slots u (.param p) else 0 :=
    fun p u => count_demand _ hn (.param p) (by simp) u
  have hresult : ∀ o u, ((demand g (g.opsOf f)).ops.get (OpId.idx o)).count u =
      if u ∈ g.opsOf f then g.slots u (.result o) else 0 :=
    fun o u => count_demand _ hn (.result o) (by simp) u
  constructor
  · rintro ⟨hparams, hops⟩ v hv u
    cases v with
    | const c => exact hv.elim
    | param p =>
      rw [← hparam, ← hparams p hv]
      rfl
    | result o =>
      rw [← hresult, ← hops o hv]
      rfl
  · intro h
    constructor
    · intro p hp
      exact UseSet.eq_of_count fun u => (h (.param p) hp u).trans (hparam p u).symm
    · intro o ho
      exact UseSet.eq_of_count fun u => (h (.result o) ho u).trans (hresult o u).symm

theorem placed_of_placeBlocks {places : Table (Option Place)}
    (h : placeBlocks g f .empty 0 .empty (g.func f).blocks = .ok places) :
    Context.Placed g f places := by
  intro u p
  rw [get_placeBlocks h]
  simp

theorem contains_empty (name : Bytes) :
    (Dictionary.empty : Dictionary Unit).contains name = false := by
  simp [Dictionary.contains]

/-- The check of a function is made of the checks of its parts. -/
theorem checkFunc_eq_ok_iff : checkFunc g f = .ok () ↔
    Word.goodWidth (g.func f).retBits ∧ checkParams g f .empty (g.func f).params = .ok () ∧
      ∃ places, placeBlocks g f .empty 0 .empty (g.func f).blocks = .ok places ∧
        (∀ b ∈ (g.func f).blocks, Context.checkBlock ⟨g, f, places, g.dominators f⟩ b = .ok ()) ∧
        (∀ p ∈ (g.func f).params,
          (g.param p).uses = (demand g (g.opsOf f)).params.get p.idx) ∧
        ∀ o ∈ g.opsOf f, (g.op o).uses = (demand g (g.opsOf f)).ops.get o.idx := by
  unfold checkFunc
  by_cases hret : Word.goodWidth (g.func f).retBits
  · simp only [hret, Bool.not_true, Bool.false_eq_true, if_false, bind_eq_ok, exists_unit,
      forM_eq_ok, mapError_eq_ok, checkUses_eq_ok, true_and]
  · simp [hret, bind, Except.bind]

theorem wellFormed_of_checkFunc (h : checkFunc g f = .ok ()) : g.WellFormed f := by
  obtain ⟨hret, hparams, places, hplaces, hblocks, huses⟩ := checkFunc_eq_ok_iff.1 h
  obtain ⟨hpo, hpw, -, hpn⟩ := checkParams_eq_ok.1 hparams
  obtain ⟨hbo, -, hbn, hoo, hon, -⟩ := placeBlocks_eq_ok.1 ⟨places, hplaces⟩
  have hsees : Context.Sees g f places := fun d u hu =>
    Context.checkUse_eq_ok (placed_of_placeBlocks hplaces) hon hoo hbn.of_map hu
  simp only [Context.checkBlock_eq_ok] at hblocks
  have hform : ∀ u ∈ g.opsOf f, g.OpForm f u := by
    intro u hu
    obtain ⟨b, hb, hub⟩ := Graph.mem_opsOf.1 hu
    exact (Context.checkOp_eq_ok hsees hu).1 ((hblocks b hb).2 u hub)
  have hnodup := Graph.nodup_opsOf hbn.of_map hon hoo
  exact ⟨hret, hpo, hpw, hpn, hbo, hbn, hoo, hon, fun b hb => (hblocks b hb).1, hform,
    (uses_eq_demand hnodup).1 huses⟩

theorem checkFunc_of_wellFormed (wf : g.WellFormed f) : checkFunc g f = .ok () := by
  obtain ⟨places, hplaces⟩ := placeBlocks_eq_ok.2 ⟨wf.blockOwner, fun b _ => contains_empty _,
    wf.blockNames, wf.opOwner, wf.opsNodup, fun b _ o _ => Table.get_empty _⟩
  have hsees : Context.Sees g f places := fun d u hu =>
    Context.checkUse_eq_ok (placed_of_placeBlocks hplaces) wf.opsNodup wf.opOwner wf.blocksNodup hu
  have hparams : checkParams g f .empty (g.func f).params = .ok () :=
    checkParams_eq_ok.2 ⟨wf.paramOwner, wf.paramWidth, fun p _ => contains_empty _, wf.paramNames⟩
  refine checkFunc_eq_ok_iff.2 ⟨wf.retWidth, hparams, places, hplaces, fun b hb => ?_,
    (uses_eq_demand wf.opsOf_nodup).2 wf.uses⟩
  refine Context.checkBlock_eq_ok.2 ⟨wf.ended b hb, fun o ho => ?_⟩
  have hof : o ∈ g.opsOf f := Graph.mem_opsOf.2 ⟨b, hb, ho⟩
  exact (Context.checkOp_eq_ok hsees hof).2 (wf.form o hof)

theorem checkFunc_eq_ok : checkFunc g f = .ok () ↔ g.WellFormed f :=
  ⟨wellFormed_of_checkFunc, checkFunc_of_wellFormed⟩

end Validity

namespace Graph
variable {g : Graph}

/-- The functions that are accepted are the well-formed ones. -/
theorem validateFunc_eq_ok {f : FuncId} : g.validateFunc f = .ok () ↔ g.WellFormed f := by
  rw [validateFunc, mapError_eq_ok]
  exact Validity.checkFunc_eq_ok

/-- The functions of a well-formed module belong to it and have different names. -/
structure ModuleWellFormed (g : Graph) (m : ModuleId) : Prop where
  owner : ∀ f ∈ (g.module m).funcs, (g.func f).owner = some m
  names : ((g.module m).funcs.map fun f => (g.func f).name).Nodup
  funcs : ∀ f ∈ (g.module m).funcs, g.WellFormed f

/-- The functions of a well-formed module are in the table. -/
theorem ModuleWellFormed.lt_size {m : ModuleId} (wf : g.ModuleWellFormed m)
    (hf : f ∈ (g.module m).funcs) : f.idx < g.funcs.size := by
  apply Table.lt_size_of_ne
  intro heq
  have howner := wf.owner f hf
  rw [func, heq] at howner
  cases howner

theorem validateFuncs_eq_ok {m : ModuleId} {seen : Dictionary Unit} {fs : List FuncId} :
    g.validateFuncs m seen fs = .ok () ↔
      (∀ f ∈ fs, (g.func f).owner = some m) ∧
      (∀ f ∈ fs, seen.contains (g.func f).name = false) ∧
      (fs.map fun f => (g.func f).name).Nodup ∧ ∀ f ∈ fs, g.WellFormed f := by
  induction fs generalizing seen with
  | nil => simp [validateFuncs]
  | cons f fs ih =>
    unfold validateFuncs
    by_cases howner : (g.func f).owner = some m
    · by_cases hseen : seen.contains (g.func f).name
      · simp [howner, hseen]
      · simp only [howner, hseen, ne_eq, not_true_eq_false, if_false, Bool.false_eq_true,
          bind_eq_ok, exists_unit, validateFunc_eq_ok, ih, Dictionary.contains_insert,
          Bool.or_eq_false_iff, decide_eq_false_iff_not, List.mem_cons, forall_eq_or_imp,
          List.map_cons, List.nodup_cons, List.mem_map, not_exists, not_and, true_and]
        constructor
        · rintro ⟨h1, h2, h3, h4, h5⟩
          exact ⟨h2, fun k hk => (h3 k hk).2, ⟨fun k hk => (h3 k hk).1, h4⟩, h1, h5⟩
        · rintro ⟨h1, h2, ⟨h3, h4⟩, h5, h6⟩
          exact ⟨h5, h1, fun k hk => ⟨h3 k hk, h2 k hk⟩, h4, h6⟩
    · simp [howner]

/-- The modules that are accepted are the well-formed ones. -/
theorem validate_eq_ok {m : ModuleId} : g.validate m = .ok () ↔ g.ModuleWellFormed m := by
  rw [validate, validateFuncs_eq_ok]
  constructor
  · rintro ⟨h1, -, h2, h3⟩
    exact ⟨h1, h2, h3⟩
  · rintro ⟨h1, h2, h3⟩
    exact ⟨h1, fun f _ => Validity.contains_empty _, h2, h3⟩

end Graph
end Disguise
