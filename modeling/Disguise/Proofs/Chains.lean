import Disguise.Proofs.Choices
import Disguise.Substitution.Rule
import Mathlib.Data.BitVec
import Mathlib.Tactic.Ring

/-!
What replacement chains compute. At a proper width every rule builds, whatever is chosen, a chain of
operations that cannot fail, and its last value is that of the operation the rule is for.
-/
namespace Disguise
open Word Arithmetic

/-- A word that depends on the two operands of a chain. -/
abbrev Reading (w : Nat) := BitVec w → BitVec w → BitVec w

section
variable {w : Nat}

/-- A term of a chain stands for a reading when the steps so far have the given ones. -/
inductive Term.Reads (vals : List (Reading w)) : Term → Reading w → Prop
  | left : Reads vals .left fun a _ => a
  | right : Reads vals .right fun _ b => b
  | const (c : BitVec w) : Reads vals (.const ⟨ofBits c, w⟩) fun _ _ => c
  | step {i : Nat} {x : Reading w} (h : vals[i]? = some x) : Reads vals (.step i) x

/-- A step computes a reading from those of earlier steps, by an operation that cannot fail. -/
inductive Step.Reads (vals : List (Reading w)) : Step → Reading w → Prop
  | binary {code : Opcode} {s t : Term} {x y : Reading w} (pure : code ∈ Rule.replaceable)
      (fst : s.Reads vals x) (snd : t.Reads vals y) :
      Reads vals ⟨code, [s, t]⟩ fun a b => onBits code (x a b) (y a b)
  | not {s : Term} {x : Reading w} (arg : s.Reads vals x) :
      Reads vals ⟨.not, [s]⟩ fun a b => ~~~ x a b
  | neg {s : Term} {x : Reading w} (arg : s.Reads vals x) :
      Reads vals ⟨.neg, [s]⟩ fun a b => - x a b

/-- The readings of the steps of a chain. -/
inductive Chain.Reads : List Step → List (Reading w) → Prop
  | nil : Reads [] []
  | snoc {steps : List Step} {vals : List (Reading w)} {s : Step} {x : Reading w}
      (before : Reads steps vals) (last : s.Reads vals x) : Reads (steps ++ [s]) (vals ++ [x])

theorem Term.Reads.append {vals : List (Reading w)} {t : Term} {x : Reading w} (h : t.Reads vals x)
    (more : List (Reading w)) : t.Reads (vals ++ more) x := by
  cases h with
  | left => exact .left
  | right => exact .right
  | const c => exact .const c
  | step h => exact .step (by rw [List.getElem?_append_left (List.getElem?_eq_some_iff.1 h).1, h])

theorem Chain.Reads.length_eq {steps : List Step} {vals : List (Reading w)}
    (h : Chain.Reads steps vals) : vals.length = steps.length := by
  induction h with
  | nil => rfl
  | snoc _ _ ih => simp [ih]

end

namespace Bits
variable {w : Nat}

theorem and_add_and_not (a b : BitVec w) : (a &&& b) + (a &&& ~~~ b) = a := by
  have hdisjoint : (a &&& b) &&& (a &&& ~~~ b) = 0#w := by
    ext i hi
    simp only [BitVec.getElem_and, BitVec.getElem_not, BitVec.getElem_zero]
    cases a[i] <;> cases b[i] <;> rfl
  rw [BitVec.add_eq_or_of_and_eq_zero _ _ hdisjoint]
  ext i hi
  simp only [BitVec.getElem_or, BitVec.getElem_and, BitVec.getElem_not]
  cases a[i] <;> cases b[i] <;> rfl

/-- Two words share the bits `m`; the first has `p` besides and the second has `q`. -/
theorem exists_parts (a b : BitVec w) : ∃ m p q, a = m + p ∧ b = m + q ∧ a &&& b = m ∧
    a ||| b = m + p + q ∧ a ^^^ b = p + q ∧ a &&& ~~~ b = p ∧ ~~~ a &&& b = q := by
  have hleft := and_add_and_not a b
  have hright := and_add_and_not b a
  have hor := and_add_and_not (a ||| b) a
  have hxor := and_add_and_not (a ^^^ b) a
  rw [BitVec.and_comm b a, BitVec.and_comm b (~~~ a)] at hright
  have h₁ : (a ||| b) &&& a = a := by
    ext i hi
    simp only [BitVec.getElem_or, BitVec.getElem_and]
    cases a[i] <;> cases b[i] <;> rfl
  have h₂ : (a ||| b) &&& ~~~ a = ~~~ a &&& b := by
    ext i hi
    simp only [BitVec.getElem_or, BitVec.getElem_and, BitVec.getElem_not]
    cases a[i] <;> cases b[i] <;> rfl
  have h₃ : (a ^^^ b) &&& a = a &&& ~~~ b := by
    ext i hi
    simp only [BitVec.getElem_xor, BitVec.getElem_and, BitVec.getElem_not]
    cases a[i] <;> cases b[i] <;> rfl
  have h₄ : (a ^^^ b) &&& ~~~ a = ~~~ a &&& b := by
    ext i hi
    simp only [BitVec.getElem_xor, BitVec.getElem_and, BitVec.getElem_not]
    cases a[i] <;> cases b[i] <;> rfl
  rw [h₁, h₂] at hor
  rw [h₃, h₄] at hxor
  exact ⟨_, _, _, hleft.symm, hright.symm, rfl, by rw [hleft, hor], hxor.symm, rfl, rfl⟩

theorem not_eq (a : BitVec w) : ~~~ a = -a - 1 := by
  have hone : 1#w = (1 : BitVec w) := rfl
  rw [BitVec.neg_eq_not_add, hone]
  ring

end Bits

namespace Chain

/-- A term has a reading among the known ones; the search for it goes through the list. -/
class Knows {w : Nat} (known : List (Term × Reading w)) (t : Term) (x : outParam (Reading w)) :
    Prop where
  mem : (t, x) ∈ known

instance {w : Nat} {known : List (Term × Reading w)} {t : Term} {x : Reading w} :
    Knows ((t, x) :: known) t x := ⟨by simp⟩

instance {w : Nat} {known : List (Term × Reading w)} {t : Term} {x : Reading w}
    {k : Term × Reading w} [h : Knows known t x] : Knows (k :: known) t x := ⟨by simp [h.mem]⟩

/-- A building program gives a term with the reading `x`, when the terms in `known` have theirs.
If it has to be `placed`, the term is the result of the last step. -/
def Gives {w : Nat} (expand placed : Bool) (known : List (Term × Reading w)) (p : Build Term)
    (x : Reading w) : Prop :=
  ∀ steps vals, Chain.Reads steps vals → (∀ k ∈ known, k.1.Reads vals k.2) →
    Always ((p.run ⟨w, expand⟩).run steps) fun r => ∃ more, Chain.Reads r.2 (vals ++ more) ∧
      r.1.Reads (vals ++ more) x ∧ (placed → ∃ i, r.1 = .step i ∧ r.2.length = i + 1)

theorem le_of_goodWidth {w : Nat} (hw : goodWidth (w : Int)) : w ≤ 64 := by
  obtain ⟨w', heq, -, h2⟩ := goodWidth_iff.1 hw
  omega

/-- The two operands. -/
abbrev operands (w : Nat) : List (Term × Reading w) :=
  [(.left, fun a _ => a), (.right, fun _ b => b)]

theorem toBits_one (w : Nat) : toBits w 1 = 1 := by
  apply BitVec.eq_of_toNat_eq
  simp [toBits]

theorem toBits_two (w : Nat) : toBits w 2 = 2 := by
  apply BitVec.eq_of_toNat_eq
  simp [toBits]

namespace Gives
variable {w : Nat} {expand placed : Bool} {known : List (Term × Reading w)} {s t : Term}
  {x y z : Reading w}

theorem bind {p : Build Term} {k : Term → Build Term} (h : Gives expand false known p x)
    (hk : ∀ t, Gives expand placed ((t, x) :: known) (k t) z) :
    Gives expand placed known (p >>= k) z := by
  intro steps vals hsteps hknown
  change Always (((p.run _).run steps) >>= fun r => ((k r.1).run _).run r.2) _
  refine (h steps vals hsteps hknown).bind ?_
  rintro ⟨t, steps'⟩ ⟨more, hsteps', ht, -⟩
  refine (hk t steps' (vals ++ more) hsteps' ?_).mono ?_
  · intro q hq
    rcases List.mem_cons.1 hq with rfl | hq
    · exact ht
    · exact (hknown q hq).append more
  · rintro ⟨u, steps''⟩ ⟨more', hsteps'', hu, hplaced⟩
    exact ⟨more ++ more', by simpa using hsteps'', by simpa using hu, hplaced⟩

/-- A choice that decides between programs for the same reading. -/
theorem choose {k : Nat → Build Term} (hk : ∀ n, Gives expand placed known (k n) z) :
    Gives expand placed known ((liftM (Choice.below 2) : Build Nat) >>= k) z := by
  intro steps vals hsteps hknown
  change Always ((Choice.below 2 >>= fun n => Pure.pure (n, steps)) >>=
    fun r : Nat × List Step => ((k r.1).run _).run r.2) _
  refine Always.bind (P := fun r => r.2 = steps) ?_ ?_
  · exact (Always.below (by decide)).bind fun n _ => .pure rfl
  · rintro ⟨n, _⟩ rfl
    exact hk n _ vals hsteps hknown

theorem emit {code : Opcode} {args : List Term} (h : ∀ vals : List (Reading w),
    (∀ k ∈ known, k.1.Reads vals k.2) → Step.Reads vals ⟨code, args⟩ x) :
    Gives expand placed known (Chain.emit code args) x := by
  intro steps vals hsteps hknown
  refine Always.pure ⟨[x], .snoc hsteps (h vals hknown), .step ?_, fun _ => ⟨_, rfl, by simp⟩⟩
  simp [← hsteps.length_eq]

theorem op {code : Opcode} (hc : Rule.replaceable.contains code) [hs : Knows known s x]
    [ht : Knows known t y] :
    Gives expand placed known (Chain.op code s t) fun a b => onBits code (x a b) (y a b) :=
  emit fun _ h => .binary (List.contains_iff_mem.1 hc) (h _ hs.mem) (h _ ht.mem)

theorem of_eq {p : Build Term} (h : Gives expand placed known p x) (heq : ∀ a b, x a b = z a b) :
    Gives expand placed known p z := by
  have hxz : x = z := funext fun a => funext fun b => heq a b
  rwa [← hxz]

theorem congr {p q : Build Term} (h : p.run ⟨w, expand⟩ = q.run ⟨w, expand⟩)
    (hq : Gives expand placed known q x) : Gives expand placed known p x := by
  intro steps vals hsteps hknown
  rw [h]
  exact hq steps vals hsteps hknown

section
variable (hw : goodWidth (w : Int))
include hw

theorem run_const (v : UInt64) (steps : List Step) :
    ((Chain.const v).run ⟨w, expand⟩).run steps =
      (Pure.pure (.const ⟨ofBits (toBits w v), w⟩, steps) : Choice (Term × List Step)) := by
  have h2 := le_of_goodWidth hw
  have hconst : Graph.constant v (w : Int) = .ok ⟨ofBits (toBits w v), w⟩ := by
    rw [Graph.constant, truncate_of_good hw, Int.toNat_natCast, low_eq_ofBits v h2]
    rfl
  change ((liftM (Graph.constant v (w : Int)) : Choice Const) >>= fun c => Pure.pure (c, steps)) >>=
    (fun r : Const × List Step => Pure.pure (Term.const r.1, r.2)) = _
  rw [hconst]
  rfl

theorem const (v : UInt64) : Gives expand false known (Chain.const v) fun _ _ => toBits w v := by
  intro steps vals hsteps hknown
  rw [run_const hw]
  exact .pure ⟨[], by simpa using hsteps, .const _, by simp⟩

/-- A random constant is some constant. -/
theorem mask {k : Term → Build Term}
    (hk : ∀ t (c : BitVec w), Gives expand placed ((t, fun _ _ => c) :: known) (k t) z) :
    Gives expand placed known (Chain.mask >>= k) z := by
  intro steps vals hsteps hknown
  change Always (((Choice.value (w : Int) >>= fun v => Pure.pure (v, steps)) >>=
    fun r : UInt64 × List Step => ((Chain.const r.1).run _).run r.2) >>=
      fun r : Term × List Step => ((k r.1).run _).run r.2) _
  refine Always.bind (P := fun r => ∃ c : BitVec w, r.2 = steps ∧ r.1.Reads vals fun _ _ => c) ?_ ?_
  · refine Always.bind (P := fun r => r.2 = steps) ?_ ?_
    · exact (Always.value hw).bind fun v _ => .pure rfl
    · rintro ⟨v, _⟩ rfl
      rw [run_const hw]
      exact .pure ⟨_, rfl, .const _⟩
  · rintro ⟨t, _⟩ ⟨c, rfl, ht⟩
    refine hk t c _ vals hsteps ?_
    intro q hq
    rcases List.mem_cons.1 hq with rfl | hq
    · exact ht
    · exact hknown q hq

theorem not [hs : Knows known s x] :
    Gives expand placed known (Chain.not s) fun a b => ~~~ x a b := by
  cases expand with
  | false => exact congr (q := Chain.emit .not [s]) rfl (emit fun _ h => .not (h _ hs.mem))
  | true =>
    have h2 := le_of_goodWidth hw
    have hmask : Word.mask (w : Int) = .ok (ofBits (BitVec.allOnes w)) := by
      have hones : toBits w 0xFFFFFFFFFFFFFFFF = BitVec.allOnes w := by
        have hall : (0xFFFFFFFFFFFFFFFF : UInt64).toBitVec = BitVec.allOnes 64 := by decide
        ext i hi
        rw [toBits, hall, BitVec.getElem_setWidth, BitVec.getElem_allOnes, BitVec.getLsbD_allOnes]
        exact decide_eq_true (by omega)
      rw [Word.mask, truncate_of_good hw, Int.toNat_natCast, low_eq_ofBits _ h2, hones]
    have hrun : (Chain.not s).run ⟨w, true⟩ =
        (liftM (Word.mask (w : Int)) : StateT (List Step) Choice UInt64) >>= fun ones =>
          (Chain.const ones >>= fun c => Chain.op .xor s c).run ⟨w, true⟩ := rfl
    refine congr (q := Chain.const (ofBits (BitVec.allOnes w)) >>= fun c => Chain.op .xor s c) ?_ ?_
    · rw [hrun, hmask]
      rfl
    · refine bind (const hw _) fun c => (op rfl).of_eq fun a b => ?_
      simp [onBits, toBits_ofBits h2]

theorem neg [hs : Knows known s x] :
    Gives expand placed known (Chain.neg s) fun a b => - x a b := by
  cases expand with
  | false => exact congr (q := Chain.emit .neg [s]) rfl (emit fun _ h => .neg (h _ hs.mem))
  | true =>
    refine congr (q := Chain.const 0 >>= fun c => Chain.op .sub c s) rfl ?_
    refine bind (const hw 0) fun c => (op rfl).of_eq fun a b => ?_
    simp [onBits, toBits]

theorem nor [hs : Knows known s x] [ht : Knows known t y] :
    Gives expand placed known (Chain.nor s t) fun a b => ~~~ (x a b ||| y a b) := by
  refine choose fun n => ?_
  split
  · refine bind (op rfl) fun both => ?_
    exact of_eq (not hw) fun a b => rfl
  · refine bind (not hw) fun notFst => ?_
    refine bind (not hw) fun notSnd => ?_
    refine of_eq (op rfl) fun a b => ?_
    simp [onBits, BitVec.not_or]

theorem nand [hs : Knows known s x] [ht : Knows known t y] :
    Gives expand placed known (Chain.nand s t) fun a b => ~~~ (x a b &&& y a b) := by
  refine choose fun n => ?_
  split
  · refine bind (op rfl) fun both => ?_
    exact of_eq (not hw) fun a b => rfl
  · refine bind (not hw) fun notFst => ?_
    refine bind (not hw) fun notSnd => ?_
    refine of_eq (op rfl) fun a b => ?_
    simp [onBits, BitVec.not_and]

end

section
variable (hw : goodWidth (w : Int)) (expand : Bool)
include hw

theorem addNeg : Gives expand true (operands w) (Rule.addNeg.build .left .right) (onBits .add) := by
  have hword (a b : BitVec w) : a - -b = a + b := by ring
  refine bind (neg hw) fun ny => ?_
  exact of_eq (op rfl) hword

theorem addDoubleNeg :
    Gives expand true (operands w) (Rule.addDoubleNeg.build .left .right) (onBits .add) := by
  have hword (a b : BitVec w) : -(-a + -b) = a + b := by ring
  refine bind (neg hw) fun nx => ?_
  refine bind (neg hw) fun ny => ?_
  refine bind (op rfl) fun sum => ?_
  exact of_eq (neg hw) hword

theorem addRand :
    Gives expand true (operands w) (Rule.addRand.build .left .right) (onBits .add) := by
  have hword (r a b : BitVec w) : a + r + b - r = a + b := by ring
  refine mask hw fun _ r => ?_
  refine bind (op rfl) fun s => ?_
  refine bind (op rfl) fun s' => ?_
  exact of_eq (op rfl) (hword r)

theorem addRand2 :
    Gives expand true (operands w) (Rule.addRand2.build .left .right) (onBits .add) := by
  have hword (r a b : BitVec w) : a - r + b + r = a + b := by ring
  refine mask hw fun _ r => ?_
  refine bind (op rfl) fun s => ?_
  refine bind (op rfl) fun s' => ?_
  exact of_eq (op rfl) (hword r)

theorem addSubstitution :
    Gives expand true (operands w) (Rule.addSubstitution.build .left .right) (onBits .add) := by
  have hword (a b : BitVec w) : a - (~~~b - -toBits w 1) = a + b := by
    rw [toBits_one, Bits.not_eq]
    ring
  refine bind (not hw) fun ny => ?_
  refine bind (const hw 1) fun one => ?_
  refine bind (neg hw) fun minusOne => ?_
  refine bind (op rfl) fun s => ?_
  exact of_eq (op rfl) hword

omit hw in
theorem addSubstitution2 :
    Gives expand true (operands w) (Rule.addSubstitution2.build .left .right) (onBits .add) := by
  have hword (a b : BitVec w) : (a &&& b) + (a ||| b) = a + b := by
    obtain ⟨m, p, q, ha, hb, hand, hor, -⟩ := Bits.exists_parts a b
    rw [hand, hor, ha, hb]
    ring
  refine bind (op rfl) fun both => ?_
  refine bind (op rfl) fun any => ?_
  exact of_eq (op rfl) hword

theorem addSubstitution3 :
    Gives expand true (operands w) (Rule.addSubstitution3.build .left .right) (onBits .add) := by
  have hword (a b : BitVec w) : (a ^^^ b) + (a &&& b) * toBits w 2 = a + b := by
    obtain ⟨m, p, q, ha, hb, hand, -, hxor, -⟩ := Bits.exists_parts a b
    rw [hand, hxor, toBits_two, ha, hb]
    ring
  refine bind (op rfl) fun both => ?_
  refine bind (const hw 2) fun two => ?_
  refine bind (op rfl) fun carry => ?_
  refine bind (op rfl) fun differ => ?_
  exact of_eq (op rfl) hword

theorem subNeg : Gives expand true (operands w) (Rule.subNeg.build .left .right) (onBits .sub) := by
  have hword (a b : BitVec w) : a + -b = a - b := by ring
  refine bind (neg hw) fun ny => ?_
  exact of_eq (op rfl) hword

theorem subRand :
    Gives expand true (operands w) (Rule.subRand.build .left .right) (onBits .sub) := by
  have hword (r a b : BitVec w) : a + r - b - r = a - b := by ring
  refine mask hw fun _ r => ?_
  refine bind (op rfl) fun s => ?_
  refine bind (op rfl) fun s' => ?_
  exact of_eq (op rfl) (hword r)

theorem subRand2 :
    Gives expand true (operands w) (Rule.subRand2.build .left .right) (onBits .sub) := by
  have hword (r a b : BitVec w) : a - r - b + r = a - b := by ring
  refine mask hw fun _ r => ?_
  refine bind (op rfl) fun s => ?_
  refine bind (op rfl) fun s' => ?_
  exact of_eq (op rfl) (hword r)

theorem subSubstitution :
    Gives expand true (operands w) (Rule.subSubstitution.build .left .right) (onBits .sub) := by
  have hword (a b : BitVec w) : (a &&& ~~~b) - (~~~a &&& b) = a - b := by
    obtain ⟨m, p, q, ha, hb, -, -, -, hp, hq⟩ := Bits.exists_parts a b
    rw [hp, hq, ha, hb]
    ring
  refine bind (not hw) fun nx => ?_
  refine bind (op rfl) fun onlyY => ?_
  refine bind (not hw) fun ny => ?_
  refine bind (op rfl) fun onlyX => ?_
  exact of_eq (op rfl) hword

theorem subSubstitution2 :
    Gives expand true (operands w) (Rule.subSubstitution2.build .left .right) (onBits .sub) := by
  have hword (a b : BitVec w) : toBits w 2 * (a &&& ~~~b) - (a ^^^ b) = a - b := by
    obtain ⟨m, p, q, ha, hb, -, -, hxor, hp, -⟩ := Bits.exists_parts a b
    rw [hp, hxor, toBits_two, ha, hb]
    ring
  refine bind (op rfl) fun differ => ?_
  refine bind (not hw) fun ny => ?_
  refine bind (op rfl) fun onlyX => ?_
  refine bind (const hw 2) fun two => ?_
  refine bind (op rfl) fun twice => ?_
  exact of_eq (op rfl) hword

theorem subSubstitution3 :
    Gives expand true (operands w) (Rule.subSubstitution3.build .left .right) (onBits .sub) := by
  have hword (a b : BitVec w) : a + ~~~b + toBits w 1 = a - b := by
    rw [toBits_one, Bits.not_eq]
    ring
  refine bind (not hw) fun ny => ?_
  refine bind (op rfl) fun s => ?_
  refine bind (const hw 1) fun one => ?_
  exact of_eq (op rfl) hword

theorem mulSubstitution :
    Gives expand true (operands w) (Rule.mulSubstitution.build .left .right) (onBits .mul) := by
  have hword (a b : BitVec w) : (a ||| b) * (a &&& b) + (a &&& ~~~b) * (b &&& ~~~a) = a * b := by
    obtain ⟨m, p, q, ha, hb, hand, hor, -, hp, hq⟩ := Bits.exists_parts a b
    rw [BitVec.and_comm b (~~~a), hp, hq, hand, hor, ha, hb]
    ring
  refine bind (not hw) fun nx => ?_
  refine bind (op rfl) fun onlyY => ?_
  refine bind (not hw) fun ny => ?_
  refine bind (op rfl) fun onlyX => ?_
  refine bind (op rfl) fun cross => ?_
  refine bind (op rfl) fun both => ?_
  refine bind (op rfl) fun any => ?_
  refine bind (op rfl) fun main => ?_
  exact of_eq (op rfl) hword

theorem mulSubstitution2 :
    Gives expand true (operands w) (Rule.mulSubstitution2.build .left .right) (onBits .mul) := by
  have hword (a b : BitVec w) : (a ||| b) * (a &&& b) + ~~~(a ||| ~~~b) * (a &&& ~~~b) = a * b := by
    obtain ⟨m, p, q, ha, hb, hand, hor, -, hp, hq⟩ := Bits.exists_parts a b
    rw [BitVec.not_or, BitVec.not_not, hp, hq, hand, hor, ha, hb]
    ring
  refine bind (not hw) fun ny => ?_
  refine bind (op rfl) fun onlyX => ?_
  refine bind (op rfl) fun rest => ?_
  refine bind (not hw) fun onlyY => ?_
  refine bind (op rfl) fun cross => ?_
  refine bind (op rfl) fun both => ?_
  refine bind (op rfl) fun any => ?_
  refine bind (op rfl) fun main => ?_
  exact of_eq (op rfl) hword

theorem andSubstitution :
    Gives expand true (operands w) (Rule.andSubstitution.build .left .right) (onBits .and) := by
  have hword (a b : BitVec w) : (a ^^^ ~~~b) &&& a = a &&& b := by
    ext i hi
    simp only [BitVec.getElem_and, BitVec.getElem_xor, BitVec.getElem_not]
    cases a[i] <;> cases b[i] <;> rfl
  refine bind (not hw) fun ny => ?_
  refine bind (op rfl) fun same => ?_
  exact of_eq (op rfl) hword

theorem andSubstitutionRand :
    Gives expand true (operands w) (Rule.andSubstitutionRand.build .left .right) (onBits .and) := by
  have hword (r a b : BitVec w) : ~~~(~~~a ||| ~~~b) &&& (r ||| ~~~r) = a &&& b := by
    ext i hi
    simp only [BitVec.getElem_and, BitVec.getElem_or, BitVec.getElem_not]
    cases a[i] <;> cases b[i] <;> cases r[i] <;> rfl
  refine mask hw fun _ r => ?_
  refine bind (not hw) fun nx => ?_
  refine bind (not hw) fun ny => ?_
  refine bind (not hw) fun nr => ?_
  refine bind (op rfl) fun any => ?_
  refine bind (op rfl) fun ones => ?_
  refine bind (not hw) fun both => ?_
  exact of_eq (op rfl) (hword r)

theorem andSubstitution2 :
    Gives expand true (operands w) (Rule.andSubstitution2.build .left .right) (onBits .and) := by
  have hword (a b : BitVec w) : (a ||| b) &&& ~~~(a ^^^ b) = a &&& b := by
    ext i hi
    simp only [BitVec.getElem_and, BitVec.getElem_or, BitVec.getElem_xor, BitVec.getElem_not]
    cases a[i] <;> cases b[i] <;> rfl
  refine bind (op rfl) fun differ => ?_
  refine bind (not hw) fun same => ?_
  refine bind (op rfl) fun any => ?_
  exact of_eq (op rfl) hword

theorem andSubstitution3 :
    Gives expand true (operands w) (Rule.andSubstitution3.build .left .right) (onBits .and) := by
  have hword (a b : BitVec w) : (~~~a ||| b) + (a + toBits w 1) = a &&& b := by
    obtain ⟨m, p, q, ha, hb, hand, -, -, hp, -⟩ := Bits.exists_parts a b
    have hnot : ~~~a ||| b = ~~~(a &&& ~~~b) := by rw [BitVec.not_and, BitVec.not_not]
    rw [hnot, hand, hp, Bits.not_eq, toBits_one, ha]
    ring
  refine bind (const hw 1) fun one => ?_
  refine bind (op rfl) fun next => ?_
  refine bind (not hw) fun nx => ?_
  refine bind (op rfl) fun s => ?_
  exact of_eq (op rfl) hword

theorem andNor : Gives expand true (operands w) (Rule.andNor.build .left .right) (onBits .and) := by
  have hword (a b : BitVec w) : ~~~(~~~(a ||| a) ||| ~~~(b ||| b)) = a &&& b := by
    ext i hi
    simp only [BitVec.getElem_and, BitVec.getElem_or, BitVec.getElem_not]
    cases a[i] <;> cases b[i] <;> rfl
  refine bind (nor hw) fun nx => ?_
  refine bind (nor hw) fun ny => ?_
  exact of_eq (nor hw) hword

theorem andNand :
    Gives expand true (operands w) (Rule.andNand.build .left .right) (onBits .and) := by
  have hword (a b : BitVec w) : ~~~(~~~(a &&& b) &&& ~~~(a &&& b)) = a &&& b := by
    ext i hi
    simp only [BitVec.getElem_and, BitVec.getElem_not]
    cases a[i] <;> cases b[i] <;> rfl
  refine bind (nand hw) fun n => ?_
  refine bind (nand hw) fun n' => ?_
  exact of_eq (nand hw) hword

omit hw in
theorem orSubstitution :
    Gives expand true (operands w) (Rule.orSubstitution.build .left .right) (onBits .or) := by
  have hword (a b : BitVec w) : (a &&& b) ||| (a ^^^ b) = a ||| b := by
    ext i hi
    simp only [BitVec.getElem_and, BitVec.getElem_or, BitVec.getElem_xor]
    cases a[i] <;> cases b[i] <;> rfl
  refine bind (op rfl) fun both => ?_
  refine bind (op rfl) fun differ => ?_
  exact of_eq (op rfl) hword

theorem orSubstitutionRand :
    Gives expand true (operands w) (Rule.orSubstitutionRand.build .left .right) (onBits .or) := by
  have hword (r a b : BitVec w) :
      (((~~~a &&& r) ||| (a &&& ~~~r)) ^^^ ((~~~b &&& r) ||| (b &&& ~~~r))) |||
        (~~~(~~~a ||| ~~~b) &&& (r ||| ~~~r)) = a ||| b := by
    ext i hi
    simp only [BitVec.getElem_and, BitVec.getElem_or, BitVec.getElem_xor, BitVec.getElem_not]
    cases a[i] <;> cases b[i] <;> cases r[i] <;> rfl
  refine mask hw fun _ r => ?_
  refine bind (not hw) fun nx => ?_
  refine bind (not hw) fun ny => ?_
  refine bind (not hw) fun nr => ?_
  refine bind (op rfl) fun onlyR => ?_
  refine bind (op rfl) fun onlyX => ?_
  refine bind (op rfl) fun onlyR' => ?_
  refine bind (op rfl) fun onlyY => ?_
  refine bind (op rfl) fun maskedX => ?_
  refine bind (op rfl) fun maskedY => ?_
  refine bind (op rfl) fun differ => ?_
  refine bind (op rfl) fun any => ?_
  refine bind (not hw) fun both => ?_
  refine bind (op rfl) fun ones => ?_
  refine bind (op rfl) fun both' => ?_
  exact of_eq (op rfl) (hword r)

theorem orSubstitution2 :
    Gives expand true (operands w) (Rule.orSubstitution2.build .left .right) (onBits .or) := by
  have hword (a b : BitVec w) : a + (a ^^^ b) - (a &&& ~~~b) = a ||| b := by
    obtain ⟨m, p, q, ha, -, -, hor, hxor, hp, -⟩ := Bits.exists_parts a b
    rw [hor, hxor, hp, ha]
    ring
  refine bind (not hw) fun ny => ?_
  refine bind (op rfl) fun onlyX => ?_
  refine bind (op rfl) fun differ => ?_
  refine bind (op rfl) fun s => ?_
  exact of_eq (op rfl) hword

theorem orSubstitution3 :
    Gives expand true (operands w) (Rule.orSubstitution3.build .left .right) (onBits .or) := by
  have hword (a b : BitVec w) : a + b + toBits w 1 + ~~~(b &&& a) = a ||| b := by
    obtain ⟨m, p, q, ha, hb, hand, hor, -⟩ := Bits.exists_parts a b
    rw [BitVec.and_comm b a, hand, hor, Bits.not_eq, toBits_one, ha, hb]
    ring
  refine bind (op rfl) fun both => ?_
  refine bind (not hw) fun notBoth => ?_
  refine bind (op rfl) fun s => ?_
  refine bind (const hw 1) fun one => ?_
  refine bind (op rfl) fun s' => ?_
  exact of_eq (op rfl) hword

theorem orNor : Gives expand true (operands w) (Rule.orNor.build .left .right) (onBits .or) := by
  have hword (a b : BitVec w) : ~~~(~~~(a ||| b) ||| ~~~(a ||| b)) = a ||| b := by
    ext i hi
    simp only [BitVec.getElem_or, BitVec.getElem_not]
    cases a[i] <;> cases b[i] <;> rfl
  refine bind (nor hw) fun n => ?_
  refine bind (nor hw) fun n' => ?_
  exact of_eq (nor hw) hword

theorem orNand : Gives expand true (operands w) (Rule.orNand.build .left .right) (onBits .or) := by
  have hword (a b : BitVec w) : ~~~(~~~(a &&& a) &&& ~~~(b &&& b)) = a ||| b := by
    ext i hi
    simp only [BitVec.getElem_and, BitVec.getElem_or, BitVec.getElem_not]
    cases a[i] <;> cases b[i] <;> rfl
  refine bind (nand hw) fun nx => ?_
  refine bind (nand hw) fun ny => ?_
  exact of_eq (nand hw) hword

theorem xorSubstitution :
    Gives expand true (operands w) (Rule.xorSubstitution.build .left .right) (onBits .xor) := by
  have hword (a b : BitVec w) : (b &&& ~~~a) ||| (a &&& ~~~b) = a ^^^ b := by
    ext i hi
    simp only [BitVec.getElem_and, BitVec.getElem_or, BitVec.getElem_xor, BitVec.getElem_not]
    cases a[i] <;> cases b[i] <;> rfl
  refine bind (not hw) fun nx => ?_
  refine bind (op rfl) fun onlyY => ?_
  refine bind (not hw) fun ny => ?_
  refine bind (op rfl) fun onlyX => ?_
  exact of_eq (op rfl) hword

theorem xorSubstitutionRand :
    Gives expand true (operands w) (Rule.xorSubstitutionRand.build .left .right) (onBits .xor) := by
  have hword (r a b : BitVec w) :
      ((r &&& ~~~a) ||| (a &&& ~~~r)) ^^^ ((~~~b &&& r) ||| (b &&& ~~~r)) = a ^^^ b := by
    ext i hi
    simp only [BitVec.getElem_and, BitVec.getElem_or, BitVec.getElem_xor, BitVec.getElem_not]
    cases a[i] <;> cases b[i] <;> cases r[i] <;> rfl
  refine mask hw fun _ r => ?_
  refine bind (not hw) fun nx => ?_
  refine bind (op rfl) fun onlyR => ?_
  refine bind (not hw) fun nr => ?_
  refine bind (op rfl) fun onlyX => ?_
  refine bind (not hw) fun ny => ?_
  refine bind (op rfl) fun onlyR' => ?_
  refine bind (op rfl) fun onlyY => ?_
  refine bind (op rfl) fun maskedX => ?_
  refine bind (op rfl) fun maskedY => ?_
  exact of_eq (op rfl) (hword r)

theorem xorSubstitution2 :
    Gives expand true (operands w) (Rule.xorSubstitution2.build .left .right) (onBits .xor) := by
  have hword (a b : BitVec w) : a + b - toBits w 2 * (a &&& b) = a ^^^ b := by
    obtain ⟨m, p, q, ha, hb, hand, -, hxor, -⟩ := Bits.exists_parts a b
    rw [hand, hxor, toBits_two, ha, hb]
    ring
  refine bind (const hw 2) fun two => ?_
  refine bind (op rfl) fun both => ?_
  refine bind (op rfl) fun twice => ?_
  refine bind (op rfl) fun sum => ?_
  exact of_eq (op rfl) hword

theorem xorSubstitution3 :
    Gives expand true (operands w) (Rule.xorSubstitution3.build .left .right) (onBits .xor) := by
  have hword (a b : BitVec w) : a - (toBits w 2 * (b &&& ~~~(a ^^^ b)) - b) = a ^^^ b := by
    obtain ⟨m, p, q, ha, hb, hand, -, hxor, -⟩ := Bits.exists_parts a b
    have hsame : b &&& ~~~(a ^^^ b) = a &&& b := by
      ext i hi
      simp only [BitVec.getElem_and, BitVec.getElem_xor, BitVec.getElem_not]
      cases a[i] <;> cases b[i] <;> rfl
    rw [hsame, hand, hxor, toBits_two, ha, hb]
    ring
  refine bind (op rfl) fun differ => ?_
  refine bind (not hw) fun same => ?_
  refine bind (op rfl) fun both => ?_
  refine bind (const hw 2) fun two => ?_
  refine bind (op rfl) fun twice => ?_
  refine bind (op rfl) fun s => ?_
  exact of_eq (op rfl) hword

theorem xorNor : Gives expand true (operands w) (Rule.xorNor.build .left .right) (onBits .xor) := by
  have hword (a b : BitVec w) :
      ~~~(~~~(~~~(a ||| a) ||| ~~~(b ||| b)) ||| ~~~(a ||| b)) = a ^^^ b := by
    ext i hi
    simp only [BitVec.getElem_or, BitVec.getElem_xor, BitVec.getElem_not]
    cases a[i] <;> cases b[i] <;> rfl
  refine bind (nor hw) fun nx => ?_
  refine bind (nor hw) fun ny => ?_
  refine bind (nor hw) fun both => ?_
  refine bind (nor hw) fun neither => ?_
  exact of_eq (nor hw) hword

theorem xorNand :
    Gives expand true (operands w) (Rule.xorNand.build .left .right) (onBits .xor) := by
  have hword (a b : BitVec w) :
      ~~~(~~~(~~~(a &&& a) &&& b) &&& ~~~(a &&& ~~~(b &&& b))) = a ^^^ b := by
    ext i hi
    simp only [BitVec.getElem_and, BitVec.getElem_xor, BitVec.getElem_not]
    cases a[i] <;> cases b[i] <;> rfl
  refine bind (nand hw) fun nx => ?_
  refine bind (nand hw) fun notOnlyY => ?_
  refine bind (nand hw) fun ny => ?_
  refine bind (nand hw) fun notOnlyX => ?_
  exact of_eq (nand hw) hword

/-- Every rule for a code gives what an op of that code computes. -/
theorem of_table {code : Opcode} {rule : Rule} (h : rule ∈ Rule.table code) :
    Gives expand true (operands w) (rule.build .left .right) (onBits code) := by
  cases code with
  | add =>
    simp only [Rule.table, List.mem_cons, List.not_mem_nil, or_false] at h
    rcases h with rfl | rfl | rfl | rfl | rfl | rfl | rfl
    · exact addNeg hw expand
    · exact addDoubleNeg hw expand
    · exact addRand hw expand
    · exact addRand2 hw expand
    · exact addSubstitution hw expand
    · exact addSubstitution2 expand
    · exact addSubstitution3 hw expand
  | sub =>
    simp only [Rule.table, List.mem_cons, List.not_mem_nil, or_false] at h
    rcases h with rfl | rfl | rfl | rfl | rfl | rfl
    · exact subNeg hw expand
    · exact subRand hw expand
    · exact subRand2 hw expand
    · exact subSubstitution hw expand
    · exact subSubstitution2 hw expand
    · exact subSubstitution3 hw expand
  | mul =>
    simp only [Rule.table, List.mem_cons, List.not_mem_nil, or_false] at h
    rcases h with rfl | rfl
    · exact mulSubstitution hw expand
    · exact mulSubstitution2 hw expand
  | and =>
    simp only [Rule.table, List.mem_cons, List.not_mem_nil, or_false] at h
    rcases h with rfl | rfl | rfl | rfl | rfl | rfl
    · exact andSubstitution hw expand
    · exact andSubstitutionRand hw expand
    · exact andSubstitution2 hw expand
    · exact andSubstitution3 hw expand
    · exact andNor hw expand
    · exact andNand hw expand
  | or =>
    simp only [Rule.table, List.mem_cons, List.not_mem_nil, or_false] at h
    rcases h with rfl | rfl | rfl | rfl | rfl | rfl
    · exact orSubstitution expand
    · exact orSubstitutionRand hw expand
    · exact orSubstitution2 hw expand
    · exact orSubstitution3 hw expand
    · exact orNor hw expand
    · exact orNand hw expand
  | xor =>
    simp only [Rule.table, List.mem_cons, List.not_mem_nil, or_false] at h
    rcases h with rfl | rfl | rfl | rfl | rfl | rfl
    · exact xorSubstitution hw expand
    · exact xorSubstitutionRand hw expand
    · exact xorSubstitution2 hw expand
    · exact xorSubstitution3 hw expand
    · exact xorNor hw expand
    · exact xorNand hw expand
  | _ => cases h

end

end Gives

/-- The last step of a chain is its result and has the reading `z`. -/
def Ends (w : Nat) (z : Reading w) (c : Chain) : Prop :=
  ∃ vals, Chain.Reads c.steps (vals ++ [z]) ∧ c.result = .step vals.length

/-- A building program that gives a placed term makes a chain that ends with it. -/
theorem always_ends {w : Nat} {expand : Bool} {build : Term → Term → Build Term} {z : Reading w}
    (h : Gives expand true (operands w) (build .left .right) z) :
    Always (Chain.of build ⟨w, expand⟩) (Ends w z) := by
  refine (h [] [] .nil ?_).bind ?_
  · intro k hk
    simp only [operands, List.mem_cons, List.not_mem_nil, or_false] at hk
    rcases hk with rfl | rfl
    · exact .left
    · exact .right
  · rintro ⟨t, steps⟩ ⟨vals, hsteps, ht, hplaced⟩
    obtain ⟨i, rfl, hlen⟩ := hplaced rfl
    rw [List.nil_append] at hsteps ht
    cases ht with
    | step hi =>
      have hsize := hsteps.length_eq
      dsimp only at hlen hsize
      rcases List.eq_nil_or_concat vals with rfl | ⟨init, last, rfl⟩
      · cases hi
      · rw [List.concat_eq_append] at hsteps hsize hi
        rw [List.length_append, List.length_singleton] at hsize
        obtain rfl : i = init.length := by omega
        obtain rfl : last = z := by simpa using hi
        exact .pure ⟨init, hsteps, rfl⟩

end Chain

theorem Rule.mem_replaceable {code : Opcode} {rule : Rule} (h : rule ∈ Rule.table code) :
    code ∈ Rule.replaceable := by
  cases code <;> first | decide | cases h

theorem Rule.code_of_table {code : Opcode} {rule : Rule} (h : rule ∈ Rule.table code) :
    rule.code = code := by
  have hcode := Rule.mem_replaceable h
  simp only [Rule.replaceable, List.mem_cons, List.not_mem_nil, or_false] at hcode
  rcases hcode with rfl | rfl | rfl | rfl | rfl | rfl <;>
    simp only [Rule.table, List.mem_cons, List.not_mem_nil, or_false] at h <;>
    rcases h with rfl | rfl | rfl | rfl | rfl | rfl | rfl <;> rfl

end Disguise
