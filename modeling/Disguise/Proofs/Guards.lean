import Disguise.Proofs.Limits

/-!
Guards. An op whose divisor was made odd, whose signed dividend was halved or whose shift amount was
reduced modulo the width cannot fail, and a function that branches forward only cannot enter a
block twice; so a function of such ops returns a value on all arguments (`run_returned`).
-/
namespace Disguise
open Arithmetic Execution Word

namespace Graph

/-- The operand is the result of an operation on some operand and a constant, all of one width. -/
def Combines (g : Graph) (bits : Int) (code : Opcode) (k : UInt64) (v : Operand) : Prop :=
  ∃ d x, v = .result d ∧ (g.op d).code = code ∧ (g.op d).bits = bits ∧
    (g.op d).args = [some x, some (.const ⟨k, bits⟩)]

/-- What keeps an op with the given contents from failing. -/
inductive Guarded (g : Graph) (code : Opcode) (bits : Int) (args : List (Option Operand)) : Prop
  | free (free : code ∉ [Opcode.udiv, .urem, .sdiv, .srem, .shl, .lshr, .ashr])
  | quotient {x y : Operand} (among : code = .udiv ∨ code = .urem)
      (slots : args = [some x, some y]) (odd : g.Combines bits .or 1 y)
  | remainder {x : Operand} (among : code = .urem)
      (slots : args = [some x, some (.const ⟨UInt64.ofInt bits, bits⟩)])
  | signed {x y : Operand} (among : code = .sdiv ∨ code = .srem)
      (slots : args = [some x, some y]) (half : g.Combines bits .lshr 1 x)
      (odd : g.Combines bits .or 1 y)
  | half {x : Operand} (among : code = .lshr) (wide : 1 < bits)
      (slots : args = [some x, some (.const ⟨1, bits⟩)])
  | shift {x y : Operand} (among : code = .shl ∨ code = .lshr ∨ code = .ashr)
      (slots : args = [some x, some y]) (short : g.Combines bits .urem (UInt64.ofInt bits) y)

/-- Terminators do not fail. -/
theorem Guarded.of_terminator {g : Graph} {code : Opcode} {bits : Int}
    {args : List (Option Operand)} (h : code.isTerminator) : g.Guarded code bits args :=
  .free (by cases code <;> simp_all [Opcode.isTerminator])

/-- An op stays guarded in graphs that have the same binary ops. -/
theorem Guarded.mono {g g' : Graph} {code : Opcode} {bits : Int} {args : List (Option Operand)}
    (h : g.Guarded code bits args)
    (hc : ∀ k c v, c.isBinary → g.Combines bits c k v → g'.Combines bits c k v) :
    g'.Guarded code bits args := by
  cases h with
  | free free => exact .free free
  | quotient among slots odd => exact .quotient among slots (hc _ _ _ rfl odd)
  | remainder among slots => exact .remainder among slots
  | signed among slots half odd =>
    exact .signed among slots (hc _ _ _ rfl half) (hc _ _ _ rfl odd)
  | half among wide slots => exact .half among wide slots
  | shift among slots short => exact .shift among slots (hc _ _ _ rfl short)

/-- All ops of a function are guarded. -/
def AllGuarded (g : Graph) (f : FuncId) : Prop :=
  ∀ u ∈ g.opsOf f, g.Guarded (g.op u).code (g.op u).bits (g.op u).args

/-- Branches lead from each block of a function to blocks further down. -/
def Forward (g : Graph) (f : FuncId) : Prop :=
  ∀ i b, (g.func f).blocks[i]? = some b → ∀ u ∈ (g.block b).ops, ∀ t, some t ∈ (g.op u).targets →
    ∃ k : Nat, i < k ∧ (g.func f).blocks[k]? = some t

theorem Forward.targetsListed {g : Graph} {f : FuncId} (h : g.Forward f) : g.TargetsListed f := by
  intro o ho t ht
  obtain ⟨b, hb, hob⟩ := mem_opsOf.1 ho
  obtain ⟨i, hi⟩ := List.getElem?_of_mem hb
  obtain ⟨k, -, hk⟩ := h i b hi o hob t ht
  exact List.mem_of_getElem? hk

end Graph

namespace Arithmetic
variable {bits : Int} {x y z : UInt64}

theorem toNat_ofInt (hg : goodWidth bits) : ((UInt64.ofInt bits).toNat : Int) = bits := by
  obtain ⟨w, rfl, h1, h2⟩ := goodWidth_iff.1 hg
  simp [UInt64.ofInt]
  omega

variable [FloatUnit]

theorem odd_of_or (hg : goodWidth bits) (h : evalBinary .or bits x 1 = .ok z) :
    z.toNat % 2 = 1 := by
  obtain ⟨w, rfl, h1, h2⟩ := goodWidth_iff.1 hg
  simp only [evalBinary, cut_of_good hg, Except.ok.injEq] at h
  have hdvd : 2 ∣ 2 ^ w := dvd_pow_self 2 (by omega)
  rw [← h, Int.toNat_natCast, toNat_low _ h2, Nat.mod_mod_of_dvd _ hdvd]
  simp

theorem lt_of_half (hg : goodWidth bits) (hx : fits x bits)
    (h : evalBinary .lshr bits x 1 = .ok z) : z.toNat < 2 ^ (bits - 1).toNat := by
  obtain ⟨w, rfl, h1, h2⟩ := goodWidth_iff.1 hg
  have hlt := (fits_iff hg).1 hx
  simp only [evalBinary, shift] at h
  split at h
  · cases h
  · rw [if_neg (by decide), cut_of_good hg] at h
    have hpow : 2 ^ w = 2 * 2 ^ (w - 1) := by
      rw [← Nat.pow_succ']
      congr 1
      omega
    have hle := Nat.mod_le (x >>> 1).toNat (2 ^ w)
    rw [← Except.ok.inj h, Int.toNat_natCast, toNat_low _ h2]
    have hexp : ((w : Int) - 1).toNat = w - 1 := by omega
    have hdiv : (x >>> 1).toNat = x.toNat / 2 := by
      simp [UInt64.toNat_shiftRight, Nat.shiftRight_one]
    rw [Int.toNat_natCast] at hlt
    rw [hexp]
    omega

theorem lt_of_remainder (hg : goodWidth bits)
    (h : evalBinary .urem bits x (UInt64.ofInt bits) = .ok z) : (z.toNat : Int) < bits := by
  have hn := toNat_ofInt hg
  obtain ⟨w, rfl, h1, h2⟩ := goodWidth_iff.1 hg
  simp only [evalBinary] at h
  split at h
  · cases h
  · rw [cut_of_good hg] at h
    have hle := Nat.mod_le (x % UInt64.ofInt w).toNat (2 ^ w)
    have hlt : (x % UInt64.ofInt w).toNat < w := by
      rw [UInt64.toNat_mod]
      have := Nat.mod_lt x.toNat (show 0 < (UInt64.ofInt w).toNat by omega)
      omega
    rw [← Except.ok.inj h, Int.toNat_natCast, toNat_low _ h2]
    omega

theorem division_ne_error {code : Opcode} {c : Fault} (hg : goodWidth bits)
    (hcode : code = .udiv ∨ code = .urem) (hy : y ≠ 0) : evalBinary code bits x y ≠ .error c := by
  rcases hcode with rfl | rfl <;> simp [evalBinary, hy, cut_of_good hg]

theorem signedDivision_ne_error {code : Opcode} {c : Fault} (hg : goodWidth bits)
    (hcode : code = .sdiv ∨ code = .srem) (hx : x.toNat < 2 ^ (bits - 1).toNat)
    (hy : y.toNat % 2 = 1) : evalBinary code bits x y ≠ .error c := by
  obtain ⟨w, rfl, h1, h2⟩ := goodWidth_iff.1 hg
  have hodd : (toBits w y).toNat % 2 = 1 := by
    rw [toNat_toBits, Nat.mod_mod_of_dvd _ (dvd_pow_self 2 (by omega)), hy]
  have hzero : extend y w ≠ 0 := by
    intro hzero
    have hread := toInt_extend h1 h2 y
    rw [hzero, Int64.toInt_zero, BitVec.toInt_eq_toNat_cond] at hread
    have := (toBits w y).isLt
    split at hread <;> omega
  have hne : ¬ x = 1 <<< UInt64.ofInt (w - 1) := by
    intro heq
    have hexp : ((w : Int) - 1) = ((w - 1 : Nat) : Int) := by omega
    rw [heq, hexp, toNat_one_shiftLeft (by omega), Int.toNat_natCast] at hx
    exact Nat.lt_irrefl _ hx
  have heval : evalBinary code w x y = signedDivision code w x y := by
    rcases hcode with rfl | rfl <;> rfl
  rw [heval, signedDivision, if_neg hzero, if_neg fun h => hne h.2, cut_of_good hg]
  simp

theorem shift_ne_error {code : Opcode} {c : Fault} (hg : goodWidth bits)
    (hcode : code = .shl ∨ code = .lshr ∨ code = .ashr) (hy : (y.toNat : Int) < bits) :
    evalBinary code bits x y ≠ .error c := by
  have hshort : ¬ UInt64.ofInt bits ≤ y := by
    rw [UInt64.le_iff_toNat_le]
    have := toNat_ofInt hg
    omega
  rcases hcode with rfl | rfl | rfl <;> simp only [evalBinary, shift, if_neg hshort] <;> split <;>
    simp [cut_of_good hg]

/-- The operations that are no division and no shift always have a result. -/
theorem evalBinary_ne_error {code : Opcode} {c : Fault} (hc : code.isBinary) (hg : goodWidth bits)
    (hf : code.isFloat → bits = 32 ∨ bits = 64)
    (hcode : code ∉ [Opcode.udiv, .urem, .sdiv, .srem, .shl, .lshr, .ashr]) :
    evalBinary code bits x y ≠ .error c := by
  have hfloat : code.isFloat → float code bits x y ≠ .error c := by
    intro hfl herr
    obtain ⟨z, hz, -⟩ : ∃ z, float code bits x y = .ok z ∧ fits z bits := float_eq_ok (hf hfl)
    rw [hz] at herr
    cases herr
  cases code <;> simp_all [evalBinary, cut_of_good, Opcode.isBinary, Opcode.isFloat]

end Arithmetic

variable [FloatUnit]

namespace Graph
variable {g : Graph} {f : FuncId} {env : Env}

/-- A combined operand has the value that its operation gives for some operand. -/
theorem Combines.denotes {bits : Int} {code : Opcode} {k z : UInt64} {v : Operand}
    (h : g.Combines bits code k v) (hcode : code.isBinary) (hz : Denotes g env v z) :
    ∃ a, evalBinary code bits a k = .ok z := by
  obtain ⟨d, x, rfl, rfl, rfl, hargs⟩ := h
  obtain ⟨a, b, -, right, value⟩ := hz.of_binary hcode hargs
  cases right
  exact ⟨a, value⟩

/-- That operand fits the width if the op is one of the function. -/
theorem Combines.denotes_fits {bits : Int} {code : Opcode} {k z : UInt64} {v : Operand}
    {w : Int} {u : OpId} (h : g.Combines bits code k v) (hcode : code.isBinary)
    (wf : g.WellFormed f) (hp : g.ParamsFit f env) (hv : g.OperandOk f u w v)
    (hz : Denotes g env v z) : ∃ a, fits a bits ∧ evalBinary code bits a k = .ok z := by
  obtain ⟨d, x, rfl, rfl, rfl, hargs⟩ := h
  obtain ⟨a, b, left, right, value⟩ := hz.of_binary hcode hargs
  cases right
  obtain ⟨-, -, hx, -⟩ := (wf.form d hv.1).of_binary hcode hargs
  exact ⟨a, wf.fits_of_denotes hp hx left, value⟩

/-- A guarded op does not fail. -/
theorem Guarded.not_fails (wf : g.WellFormed f) (hp : g.ParamsFit f env) {u : OpId}
    (hu : u ∈ g.opsOf f) (h : g.Guarded (g.op u).code (g.op u).bits (g.op u).args) (c : Fault) :
    ¬ Acts g env u (.fail c) := by
  intro hfail
  cases hfail with
  | @fail v w x y _ code args left right fault =>
  obtain ⟨width, float, hv, -⟩ := (wf.form u hu).of_binary code args
  -- the operands that a guard speaks of are those of the failing op
  have same : ∀ {v' w'}, (g.op u).args = [some v', some w'] → v' = v ∧ w' = w := by
    intro v' w' hargs
    rw [args] at hargs
    simp only [List.cons.injEq, Option.some.injEq, and_true] at hargs
    exact ⟨hargs.1.symm, hargs.2.symm⟩
  have odd_of : g.Combines (g.op u).bits .or 1 w → y.toNat % 2 = 1 := by
    intro hodd
    obtain ⟨a, hval⟩ := hodd.denotes rfl right
    exact odd_of_or width hval
  cases h with
  | free free => exact evalBinary_ne_error code width float free fault
  | quotient hcode hargs odd =>
    obtain ⟨rfl, rfl⟩ := same hargs
    have hodd := odd_of odd
    refine division_ne_error width hcode ?_ fault
    rintro rfl
    simp at hodd
  | remainder hcode hargs =>
    obtain ⟨rfl, rfl⟩ := same hargs
    cases right
    have hval := toNat_ofInt width
    refine division_ne_error width (.inr hcode) (fun hzero => ?_) fault
    rw [show UInt64.ofInt (g.op u).bits = 0 from hzero] at hval
    simp [← hval, goodWidth] at width
  | signed hcode hargs half odd =>
    obtain ⟨rfl, rfl⟩ := same hargs
    obtain ⟨a, hfit, hval⟩ := half.denotes_fits rfl wf hp hv left
    exact signedDivision_ne_error width hcode (lt_of_half width hfit hval) (odd_of odd) fault
  | half hcode wide hargs =>
    obtain ⟨rfl, rfl⟩ := same hargs
    cases right
    exact shift_ne_error width (.inr (.inl hcode)) (by simpa using wide) fault
  | shift hcode hargs short =>
    obtain ⟨rfl, rfl⟩ := same hargs
    obtain ⟨a, hval⟩ := short.denotes rfl right
    exact shift_ne_error width hcode (lt_of_remainder width hval) fault

/-- A block is left by a branch to a target of one of its ops. -/
theorem mem_targets_of_fate {ops : List OpId} {t : BlockId} (h : Fate g env ops (.goto t)) :
    ∃ o ∈ ops, some t ∈ (g.op o).targets := by
  generalize ha : Action.goto t = a at h
  induction h with
  | skip _ _ ih =>
    obtain ⟨o, ho, hmem⟩ := ih ha
    exact ⟨o, by simp [ho], hmem⟩
  | @stop o _ _ acts _ =>
    subst ha
    refine ⟨o, by simp, ?_⟩
    cases acts with
    | br code targets => simp [targets]
    | brif code args targets arg =>
      rw [targets]
      split <;> simp

/-- The blocks of a walk stand at its start or further down. -/
theorem Forward.le_of_walk (h : g.Forward f) {way : List BlockId} {b c : BlockId}
    (hw : Walk g env way b c) {i : Nat} (hi : (g.func f).blocks[i]? = some b) :
    ∀ d ∈ way ++ [c], ∃ k, i ≤ k ∧ (g.func f).blocks[k]? = some d := by
  induction hw generalizing i with
  | here => simpa using ⟨i, Nat.le_refl i, hi⟩
  | step first later ih =>
    obtain ⟨o, ho, htarget⟩ := mem_targets_of_fate first
    obtain ⟨j, hij, hj⟩ := h i _ hi o ho _ htarget
    intro d hd
    rcases List.mem_cons.1 hd with rfl | hd
    · exact ⟨i, Nat.le_refl i, hi⟩
    · obtain ⟨k, hjk, hk⟩ := ih hj d hd
      exact ⟨k, by omega, hk⟩

theorem Forward.nodup_of_walk (h : g.Forward f) (hn : (g.func f).blocks.Nodup) {way : List BlockId}
    {b c : BlockId} (hw : Walk g env way b c) {i : Nat} (hi : (g.func f).blocks[i]? = some b) :
    way.Nodup := by
  induction hw generalizing i with
  | here => exact .nil
  | step first later ih =>
    obtain ⟨o, ho, htarget⟩ := mem_targets_of_fate first
    obtain ⟨j, hij, hj⟩ := h i _ hi o ho _ htarget
    refine List.nodup_cons.2 ⟨fun hmem => ?_, ih hj⟩
    obtain ⟨k, hjk, hk⟩ := h.le_of_walk later hj _ (List.mem_append_left _ hmem)
    have : i = k := (List.getElem?_inj (List.getElem?_eq_some_iff.1 hi).1 hn).1 (hi.trans hk.symm)
    omega

/-- The last action of a block is that of one of its ops. -/
theorem exists_acts_of_fate {ops : List OpId} {a : Action} (h : Fate g env ops a) :
    ∃ o ∈ ops, Acts g env o a := by
  induction h with
  | skip _ _ ih =>
    obtain ⟨o, ho, hacts⟩ := ih
    exact ⟨o, by simp [ho], hacts⟩
  | stop acts _ => exact ⟨_, by simp, acts⟩

/-- A function of guarded ops that branches forward only returns a value. -/
theorem run_returned {args : List UInt64} {limit : Int} (wf : g.WellFormed f) (hf : g.Forward f)
    (hg : g.AllGuarded f) (hd : (g.func f).isDeclaration = false)
    (hargs : args.length = (g.func f).params.length) (hlimit : limit ≤ 0 ∨ g.numOps f ≤ limit) :
    ∃ v, g.run f args limit = .returned v := by
  have ht := hf.targetsListed
  obtain ⟨entry, env, hentry, hbind, hops, hp, -⟩ := exists_start wf hd hargs
  obtain ⟨rest, hblocks⟩ := List.head?_eq_some_iff.1 hentry
  have hfree : ∀ n ≤ (0 : Int), g.run f args n = runBlocks g (g.blocks.size + 1) entry env none :=
    fun n hn => run_of_entry hblocks hargs hbind hn
  have hstart := sound_enter wf hentry hops none
  have hfirst : (g.func f).blocks[0]? = some entry := by rw [hblocks]; rfl
  have hreturn : ∃ v, g.run f args 0 = .returned v := by
    rw [hfree 0 (Int.le_refl 0)]
    rcases exists_walk wf ht hp (g.blocks.size + 1) hstart with ⟨way, c, hw, hlen, -⟩ |
      ⟨way, c, a, hw, -, hfate, hout⟩
    · exact absurd (hf.nodup_of_walk wf.blocksNodup hw hfirst) (hw.not_nodup_of_long (by omega))
    · generalize runBlocks g (g.blocks.size + 1) entry env none = out at hout
      cases hout with
      | ret _ => exact ⟨_, rfl⟩
      | fail _ =>
        obtain ⟨o, ho, hacts⟩ := exists_acts_of_fate hfate
        obtain ⟨k, -, hk⟩ := hf.le_of_walk hw hfirst c (by simp)
        have hmem : o ∈ g.opsOf f := mem_opsOf.2 ⟨c, List.mem_of_getElem? hk, ho⟩
        exact absurd hacts ((hg o hmem).not_fails wf hp hmem _)
  rcases Int.lt_or_le 0 limit with hpos | hle
  · obtain ⟨v, hv⟩ := hreturn
    rw [run_eq_of_numOps_le wf ht hd hargs hpos (by omega) (by simp [hv])]
    exact ⟨v, hv⟩
  · rwa [hfree limit hle, ← hfree 0 (Int.le_refl 0)]

end Graph
end Disguise
