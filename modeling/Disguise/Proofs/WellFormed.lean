import Disguise.Proofs.Lookup
import Disguise.Proofs.Results
import Disguise.Proofs.UseCount
import Disguise.Validity
import Mathlib.Data.List.Nodup

/-!
Well-formed functions, said without the order in which `validate` looks at things.
`Disguise.Proofs.Checking` shows that these are the functions that are accepted.
-/
namespace Disguise

theorem Opcode.not_isUnary_of_isBinary {c : Opcode} (h : c.isBinary) : c.isUnary = false := by
  cases c <;> simp_all [Opcode.isBinary, Opcode.isUnary]

theorem Opcode.not_isTerminator_of_isBinary {c : Opcode} (h : c.isBinary) :
    c.isTerminator = false := by
  cases c <;> simp_all [Opcode.isBinary, Opcode.isTerminator]

theorem Opcode.not_isTerminator_of_isUnary {c : Opcode} (h : c.isUnary) :
    c.isTerminator = false := by
  cases c <;> simp_all [Opcode.isUnary, Opcode.isTerminator]

namespace Graph

/-- The number of operand slots of `u` that hold `v`. -/
def slots (g : Graph) (u : OpId) (v : Operand) : Nat := (g.op u).args.count (some v)

/-- The number of slots of `u` that are on record for `v`; constants keep no record. -/
def recorded (g : Graph) (v : Operand) (u : OpId) : Nat :=
  match v with
  | .const _ => 0
  | .param p => (g.param p).uses.count u
  | .result o => (g.op o).uses.count u

/-- The params and ops of a function. -/
def IsValue (g : Graph) (f : FuncId) : Operand → Prop
  | .const _ => False
  | .param p => p ∈ (g.func f).params
  | .result o => o ∈ g.opsOf f

/-- The result of `d` is known when `u` runs: `d` comes earlier in the same block or is in another
block that dominates the one of `u`. Nothing is asked of blocks that no path leads to. -/
def Available (g : Graph) (f : FuncId) (d u : OpId) : Prop :=
  ∀ (i j : Nat) (b c : BlockId) (above : PlaceSet), (g.func f).blocks[i]? = some b →
    d ∈ (g.block b).ops →
    (g.func f).blocks[j]? = some c → u ∈ (g.block c).ops →
    (g.dominators f)[j]? = some (some above) →
    if i = j then [d, u].Sublist (g.block b).ops else above.contains i

/-- An operand that an op of the function may hold in a slot of the given width. -/
def OperandOk (g : Graph) (f : FuncId) (u : OpId) (bits : Int) : Operand → Prop
  | .const c => c.bits = bits ∧ Word.fits c.val c.bits
  | .param p => p ∈ (g.func f).params ∧ (g.param p).bits = bits
  | .result d =>
    d ∈ g.opsOf f ∧ (g.op d).bits = bits ∧ (g.op d).code.isTerminator = false ∧ g.Available f d u

/-- The forms of ops, each with its operands and targets. -/
inductive OpForm (g : Graph) (f : FuncId) (u : OpId) : Prop
  | binary (x y : Operand) (code : (g.op u).code.isBinary)
      (args : (g.op u).args = [some x, some y]) (targets : (g.op u).targets = [])
      (width : Word.goodWidth (g.op u).bits)
      (float : (g.op u).code.isFloat → (g.op u).bits = 32 ∨ (g.op u).bits = 64)
      (left : g.OperandOk f u (g.op u).bits x) (right : g.OperandOk f u (g.op u).bits y)
  | unary (x : Operand) (code : (g.op u).code.isUnary) (args : (g.op u).args = [some x])
      (targets : (g.op u).targets = []) (width : Word.goodWidth (g.op u).bits)
      (operand : g.OperandOk f u (g.op u).bits x)
  | ret (x : Operand) (code : (g.op u).code = .ret) (args : (g.op u).args = [some x])
      (targets : (g.op u).targets = []) (operand : g.OperandOk f u (g.func f).retBits x)
  | br (t : BlockId) (code : (g.op u).code = .br) (args : (g.op u).args = [])
      (targets : (g.op u).targets = [some t]) (owner : (g.block t).owner = some f)
  | brif (x : Operand) (t e : BlockId) (code : (g.op u).code = .brif)
      (args : (g.op u).args = [some x]) (targets : (g.op u).targets = [some t, some e])
      (yes : (g.block t).owner = some f) (no : (g.block e).owner = some f)
      (operand : g.OperandOk f u 1 x)

namespace OpForm
variable {g : Graph} {f : FuncId} {u : OpId} {x y : Operand}

theorem of_isBinary (h : g.OpForm f u) (code : (g.op u).code.isBinary) :
    ∃ x y, (g.op u).args = [some x, some y] ∧ Word.goodWidth (g.op u).bits ∧
      ((g.op u).code.isFloat → (g.op u).bits = 32 ∨ (g.op u).bits = 64) ∧
      g.OperandOk f u (g.op u).bits x ∧ g.OperandOk f u (g.op u).bits y := by
  cases h with
  | binary x y _ args _ width float left right => exact ⟨x, y, args, width, float, left, right⟩
  | unary _ code' => simp [Opcode.not_isUnary_of_isBinary code] at code'
  | ret _ code' => simp [code', Opcode.isBinary] at code
  | br _ code' => simp [code', Opcode.isBinary] at code
  | brif _ _ _ code' => simp [code', Opcode.isBinary] at code

theorem of_binary (h : g.OpForm f u) (code : (g.op u).code.isBinary)
    (args : (g.op u).args = [some x, some y]) : Word.goodWidth (g.op u).bits ∧
      ((g.op u).code.isFloat → (g.op u).bits = 32 ∨ (g.op u).bits = 64) ∧
      g.OperandOk f u (g.op u).bits x ∧ g.OperandOk f u (g.op u).bits y := by
  obtain ⟨x', y', args', hrest⟩ := h.of_isBinary code
  rw [args] at args'
  simp only [List.cons.injEq, Option.some.injEq, and_true] at args'
  obtain ⟨rfl, rfl⟩ := args'
  exact hrest

theorem of_unary (h : g.OpForm f u) (code : (g.op u).code.isUnary)
    (args : (g.op u).args = [some x]) :
    Word.goodWidth (g.op u).bits ∧ g.OperandOk f u (g.op u).bits x := by
  cases h with
  | unary x' _ args' _ width operand =>
    rw [args] at args'
    simp only [List.cons.injEq, Option.some.injEq, and_true] at args'
    subst args'
    exact ⟨width, operand⟩
  | binary _ _ code' => simp [Opcode.not_isUnary_of_isBinary code'] at code
  | ret _ code' => simp [code', Opcode.isUnary] at code
  | br _ code' => simp [code', Opcode.isUnary] at code
  | brif _ _ _ code' => simp [code', Opcode.isUnary] at code

end OpForm

/-- The last op of a block ends it, and no other does. -/
def Ended (g : Graph) (ops : List OpId) : Prop :=
  ∃ body last, ops = body ++ [last] ∧ (g.op last).code.isTerminator ∧
    ∀ o ∈ body, (g.op o).code.isTerminator = false

structure WellFormed (g : Graph) (f : FuncId) : Prop where
  retWidth : Word.goodWidth (g.func f).retBits
  paramOwner : ∀ p ∈ (g.func f).params, (g.param p).func = some f
  paramWidth : ∀ p ∈ (g.func f).params, Word.goodWidth (g.param p).bits
  paramNames : ((g.func f).params.map fun p => (g.param p).name).Nodup
  blockOwner : ∀ b ∈ (g.func f).blocks, (g.block b).owner = some f
  blockNames : ((g.func f).blocks.map fun b => (g.block b).name).Nodup
  opOwner : ∀ b ∈ (g.func f).blocks, ∀ o ∈ (g.block b).ops, (g.op o).block = some b
  opsNodup : ∀ b ∈ (g.func f).blocks, (g.block b).ops.Nodup
  ended : ∀ b ∈ (g.func f).blocks, g.Ended (g.block b).ops
  form : ∀ u ∈ g.opsOf f, g.OpForm f u
  uses : ∀ v, g.IsValue f v → ∀ u, g.recorded v u = if u ∈ g.opsOf f then g.slots u v else 0

theorem mem_opsOf {g : Graph} {f : FuncId} {o : OpId} :
    o ∈ g.opsOf f ↔ ∃ b ∈ (g.func f).blocks, o ∈ (g.block b).ops := by
  simp [opsOf]

/-- A function grows by as many ops as one of its blocks does. -/
theorem numOps_of_block {g g' : Graph} {f : FuncId} {b : BlockId} {n : Nat}
    (hblocks : (g'.func f).blocks = (g.func f).blocks) (hn : (g.func f).blocks.Nodup)
    (hb : b ∈ (g.func f).blocks) (hother : ∀ c, c ≠ b → (g'.block c).ops = (g.block c).ops)
    (hlen : (g'.block b).ops.length = (g.block b).ops.length + n) :
    g'.numOps f = g.numOps f + n := by
  obtain ⟨l₁, l₂, hsplit⟩ := List.append_of_mem hb
  obtain ⟨hn₁, hn₂⟩ := not_mem_of_nodup hn hsplit
  have hsame : ∀ l : List BlockId, b ∉ l → l.flatMap (fun c => (g'.block c).ops) =
      l.flatMap fun c => (g.block c).ops := by
    refine fun l hl => List.flatMap_congr fun c hc => hother c ?_
    rintro rfl
    exact hl hc
  rw [numOps, numOps, opsOf, opsOf, hblocks, hsplit]
  simp only [List.flatMap_append, List.flatMap_cons, List.length_append, hsame l₂ hn₂,
    hsame l₁ hn₁, hlen]
  omega

/-- Blocks that list the ops they own have no op in common. -/
theorem nodup_opsOf {g : Graph} {f : FuncId} (hb : (g.func f).blocks.Nodup)
    (hn : ∀ b ∈ (g.func f).blocks, (g.block b).ops.Nodup)
    (ho : ∀ b ∈ (g.func f).blocks, ∀ o ∈ (g.block b).ops, (g.op o).block = some b) :
    (g.opsOf f).Nodup := by
  rw [opsOf, List.nodup_flatMap]
  refine ⟨hn, hb.imp_of_mem fun {b c} hb hc hne o hob hoc => hne ?_⟩
  exact Option.some.inj ((ho b hb o hob).symm.trans (ho c hc o hoc))

namespace WellFormed
variable {g : Graph} {f : FuncId} (wf : g.WellFormed f)
include wf

theorem blocksNodup : (g.func f).blocks.Nodup := wf.blockNames.of_map

theorem paramsNodup : (g.func f).params.Nodup := wf.paramNames.of_map

/-- An op of the function is listed by the block it belongs to and by no other. -/
theorem block_unique {b c : BlockId} {o : OpId} (hb : b ∈ (g.func f).blocks)
    (hc : c ∈ (g.func f).blocks) (ho : o ∈ (g.block b).ops) (ho' : o ∈ (g.block c).ops) :
    b = c :=
  Option.some.inj ((wf.opOwner b hb o ho).symm.trans (wf.opOwner c hc o ho'))

theorem opsOf_nodup : (g.opsOf f).Nodup := nodup_opsOf wf.blocksNodup wf.opsNodup wf.opOwner

theorem code_ne_invalid {u : OpId} (hu : u ∈ g.opsOf f) : (g.op u).code ≠ .invalid := by
  intro hcode
  cases wf.form u hu <;> simp_all [Opcode.isBinary, Opcode.isUnary]

theorem lt_size {u : OpId} (hu : u ∈ g.opsOf f) : u.idx < g.ops.size :=
  lt_size_of_code (wf.code_ne_invalid hu)

/-- Every slot of an op holds an operand that it may hold, at a proper width. -/
theorem exists_operandOk {u : OpId} {v : Option Operand} (hu : u ∈ g.opsOf f)
    (hv : v ∈ (g.op u).args) :
    ∃ w bits, v = some w ∧ Word.goodWidth bits ∧ g.OperandOk f u bits w := by
  cases wf.form u hu with
  | binary x y code args targets width float left right =>
    simp only [args, List.mem_cons, List.not_mem_nil, or_false] at hv
    rcases hv with hv | hv
    · exact ⟨x, _, hv, width, left⟩
    · exact ⟨y, _, hv, width, right⟩
  | unary x code args targets width operand =>
    exact ⟨x, _, by simpa [args] using hv, width, operand⟩
  | ret x code args targets operand =>
    exact ⟨x, _, by simpa [args] using hv, wf.retWidth, operand⟩
  | br t code args => simp [args] at hv
  | brif x t e code args targets yes no operand =>
    exact ⟨x, 1, by simpa [args] using hv, rfl, operand⟩

/-- Every branch leads to some block. -/
theorem exists_target {u : OpId} {t : Option BlockId} (hu : u ∈ g.opsOf f)
    (ht : t ∈ (g.op u).targets) : ∃ b, t = some b := by
  cases wf.form u hu with
  | binary x y code args targets => simp [targets] at ht
  | unary x code args targets => simp [targets] at ht
  | ret x code args targets => simp [targets] at ht
  | br b code args targets => exact ⟨b, by simpa [targets] using ht⟩
  | brif x b c code args targets =>
    simp only [targets, List.mem_cons, List.not_mem_nil, or_false] at ht
    rcases ht with ht | ht
    · exact ⟨b, ht⟩
    · exact ⟨c, ht⟩

/-- The ops of a function refer to its own values and to constants. -/
theorem isValue_of_arg {u : OpId} {v : Operand} (hu : u ∈ g.opsOf f)
    (hv : some v ∈ (g.op u).args) : (∃ c, v = .const c) ∨ g.IsValue f v := by
  obtain ⟨w, bits, heq, -, hok⟩ := wf.exists_operandOk hu hv
  obtain rfl := Option.some.inj heq
  cases v with
  | const c => exact .inl ⟨c, rfl⟩
  | param p => exact .inr hok.1
  | result d => exact .inr hok.1

/-- A value of another function has no slots in the ops of this one. -/
theorem slots_eq_zero {u : OpId} {v : Operand} (hu : u ∈ g.opsOf f) (hc : ∀ c, v ≠ .const c)
    (hv : ¬ g.IsValue f v) : g.slots u v = 0 := by
  rw [slots, List.count_eq_zero]
  intro hmem
  rcases wf.isValue_of_arg hu hmem with ⟨c, heq⟩ | hval
  · exact hc c heq
  · exact hv hval

end WellFormed
end Graph
end Disguise
