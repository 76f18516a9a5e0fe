import Disguise.Proofs.Copies
import Disguise.Proofs.Exactness
import Disguise.Proofs.Guards

/-!
Growth. What is at hand at the end of a block stays so when the function gets more ops or when a
terminator gets its operand; both can be done to every function that is being made.
-/
namespace Disguise
open Results Word

namespace Graph
variable {g₀ g g' : Graph} {f : FuncId}

/-- A value of the given width that is a param or made in block number `j`. -/
def Defines (g : Graph) (f : FuncId) (bits : Int) (j : Nat) : Operand → Prop
  | .const _ => False
  | .param p => p ∈ (g.func f).params ∧ (g.param p).bits = bits
  | .result d => (g.op d).bits = bits ∧ (g.op d).code.isTerminator = false ∧
      ∃ b, (g.func f).blocks[j]? = some b ∧ d ∈ (g.block b).ops

/-- An operand of the given width that can be used at the end of block number `i`: a constant that
fits, or a value of this block or of one that dominates it. -/
def Offers (g : Graph) (f : FuncId) (bits : Int) (i : Nat) (v : Operand) : Prop :=
  (∃ c, v = .const c ∧ c.bits = bits ∧ fits c.val bits) ∨ ∃ j, g.Defines f bits j v ∧
    (j = i ∨ ∀ above, (g.dominators f)[i]? = some (some above) → above.contains j)

/-- Branches stay the same if blocks end in the same ops. -/
theorem flow_of_getLast? {waiting : BlockId → List OpId} (hex : g.Exact waiting)
    (hfuncs : g'.funcs = g.funcs)
    (hlast : ∀ b, (g'.block b).ops.getLast? = (g.block b).ops.getLast?)
    (hcode : ∀ u, u.idx < g.ops.size → (g'.op u).code = (g.op u).code)
    (htargets : ∀ u, u.idx < g.ops.size → (g'.op u).targets = (g.op u).targets) :
    (∀ b, g'.terminator? b = g.terminator? b) ∧ g'.flow f = g.flow f := by
  have hterm : ∀ b, g'.terminator? b = g.terminator? b := by
    intro b
    rw [terminator?, terminator?, hlast b]
    cases hget : (g.block b).ops.getLast? with
    | none => rfl
    | some u => simp [Option.filter, hcode u (hex.lt_size (List.mem_of_getLast? hget))]
  refine ⟨hterm, flow_congr (by rw [func, func, hfuncs]) fun b _ => ⟨hterm b, fun t ht => ?_⟩⟩
  exact htargets t (hex.lt_size (mem_of_terminator? ht))

/-- `g'` is `g` with more ops in the blocks of a function or with other operands. -/
structure Growth (g g' : Graph) (f : FuncId) : Prop extends Reworked g g' where
  ops : ∀ b, (g.block b).ops.Sublist (g'.block b).ops
  old : ∀ b, ∀ u ∈ (g'.block b).ops, u.idx < g.ops.size → u ∈ (g.block b).ops
  code : ∀ u, u.idx < g.ops.size → (g'.op u).code = (g.op u).code
  bits : ∀ u, u.idx < g.ops.size → (g'.op u).bits = (g.op u).bits
  targets : ∀ u, u.idx < g.ops.size → (g'.op u).targets = (g.op u).targets
  terminator : ∀ b, g'.terminator? b = g.terminator? b
  flow : g'.flow f = g.flow f

namespace Growth
variable (h : Growth g g' f)
include h

theorem dominators : g'.dominators f = g.dominators f := by
  rw [Graph.dominators, Graph.dominators, h.flow]

theorem defines {waiting : BlockId → List OpId} (hex : g.Exact waiting) {bits : Int} {j : Nat}
    {v : Operand} (hv : g.Defines f bits j v) : g'.Defines f bits j v := by
  cases v with
  | const c => exact hv
  | param p => exact ⟨by rw [h.func]; exact hv.1, by rw [h.paramBits]; exact hv.2⟩
  | result d =>
    obtain ⟨hbits, hterm, b, hb, hd⟩ := hv
    have hlt := hex.lt_size hd
    exact ⟨by rw [h.bits d hlt, hbits], by rw [h.code d hlt, hterm], b, by rw [h.func, hb],
      (h.ops b).subset hd⟩

theorem offers {waiting : BlockId → List OpId} (hex : g.Exact waiting) {bits : Int} {i : Nat}
    {v : Operand} (hv : g.Offers f bits i v) : g'.Offers f bits i v := by
  rcases hv with hconst | ⟨j, hdef, hj⟩
  · exact .inl hconst
  · exact .inr ⟨j, h.defines hex hdef, by rwa [h.dominators]⟩

/-- Operands of old ops stay available. -/
theorem operandOk {waiting : BlockId → List OpId} (hex : g.Exact waiting) {u : OpId}
    (hu : u.idx < g.ops.size) {bits : Int} {v : Operand} (hv : g.OperandOk f u bits v) :
    g'.OperandOk f u bits v := by
  refine hv.mono (by rw [h.func]) (fun p _ => h.paramBits p) fun d _ hd => ?_
  obtain ⟨b, hb, hdb⟩ := mem_opsOf.1 hd
  have hlt := hex.lt_size hdb
  refine ⟨mem_opsOf.2 ⟨b, by rwa [h.func], (h.ops b).subset hdb⟩, h.bits d hlt, h.code d hlt, ?_⟩
  intro havail
  exact havail.mono (by rw [h.func]) h.flow (fun c _ hd => h.old c d hd hlt)
    (fun c _ hu' => h.old c u hu' hu) fun c _ hsub => hsub.trans (h.ops c)

/-- What was at hand in a block can be used by an op that comes after the values of the block. -/
theorem operandOk_of_offers {waiting waiting' : BlockId → List OpId} (hex : g.Exact waiting)
    (hex' : g'.Exact waiting') (hn : (g.func f).blocks.Nodup) {i : Nat} {b : BlockId} {u : OpId}
    (hb : (g.func f).blocks[i]? = some b) (hu : u ∈ (g'.block b).ops)
    (hlate : ∀ d ∈ (g.block b).ops, (g.op d).code.isTerminator = false →
      [d, u].Sublist (g'.block b).ops)
    {bits : Int} {v : Operand} (hv : g.Offers f bits i v) : g'.OperandOk f u bits v := by
  rcases hv with ⟨c, rfl, rfl, hfit⟩ | ⟨j, hdef, hj⟩
  · exact ⟨rfl, hfit⟩
  · have hdef' := h.defines hex hdef
    cases v with
    | const c => exact hdef.elim
    | param p => exact hdef'
    | result d =>
      obtain ⟨-, hterm, e, he, hde⟩ := hdef
      obtain ⟨hbits, hterm', e', he', hde'⟩ := hdef'
      have hmem : e' ∈ (g'.func f).blocks := List.mem_of_getElem? he'
      refine ⟨mem_opsOf.2 ⟨e', hmem, hde'⟩, hbits, hterm', ?_⟩
      intro i₁ j₁ b₁ c₁ above hb₁ hd₁ hc₁ hu₁ habove
      -- both ops stand in one block only, so the blocks in question are those of the definition
      have heq : ∀ {x y : Nat} {c d : BlockId}, (g.func f).blocks[x]? = some c →
          (g.func f).blocks[y]? = some d → c = d → x = y := by
        rintro x y c _ hx hy rfl
        exact (List.getElem?_inj (List.getElem?_eq_some_iff.1 hx).1 hn).1 (hx.trans hy.symm)
      have hone : ∀ {o c d}, o ∈ (g'.block c).ops → o ∈ (g'.block d).ops → c = d := fun hc hd =>
        Option.some.inj ((hex'.block_of_mem hc).symm.trans (hex'.block_of_mem hd))
      rw [h.func] at hb₁ hc₁
      have hde₁ : d ∈ (g'.block e).ops := (h.ops e).subset hde
      obtain rfl : i₁ = j := heq hb₁ he (hone hd₁ hde₁)
      obtain rfl : j₁ = i := heq hc₁ hb (hone hu₁ hu)
      split
      · rename_i hij
        subst hij
        obtain rfl := Option.some.inj (he.symm.trans hb)
        obtain rfl := Option.some.inj (hb₁.symm.trans hb)
        exact hlate d hde hterm
      · rename_i hij
        exact (hj.resolve_left hij) above (by rw [← h.dominators]; exact habove)

/-- Old ops whose operands stay the same keep their form. -/
theorem opForm {waiting : BlockId → List OpId} (hex : g.Exact waiting) {u : OpId}
    (hu : u.idx < g.ops.size) (hargs : (g'.op u).args = (g.op u).args) (hform : g.OpForm f u) :
    g'.OpForm f u :=
  hform.map id (h.code u hu) (h.bits u hu) (h.targets u hu) (by simp [hargs])
    (fun b _ hb => (h.owner b).trans hb) (by rw [h.func]) fun _ _ _ hv => h.operandOk hex hu hv

end Growth

/-- Binary ops keep their operands. -/
def SameBinaries (g g' : Graph) : Prop :=
  ∀ u, (g.op u).code.isBinary → (g'.op u).args = (g.op u).args

theorem Combines.mono (hgrow : Growth g g' f) (hsame : g.SameBinaries g') {bits : Int} {k : UInt64}
    {code : Opcode} {v : Operand} (hcode : code.isBinary) (h : g.Combines bits code k v) :
    g'.Combines bits code k v := by
  obtain ⟨d, x, rfl, rfl, rfl, hd⟩ := h
  have hlt : d.idx < g.ops.size := lt_size_of_code fun hinv => by
    rw [hinv] at hcode
    cases hcode
  exact ⟨d, x, rfl, hgrow.code d hlt, hgrow.bits d hlt, by rw [hsame d hcode, hd]⟩

/-- A new op stands between `pre` and `post` in a block. -/
structure Placing (g g' : Graph) (b : BlockId) (pre post : List OpId) (op : Op) : Prop where
  funcs : g'.funcs = g.funcs
  param : ∀ p, (g'.param p).bare = (g.param p).bare
  before : (g.block b).ops = pre ++ post
  block : ∀ c, g'.block c =
    if c = b then { g.block b with ops := pre ++ ⟨g.ops.size⟩ :: post } else g.block c
  op : ∀ u, (g'.op u).bare =
    if u = ⟨g.ops.size⟩ then { op.bare with block := some b } else (g.op u).bare

section
variable {b : BlockId} {args : List (Option Operand)} (hex : g.Exact fun _ => [])
  (hap : Copying g₀ f g {}) (hb : g₀.blocks.size ≤ b.idx)
  (hargs : ∀ v, some v ∈ args → g₀.Outside v)
include hex hap hb hargs

/-- A new op can be put at every place of a new block. -/
theorem exists_placing {pre post : List OpId} (hops : (g.block b).ops = pre ++ post)
    (code : Opcode) (bits : Int) (targets : List (Option BlockId)) :
    ∃ g', (g.newOp code bits args targets).1.insertAt b pre.length [⟨g.ops.size⟩] = .ok g' ∧
      g'.Exact (fun _ => []) ∧ Copying g₀ f g' {} ∧
      Placing g g' b pre post { code, bits, args, targets } := by
  have hnew := hex.newOp code bits args targets
  have hapart : Copying g₀ f (g.newOp code bits args targets).1 {} := hap.newOp hargs
  have hop := g.op_newOp code bits args targets
  generalize hg₁ : (g.newOp code bits args targets).1 = g₁ at hnew hop hapart
  have hblock : ∀ c, g₁.block c = g.block c := fun c => by rw [← hg₁]; rfl
  have hfree : ∀ o ∈ [(⟨g.ops.size⟩ : OpId)], (g₁.op o).block = none := by
    simp [hop]
  obtain ⟨g', hok, hex'⟩ := hnew.insertAt ⟨List.nodup_singleton _, hfree⟩ b pre.length
  obtain ⟨g₂, hattach, hen⟩ :=
    attach_eq_ok (b := b) (List.nodup_singleton (⟨g.ops.size⟩ : OpId)) hfree
  have hlist : ∀ c, g₂.block c = g.block c := fun c => (hen.block c).trans (hblock c)
  refine ⟨g', hok, hex', hapart.insertAt hb ?_ hok, ?_⟩
  · intro o ho
    rw [List.mem_singleton.1 ho]
    exact hap.extended.ops.size
  · simp only [Graph.insertAt, hattach] at hok
    obtain rfl := Except.ok.inj hok
    have hfuncs : g₁.funcs = g.funcs := by rw [← hg₁]; rfl
    have hparams : ∀ p, g₁.param p = g.param p := fun p => by rw [← hg₁]; rfl
    refine ⟨hen.funcs.trans hfuncs, fun p => ?_, hops, fun c => ?_, fun u => ?_⟩
    · rw [← hparams p]
      exact hen.param p
    · rw [block_modifyBlock, hlist, hlist, hops]
      simp
    · rw [op_modifyBlock, hen.op u, hop u]
      by_cases hu : u = ⟨g.ops.size⟩
      · simp [hu, Op.bare]
      · simp [hu]

/-- In particular right before the last op of a block. -/
theorem exists_placing_before {body : List OpId} {last : OpId}
    (hops : (g.block b).ops = body ++ [last]) (code : Opcode) (bits : Int) :
    ∃ g', (g.newOp code bits args []).1.insertBefore b last [⟨g.ops.size⟩] = .ok g' ∧
      g'.Exact (fun _ => []) ∧ Copying g₀ f g' {} ∧
      Placing g g' b body [last] { code, bits, args } := by
  obtain ⟨g', hok, hrest⟩ := exists_placing hex hap hb hargs hops code bits []
  refine ⟨g', ?_, hrest⟩
  have hlast : last ∈ (g.block b).ops := by simp [hops]
  have hlt := hex.lt_size hlast
  have hblock : ((g.newOp code bits args []).1.op last).block = some b := by
    rw [op_newOp, if_neg]
    · exact hex.block_of_mem hlast
    · rintro rfl
      exact Nat.lt_irrefl _ hlt
  rw [insertBefore, placeIn_eq hblock hops (not_mem_of_nodup (hex.nodup b) hops).1, ok_bind]
  exact hok

end

namespace Placing
variable {b : BlockId} {pre post : List OpId} {op : Op} (h : Placing g g' b pre post op)
include h

theorem op_eq {u : OpId} (hu : u.idx < g.ops.size) : (g'.op u).bare = (g.op u).bare := by
  rw [h.op u, if_neg]
  rintro rfl
  exact Nat.lt_irrefl _ hu

/-- What an old op holds, its users apart. -/
theorem same {α : Type} {k : Op → α} (hk : ∀ op : Op, k op.bare = k op) {u : OpId}
    (hu : u.idx < g.ops.size) : k (g'.op u) = k (g.op u) := by
  rw [← hk, h.op_eq hu, hk]

/-- What the new op holds. -/
theorem new {α : Type} {k : Op → α}
    (hk : ∀ (op : Op) b, k { op.bare with block := some b } = k op)
    (hk' : ∀ op : Op, k op.bare = k op) : k (g'.op ⟨g.ops.size⟩) = k op := by
  rw [← hk', h.op, if_pos rfl, hk]

theorem code_eq {u : OpId} (hu : u.idx < g.ops.size) : (g'.op u).code = (g.op u).code :=
  h.same (k := Op.code) (fun _ => rfl) hu

theorem bits_eq {u : OpId} (hu : u.idx < g.ops.size) : (g'.op u).bits = (g.op u).bits :=
  h.same (k := Op.bits) (fun _ => rfl) hu

theorem args_eq {u : OpId} (hu : u.idx < g.ops.size) : (g'.op u).args = (g.op u).args :=
  h.same (k := Op.args) (fun _ => rfl) hu

theorem targets_eq {u : OpId} (hu : u.idx < g.ops.size) : (g'.op u).targets = (g.op u).targets :=
  h.same (k := Op.targets) (fun _ => rfl) hu

theorem new_code : (g'.op ⟨g.ops.size⟩).code = op.code :=
  h.new (k := Op.code) (fun _ _ => rfl) fun _ => rfl

theorem new_bits : (g'.op ⟨g.ops.size⟩).bits = op.bits :=
  h.new (k := Op.bits) (fun _ _ => rfl) fun _ => rfl

theorem new_args : (g'.op ⟨g.ops.size⟩).args = op.args :=
  h.new (k := Op.args) (fun _ _ => rfl) fun _ => rfl

theorem new_targets : (g'.op ⟨g.ops.size⟩).targets = op.targets :=
  h.new (k := Op.targets) (fun _ _ => rfl) fun _ => rfl

theorem home {g₀ : Graph} (hold : ∀ u c, g₀.ops.size ≤ u.idx → (g.op u).block = some c →
      c ∈ (g.func f).blocks) (hb : b ∈ (g.func f).blocks) (u : OpId) (c : BlockId)
    (hu : g₀.ops.size ≤ u.idx) (hc : (g'.op u).block = some c) : c ∈ (g.func f).blocks := by
  change (g'.op u).bare.block = some c at hc
  rw [h.op u] at hc
  split at hc
  · obtain rfl := Option.some.inj hc
    exact hb
  · exact hold u c hu hc

theorem reworked : Reworked g g' := by
  refine ⟨h.funcs, h.param, fun c => ?_, fun c => ?_⟩ <;>
  · rw [h.block c]
    split
    · rename_i hc
      rw [hc]
    · rfl

/-- An op in front of others in a block leaves the branches alone. -/
theorem growth (hex : g.Exact fun _ => []) (hpost : post ≠ []) : Growth g g' f := by
  have hops : ∀ c, (g'.block c).ops =
      if c = b then pre ++ ⟨g.ops.size⟩ :: post else (g.block c).ops := by
    intro c
    rw [h.block c]
    split <;> rfl
  have hcode : ∀ u : OpId, u.idx < g.ops.size → (g'.op u).code = (g.op u).code :=
    fun _ hu => h.code_eq hu
  have htargets : ∀ u : OpId, u.idx < g.ops.size → (g'.op u).targets = (g.op u).targets :=
    fun _ hu => h.targets_eq hu
  have hlast : ∀ c, (g'.block c).ops.getLast? = (g.block c).ops.getLast? := by
    intro c
    rw [hops c]
    split
    · rename_i hc
      obtain ⟨init, last, rfl⟩ := (List.eq_nil_or_concat post).resolve_left hpost
      simp [hc, h.before, List.getLast?_append, List.getLast?_cons]
    · rfl
  obtain ⟨hterm, hflow⟩ := flow_of_getLast? (f := f) hex h.funcs hlast hcode htargets
  constructor
  case toReworked => exact h.reworked
  case code => exact hcode
  case bits => exact fun _ hu => h.bits_eq hu
  case targets => exact htargets
  case terminator => exact hterm
  case flow => exact hflow
  case ops =>
    intro c
    rw [hops c]
    split
    · rename_i hc
      rw [hc, h.before]
      exact (List.sublist_cons_self _ _).append_left pre
    · exact List.Sublist.refl _
  case old =>
    intro c u hu hlt
    rw [hops c] at hu
    split at hu
    · rename_i hc
      rw [hc, h.before]
      have hne : u ≠ ⟨g.ops.size⟩ := by
        rintro rfl
        exact Nat.lt_irrefl _ hlt
      simpa [hne] using hu
    · exact hu

/-- One op more. -/
theorem numOps (hn : (g.func f).blocks.Nodup) (hb : b ∈ (g.func f).blocks) :
    g'.numOps f = g.numOps f + 1 := by
  refine numOps_of_block (by rw [func, func, h.funcs]) hn hb (fun c hc => ?_) ?_
  · rw [h.block c, if_neg hc]
  · rw [h.block b, if_pos rfl, h.before]
    simp
    omega

theorem sameBinaries : g.SameBinaries g' := by
  intro u hu
  refine h.args_eq (lt_size_of_code fun hinv => ?_)
  rw [hinv] at hu
  cases hu

theorem mem_ops {c : BlockId} {u : OpId} :
    u ∈ (g'.block c).ops ↔ u ∈ (g.block c).ops ∨ c = b ∧ u = ⟨g.ops.size⟩ := by
  rw [h.block c]
  split
  · rename_i hc
    subst hc
    simp [h.before]
    tauto
  · rename_i hc
    simp [hc]

end Placing

/-- The op that ends a block may have got other operands. -/
structure Filling (g g' : Graph) (f : FuncId) (last : OpId) : Prop extends Growth g g' f where
  args : ∀ u, u ≠ last → (g'.op u).args = (g.op u).args
  place : ∀ u, (g'.op u).block = (g.op u).block
  blocks : g'.blocks = g.blocks

namespace Filling

theorem refl (g : Graph) (f : FuncId) (last : OpId) : Filling g g f last where
  toReworked := .refl g
  ops _ := List.Sublist.refl _
  old _ _ hu _ := hu
  code _ _ := rfl
  bits _ _ := rfl
  targets _ _ := rfl
  terminator _ := rfl
  flow := rfl
  args _ _ := rfl
  place _ := rfl
  blocks := rfl

variable {last : OpId} (h : Filling g g' f last)
include h

theorem block (b : BlockId) : g'.block b = g.block b := by
  rw [Graph.block, Graph.block, h.blocks]

theorem numOps : g'.numOps f = g.numOps f := by
  rw [Graph.numOps, Graph.numOps, opsOf, opsOf, h.func]
  simp only [h.block]

end Filling

/-- The only operand of an op can be set. -/
theorem exists_filling (hex : g.Exact fun _ => []) (hap : Copying g₀ f g {}) {b : BlockId}
    {last : OpId} (hlast : last ∈ (g.block b).ops) (hnew : g₀.ops.size ≤ last.idx)
    (hargs : (g.op last).args = [none]) {v : Operand} (hv : g₀.Outside v) :
    ∃ g', g.setArg last 0 (some v) = .ok g' ∧ Filling g g' f last ∧
      (g'.op last).args = [some v] ∧ g'.Exact (fun _ => []) ∧ Copying g₀ f g' {} := by
  have hblock : (g.op last).block.isSome := by rw [hex.block_of_mem hlast]; rfl
  have hold : (g.op last).args[0]? = some none := by rw [hargs]; rfl
  obtain ⟨g', hok, hr⟩ := setArg_eq_ok (some v) hold hblock (by simp)
  have hex' : g'.Exact fun _ => [] := hex.retuned hr fun u hu => by
    rw [if_neg]
    rintro rfl
    rw [hu] at hblock
    cases hblock
  have hsame {α : Type} {k : Op → α} (hk : ∀ (op : Op) args, k { op.bare with args } = k op)
      (hk' : ∀ op : Op, k op.bare = k op) (u : OpId) : k (g'.op u) = k (g.op u) := by
    rw [← hk', hr.op u, hk]
  have hcode := hsame (k := Op.code) (fun _ _ => rfl) fun _ => rfl
  have hbits := hsame (k := Op.bits) (fun _ _ => rfl) fun _ => rfl
  have htargets := hsame (k := Op.targets) (fun _ _ => rfl) fun _ => rfl
  have hplace := hsame (k := Op.block) (fun _ _ => rfl) fun _ => rfl
  have hlist : ∀ c, g'.block c = g.block c := fun c => by rw [block, block, hr.blocks]
  obtain ⟨hterm, hflow⟩ := flow_of_getLast? (f := f) hex hr.funcs (fun c => by rw [hlist c])
    (fun u _ => hcode u) fun u _ => htargets u
  have hrework : Reworked g g' :=
    ⟨hr.funcs, hr.param, fun c => by rw [hlist c], fun c => by rw [hlist c]⟩
  have hgrow : Growth g g' f :=
    { hrework with
      ops := fun c => by rw [hlist c]
      old := fun c u hu _ => by rwa [hlist c] at hu
      code := fun u _ => hcode u
      bits := fun u _ => hbits u
      targets := fun u _ => htargets u
      terminator := hterm
      flow := hflow }
  refine ⟨g', hok, ⟨hgrow, fun u hu => ?_, hplace, hr.blocks⟩, ?_, hex', ?_⟩
  · rw [hr.args_eq u, if_neg hu]
  · rw [hr.args_eq last, if_pos rfl, hargs]
    rfl
  · have huse := hap.addUse (v := some v) (fun w hw => Option.some.inj hw ▸ hv) last
    simp only [setArg, hold, hblock, if_true, removeUse] at hok
    obtain rfl := Except.ok.inj hok
    refine huse.modifyOp hnew fun w hw => ?_
    rw [(sameShape_addUse g (some v) last).args, hargs] at hw
    obtain rfl : w = v := by simpa using hw
    exact hv

end Graph
end Disguise
