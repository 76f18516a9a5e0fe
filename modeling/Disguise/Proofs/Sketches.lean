import Disguise.Proofs.Growth
import Disguise.Proofs.Splicing

/-!
Functions in the making. A sketch has all its blocks and branches, and the operands of its last
terminators are still missing. New ops go in front of a terminator and use what is at hand in the
block, operands are filled in block after block, and a sketch without gaps is well-formed.
-/
namespace Disguise
open Results Word

namespace Graph
variable {g₀ g g' : Graph} {f : FuncId}

/-- A new function, which has nothing in common with what was in `g₀`. -/
structure Fresh (g₀ g : Graph) (f : FuncId) : Prop where
  apart : Copying g₀ f g {}
  exact : g.Exact fun _ => []
  retWidth : goodWidth (g.func f).retBits
  paramOwner : ∀ p ∈ (g.func f).params, (g.param p).func = some f
  paramWidth : ∀ p ∈ (g.func f).params, goodWidth (g.param p).bits
  paramNames : ((g.func f).params.map fun p => (g.param p).name).Nodup
  blockNew : ∀ b ∈ (g.func f).blocks, g₀.blocks.size ≤ b.idx
  blockOwner : ∀ b ∈ (g.func f).blocks, (g.block b).owner = some f
  blockNames : ((g.func f).blocks.map fun b => (g.block b).name).Nodup
  home : ∀ u b, g₀.ops.size ≤ u.idx → (g.op u).block = some b → b ∈ (g.func f).blocks

namespace Fresh
variable (h : Fresh g₀ g f) (h₀ : g₀.Exact fun _ => [])
include h

theorem blocksNodup : (g.func f).blocks.Nodup := h.blockNames.of_map

/-- Other ops leave a function new. -/
theorem rework (hw : Reworked g g') (hap : Copying g₀ f g' {}) (hex : g'.Exact fun _ => [])
    (hhome : ∀ u b, g₀.ops.size ≤ u.idx → (g'.op u).block = some b → b ∈ (g.func f).blocks) :
    Fresh g₀ g' f := by
  constructor
  case apart => exact hap
  case exact => exact hex
  all_goals rw [hw.func]
  case retWidth => exact h.retWidth
  case paramOwner => exact fun p hp => (hw.ofParam (fun _ => rfl) p).trans (h.paramOwner p hp)
  case paramWidth => exact fun p hp => by rw [hw.paramBits]; exact h.paramWidth p hp
  case paramNames =>
    rw [List.map_congr_left fun p _ => hw.ofParam (fun _ => rfl) p]
    exact h.paramNames
  case blockNew => exact h.blockNew
  case blockOwner => exact fun b hb => (hw.owner b).trans (h.blockOwner b hb)
  case blockNames =>
    rw [List.map_congr_left fun b _ => hw.name b]
    exact h.blockNames
  case home => exact hhome

include h₀

/-- The ops of a new function are new. -/
theorem op_new {b : BlockId} {o : OpId} (hb : b ∈ (g.func f).blocks) (ho : o ∈ (g.block b).ops) :
    g₀.ops.size ≤ o.idx := by
  by_contra hlt
  have hold : g.op o = g₀.op o := h.apart.extended.ops.get o.idx (Nat.lt_of_not_le hlt)
  have hempty : (g₀.block b).ops = [] := by
    rw [block, g₀.blocks.get_of_size_le (h.blockNew b hb)]
    rfl
  have hblock := h.exact.block_of_mem ho
  rw [hold, h₀.block_iff, hempty] at hblock
  simp at hblock

/-- What is at hand in a new function is new. -/
theorem outside_of_offers {bits : Int} {i : Nat} {v : Operand} (hv : g.Offers f bits i v) :
    g₀.Outside v := by
  rcases hv with ⟨c, rfl, -⟩ | ⟨j, hdef, -⟩
  · trivial
  · cases v with
    | const c => trivial
    | param p => exact h.apart.head p hdef.1
    | result d =>
      obtain ⟨-, -, b, hb, hd⟩ := hdef
      exact h.op_new h₀ (List.mem_of_getElem? hb) hd

/-- The values of a new function are used in it only. -/
theorem uses {v : Operand} (hv : g.IsValue f v) (u : OpId) :
    g.recorded v u = if u ∈ g.opsOf f then g.slots u v else 0 := by
  have hnew : v.Tracked ∧ ∀ u, g₀.recorded v u = 0 := by
    cases v with
    | const c => exact hv.elim
    | param p =>
      refine ⟨trivial, fun u => ?_⟩
      rw [recorded, param, g₀.params.get_of_size_le (h.apart.head p hv)]
      rfl
    | result o =>
      obtain ⟨b, hb, ho⟩ := mem_opsOf.1 hv
      refine ⟨trivial, fun u => ?_⟩
      rw [recorded, op, g₀.ops.get_of_size_le (h.op_new h₀ hb ho)]
      rfl
  rw [h.exact.uses v hnew.1 u]
  by_cases hu : u ∈ g.opsOf f
  · obtain ⟨b, hb, hub⟩ := mem_opsOf.1 hu
    rw [if_pos hu, h.exact.block_of_mem hub, Option.isSome_some, if_pos rfl]
  · rw [if_neg hu]
    split
    · rename_i hsome
      obtain ⟨b, hb⟩ := Option.isSome_iff_exists.1 hsome
      rcases Nat.lt_or_ge u.idx g₀.ops.size with hold | hge
      · -- an old op is as it was, and then it used nothing new
        have hsame : g.op u = g₀.op u := h.apart.extended.ops.get u.idx hold
        have hzero := h₀.uses v hnew.1 u
        rw [hnew.2 u, ← hsame, if_pos hsome] at hzero
        rw [slots, hsame]
        exact hzero.symm
      · have hmem := h.exact.block_iff.1 hb
        simp only [List.not_mem_nil, or_false] at hmem
        exact absurd (mem_opsOf.2 ⟨b, h.home u b hge hb, hmem⟩) hu
    · rfl

theorem wellFormed (ended : ∀ b ∈ (g.func f).blocks, g.Ended (g.block b).ops)
    (form : ∀ u ∈ g.opsOf f, g.OpForm f u) : g.WellFormed f where
  retWidth := h.retWidth
  paramOwner := h.paramOwner
  paramWidth := h.paramWidth
  paramNames := h.paramNames
  blockOwner := h.blockOwner
  blockNames := h.blockNames
  opOwner _ _ _ ho := h.exact.block_of_mem ho
  opsNodup b _ := h.exact.nodup b
  ended := ended
  form := form
  uses _ hv := h.uses h₀ hv

end Fresh

/-- A terminator whose operand is still missing. -/
inductive Blank (g : Graph) (u : OpId) : Prop
  | ret (code : (g.op u).code = .ret) (args : (g.op u).args = [none])
      (targets : (g.op u).targets = [])
  | br (t : BlockId) (code : (g.op u).code = .br) (args : (g.op u).args = [])
      (targets : (g.op u).targets = [some t])
  | brif (t e : BlockId) (code : (g.op u).code = .brif) (args : (g.op u).args = [none])
      (targets : (g.op u).targets = [some t, some e])

theorem Blank.isTerminator {u : OpId} (h : g.Blank u) : (g.op u).code.isTerminator := by
  cases h with
  | ret code => rw [code]; rfl
  | br t code => rw [code]; rfl
  | brif t e code => rw [code]; rfl

theorem Blank.congr {u : OpId} (h : g.Blank u) (hcode : (g'.op u).code = (g.op u).code)
    (hargs : (g'.op u).args = (g.op u).args) (htargets : (g'.op u).targets = (g.op u).targets) :
    g'.Blank u := by
  cases h with
  | ret code args targets =>
    exact .ret (hcode.trans code) (hargs.trans args) (htargets.trans targets)
  | br t code args targets =>
    exact .br t (hcode.trans code) (hargs.trans args) (htargets.trans targets)
  | brif t e code args targets =>
    exact .brif t e (hcode.trans code) (hargs.trans args) (htargets.trans targets)

/-- A function with all its branches, each block of which can branch to the next one. The
terminators from block number `n` on wait for their operands. -/
structure Sketch (g₀ g : Graph) (f : FuncId) (n : Nat) : Prop extends Fresh g₀ g f where
  ended : ∀ b ∈ (g.func f).blocks, g.Ended (g.block b).ops
  form : ∀ i b, (g.func f).blocks[i]? = some b → ∀ u ∈ (g.block b).ops,
    i < n ∨ (g.op u).code.isTerminator = false → g.OpForm f u
  blank : ∀ i b u, (g.func f).blocks[i]? = some b → g.terminator? b = some u → n ≤ i → g.Blank u
  guarded : g.AllGuarded f
  forward : g.Forward f
  next : ∀ i b c, (g.func f).blocks[i]? = some b → (g.func f).blocks[i + 1]? = some c →
    ∃ u, g.terminator? b = some u ∧ some c ∈ (g.op u).targets

namespace Sketch
variable {n : Nat} (h : Sketch g₀ g f n)
include h

/-- The op that ends a block stands at the end. -/
theorem isTerminator_last {b : BlockId} {body : List OpId} {last : OpId}
    (hb : b ∈ (g.func f).blocks) (hops : (g.block b).ops = body ++ [last]) :
    (g.op last).code.isTerminator := by
  have hended := h.ended b hb
  rw [hops] at hended
  exact (hended.isTerminator_iff rfl).2 rfl

/-- Every block has an op that ends it. -/
theorem exists_last {b : BlockId} (hb : b ∈ (g.func f).blocks) :
    ∃ body last, (g.block b).ops = body ++ [last] ∧ g.terminator? b = some last := by
  obtain ⟨body, last, hops, hterm, -⟩ := h.ended b hb
  exact ⟨body, last, hops, by simp [terminator?, hops, Option.filter, hterm]⟩

/-- A sketch without gaps. -/
theorem wellFormed (h₀ : g₀.Exact fun _ => []) (hfull : (g.func f).blocks.length ≤ n) :
    g.WellFormed f := by
  refine h.toFresh.wellFormed h₀ h.ended fun u hu => ?_
  obtain ⟨b, hb, hub⟩ := mem_opsOf.1 hu
  obtain ⟨i, hi⟩ := List.getElem?_of_mem hb
  have := (List.getElem?_eq_some_iff.1 hi).1
  exact h.form i b hi u hub (.inl (by omega))

/-- Every block is reached through all blocks before it. -/
theorem exists_path {i : Nat} (hi : i < (g.func f).blocks.length) :
    ∃ p, (g.flow f).Path p i := by
  induction i with
  | zero => exact ⟨_, .entry⟩
  | succ i ih =>
    obtain ⟨p, hp⟩ := ih (by omega)
    have hb := List.getElem?_eq_getElem (show i < (g.func f).blocks.length by omega)
    have hc := List.getElem?_eq_getElem hi
    obtain ⟨u, hu, htarget⟩ := h.next i _ _ hb hc
    exact ⟨_, hp.step (mem_successors_flow h.toFresh.blocksNodup hb hc hu htarget)⟩

end Sketch

namespace Sketch
variable {n : Nat} (h : Sketch g₀ g f n) (hgrow : Growth g g' f)
include h hgrow

/-- Terminators wait on as long as they get no operands. -/
theorem blank_of_growth {m : Nat} (hle : n ≤ m)
    (hargs : ∀ i b u, (g.func f).blocks[i]? = some b → u ∈ (g.block b).ops → m ≤ i →
      (g'.op u).args = (g.op u).args) :
    ∀ i b u, (g'.func f).blocks[i]? = some b → g'.terminator? b = some u → m ≤ i →
      g'.Blank u := by
  rw [hgrow.func]
  intro i b u hi hu hmi
  rw [hgrow.terminator] at hu
  have hub := mem_of_terminator? hu
  have hlt := h.exact.lt_size hub
  have hblank := h.blank i b u hi hu (hle.trans hmi)
  exact hblank.congr (hgrow.code u hlt) (hargs i b u hi hub hmi) (hgrow.targets u hlt)

/-- New ops that branch nowhere lead forward. -/
theorem forward_of_growth
    (hnew : ∀ b, ∀ u ∈ (g'.block b).ops, g.ops.size ≤ u.idx → (g'.op u).targets = []) :
    g'.Forward f := by
  intro i b hi u hu t ht
  rw [hgrow.func] at hi ⊢
  rcases Nat.lt_or_ge u.idx g.ops.size with hold | hge
  · rw [hgrow.targets u hold] at ht
    exact h.forward i b hi u (hgrow.old b u hu hold) t ht
  · rw [hnew b u hu hge] at ht
    cases ht

theorem next_of_growth :
    ∀ i b c, (g'.func f).blocks[i]? = some b → (g'.func f).blocks[i + 1]? = some c →
      ∃ u, g'.terminator? b = some u ∧ some c ∈ (g'.op u).targets := by
  rw [hgrow.func]
  intro i b c hi hc
  obtain ⟨u, hu, htarget⟩ := h.next i b c hi hc
  have hlt := h.exact.lt_size (mem_of_terminator? hu)
  exact ⟨u, (hgrow.terminator b).trans hu, by rwa [hgrow.targets u hlt]⟩

end Sketch

/-- What an op in front of the end of block number `i` may be. -/
inductive Suits (g : Graph) (f : FuncId) (i : Nat) (code : Opcode) (bits : Int) :
    List Operand → Prop
  | binary {x y : Operand} (binary : code.isBinary)
      (float : code.isFloat → bits = 32 ∨ bits = 64) (left : g.Offers f bits i x)
      (right : g.Offers f bits i y) : Suits g f i code bits [x, y]
  | unary {x : Operand} (unary : code.isUnary) (operand : g.Offers f bits i x) :
      Suits g f i code bits [x]

namespace Suits
variable {i : Nat} {code : Opcode} {bits : Int} {args : List Operand}
  (h : g.Suits f i code bits args)
include h

theorem isTerminator : code.isTerminator = false := by
  cases h with
  | binary binary => exact Opcode.not_isTerminator_of_isBinary binary
  | unary unary => exact Opcode.not_isTerminator_of_isUnary unary

theorem offers {v : Operand} (hv : v ∈ args) : g.Offers f bits i v := by
  cases h with
  | binary _ _ left right =>
    simp only [List.mem_cons, List.not_mem_nil, or_false] at hv
    rcases hv with rfl | rfl
    · exact left
    · exact right
  | unary _ operand =>
    rw [List.mem_singleton.1 hv]
    exact operand

theorem opForm (hwidth : goodWidth bits) {u : OpId} (hcode : (g'.op u).code = code)
    (hbits : (g'.op u).bits = bits) (hargs : (g'.op u).args = args.map some)
    (htargets : (g'.op u).targets = [])
    (hok : ∀ v, g.Offers f bits i v → g'.OperandOk f u bits v) : g'.OpForm f u := by
  subst hcode hbits
  cases h with
  | binary binary float left right =>
    exact .binary _ _ binary hargs htargets hwidth float (hok _ left) (hok _ right)
  | unary unary operand => exact .unary _ unary hargs htargets hwidth (hok _ operand)

end Suits

namespace Sketch
variable {n i : Nat} {b : BlockId} {body : List OpId} {last : OpId} (h : Sketch g₀ g f n)
  (hi : (g.func f).blocks[i]? = some b)
include h hi

/-- Values stand in front of the op that ends their block. -/
theorem mem_body (hops : (g.block b).ops = body ++ [last]) {d : OpId} (hd : d ∈ (g.block b).ops)
    (hterm : (g.op d).code.isTerminator = false) : d ∈ body := by
  rw [hops] at hd
  refine (List.mem_append.1 hd).resolve_right fun hlast => ?_
  rw [List.mem_singleton.1 hlast, h.isTerminator_last (List.mem_of_getElem? hi) hops] at hterm
  cases hterm

omit hi in
/-- Blocks end as they did when an op is put in front of the end of one. -/
theorem ended_of_placing {op : Op} (hp : Placing g g' b body [last] op) (hgrow : Growth g g' f)
    (hterm : op.code.isTerminator = false) :
    ∀ c ∈ (g.func f).blocks, g'.Ended (g'.block c).ops := by
  intro c hc
  refine (h.ended c hc).mono (fun o ho => hgrow.code o (h.exact.lt_size ho)) ?_
  intro body' last' hops
  by_cases hcb : c = b
  · subst hcb
    rw [hp.before] at hops
    obtain ⟨rfl, hlast⟩ := List.append_inj' hops rfl
    refine ⟨body ++ [⟨g.ops.size⟩], ?_, fun o ho => ?_⟩
    · rw [hp.block, if_pos rfl, ← hlast]
      simp
    · rcases List.mem_append.1 ho with ho | ho
      · exact .inl ho
      · rw [List.mem_singleton.1 ho, hp.new_code]
        exact .inr hterm
  · refine ⟨body', ?_, fun o ho => .inl ho⟩
    rw [hp.block, if_neg hcb, hops]

/-- An op in front of a terminator. -/
theorem place {code : Opcode} {bits : Int} {args : List Operand}
    (hp : Placing g g' b body [last] { code, bits, args := args.map some })
    (hex : g'.Exact fun _ => []) (hap : Copying g₀ f g' {}) (hwidth : goodWidth bits)
    (hs : g.Suits f i code bits args) (hguard : g.Guarded code bits (args.map some)) :
    Sketch g₀ g' f n := by
  have hb := List.mem_of_getElem? hi
  have hgrow : Growth g g' f := hp.growth h.exact (by simp)
  have hcode := hp.new_code
  have hbits := hp.new_bits
  have hargs := hp.new_args
  have htargets := hp.new_targets
  have hlt := fun c u (hu : u ∈ (g.block c).ops) => h.exact.lt_size hu
  have hold := fun c u hu => hp.args_eq (hlt c u hu)
  have hmono {bits : Int} (k : UInt64) (c : Opcode) (v : Operand) (hc : c.isBinary) :
      g.Combines bits c k v → g'.Combines bits c k v := Combines.mono hgrow hp.sameBinaries hc
  constructor
  case toFresh => exact h.toFresh.rework hgrow.toReworked hap hex (hp.home h.home hb)
  case ended =>
    rw [hgrow.func]
    exact h.ended_of_placing hp hgrow hs.isTerminator
  case form =>
    rw [hgrow.func]
    intro j c hj u hu
    rcases hp.mem_ops.1 hu with hu | ⟨rfl, rfl⟩
    · rw [hgrow.code u (hlt c u hu)]
      exact fun hdone => hgrow.opForm h.exact (hlt c u hu) (hold c u hu) (h.form j c hj u hu hdone)
    · refine fun _ => hs.opForm hwidth hcode hbits hargs htargets fun v hv => ?_
      refine hgrow.operandOk_of_offers h.exact hex h.blocksNodup hi hu (fun d hd hterm => ?_) hv
      have hbody := h.mem_body hi hp.before hd hterm
      rw [hp.block, if_pos rfl]
      exact pair_sublist_append hbody (by simp)
  case blank => exact h.blank_of_growth hgrow (Nat.le_refl n) fun _ c u _ hu _ => hold c u hu
  case guarded =>
    intro u hu
    obtain ⟨c, hc, huc⟩ := mem_opsOf.1 hu
    rw [hgrow.func] at hc
    rcases hp.mem_ops.1 huc with huc | ⟨rfl, rfl⟩
    · rw [hgrow.code u (hlt c u huc), hgrow.bits u (hlt c u huc), hold c u huc]
      exact (h.guarded u (mem_opsOf.2 ⟨c, hc, huc⟩)).mono hmono
    · rw [hcode, hbits, hargs]
      exact hguard.mono hmono
  case forward =>
    refine h.forward_of_growth hgrow fun c u hu hge => ?_
    rcases hp.mem_ops.1 hu with hu | ⟨rfl, rfl⟩
    · exact absurd (hlt c u hu) (Nat.not_lt.2 hge)
    · exact htargets
  case next => exact h.next_of_growth hgrow

end Sketch

namespace Sketch
variable {n : Nat} {b : BlockId} {body : List OpId} {last : OpId} (h : Sketch g₀ g f n)
  (hi : (g.func f).blocks[n]? = some b) (hops : (g.block b).ops = body ++ [last])
include h hi hops

/-- What was at hand in a block can be an operand of the op that ends it. -/
theorem operandOk_last (hfill : Filling g g' f last) (hex : g'.Exact fun _ => []) {bits : Int}
    {v : Operand} (hv : g.Offers f bits n v) : g'.OperandOk f last bits v := by
  refine hfill.operandOk_of_offers h.exact hex h.blocksNodup hi (by simp [hfill.block, hops])
    (fun d hd hterm => ?_) hv
  rw [hfill.block, hops]
  exact pair_sublist_append (h.mem_body hi hops hd hterm) (by simp)

/-- A block has one op that ends it. -/
theorem eq_last {u : OpId} (hu : u ∈ (g.block b).ops) (hterm : (g.op u).code.isTerminator) :
    u = last := by
  obtain ⟨done, rest, hsplit⟩ := List.append_of_mem hu
  obtain rfl := ((h.ended b (List.mem_of_getElem? hi)).isTerminator_iff hsplit).1 hterm
  rw [hops] at hsplit
  simpa using (List.append_inj' hsplit rfl).2.symm

/-- An op stands in one block only, so the end of a block is in no other one. -/
theorem ne_last {j : Nat} {c : BlockId} {u : OpId} (hj : (g.func f).blocks[j]? = some c)
    (hu : u ∈ (g.block c).ops) (hne : n ≠ j) : u ≠ last := by
  rintro rfl
  have hub : u ∈ (g.block b).ops := by simp [hops]
  obtain rfl : c = b := Option.some.inj
    ((h.exact.block_of_mem hu).symm.trans (h.exact.block_of_mem hub))
  exact hne ((List.getElem?_inj (List.getElem?_eq_some_iff.1 hi).1 h.blocksNodup).1
    (hi.trans hj.symm))

/-- The next block is done when the op that ends it has its form. -/
theorem fill (hfill : Filling g g' f last) (hex : g'.Exact fun _ => []) (hap : Copying g₀ f g' {})
    (hform : g'.OpForm f last) : Sketch g₀ g' f (n + 1) := by
  have hlt := fun c u (hu : u ∈ (g.block c).ops) => h.exact.lt_size hu
  have hb := List.mem_of_getElem? hi
  have hlast := h.isTerminator_last hb hops
  have hbinary : g.SameBinaries g' := by
    intro u hu
    refine hfill.args u ?_
    rintro rfl
    rw [Opcode.not_isTerminator_of_isBinary hu] at hlast
    cases hlast
  have hopsOf : g'.opsOf f = g.opsOf f := by simp only [opsOf, hfill.func, hfill.block]
  have hgrow := hfill.toGrowth
  constructor
  case toFresh =>
    exact h.toFresh.rework hgrow.toReworked hap hex fun u c hu hc =>
      h.home u c hu (hfill.place u ▸ hc)
  case ended =>
    rw [hfill.func]
    intro c hc
    rw [hfill.block]
    exact (h.ended c hc).mono (fun o ho => hfill.code o (hlt c o ho))
      fun body' last' hops => ⟨body', hops, fun o ho => .inl ho⟩
  case form =>
    rw [hfill.func]
    intro j c hj u hu
    rw [hfill.block] at hu
    by_cases hul : u = last
    · exact fun _ => hul ▸ hform
    · rw [hfill.code u (hlt c u hu)]
      refine fun hdone =>
        hgrow.opForm h.exact (hlt c u hu) (hfill.args u hul) (h.form j c hj u hu ?_)
      rcases hdone with hjn | hterm
      · rcases Nat.lt_succ_iff_lt_or_eq.1 hjn with hjn | rfl
        · exact .inl hjn
        · obtain rfl := Option.some.inj (hi.symm.trans hj)
          exact .inr (Bool.eq_false_iff.2 fun hterm => hul (h.eq_last hi hops hu hterm))
      · exact .inr hterm
  case blank =>
    exact h.blank_of_growth hgrow (Nat.le_succ n) fun j c u hj huc hnj =>
      hfill.args u (h.ne_last hi hops hj huc (Nat.ne_of_lt hnj))
  case guarded =>
    intro u hu
    rw [hopsOf] at hu
    obtain ⟨c, hc, huc⟩ := mem_opsOf.1 hu
    rw [hfill.code u (hlt c u huc), hfill.bits u (hlt c u huc)]
    by_cases hul : u = last
    · exact .of_terminator (hul ▸ hlast)
    · rw [hfill.args u hul]
      exact (h.guarded u hu).mono fun _ _ _ hc hcom => hcom.mono hgrow hbinary hc
  case forward =>
    refine h.forward_of_growth hgrow fun c u hu hge => ?_
    rw [hfill.block] at hu
    exact absurd (hlt c u hu) (Nat.not_lt.2 hge)
  case next => exact h.next_of_growth hgrow

end Sketch

end Graph
end Disguise
