import Disguise.Proofs.Editing
import Disguise.Proofs.Paths

/-!
What a change to a graph has to keep for functions to stay well-formed. A function that is not
touched stays well-formed; one that is edited does so if its branches stay the same and its operands
are still available.
-/
namespace Disguise
namespace Graph
variable {g g' : Graph} {f : FuncId}

theorem flow_congr (hf : (g'.func f).blocks = (g.func f).blocks)
    (h : ∀ b ∈ (g.func f).blocks, g'.terminator? b = g.terminator? b ∧
      ∀ t, g.terminator? b = some t → (g'.op t).targets = (g.op t).targets) :
    g'.flow f = g.flow f := by
  simp only [flow, hf]
  congr 3
  apply List.map_congr_left
  intro b hb
  obtain ⟨hterm, htargets⟩ := h b hb
  rw [hterm]
  cases hcase : g.terminator? b with
  | none => rfl
  | some t => simp only [htargets t hcase]

/-- Lists that end in the same op have the same terminator. -/
theorem terminator?_congr {b : BlockId} {init init' : List OpId} {last : OpId}
    (h : (g.block b).ops = init ++ [last]) (h' : (g'.block b).ops = init' ++ [last])
    (hcode : (g'.op last).code = (g.op last).code) : g'.terminator? b = g.terminator? b := by
  simp only [terminator?, h, h', List.getLast?_concat, Option.filter, hcode]

theorem mem_of_terminator? {b : BlockId} {u : OpId} (h : g.terminator? b = some u) :
    u ∈ (g.block b).ops := by
  rw [terminator?, Option.filter_eq_some_iff] at h
  exact List.mem_of_getLast? h.1

theorem Available.mono {d u : OpId} (h : g.Available f d u)
    (hf : (g'.func f).blocks = (g.func f).blocks) (hflow : g'.flow f = g.flow f)
    (hd : ∀ b ∈ (g.func f).blocks, d ∈ (g'.block b).ops → d ∈ (g.block b).ops)
    (hu : ∀ b ∈ (g.func f).blocks, u ∈ (g'.block b).ops → u ∈ (g.block b).ops)
    (hsub : ∀ b ∈ (g.func f).blocks, [d, u].Sublist (g.block b).ops →
      [d, u].Sublist (g'.block b).ops) : g'.Available f d u := by
  intro i j b c above hb hdb hc huc habove
  rw [hf] at hb hc
  rw [dominators, hflow] at habove
  have hb' := List.mem_of_getElem? hb
  have hkey := h i j b c above hb (hd b hb' hdb) hc (hu c (List.mem_of_getElem? hc) huc) habove
  split
  · rename_i hij
    rw [if_pos hij] at hkey
    exact hsub b hb' hkey
  · rename_i hij
    rwa [if_neg hij] at hkey

/-- An operand stays what it has to be if its definition does and is still available. -/
theorem OperandOk.mono {u : OpId} {bits : Int} {v : Operand} (h : g.OperandOk f u bits v)
    (hf : (g'.func f).params = (g.func f).params)
    (hparam : ∀ p ∈ (g.func f).params, (g'.param p).bits = (g.param p).bits)
    (hop : ∀ d, v = .result d → d ∈ g.opsOf f → d ∈ g'.opsOf f ∧ (g'.op d).bits = (g.op d).bits ∧
      (g'.op d).code = (g.op d).code ∧ (g.Available f d u → g'.Available f d u)) :
    g'.OperandOk f u bits v := by
  cases v with
  | const c => exact h
  | param p =>
    obtain ⟨hp, hbits⟩ := h
    exact ⟨hf ▸ hp, (hparam p hp).trans hbits⟩
  | result d =>
    obtain ⟨hd, hbits, hterm, havail⟩ := h
    obtain ⟨hd', hbits', hcode', havail'⟩ := hop d rfl hd
    exact ⟨hd', hbits'.trans hbits, by rw [hcode']; exact hterm, havail' havail⟩

/-- An op keeps its form when its operands are mapped to others that will do. -/
theorem OpForm.map {u : OpId} (ρ : Operand → Operand) (h : g.OpForm f u)
    (hcode : (g'.op u).code = (g.op u).code) (hbits : (g'.op u).bits = (g.op u).bits)
    (htargets : (g'.op u).targets = (g.op u).targets)
    (hargs : (g'.op u).args = (g.op u).args.map (Option.map ρ))
    (hfunc : ∀ b, some b ∈ (g.op u).targets → (g.block b).owner = some f →
      (g'.block b).owner = some f)
    (hret : (g'.func f).retBits = (g.func f).retBits)
    (hok : ∀ bits v, some v ∈ (g.op u).args → g.OperandOk f u bits v →
      g'.OperandOk f u bits (ρ v)) : g'.OpForm f u := by
  cases h with
  | binary x y code args targets width float left right =>
    refine .binary (ρ x) (ρ y) (by rw [hcode]; exact code) (by simp [hargs, args])
      (by rw [htargets, targets]) (by rw [hbits]; exact width)
      (by rw [hcode, hbits]; exact float) ?_ ?_
    · rw [hbits]
      exact hok _ x (by simp [args]) left
    · rw [hbits]
      exact hok _ y (by simp [args]) right
  | unary x code args targets width operand =>
    refine .unary (ρ x) (by rw [hcode]; exact code) (by simp [hargs, args])
      (by rw [htargets, targets]) (by rw [hbits]; exact width) ?_
    rw [hbits]
    exact hok _ x (by simp [args]) operand
  | ret x code args targets operand =>
    refine .ret (ρ x) (hcode.trans code) (by simp [hargs, args]) (htargets.trans targets) ?_
    rw [hret]
    exact hok _ x (by simp [args]) operand
  | br t code args targets owner =>
    have howner := hfunc t (by simp [targets]) owner
    exact .br t (hcode.trans code) (by simp [hargs, args]) (htargets.trans targets) howner
  | brif x t e code args targets yes no operand =>
    have hyes := hfunc t (by simp [targets]) yes
    have hno := hfunc e (by simp [targets]) no
    have hoperand := hok _ x (by simp [args]) operand
    exact .brif (ρ x) t e (hcode.trans code) (by simp [hargs, args]) (htargets.trans targets)
      hyes hno hoperand

/-- The ops of a list that is ended properly may be moved as long as the last one stays. -/
theorem Ended.mono {ops ops' : List OpId} (h : g.Ended ops)
    (hcode : ∀ o ∈ ops, (g'.op o).code = (g.op o).code)
    (hops : ∀ body last, ops = body ++ [last] → ∃ body', ops' = body' ++ [last] ∧
      ∀ o ∈ body', o ∈ body ∨ (g'.op o).code.isTerminator = false) : g'.Ended ops' := by
  obtain ⟨body, last, hops₁, hlast, hbody⟩ := h
  obtain ⟨body', hops', hbody'⟩ := hops body last hops₁
  refine ⟨body', last, hops', ?_, ?_⟩
  · rw [hcode last (by simp [hops₁])]
    exact hlast
  · intro o ho
    rcases hbody' o ho with hmem | hterm
    · rw [hcode o (by simp [hops₁, hmem])]
      exact hbody o hmem
    · exact hterm

/-- The blocks that a function knows of: its own and those that it branches to. -/
def Mentions (g : Graph) (f : FuncId) (b : BlockId) : Prop :=
  b ∈ (g.func f).blocks ∨ ∃ o ∈ g.opsOf f, some b ∈ (g.op o).targets

/-- The outer parts of a function, which no edit of its ops changes. -/
structure SameHeads (g g' : Graph) (f : FuncId) : Prop where
  retBits : (g'.func f).retBits = (g.func f).retBits
  params : (g'.func f).params = (g.func f).params
  blocks : (g'.func f).blocks = (g.func f).blocks
  param : ∀ p ∈ (g.func f).params, (g'.param p).bare = (g.param p).bare
  name : ∀ b ∈ (g.func f).blocks, (g'.block b).name = (g.block b).name
  owner : ∀ b, g.Mentions f b → (g.block b).owner = some f → (g'.block b).owner = some f

namespace SameHeads
variable (h : SameHeads g g' f)
include h

theorem paramBits : ∀ p ∈ (g.func f).params, (g'.param p).bits = (g.param p).bits := by
  intro p hp
  change (g'.param p).bare.bits = (g.param p).bare.bits
  rw [h.param p hp]

/-- A function with the same outer parts is well-formed if its ops are. -/
theorem wellFormed (wf : g.WellFormed f)
    (opOwner : ∀ b ∈ (g.func f).blocks, ∀ o ∈ (g'.block b).ops, (g'.op o).block = some b)
    (opsNodup : ∀ b ∈ (g.func f).blocks, (g'.block b).ops.Nodup)
    (ended : ∀ b ∈ (g.func f).blocks, g'.Ended (g'.block b).ops)
    (form : ∀ u ∈ g'.opsOf f, g'.OpForm f u)
    (uses : ∀ v, g'.IsValue f v → ∀ u,
      g'.recorded v u = if u ∈ g'.opsOf f then g'.slots u v else 0) : g'.WellFormed f := by
  have hparams {α : Type} {k : Param → α} (hk : ∀ p : Param, k p.bare = k p) :
      ∀ p ∈ (g.func f).params, k (g'.param p) = k (g.param p) := by
    intro p hp
    rw [← hk, h.param p hp, hk]
  constructor
  case form => exact form
  case uses => exact uses
  case retWidth =>
    rw [h.retBits]
    exact wf.retWidth
  case paramOwner =>
    rw [h.params]
    exact fun p hp => (hparams (fun _ => rfl) p hp).trans (wf.paramOwner p hp)
  case paramWidth =>
    rw [h.params]
    intro p hp
    rw [h.paramBits p hp]
    exact wf.paramWidth p hp
  case paramNames =>
    rw [h.params, List.map_congr_left (hparams fun _ => rfl)]
    exact wf.paramNames
  case blockOwner =>
    rw [h.blocks]
    exact fun b hb => h.owner b (.inl hb) (wf.blockOwner b hb)
  case blockNames =>
    rw [h.blocks, List.map_congr_left h.name]
    exact wf.blockNames
  case opOwner =>
    rw [h.blocks]
    exact opOwner
  case opsNodup =>
    rw [h.blocks]
    exact opsNodup
  case ended =>
    rw [h.blocks]
    exact ended

/-- An op of the function keeps its form when its operands are mapped to others that will do. -/
theorem opForm (wf : g.WellFormed f) {u : OpId} (hu : u ∈ g.opsOf f) (ρ : Operand → Operand)
    (hcode : (g'.op u).code = (g.op u).code) (hbits : (g'.op u).bits = (g.op u).bits)
    (htargets : (g'.op u).targets = (g.op u).targets)
    (hargs : (g'.op u).args = (g.op u).args.map (Option.map ρ))
    (hok : ∀ bits v, some v ∈ (g.op u).args → g.OperandOk f u bits v →
      g'.OperandOk f u bits (ρ v)) : g'.OpForm f u := by
  have howner : ∀ b, some b ∈ (g.op u).targets → (g.block b).owner = some f →
      (g'.block b).owner = some f := fun b hb => h.owner b (.inr ⟨u, hu, hb⟩)
  exact (wf.form u hu).map ρ hcode hbits htargets hargs howner h.retBits hok

/-- In particular when it keeps them. -/
theorem opForm_of_args (wf : g.WellFormed f) {u : OpId} (hu : u ∈ g.opsOf f)
    (hcode : (g'.op u).code = (g.op u).code) (hbits : (g'.op u).bits = (g.op u).bits)
    (htargets : (g'.op u).targets = (g.op u).targets) (hargs : (g'.op u).args = (g.op u).args)
    (hok : ∀ bits v, some v ∈ (g.op u).args → g.OperandOk f u bits v →
      g'.OperandOk f u bits v) : g'.OpForm f u := by
  have hmap : (g'.op u).args = (g.op u).args.map (Option.map id) := by
    rw [Option.map_id, List.map_id, hargs]
  exact h.opForm wf hu id hcode hbits htargets hmap hok

end SameHeads

/-- Nothing is written but in function `f`, and there only what its ops, their order and the use
sets are. -/
structure Frame (g g' : Graph) (f : FuncId) : Prop where
  size : g.ops.size ≤ g'.ops.size
  opsOf : ∀ o ∈ g'.opsOf f, o ∈ g.opsOf f ∨ g.ops.size ≤ o.idx
  op : ∀ o, o.idx < g.ops.size → o ∉ g.opsOf f → g'.op o = g.op o
  param : ∀ p, (g'.param p).bare = (g.param p).bare
  otherParam : ∀ p, p ∉ (g.func f).params → g'.param p = g.param p
  block : ∀ b, b ∉ (g.func f).blocks → g'.block b = g.block b
  name : ∀ b, (g'.block b).name = (g.block b).name
  owner : ∀ b, (g'.block b).owner = (g.block b).owner
  funcs : g'.funcs = g.funcs
  modules : g'.modules = g.modules

namespace Frame

theorem refl (g : Graph) (f : FuncId) : Frame g g f where
  size := Nat.le_refl _
  opsOf _ ho := .inl ho
  op _ _ _ := rfl
  param _ := rfl
  otherParam _ _ := rfl
  block _ _ := rfl
  name _ := rfl
  owner _ := rfl
  funcs := rfl
  modules := rfl

theorem func (h : Frame g g' f) (k : FuncId) : g'.func k = g.func k := by
  rw [Graph.func, Graph.func, h.funcs]

theorem module (h : Frame g g' f) (m : ModuleId) : g'.module m = g.module m := by
  rw [Graph.module, Graph.module, h.modules]

theorem heads (h : Frame g g' f) (k : FuncId) : SameHeads g g' k where
  retBits := by rw [h.func]
  params := by rw [h.func]
  blocks := by rw [h.func]
  param p _ := h.param p
  name b _ := h.name b
  owner b _ hb := (h.owner b).trans hb

theorem trans {g'' : Graph} (h : Frame g g' f) (h' : Frame g' g'' f) : Frame g g'' f where
  size := Nat.le_trans h.size h'.size
  opsOf o ho := by
    rcases h'.opsOf o ho with hmem | hle
    · exact h.opsOf o hmem
    · exact .inr (Nat.le_trans h.size hle)
  op o hlt hnot := by
    have hnot' : o ∉ g'.opsOf f := by
      intro hmem
      rcases h.opsOf o hmem with hmem | hle
      · exact hnot hmem
      · omega
    rw [h'.op o (Nat.lt_of_lt_of_le hlt h.size) hnot', h.op o hlt hnot]
  param p := (h'.param p).trans (h.param p)
  otherParam p hp := (h'.otherParam p (by rwa [h.func])).trans (h.otherParam p hp)
  block b hb := (h'.block b (by rwa [h.func])).trans (h.block b hb)
  name b := (h'.name b).trans (h.name b)
  owner b := (h'.owner b).trans (h.owner b)
  funcs := h'.funcs.trans h.funcs
  modules := h'.modules.trans h.modules

end Frame

/-- `g'` is `g` with other ops. -/
structure Reworked (g g' : Graph) : Prop where
  funcs : g'.funcs = g.funcs
  param : ∀ p, (g'.param p).bare = (g.param p).bare
  name : ∀ b, (g'.block b).name = (g.block b).name
  owner : ∀ b, (g'.block b).owner = (g.block b).owner

namespace Reworked

theorem refl (g : Graph) : Reworked g g := ⟨rfl, fun _ => rfl, fun _ => rfl, fun _ => rfl⟩

variable (h : Reworked g g')
include h

theorem trans {g'' : Graph} (h' : Reworked g' g'') : Reworked g g'' where
  funcs := h'.funcs.trans h.funcs
  param p := (h'.param p).trans (h.param p)
  name b := (h'.name b).trans (h.name b)
  owner b := (h'.owner b).trans (h.owner b)

theorem func (k : FuncId) : g'.func k = g.func k := by
  rw [Graph.func, Graph.func, h.funcs]

/-- What is said of a param, its users apart. -/
theorem ofParam {α : Type} {k : Param → α} (hk : ∀ p : Param, k p.bare = k p) (p : ParamId) :
    k (g'.param p) = k (g.param p) := by
  rw [← hk, h.param p, hk]

theorem paramBits (p : ParamId) : (g'.param p).bits = (g.param p).bits :=
  h.ofParam (k := Param.bits) (fun _ => rfl) p

end Reworked

theorem Frame.reworked (h : Frame g g' f) : Reworked g g' := ⟨h.funcs, h.param, h.name, h.owner⟩

/-- Two graphs hold the same of a function, but for its name and tags. -/
structure Agree (g g' : Graph) (f : FuncId) : Prop where
  retBits : (g'.func f).retBits = (g.func f).retBits
  params : (g'.func f).params = (g.func f).params
  blocks : (g'.func f).blocks = (g.func f).blocks
  param : ∀ p ∈ (g.func f).params, g'.param p = g.param p
  block : ∀ b ∈ (g.func f).blocks, g'.block b = g.block b
  owner : ∀ b, g.Mentions f b → (g.block b).owner = some f → (g'.block b).owner = some f
  op : ∀ o ∈ g.opsOf f, g'.op o = g.op o

namespace Agree
variable (h : Agree g g' f)
include h

theorem opsOf : g'.opsOf f = g.opsOf f := by
  rw [Graph.opsOf, Graph.opsOf, h.blocks]
  exact List.flatMap_congr fun b hb => by rw [h.block b hb]

theorem flow (wf : g.WellFormed f) : g'.flow f = g.flow f := by
  refine flow_congr h.blocks fun b hb => ⟨?_, fun t ht => ?_⟩
  · obtain ⟨body, last, hops, -, -⟩ := wf.ended b hb
    refine terminator?_congr hops (by rw [h.block b hb, hops]) ?_
    rw [h.op last (mem_opsOf.2 ⟨b, hb, by simp [hops]⟩)]
  · rw [h.op t (mem_opsOf.2 ⟨b, hb, mem_of_terminator? ht⟩)]

theorem heads : SameHeads g g' f :=
  ⟨h.retBits, h.params, h.blocks, fun p hp => by rw [h.param p hp],
    fun b hb => by rw [h.block b hb], h.owner⟩

/-- A function that nothing was written to stays well-formed. -/
theorem wellFormed (wf : g.WellFormed f) : g'.WellFormed f := by
  have hop : ∀ {o b}, b ∈ (g.func f).blocks → o ∈ (g.block b).ops → g'.op o = g.op o :=
    fun hb ho => h.op _ (mem_opsOf.2 ⟨_, hb, ho⟩)
  refine h.heads.wellFormed wf ?_ ?_ ?_ ?_ ?_
  · intro b hb o ho
    rw [h.block b hb] at ho
    rw [hop hb ho]
    exact wf.opOwner b hb o ho
  · intro b hb
    rw [h.block b hb]
    exact wf.opsNodup b hb
  · intro b hb
    rw [h.block b hb]
    refine (wf.ended b hb).mono (fun o ho => by rw [hop hb ho]) ?_
    exact fun body last hops => ⟨body, hops, fun o ho => .inl ho⟩
  · intro u hu
    rw [h.opsOf] at hu
    have hsame := h.op u hu
    refine h.heads.opForm_of_args wf hu ?_ ?_ ?_ ?_ ?_
    · rw [hsame]
    · rw [hsame]
    · rw [hsame]
    · rw [hsame]
    intro bits v _ hv
    refine hv.mono h.params h.heads.paramBits ?_
    intro d hvd hd
    refine ⟨by rwa [h.opsOf], by rw [h.op d hd], by rw [h.op d hd], fun havail => ?_⟩
    refine havail.mono h.blocks (h.flow wf) ?_ ?_ ?_ <;>
    · intro b hb
      rw [h.block b hb]
      exact fun hmem => hmem
  · intro v hv u
    rw [h.opsOf]
    have hrec : g'.recorded v u = g.recorded v u ∧ g.IsValue f v := by
      cases v with
      | const c => exact hv.elim
      | param p =>
        simp only [IsValue, h.params] at hv
        exact ⟨by rw [recorded, recorded, h.param p hv], hv⟩
      | result o =>
        simp only [IsValue, h.opsOf] at hv
        exact ⟨by rw [recorded, recorded, h.op o hv], hv⟩
    rw [hrec.1, wf.uses v hrec.2 u]
    split
    · rename_i hu
      rw [slots, slots, h.op u hu]
    · rfl

end Agree

/-- Work on one function leaves another one alone. -/
theorem Frame.agree {k : FuncId} (h : Frame g g' f) (hne : k ≠ f) (wf : g.WellFormed f)
    (wfk : g.WellFormed k) : Agree g g' k where
  retBits := by rw [h.func]
  params := by rw [h.func]
  blocks := by rw [h.func]
  param p hp := by
    refine h.otherParam p fun hmem => hne ?_
    exact Option.some.inj ((wfk.paramOwner p hp).symm.trans (wf.paramOwner p hmem))
  block b hb := by
    refine h.block b fun hmem => hne ?_
    exact Option.some.inj ((wfk.blockOwner b hb).symm.trans (wf.blockOwner b hmem))
  owner b _ hb := (h.owner b).trans hb
  op o ho := by
    refine h.op o (wfk.lt_size ho) fun hmem => hne ?_
    obtain ⟨b, hb, hob⟩ := mem_opsOf.1 ho
    obtain ⟨c, hc, hoc⟩ := mem_opsOf.1 hmem
    have hbc : b = c :=
      Option.some.inj ((wfk.opOwner b hb o hob).symm.trans (wf.opOwner c hc o hoc))
    apply Option.some.inj
    rw [← wfk.blockOwner b hb, hbc, wf.blockOwner c hc]

end Graph
end Disguise
