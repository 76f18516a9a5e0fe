import Disguise.Proofs.Assembling
import Disguise.Proofs.Rereading
import Disguise.Proofs.Transport

/-!
Functions recovered from drafts. What is built from a draft that follows a function is the function
under new numbers: its parts get the first free ones, in program order.
-/
namespace Disguise
open Results

/-- The places of a part of a list follow each other. -/
theorem map_idxOf {α β : Type} [DecidableEq α] {pre mid post : List α}
    (hn : (pre ++ mid ++ post).Nodup) (k : Nat → β) :
    mid.map (fun a => k ((pre ++ mid ++ post).idxOf a)) =
      (List.range mid.length).map fun i => k (pre.length + i) := by
  refine List.ext_getElem (by simp) fun i hi hi' => ?_
  rw [List.length_map] at hi
  have hlt : pre.length + i < (pre ++ mid ++ post).length := by
    simp only [List.length_append]
    omega
  have hget : (pre ++ mid ++ post)[pre.length + i] = mid[i] := by
    rw [List.getElem_append_left (by simpa using hi), List.getElem_append_right (by omega)]
    simp
  have hidx := hn.idxOf_getElem _ hlt
  rw [hget] at hidx
  simp only [List.getElem_map, List.getElem_range, hidx]

namespace Syntax
open Disguise.Graph Draft

/-- The numbers that the parts of a function get behind those of a graph. -/
def renumber (x g : Graph) (f : FuncId) : Relabeling where
  param p := ⟨x.params.size + (g.func f).params.idxOf p⟩
  block b := ⟨x.blocks.size + (g.func f).blocks.idxOf b⟩
  op o := ⟨x.ops.size + (g.opsOf f).idxOf o⟩

/-- Names that are resolved as they were given lead back to what they stand for. -/
theorem map_filterMap_resolve {α β γ : Type} {l : List (Option α)} {k : α → β} {r : β → Option γ}
    {s : α → γ} (h : ∀ v ∈ l, ∃ w, v = some w ∧ r (k w) = some (s w)) :
    (l.filterMap (·.map k)).map r = l.map (Option.map s) := by
  induction l with
  | nil => rfl
  | cons v l ih =>
    obtain ⟨w, rfl, hw⟩ := h v (by simp)
    rw [List.filterMap_cons_some (Option.map_some ..), List.map_cons, List.map_cons, hw,
      ih fun u hu => h u (by simp [hu])]
    rfl

section
variable {g x y : Graph} {m : ModuleId} {f k : FuncId} {d : Draft}
  (hd : Follows g f d (listing g (g.func f).blocks)) (wf : g.WellFormed f)
  (ht : g.TargetsListed f)
include hd wf ht

/-- The names in an op are resolved to the new numbers. -/
theorem link_draftOp {o : OpId} (ho : o ∈ g.opsOf f) : d.link x (draftOp g f 0 o) =
    { code := (g.op o).code
      bits := if (g.op o).code.isTerminator then 0 else (g.op o).bits
      args := (g.op o).args.map (Option.map (renumber x g f).operand)
      targets := (g.op o).targets.map (Option.map (renumber x g f).block) } := by
  have hvalues := hd.knows
  have hargs := map_filterMap_resolve (l := (g.op o).args) (k := draftArg g f)
    (r := d.resolve x) (s := (renumber x g f).operand) fun v hv => by
      obtain ⟨w, bits, rfl, -, hok⟩ := wf.exists_operandOk ho hv
      refine ⟨w, rfl, ?_⟩
      cases w with
      | const c => rfl
      | param p =>
        rw [draftArg, Draft.resolve, hvalues.params _ p (List.getElem?_idxOf hok.1)]
        rfl
      | result u =>
        have hresult : u ∈ resultsOf g f := List.mem_filter.2 ⟨hok.1, by simp [hok.2.2.1]⟩
        rw [draftArg, Draft.resolve, hvalues.results _ u (List.getElem?_idxOf hok.1) hresult]
        rfl
  have htargets := map_filterMap_resolve (l := (g.op o).targets) (k := fun b => (g.block b).name)
    (r := d.resolveTarget x) (s := (renumber x g f).block) fun t hmem => by
      obtain ⟨b, rfl⟩ := wf.exists_target ho hmem
      refine ⟨b, rfl, ?_⟩
      have hlabel := hd.labels ((g.func f).blocks.idxOf b) b
        (by simpa [listing] using List.getElem?_idxOf (ht o ho b hmem))
      rw [Draft.resolveTarget, hlabel]
      rfl
  unfold Draft.link draftOp
  dsimp only
  rw [hargs, htargets]

variable (hy : Built x m d y k)
include hy

omit ht in
/-- A block of the function and what it has become. -/
theorem Draft.Built.block_renumber {b : BlockId} (hb : b ∈ (g.func f).blocks) :
    y.block ((renumber x g f).block b) =
      ⟨k, (g.block b).name, (g.block b).ops.map (renumber x g f).op⟩ := by
  obtain ⟨pre, post, hsplit⟩ := List.append_of_mem hb
  obtain ⟨pre', c, post', hbody, hlen, hname, hcount, hbefore⟩ := hd.exists_split hsplit
  have hidx : (g.func f).blocks.idxOf b = pre.length := by
    have hfresh : b ∉ pre := (not_mem_of_nodup wf.blocksNodup hsplit).1
    rw [hsplit, List.idxOf_append_of_notMem hfresh, List.idxOf_cons_self, Nat.add_zero]
  have hopsOf : g.opsOf f = (pre.flatMap fun c => (g.block c).ops) ++ (g.block b).ops ++
      post.flatMap fun c => (g.block c).ops := by
    rw [Graph.opsOf, hsplit, List.flatMap_append, List.flatMap_cons, List.append_assoc]
  have hops := wf.opsOf_nodup
  rw [hopsOf] at hops
  have hmap := map_idxOf hops fun i => (⟨x.ops.size + i⟩ : OpId)
  rw [← hopsOf] at hmap
  have hnew : (renumber x g f).block b = ⟨x.blocks.size + pre'.length⟩ := by
    rw [hlen, ← hidx]
    rfl
  have hold : (g.block b).ops.map (renumber x g f).op =
      opsFrom (x.ops.size + (pre'.flatMap (·.2)).length) c.2.length := by
    rw [renumber, hmap, hcount, hbefore, opsFrom]
    simp only [Nat.add_assoc]
  rw [hnew, hy.block pre' c post' hbody, hname, hold]

omit wf ht in
/-- An op of the function and what it has become. -/
theorem Draft.Built.op_renumber {o : OpId} (ho : o ∈ g.opsOf f) :
    { (y.op ((renumber x g f).op o)).bare with block := none } =
      d.link x (draftOp g f 0 o) := by
  have hget := List.getElem?_map (f := DraftOp.unplaced) (l := d.ops) (i := (g.opsOf f).idxOf o)
  rw [hd.ops_eq, List.getElem?_map, List.getElem?_idxOf ho] at hget
  obtain ⟨op, hop, heq⟩ := Option.map_eq_some_iff.1 hget.symm
  rw [← heq]
  exact hy.op _ op hop

omit wf ht in
theorem Draft.Built.param_renumber {p : ParamId} (hp : p ∈ (g.func f).params) :
    (y.param ((renumber x g f).param p)).bare =
      { func := some k, name := (g.param p).name, bits := (g.param p).bits } := by
  refine hy.param _ ((g.param p).name, (g.param p).bits) ?_
  rw [hd.header, headerOf, List.getElem?_map, List.getElem?_idxOf hp]
  rfl

omit ht in
/-- The head is that of the draft, with the new numbers of the params and blocks. -/
theorem Draft.Built.func_eq : y.func k = { d.head x m with
    params := (g.func f).params.map (renumber x g f).param
    blocks := (g.func f).blocks.map (renumber x g f).block } := by
  have hparams := @map_idxOf _ _ _ [] (g.func f).params [] (by simpa using wf.paramsNodup)
    fun i => (⟨x.params.size + i⟩ : ParamId)
  have hblocks := @map_idxOf _ _ _ [] (g.func f).blocks [] (by simpa using wf.blocksNodup)
    fun i => (⟨x.blocks.size + i⟩ : BlockId)
  simp only [List.nil_append, List.append_nil, List.length_nil, Nat.zero_add] at hparams hblocks
  have hlen : d.header.params.length = (g.func f).params.length := by
    rw [hd.header, headerOf, List.length_map]
  have hbody : d.body.length = (g.func f).blocks.length := by
    have hlength := congrArg List.length hd.body
    rwa [List.length_map, List.length_map, listing, List.length_map] at hlength
  rw [hy.func, renumber, hparams, hblocks, Draft.head, hlen, hbody]

/-- A function is recovered from its draft, with new numbers. -/
theorem Draft.Built.maps : (renumber x g f).Maps g y f k := by
  have hhead := hy.func_eq hd wf
  rw [Draft.head, hd.header] at hhead
  have hparam := fun p hp => hy.param_renumber (p := p) hd hp
  have hblock := fun b hb => hy.block_renumber (b := b) hd wf hb
  have hop := fun o ho => (hy.op_renumber (o := o) hd ho).trans (link_draftOp hd wf ht ho)
  have hinj {α : Type} [DecidableEq α] {l : List α} {a b : α} {n : Nat} (ha : a ∈ l)
      (heq : n + l.idxOf a = n + l.idxOf b) : a = b :=
    (List.idxOf_inj ha).1 (Nat.add_left_cancel heq)
  exact
    { name := by rw [hhead]; rfl
      retBits := by rw [hhead]; rfl
      params := by rw [hhead]
      blocks := by rw [hhead]
      paramName := fun p hp => (congrArg Param.name (hparam p hp) :)
      paramBits := fun p hp => (congrArg Param.bits (hparam p hp) :)
      blockName := fun b hb => (congrArg Block.name (hblock b hb) :)
      ops := fun b hb => (congrArg Block.ops (hblock b hb) :)
      place := by
        intro b hb o ho
        refine hy.exact.block_of_mem ?_
        rw [hblock b hb]
        exact List.mem_map_of_mem ho
      code := fun o ho => (congrArg Op.code (hop o ho) :)
      bits := by
        intro o ho hterm
        have hbits : (y.op ((renumber x g f).op o)).bits =
            if (g.op o).code.isTerminator then 0 else (g.op o).bits :=
          (congrArg Op.bits (hop o ho) :)
        rw [hbits, hterm]
        rfl
      args := fun o ho => (congrArg Op.args (hop o ho) :)
      targets := fun o ho => (congrArg Op.targets (hop o ho) :)
      paramInj := fun p hp q _ heq => hinj hp (ParamId.idx_inj.2 heq)
      blockInj := fun b hb c _ heq => hinj hb (BlockId.idx_inj.2 heq)
      opInj := fun o ho u _ heq => hinj ho (OpId.idx_inj.2 heq)
      note := by rw [hhead]; rfl
      metadata := by rw [hhead]; rfl
      external := by rw [hhead]; rfl }

/-- It is new in its graph. -/
theorem Draft.Built.fresh : Fresh x y k := by
  have hmaps := hy.maps hd wf ht
  constructor
  case apart => exact hy.apart
  case exact => exact hy.exact
  case home => exact hy.home
  case retWidth =>
    rw [hmaps.retBits]
    exact wf.retWidth
  case paramOwner =>
    rw [hmaps.params]
    intro q hq
    obtain ⟨p, hp, rfl⟩ := List.mem_map.1 hq
    exact (congrArg Param.func (hy.param_renumber hd hp) :)
  case paramWidth =>
    rw [hmaps.params]
    intro q hq
    obtain ⟨p, hp, rfl⟩ := List.mem_map.1 hq
    rw [hmaps.paramBits p hp]
    exact wf.paramWidth p hp
  case paramNames =>
    have hnames : ((g.func f).params.map (renumber x g f).param).map (fun p => (y.param p).name) =
        (g.func f).params.map fun p => (g.param p).name := by
      rw [List.map_map]
      exact List.map_congr_left hmaps.paramName
    rw [hmaps.params, hnames]
    exact wf.paramNames
  case blockNew =>
    rw [hmaps.blocks]
    intro c hc
    obtain ⟨b, -, rfl⟩ := List.mem_map.1 hc
    exact Nat.le_add_right _ _
  case blockOwner =>
    rw [hmaps.blocks]
    intro c hc
    obtain ⟨b, hb, rfl⟩ := List.mem_map.1 hc
    rw [hy.block_renumber hd wf hb]
  case blockNames =>
    have hnames : ((g.func f).blocks.map (renumber x g f).block).map (fun b => (y.block b).name) =
        (g.func f).blocks.map fun b => (g.block b).name := by
      rw [List.map_map]
      exact List.map_congr_left hmaps.blockName
    rw [hmaps.blocks, hnames]
    exact wf.blockNames

end
end Syntax
end Disguise
