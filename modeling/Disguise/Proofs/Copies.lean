import Disguise.Graph.Clone
import Disguise.Proofs.Frames

/-!
What copies leave alone. A copy is made of new values and blocks only, and its ops refer to each
other, so everything that was in the graph before stays as it was.
-/
namespace Disguise
open Results

/-- All entries of a table are in another one as they were. -/
structure Table.Extends {α : Type} [Inhabited α] (t t' : Table α) : Prop where
  size : t.size ≤ t'.size
  get : ∀ i, i < t.size → t'.get i = t.get i

namespace Table.Extends
variable {α : Type} [Inhabited α] {t t' t'' : Table α}

theorem refl (t : Table α) : t.Extends t := ⟨Nat.le_refl _, fun _ _ => rfl⟩

theorem trans (h : t.Extends t') (h' : t'.Extends t'') : t.Extends t'' := by
  refine ⟨Nat.le_trans h.size h'.size, fun i hi => ?_⟩
  rw [h'.get i (Nat.lt_of_lt_of_le hi h.size), h.get i hi]

theorem push (h : t.Extends t') (a : α) : t.Extends (t'.push a) := by
  refine ⟨by rw [Table.size_push]; exact Nat.le_succ_of_le h.size, fun i hi => ?_⟩
  have hne : i ≠ t'.size := by
    have := h.size
    omega
  rw [Table.get_push, if_neg hne, h.get i hi]

theorem modify (h : t.Extends t') {i : Nat} (hi : t.size ≤ i) (f : α → α) :
    t.Extends (t'.modify i f) := by
  refine ⟨by rw [Table.size_modify]; exact Nat.le_trans h.size (Nat.le_max_left _ _), ?_⟩
  intro j hj
  rw [Table.get_modify, if_neg (by omega), h.get j hj]

end Table.Extends

namespace Graph
variable {g g₁ g₂ : Graph}

/-- All that is in a graph is in another one as it was. -/
structure Extends (g g' : Graph) : Prop where
  ops : g.ops.Extends g'.ops
  params : g.params.Extends g'.params
  blocks : g.blocks.Extends g'.blocks
  funcs : g.funcs.Extends g'.funcs
  modules : g.modules.Extends g'.modules

theorem Extends.refl (g : Graph) : g.Extends g := ⟨.refl _, .refl _, .refl _, .refl _, .refl _⟩

theorem Extends.trans (h : g.Extends g₁) (h' : g₁.Extends g₂) : g.Extends g₂ where
  ops := h.ops.trans h'.ops
  params := h.params.trans h'.params
  blocks := h.blocks.trans h'.blocks
  funcs := h.funcs.trans h'.funcs
  modules := h.modules.trans h'.modules

/-- An operand that is no value of a graph, so it may be told of new users. -/
def Outside (g : Graph) : Operand → Prop
  | .const _ => True
  | .param p => g.params.size ≤ p.idx
  | .result o => g.ops.size ≤ o.idx

/-- A graph in which a copy of a function of `g` is made: the copy `c`, what has been renamed and
what the new ops refer to are all outside of `g`. -/
structure Copying (g : Graph) (c : FuncId) (g' : Graph) (r : Renaming) : Prop where
  extended : g.Extends g'
  copy : g.funcs.size ≤ c.idx
  head : ∀ p ∈ (g'.func c).params, g.params.size ≤ p.idx
  args : ∀ o, g.ops.size ≤ o.idx → ∀ v, some v ∈ (g'.op o).args → g.Outside v
  params : ∀ i q, r.params.get i = some q → g.params.size ≤ q.idx
  blocks : ∀ i b, r.blocks.get i = some b → g.blocks.size ≤ b.idx
  ops : ∀ i q, r.ops.get i = some q → g.ops.size ≤ q.idx

namespace Copying
variable {c : FuncId} {g' g'' : Graph} {r : Renaming} (h : Copying g c g' r)
include h

theorem modifyOp {o : OpId} (ho : g.ops.size ≤ o.idx) {k : Op → Op}
    (hk : ∀ v, some v ∈ (k (g'.op o)).args → g.Outside v) : Copying g c (g'.modifyOp o k) r where
  extended := { h.extended with ops := h.extended.ops.modify ho k }
  copy := h.copy
  head := h.head
  args := by
    intro u hu v hv
    rw [op_modifyOp] at hv
    split at hv
    · exact hk v hv
    · exact h.args u hu v hv
  params := h.params
  blocks := h.blocks
  ops := h.ops

theorem modifyParam {p : ParamId} (hp : g.params.size ≤ p.idx) (k : Param → Param) :
    Copying g c (g'.modifyParam p k) r :=
  { h with extended := { h.extended with params := h.extended.params.modify hp k } }

theorem modifyBlock {b : BlockId} (hb : g.blocks.size ≤ b.idx) (k : Block → Block) :
    Copying g c (g'.modifyBlock b k) r :=
  { h with extended := { h.extended with blocks := h.extended.blocks.modify hb k } }

theorem addUse {v : Option Operand} (hv : ∀ w, v = some w → g.Outside w) (user : OpId) :
    Copying g c (g'.addUse v user) r := by
  unfold Graph.addUse
  split
  · rename_i o
    have ho : g.ops.size ≤ o.idx := hv _ rfl
    exact h.modifyOp ho fun w hw => h.args o ho w hw
  · exact h.modifyParam (hv _ rfl) _
  · exact h

theorem addUses {args : List (Option Operand)} (hargs : ∀ v, some v ∈ args → g.Outside v)
    (user : OpId) : Copying g c (g'.addUses args user) r := by
  induction args generalizing g' with
  | nil => exact h
  | cons v args ih =>
    refine ih (h.addUse (fun w hw => hargs w (by simp [hw])) user) ?_
    exact fun w hw => hargs w (by simp [hw])

/-- New ops can be put into a new block. -/
theorem insertAt {b : BlockId} {i : Nat} {ops : List OpId} (hb : g.blocks.size ≤ b.idx)
    (hops : ∀ o ∈ ops, g.ops.size ≤ o.idx) (hok : g'.insertAt b i ops = .ok g'') :
    Copying g c g'' r := by
  unfold Graph.insertAt at hok
  rw [bind_eq_ok] at hok
  obtain ⟨g₁, hattach, hok⟩ := hok
  obtain rfl := pure_eq_ok.1 hok
  refine Copying.modifyBlock ?_ hb _
  unfold attach at hattach
  refine foldlM_keeps (P := fun x => Copying g c x r) h ?_ hattach
  intro o ho g₁ g₂ h₁ hstep
  unfold attachOp at hstep
  split at hstep
  · cases hstep
  · obtain rfl := Except.ok.inj hstep
    have hargs := h₁.args o (hops o ho)
    exact (h₁.modifyOp (hops o ho) hargs).addUses hargs o

/-- An op whose operands are outside can be added. -/
theorem newOp {code : Opcode} {bits : Int} {args : List (Option Operand)}
    {targets : List (Option BlockId)} (hargs : ∀ v, some v ∈ args → g.Outside v) :
    Copying g c (g'.newOp code bits args targets).1 r :=
  { h with
    extended := { h.extended with ops := h.extended.ops.push _ }
    args := by
      intro u hu v hv
      rw [op_newOp] at hv
      split at hv
      · exact hargs v hv
      · exact h.args u hu v hv }

theorem cloneParam (p : ParamId) :
    Copying g c (Graph.cloneParam c (g', r) p).1 (Graph.cloneParam c (g', r) p).2 where
  extended :=
    { h.extended with
      params := h.extended.params.push _
      funcs := h.extended.funcs.modify h.copy fun fn =>
        { fn with params := fn.params ++ [⟨g'.params.size⟩] } }
  copy := h.copy
  head := by
    intro q hq
    simp only [Graph.cloneParam, newParam, func_modifyFunc, if_true] at hq
    rcases List.mem_append.1 hq with hq | hq
    · exact h.head q hq
    · simp only [List.mem_cons, List.not_mem_nil, or_false] at hq
      rw [hq]
      exact h.extended.params.size
  args := h.args
  params := by
    intro i q hq
    simp only [Graph.cloneParam, newParam, Table.get_set] at hq
    split at hq
    · rw [← Option.some.inj hq]
      exact h.extended.params.size
    · exact h.params i q hq
  blocks := h.blocks
  ops := h.ops

theorem cloneBlock (b : BlockId) :
    Copying g c (Graph.cloneBlock c (g', r) b).1 (Graph.cloneBlock c (g', r) b).2 where
  extended :=
    { h.extended with
      blocks := h.extended.blocks.push _
      funcs := h.extended.funcs.modify h.copy fun fn =>
        { fn with blocks := fn.blocks ++ [⟨g'.blocks.size⟩] } }
  copy := h.copy
  head := by
    intro q hq
    simp only [Graph.cloneBlock, addBlock, newBlock, func_modifyFunc, if_true] at hq
    exact h.head q hq
  args := h.args
  params := h.params
  blocks := by
    intro i q hq
    simp only [Graph.cloneBlock, addBlock, newBlock, Table.get_set] at hq
    split at hq
    · rw [← Option.some.inj hq]
      exact h.extended.blocks.size
    · exact h.blocks i q hq
  ops := h.ops

theorem cloneOp (o : OpId) :
    Copying g c (Graph.cloneOp (g', r) o).1 (Graph.cloneOp (g', r) o).2 where
  extended := { h.extended with ops := h.extended.ops.push _ }
  copy := h.copy
  head := h.head
  args := by
    intro u hu v hv
    simp only [Graph.cloneOp, op_newOp] at hv
    split at hv
    · cases hv
    · exact h.args u hu v hv
  params := h.params
  blocks := h.blocks
  ops := by
    intro i q hq
    simp only [Graph.cloneOp, Graph.newOp, Table.get_set] at hq
    split at hq
    · rw [← Option.some.inj hq]
      exact h.extended.ops.size
    · exact h.ops i q hq

/-- A renamed operand is outside of the graph. -/
theorem outside_of_operand {v : Option Operand} {w : Operand} (hw : r.operand v = .ok (some w)) :
    g.Outside w := by
  unfold Renaming.operand at hw
  split at hw
  · rw [map_eq_ok] at hw
    obtain ⟨k, -, hk⟩ := hw
    rw [← Option.some.inj hk]
    trivial
  · split at hw
    · rename_i q hq
      rw [← Option.some.inj (Except.ok.inj hw)]
      exact h.params _ q hq
    · cases hw
  · split at hw
    · rename_i q hq
      rw [← Option.some.inj (Except.ok.inj hw)]
      exact h.ops _ q hq
    · cases hw
  · cases hw

theorem wireOp {done ops : List OpId} {o : OpId} (ho : (r.ops.get o.idx).isSome)
    (hdone : ∀ q ∈ done, g.ops.size ≤ q.idx) (hok : Graph.wireOp r (g', done) o = .ok (g'', ops)) :
    Copying g c g'' r ∧ ∀ q ∈ ops, g.ops.size ≤ q.idx := by
  obtain ⟨q, hq⟩ := Option.isSome_iff_exists.1 ho
  have hnew := h.ops _ q hq
  unfold Graph.wireOp at hok
  simp only [hq, Option.getD_some, bind_eq_ok, pure_eq_ok, Prod.mk.injEq] at hok
  obtain ⟨args, hargs, rfl, rfl⟩ := hok
  constructor
  · apply h.modifyOp hnew
    intro v hv
    rcases List.mem_append.1 hv with hv | hv
    · exact h.args q hnew v hv
    · obtain ⟨w, -, hw⟩ := exists_of_mapM hargs hv
      exact h.outside_of_operand hw
  · intro u hu
    rcases List.mem_cons.1 hu with rfl | hu
    · exact hnew
    · exact hdone u hu

theorem wireBlock {b : BlockId} (hb : (r.blocks.get b.idx).isSome)
    (hops : ∀ o ∈ (g'.block b).ops, (r.ops.get o.idx).isSome)
    (hok : Graph.wireBlock r g' b = .ok g'') : Copying g c g'' r := by
  unfold Graph.wireBlock at hok
  rw [bind_eq_ok] at hok
  obtain ⟨⟨g₁, ops⟩, hwire, happend⟩ := hok
  have hkeep := @foldlM_keeps _ _ _ (g'.block b).ops (Graph.wireOp r)
    (fun s => Copying g c s.1 r ∧ ∀ q ∈ s.2, g.ops.size ≤ q.idx) (g', []) (g₁, ops)
    ⟨h, by simp⟩ (by
      rintro o ho ⟨g₁, done⟩ ⟨g₂, ops⟩ ⟨h₁, hdone⟩ hstep
      exact h₁.wireOp (hops o ho) hdone hstep) hwire
  obtain ⟨d, hd⟩ := Option.isSome_iff_exists.1 hb
  rw [hd] at happend
  exact hkeep.1.insertAt (h.blocks _ d hd) (fun o ho => hkeep.2 o (List.mem_reverse.1 ho)) happend

end Copying

theorem isSome_foldl_cloneOp (l : List OpId) (s : Graph × Renaming) {o : OpId}
    (h : o ∈ l ∨ (s.2.ops.get o.idx).isSome) :
    ((l.foldl cloneOp s).2.ops.get o.idx).isSome := by
  induction l generalizing s with
  | nil => simpa using h
  | cons u l ih =>
    apply ih
    by_cases hu : o = u
    · right
      simp [cloneOp, Table.get_set, hu]
    · rcases h with h | h
      · left
        exact (List.mem_cons.1 h).resolve_left hu
      · right
        have hne : o.idx ≠ u.idx := fun heq => hu (OpId.idx_inj.1 heq)
        simpa [cloneOp, Table.get_set, hne] using h

theorem isSome_foldl_cloneBlock (c : FuncId) (l : List BlockId) (s : Graph × Renaming) {b : BlockId}
    (h : b ∈ l ∨ (s.2.blocks.get b.idx).isSome) :
    ((l.foldl (cloneBlock c) s).2.blocks.get b.idx).isSome := by
  induction l generalizing s with
  | nil => simpa using h
  | cons d l ih =>
    apply ih
    by_cases hd : b = d
    · right
      simp [cloneBlock, Table.get_set, hd]
    · rcases h with h | h
      · left
        exact (List.mem_cons.1 h).resolve_left hd
      · right
        have hne : b.idx ≠ d.idx := fun heq => hd (BlockId.idx_inj.1 heq)
        simpa [cloneBlock, Table.get_set, hne] using h

theorem blocks_foldl_cloneOp (l : List OpId) (s : Graph × Renaming) :
    (l.foldl cloneOp s).2.blocks = s.2.blocks := by
  induction l generalizing s with
  | nil => rfl
  | cons o l ih => exact ih (cloneOp s o)

/-- A copy of a function whose blocks are there is outside of the graph. -/
theorem cloneFunc_extends {f c : FuncId} {g' : Graph}
    (hb : ∀ b ∈ (g.func f).blocks, b.idx < g.blocks.size) (hok : g.cloneFunc f = .ok (g', c)) :
    g.Extends g' ∧ g.funcs.size ≤ c.idx ∧ ∀ p ∈ (g'.func c).params, g.params.size ≤ p.idx := by
  unfold cloneFunc at hok
  simp only [newFunc, bind_eq_ok, pure_eq_ok, Prod.mk.injEq] at hok
  obtain ⟨g₁, hwire, rfl, rfl⟩ := hok
  generalize hc : (⟨g.funcs.size⟩ : FuncId) = c at hwire ⊢
  generalize hg₀ : ({ g with funcs := g.funcs.push { g.func f with
    owner := none, params := [], blocks := [] } } : Graph) = g₀ at hwire
  have h₀ : Copying g c g₀ {} := by
    subst hg₀ hc
    refine ⟨{ Extends.refl g with funcs := (Table.Extends.refl _).push _ }, Nat.le_refl _, ?_, ?_,
      by simp, by simp, by simp⟩
    · intro p hp
      simp [func, Table.get_push] at hp
    · intro o ho v hv
      simp only [op, g.ops.get_of_size_le ho] at hv
      cases hv
  have hparams := List.foldlRecOn (g.func f).params (cloneParam c) (b := (g₀, {}))
    (motive := fun s => Copying g c s.1 s.2) h₀ fun s hs p _ => hs.cloneParam p
  have hblocks := List.foldlRecOn (g.func f).blocks (cloneBlock c)
    (motive := fun s => Copying g c s.1 s.2) hparams fun s hs b _ => hs.cloneBlock b
  have hstart := List.foldlRecOn ((g.func f).blocks.flatMap fun b => (g₀.block b).ops) cloneOp
    (motive := fun s => Copying g c s.1 s.2) hblocks fun s hs o _ => hs.cloneOp o
  have hfinal := @foldlM_keeps _ _ _ (g.func f).blocks (wireBlock _)
    (fun x => Copying g c x _) _ g₁ hstart (by
      intro b hmem g₁ g₂ h₁ hstep
      apply h₁.wireBlock _ _ hstep
      · rw [blocks_foldl_cloneOp]
        exact isSome_foldl_cloneBlock c _ _ (.inl hmem)
      · intro o ho
        apply isSome_foldl_cloneOp
        left
        have hsame : (g₁.block b).ops = (g₀.block b).ops := by
          have h₁b := h₁.extended.blocks.get b.idx (hb b hmem)
          have h₀b := h₀.extended.blocks.get b.idx (hb b hmem)
          rw [block, block, h₁b, h₀b]
        rw [hsame] at ho
        exact List.mem_flatMap.2 ⟨b, hmem, ho⟩) hwire
  exact ⟨hfinal.extended, hfinal.copy, hfinal.head⟩

/-- A new function can be put into a new module. -/
theorem Extends.addFunc {g' : Graph} {c : ModuleId} {f : FuncId} (h : g.Extends g')
    (hc : g.modules.size ≤ c.idx) (hf : g.funcs.size ≤ f.idx)
    (hp : ∀ p ∈ (g'.func f).params, g.params.size ≤ p.idx) : g.Extends (g'.addFunc c f) := by
  unfold Graph.addFunc
  dsimp only
  have howned : g.Extends (g'.modifyFunc f fun fn => { fn with owner := some c }) :=
    { h with funcs := h.funcs.modify hf fun fn => { fn with owner := some c } }
  have hparams : ((g'.modifyFunc f fun fn => { fn with owner := some c }).func f).params =
      (g'.func f).params := by rw [func_modifyFunc, if_pos rfl]
  rw [hparams]
  have hlisted := List.foldlRecOn (g'.func f).params
    (fun x p => x.modifyParam p fun pr => { pr with func := some f })
    (motive := fun x => g.Extends x) howned fun x hx p hmem =>
      { hx with params := hx.params.modify (hp p hmem) fun pr => { pr with func := some f } }
  exact { hlisted with modules := hlisted.modules.modify hc fun md =>
    { md with funcs := md.funcs ++ [f] } }

/-- A copy of a module whose functions and blocks are there is outside of the graph. -/
theorem cloneModule_extends {m c : ModuleId} {g' : Graph}
    (hf : ∀ f ∈ (g.module m).funcs, f.idx < g.funcs.size ∧
      ∀ b ∈ (g.func f).blocks, b.idx < g.blocks.size)
    (hok : g.cloneModule m = .ok (g', c)) : g.Extends g' ∧ g'.module m = g.module m := by
  unfold cloneModule at hok
  simp only [newModule, bind_eq_ok, pure_eq_ok, Prod.mk.injEq] at hok
  obtain ⟨g₁, hfold, rfl, rfl⟩ := hok
  have hstart : g.Extends { g with modules := g.modules.push {} } :=
    { Extends.refl g with modules := (Table.Extends.refl _).push _ }
  have hall := foldlM_keeps (P := fun x => g.Extends x) hstart (by
    intro f hmem g₁ g₂ h₁ hstep
    obtain ⟨hlt, hblocks⟩ := hf f hmem
    rw [bind_eq_ok] at hstep
    obtain ⟨⟨g₃, f'⟩, hclone, hstep⟩ := hstep
    obtain rfl := pure_eq_ok.1 hstep
    have hfunc : g₁.func f = g.func f := h₁.funcs.get f.idx hlt
    obtain ⟨h₃, hcopy, hparams⟩ := cloneFunc_extends (by
      intro b hb
      rw [hfunc] at hb
      exact Nat.lt_of_lt_of_le (hblocks b hb) h₁.blocks.size) hclone
    apply (h₁.trans h₃).addFunc (Nat.le_refl _) (Nat.le_trans h₁.funcs.size hcopy)
    exact fun p hp => Nat.le_trans h₁.params.size (hparams p hp)) hfold
  refine ⟨hall, ?_⟩
  by_cases hm : m.idx < g.modules.size
  · exact hall.modules.get m.idx hm
  · have hnone : (g.module m).funcs = [] := by
      rw [module, g.modules.get_of_size_le (Nat.le_of_not_lt hm)]
      rfl
    rw [hnone] at hfold
    obtain rfl := Except.ok.inj hfold
    have hdefault : g.module m = {} := g.modules.get_of_size_le (Nat.le_of_not_lt hm)
    rw [hdefault]
    by_cases heq : m.idx = g.modules.size
    · simp [module, Table.get_push, heq]
    · simp only [module, Table.get_push, if_neg heq]
      exact hdefault

theorem WellFormed.block_lt_size {f : FuncId} (wf : g.WellFormed f) {b : BlockId}
    (hb : b ∈ (g.func f).blocks) : b.idx < g.blocks.size :=
  g.lt_size_of_owner b (wf.blockOwner b hb)

theorem WellFormed.param_lt_size {f : FuncId} (wf : g.WellFormed f) {p : ParamId}
    (hp : p ∈ (g.func f).params) : p.idx < g.params.size := by
  by_contra hlt
  have howner := wf.paramOwner p hp
  rw [param, g.params.get_of_size_le (Nat.le_of_not_lt hlt)] at howner
  cases howner

/-- A well-formed function of a graph is one of every graph that extends it. -/
theorem Extends.agree {f : FuncId} {g' : Graph} (h : g.Extends g') (wf : g.WellFormed f)
    (hf : f.idx < g.funcs.size) : Agree g g' f := by
  have hfunc : g'.func f = g.func f := h.funcs.get f.idx hf
  constructor
  case retBits => rw [hfunc]
  case params => rw [hfunc]
  case blocks => rw [hfunc]
  case param => exact fun p hp => h.params.get p.idx (wf.param_lt_size hp)
  case block => exact fun b hb => h.blocks.get b.idx (wf.block_lt_size hb)
  case owner =>
    intro b _ howner
    rw [block, h.blocks.get b.idx (g.lt_size_of_owner b howner)]
    exact howner
  case op => exact fun o ho => h.ops.get o.idx (wf.lt_size ho)

end Graph
end Disguise
