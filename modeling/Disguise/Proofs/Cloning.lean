import Disguise.Proofs.Copies
import Disguise.Proofs.Transport

/-!
What copies are. A copy of a well-formed function can always be made, and it is the function under
new numbers: each part gets the first free number of its kind, in program order. The same holds for
a module, function by function.
-/
namespace Disguise
open Results

section
variable {α β γ : Type} {R : α → β → Prop} {l : List α} {l' : List β}

theorem forall_of_forall₂ {P : β → Prop} (h : List.Forall₂ R l l') (hr : ∀ a b, R a b → P b) :
    ∀ b ∈ l', P b := by
  induction h with
  | nil => simp
  | cons hab _ ih => exact List.forall_mem_cons.2 ⟨hr _ _ hab, ih⟩

theorem map_of_forall₂ {p : α → γ} {q : β → γ} (h : List.Forall₂ R l l')
    (hr : ∀ a b, R a b → q b = p a) : l'.map q = l.map p := by
  induction h with
  | nil => rfl
  | cons hab _ ih => rw [List.map_cons, List.map_cons, ih, hr _ _ hab]

end

namespace Graph
variable {g : Graph} {f : FuncId}

/-- The numbers of the parts of a function in its copy. -/
def copyOf (g : Graph) (f : FuncId) : Relabeling where
  param p := ⟨g.params.size + (g.func f).params.idxOf p⟩
  block b := ⟨g.blocks.size + (g.func f).blocks.idxOf b⟩
  op o := ⟨g.ops.size + (g.opsOf f).idxOf o⟩

/-- The number of the copy itself. -/
def copyId (g : Graph) : FuncId := ⟨g.funcs.size⟩

/-- The copy of an op before it gets operands. -/
def blankOp (g : Graph) (o : OpId) : Op := { code := (g.op o).code, bits := (g.op o).bits }

/-- The copy of an op with operands and targets. -/
def linkedOp (g : Graph) (f : FuncId) (o : OpId) : Op :=
  { g.blankOp o with
    args := (g.op o).args.map (Option.map (g.copyOf f).operand)
    targets := (g.op o).targets.map (Option.map (g.copyOf f).block) }

/-- Numbers that are given in order: the next element of a list gets the first free number, and the
elements before it have others. -/
theorem numbered_of_split {α : Type} [DecidableEq α] {l done rest : List α} {a : α}
    {base size : Nat}
    (hn : l.Nodup) (h : l = done ++ a :: rest) (hsize : size = base + done.length) :
    base + l.idxOf a = size ∧ ∀ b ∈ done, b ≠ a ∧ base + l.idxOf b ≠ size := by
  have ha : a ∉ done := (not_mem_of_nodup hn h).1
  have hfresh : ∀ b ∈ done, b ≠ a := by
    rintro b hb rfl
    exact ha hb
  refine ⟨?_, fun b hb => ⟨hfresh b hb, ?_⟩⟩
  · rw [h, List.idxOf_append_of_notMem ha, List.idxOf_cons_self, hsize, Nat.add_zero]
  · have hlt := List.idxOf_lt_length_of_mem hb
    rw [h, List.idxOf_append_of_mem hb]
    omega

/-- A copy in the making: what has been created so far, for some params, blocks and ops. -/
structure Made (g : Graph) (f : FuncId) (ps : List ParamId) (bs : List BlockId) (os : List OpId)
    (s : Graph × Renaming) : Prop where
  copying : Copying g g.copyId s.1 s.2
  paramsSize : s.1.params.size = g.params.size + ps.length
  blocksSize : s.1.blocks.size = g.blocks.size + bs.length
  opsSize : s.1.ops.size = g.ops.size + os.length
  modules : s.1.modules = g.modules
  func : s.1.func g.copyId = { g.func f with
    owner := none, params := ps.map (g.copyOf f).param, blocks := bs.map (g.copyOf f).block }
  param : ∀ p ∈ ps, s.1.param ((g.copyOf f).param p) =
    { func := some g.copyId, name := (g.param p).name, bits := (g.param p).bits }
  block : ∀ b ∈ bs, s.1.block ((g.copyOf f).block b) =
    { owner := some g.copyId, name := (g.block b).name }
  op : ∀ o ∈ os, s.1.op ((g.copyOf f).op o) = g.blankOp o
  newParam : ∀ p ∈ ps, s.2.params.get p.idx = some ((g.copyOf f).param p)
  newBlock : ∀ b ∈ bs, s.2.blocks.get b.idx = some ((g.copyOf f).block b)
  newOp : ∀ o ∈ os, s.2.ops.get o.idx = some ((g.copyOf f).op o)

namespace Made
variable {ps : List ParamId} {bs : List BlockId} {os : List OpId} {s : Graph × Renaming}
  (h : Made g f ps bs os s)
include h

theorem cloneParam {p : ParamId} {rest : List ParamId} (hn : (g.func f).params.Nodup)
    (hsplit : (g.func f).params = ps ++ p :: rest) (hp : p.idx < g.params.size) :
    Made g f (ps ++ [p]) bs os (Graph.cloneParam g.copyId s p) := by
  obtain ⟨x, r⟩ := s
  obtain ⟨hself, hothers⟩ := numbered_of_split hn hsplit h.paramsSize
  have hnew : (g.copyOf f).param p = ⟨x.params.size⟩ := congrArg ParamId.mk hself
  have hne : ∀ q ∈ ps, (g.copyOf f).param q ≠ ⟨x.params.size⟩ :=
    fun q hq heq => (hothers q hq).2 (congrArg ParamId.idx heq)
  have hsource : x.param p = g.param p := h.copying.extended.params.get p.idx hp
  have hget : ∀ q, (Graph.cloneParam g.copyId (x, r) p).1.param q = if q = ⟨x.params.size⟩ then
      { func := some g.copyId, name := (g.param p).name, bits := (g.param p).bits }
      else x.param q := by
    rintro ⟨i⟩
    simp only [Graph.cloneParam, Graph.newParam, param_modifyFunc, hsource]
    simp [Graph.param, Table.get_push]
  have hren : ∀ q : ParamId, (Graph.cloneParam g.copyId (x, r) p).2.params.get q.idx =
      if q = p then some ⟨x.params.size⟩ else r.params.get q.idx := by
    intro q
    simp only [Graph.cloneParam, Graph.newParam, Table.get_set, ParamId.idx_inj]
  refine
    { h with
      copying := h.copying.cloneParam p
      paramsSize := ?_
      func := ?_
      param := ?_
      newParam := ?_ }
  · simp only [Graph.cloneParam, Graph.newParam, modifyFunc, Table.size_push, List.length_append,
      List.length_singleton, h.paramsSize, Nat.add_assoc]
  · have hfunc := h.func
    simp only [Graph.cloneParam, Graph.newParam, func_modifyFunc, if_true]
    simp only [Graph.func] at hfunc ⊢
    rw [hfunc, List.map_append, List.map_singleton, hnew]
  · intro q hq
    rw [hget]
    rcases List.mem_append.1 hq with hq | hq
    · rw [if_neg (hne q hq)]
      exact h.param q hq
    · rw [List.mem_singleton.1 hq, if_pos hnew]
  · intro q hq
    rw [hren]
    rcases List.mem_append.1 hq with hq | hq
    · rw [if_neg (hothers q hq).1]
      exact h.newParam q hq
    · rw [List.mem_singleton.1 hq, if_pos rfl, hnew]

theorem cloneBlock {b : BlockId} {rest : List BlockId} (hn : (g.func f).blocks.Nodup)
    (hsplit : (g.func f).blocks = bs ++ b :: rest) (hb : b.idx < g.blocks.size) :
    Made g f ps (bs ++ [b]) os (Graph.cloneBlock g.copyId s b) := by
  obtain ⟨x, r⟩ := s
  obtain ⟨hself, hothers⟩ := numbered_of_split hn hsplit h.blocksSize
  have hnew : (g.copyOf f).block b = ⟨x.blocks.size⟩ := congrArg BlockId.mk hself
  have hne : ∀ c ∈ bs, (g.copyOf f).block c ≠ ⟨x.blocks.size⟩ :=
    fun c hc heq => (hothers c hc).2 (congrArg BlockId.idx heq)
  have hsource : x.block b = g.block b := h.copying.extended.blocks.get b.idx hb
  have hget : ∀ c, (Graph.cloneBlock g.copyId (x, r) b).1.block c = if c = ⟨x.blocks.size⟩ then
      { owner := some g.copyId, name := (g.block b).name } else x.block c := by
    rintro ⟨i⟩
    simp only [Graph.cloneBlock, Graph.addBlock, Graph.newBlock, block_modifyFunc, hsource]
    simp [Graph.block, Table.get_push]
  have hren : ∀ c : BlockId, (Graph.cloneBlock g.copyId (x, r) b).2.blocks.get c.idx =
      if c = b then some ⟨x.blocks.size⟩ else r.blocks.get c.idx := by
    intro c
    simp only [Graph.cloneBlock, Graph.addBlock, Graph.newBlock, Table.get_set, BlockId.idx_inj]
  refine
    { h with
      copying := h.copying.cloneBlock b
      blocksSize := ?_
      func := ?_
      block := ?_
      newBlock := ?_ }
  · simp only [Graph.cloneBlock, Graph.addBlock, Graph.newBlock, modifyFunc, Table.size_push,
      List.length_append, List.length_singleton, h.blocksSize, Nat.add_assoc]
  · have hfunc := h.func
    simp only [Graph.cloneBlock, Graph.addBlock, Graph.newBlock, func_modifyFunc, if_true]
    simp only [Graph.func] at hfunc ⊢
    rw [hfunc, List.map_append, List.map_singleton, hnew]
  · intro c hc
    rw [hget]
    rcases List.mem_append.1 hc with hc | hc
    · rw [if_neg (hne c hc)]
      exact h.block c hc
    · rw [List.mem_singleton.1 hc, if_pos hnew]
  · intro c hc
    rw [hren]
    rcases List.mem_append.1 hc with hc | hc
    · rw [if_neg (hothers c hc).1]
      exact h.newBlock c hc
    · rw [List.mem_singleton.1 hc, if_pos rfl, hnew]

theorem cloneOp {o : OpId} {rest : List OpId} (hn : (g.opsOf f).Nodup)
    (hsplit : g.opsOf f = os ++ o :: rest) (ho : o.idx < g.ops.size) :
    Made g f ps bs (os ++ [o]) (Graph.cloneOp s o) := by
  obtain ⟨x, r⟩ := s
  obtain ⟨hself, hothers⟩ := numbered_of_split hn hsplit h.opsSize
  have hnew : (g.copyOf f).op o = ⟨x.ops.size⟩ := congrArg OpId.mk hself
  have hne : ∀ u ∈ os, (g.copyOf f).op u ≠ ⟨x.ops.size⟩ :=
    fun u hu heq => (hothers u hu).2 (congrArg OpId.idx heq)
  have hsource : x.op o = g.op o := h.copying.extended.ops.get o.idx ho
  have hget : ∀ u, (Graph.cloneOp (x, r) o).1.op u =
      if u = ⟨x.ops.size⟩ then g.blankOp o else x.op u := by
    intro u
    simp only [Graph.cloneOp, op_newOp, hsource]
    rfl
  have hren : ∀ u : OpId, (Graph.cloneOp (x, r) o).2.ops.get u.idx =
      if u = o then some ⟨x.ops.size⟩ else r.ops.get u.idx := by
    intro u
    simp only [Graph.cloneOp, Graph.newOp, Table.get_set, OpId.idx_inj]
  refine
    { h with
      copying := h.copying.cloneOp o
      opsSize := ?_
      op := ?_
      newOp := ?_ }
  · simp only [Graph.cloneOp, Graph.newOp, Table.size_push, List.length_append,
      List.length_singleton, h.opsSize, Nat.add_assoc]
  · intro u hu
    rw [hget]
    rcases List.mem_append.1 hu with hu | hu
    · rw [if_neg (hne u hu)]
      exact h.op u hu
    · rw [List.mem_singleton.1 hu, if_pos hnew]
  · intro u hu
    rw [hren]
    rcases List.mem_append.1 hu with hu | hu
    · rw [if_neg (hothers u hu).1]
      exact h.newOp u hu
    · rw [List.mem_singleton.1 hu, if_pos rfl, hnew]

end Made

/-- A renaming that knows the new numbers of all parts of a function. -/
structure Renaming.Of (r : Renaming) (g : Graph) (f : FuncId) : Prop where
  param : ∀ p ∈ (g.func f).params, r.params.get p.idx = some ((g.copyOf f).param p)
  block : ∀ b ∈ (g.func f).blocks, r.blocks.get b.idx = some ((g.copyOf f).block b)
  op : ∀ o ∈ g.opsOf f, r.ops.get o.idx = some ((g.copyOf f).op o)

namespace Renaming.Of
variable {r : Renaming} (h : r.Of g f)
include h

theorem operand (wf : g.WellFormed f) {o : OpId} (ho : o ∈ g.opsOf f) {v : Option Operand}
    (hv : v ∈ (g.op o).args) : r.operand v = .ok (v.map (g.copyOf f).operand) := by
  obtain ⟨w, bits, rfl, hwidth, hok⟩ := wf.exists_operandOk ho hv
  cases w with
  | const c =>
    obtain ⟨rfl, hfits⟩ := hok
    have hval : Word.low c.val c.bits.toNat = c.val := by simpa [Word.fits] using hfits
    simp [Renaming.operand, constant, Word.truncate_of_good hwidth, hval, Relabeling.operand,
      Except.map]
  | param p => simp [Renaming.operand, h.param p hok.1, Relabeling.operand]
  | result u => simp [Renaming.operand, h.op u hok.1, Relabeling.operand]

theorem target (ht : g.TargetsListed f) {o : OpId} (ho : o ∈ g.opsOf f) {t : Option BlockId}
    (hmem : t ∈ (g.op o).targets) : r.target t = t.map (g.copyOf f).block := by
  cases t with
  | none => rfl
  | some b => exact h.block b (ht o ho b hmem)

/-- The copy of an op gets the copies of its operands and targets. -/
theorem wireOp (wf : g.WellFormed f) (ht : g.TargetsListed f) {o : OpId} (ho : o ∈ g.opsOf f)
    {x : Graph} (hsource : x.op o = g.op o) (list : List OpId) :
    Graph.wireOp r (x, list) o = .ok (x.modifyOp ((g.copyOf f).op o) fun op =>
      { op with
        args := op.args ++ (g.op o).args.map (Option.map (g.copyOf f).operand)
        targets := op.targets ++ (g.op o).targets.map (Option.map (g.copyOf f).block) },
      (g.copyOf f).op o :: list) := by
  have hargs := mapM_eq_ok fun v (hv : v ∈ (g.op o).args) => h.operand wf ho hv
  have htargets : (g.op o).targets.map r.target =
      (g.op o).targets.map (Option.map (g.copyOf f).block) :=
    List.map_congr_left fun t hmem => h.target ht ho hmem
  simp only [Graph.wireOp, h.op o ho, Option.getD_some, hsource, hargs, ok_bind, htargets]
  rfl

end Renaming.Of

/-- Part of a block is wired: the copies of the ops `done` have their operands. Apart from that, the
graph is as it was when the block was begun. -/
structure Linking (g : Graph) (f : FuncId) (r : Renaming) (x : Graph) (done : List OpId)
    (s : Graph × List OpId) : Prop where
  copying : Copying g g.copyId s.1 r
  rest : ∃ ops, s.1 = { x with ops }
  size : x.ops.size ≤ s.1.ops.size
  listed : s.2 = (done.map (g.copyOf f).op).reverse
  linked : ∀ o ∈ done, (s.1.op ((g.copyOf f).op o)).bare = g.linkedOp f o
  other : ∀ u, u ∉ done.map (g.copyOf f).op → s.1.op u = x.op u
  records : ∀ v u, s.1.recorded v u = x.recorded v u

theorem copyOf_op_inj {o u : OpId} (ho : o ∈ g.opsOf f)
    (h : (g.copyOf f).op o = (g.copyOf f).op u) : o = u := by
  have hidx : (g.opsOf f).idxOf o = (g.opsOf f).idxOf u := by
    simpa [copyOf] using h
  exact (List.idxOf_inj ho).1 hidx

theorem not_mem_map_copyOf {l : List OpId} {o : OpId} (hl : ∀ u ∈ l, u ∈ g.opsOf f)
    (ho : o ∉ l) : (g.copyOf f).op o ∉ l.map (g.copyOf f).op := by
  intro hmem
  obtain ⟨u, hu, heq⟩ := List.mem_map.1 hmem
  obtain rfl := copyOf_op_inj (hl u hu) heq
  exact ho hu

theorem copyOf_block_inj {b c : BlockId} (hb : b ∈ (g.func f).blocks)
    (h : (g.copyOf f).block b = (g.copyOf f).block c) : b = c := by
  have hidx : (g.func f).blocks.idxOf b = (g.func f).blocks.idxOf c := by
    simpa [copyOf] using h
  exact (List.idxOf_inj hb).1 hidx

theorem copyOf_param_inj {p q : ParamId} (hp : p ∈ (g.func f).params)
    (h : (g.copyOf f).param p = (g.copyOf f).param q) : p = q := by
  have hidx : (g.func f).params.idxOf p = (g.func f).params.idxOf q := by
    simpa [copyOf] using h
  exact (List.idxOf_inj hp).1 hidx

/-- The copy of an op holds what it is linked to once its operands and targets are written. -/
theorem bare_linked {x : Graph} {o : OpId}
    (hblank : (x.op ((g.copyOf f).op o)).bare = g.blankOp o) :
    ({ x.op ((g.copyOf f).op o) with
        args := (x.op ((g.copyOf f).op o)).args ++
          (g.op o).args.map (Option.map (g.copyOf f).operand)
        targets := (x.op ((g.copyOf f).op o)).targets ++
          (g.op o).targets.map (Option.map (g.copyOf f).block) } : Op).bare = g.linkedOp f o := by
  have hargs : (x.op ((g.copyOf f).op o)).args = [] := congrArg Op.args hblank
  have htargets : (x.op ((g.copyOf f).op o)).targets = [] := congrArg Op.targets hblank
  rw [hargs, htargets, List.nil_append, List.nil_append]
  change { (x.op ((g.copyOf f).op o)).bare with
    args := (g.op o).args.map (Option.map (g.copyOf f).operand)
    targets := (g.op o).targets.map (Option.map (g.copyOf f).block) } = _
  rw [hblank]
  rfl

/-- One op of a block is wired. -/
theorem Linking.wireOp {r : Renaming} {x : Graph} {done rest : List OpId} {o : OpId}
    {s : Graph × List OpId} (h : Linking g f r x done s) (hr : r.Of g f) (wf : g.WellFormed f)
    (ht : g.TargetsListed f) (hops : ∀ u ∈ done ++ o :: rest, u ∈ g.opsOf f)
    (hn : (done ++ o :: rest).Nodup)
    (hblank : (x.op ((g.copyOf f).op o)).bare = g.blankOp o) :
    ∃ s', Graph.wireOp r s o = .ok s' ∧ Linking g f r x (done ++ [o]) s' := by
  obtain ⟨y, list⟩ := s
  have ho : o ∈ g.opsOf f := hops o (by simp)
  have hsource : y.op o = g.op o := h.copying.extended.ops.get o.idx (wf.lt_size ho)
  have hfresh : (g.copyOf f).op o ∉ done.map (g.copyOf f).op :=
    not_mem_map_copyOf (fun u hu => hops u (by simp [hu])) (not_mem_of_nodup hn rfl).1
  have hsame : y.op ((g.copyOf f).op o) = x.op ((g.copyOf f).op o) := h.other _ hfresh
  have hwire := hr.wireOp wf ht ho hsource list
  refine ⟨_, hwire, ?_⟩
  constructor
  case copying =>
    have hlist : ∀ q ∈ list, g.ops.size ≤ q.idx := by
      intro q hq
      have hlisted := h.listed
      dsimp only at hlisted
      rw [hlisted, List.mem_reverse] at hq
      obtain ⟨u, -, rfl⟩ := List.mem_map.1 hq
      exact Nat.le_add_right _ _
    exact (h.copying.wireOp (by rw [hr.op o ho]; rfl) hlist hwire).1
  case rest =>
    obtain ⟨ops, rfl⟩ : ∃ ops, y = { x with ops } := h.rest
    exact ⟨_, rfl⟩
  case size => exact Nat.le_trans h.size (size_modifyOp y _ _)
  case listed => simpa using h.listed
  case linked =>
    intro u hu
    rw [op_modifyOp]
    rcases List.mem_append.1 hu with hu | hu
    · have hne : (g.copyOf f).op u ≠ (g.copyOf f).op o := by
        intro heq
        exact hfresh (heq ▸ List.mem_map_of_mem hu)
      rw [if_neg hne]
      exact h.linked u hu
    · obtain rfl := List.mem_singleton.1 hu
      rw [if_pos rfl, hsame]
      exact bare_linked hblank
  case other =>
    intro u hu
    simp only [List.map_append, List.map_cons, List.map_nil, List.mem_append, List.mem_singleton,
      not_or] at hu
    rw [op_modifyOp, if_neg hu.2]
    exact h.other u hu.1
  case records =>
    intro v u
    rw [recorded_modifyOp (by simp)]
    exact h.records v u

/-- Graph `x'` is graph `x` after a block is wired: the copies of its ops have operands and are
placed. -/
structure Linked (g : Graph) (f : FuncId) (b : BlockId) (x x' : Graph) : Prop where
  funcs : x'.funcs = x.funcs
  modules : x'.modules = x.modules
  param : ∀ p, (x'.param p).bare = (x.param p).bare
  block : ∀ c, x'.block c = if c = (g.copyOf f).block b then
    { x.block c with ops := (g.block b).ops.map (g.copyOf f).op } else x.block c
  linked : ∀ o ∈ (g.block b).ops, (x'.op ((g.copyOf f).op o)).bare =
    { g.linkedOp f o with block := some ((g.copyOf f).block b) }
  other : ∀ u, u ∉ (g.block b).ops.map (g.copyOf f).op → (x'.op u).bare = (x.op u).bare
  uses : ∀ v, v.Tracked → ∀ u, x'.recorded v u = x.recorded v u +
    if u ∈ (g.block b).ops.map (g.copyOf f).op then x'.slots u v else 0

/-- The copies of all ops of a block get their operands. -/
theorem exists_linking {r : Renaming} {b : BlockId} {x : Graph} (h : Copying g g.copyId x r)
    (hr : r.Of g f) (wf : g.WellFormed f) (ht : g.TargetsListed f) (hb : b ∈ (g.func f).blocks)
    (hblank : ∀ o ∈ (g.block b).ops, (x.op ((g.copyOf f).op o)).bare = g.blankOp o) :
    ∃ s, (g.block b).ops.foldlM (Graph.wireOp r) (x, []) = .ok s ∧
      Linking g f r x (g.block b).ops s := by
  refine foldlM_done (P := fun done s => Linking g f r x done s) ?_ ?_
  · exact ⟨h, ⟨x.ops, rfl⟩, Nat.le_refl _, rfl, by simp, fun _ _ => rfl, fun _ _ => rfl⟩
  · intro done o rest s hops hs
    refine hs.wireOp hr wf ht ?_ (hops ▸ wf.opsNodup b hb) (hblank o (by simp [hops]))
    intro u hu
    exact mem_opsOf.2 ⟨b, hb, by rwa [hops]⟩

/-- Such copies have not been placed. -/
theorem Linking.detached {r : Renaming} {x : Graph} {done : List OpId} {s : Graph × List OpId}
    (h : Linking g f r x done s) : ∀ u ∈ done.map (g.copyOf f).op, (s.1.op u).block = none := by
  intro u hu
  obtain ⟨o, ho, rfl⟩ := List.mem_map.1 hu
  exact congrArg Op.block (h.linked o ho)

/-- A block can be wired while its copy is empty. -/
theorem wireBlock_eq_ok {r : Renaming} {b : BlockId} {x : Graph} (h : Copying g g.copyId x r)
    (hr : r.Of g f) (wf : g.WellFormed f) (ht : g.TargetsListed f) (hb : b ∈ (g.func f).blocks)
    (hempty : (x.block ((g.copyOf f).block b)).ops = [])
    (hblank : ∀ o ∈ (g.block b).ops, (x.op ((g.copyOf f).op o)).bare = g.blankOp o) :
    ∃ x', Graph.wireBlock r x b = .ok x' ∧ Linked g f b x x' := by
  have hsource : x.block b = g.block b := h.extended.blocks.get b.idx (wf.block_lt_size hb)
  -- the operands of all ops first
  obtain ⟨⟨y, list⟩, hwire, hlink⟩ := exists_linking h hr wf ht hb hblank
  obtain ⟨ops, rfl⟩ : ∃ ops, y = { x with ops } := hlink.rest
  have hlist : list.reverse = (g.block b).ops.map (g.copyOf f).op := by
    rw [show list = _ from hlink.listed, List.reverse_reverse]
  -- then all of them are attached at once
  have hn : ((g.block b).ops.map (g.copyOf f).op).Nodup :=
    (wf.opsNodup b hb).map_on fun o ho u _ heq => copyOf_op_inj (mem_opsOf.2 ⟨b, hb, ho⟩) heq
  obtain ⟨z, hattach, hen⟩ := attach_eq_ok (b := (g.copyOf f).block b) hn hlink.detached
  have hblock : ∀ c, z.block c = x.block c := hen.block
  refine ⟨z.modifyBlock ((g.copyOf f).block b) fun bl =>
    { bl with ops := (g.block b).ops.map (g.copyOf f).op }, ?_, ?_⟩
  · have hnone : (({ x with ops } : Graph).block ((g.copyOf f).block b)).ops = [] := hempty
    have hold : (z.block ((g.copyOf f).block b)).ops = [] := by rw [hblock, hempty]
    simp only [Graph.wireBlock, hsource, hwire, ok_bind, hr.block b hb, Option.getD_some, hlist,
      append, insertAt, hattach, hnone, List.length_nil, List.take_zero, List.nil_append]
    simp only [modifyBlock, Table.modify, Graph.block] at hold ⊢
    rw [hold]
    simp [pure, Except.pure]
  · constructor
    case funcs => exact hen.funcs
    case modules => exact hen.modules
    case param => exact hen.param
    case block =>
      intro c
      rw [block_modifyBlock, hblock, hblock]
      split
      · rename_i hc
        rw [hc]
      · rfl
    case linked =>
      intro o ho
      rw [op_modifyBlock, hen.op, if_pos (List.mem_map_of_mem ho), hlink.linked o ho]
    case other =>
      intro u hu
      rw [op_modifyBlock, hen.op, if_neg hu, hlink.other u hu]
    case uses =>
      intro v hv u
      change z.recorded v u = _ + if _ then z.slots u v else 0
      rw [hen.records v hv u, hlink.records, hen.slots]

/-- The copies of some blocks are wired, those of the others are still empty. -/
structure Wired (g : Graph) (f : FuncId) (r : Renaming) (bs : List BlockId) (x : Graph) : Prop where
  copying : Copying g g.copyId x r
  modules : x.modules = g.modules
  func : x.func g.copyId = { g.func f with
    owner := none
    params := (g.func f).params.map (g.copyOf f).param
    blocks := (g.func f).blocks.map (g.copyOf f).block }
  param : ∀ p ∈ (g.func f).params, (x.param ((g.copyOf f).param p)).bare =
    { func := some g.copyId, name := (g.param p).name, bits := (g.param p).bits }
  block : ∀ b ∈ (g.func f).blocks, x.block ((g.copyOf f).block b) =
    { owner := some g.copyId, name := (g.block b).name
      ops := if b ∈ bs then (g.block b).ops.map (g.copyOf f).op else [] }
  op : ∀ b ∈ (g.func f).blocks, ∀ o ∈ (g.block b).ops, (x.op ((g.copyOf f).op o)).bare =
    if b ∈ bs then { g.linkedOp f o with block := some ((g.copyOf f).block b) } else g.blankOp o
  uses : ∀ v, g.IsValue f v → ∀ u, x.recorded ((g.copyOf f).operand v) u =
    if u ∈ (bs.flatMap fun b => (g.block b).ops).map (g.copyOf f).op then
      x.slots u ((g.copyOf f).operand v) else 0

/-- The copies of the ops of other blocks are not among those of a block. -/
theorem copyOf_op_apart (wf : g.WellFormed f) {b c : BlockId} (hb : b ∈ (g.func f).blocks)
    (hc : c ∈ (g.func f).blocks) (hcb : c ≠ b) {o : OpId} (ho : o ∈ (g.block c).ops) :
    (g.copyOf f).op o ∉ (g.block b).ops.map (g.copyOf f).op :=
  not_mem_map_copyOf (fun _ hu => mem_opsOf.2 ⟨b, hb, hu⟩)
    fun hin => hcb (wf.block_unique hc hb ho hin)

/-- What is on record once one more block is wired. -/
theorem Wired.recorded_linked {r : Renaming} {bs rest : List BlockId} {b : BlockId} {x x' : Graph}
    (h : Wired g f r bs x) (wf : g.WellFormed f) (hsplit : (g.func f).blocks = bs ++ b :: rest)
    (hlink : Linked g f b x x') {v : Operand} (hv : g.IsValue f v) (u : OpId) :
    x'.recorded ((g.copyOf f).operand v) u =
      if u ∈ ((bs ++ [b]).flatMap fun b => (g.block b).ops).map (g.copyOf f).op then
        x'.slots u ((g.copyOf f).operand v) else 0 := by
  have htracked : ((g.copyOf f).operand v).Tracked := by
    cases v with
    | const c => exact hv.elim
    | param p => trivial
    | result d => trivial
  rw [hlink.uses _ htracked u, h.uses v hv u, List.flatMap_append, List.map_append,
    List.flatMap_singleton]
  by_cases hu : u ∈ (g.block b).ops.map (g.copyOf f).op
  · have hnot : u ∉ (bs.flatMap fun b => (g.block b).ops).map (g.copyOf f).op := by
      intro hin
      obtain ⟨o, ho, rfl⟩ := List.mem_map.1 hin
      obtain ⟨c, hc, hoc⟩ := List.mem_flatMap.1 ho
      refine copyOf_op_apart wf (by simp [hsplit]) (by simp [hsplit, hc]) ?_ hoc hu
      rintro rfl
      exact (not_mem_of_nodup wf.blocksNodup hsplit).1 hc
    rw [if_neg hnot, if_pos hu, if_pos (List.mem_append_right _ hu), Nat.zero_add]
  · have hargs : (x'.op u).args = (x.op u).args := by
      change (x'.op u).bare.args = _
      rw [hlink.other u hu]
      rfl
    have hsame := slots_congr hargs ((g.copyOf f).operand v)
    simp only [hu, if_false, Nat.add_zero, List.mem_append, or_false, hsame]

/-- One block is wired. -/
theorem Wired.wireBlock {r : Renaming} {bs rest : List BlockId} {b : BlockId} {x : Graph}
    (h : Wired g f r bs x) (hr : r.Of g f) (wf : g.WellFormed f) (ht : g.TargetsListed f)
    (hsplit : (g.func f).blocks = bs ++ b :: rest) :
    ∃ x', Graph.wireBlock r x b = .ok x' ∧ Wired g f r (bs ++ [b]) x' := by
  have hb : b ∈ (g.func f).blocks := by simp [hsplit]
  have hfresh : b ∉ bs := (not_mem_of_nodup wf.blocksNodup hsplit).1
  have hsource : x.block b = g.block b :=
    h.copying.extended.blocks.get b.idx (wf.block_lt_size hb)
  obtain ⟨x', hok, hlink⟩ := wireBlock_eq_ok h.copying hr wf ht hb
    (by rw [h.block b hb, if_neg hfresh]) fun o ho => by rw [h.op b hb o ho, if_neg hfresh]
  refine ⟨x', hok, ?_⟩
  constructor
  case copying =>
    refine h.copying.wireBlock (by rw [hr.block b hb]; rfl) ?_ hok
    intro o ho
    rw [hsource] at ho
    rw [hr.op o (mem_opsOf.2 ⟨b, hb, ho⟩)]
    rfl
  case modules => exact hlink.modules.trans h.modules
  case func =>
    rw [Graph.func, hlink.funcs]
    exact h.func
  case param => exact fun p hp => (hlink.param _).trans (h.param p hp)
  case block =>
    intro c hc
    rw [hlink.block, h.block c hc]
    split
    · rename_i heq
      obtain rfl := copyOf_block_inj hc heq
      simp
    · rename_i hne
      have hcb : c ≠ b := fun heq => hne (by rw [heq])
      simp only [List.mem_append, List.mem_singleton, hcb, or_false]
  case op =>
    intro c hc o ho
    by_cases hcb : c = b
    · subst hcb
      rw [hlink.linked o ho, if_pos (by simp)]
    · rw [hlink.other _ (copyOf_op_apart wf hb hc hcb ho), h.op c hc o ho]
      simp only [List.mem_append, List.mem_singleton, hcb, or_false]
  case uses => exact fun v hv u => h.recorded_linked wf hsplit hlink hv u

/-- A copy with all blocks wired is the function under new numbers. -/
theorem Wired.maps {r : Renaming} {x : Graph} (h : Wired g f r (g.func f).blocks x) :
    (g.copyOf f).Maps g x f g.copyId := by
  have hop : ∀ o ∈ g.opsOf f, ∃ b, (x.op ((g.copyOf f).op o)).bare =
      { g.linkedOp f o with block := some ((g.copyOf f).block b) } := by
    intro o ho
    obtain ⟨b, hb, hob⟩ := mem_opsOf.1 ho
    exact ⟨b, by rw [h.op b hb o hob, if_pos hb]⟩
  have hpart {α : Type} {k : Op → α} (hk : ∀ op : Op, k op.bare = k op)
      (hb : ∀ (op : Op) b, k { op with block := b } = k op) :
      ∀ o ∈ g.opsOf f, k (x.op ((g.copyOf f).op o)) = k (g.linkedOp f o) := by
    intro o ho
    obtain ⟨b, heq⟩ := hop o ho
    rw [← hk, heq, hb]
  exact
    { name := by rw [h.func]
      retBits := by rw [h.func]
      params := by rw [h.func]
      blocks := by rw [h.func]
      paramName := fun p hp => (congrArg Param.name (h.param p hp) :)
      paramBits := fun p hp => (congrArg Param.bits (h.param p hp) :)
      blockName := fun b hb => by rw [h.block b hb]
      ops := fun b hb => by rw [h.block b hb, if_pos hb]
      place := by
        intro b hb o ho
        have hbare := h.op b hb o ho
        rw [if_pos hb] at hbare
        exact congrArg Op.block hbare
      code := hpart (k := Op.code) (fun _ => rfl) fun _ _ => rfl
      bits := fun o ho _ => hpart (k := Op.bits) (fun _ => rfl) (fun _ _ => rfl) o ho
      args := hpart (k := Op.args) (fun _ => rfl) fun _ _ => rfl
      targets := hpart (k := Op.targets) (fun _ => rfl) fun _ _ => rfl
      paramInj := fun p hp q _ heq => copyOf_param_inj hp heq
      blockInj := fun b hb c _ heq => copyOf_block_inj hb heq
      opInj := fun o ho u _ heq => copyOf_op_inj ho heq
      note := by rw [h.func]
      metadata := by rw [h.func]
      external := by rw [h.func] }

/-- Such a copy is well-formed, as its use sets hold what was wired. -/
theorem Wired.wellFormed {r : Renaming} {x : Graph} (h : Wired g f r (g.func f).blocks x)
    (wf : g.WellFormed f) (ht : g.TargetsListed f) : x.WellFormed g.copyId := by
  have hcarries := h.maps.toCarries
  refine hcarries.wellFormed_of wf ht (fun q hq => ?_) (fun c hc => ?_) fun w hw u => ?_
  · rw [hcarries.params] at hq
    obtain ⟨p, hp, rfl⟩ := List.mem_map.1 hq
    change (x.param _).bare.func = _
    rw [h.param p hp]
  · rw [hcarries.blocks] at hc
    obtain ⟨b, hb, rfl⟩ := List.mem_map.1 hc
    rw [h.block b hb]
  · obtain ⟨v, hv, rfl⟩ := hcarries.exists_value hw
    rw [hcarries.opsOf]
    exact h.uses v hv u

/-- A graph with a function that will be a copy of `f` and has no parts yet. -/
def copyHead (g : Graph) (f : FuncId) : Graph :=
  (g.newFunc { g.func f with owner := none, params := [], blocks := [] }).1

theorem Made.start (g : Graph) (f : FuncId) : Made g f [] [] [] (g.copyHead f, {}) := by
  have hcopying : Copying g g.copyId (g.copyHead f) {} := by
    refine ⟨{ Extends.refl g with funcs := (Table.Extends.refl _).push _ }, Nat.le_refl _, ?_, ?_,
      by simp, by simp, by simp⟩
    · intro p hp
      simp [copyHead, newFunc, copyId, Graph.func, Table.get_push] at hp
    · intro o ho v hv
      simp only [copyHead, newFunc, Graph.op, g.ops.get_of_size_le ho] at hv
      cases hv
  refine ⟨hcopying, rfl, rfl, rfl, rfl, ?_, by simp, by simp, by simp, by simp, by simp, by simp⟩
  simp [copyHead, newFunc, copyId, Graph.func, Table.get_push]

/-- All parts of a copy, its params first and its ops last. They are not wired yet. -/
def copyParts (g : Graph) (f : FuncId) : Graph × Renaming :=
  (g.opsOf f).foldl cloneOp ((g.func f).blocks.foldl (cloneBlock g.copyId)
    ((g.func f).params.foldl (cloneParam g.copyId) (g.copyHead f, {})))

theorem cloneFunc_eq (g : Graph) (f : FuncId) : g.cloneFunc f =
    (g.func f).blocks.foldlM (wireBlock (g.copyParts f).2) (g.copyParts f).1 >>=
      fun y => pure (y, g.copyId) :=
  rfl

theorem Made.all (wf : g.WellFormed f) :
    Made g f (g.func f).params (g.func f).blocks (g.opsOf f) (g.copyParts f) := by
  have hparams := foldl_done (l := (g.func f).params) (P := fun ps s => Made g f ps [] [] s)
    (.start g f) fun ps p rest s hsplit hs =>
      hs.cloneParam wf.paramsNodup hsplit (wf.param_lt_size (by simp [hsplit]))
  have hblocks := foldl_done (l := (g.func f).blocks) (P := fun bs s => Made g f _ bs [] s) hparams
    fun bs b rest s hsplit hs =>
      hs.cloneBlock wf.blocksNodup hsplit (wf.block_lt_size (by simp [hsplit]))
  exact foldl_done (l := g.opsOf f) (P := fun os s => Made g f _ _ os s) hblocks
    fun os o rest s hsplit hs =>
      hs.cloneOp wf.opsOf_nodup hsplit (wf.lt_size (by simp [hsplit]))

/-- None of the blocks is wired at first. -/
theorem Made.wired {s : Graph × Renaming}
    (h : Made g f (g.func f).params (g.func f).blocks (g.opsOf f) s) : Wired g f s.2 [] s.1 := by
  constructor
  case copying => exact h.copying
  case modules => exact h.modules
  case func => exact h.func
  case param =>
    intro p hp
    rw [h.param p hp]
    rfl
  case block =>
    intro b hb
    rw [h.block b hb]
    rfl
  case op =>
    intro b hb o ho
    rw [h.op o (mem_opsOf.2 ⟨b, hb, ho⟩)]
    rfl
  case uses =>
    intro v hv u
    cases v with
    | const c => exact hv.elim
    | param p =>
      rw [Relabeling.operand, recorded, h.param p hv]
      rfl
    | result d =>
      rw [Relabeling.operand, recorded, h.op d hv]
      rfl

/-- A copy of a well-formed function can be made. It is well-formed, too, and it is the function
under new numbers. -/
theorem cloneFunc_eq_ok (wf : g.WellFormed f) (ht : g.TargetsListed f) :
    ∃ g', g.cloneFunc f = .ok (g', g.copyId) ∧ g'.modules = g.modules ∧
      (g.copyOf f).Maps g g' f g.copyId ∧ g'.WellFormed g.copyId := by
  have hmade := Made.all wf
  have hr : (g.copyParts f).2.Of g f := ⟨hmade.newParam, hmade.newBlock, hmade.newOp⟩
  obtain ⟨g', hwire, h⟩ := foldlM_done (l := (g.func f).blocks) (k := wireBlock (g.copyParts f).2)
    (P := fun bs x => Wired g f (g.copyParts f).2 bs x) hmade.wired
    fun bs b rest x hsplit hx => hx.wireBlock hr wf ht hsplit
  refine ⟨g', ?_, h.modules, h.maps, h.wellFormed wf ht⟩
  rw [cloneFunc_eq, hwire]
  rfl

/-- A function of a graph has none of its parts in a smaller one. -/
structure Beyond (g x : Graph) (f : FuncId) : Prop where
  func : g.funcs.size ≤ f.idx
  params : ∀ p ∈ (x.func f).params, g.params.size ≤ p.idx
  blocks : ∀ b ∈ (x.func f).blocks, g.blocks.size ≤ b.idx
  ops : ∀ o ∈ x.opsOf f, g.ops.size ≤ o.idx

/-- All parts of a relabeled function are in the tables of its graph. -/
structure Stored (x : Graph) (f : FuncId) : Prop where
  func : f.idx < x.funcs.size
  params : ∀ p ∈ (x.func f).params, p.idx < x.params.size
  blocks : ∀ b ∈ (x.func f).blocks, b.idx < x.blocks.size
  ops : ∀ o ∈ x.opsOf f, o.idx < x.ops.size

end Graph

/-- What is made like a well-formed function has all its parts in the tables of its graph, as none
of them looks like an empty entry. -/
theorem Relabeling.Carries.stored {ρ : Relabeling} {g x : Graph} {f f' : FuncId}
    (h : ρ.Carries g x f f') (wf : g.WellFormed f) : x.Stored f' where
  func := by
    apply Table.lt_size_of_ne
    intro heq
    have hwidth := wf.retWidth
    rw [← h.retBits, Graph.func, heq] at hwidth
    cases hwidth
  params := by
    intro q hq
    rw [h.params] at hq
    obtain ⟨p, hp, rfl⟩ := List.mem_map.1 hq
    apply Table.lt_size_of_ne
    intro heq
    have hwidth := wf.paramWidth p hp
    rw [← h.paramBits p hp, Graph.param, heq] at hwidth
    cases hwidth
  blocks := by
    intro c hc
    rw [h.blocks] at hc
    obtain ⟨b, hb, rfl⟩ := List.mem_map.1 hc
    apply Table.lt_size_of_ne
    intro heq
    obtain ⟨body, last, hops, -, -⟩ := wf.ended b hb
    have hmap := h.ops b hb
    rw [Graph.block, heq, hops] at hmap
    have hnil : [] = (body ++ [last]).map ρ.op := hmap
    simp at hnil
  ops := by
    intro u hu
    rw [h.opsOf] at hu
    obtain ⟨o, ho, rfl⟩ := List.mem_map.1 hu
    apply Graph.lt_size_of_code
    rw [h.code o ho]
    exact wf.code_ne_invalid ho

namespace Graph
variable {g x y : Graph} {m c : ModuleId} {f k : FuncId}

/-- What is relabeled stays so in a graph that extends its own. -/
theorem Extends.maps {ρ : Relabeling} (h : x.Extends y) (hm : ρ.Maps g x f k) (hs : x.Stored k) :
    ρ.Maps g y f k := by
  apply hm.keep
  · rw [func, h.funcs.get k.idx hs.func, ← func]
  · intro p hp
    rw [param, h.params.get p.idx (hs.params p hp), ← param]
    exact ⟨rfl, rfl⟩
  · exact fun b hb => h.blocks.get b.idx (hs.blocks b hb)
  · intro o ho
    rw [op, h.ops.get o.idx (hs.ops o ho), ← op]

theorem Extends.beyond (h : x.Extends y) (hb : g.Beyond x k) (hs : x.Stored k) :
    g.Beyond y k := by
  have hfunc : y.func k = x.func k := h.funcs.get k.idx hs.func
  have hops : y.opsOf k = x.opsOf k := by
    simp only [opsOf, hfunc]
    refine List.flatMap_congr fun b hmem => ?_
    rw [block, h.blocks.get b.idx (hs.blocks b hmem), ← block]
  refine ⟨hb.func, ?_, ?_, ?_⟩
  · rw [hfunc]
    exact hb.params
  · rw [hfunc]
    exact hb.blocks
  · rw [hops]
    exact hb.ops

/-- Putting a function into a module changes who owns it and its params, and nothing else. -/
theorem addFunc_parts (g : Graph) (c : ModuleId) (f : FuncId) :
    (∀ k, (g.addFunc c f).func k =
      if k = f then { g.func f with owner := some c } else g.func k) ∧
    (∀ p, (g.addFunc c f).param p =
      if p ∈ (g.func f).params then { g.param p with func := some f } else g.param p) ∧
    (g.addFunc c f).blocks = g.blocks ∧ (g.addFunc c f).ops = g.ops ∧
    ((g.addFunc c f).module c).funcs = (g.module c).funcs ++ [f] ∧
    g.modules.size ≤ (g.addFunc c f).modules.size := by
  have hfold : ∀ (ps : List ParamId) (x : Graph),
      let y := ps.foldl (fun x p => x.modifyParam p fun pr => { pr with func := some f }) x
      y.ops = x.ops ∧ y.blocks = x.blocks ∧ y.funcs = x.funcs ∧ y.modules = x.modules ∧
        ∀ p, y.param p = if p ∈ ps then { x.param p with func := some f } else x.param p := by
    intro ps
    induction ps with
    | nil => simp
    | cons q ps ih =>
      intro x
      obtain ⟨hops, hblocks, hfuncs, hmodules, hparam⟩ :=
        ih (x.modifyParam q fun pr => { pr with func := some f })
      refine ⟨hops, hblocks, hfuncs, hmodules, fun p => ?_⟩
      rw [List.foldl_cons, hparam p, param_modifyParam]
      by_cases hpq : p = q
      · simp [hpq]
      · simp [hpq]
  unfold addFunc
  dsimp only
  have howned : ∀ k, (g.modifyFunc f fun fn => { fn with owner := some c }).func k =
      if k = f then { g.func f with owner := some c } else g.func k := fun k => by
    rw [func_modifyFunc]
  obtain ⟨hops, hblocks, hfuncs, hmodules, hparam⟩ := hfold (g.func f).params
    (g.modifyFunc f fun fn => { fn with owner := some c })
  rw [howned f, if_pos rfl]
  refine ⟨fun k => ?_, hparam, hblocks, hops, ?_, ?_⟩
  · rw [func_modifyModule, func, hfuncs, ← func, howned]
  · rw [module_modifyModule, if_pos rfl, module, hmodules]
    rfl
  · rw [modifyModule, Table.size_modify, hmodules]
    exact Nat.le_max_left _ _

theorem free_addFunc (g : Graph) (c : ModuleId) (f k : FuncId) :
    ((g.addFunc c f).func k).free = (g.func k).free := by
  rw [(addFunc_parts g c f).1 k]
  split
  · rename_i hk
    rw [hk]
    rfl
  · rfl

/-- Whatever a function has besides its owner it keeps. -/
theorem addFunc_same {α : Type} (r : Func → α) (hr : ∀ fn : Func, r fn.free = r fn) (g : Graph)
    (c : ModuleId) (f k : FuncId) : r ((g.addFunc c f).func k) = r (g.func k) := by
  rw [← hr, free_addFunc, hr]

theorem maps_addFunc {ρ : Relabeling} (h : ρ.Maps g x f k) (c : ModuleId) (f' : FuncId) :
    ρ.Maps g (x.addFunc c f') f k := by
  obtain ⟨-, hparam, hblocks, hops, -, -⟩ := addFunc_parts x c f'
  apply h.keep (free_addFunc x c f' k)
  · intro p _
    rw [hparam p]
    split <;> exact ⟨rfl, rfl⟩
  · exact fun b _ => congrArg (fun t => t.get b.idx) hblocks
  · exact fun o _ => congrArg (fun t => (t.get o.idx).bare) hops

theorem beyond_addFunc (h : g.Beyond x k) (c : ModuleId) (f' : FuncId) :
    g.Beyond (x.addFunc c f') k := by
  obtain ⟨-, -, hblocks, -, -, -⟩ := addFunc_parts x c f'
  have hparams := addFunc_same Func.params (fun _ => rfl) x c f' k
  have hlist := addFunc_same Func.blocks (fun _ => rfl) x c f' k
  have hops : (x.addFunc c f').opsOf k = x.opsOf k := by
    simp only [opsOf, hlist, block, hblocks]
  refine ⟨h.func, ?_, ?_, ?_⟩
  · rw [hparams]
    exact h.params
  · rw [hlist]
    exact h.blocks
  · rw [hops]
    exact h.ops

/-- A function that two graphs hold alike branches to its own blocks in both. -/
theorem Agree.listed (h : Agree g x f) (ht : g.TargetsListed f) : x.TargetsListed f := by
  intro o ho b hb
  rw [h.opsOf] at ho
  rw [h.op o ho] at hb
  rw [h.blocks]
  exact ht o ho b hb

/-- It keeps its numbers. -/
theorem Agree.carries (h : Agree g x f) (wf : g.WellFormed f)
    (hname : (x.func f).name = (g.func f).name) : Relabeling.same.Carries g x f f :=
  Relabeling.carries_same hname h.retBits h.params h.blocks
    (fun p hp => by rw [h.param p hp]; exact ⟨rfl, rfl⟩) h.block (fun o ho => by rw [h.op o ho])
    wf.opOwner

theorem Agree.maps (h : Agree g x f) (wf : g.WellFormed f) (hfunc : x.func f = g.func f) :
    Relabeling.same.Maps g x f f :=
  { h.carries wf (by rw [hfunc]) with
    note := by rw [hfunc]
    metadata := by rw [hfunc]
    external := by rw [hfunc] }

/-- A function that owns its params can be put into a module without a change to what they hold. -/
theorem agree_addFunc (wf : g.WellFormed f) (m : ModuleId) (k : FuncId) :
    Agree g (g.addFunc m f) k := by
  obtain ⟨-, hparam, hblocks, hops, -, -⟩ := addFunc_parts g m f
  have hblock : ∀ b, (g.addFunc m f).block b = g.block b := fun b => by rw [block, hblocks, ← block]
  constructor
  case retBits => exact addFunc_same Func.retBits (fun _ => rfl) g m f k
  case params => exact addFunc_same Func.params (fun _ => rfl) g m f k
  case blocks => exact addFunc_same Func.blocks (fun _ => rfl) g m f k
  case block => exact fun b _ => hblock b
  case owner => exact fun b _ hb => by rw [hblock, hb]
  case op => exact fun o _ => by rw [op, hops, ← op]
  case param =>
    intro p _
    rw [hparam p]
    split
    · rename_i hp
      rw [← wf.paramOwner p hp]
    · rfl

/-- Two functions that share no part. -/
structure Apart (x : Graph) (f k : FuncId) : Prop where
  params : ∀ p ∈ (x.func k).params, p ∉ (x.func f).params
  blocks : ∀ b ∈ (x.func k).blocks, b ∉ (x.func f).blocks
  ops : ∀ o ∈ x.opsOf k, o ∉ x.opsOf f

/-- What is in a graph has nothing to do with what is not. -/
theorem Beyond.apart (h : g.Beyond x k) (wf : g.WellFormed f) (ha : Agree g x f) : x.Apart f k where
  params p hp hmem := by
    rw [ha.params] at hmem
    exact absurd (wf.param_lt_size hmem) (Nat.not_lt.2 (h.params p hp))
  blocks b hb hmem := by
    rw [ha.blocks] at hmem
    exact absurd (wf.block_lt_size hmem) (Nat.not_lt.2 (h.blocks b hb))
  ops o ho hmem := by
    rw [ha.opsOf] at hmem
    exact absurd (wf.lt_size hmem) (Nat.not_lt.2 (h.ops o ho))

/-- Function `k` of `x` is a copy of the well-formed function `f` of `g`, and none of its parts is
in `g`. -/
structure Copied (g x : Graph) (f k : FuncId) : Prop where
  source : g.WellFormed f
  maps : ∃ ρ : Relabeling, ρ.Maps g x f k
  beyond : g.Beyond x k
  wellFormed : x.WellFormed k
  listed : x.TargetsListed k

theorem Copied.stored (h : g.Copied x f k) : x.Stored k := by
  obtain ⟨ρ, hm⟩ := h.maps
  exact hm.stored h.source

theorem Copied.mono (h : g.Copied x f k) (hext : x.Extends y) : g.Copied y f k := by
  obtain ⟨ρ, hm⟩ := h.maps
  have hagree := hext.agree h.wellFormed h.stored.func
  exact ⟨h.source, ⟨ρ, hext.maps hm h.stored⟩, hext.beyond h.beyond h.stored,
    hagree.wellFormed h.wellFormed, hagree.listed h.listed⟩

theorem Copied.addFunc (h : g.Copied x f k) (c : ModuleId) {f' : FuncId} (wf : x.WellFormed f') :
    g.Copied (x.addFunc c f') f k := by
  obtain ⟨ρ, hm⟩ := h.maps
  have hagree := agree_addFunc wf c k
  exact ⟨h.source, ⟨ρ, maps_addFunc hm c f'⟩, beyond_addFunc h.beyond c f',
    hagree.wellFormed h.wellFormed, hagree.listed h.listed⟩

/-- A function of a graph can be copied in every graph that extends its own. -/
theorem Extends.cloneFunc (h : g.Extends x) (wf : g.WellFormed f) (ht : g.TargetsListed f)
    (hf : f.idx < g.funcs.size) :
    ∃ y, x.cloneFunc f = .ok (y, x.copyId) ∧ y.modules = x.modules ∧ x.Extends y ∧
      g.Copied y f x.copyId := by
  have hagree := h.agree wf hf
  have hfunc : x.func f = g.func f := h.funcs.get f.idx hf
  have wfx := hagree.wellFormed wf
  obtain ⟨y, hok, hmodules, hmaps, wfy⟩ := cloneFunc_eq_ok wfx (hagree.listed ht)
  obtain ⟨hext, hcopy, hparams⟩ := cloneFunc_extends (fun b hb => wfx.block_lt_size hb) hok
  have hfaithful := (hagree.maps wf hfunc).trans hmaps
  have hlisted := hmaps.targetsListed (hagree.listed ht)
  have hsize := Nat.le_trans h.funcs.size hcopy
  refine ⟨y, hok, hmodules, hext, wf, ⟨_, hfaithful⟩, ⟨hsize, ?_, ?_, ?_⟩, wfy, hlisted⟩
  · exact fun p hp => Nat.le_trans h.params.size (hparams p hp)
  · intro b hb
    rw [hmaps.blocks] at hb
    obtain ⟨d, -, rfl⟩ := List.mem_map.1 hb
    exact Nat.le_trans h.blocks.size (Nat.le_add_right _ _)
  · intro o ho
    rw [hmaps.opsOf] at ho
    obtain ⟨u, -, rfl⟩ := List.mem_map.1 ho
    exact Nat.le_trans h.ops.size (Nat.le_add_right _ _)

/-- The copies of some functions, in the module in which they are collected. -/
structure Collected (g : Graph) (c : ModuleId) (done : List FuncId) (x : Graph) : Prop where
  extended : g.Extends x
  copies : List.Forall₂ (g.Copied x) done (x.module c).funcs
  owner : ∀ k ∈ (x.module c).funcs, (x.func k).owner = some c
  new : g.modules.size ≤ c.idx
  stored : c.idx < x.modules.size

/-- One more function is copied and put into the module. -/
theorem Collected.cloneFunc {done : List FuncId} (h : g.Collected c done x) (wf : g.WellFormed f)
    (ht : g.TargetsListed f) (hf : f.idx < g.funcs.size) :
    ∃ y, x.cloneFunc f = .ok (y, x.copyId) ∧
      g.Collected c (done ++ [f]) (y.addFunc c x.copyId) := by
  obtain ⟨y, hok, hmodules, hext, hnew⟩ := h.extended.cloneFunc wf ht hf
  obtain ⟨hfuncs, -, -, -, hlist, hsize⟩ := addFunc_parts y c x.copyId
  have hold : y.module c = x.module c := congrArg (fun t => t.get c.idx) hmodules
  refine ⟨y, hok, ?_, ?_, ?_, h.new,
    Nat.lt_of_lt_of_le h.stored (Nat.le_trans hext.modules.size hsize)⟩
  · exact (h.extended.trans hext).addFunc h.new hnew.beyond.func hnew.beyond.params
  · rw [hlist, hold]
    apply List.rel_append
    · exact h.copies.imp fun f k hk => (hk.mono hext).addFunc c hnew.wellFormed
    · exact .cons (hnew.addFunc c hnew.wellFormed) .nil
  · rw [hlist, hold]
    intro k hk
    rw [hfuncs k]
    split
    · rfl
    · rename_i hne
      have hk := (List.mem_append.1 hk).resolve_right (by simpa using hne)
      have hstored := forall_of_forall₂ h.copies (fun _ _ hk => hk.stored.func) k hk
      rw [func, hext.funcs.get k.idx hstored, ← func]
      exact h.owner k hk

theorem ModuleWellFormed.agree (wf : g.ModuleWellFormed m) (h : g.Extends x) :
    ∀ f ∈ (g.module m).funcs, Agree g x f :=
  fun f hf => h.agree (wf.funcs f hf) (wf.lt_size hf)

/-- A copy of a well-formed module can be made, and its functions are those of the module under new
numbers. -/
theorem cloneModule_eq_ok (wf : g.ModuleWellFormed m)
    (ht : ∀ f ∈ (g.module m).funcs, g.TargetsListed f) :
    ∃ x c, g.cloneModule m = .ok (x, c) ∧ g.Collected c (g.module m).funcs x := by
  have hstart : g.Collected ⟨g.modules.size⟩ [] g.newModule.1 := by
    have hnone : ((g.newModule.1).module ⟨g.modules.size⟩).funcs = [] := by
      simp [newModule, module, Table.get_push]
    refine ⟨{ Extends.refl g with modules := (Table.Extends.refl _).push _ }, ?_, ?_, Nat.le_refl _,
      Nat.lt_of_lt_of_eq (Nat.lt_succ_self _) (g.modules.size_push _).symm⟩ <;> rw [hnone]
    · exact .nil
    · simp
  obtain ⟨x, hok, hx⟩ := foldlM_done (l := (g.module m).funcs) (k := fun x f => do
      let copy ← x.cloneFunc f
      pure (copy.1.addFunc ⟨g.modules.size⟩ copy.2))
    (P := fun done x => g.Collected ⟨g.modules.size⟩ done x) hstart (by
      intro done f rest x hsplit hx
      have hf : f ∈ (g.module m).funcs := by simp [hsplit]
      obtain ⟨y, hclone, hy⟩ := hx.cloneFunc (wf.funcs f hf) (ht f hf) (wf.lt_size hf)
      exact ⟨_, by simp only [hclone, ok_bind]; rfl, hy⟩)
  refine ⟨x, ⟨g.modules.size⟩, ?_, hx⟩
  simp only [cloneModule, newModule] at hok ⊢
  rw [hok]
  rfl

end Graph
end Disguise
