import Disguise.Proofs.Splicing

/-!
Removing dead ops. What `removeDead` takes out are ops that are used by nothing but each other, so a
function stays well-formed if they were none of its terminators.
-/
namespace Disguise
open Results
namespace Graph
variable {g g' : Graph} {f : FuncId} {gone : List OpId}

/-- The ops in `gone`, which no other op uses, have been taken out of function `f`. -/
structure Swept (g g' : Graph) (f : FuncId) (gone : List OpId) : Prop where
  mem : ∀ o ∈ gone, o ∈ g.opsOf f
  code : ∀ o ∈ gone, (g.op o).code ∈ Rule.replaceable
  unused : ∀ o ∈ gone, ∀ u ∈ g.opsOf f, u ∉ gone → g.slots u (.result o) = 0
  ops : ∀ b ∈ (g.func f).blocks, (g'.block b).ops = (g.block b).ops.filter (· ∉ gone)
  block : ∀ b, b ∉ (g.func f).blocks → g'.block b = g.block b
  name : ∀ b, (g'.block b).name = (g.block b).name
  owner : ∀ b, (g'.block b).owner = (g.block b).owner
  size : g.ops.size ≤ g'.ops.size
  op : ∀ u, (g'.op u).bare =
    if u ∈ gone then { (g.op u).bare with block := none } else (g.op u).bare
  param : ∀ p, (g'.param p).bare = (g.param p).bare
  funcs : g'.funcs = g.funcs
  modules : g'.modules = g.modules
  records : ∀ v, v.Tracked → ∀ u,
    g.recorded v u = g'.recorded v u + if u ∈ gone then g.slots u v else 0

/-- No op of function `f` reads the result of `o`. -/
def Unused (g : Graph) (f : FuncId) (o : OpId) : Prop := ∀ u ∈ g.opsOf f, g.slots u (.result o) = 0

/-- An op that nothing reads has no users on record. -/
theorem Unused.recorded {o : OpId} (h : g.Unused f o) (wf : g.WellFormed f) (ho : o ∈ g.opsOf f)
    (u : OpId) : g.recorded (.result o) u = 0 := by
  rw [wf.uses (.result o) ho u]
  split
  · exact h u ‹_›
  · rfl

namespace Swept
variable (h : Swept g g' f gone) (wf : g.WellFormed f)
include h

theorem func (k : FuncId) : g'.func k = g.func k := by
  rw [Graph.func, Graph.func, h.funcs]

theorem same {α : Type} (k : Op → α) (hk : ∀ (op : Op) block, k { op.bare with block } = k op)
    (u : OpId) : k (g'.op u) = k (g.op u) := by
  have hop := h.op u
  split at hop
  · exact Op.same_of_moved hk hop
  · exact Op.same_of_moved hk hop

theorem code_eq (u : OpId) : (g'.op u).code = (g.op u).code := h.same Op.code (fun _ _ => rfl) u

theorem bits_eq (u : OpId) : (g'.op u).bits = (g.op u).bits := h.same Op.bits (fun _ _ => rfl) u

theorem args_eq (u : OpId) : (g'.op u).args = (g.op u).args := h.same Op.args (fun _ _ => rfl) u

theorem targets_eq (u : OpId) : (g'.op u).targets = (g.op u).targets :=
  h.same Op.targets (fun _ _ => rfl) u

theorem mem_ops {b : BlockId} (hb : b ∈ (g.func f).blocks) {u : OpId} :
    u ∈ (g'.block b).ops ↔ u ∈ (g.block b).ops ∧ u ∉ gone := by
  simp [h.ops b hb]

theorem opsOf_eq : g'.opsOf f = (g.opsOf f).filter (· ∉ gone) := by
  rw [Graph.opsOf, Graph.opsOf, h.func, List.filter_flatMap]
  exact List.flatMap_congr h.ops

theorem mem_opsOf {u : OpId} : u ∈ g'.opsOf f ↔ u ∈ g.opsOf f ∧ u ∉ gone := by
  simp [h.opsOf_eq]

theorem not_isTerminator {o : OpId} (ho : o ∈ gone) : (g.op o).code.isTerminator = false := by
  exact Opcode.not_isTerminator_of_isBinary (Rule.isBinary_of_replaceable (h.code o ho))

theorem heads : SameHeads g g' f where
  retBits := by rw [h.func]
  params := by rw [h.func]
  blocks := by rw [h.func]
  param p _ := h.param p
  name b _ := h.name b
  owner b _ hb := (h.owner b).trans hb

/-- What a remaining op reads remains. -/
theorem not_mem_of_read {u d : OpId} (hu : u ∈ g.opsOf f) (hnot : u ∉ gone)
    (hread : some (.result d) ∈ (g.op u).args) : d ∉ gone :=
  fun hgone => List.count_eq_zero.1 (h.unused d hgone u hu hnot) hread

/-- The end of a block stays. -/
theorem ops_last {b : BlockId} (hb : b ∈ (g.func f).blocks) {body : List OpId} {last : OpId}
    (hops : (g.block b).ops = body ++ [last]) (hlast : (g.op last).code.isTerminator) :
    (g'.block b).ops = body.filter (· ∉ gone) ++ [last] := by
  have hnot : last ∉ gone := fun hmem => by simp [h.not_isTerminator hmem] at hlast
  rw [h.ops b hb, hops, List.filter_append]
  simp [hnot]

/-- The order in which ops are taken out does not matter. -/
theorem perm {gone' : List OpId} (hperm : gone.Perm gone') : Swept g g' f gone' where
  mem o ho := h.mem o (hperm.mem_iff.2 ho)
  code o ho := h.code o (hperm.mem_iff.2 ho)
  unused o ho u hu hnot := h.unused o (hperm.mem_iff.2 ho) u hu fun hmem =>
    hnot (hperm.mem_iff.1 hmem)
  ops b hb := by simp only [h.ops b hb, hperm.mem_iff]
  block := h.block
  name := h.name
  owner := h.owner
  size := h.size
  op u := by simp only [h.op u, hperm.mem_iff]
  param := h.param
  funcs := h.funcs
  modules := h.modules
  records v hv u := by simp only [h.records v hv u, hperm.mem_iff]

include wf

/-- As many ops are missing as have been taken out. -/
theorem numOps (hn : gone.Nodup) : g'.numOps f + gone.length = g.numOps f := by
  have hgone : ((g.opsOf f).filter (· ∈ gone)).Perm gone := by
    refine (List.perm_ext_iff_of_nodup (wf.opsOf_nodup.filter _) hn).2 fun u => ?_
    simpa using h.mem u
  have hsplit := List.length_eq_length_filter_add (l := g.opsOf f) (· ∈ gone)
  rw [hgone.length_eq] at hsplit
  rw [Graph.numOps, Graph.numOps, h.opsOf_eq, hsplit, Nat.add_comm]
  simp

theorem flow : g'.flow f = g.flow f := by
  refine flow_congr h.heads.blocks fun b hb => ⟨?_, fun t _ => h.targets_eq t⟩
  obtain ⟨body, last, hops, hlast, -⟩ := wf.ended b hb
  exact terminator?_congr hops (h.ops_last hb hops hlast) (h.code_eq last)

theorem available {u d : OpId} (hu : u ∉ gone) (hd : d ∉ gone) (havail : g.Available f d u) :
    g'.Available f d u := by
  refine havail.mono h.heads.blocks (h.flow wf) ?_ ?_ ?_
  · exact fun b hb hmem => ((h.mem_ops hb).1 hmem).1
  · exact fun b hb hmem => ((h.mem_ops hb).1 hmem).1
  · intro b hb hsub
    rw [h.ops b hb]
    simpa [hu, hd] using hsub.filter (· ∉ gone)

theorem ended {b : BlockId} (hb : b ∈ (g.func f).blocks) : g'.Ended (g'.block b).ops := by
  obtain ⟨body, last, hops, hlast, hbody⟩ := wf.ended b hb
  refine ⟨body.filter (· ∉ gone), last, h.ops_last hb hops hlast, ?_, ?_⟩
  · rw [h.code_eq]
    exact hlast
  · intro u hu
    rw [h.code_eq]
    exact hbody u (List.mem_of_mem_filter hu)

theorem opForm {u : OpId} (hu : u ∈ g.opsOf f) (hnot : u ∉ gone) : g'.OpForm f u := by
  refine h.heads.opForm_of_args wf hu (h.code_eq u) (h.bits_eq u) (h.targets_eq u)
    (h.args_eq u) ?_
  intro bits v hmem hv
  refine hv.mono h.heads.params h.heads.paramBits fun d hvd hd => ?_
  subst hvd
  have hdnot := h.not_mem_of_read hu hnot hmem
  have hmem := h.mem_opsOf.2 ⟨hd, hdnot⟩
  exact ⟨hmem, h.bits_eq d, h.code_eq d, h.available wf hnot hdnot⟩

/-- The records are those of the slots that remain. -/
theorem recorded_eq {v : Operand} (hv : g'.IsValue f v) (u : OpId) :
    g'.recorded v u = if u ∈ g'.opsOf f then g'.slots u v else 0 := by
  have hold : g.IsValue f v := by
    cases v with
    | const c => exact hv.elim
    | param p => simpa only [IsValue, h.func] using hv
    | result d => exact (h.mem_opsOf.1 hv).1
  have hrec := h.records v hv.tracked u
  rw [wf.uses v hold u] at hrec
  have hslots : g'.slots u v = g.slots u v := slots_congr (h.args_eq u) v
  by_cases hgone : u ∈ gone
  · rw [if_pos (h.mem u hgone), if_pos hgone] at hrec
    rw [if_neg (by simp [h.mem_opsOf, hgone])]
    omega
  · rw [if_neg hgone] at hrec
    simp only [h.mem_opsOf, hgone, not_false_eq_true, and_true, hslots]
    omega

theorem wellFormed : g'.WellFormed f := by
  refine h.heads.wellFormed wf ?_ ?_ (fun b hb => h.ended wf hb) ?_
    fun v hv u => h.recorded_eq wf hv u
  · intro b hb u hu
    obtain ⟨hu, hnot⟩ := (h.mem_ops hb).1 hu
    change (g'.op u).bare.block = some b
    rw [h.op u, if_neg hnot]
    exact wf.opOwner b hb u hu
  · intro b hb
    rw [h.ops b hb]
    exact (wf.opsNodup b hb).filter _
  · intro u hu
    obtain ⟨hu, hnot⟩ := h.mem_opsOf.1 hu
    exact h.opForm wf hu hnot

theorem frame : Frame g g' f := by
  have hvalue : ∀ v, v.Tracked → ¬ g.IsValue f v → ∀ u, g'.recorded v u = g.recorded v u := by
    intro v hv hnot u
    have hrec := h.records v hv u
    split at hrec
    · rename_i hgone
      rw [wf.slots_eq_zero (h.mem u hgone) hv.ne_const hnot] at hrec
      omega
    · omega
  constructor
  case size => exact h.size
  case param => exact h.param
  case block => exact h.block
  case name => exact h.name
  case owner => exact h.owner
  case funcs => exact h.funcs
  case modules => exact h.modules
  case opsOf => exact fun u hu => .inl (h.mem_opsOf.1 hu).1
  case op =>
    intro u _ hnot
    refine Op.eq_of_bare ?_ (hvalue (.result u) trivial hnot)
    rw [h.op u, if_neg fun hgone => hnot (h.mem u hgone)]
  case otherParam =>
    exact fun p hp => Param.eq_of_bare (h.param p) (hvalue (.param p) trivial hp)

end Swept
/-- What holds while uses are withdrawn. -/
structure Sweeping (g : Graph) (f : FuncId) (s : Sweep) : Prop where
  shape : SameShape g s.graph
  records : ∀ v, v.Tracked → ∀ u,
    g.recorded v u = s.graph.recorded v u + if u ∈ s.removed then g.slots u v else 0
  mem : ∀ o ∈ s.removed, o ∈ g.opsOf f
  code : ∀ o ∈ s.removed, (g.op o).code ∈ Rule.replaceable
  unused : ∀ o ∈ s.removed, ∀ u, s.graph.recorded (.result o) u = 0
  listed : ∀ o ∈ s.removed, ∃ b ∈ s.blocks, o ∈ (g.block b).ops
  blocks : ∀ b ∈ s.blocks, b ∈ (g.func f).blocks
  nodup : s.blocks.Nodup
  once : s.removed.Nodup

namespace Sweeping
variable {s : Sweep} {o : OpId} {b : BlockId} (h : Sweeping g f s)

theorem start (g : Graph) (f : FuncId) : Sweeping g f { graph := g } :=
  ⟨.refl g, by simp, by simp, by simp, by simp, by simp, by simp, by simp, by simp⟩

include h

/-- The uses of an op that is still there are on record. -/
theorem count_le (wf : g.WellFormed f) (ho : o ∈ g.opsOf f) (hnot : o ∉ s.removed) {v : Operand}
    (hv : v.Tracked) : (s.graph.op o).args.count (some v) ≤ s.graph.recorded v o := by
  have hrec := h.records v hv o
  rw [if_neg hnot, Nat.add_zero] at hrec
  rw [h.shape.args o, ← slots, ← hrec]
  by_cases hval : g.IsValue f v
  · rw [wf.uses v hval o, if_pos ho]
  · rw [wf.slots_eq_zero ho hv.ne_const hval]
    exact Nat.zero_le _

/-- An op without users is out once its uses are withdrawn. -/
theorem out (hb : b ∈ (g.func f).blocks) (hob : o ∈ (g.block b).ops)
    (hcode : (g.op o).code ∈ Rule.replaceable) (hnot : o ∉ s.removed)
    (hdead : ∀ u, s.graph.recorded (.result o) u = 0) (hshape : SameShape s.graph g')
    (hrec : ∀ v, v.Tracked → ∀ u, s.graph.recorded v u =
      g'.recorded v u + if u = o then (s.graph.op o).args.count (some v) else 0) :
    Sweeping g f ⟨g', o :: s.removed, if b ∈ s.blocks then s.blocks else s.blocks ++ [b]⟩ := by
  constructor
  case shape => exact h.shape.trans hshape
  case nodup => exact nodup_noted h.nodup b
  case once => exact List.nodup_cons.2 ⟨hnot, h.once⟩
  case records =>
    intro v hv u
    rw [h.records v hv u, hrec v hv u, h.shape.args o, slots]
    by_cases hu : u = o
    · subst hu
      simp [hnot]
    · simp [hu]
  case mem => exact List.forall_mem_cons.2 ⟨mem_opsOf.2 ⟨b, hb, hob⟩, h.mem⟩
  case code => exact List.forall_mem_cons.2 ⟨hcode, h.code⟩
  case unused =>
    intro u hu w
    have hle := hrec (.result u) trivial w
    have hzero : s.graph.recorded (.result u) w = 0 := by
      rcases List.mem_cons.1 hu with rfl | hu
      · exact hdead w
      · exact h.unused u hu w
    dsimp only
    omega
  case listed =>
    refine List.forall_mem_cons.2 ⟨⟨b, mem_noted.2 (.inr rfl), hob⟩, fun u hu => ?_⟩
    obtain ⟨c, hc, huc⟩ := h.listed u hu
    exact ⟨c, mem_noted.2 (.inl hc), huc⟩
  case blocks =>
    intro c hc
    rcases mem_noted.1 hc with hc | rfl
    · exact h.blocks c hc
    · exact hb

/-- A visit takes out its op or nothing, and an op that nothing reads is out after it. -/
theorem visit (wf : g.WellFormed f) (ho : o ∈ g.opsOf f)
    (hcode : (g.op o).code ∈ Rule.replaceable) :
    ∃ s', s.visit o = .ok s' ∧ Sweeping g f s' ∧
      (s'.removed = s.removed ∨ s'.removed = o :: s.removed) ∧
      (g.Unused f o → o ∈ s'.removed) := by
  obtain ⟨b, hb, hob⟩ := mem_opsOf.1 ho
  have hblock : (s.graph.op o).block = some b := (h.shape.block o).trans (wf.opOwner b hb o hob)
  rcases s.visit_cases o with ⟨hsame, hskip⟩ | ⟨c, hc, hnot, hsize, hvisit⟩
  · refine ⟨s, hsame, h, .inl rfl, fun hun => ?_⟩
    refine (hskip.resolve_left (by simp [hblock])).resolve_right fun hsize => hsize ?_
    refine UseSet.size_eq_zero_iff.2 fun u => ?_
    have hrec := h.records (.result o) trivial u
    rw [hun.recorded wf ho u] at hrec
    have hzero : s.graph.recorded (.result o) u = 0 := by omega
    exact hzero
  · obtain rfl : b = c := Option.some.inj (hblock.symm.trans hc)
    obtain ⟨g', hok, hshape, hrec⟩ := removeUses_eq_ok fun v hv => h.count_le wf ho hnot hv
    refine ⟨_, by rw [hvisit, hok]; rfl,
      h.out hb hob hcode hnot (UseSet.size_eq_zero_iff.1 hsize) hshape hrec, .inr rfl,
      fun _ => List.mem_cons_self⟩

end Sweeping

theorem detach_spec (ops : List OpId) (g : Graph) :
    let g' := ops.foldl (fun g o => g.modifyOp o fun op => { op with block := none }) g
    (∀ u, g'.op u = if u ∈ ops then { g.op u with block := none } else g.op u) ∧
      g.ops.size ≤ g'.ops.size ∧ g'.params = g.params ∧ g'.blocks = g.blocks ∧
      g'.funcs = g.funcs ∧ g'.modules = g.modules := by
  induction ops generalizing g with
  | nil => simp
  | cons o ops ih =>
    obtain ⟨hop, hsize, hparams, hblocks, hfuncs, hmodules⟩ :=
      ih (g.modifyOp o fun op => { op with block := none })
    refine ⟨fun u => ?_, Nat.le_trans (size_modifyOp g _ _) hsize, hparams, hblocks, hfuncs,
      hmodules⟩
    rw [List.foldl_cons, hop u, op_modifyOp]
    by_cases hu : u = o
    · subst hu
      simp
    · simp [hu]

/-- The blocks in `done` have been rebuilt without the ops in `gone`. -/
structure Dropped (g : Graph) (gone : List OpId) (done : List BlockId) (g' : Graph) : Prop where
  op : ∀ u, g'.op u = if u ∈ gone ∧ ∃ b ∈ done, u ∈ (g.block b).ops then
    { g.op u with block := none } else g.op u
  size : g.ops.size ≤ g'.ops.size
  block : ∀ b, g'.block b = if b ∈ done then
    { g.block b with ops := (g.block b).ops.filter (· ∉ gone) } else g.block b
  params : g'.params = g.params
  funcs : g'.funcs = g.funcs
  modules : g'.modules = g.modules

/-- Records are left as they are. -/
theorem Dropped.recorded {done : List BlockId} (h : Dropped g gone done g') (v : Operand)
    (u : OpId) : g'.recorded v u = g.recorded v u := by
  cases v with
  | const c => rfl
  | param p => rw [Graph.recorded, Graph.recorded, Graph.param, Graph.param, h.params]
  | result o =>
    rw [Graph.recorded, Graph.recorded, h.op o]
    split <;> rfl

theorem Dropped.step {done : List BlockId} {b : BlockId} (h : Dropped g gone done g')
    (hb : b ∉ done) : Dropped g gone (b :: done) (dropOps gone g' b) := by
  have hlist : (g'.block b).ops = (g.block b).ops := by rw [h.block b, if_neg hb]
  obtain ⟨hop, hsize, hparams, hblocks, hfuncs, hmodules⟩ :=
    detach_spec ((g'.block b).ops.filter (· ∈ gone)) g'
  simp only [dropOps, List.partition_eq_filter_filter]
  constructor
  case size => exact Nat.le_trans h.size hsize
  case params => exact hparams.trans h.params
  case funcs => exact hfuncs.trans h.funcs
  case modules => exact hmodules.trans h.modules
  case op =>
    intro u
    rw [op_modifyBlock, hop u, h.op u, hlist]
    by_cases hgone : u ∈ gone
    · by_cases hdone : ∃ c ∈ done, u ∈ (g.block c).ops
      · by_cases hmem : u ∈ (g.block b).ops <;> simp [hgone, hdone, hmem]
      · by_cases hmem : u ∈ (g.block b).ops <;> simp [hgone, hdone, hmem]
    · simp [hgone]
  case block =>
    intro c
    rw [block_modifyBlock]
    have hsame : ∀ c, (List.foldl (fun g o => g.modifyOp o fun op => { op with block := none }) g'
        ((g'.block b).ops.filter (· ∈ gone))).block c = g'.block c := fun c => by
      rw [Graph.block, hblocks]
      rfl
    by_cases hcb : c = b
    · subst hcb
      rw [hsame, h.block c, if_neg hb]
      simp [Function.comp_def]
    · rw [if_neg hcb, hsame, h.block c]
      simp [hcb]

theorem dropped_foldl (g : Graph) (gone : List OpId) (blocks : List BlockId) (hn : blocks.Nodup) :
    ∃ done, (∀ b, b ∈ done ↔ b ∈ blocks) ∧
      Dropped g gone done (blocks.foldl (dropOps gone) g) := by
  suffices ∀ done g', Dropped g gone done g' → (∀ b ∈ blocks, b ∉ done) →
      ∃ done', (∀ b, b ∈ done' ↔ b ∈ done ∨ b ∈ blocks) ∧
        Dropped g gone done' (blocks.foldl (dropOps gone) g') by
    have := this [] g ⟨by simp, Nat.le_refl _, by simp, rfl, rfl, rfl⟩ (by simp)
    simpa using this
  induction blocks with
  | nil => exact fun done g' h _ => ⟨done, by simp, h⟩
  | cons b blocks ih =>
    intro done g' h hdisjoint
    obtain ⟨hb, hn⟩ := List.nodup_cons.1 hn
    obtain ⟨done', hmem, h'⟩ := ih hn (b :: done) _ (h.step (hdisjoint b (by simp))) (by
      intro c hc hmem
      rcases List.mem_cons.1 hmem with rfl | hmem
      · exact hb hc
      · exact hdisjoint c (by simp [hc]) hmem)
    exact ⟨done', fun c => by rw [hmem c]; simp; tauto, h'⟩

/-- Once the blocks are rebuilt the ops that were taken out are gone. -/
theorem Sweeping.swept (wf : g.WellFormed f) {s : Sweep} (h : Sweeping g f s)
    {done : List BlockId} (hdone : ∀ b, b ∈ done ↔ b ∈ s.blocks)
    (hdrop : Dropped s.graph s.removed done g') : Swept g g' f s.removed := by
  have hshape := h.shape
  have hblock : ∀ b, s.graph.block b = g.block b := fun b => by
    rw [Graph.block, Graph.block, hshape.blocks]
  constructor
  case mem => exact h.mem
  case code => exact h.code
  case size => exact Nat.le_trans hshape.size hdrop.size
  case funcs => exact hdrop.funcs.trans hshape.funcs
  case modules => exact hdrop.modules.trans hshape.modules
  case unused =>
    intro o ho u hu hnot
    have hrec := h.records (.result o) trivial u
    rw [h.unused o ho u, if_neg hnot, wf.uses (.result o) (h.mem o ho) u, if_pos hu] at hrec
    exact hrec
  case ops =>
    intro b hb
    rw [hdrop.block b, hblock]
    split
    · rfl
    · -- a block that is not rebuilt lists none of the ops
      rename_i hnot
      refine (List.filter_eq_self.2 fun u hu => ?_).symm
      rw [decide_eq_true_eq]
      intro hrem
      obtain ⟨c, hc, huc⟩ := h.listed u hrem
      refine hnot ?_
      rwa [wf.block_unique hb (h.blocks c hc) hu huc, hdone]
  case block =>
    intro b hb
    rw [hdrop.block b, hblock, if_neg]
    exact fun hmem => hb (h.blocks b ((hdone b).1 hmem))
  case name =>
    intro b
    rw [hdrop.block b, hblock]
    split <;> rfl
  case owner =>
    intro b
    rw [hdrop.block b, hblock]
    split <;> rfl
  case op =>
    intro u
    rw [hdrop.op u]
    by_cases hu : u ∈ s.removed
    · obtain ⟨b, hb, hub⟩ := h.listed u hu
      rw [if_pos ⟨hu, b, (hdone b).2 hb, by rwa [hblock]⟩, if_pos hu, ← hshape.op u]
      rfl
    · rw [if_neg (by simp [hu]), if_neg hu, hshape.op u]
  case param =>
    intro p
    rw [Graph.param, hdrop.params]
    exact hshape.param p
  case records =>
    intro v hv u
    rw [h.records v hv u, hdrop.recorded]

/-- The ops of a list have been visited but for those of `rest`. -/
structure SweepingOf (g : Graph) (f : FuncId) (ops rest : List OpId) (s : Sweep) : Prop where
  sweeping : Sweeping g f s
  listed : ∀ o ∈ s.removed, o ∈ ops
  dead : ∀ o ∈ ops, g.Unused f o → o ∈ rest ∨ o ∈ s.removed

theorem SweepingOf.visit {ops rest : List OpId} {o : OpId} {s : Sweep}
    (h : SweepingOf g f ops (o :: rest) s) (wf : g.WellFormed f) (ho : o ∈ ops)
    (hof : o ∈ g.opsOf f) (hcode : (g.op o).code ∈ Rule.replaceable) :
    ∃ s', s.visit o = .ok s' ∧ SweepingOf g f ops rest s' := by
  obtain ⟨s', hvisit, h', hremoved, hgone⟩ := h.sweeping.visit wf hof hcode
  have hmem : ∀ u, u ∈ s'.removed → u = o ∨ u ∈ s.removed := by
    intro u hu
    rcases hremoved with heq | heq <;> rw [heq] at hu
    · exact .inr hu
    · exact List.mem_cons.1 hu
  have hkept : ∀ u ∈ s.removed, u ∈ s'.removed := by
    intro u hu
    rcases hremoved with heq | heq <;> rw [heq]
    · exact hu
    · exact List.mem_cons_of_mem o hu
  refine ⟨s', hvisit, h', fun u hu => ?_, fun u hu hun => ?_⟩
  · rcases hmem u hu with rfl | hu
    · exact ho
    · exact h.listed u hu
  · rcases h.dead u hu hun with hrest | hold
    · rcases List.mem_cons.1 hrest with rfl | hrest
      · exact .inr (hgone hun)
      · exact .inl hrest
    · exact .inr (hkept u hold)

/-- Dead ops that cannot fail are removed without harm, and those that nothing reads are all
removed. -/
theorem removeDead_eq_ok (wf : g.WellFormed f) {ops : List OpId}
    (hops : ∀ o ∈ ops, o ∈ g.opsOf f ∧ (g.op o).code ∈ Rule.replaceable) :
    ∃ g' gone, g.removeDead ops = .ok (g', gone.length) ∧ Swept g g' f gone ∧ gone.Nodup ∧
      (∀ o ∈ gone, o ∈ ops) ∧ ∀ o ∈ ops, g.Unused f o → o ∈ gone := by
  have hstart : SweepingOf g f ops ops.reverse { graph := g } :=
    ⟨.start g f, by simp, fun o ho _ => .inl (List.mem_reverse.2 ho)⟩
  obtain ⟨s, hs, h⟩ := foldlM_invariant (k := Sweep.visit) hstart (by
    rintro o rest s ⟨done, hsplit⟩ h
    have ho : o ∈ ops := by
      rw [← List.mem_reverse, hsplit]
      simp
    exact h.visit wf ho (hops o ho).1 (hops o ho).2)
  obtain ⟨done, hdone, hdrop⟩ := dropped_foldl s.graph s.removed s.blocks h.sweeping.nodup
  refine ⟨s.blocks.foldl (dropOps s.removed) s.graph, s.removed, ?_,
    h.sweeping.swept wf hdone hdrop, h.sweeping.once, h.listed,
    fun o ho hun => (h.dead o ho hun).resolve_left (by simp)⟩
  have hrun : ops.reverse.foldlM (fun (s : Sweep) o => s.visit o) { graph := g } = .ok s := hs
  simp only [removeDead, hrun]
  rfl

end Graph
end Disguise
