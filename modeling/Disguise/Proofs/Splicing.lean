import Disguise.Proofs.Denotation
import Disguise.Proofs.Frames
import Disguise.Substitution.Rule

/-!
The two halves of a replacement. First new ops are inserted right before the op to be replaced, made
of its operands, constants and each other; then its users are turned to the last of them. Both
halves keep a function well-formed and write to nothing else.
-/
namespace Disguise

/-- An op that may be replaced is a binary one. -/
theorem Rule.isBinary_of_replaceable {c : Opcode} (h : c ∈ Rule.replaceable) : c.isBinary := by
  have hall : ∀ c ∈ Rule.replaceable, c.isBinary := by decide
  exact hall c h

section
variable {α : Type} {l pre post : List α} {a d : α}

/-- What comes after an entry that a list has once. -/
theorem mem_of_sublist_pair (hn : l.Nodup) (hl : l = pre ++ a :: post) (h : [a, d].Sublist l) :
    d ∈ post := by
  have hrev : [d, a].Sublist l.reverse := by simpa using List.reverse_sublist.2 h
  have := mem_of_pair_sublist (List.nodup_reverse.2 hn)
    (show l.reverse = post.reverse ++ a :: pre.reverse by simp [hl]) hrev
  simpa using this

/-- The last entry of a list is the last one of what stands behind a cut. -/
theorem exists_last {body : List α} {last : α} (h : pre ++ a :: post = body ++ [last]) :
    ∃ post', a :: post = post' ++ [last] ∧ body = pre ++ post' := by
  obtain ⟨l, x, hl⟩ : ∃ l x, a :: post = l ++ [x] :=
    ⟨_, _, (List.dropLast_append_getLast (by simp)).symm⟩
  rw [hl, ← List.append_assoc] at h
  obtain ⟨hbody, hlast⟩ := List.append_inj' h (by simp)
  simp only [List.cons.injEq, and_true] at hlast
  exact ⟨l, by rw [hl, hlast], hbody.symm⟩

theorem pair_sublist_append {l₁ l₂ : List α} (ha : a ∈ l₁) (hd : d ∈ l₂) :
    [a, d].Sublist (l₁ ++ l₂) := by
  simpa using (List.singleton_sublist.2 ha).append (List.singleton_sublist.2 hd)

end

namespace Graph
variable {g g' : Graph} {f : FuncId} {b : BlockId} {o : OpId} {new pre post : List OpId}

theorem WellFormed.exists_operands (wf : g.WellFormed f) (ho : o ∈ g.opsOf f)
    (hcode : (g.op o).code ∈ Rule.replaceable) : ∃ x y, (g.op o).args = [some x, some y] ∧
      Word.goodWidth (g.op o).bits ∧ g.OperandOk f o (g.op o).bits x ∧
      g.OperandOk f o (g.op o).bits y := by
  obtain ⟨x, y, args, width, -, left, right⟩ :=
    (wf.form o ho).of_isBinary (Rule.isBinary_of_replaceable hcode)
  exact ⟨x, y, args, width, left, right⟩

/-- What a new op before `o` may refer to: what `o` may, and the new ops before it. -/
def Usable (g : Graph) (f : FuncId) (o : OpId) (done : List OpId) (v : Operand) : Prop :=
  g.OperandOk f o (g.op o).bits v ∨ ∃ d ∈ done, v = .result d

/-- A new op before `o`, which cannot fail. -/
inductive Additional (g g' : Graph) (f : FuncId) (o : OpId) (done : List OpId) (n : OpId) : Prop
  | binary (x y : Operand) (code : (g'.op n).code ∈ Rule.replaceable)
      (args : (g'.op n).args = [some x, some y]) (targets : (g'.op n).targets = [])
      (bits : (g'.op n).bits = (g.op o).bits) (left : g.Usable f o done x)
      (right : g.Usable f o done y)
  | unary (x : Operand) (code : (g'.op n).code.isUnary) (args : (g'.op n).args = [some x])
      (targets : (g'.op n).targets = []) (bits : (g'.op n).bits = (g.op o).bits)
      (operand : g.Usable f o done x)

/-- New ops have been placed right before `o`. -/
structure Inserted (g g' : Graph) (f : FuncId) (b : BlockId) (o : OpId) (new pre post : List OpId) :
    Prop where
  code : (g.op o).code ∈ Rule.replaceable
  mem : b ∈ (g.func f).blocks
  before : (g.block b).ops = pre ++ o :: post
  after : (g'.block b).ops = pre ++ new ++ o :: post
  name : (g'.block b).name = (g.block b).name
  owner : (g'.block b).owner = (g.block b).owner
  block : ∀ c, c ≠ b → g'.block c = g.block c
  size : g.ops.size ≤ g'.ops.size
  fresh : ∀ n ∈ new, g.ops.size ≤ n.idx
  nodup : new.Nodup
  op : ∀ u, u ∉ new → (g'.op u).bare = (g.op u).bare
  param : ∀ p, (g'.param p).bare = (g.param p).bare
  funcs : g'.funcs = g.funcs
  modules : g'.modules = g.modules
  placed : ∀ n ∈ new, (g'.op n).block = some b
  form : ∀ done n rest, new = done ++ n :: rest → Additional g g' f o done n
  records : ∀ v, v.Tracked → ∀ u,
    g'.recorded v u = g.recorded v u + if u ∈ new then g'.slots u v else 0

namespace Inserted
variable (h : Inserted g g' f b o new pre post) (wf : g.WellFormed f)
include h

theorem func (k : FuncId) : g'.func k = g.func k := by
  rw [Graph.func, Graph.func, h.funcs]

theorem same {α : Type} (k : Op → α) (hk : ∀ op : Op, k op.bare = k op) {u : OpId} (hu : u ∉ new) :
    k (g'.op u) = k (g.op u) := by
  rw [← hk, h.op u hu, hk]

theorem code_eq {u : OpId} (hu : u ∉ new) : (g'.op u).code = (g.op u).code :=
  h.same Op.code (fun _ => rfl) hu

theorem bits_eq {u : OpId} (hu : u ∉ new) : (g'.op u).bits = (g.op u).bits :=
  h.same Op.bits (fun _ => rfl) hu

theorem args_eq {u : OpId} (hu : u ∉ new) : (g'.op u).args = (g.op u).args :=
  h.same Op.args (fun _ => rfl) hu

theorem targets_eq {u : OpId} (hu : u ∉ new) : (g'.op u).targets = (g.op u).targets :=
  h.same Op.targets (fun _ => rfl) hu

theorem place_eq {u : OpId} (hu : u ∉ new) : (g'.op u).block = (g.op u).block :=
  h.same Op.block (fun _ => rfl) hu

theorem mem_ops {c : BlockId} {u : OpId} :
    u ∈ (g'.block c).ops ↔ u ∈ (g.block c).ops ∨ c = b ∧ u ∈ new := by
  by_cases hc : c = b
  · subst hc
    rw [h.after, h.before]
    simp
    tauto
  · simp [h.block c hc, hc]

theorem mem_opsOf {u : OpId} : u ∈ g'.opsOf f ↔ u ∈ g.opsOf f ∨ u ∈ new := by
  simp only [Graph.mem_opsOf, h.func, h.mem_ops]
  constructor
  · rintro ⟨c, hc, hu | ⟨-, hu⟩⟩
    · exact .inl ⟨c, hc, hu⟩
    · exact .inr hu
  · rintro (⟨c, hc, hu⟩ | hu)
    · exact ⟨c, hc, .inl hu⟩
    · exact ⟨b, h.mem, .inr ⟨rfl, hu⟩⟩

theorem numOps (hn : (g.func f).blocks.Nodup) : g'.numOps f = g.numOps f + new.length := by
  refine numOps_of_block (by rw [h.func]) hn h.mem (fun c hc => by rw [h.block c hc]) ?_
  rw [h.before, h.after]
  simp
  omega

theorem sublist (c : BlockId) : (g.block c).ops.Sublist (g'.block c).ops := by
  by_cases hc : c = b
  · subst hc
    rw [h.after, h.before]
    exact (List.sublist_append_left pre new).append (List.Sublist.refl _)
  · rw [h.block c hc]

theorem o_mem : o ∈ g.opsOf f := Graph.mem_opsOf.2 ⟨b, h.mem, by simp [h.before]⟩

theorem new_code {n : OpId} (hn : n ∈ new) : (g'.op n).code.isTerminator = false ∧
    (g'.op n).code.isFloat = false ∧ (g'.op n).bits = (g.op o).bits := by
  obtain ⟨done, rest, hsplit⟩ := List.append_of_mem hn
  cases h.form done n rest hsplit with
  | binary x y code args targets bits =>
    simp only [Rule.replaceable, List.mem_cons, List.not_mem_nil, or_false] at code
    rcases code with hc | hc | hc | hc | hc | hc <;>
      simp [hc, Opcode.isTerminator, Opcode.isFloat, bits]
  | unary x code args targets bits =>
    refine ⟨Opcode.not_isTerminator_of_isUnary code, ?_, bits⟩
    cases hc : (g'.op n).code <;> simp [hc, Opcode.isUnary] at code ⊢ <;> rfl

theorem heads : SameHeads g g' f := by
  refine ⟨by rw [h.func], by rw [h.func], by rw [h.func], fun p _ => h.param p, fun c _ => ?_,
    fun c _ hc => ?_⟩
  · by_cases hcb : c = b
    · rw [hcb, h.name]
    · rw [h.block c hcb]
  · by_cases hcb : c = b
    · rw [hcb, h.owner, ← hcb, hc]
    · rw [h.block c hcb, hc]

include wf

theorem not_mem_new {u : OpId} (hu : u ∈ g.opsOf f) : u ∉ new := by
  intro hnew
  have := wf.lt_size hu
  have := h.fresh u hnew
  omega

theorem not_mem_old {u : OpId} (hu : u ∈ new) : u ∉ g.opsOf f :=
  fun hold => h.not_mem_new wf hold hu

theorem form_o : ∃ x y, (g.op o).args = [some x, some y] ∧ Word.goodWidth (g.op o).bits ∧
    g.OperandOk f o (g.op o).bits x ∧ g.OperandOk f o (g.op o).bits y :=
  wf.exists_operands h.o_mem h.code

theorem flow : g'.flow f = g.flow f := by
  refine flow_congr h.heads.blocks fun c hc => ⟨?_, fun t ht => ?_⟩
  · obtain ⟨body, last, hops, -, -⟩ := wf.ended c hc
    have hlast : last ∉ new := h.not_mem_new wf (Graph.mem_opsOf.2 ⟨c, hc, by simp [hops]⟩)
    have hcode := h.code_eq hlast
    by_cases hcb : c = b
    · subst hcb
      rw [h.before] at hops
      obtain ⟨post', hpost, -⟩ := exists_last hops
      refine @terminator?_congr g g' c (pre ++ post') (pre ++ new ++ post') last ?_ ?_ hcode
      · rw [h.before, hpost, List.append_assoc]
      · rw [h.after, hpost, List.append_assoc, List.append_assoc, List.append_assoc]
    · refine terminator?_congr hops (by rw [h.block c hcb, hops]) hcode
  · have hmem := Graph.mem_opsOf.2 ⟨c, hc, mem_of_terminator? ht⟩
    exact h.targets_eq (h.not_mem_new wf hmem)

theorem nodup_ops {c : BlockId} (hc : c ∈ (g.func f).blocks) : (g'.block c).ops.Nodup := by
  by_cases hcb : c = b
  · subst hcb
    have hn := wf.opsNodup c hc
    have hdisjoint : ∀ u ∈ (g.block c).ops, u ∉ new :=
      fun u hu => h.not_mem_new wf (Graph.mem_opsOf.2 ⟨c, hc, hu⟩)
    rw [h.before] at hn hdisjoint
    rw [h.after]
    rw [List.nodup_append] at hn ⊢
    refine ⟨List.nodup_append.2 ⟨hn.1, h.nodup, ?_⟩, hn.2.1, ?_⟩
    · rintro u hu _ hnew rfl
      exact hdisjoint u (by simp [hu]) hnew
    · intro u hu v hv huv
      subst huv
      rcases List.mem_append.1 hu with hu | hu
      · exact hn.2.2 u hu u hv rfl
      · exact hdisjoint u (List.mem_append_right _ hv) hu
  · rw [h.block c hcb]
    exact wf.opsNodup c hc

/-- Ops that were there before see each other as they did. -/
theorem available_old {d u : OpId} (hd : d ∈ g.opsOf f) (hu : u ∈ g.opsOf f)
    (havail : g.Available f d u) : g'.Available f d u := by
  have hback : ∀ x ∈ g.opsOf f, ∀ c ∈ (g.func f).blocks, x ∈ (g'.block c).ops →
      x ∈ (g.block c).ops := by
    intro x hx c _ hmem
    rcases h.mem_ops.1 hmem with hmem | ⟨-, hnew⟩
    · exact hmem
    · exact absurd hnew (h.not_mem_new wf hx)
  exact havail.mono h.heads.blocks (h.flow wf) (hback d hd) (hback u hu)
    fun c _ hsub => hsub.trans (h.sublist c)

/-- What `o` sees, the new ops see too. -/
theorem available_new {d n : OpId} (hd : d ∈ g.opsOf f) (hn : n ∈ new)
    (havail : g.Available f d o) : g'.Available f d n := by
  intro i j c c' above hc hdc hc' hnc habove
  rw [h.func] at hc hc'
  rw [dominators, h.flow wf] at habove
  have hdc : d ∈ (g.block c).ops := by
    rcases h.mem_ops.1 hdc with hmem | ⟨-, hnew⟩
    · exact hmem
    · exact absurd hnew (h.not_mem_new wf hd)
  have hcb : c' = b := by
    rcases h.mem_ops.1 hnc with hmem | ⟨hcb, -⟩
    · exact absurd (Graph.mem_opsOf.2 ⟨c', List.mem_of_getElem? hc', hmem⟩) (h.not_mem_old wf hn)
    · exact hcb
  subst hcb
  have hkey := havail i j c c' above hc hdc hc' (by simp [h.before]) habove
  split
  · rename_i hij
    subst hij
    have hcc : c = c' := Option.some.inj (hc.symm.trans hc')
    subst hcc
    rw [if_pos rfl] at hkey
    have hpre := mem_of_pair_sublist (wf.opsNodup c h.mem) h.before hkey
    rw [h.after, List.append_assoc]
    exact pair_sublist_append hpre (by simp [hn])
  · rename_i hij
    rwa [if_neg hij] at hkey

/-- New ops see those before them. -/
theorem available_both {done rest : List OpId} {d n : OpId} (hsplit : new = done ++ n :: rest)
    (hd : d ∈ done) : g'.Available f d n := by
  intro i j c c' above hc hdc hc' hnc _
  rw [h.func] at hc hc'
  have hblock : ∀ x ∈ new, ∀ c ∈ (g.func f).blocks, x ∈ (g'.block c).ops → c = b := by
    intro x hx c hc hmem
    rcases h.mem_ops.1 hmem with hmem | ⟨hcb, -⟩
    · exact absurd (Graph.mem_opsOf.2 ⟨c, hc, hmem⟩) (h.not_mem_old wf hx)
    · exact hcb
  have hcb := hblock d (by simp [hsplit, hd]) c (List.mem_of_getElem? hc) hdc
  have hcb' := hblock n (by simp [hsplit]) c' (List.mem_of_getElem? hc') hnc
  subst hcb
  subst hcb'
  have hij : i = j := by
    obtain ⟨hi, hgi⟩ := List.getElem?_eq_some_iff.1 hc
    obtain ⟨hj, hgj⟩ := List.getElem?_eq_some_iff.1 hc'
    exact (wf.blocksNodup.getElem_inj_iff).1 (hgi.trans hgj.symm)
  rw [if_pos hij, h.after, hsplit]
  have hpair : [d, n].Sublist (done ++ n :: rest) := pair_sublist_append hd (by simp)
  exact (hpair.trans (List.sublist_append_right pre _)).trans (List.sublist_append_left _ _)

theorem usable_ok {done rest : List OpId} {n : OpId} {v : Operand}
    (hsplit : new = done ++ n :: rest)
    (hv : g.Usable f o done v) : g'.OperandOk f n (g.op o).bits v := by
  have hn : n ∈ new := by simp [hsplit]
  rcases hv with hok | ⟨d, hd, rfl⟩
  · cases v with
    | const c => exact hok
    | param p =>
      obtain ⟨hp, hbits⟩ := hok
      exact ⟨by rwa [h.func], (h.heads.paramBits p hp).trans hbits⟩
    | result d =>
      obtain ⟨hd, hbits, hterm, havail⟩ := hok
      have hnot := h.not_mem_new wf hd
      have hmem := h.mem_opsOf.2 (.inl hd)
      have hvalue : (g'.op d).code.isTerminator = false := by rw [h.code_eq hnot, hterm]
      exact ⟨hmem, (h.bits_eq hnot).trans hbits, hvalue, h.available_new wf hd hn havail⟩
  · have hnew : d ∈ new := by simp [hsplit, hd]
    obtain ⟨hterm, -, hbits⟩ := h.new_code hnew
    exact ⟨h.mem_opsOf.2 (.inr hnew), hbits, hterm, h.available_both wf hsplit hd⟩

theorem opForm_new {n : OpId} (hn : n ∈ new) : g'.OpForm f n := by
  obtain ⟨x', y', -, hwidth, -, -⟩ := h.form_o wf
  obtain ⟨-, hfloat, hbits⟩ := h.new_code hn
  obtain ⟨done, rest, hsplit⟩ := List.append_of_mem hn
  cases h.form done n rest hsplit with
  | binary x y code args targets _ left right =>
    refine .binary x y ?_ args targets (by rw [hbits]; exact hwidth) ?_ ?_ ?_
    · simp only [Rule.replaceable, List.mem_cons, List.not_mem_nil, or_false] at code
      rcases code with hc | hc | hc | hc | hc | hc <;> rw [hc] <;> rfl
    · rw [hfloat]
      exact fun hfalse => nomatch hfalse
    · rw [hbits]
      exact h.usable_ok wf hsplit left
    · rw [hbits]
      exact h.usable_ok wf hsplit right
  | unary x code args targets _ operand =>
    refine .unary x code args targets (by rw [hbits]; exact hwidth) ?_
    rw [hbits]
    exact h.usable_ok wf hsplit operand

/-- The old records are those of the old slots, also for the new ops, which have none. -/
theorem recorded_old {v : Operand} (hv : g'.IsValue f v) (u : OpId) :
    g.recorded v u = if u ∈ g.opsOf f then g.slots u v else 0 := by
  by_cases hold : g.IsValue f v
  · exact wf.uses v hold u
  · cases v with
    | const c => exact hv.elim
    | param p =>
      simp only [IsValue, h.func] at hv
      exact absurd hv hold
    | result n =>
      have hnew : n ∈ new := (h.mem_opsOf.1 hv).resolve_left hold
      have hzero : g.recorded (.result n) u = 0 := by
        rw [recorded, Graph.op, Table.get_of_size_le _ (h.fresh n hnew)]
        rfl
      rw [hzero]
      split
      · rename_i hu
        exact (wf.slots_eq_zero hu (by simp) hold).symm
      · rfl

/-- The new ops come before the end of the block. -/
theorem ended {c : BlockId} (hc : c ∈ (g.func f).blocks) : g'.Ended (g'.block c).ops := by
  refine (wf.ended c hc).mono (fun u hu => ?_) fun body last hops => ?_
  · exact h.code_eq (h.not_mem_new wf (Graph.mem_opsOf.2 ⟨c, hc, hu⟩))
  · by_cases hcb : c = b
    · subst hcb
      rw [h.before] at hops
      obtain ⟨post', hpost, rfl⟩ := exists_last hops
      refine ⟨pre ++ new ++ post', by rw [h.after, hpost, ← List.append_assoc], ?_⟩
      intro u hu
      rcases List.mem_append.1 hu with hu | hu
      · rcases List.mem_append.1 hu with hu | hu
        · exact .inl (by simp [hu])
        · exact .inr (h.new_code hu).1
      · exact .inl (by simp [hu])
    · exact ⟨body, by rw [h.block c hcb, hops], fun u hu => .inl hu⟩

theorem opForm_old {u : OpId} (hu : u ∈ g.opsOf f) : g'.OpForm f u := by
  have hnot := h.not_mem_new wf hu
  refine h.heads.opForm_of_args wf hu (h.code_eq hnot) (h.bits_eq hnot) (h.targets_eq hnot)
    (h.args_eq hnot) ?_
  intro bits v _ hv
  refine hv.mono h.heads.params h.heads.paramBits fun d _ hd => ?_
  have hdnot := h.not_mem_new wf hd
  have hmem := h.mem_opsOf.2 (.inl hd)
  exact ⟨hmem, h.bits_eq hdnot, h.code_eq hdnot, h.available_old wf hd hu⟩

/-- The records are those of all slots, the old ones and the new ones. -/
theorem recorded_eq {v : Operand} (hv : g'.IsValue f v) (u : OpId) :
    g'.recorded v u = if u ∈ g'.opsOf f then g'.slots u v else 0 := by
  rw [h.records v hv.tracked u, h.recorded_old wf hv u]
  by_cases hnew : u ∈ new
  · simp [hnew, h.not_mem_old wf hnew, h.mem_opsOf]
  · simp [hnew, h.mem_opsOf, slots, h.args_eq hnew]

theorem wellFormed : g'.WellFormed f := by
  refine h.heads.wellFormed wf ?_ (fun c hc => h.nodup_ops wf hc) (fun c hc => h.ended wf hc) ?_
    fun v hv u => h.recorded_eq wf hv u
  · intro c hc u hu
    rcases h.mem_ops.1 hu with hold | ⟨rfl, hnew⟩
    · rw [h.place_eq (h.not_mem_new wf (Graph.mem_opsOf.2 ⟨c, hc, hold⟩))]
      exact wf.opOwner c hc u hold
    · exact h.placed u hnew
  · intro u hu
    rcases h.mem_opsOf.1 hu with hold | hnew
    · exact h.opForm_old wf hold
    · exact h.opForm_new wf hnew

theorem frame : Frame g g' f := by
  have hvalue : ∀ v, v.Tracked → ¬ g'.IsValue f v → ∀ u, g'.recorded v u = g.recorded v u := by
    intro v hv hnot u
    rw [h.records v hv u]
    split
    · rename_i hnew
      rw [(h.wellFormed wf).slots_eq_zero (h.mem_opsOf.2 (.inr hnew)) hv.ne_const hnot,
        Nat.add_zero]
    · rfl
  constructor
  case size => exact h.size
  case param => exact h.param
  case funcs => exact h.funcs
  case modules => exact h.modules
  case opsOf =>
    intro u hu
    exact (h.mem_opsOf.1 hu).imp_right fun hnew => h.fresh u hnew
  case op =>
    intro u hlt hnot
    have hnew : u ∉ new := by
      intro hnew
      have := h.fresh u hnew
      omega
    refine Op.eq_of_bare (h.op u hnew) (hvalue (.result u) trivial ?_)
    intro hval
    rcases h.mem_opsOf.1 hval with hold | hnew'
    · exact hnot hold
    · exact hnew hnew'
  case otherParam =>
    intro p hp
    refine Param.eq_of_bare (h.param p) (hvalue (.param p) trivial ?_)
    simpa only [IsValue, h.func] using hp
  case block =>
    intro c hc
    refine h.block c fun hcb => hc ?_
    rw [hcb]
    exact h.mem
  case name =>
    intro c
    by_cases hcb : c = b
    · rw [hcb, h.name]
    · rw [h.block c hcb]
  case owner =>
    intro c
    by_cases hcb : c = b
    · rw [hcb, h.owner]
    · rw [h.block c hcb]

end Inserted

/-- All users of `o` have been turned to `n`, which stands before it. -/
structure Redirected (g g' : Graph) (f : FuncId) (o n : OpId) : Prop where
  retuned : Retuned g g' fun u => if u ∈ g.opsOf f then
    (g.op u).args.map (turn o (some (.result n))) else (g.op u).args
  order : ∃ b ∈ (g.func f).blocks, [n, o].Sublist (g.block b).ops
  bits : (g.op n).bits = (g.op o).bits
  code : (g.op n).code.isTerminator = false

/-- What an operand becomes. -/
def redirect₁ (o n : OpId) (v : Operand) : Operand := if v = .result o then .result n else v

theorem turn_eq_map (o n : OpId) : turn o (some (.result n)) = Option.map (redirect₁ o n) := by
  funext a
  cases a with
  | none => simp [turn]
  | some v => by_cases hv : v = .result o <;> simp [turn, redirect₁, hv]

namespace Redirected
variable {n : OpId} (h : Redirected g g' f o n) (wf : g.WellFormed f)
include h

theorem func (k : FuncId) : g'.func k = g.func k := by
  rw [Graph.func, Graph.func, h.retuned.funcs]

theorem block (c : BlockId) : g'.block c = g.block c := by
  rw [Graph.block, Graph.block, h.retuned.blocks]

theorem same {α : Type} (k : Op → α) (hk : ∀ (op : Op) args, k { op.bare with args } = k op)
    (u : OpId) : k (g'.op u) = k (g.op u) := by
  rw [← hk (g'.op u) (g'.op u).args, ← hk (g.op u) (g'.op u).args, h.retuned.op u]

theorem code_eq (u : OpId) : (g'.op u).code = (g.op u).code := h.same Op.code (fun _ _ => rfl) u

theorem bits_eq (u : OpId) : (g'.op u).bits = (g.op u).bits := h.same Op.bits (fun _ _ => rfl) u

theorem targets_eq (u : OpId) : (g'.op u).targets = (g.op u).targets :=
  h.same Op.targets (fun _ _ => rfl) u

theorem place_eq (u : OpId) : (g'.op u).block = (g.op u).block :=
  h.same Op.block (fun _ _ => rfl) u

theorem args_eq {u : OpId} (hu : u ∈ g.opsOf f) :
    (g'.op u).args = (g.op u).args.map (Option.map (redirect₁ o n)) := by
  rw [h.retuned.args_eq, if_pos hu, turn_eq_map]

theorem opsOf_eq : g'.opsOf f = g.opsOf f := by
  simp only [Graph.opsOf, h.func, h.block]

theorem isValue_iff {v : Operand} : g'.IsValue f v ↔ g.IsValue f v := by
  cases v <;> simp only [IsValue, h.func, h.opsOf_eq]

theorem heads : SameHeads g g' f where
  retBits := by rw [h.func]
  params := by rw [h.func]
  blocks := by rw [h.func]
  param p _ := h.retuned.param p
  name c _ := by rw [h.block]
  owner c _ hc := by rw [h.block, hc]

theorem flow : g'.flow f = g.flow f := by
  refine flow_congr h.heads.blocks fun c _ => ⟨?_, fun t _ => h.targets_eq t⟩
  simp only [terminator?, h.block, h.code_eq]

theorem available {d u : OpId} : g'.Available f d u ↔ g.Available f d u := by
  simp only [Available, h.func, h.block, dominators, h.flow]

theorem n_mem : n ∈ g.opsOf f := by
  obtain ⟨b, hb, hsub⟩ := h.order
  exact mem_opsOf.2 ⟨b, hb, hsub.subset (by simp)⟩

include wf

/-- Where the result of `o` is known, that of `n` is. -/
theorem available_of_o {u : OpId} (havail : g.Available f o u) : g.Available f n u := by
  obtain ⟨b, hb, hsub⟩ := h.order
  have hno := hsub.subset (show n ∈ [n, o] by simp)
  have hoo := hsub.subset (show o ∈ [n, o] by simp)
  intro i j c c' above hc hnc hc' huc habove
  have hcb := wf.block_unique hb (List.mem_of_getElem? hc) hno hnc
  subst hcb
  have hkey := havail i j b c' above hc hoo hc' huc habove
  split
  · rename_i hij
    rw [if_pos hij] at hkey
    obtain ⟨l₁, l₂, hl⟩ := List.append_of_mem hoo
    have hpre := mem_of_pair_sublist (wf.opsNodup b hb) hl hsub
    have hpost := mem_of_sublist_pair (wf.opsNodup b hb) hl hkey
    rw [hl]
    exact pair_sublist_append hpre (by simp [hpost])
  · rename_i hij
    rwa [if_neg hij] at hkey

/-- An operand that would do is turned to one that will. -/
theorem redirect₁_ok {u : OpId} {bits : Int} {v : Operand} (hv : g.OperandOk f u bits v) :
    g'.OperandOk f u bits (redirect₁ o n v) := by
  by_cases hvo : v = .result o
  · subst hvo
    obtain ⟨-, hbits, -, havail⟩ := hv
    rw [redirect₁, if_pos rfl]
    refine ⟨by rw [h.opsOf_eq]; exact h.n_mem, ?_, ?_, h.available.2 (h.available_of_o wf havail)⟩
    · rw [h.bits_eq, h.bits, hbits]
    · rw [h.code_eq, h.code]
  · rw [redirect₁, if_neg hvo]
    refine hv.mono h.heads.params h.heads.paramBits fun d _ hd => ?_
    exact ⟨by rwa [h.opsOf_eq], h.bits_eq d, h.code_eq d, h.available.2⟩

/-- The records have changed as the slots have. -/
theorem recorded_eq {v : Operand} (hv : g'.IsValue f v) (u : OpId) :
    g'.recorded v u = if u ∈ g'.opsOf f then g'.slots u v else 0 := by
  have hbal := h.retuned.balance v hv.tracked u
  rw [← h.retuned.args_eq, wf.uses v (h.isValue_iff.1 hv) u] at hbal
  rw [h.opsOf_eq]
  split
  · rename_i hu
    rw [if_pos hu] at hbal
    rw [slots]
    omega
  · rename_i hu
    rw [if_neg hu, h.retuned.args_eq, if_neg hu] at hbal
    rw [slots] at hbal
    omega

theorem wellFormed : g'.WellFormed f := by
  refine h.heads.wellFormed wf ?_ ?_ ?_ ?_ fun v hv u => h.recorded_eq wf hv u
  · intro c hc u hu
    rw [h.block] at hu
    rw [h.place_eq]
    exact wf.opOwner c hc u hu
  · intro c hc
    rw [h.block]
    exact wf.opsNodup c hc
  · intro c hc
    rw [h.block]
    refine (wf.ended c hc).mono (fun u _ => h.code_eq u) ?_
    exact fun body last hops => ⟨body, hops, fun u hu => .inl hu⟩
  · intro u hu
    rw [h.opsOf_eq] at hu
    refine h.heads.opForm wf hu (redirect₁ o n) (h.code_eq u) (h.bits_eq u) (h.targets_eq u)
      (h.args_eq hu) ?_
    exact fun bits v _ hv => h.redirect₁_ok wf hv

theorem frame : Frame g g' f := by
  have hvalue : ∀ v, v.Tracked → ¬ g.IsValue f v → ∀ u, g'.recorded v u = g.recorded v u := by
    intro v hv hnot u
    have hbal := h.retuned.balance v hv u
    rw [← h.retuned.args_eq] at hbal
    by_cases hu : u ∈ g.opsOf f
    · have h₀ := wf.slots_eq_zero hu hv.ne_const hnot
      have h₁ : g'.slots u v = 0 := (h.wellFormed wf).slots_eq_zero (by rwa [h.opsOf_eq])
        hv.ne_const (mt h.isValue_iff.1 hnot)
      rw [slots] at h₁
      omega
    · rw [h.retuned.args_eq, if_neg hu, slots] at hbal
      omega
  constructor
  case size => exact h.retuned.size
  case param => exact h.retuned.param
  case block => exact fun c _ => h.block c
  case name => exact fun c => by rw [h.block]
  case owner => exact fun c => by rw [h.block]
  case funcs => exact h.retuned.funcs
  case modules => exact h.retuned.modules
  case opsOf =>
    intro u hu
    rw [h.opsOf_eq] at hu
    exact .inl hu
  case op =>
    intro u _ hnot
    refine Op.eq_of_bare ?_ (hvalue (.result u) trivial hnot)
    rw [h.retuned.op u, if_neg hnot]
    rfl
  case otherParam =>
    exact fun p hp => Param.eq_of_bare (h.retuned.param p) (hvalue (.param p) trivial hp)

end Redirected
end Graph
end Disguise
