import Disguise.Graph.Editor
import Disguise.Proofs.Editing

/-!
Editors. Queued ops belong to their block but are not in its list yet. The settled graph has all of
them in place; it is the one that keeps a function well-formed while a block is edited, and the one
that `commit` gives in the end.
-/
namespace Disguise
namespace Editor
variable {e : Editor} {g g' : Graph} {o ref : OpId} {new ops : List OpId}

/-- The graph with the queued ops in their places. -/
def settle (e : Editor) (g : Graph) : Graph :=
  g.modifyBlock e.block fun bl => { bl with ops := e.merged bl.ops }

@[simp] theorem op_settle (e : Editor) (g : Graph) (u : OpId) : (e.settle g).op u = g.op u := rfl
@[simp] theorem param_settle (e : Editor) (g : Graph) (p : ParamId) :
    (e.settle g).param p = g.param p := rfl
@[simp] theorem func_settle (e : Editor) (g : Graph) (f : FuncId) :
    (e.settle g).func f = g.func f := rfl

theorem block_settle (e : Editor) (g : Graph) (b : BlockId) : (e.settle g).block b =
    if b = e.block then { g.block b with ops := e.merged (g.block b).ops } else g.block b := by
  rw [settle, Graph.block_modifyBlock]
  split
  · rename_i hb
    rw [hb]
  · rfl

/-- The editor with more ops queued before `ref`. -/
def queued (e : Editor) (ref : OpId) (ops : List OpId) : Editor :=
  { e with queue := e.queue ++ [(ref, ops)], pending := e.pending + ops.length }

@[simp] theorem block_queued : (e.queued ref ops).block = e.block := rfl

theorem waiting_queued :
    (e.queued ref ops).waiting o = e.waiting o ++ if o = ref then ops else [] := by
  by_cases ho : o = ref
  · simp [queued, waiting, ho]
  · simp [queued, waiting, ho, Ne.symm ho]

theorem merged_append (e : Editor) (l l' : List OpId) :
    e.merged (l ++ l') = e.merged l ++ e.merged l' :=
  List.flatMap_append

theorem merged_cons (e : Editor) (l : List OpId) :
    e.merged (o :: l) = e.waiting o ++ o :: e.merged l := by
  simp [merged]

theorem sublist_merged (e : Editor) (l : List OpId) : l.Sublist (e.merged l) := by
  induction l with
  | nil => exact .slnil
  | cons o l ih =>
    rw [merged_cons]
    exact (ih.cons_cons o).trans (List.sublist_append_right _ _)

/-- Nothing is queued before other ops. -/
theorem merged_queued_of_not_mem {l : List OpId} (h : ref ∉ l) :
    (e.queued ref new).merged l = e.merged l := by
  apply List.flatMap_congr
  intro o ho
  have hne : o ≠ ref := fun heq => h (heq ▸ ho)
  rw [waiting_queued, if_neg hne, List.append_nil]

/-- The ops queued last stand right before their insertion point. -/
theorem merged_queued {pre post : List OpId} (hn : (pre ++ o :: post).Nodup) :
    (e.queued o new).merged (pre ++ o :: post) =
      e.merged pre ++ e.waiting o ++ new ++ o :: e.merged post := by
  obtain ⟨hpre, hpost⟩ := not_mem_of_nodup hn rfl
  rw [merged_append, merged_cons, merged_queued_of_not_mem hpre, merged_queued_of_not_mem hpost,
    waiting_queued, if_pos rfl]
  simp

/-- As many ops are pending as wait before the ops of the block. -/
def Balanced (e : Editor) (ops : List OpId) : Prop := e.pending = (ops.flatMap e.waiting).length

theorem Balanced.queued {pre post : List OpId} (hn : (pre ++ o :: post).Nodup)
    (h : e.Balanced (pre ++ o :: post)) : (e.queued o new).Balanced (pre ++ o :: post) := by
  obtain ⟨hpre, hpost⟩ := not_mem_of_nodup hn rfl
  have hsame : ∀ l : List OpId, o ∉ l →
      l.flatMap (e.queued o new).waiting = l.flatMap e.waiting := by
    intro l hl
    apply List.flatMap_congr
    intro u hu
    have hne : u ≠ o := fun heq => hl (heq ▸ hu)
    rw [waiting_queued, if_neg hne, List.append_nil]
  unfold Balanced at h ⊢
  rw [List.flatMap_append, List.flatMap_cons] at h ⊢
  rw [hsame pre hpre, hsame post hpost, waiting_queued, if_pos rfl]
  have hpending : (e.queued o new).pending = e.pending + new.length := rfl
  rw [hpending, h]
  simp
  omega

/-- With nothing queued the graph is settled. -/
theorem settle_of_nil (hb : e.block.idx < g.blocks.size)
    (h : (g.block e.block).ops.flatMap e.waiting = []) : e.settle g = g := by
  apply g.modifyBlock_self _ _ hb
  have hmerged : e.merged (g.block e.block).ops = (g.block e.block).ops := by
    have hwait : ∀ o ∈ (g.block e.block).ops, e.waiting o ++ [o] = [o] := by
      intro o ho
      rw [List.flatMap_eq_nil_iff.1 h o ho, List.nil_append]
    unfold merged
    rw [List.flatMap_congr hwait, List.flatMap_singleton']
  rw [hmerged]

/-- A commit of a balanced editor settles the graph. -/
theorem commit_eq_ok (hb : e.block.idx < g.blocks.size)
    (h : e.Balanced (g.block e.block).ops) : ∃ e', e.commit g = .ok (e', e.settle g) := by
  unfold Balanced at h
  unfold commit
  split
  · rename_i hzero
    have hnil : (g.block e.block).ops.flatMap e.waiting = [] := by
      apply List.eq_nil_of_length_eq_zero
      omega
    exact ⟨e, by rw [settle_of_nil hb hnil]⟩
  · dsimp only
    rw [if_neg (by omega)]
    exact ⟨_, rfl⟩

theorem settle_retuned {args : OpId → List (Option Operand)} (h : g.Retuned g' args) :
    (e.settle g).Retuned (e.settle g') args where
  size := h.size
  op := h.op
  param := h.param
  blocks := by simp only [settle, Graph.modifyBlock, h.blocks]
  funcs := h.funcs
  modules := h.modules
  balance := h.balance

end Editor
end Disguise
