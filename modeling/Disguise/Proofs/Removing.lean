import Disguise.Proofs.Commuting
import Disguise.Proofs.Sessions

/-!
Removing dead ops one by one. A sweep withdraws uses at once and rebuilds the lists of blocks at its
end; what it amounts to meanwhile is the graph with the lists rebuilt already. That graph is the one
that single removals make, op by op from the end of the list, so both ways lead to the same graph
and take out as many ops.
-/
namespace Disguise
open Results

namespace Graph
variable {g g' x y : Graph} {b : BlockId} {o : OpId} {ops : List OpId}

/-- Takes a dead op out of its block, step by step; gives why it refuses to, if it does. -/
def removeInPlace (o : OpId) : StateT Graph (Except Violation) (Option Refusal) := do
  let op := (← get).op o
  match op.block with
  | none => pure (some (.detached op.code))
  | some b =>
    if op.uses.size ≠ 0 then pure (some (.used op.code op.uses.size))
    else do
      let _ ← (← get).position o
      modify (·.modifyBlock b fun bl => { bl with ops := bl.ops.erase o })
      set (← (← get).removeUses op.args o)
      modify (·.modifyOp o fun op => { op with block := none })
      pure none

/-- Removes one more op, or goes on without when that is refused. -/
def removeNext (n : Nat) (o : OpId) : StateT Graph (Except Violation) Nat := do
  match ← removeInPlace o with
  | none => pure (n + 1)
  | some _ => pure n

/-- Removes ops from the last to the first; gives the number of removals. -/
def removeEach (ops : List OpId) : StateT Graph (Except Violation) Nat :=
  ops.reverse.foldlM removeNext 0

/-- An attached op stands in its block, once, and no op stands anywhere else. -/
def Placed (g : Graph) (o : OpId) : Prop :=
  ∀ b, (g.block b).ops.count o = if (g.op o).block = some b then 1 else 0

/-- Written in place, a refused removal leaves what it found. -/
theorem removeInPlace_run (g : Graph) (o : OpId) : (removeInPlace o).run g =
    (g.remove o).map fun
      | .ok g' => (none, g')
      | .error r => (some r, g) := by
  unfold removeInPlace remove
  cases hb : (g.op o).block with
  | none => simp [hb, Except.map]
  | some b =>
    by_cases hsize : (g.op o).uses.size = 0
    · cases hp : g.position o with
      | error v =>
        simp [hb, hsize, hp]
        rfl
      | ok i =>
        cases hr : (g.modifyBlock b fun bl => { bl with ops := bl.ops.erase o }).removeUses
            (g.op o).args o with
        | error v =>
          simp [hb, hsize, hp, hr]
          rfl
        | ok g₁ =>
          simp [hb, hsize, hp, hr]
          rfl
    · simp [hb, hsize, Except.map]

theorem removeNext_of_ok {n : Nat} (h : g.remove o = .ok (.ok g')) :
    (removeNext n o).run g = .ok (n + 1, g') := by
  rw [removeNext, StateT.run_bind, removeInPlace_run, h]
  rfl

theorem removeNext_of_refused {n : Nat} {r : Refusal} (h : g.remove o = .ok (.error r)) :
    (removeNext n o).run g = .ok (n, g) := by
  rw [removeNext, StateT.run_bind, removeInPlace_run, h]
  rfl

theorem exists_refusal_of_detached (h : (g.op o).block = none) :
    ∃ r, g.remove o = .ok (.error r) :=
  ⟨.detached (g.op o).code, by simp only [remove, h]⟩

theorem exists_refusal_of_used (hb : (g.op o).block = some b) (hsize : (g.op o).uses.size ≠ 0) :
    ∃ r, g.remove o = .ok (.error r) :=
  ⟨.used (g.op o).code (g.op o).uses.size, by simp [remove, hb, hsize]⟩

theorem eq_of_removeInPlace_refused {r : Refusal} (h : (removeInPlace o).run g = .ok (some r, g')) :
    g' = g := by
  rw [removeInPlace_run] at h
  obtain ⟨q, -, heq⟩ := map_eq_ok.1 h
  cases q with
  | error r' => exact (Prod.mk.inj heq).2.symm
  | ok x => cases (Prod.mk.inj heq).1

/-- The graph `x` is that of a sweep with the lists of all blocks rebuilt. -/
structure Settles (s : Sweep) (x : Graph) : Prop where
  op : ∀ u, x.op u = if u ∈ s.removed then { s.graph.op u with block := none } else s.graph.op u
  block : ∀ b, x.block b =
    { s.graph.block b with ops := (s.graph.block b).ops.filter (· ∉ s.removed) }
  params : x.params = s.graph.params
  funcs : x.funcs = s.graph.funcs
  modules : x.modules = s.graph.modules
  numOps : x.ops.size = s.graph.ops.size
  numBlocks : x.blocks.size = s.graph.blocks.size

namespace Settles
variable {s : Sweep} (h : Settles s x)
include h

theorem eq (hy : Settles s y) : x = y := by
  have hops : x.ops = y.ops := Table.eq_of_get (h.numOps.trans hy.numOps.symm) fun i _ =>
    (h.op ⟨i⟩).trans (hy.op ⟨i⟩).symm
  have hblocks : x.blocks = y.blocks :=
    Table.eq_of_get (h.numBlocks.trans hy.numBlocks.symm) fun i _ =>
      (h.block ⟨i⟩).trans (hy.block ⟨i⟩).symm
  exact eq_of_tables hops (h.params.trans hy.params.symm) hblocks (h.funcs.trans hy.funcs.symm)
    (h.modules.trans hy.modules.symm)

theorem uses (u : OpId) : (x.op u).uses = (s.graph.op u).uses := by
  rw [h.op u]
  split <;> rfl

/-- Use sets are where they were. -/
theorem removeUse {v : Option Operand} {g₁ : Graph} (hok : s.graph.removeUse v o = .ok g₁) :
    ∃ x₁, x.removeUse v o = .ok x₁ ∧ Settles { s with graph := g₁ } x₁ := by
  unfold Graph.removeUse at hok ⊢
  split at hok
  · rename_i d
    simp only [ite_error_eq_ok] at hok
    obtain ⟨hcount, hok⟩ := hok
    obtain rfl := Except.ok.inj hok
    refine ⟨x.modifyOp d fun op => { op with uses := op.uses.remove o },
      by rw [h.uses, if_neg hcount], { h with op := fun u => ?_, numOps := ?_ }⟩
    · rw [op_modifyOp, op_modifyOp, h.op u, h.op d]
      by_cases hu : u = d
      · subst hu
        by_cases hr : u ∈ s.removed <;> simp [hr]
      · simp [hu]
    · simp only [modifyOp, Table.size_modify, h.numOps]
  · rename_i p
    have hparam : x.param p = s.graph.param p := by rw [param, param, h.params]
    simp only [ite_error_eq_ok] at hok
    obtain ⟨hcount, hok⟩ := hok
    obtain rfl := Except.ok.inj hok
    refine ⟨x.modifyParam p fun pr => { pr with uses := pr.uses.remove o },
      by rw [hparam, if_neg hcount], { h with params := ?_ }⟩
    simp only [modifyParam, h.params]
  · obtain rfl := Except.ok.inj hok
    exact ⟨x, rfl, h⟩

theorem removeUses {args : List (Option Operand)} {g₁ : Graph}
    (hok : s.graph.removeUses args o = .ok g₁) :
    ∃ x₁, x.removeUses args o = .ok x₁ ∧ Settles { s with graph := g₁ } x₁ := by
  induction args generalizing s x with
  | nil =>
    obtain rfl := Except.ok.inj hok
    exact ⟨x, rfl, h⟩
  | cons v args ih =>
    simp only [Graph.removeUses, List.foldlM_cons] at hok ⊢
    obtain ⟨g₂, hone, hrest⟩ := bind_eq_ok.1 hok
    obtain ⟨x₂, hone', h₂⟩ := h.removeUse hone
    obtain ⟨x₁, hrest', h₁⟩ := ih h₂ hrest
    exact ⟨x₁, by rw [hone']; exact hrest', h₁⟩

end Settles

section
variable {gone : List OpId}

theorem size_detach (ops : List OpId) (g : Graph) (hops : ∀ o ∈ ops, o.idx < g.ops.size) :
    (ops.foldl (fun g o => g.modifyOp o fun op => { op with block := none }) g).ops.size =
      g.ops.size := by
  refine foldl_done (P := fun _ (g' : Graph) => g'.ops.size = g.ops.size) rfl ?_
  intro done o rest g' hsplit hsize
  have ho := hops o (by simp [hsplit])
  exact (Table.size_modify_of_lt (hsize ▸ ho) _).trans hsize

/-- Lists that are there are rebuilt in their places. -/
theorem size_dropOps (hgone : ∀ o ∈ gone, o.idx < g.ops.size) (hb : b.idx < g.blocks.size) :
    (dropOps gone g b).ops.size = g.ops.size ∧ (dropOps gone g b).blocks.size = g.blocks.size := by
  simp only [dropOps, List.partition_eq_filter_filter]
  have hmem : ∀ o ∈ (g.block b).ops.filter (· ∈ gone), o.idx < g.ops.size := fun o ho =>
    hgone o (by simpa using (List.mem_filter.1 ho).2)
  obtain ⟨-, -, -, hblocks, -, -⟩ := detach_spec ((g.block b).ops.filter (· ∈ gone)) g
  refine ⟨size_detach _ g hmem, ?_⟩
  rw [modifyBlock, hblocks]
  exact Table.size_modify_of_lt hb _

theorem size_foldl_dropOps (blocks : List BlockId) (g : Graph)
    (hgone : ∀ o ∈ gone, o.idx < g.ops.size) (hblocks : ∀ b ∈ blocks, b.idx < g.blocks.size) :
    (blocks.foldl (dropOps gone) g).ops.size = g.ops.size ∧
      (blocks.foldl (dropOps gone) g).blocks.size = g.blocks.size := by
  refine foldl_done (P := fun _ (g' : Graph) => g'.ops.size = g.ops.size ∧
    g'.blocks.size = g.blocks.size) ⟨rfl, rfl⟩ ?_
  rintro done b rest g' hsplit ⟨hops, hsize⟩
  have hb := hblocks b (by simp [hsplit])
  obtain ⟨hops', hsize'⟩ := size_dropOps (b := b) (by rwa [hops]) (by rwa [hsize])
  exact ⟨hops'.trans hops, hsize'.trans hsize⟩

end

theorem erase_eq_filter_of_count {l : List OpId} (h : l.count o ≤ 1) :
    l.erase o = l.filter (· ≠ o) := by
  induction l with
  | nil => rfl
  | cons a l ih =>
    by_cases ha : a = o
    · subst ha
      rw [List.count_cons_self] at h
      have hnot : a ∉ l := List.count_eq_zero.1 (by omega)
      rw [List.erase_cons_head, List.filter_cons_of_neg (by simp), List.filter_eq_self.2]
      exact fun u hu => decide_eq_true fun heq => hnot (heq ▸ hu)
    · rw [List.count_cons_of_ne ha] at h
      rw [List.erase_cons_tail (by simpa using ha), List.filter_cons_of_pos (by simpa using ha),
        ih h]

/-- An op that stands in a list once at most is gone when it has been erased. -/
theorem erase_filter {l gone : List OpId} (h : l.count o ≤ 1) :
    (l.filter (· ∉ gone)).erase o = l.filter (· ∉ o :: gone) := by
  have hcount : (l.filter (· ∉ gone)).count o ≤ 1 := (List.filter_sublist.count_le o).trans h
  rw [erase_eq_filter_of_count hcount, List.filter_filter]
  exact List.filter_congr fun u _ => by simp

namespace Placed
variable (h : g.Placed o)
include h

theorem mem_iff : o ∈ (g.block b).ops ↔ (g.op o).block = some b := by
  rw [← List.count_pos_iff, h b]
  split <;> simp [*]

theorem count_le_one (b : BlockId) : (g.block b).ops.count o ≤ 1 := by
  rw [h b]
  split <;> omega

end Placed

/-- A sweep underway, none of whose blocks is missing. -/
structure Underway (g : Graph) (ops : List OpId) (s : Sweep) : Prop extends Withdrawn g ops s where
  there : ∀ b ∈ s.blocks, b.idx < s.graph.blocks.size

section
variable {s : Sweep} (hw : Underway g ops s) (hplaced : ∀ o ∈ ops, g.Placed o)
include hw hplaced

theorem Underway.placed (ho : o ∈ ops) : s.graph.Placed o := by
  intro b
  rw [hw.shape.block, Graph.block, hw.shape.blocks]
  exact hplaced o ho b

/-- Rebuilding the lists at the end is what a sweep amounts to. -/
theorem Underway.settles : Settles s (s.blocks.foldl (dropOps s.removed) s.graph) := by
  have hlisted : ∀ u ∈ s.removed, ∃ b ∈ s.blocks, u ∈ (s.graph.block b).ops := by
    intro u hu
    obtain ⟨b, hb, hub⟩ := hw.listed u hu
    exact ⟨b, hb, (hw.placed hplaced (hw.mem u hu)).mem_iff.2 ((hw.shape.block u).trans hub)⟩
  have hthere : ∀ u ∈ s.removed, u.idx < s.graph.ops.size := by
    intro u hu
    obtain ⟨b, -, hub⟩ := hlisted u hu
    exact lt_size_of_block ((hw.placed hplaced (hw.mem u hu)).mem_iff.1 hub)
  obtain ⟨done, hdone, hdrop⟩ := dropped_foldl s.graph s.removed s.blocks hw.nodup
  obtain ⟨hops, hblocks⟩ := size_foldl_dropOps s.blocks s.graph hthere hw.there
  constructor
  case params => exact hdrop.params
  case funcs => exact hdrop.funcs
  case modules => exact hdrop.modules
  case numOps => exact hops
  case numBlocks => exact hblocks
  case op =>
    intro u
    rw [hdrop.op u]
    by_cases hu : u ∈ s.removed
    · obtain ⟨b, hb, hub⟩ := hlisted u hu
      rw [if_pos ⟨hu, b, (hdone b).2 hb, hub⟩, if_pos hu]
    · rw [if_neg (by simp [hu]), if_neg hu]
  case block =>
    intro b
    rw [hdrop.block b]
    split
    · rfl
    · rename_i hnot
      have hkept : (s.graph.block b).ops.filter (· ∉ s.removed) = (s.graph.block b).ops := by
        refine List.filter_eq_self.2 fun u hu => ?_
        rw [decide_eq_true_eq]
        intro hrem
        obtain ⟨c, hc, huc⟩ := hlisted u hrem
        have hmem := hw.placed hplaced (hw.mem u hrem)
        rw [hmem.mem_iff] at hu huc
        exact hnot ((hdone b).2 (Option.some.inj (hu.symm.trans huc) ▸ hc))
      rw [hkept]

/-- The op that a sweep comes by is dead: both ways it leaves its block. -/
theorem Settles.withdraw (h : Settles s x) (ho : o ∈ ops) (hkept : o ∉ s.removed)
    (hb : (s.graph.op o).block = some b) (hsize : (s.graph.op o).uses.size = 0) {g₁ : Graph}
    (hok : s.graph.removeUses (s.graph.op o).args o = .ok g₁) (blocks : List BlockId) :
    ∃ x', x.remove o = .ok (.ok x') ∧ Settles ⟨g₁, o :: s.removed, blocks⟩ x' := by
  have hplace := hw.placed hplaced ho
  have hop : x.op o = s.graph.op o := by rw [h.op, if_neg hkept]
  have hlist : o ∈ (x.block b).ops := by
    rw [h.block]
    simpa [hkept] using hplace.mem_iff.2 hb
  obtain ⟨i, hi⟩ := Execution.exists_position (hop ▸ hb) hlist
  obtain ⟨x₁, hx₁, h₁⟩ := h.removeUses hok
  have hsame := SamePlaces.of_removeUses hok
  have hplace₁ : g₁.Placed o := fun c => by
    rw [hsame.list_eq, hsame.owner]
    exact hplace c
  have hb₁ : (g₁.op o).block = some b := (hsame.owner o).trans hb
  refine ⟨(x₁.modifyBlock b fun bl => { bl with ops := bl.ops.erase o }).modifyOp o
    fun op => { op with block := none }, ?_, ?_⟩
  · unfold Graph.remove
    simp only [hop, hb, hsize, hi, ok_bind, removeUses_modifyBlock, hx₁]
    rfl
  constructor
  case params => exact h₁.params
  case funcs => exact h₁.funcs
  case modules => exact h₁.modules
  case op =>
    intro u
    rw [op_modifyOp, op_modifyBlock, op_modifyBlock, h₁.op u, h₁.op o]
    by_cases hu : u = o
    · subst hu
      simp [hkept]
    · simp [hu]
  case block =>
    intro c
    rw [block_modifyOp, block_modifyBlock, h₁.block c]
    dsimp only
    rw [← erase_filter (hplace₁.count_le_one c)]
    split
    · rename_i hc
      rw [hc, h₁.block b]
    · rename_i hc
      rw [List.erase_of_not_mem]
      intro hmem
      have hother := hplace₁.mem_iff.1 (List.mem_of_mem_filter hmem)
      exact hc (Option.some.inj (hother.symm.trans hb₁))
  case numOps =>
    have hlt : o.idx < x₁.ops.size := h₁.numOps ▸ lt_size_of_block hb₁
    exact (Table.size_modify_of_lt hlt _).trans h₁.numOps
  case numBlocks =>
    have hlt : b.idx < x₁.blocks.size :=
      h₁.numBlocks ▸ g₁.lt_size_of_ops b (List.ne_nil_of_mem (hplace₁.mem_iff.2 hb₁))
    exact (Table.size_modify_of_lt hlt _).trans h₁.numBlocks

end

section
variable {s : Sweep} (hcons : g.Consistent) (hplaced : ∀ o ∈ ops, g.Placed o)
include hcons hplaced

/-- A sweep that comes by an op does what a single removal does: nothing, if that is refused. -/
theorem Settles.visit (h : Settles s x) (hw : Underway g ops s) (ho : o ∈ ops) :
    (s.visit o = .ok s ∧ ∃ r, x.remove o = .ok (.error r)) ∨
    ∃ s' x', s.visit o = .ok s' ∧ Underway g ops s' ∧ s'.removed = o :: s.removed ∧
      x.remove o = .ok (.ok x') ∧ Settles s' x' := by
  rcases s.visit_cases o with ⟨hsame, hskip⟩ | ⟨b, hb, hkept, hsize, hdead⟩
  · refine .inl ⟨hsame, ?_⟩
    by_cases hdetached : (x.op o).block = none
    · exact exists_refusal_of_detached hdetached
    · obtain ⟨b, hb⟩ := Option.ne_none_iff_exists'.1 hdetached
      have hop := h.op o
      split at hop
      · rw [hop] at hb
        cases hb
      · rw [hop] at hb
        refine exists_refusal_of_used (hop ▸ hb) (hop ▸ ?_)
        exact (hskip.resolve_left (by simp [hb])).resolve_left ‹_›
  · obtain ⟨s', hok, hw'⟩ := hcons.visit hw.toWithdrawn ho
    refine .inr ⟨s', ?_⟩
    have hvisit := hok
    rw [hdead] at hok
    obtain ⟨g₁, hg₁, rfl⟩ := map_eq_ok.1 hok
    obtain ⟨x', hx', h'⟩ := h.withdraw hw hplaced ho hkept hb hsize hg₁ _
    refine ⟨x', hvisit, ⟨hw', fun c hc => ?_⟩, rfl, hx', h'⟩
    dsimp only at hc ⊢
    rw [(SamePlaces.of_removeUses hg₁).blocks]
    rcases mem_noted.1 hc with hc | rfl
    · exact hw.there c hc
    · exact s.graph.lt_size_of_ops c (List.ne_nil_of_mem ((hw.placed hplaced ho).mem_iff.2 hb))

/-- A sweep over a list does what single removals do. -/
theorem Settles.visits {todo : List OpId} (htodo : ∀ o ∈ todo, o ∈ ops) (h : Settles s x)
    (hw : Underway g ops s) : ∃ s' x', todo.foldlM (fun (s : Sweep) o => s.visit o) s = .ok s' ∧
      Underway g ops s' ∧ Settles s' x' ∧
      (todo.foldlM removeNext s.removed.length).run x = .ok (s'.removed.length, x') := by
  induction todo generalizing s x with
  | nil => exact ⟨s, x, rfl, hw, h, rfl⟩
  | cons o todo ih =>
    have hrest := fun u hu => htodo u (List.mem_cons_of_mem o hu)
    rw [List.foldlM_cons, List.foldlM_cons, StateT.run_bind]
    rcases h.visit hcons hplaced hw (htodo o (by simp)) with
      ⟨hvisit, r, hr⟩ | ⟨s₁, x₁, hvisit, hw₁, hremoved, hr, h₁⟩
    · rw [hvisit, removeNext_of_refused hr]
      exact ih hrest h hw
    · rw [hvisit, removeNext_of_ok hr]
      have hlen : s₁.removed.length = s.removed.length + 1 := by rw [hremoved, List.length_cons]
      exact hlen ▸ ih hrest h₁ hw₁

end

/-- Removing dead ops in one sweep leaves the graph that removing them one by one leaves, from the
last to the first and whatever is refused; it tells how many of these removals are made. A removal
that is refused changes nothing. -/
theorem removeDead_eq_removeEach (hcons : g.Consistent) (hplaced : ∀ o ∈ ops, g.Placed o) :
    ∃ g' n, g.removeDead ops = .ok (g', n) ∧ (removeEach ops).run g = .ok (n, g') ∧
      ∀ (x : Graph) o r x', (removeInPlace o).run x = .ok (some r, x') → x' = x := by
  have hstart : Settles { graph := g } g :=
    ⟨by simp, by simp, rfl, rfl, rfl, rfl, rfl⟩
  have hw : Underway g ops { graph := g } :=
    ⟨⟨.refl g, by simp, by simp, by simp, by simp⟩, by simp⟩
  obtain ⟨s, x, hs, hw, hsettles, hrun⟩ :=
    hstart.visits hcons hplaced (fun o => List.mem_reverse.1) hw
  refine ⟨x, s.removed.length, ?_, hrun, fun _ _ _ _ => eq_of_removeInPlace_refused⟩
  rw [hsettles.eq (hw.settles hplaced)]
  simp only [removeDead, hs]
  rfl

/-- Ops of an exact graph are placed, those apart that wait in an editor. -/
theorem Exact.placed_of_idle {waiting : BlockId → List OpId} (h : g.Exact waiting)
    (hidle : ∀ b, o ∉ waiting b) : g.Placed o := by
  intro b
  rw [← h.placed b o, List.count_eq_zero.2 (hidle b), Nat.add_zero]

/-- A chain of two ops that nothing reads, named in the wrong order, one of them twice, with an op
that is detached. -/
theorem removeDead_eq_removeEach_chain : ∃ (g g' : Graph) (ops : List OpId),
    (g.block ⟨0⟩).ops = [⟨0⟩, ⟨1⟩] ∧ ops = [⟨0⟩, ⟨1⟩, ⟨1⟩, ⟨2⟩] ∧
    g.removeDead ops = .ok (g', 2) ∧ (removeEach ops).run g = .ok (2, g') := by
  have laid := Session.Leads.here (s := {})
    |>.step (.addBlock ⟨0⟩ (text "entry")) trivial rfl (by decide)
    |>.step (.newOp .not 8 [some (.const ⟨1, 8⟩)] []) trivial rfl (by decide)
    |>.step (.newOp .add 8 [some (.result ⟨0⟩), some (.result ⟨0⟩)] []) trivial rfl (by decide)
    |>.step (.newOp .neg 8 [some (.result ⟨0⟩)] []) trivial rfl (by decide)
    |>.step (.append ⟨0⟩ [⟨0⟩, ⟨1⟩]) ⟨by decide, by decide⟩ rfl (by decide)
  obtain ⟨hexact, -⟩ :=
    Session.exact_of_leads ⟨exact_empty, by simp⟩ (by simp [Session.Anchored]) laid
  have hplaced := fun o (_ : o ∈ ([⟨0⟩, ⟨1⟩, ⟨1⟩, ⟨2⟩] : List OpId)) =>
    hexact.graph.placed_of_idle (o := o) fun _ => List.not_mem_nil
  obtain ⟨g', n, hdead, heach, -⟩ := removeDead_eq_removeEach hexact.graph.consistent hplaced
  have htwo : Except.toOption (Prod.snd <$> Except.ok (g', n) : Except Violation Nat) = some 2 :=
    hdead ▸ rfl
  obtain rfl : n = 2 := Option.some.inj htwo
  exact ⟨_, g', _, by decide, rfl, hdead, heach⟩

end Graph
end Disguise
