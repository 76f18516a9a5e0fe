import Disguise.Proofs.Soundness
import Disguise.Proofs.Sweeping

/-!
Exact graphs. The use sets of a graph are exact if they hold what the operand slots of attached ops
say, wherever these ops are. Every edit keeps this, on ops of any kind and on blocks of any shape;
nothing here asks for well-formed functions.
-/
namespace Disguise
open Results

namespace Graph
variable {g g' : Graph} {waiting : BlockId → List OpId} {b : BlockId} {o : OpId} {ops : List OpId}

/-- Each value has on record the slots of attached ops that hold it. An attached op stands once in
its block, or among the ops that wait to be placed there, and a detached one stands nowhere. -/
structure Exact (g : Graph) (waiting : BlockId → List OpId) : Prop where
  uses : ∀ v, v.Tracked → ∀ u,
    g.recorded v u = if (g.op u).block.isSome then g.slots u v else 0
  placed : ∀ b o, (g.block b).ops.count o + (waiting b).count o =
    if (g.op o).block = some b then 1 else 0

/-- Each value has on record the slots of attached ops that hold it, wherever these ops are. -/
def Consistent (g : Graph) : Prop :=
  ∀ v, v.Tracked → ∀ u, g.recorded v u = if (g.op u).block.isSome then g.slots u v else 0

/-- Users on record are attached, and all their slots are on record. -/
theorem Consistent.of_mem_users (h : g.Consistent) {u : OpId} (hu : u ∈ (g.op o).uses.users) :
    (g.op u).block.isSome ∧ g.recorded (.result o) u = g.slots u (.result o) := by
  have hpos : 0 < g.recorded (.result o) u := UseSet.mem_users.1 hu
  have huses := h (.result o) trivial u
  split at huses
  · exact ⟨‹_›, huses⟩
  · omega

/-- In whatever order the users of an op are turned to another value, all its slots in attached ops
follow. -/
theorem Consistent.redirects (h : g.Consistent) (v : Option Operand) {order : List OpId}
    (hperm : order.Perm (g.op o).uses.users) :
    ∃ g', order.foldlM (fun g user => g.redirect o v user) g = .ok g' ∧ g.Retuned g' fun u =>
      if (g.op u).block.isSome then (g.op u).args.map (turn o v) else (g.op u).args :=
  redirects_of_recorded v (fun _ => id) (h (.result o) trivial) hperm

/-- Ops that may be inserted: different ones, none of which is attached. -/
structure Loose (g : Graph) (ops : List OpId) : Prop where
  nodup : ops.Nodup
  detached : ∀ o ∈ ops, (g.op o).block = none

theorem exact_empty : Exact {} fun _ => [] where
  uses v _ u := by
    cases v <;> rfl
  placed _ _ := rfl

namespace Exact
variable (h : g.Exact waiting)
include h

theorem consistent : g.Consistent := h.uses

theorem block_iff : (g.op o).block = some b ↔ o ∈ (g.block b).ops ∨ o ∈ waiting b := by
  have hplaced := h.placed b o
  rw [← List.count_pos_iff, ← List.count_pos_iff (l := waiting b)]
  split at hplaced
  · rename_i hblock
    exact iff_of_true hblock (by omega)
  · rename_i hblock
    exact iff_of_false hblock (by omega)

theorem block_of_mem (ho : o ∈ (g.block b).ops) : (g.op o).block = some b :=
  h.block_iff.2 (.inl ho)

theorem lt_size (ho : o ∈ (g.block b).ops) : o.idx < g.ops.size := by
  by_contra hle
  have hblock := h.block_of_mem ho
  rw [op, g.ops.get_of_size_le (Nat.le_of_not_lt hle)] at hblock
  cases hblock

theorem nodup (b : BlockId) : (g.block b).ops.Nodup := by
  rw [List.nodup_iff_count_le_one]
  intro o
  have hplaced := h.placed b o
  split at hplaced <;> omega

/-- A graph with the same attached ops, slots and records is as exact. -/
theorem congr (hrec : ∀ v, v.Tracked → ∀ u, g'.recorded v u = g.recorded v u)
    (hblock : ∀ u, (g'.op u).block = (g.op u).block)
    (hslots : ∀ u, (g.op u).block.isSome → ∀ v, g'.slots u v = g.slots u v)
    (hops : ∀ b, (g'.block b).ops = (g.block b).ops) : g'.Exact waiting where
  uses v hv u := by
    rw [hrec v hv u, h.uses v hv u, hblock u]
    split
    · rename_i hu
      exact (hslots u hu v).symm
    · rfl
  placed b o := by
    rw [hops b, hblock o]
    exact h.placed b o

theorem recount {waiting' : BlockId → List OpId}
    (hcount : ∀ b o, (waiting' b).count o = (waiting b).count o) : g.Exact waiting' where
  uses := h.uses
  placed b o := by
    rw [hcount b o]
    exact h.placed b o

/-- Attached ops wait for their place. -/
theorem attach (hloose : g.Loose ops) (b : BlockId) :
    ∃ g', g.attach b ops = .ok g' ∧ g'.blocks = g.blocks ∧
      g'.Exact fun c => if c = b then waiting b ++ ops else waiting c := by
  obtain ⟨g', hok, hen⟩ := attach_eq_ok (b := b) hloose.nodup hloose.detached
  refine ⟨g', hok, hen.blocks, fun v hv u => ?_, fun c o => ?_⟩
  · rw [hen.records v hv u, h.uses v hv u, hen.owner u, hen.slots]
    by_cases hu : u ∈ ops
    · simp [hu, hloose.detached u hu]
    · simp [hu]
  · have hplaced := h.placed c o
    rw [hen.block c, hen.owner o]
    by_cases ho : o ∈ ops
    · have hone := List.count_eq_one_of_mem hloose.nodup ho
      rw [hloose.detached o ho] at hplaced
      simp only [reduceCtorEq, if_false] at hplaced
      rw [if_pos ho]
      by_cases hc : c = b
      · subst hc
        simp only [if_true, List.count_append, hone]
        omega
      · rw [if_neg hc, if_neg (by simpa [eq_comm] using hc)]
        exact hplaced
    · rw [if_neg ho, ← hplaced]
      split
      · rename_i hc
        subst hc
        rw [List.count_append, List.count_eq_zero.2 ho, Nat.add_zero]
      · rfl

/-- Moving ops between the list of a block and those that wait for it changes nothing else. -/
theorem relist {k : Block → Block} {waiting' : BlockId → List OpId}
    (hcount : ∀ o, (k (g.block b)).ops.count o + (waiting' b).count o =
      (g.block b).ops.count o + (waiting b).count o)
    (hother : ∀ c, c ≠ b → ∀ o, (waiting' c).count o = (waiting c).count o) :
    (g.modifyBlock b k).Exact waiting' where
  uses v hv u := by
    have hrec : (g.modifyBlock b k).recorded v u = g.recorded v u := by cases v <;> rfl
    rw [hrec]
    exact h.uses v hv u
  placed c o := by
    rw [block_modifyBlock]
    have hplaced := h.placed c o
    split
    · rename_i hc
      subst hc
      rw [hcount o]
      exact hplaced
    · rename_i hc
      rw [hother c hc o]
      exact hplaced

theorem insertAt (hloose : g.Loose ops) (b : BlockId) (i : Nat) :
    ∃ g', g.insertAt b i ops = .ok g' ∧ g'.Exact waiting := by
  obtain ⟨g₁, hok, -, h₁⟩ := h.attach hloose b
  refine ⟨_, ?_, h₁.relist (b := b) (k := fun bl =>
    { bl with ops := bl.ops.take i ++ ops ++ bl.ops.drop i }) (fun o => ?_) fun c hc o => ?_⟩
  · simp only [Graph.insertAt, hok]
    rfl
  · have hsplit : ((g₁.block b).ops.take i).count o + ((g₁.block b).ops.drop i).count o =
        (g₁.block b).ops.count o := by
      rw [← List.count_append, List.take_append_drop]
    simp only [List.count_append, if_true]
    omega
  · rw [if_neg hc]

theorem append (hloose : g.Loose ops) (b : BlockId) :
    ∃ g', g.append b ops = .ok g' ∧ g'.Exact waiting :=
  h.insertAt hloose b _

theorem exists_place {ref : OpId} (href : ref ∈ (g.block b).ops) :
    ∃ i, g.placeIn b ref = .ok i := by
  have hblock := h.block_of_mem href
  obtain ⟨i, hi⟩ := Execution.exists_position hblock href
  exact ⟨i, by simp [placeIn, hblock, hi, Functor.map, Except.map]⟩

theorem insertBefore {ref : OpId} (hloose : g.Loose ops) (href : ref ∈ (g.block b).ops) :
    ∃ g', g.insertBefore b ref ops = .ok g' ∧ g'.Exact waiting := by
  obtain ⟨i, hi⟩ := h.exists_place href
  obtain ⟨g', hok, h'⟩ := h.insertAt hloose b i
  exact ⟨g', by simp only [Graph.insertBefore, hi, ok_bind, hok], h'⟩

theorem insertAfter {ref : OpId} (hloose : g.Loose ops) (href : ref ∈ (g.block b).ops) :
    ∃ g', g.insertAfter b ref ops = .ok g' ∧ g'.Exact waiting := by
  obtain ⟨i, hi⟩ := h.exists_place href
  obtain ⟨g', hok, h'⟩ := h.insertAt hloose b (i + 1)
  exact ⟨g', by simp only [Graph.insertAfter, hi, ok_bind, hok], h'⟩

/-- Operands of attached ops change together with the records. -/
theorem retuned {args : OpId → List (Option Operand)} (hr : g.Retuned g' args)
    (hfree : ∀ u, (g.op u).block = none → args u = (g.op u).args) : g'.Exact waiting := by
  have hblock : ∀ u, (g'.op u).block = (g.op u).block := by
    intro u
    change (g'.op u).bare.block = _
    rw [hr.op u]
    rfl
  refine ⟨fun v hv u => ?_, fun b o => ?_⟩
  · have hbalance := hr.balance v hv u
    have huses := h.uses v hv u
    rw [slots, hr.args_eq u, hblock u]
    cases hu : (g.op u).block with
    | none =>
      rw [hfree u hu, ← slots] at hbalance
      rw [hu] at huses
      simp only [Option.isSome_none, Bool.false_eq_true, if_false] at huses ⊢
      omega
    | some b =>
      rw [hu] at huses
      simp only [Option.isSome_some, if_true] at huses ⊢
      omega
  · rw [hblock o, Graph.block, hr.blocks]
    exact h.placed b o

theorem setArg {i : Nat} (hi : i < (g.op o).args.length) (v : Option Operand) :
    ∃ g', g.setArg o i v = .ok g' ∧ g'.Exact waiting := by
  have hold := List.getElem?_eq_getElem hi
  cases hb : (g.op o).block with
  | none =>
    refine ⟨g.modifyOp o fun op => { op with args := op.args.set i v }, ?_, ?_⟩
    · simp only [Graph.setArg, hold, hb]
      rfl
    · refine h.congr (fun v _ u => ?_) (fun u => ?_) (fun u hu v => ?_) fun b => rfl
      · rw [recorded_modifyOp (by simp)]
      · rw [op_modifyOp]
        split
        · rename_i hu
          rw [hu]
        · rfl
      · have hne : u ≠ o := by
          rintro rfl
          rw [hb] at hu
          cases hu
        rw [slots, slots, op_modifyOp, if_neg hne]
  | some b =>
    have hsome : (g.op o).block.isSome := by simp [hb]
    obtain ⟨g', hok, hr⟩ := setArg_eq_ok v hold hsome fun w hw htracked => by
      rw [h.uses w htracked o, if_pos hsome]
      exact List.count_pos_iff.2 (hw ▸ List.getElem_mem hi)
    refine ⟨g', hok, h.retuned hr fun u hu => ?_⟩
    have hne : u ≠ o := by
      rintro rfl
      rw [hb] at hu
      cases hu
    rw [if_neg hne]

/-- The users of an op can be turned to another value; all its slots in attached ops follow. -/
theorem exists_retuned {v : Option Operand} (hv : v ≠ some (.result o)) :
    ∃ g', g.replaceAllUses o v = .ok g' ∧ g.Retuned g' fun u =>
      if (g.op u).block.isSome then (g.op u).args.map (turn o v) else (g.op u).args := by
  obtain ⟨g', hok, hr⟩ := h.consistent.redirects v (.refl _)
  exact ⟨g', by rw [Graph.replaceAllUses, if_neg hv, hok], hr⟩

theorem replaceAllUses (o : OpId) (v : Option Operand) :
    ∃ g', g.replaceAllUses o v = .ok g' ∧ g'.Exact waiting := by
  by_cases hv : v = some (.result o)
  · exact ⟨g, by simp [Graph.replaceAllUses, hv], h⟩
  · obtain ⟨g', hok, hr⟩ := h.exists_retuned hv
    refine ⟨g', hok, h.retuned hr fun u hu => ?_⟩
    rw [hu]
    rfl

end Exact

/-- The ops in `gone` have been taken out of their blocks and withdrawn from the records. -/
structure Removed (g g' : Graph) (gone : List OpId) : Prop where
  block : ∀ u, (g'.op u).block = if u ∈ gone then none else (g.op u).block
  args : ∀ u, (g'.op u).args = (g.op u).args
  ops : ∀ b, (g'.block b).ops = (g.block b).ops.filter (· ∉ gone)
  records : ∀ v, v.Tracked → ∀ u,
    g.recorded v u = g'.recorded v u + if u ∈ gone then g.slots u v else 0

/-- The ops that a sweep has withdrawn are off the records and stand in the blocks that it is to
rebuild. -/
structure Withdrawn (g : Graph) (ops : List OpId) (s : Sweep) : Prop where
  shape : SameShape g s.graph
  records : ∀ v, v.Tracked → ∀ u,
    g.recorded v u = s.graph.recorded v u + if u ∈ s.removed then g.slots u v else 0
  mem : ∀ o ∈ s.removed, o ∈ ops
  listed : ∀ o ∈ s.removed, ∃ b ∈ s.blocks, (g.op o).block = some b
  nodup : s.blocks.Nodup

/-- A visit withdraws what the slots of its op say, which is on record. -/
theorem Consistent.visit (h : g.Consistent) {s : Sweep} (hs : Withdrawn g ops s) (ho : o ∈ ops) :
    ∃ s', s.visit o = .ok s' ∧ Withdrawn g ops s' := by
  rcases s.visit_cases o with ⟨hsame, -⟩ | ⟨b, hb, hnot, -, hdead⟩
  · exact ⟨s, hsame, hs⟩
  · have hblock : (g.op o).block = some b := by rw [← hs.shape.block, hb]
    obtain ⟨g₁, hok, hshape, hrec⟩ := @removeUses_eq_ok s.graph (s.graph.op o).args o (by
      intro v hv
      have hrec := hs.records v hv o
      rw [if_neg hnot, h v hv o, if_pos (by simp [hblock])] at hrec
      rw [hs.shape.args o, ← slots]
      omega)
    refine ⟨_, by rw [hdead, hok]; rfl, hs.shape.trans hshape, fun v hv u => ?_, ?_, ?_,
      nodup_noted hs.nodup b⟩
    · rw [hs.records v hv u, hrec v hv u, hs.shape.args o, ← slots]
      by_cases hu : u = o
      · subst hu
        simp [hnot]
      · simp [hu]
    · intro u hu
      rcases List.mem_cons.1 hu with rfl | hu
      · exact ho
      · exact hs.mem u hu
    · intro u hu
      rcases List.mem_cons.1 hu with rfl | hu
      · exact ⟨b, mem_noted.2 (.inr rfl), hblock⟩
      · obtain ⟨c, hc, huc⟩ := hs.listed u hu
        exact ⟨c, mem_noted.2 (.inl hc), huc⟩

namespace Exact
variable (h : g.Exact waiting)
include h

theorem removed {gone : List OpId} (hr : Removed g g' gone)
    (hidle : ∀ o ∈ gone, ∀ b, o ∉ waiting b) : g'.Exact waiting where
  uses v hv u := by
    have huses := h.uses v hv u
    have hrec := hr.records v hv u
    rw [hr.block u, slots, hr.args u, ← slots]
    by_cases hu : u ∈ gone
    · simp only [hu, if_true, Option.isSome_none, Bool.false_eq_true, if_false] at hrec ⊢
      split at huses <;> omega
    · simp only [hu, if_false] at hrec ⊢
      omega
  placed b o := by
    have hplaced := h.placed b o
    rw [hr.ops b, hr.block o]
    by_cases ho : o ∈ gone
    · have hzero : ((g.block b).ops.filter (· ∉ gone)).count o = 0 :=
        List.count_eq_zero.2 (by simp [ho])
      rw [hzero, List.count_eq_zero.2 (hidle o ho b)]
      simp [ho]
    · rw [List.count_filter (by simpa using ho), if_neg ho]
      exact hplaced

theorem removed_one (hb : (g.op o).block = some b) {g₂ : Graph}
    (hshape : SameShape (g.modifyBlock b fun bl => { bl with ops := bl.ops.erase o }) g₂)
    (hrec : ∀ v, v.Tracked → ∀ u, g.recorded v u =
      g₂.recorded v u + if u = o then (g.op o).args.count (some v) else 0) :
    Removed g (g₂.modifyOp o fun op => { op with block := none }) [o] := by
  refine ⟨fun u => ?_, fun u => ?_, fun c => ?_, fun v hv u => ?_⟩
  · rw [op_modifyOp]
    by_cases hu : u = o
    · simp [hu]
    · rw [if_neg hu, if_neg (by simpa using hu), hshape.block]
      rfl
  · have hargs : (g₂.op u).args = (g.op u).args := hshape.args u
    rw [op_modifyOp]
    split
    · rename_i hu
      rw [hu] at hargs ⊢
      exact hargs
    · exact hargs
  · rw [block_modifyOp, Graph.block, hshape.blocks, ← Graph.block, block_modifyBlock]
    split
    · rename_i hc
      dsimp only
      rw [hc, (h.nodup b).erase_eq_filter]
      exact List.filter_congr fun u _ => by by_cases hu : u = o <;> simp [hu]
    · rename_i hc
      refine (List.filter_eq_self.2 fun u hu => ?_).symm
      rw [decide_eq_true_eq, List.mem_singleton]
      rintro rfl
      have hother := h.block_of_mem hu
      rw [hb] at hother
      exact hc (Option.some.inj hother).symm
  · rw [recorded_modifyOp (by simp), hrec v hv u]
    by_cases hu : u = o
    · simp [hu, slots]
    · simp [hu]

theorem remove (hidle : ∀ b, o ∉ waiting b) :
    ∃ r, g.remove o = .ok r ∧ ∀ g', r = .ok g' → g'.Exact waiting := by
  cases hb : (g.op o).block with
  | none => exact ⟨_, by simp only [Graph.remove, hb]; rfl, by simp⟩
  | some b =>
    by_cases hsize : (g.op o).uses.size ≠ 0
    · exact ⟨_, by simp only [Graph.remove, hb, if_pos hsize]; rfl, by simp⟩
    · have hlist : o ∈ (g.block b).ops := (h.block_iff.1 hb).resolve_right (hidle b)
      obtain ⟨i, hi⟩ := Execution.exists_position hb hlist
      let g₁ := g.modifyBlock b fun bl => { bl with ops := bl.ops.erase o }
      have hrec₁ : ∀ v u, g₁.recorded v u = g.recorded v u := fun v u => by cases v <;> rfl
      obtain ⟨g₂, hok, hshape, hrec⟩ := @removeUses_eq_ok g₁ (g.op o).args o (by
        intro v hv
        rw [hrec₁, h.uses v hv o, if_pos (by simp [hb]), slots])
      refine ⟨.ok (g₂.modifyOp o fun op => { op with block := none }), ?_, ?_⟩
      · simp only [Graph.remove, hb, if_neg hsize, hi, ok_bind]
        rw [hok]
        rfl
      · intro g' hg'
        obtain rfl := (Except.ok.inj hg').symm
        exact h.removed (h.removed_one hb hshape fun v hv u => by rw [← hrec₁, hrec v hv u])
          (by simpa using hidle)

theorem removeDead (hidle : ∀ o ∈ ops, ∀ b, o ∉ waiting b) :
    ∃ r, g.removeDead ops = .ok r ∧ r.1.Exact waiting := by
  obtain ⟨s, hs, hw⟩ := @foldlM_invariant _ _ _ ops.reverse (fun (s : Sweep) o => s.visit o)
    (fun _ s => Withdrawn g ops s) { graph := g }
    ⟨.refl g, by simp, by simp, by simp, by simp⟩ (by
      rintro o rest s ⟨done, hsplit⟩ hw
      have ho : o ∈ ops := by
        rw [← List.mem_reverse, hsplit]
        simp
      exact h.consistent.visit hw ho)
  obtain ⟨done, hdone, hdrop⟩ := dropped_foldl s.graph s.removed s.blocks hw.nodup
  have hlist : ∀ b, (s.graph.block b).ops = (g.block b).ops := fun b => by
    rw [Graph.block, Graph.block, hw.shape.blocks]
  have hgone : ∀ u ∈ s.removed, ∃ b ∈ done, u ∈ (s.graph.block b).ops := by
    intro u hu
    obtain ⟨b, hb, hub⟩ := hw.listed u hu
    refine ⟨b, (hdone b).2 hb, ?_⟩
    rw [hlist]
    exact (h.block_iff.1 hub).resolve_right (hidle u (hw.mem u hu) b)
  have hfree : ∀ o ∈ s.removed, ∀ b, o ∉ waiting b := fun o ho => hidle o (hw.mem o ho)
  refine ⟨(s.blocks.foldl (dropOps s.removed) s.graph, s.removed.length), ?_, h.removed ?_ hfree⟩
  · simp only [Graph.removeDead, hs]
    rfl
  refine ⟨fun u => ?_, fun u => ?_, fun b => ?_, fun v hv u => ?_⟩
  · rw [hdrop.op u]
    by_cases hu : u ∈ s.removed
    · rw [if_pos ⟨hu, hgone u hu⟩, if_pos hu]
    · rw [if_neg (by simp [hu]), if_neg hu, hw.shape.block]
  · rw [hdrop.op u, ← hw.shape.args u]
    split <;> rfl
  · rw [hdrop.block b]
    split
    · rw [hlist]
    · rename_i hnot
      rw [hlist]
      refine (List.filter_eq_self.2 fun u hu => ?_).symm
      rw [decide_eq_true_eq]
      intro hrem
      obtain ⟨c, hc, huc⟩ := hw.listed u hrem
      have hub := h.block_of_mem hu
      rw [huc] at hub
      exact hnot ((hdone b).2 (Option.some.inj hub ▸ hc))
  · rw [hw.records v hv u, hdrop.recorded]

theorem newOp (code : Opcode) (bits : Int) (args : List (Option Operand))
    (targets : List (Option BlockId)) : (g.newOp code bits args targets).1.Exact waiting := by
  have hdefault : g.op ⟨g.ops.size⟩ = default := g.ops.get_of_size_le (Nat.le_refl _)
  refine h.congr (fun v _ u => ?_) (fun u => ?_) (fun u hu v => ?_) fun b => rfl
  · cases v with
    | const c => rfl
    | param p => rfl
    | result q =>
      simp only [recorded, op_newOp]
      split
      · rename_i hq
        rw [hq, hdefault]
        rfl
      · rfl
  · rw [op_newOp]
    split
    · rename_i hu
      rw [hu, hdefault]
      rfl
    · rfl
  · have hne : u ≠ ⟨g.ops.size⟩ := by
      rintro rfl
      rw [hdefault] at hu
      cases hu
    rw [slots, slots, op_newOp, if_neg hne]

theorem newParam (name : Bytes) (bits : Int) (func : Option FuncId) :
    (g.newParam name bits func).1.Exact waiting := by
  refine h.congr (fun v _ u => ?_) (fun u => rfl) (fun u hu v => rfl) fun b => rfl
  cases v with
  | const c => rfl
  | result q => rfl
  | param p =>
    simp only [recorded, Graph.newParam, Graph.param, Table.get_push]
    split
    · rename_i hp
      rw [hp, g.params.get_of_size_le (Nat.le_refl _)]
      rfl
    · rfl

theorem newBlock (f : FuncId) (name : Bytes) : (g.newBlock f name).1.Exact waiting := by
  refine h.congr (fun v _ u => by cases v <;> rfl) (fun u => rfl) (fun u hu v => rfl) fun b => ?_
  simp only [Graph.newBlock, Graph.block, Table.get_push]
  split
  · rename_i hb
    rw [hb, g.blocks.get_of_size_le (Nat.le_refl _)]
    rfl
  · rfl

/-- Functions and modules hold no records. -/
theorem withFuncs (funcs : Table Func) (modules : Table Module) :
    ({ g with funcs, modules } : Graph).Exact waiting :=
  h.congr (fun v _ u => by cases v <;> rfl) (fun _ => rfl) (fun _ _ _ => rfl) fun _ => rfl

theorem addFunc (m : ModuleId) (f : FuncId) : (g.addFunc m f).Exact waiting := by
  have hown : ∀ (g : Graph), g.Exact waiting → ∀ p : ParamId,
      (g.modifyParam p fun pr => { pr with func := some f }).Exact waiting := by
    intro g h p
    refine h.congr (fun v _ u => ?_) (fun _ => rfl) (fun _ _ _ => rfl) fun _ => rfl
    cases v with
    | const c => rfl
    | result q => rfl
    | param q =>
      simp only [recorded, param_modifyParam]
      split
      · rename_i hq
        rw [hq]
      · rfl
  have hall : ∀ (ps : List ParamId) (g : Graph), g.Exact waiting →
      (ps.foldl (fun g p => g.modifyParam p fun pr => { pr with func := some f }) g).Exact
        waiting := by
    intro ps
    induction ps with
    | nil => exact fun g h => h
    | cons p ps ih => exact fun g h => ih _ (hown g h p)
  exact (hall _ _ (h.withFuncs _ _)).withFuncs _ _

end Exact
end Graph
end Disguise
