import Disguise.Proofs.Sessions
import Mathlib.Data.Prod.Lex

/-!
The users of a value in program order. Ops that stand in blocks of one function have different
places there, so there is one way only to put them in order: what `inProgramOrder` gives does not
depend on the order in which it meets them.
-/
namespace Disguise
open Results

namespace Graph
variable {g : Graph} {f : FuncId} {v : Operand} {b c : BlockId} {o u : OpId} {ops : List OpId}

/-- The record of the users of a value; constants keep none. -/
def usesOf (g : Graph) : Operand → UseSet
  | .const _ => .empty
  | .param p => (g.param p).uses
  | .result o => (g.op o).uses

/-- No op waits to be placed in its block. -/
def AllPlaced (g : Graph) : Prop := ∀ o b, (g.op o).block = some b → o ∈ (g.block b).ops

/-- The attached ops that hold a value belong to blocks of one function. -/
def UsedWithin (g : Graph) (f : FuncId) (v : Operand) : Prop :=
  ∀ o b, (g.op o).block = some b → some v ∈ (g.op o).args →
    (g.block b).owner = some f ∧ b ∈ (g.func f).blocks

/-- `o` stands in the block `b` of `f`. -/
structure StandsIn (g : Graph) (f : FuncId) (b : BlockId) (o : OpId) : Prop where
  attached : (g.op o).block = some b
  owner : (g.block b).owner = some f
  block : b ∈ (g.func f).blocks
  op : o ∈ (g.block b).ops

/-- Which block of the function an op stands in, and at which place there. -/
def spot (g : Graph) (f : FuncId) (b : BlockId) (o : OpId) : Nat × Nat :=
  ((g.func f).blocks.idxOf b, (g.block b).ops.idxOf o)

/-- The block of `o` comes before that of `u`, or both stand in one block and `o` comes first. -/
def ComesBefore (g : Graph) (f : FuncId) (o u : OpId) : Prop :=
  ∃ b c, g.StandsIn f b o ∧ g.StandsIn f c u ∧
    Prod.Lex (· < ·) (· < ·) (g.spot f b o) (g.spot f c u)

theorem Site.le_iff {x y : Site} :
    x.le y ↔ x.block < y.block ∨ x.block = y.block ∧ x.op ≤ y.op := by
  simp [Site.le]

theorem Site.le_trans (x y z : Site) (hxy : x.le y) (hyz : y.le z) : x.le z := by
  rw [le_iff] at *
  omega

theorem Site.le_total (x y : Site) : x.le y ∨ y.le x := by
  rw [le_iff, le_iff]
  omega

theorem idxOf?_of_mem {α : Type} [DecidableEq α] {l : List α} {a : α} (h : a ∈ l) :
    l.idxOf? a = some (l.idxOf a) := by
  obtain ⟨i, hi⟩ := Option.isSome_iff_exists.1 (List.isSome_idxOf?.2 h)
  rw [hi, List.idxOf_eq_getD_idxOf?, hi, Option.getD_some]

/-- The site of an op, told by the block it belongs to. -/
def siteIn (g : Graph) (f : FuncId) (o : OpId) : Site :=
  match (g.op o).block with
  | none => ⟨-1, -1⟩
  | some b => ⟨(g.spot f b o).1, (g.spot f b o).2⟩

namespace StandsIn

theorem siteIn_eq (h : g.StandsIn f b o) :
    g.siteIn f o = ⟨(g.spot f b o).1, (g.spot f b o).2⟩ := by
  rw [siteIn, h.attached]

theorem site (h : g.StandsIn f b o) : g.site o = .ok (g.siteIn f o) := by
  have hblock : g.blockPosition b = .ok (g.spot f b o).1 := by
    rw [blockPosition, Block.func_of_owner h.owner, idxOf?_of_mem h.block]
    rfl
  have hop : g.position o = .ok (some (g.spot f b o).2) := by
    simp only [position, h.attached, idxOf?_of_mem h.op]
    rfl
  rw [Graph.site, h.attached, h.siteIn_eq]
  simp only [hblock, hop, ok_bind]
  rfl

/-- Ops at one spot are the same op. -/
theorem eq_of_spot (ho : g.StandsIn f b o) (hu : g.StandsIn f c u)
    (h : g.spot f b o = g.spot f c u) : o = u := by
  obtain ⟨hblock, hop⟩ := Prod.mk.inj h
  obtain rfl := (List.idxOf_inj ho.block).1 hblock
  exact (List.idxOf_inj ho.op).1 hop

theorem comesBefore (ho : g.StandsIn f b o) (hu : g.StandsIn f c u) (hne : o ≠ u)
    (hle : (g.siteIn f o).le (g.siteIn f u)) : g.ComesBefore f o u := by
  refine ⟨b, c, ho, hu, Prod.lex_def.2 ?_⟩
  rw [ho.siteIn_eq, hu.siteIn_eq, Site.le_iff] at hle
  have hspot : g.spot f b o ≠ g.spot f c u := fun heq => hne (eq_of_spot ho hu heq)
  rw [Ne, Prod.ext_iff] at hspot
  dsimp only at hle
  omega

end StandsIn

/-- Of two ops only one comes before the other. -/
theorem ComesBefore.asymm (h : g.ComesBefore f o u) : ¬ g.ComesBefore f u o := by
  obtain ⟨b, c, ho, hu, hlt⟩ := h
  rintro ⟨c', b', hu', ho', hgt⟩
  obtain rfl : b = b' := Option.some.inj (ho.attached.symm.trans ho'.attached)
  obtain rfl : c = c' := Option.some.inj (hu.attached.symm.trans hu'.attached)
  rw [Prod.lex_def] at hlt hgt
  omega

/-- Ops of one function are put in order, whatever order they come in. -/
theorem inProgramOrder_spec (hn : ops.Nodup) (h : ∀ o ∈ ops, ∃ b, g.StandsIn f b o) :
    ∃ l, g.inProgramOrder ops = .ok l ∧ l.Perm ops ∧ l.Pairwise (g.ComesBefore f) := by
  unfold inProgramOrder
  split
  · rename_i hshort
    refine ⟨ops, rfl, .refl _, ?_⟩
    match ops, hshort with
    | [], _ => exact .nil
    | [o], _ => exact List.pairwise_singleton _ o
  · have hsites : (ops.mapM fun o => do pure (o, ← g.site o)) =
        .ok (ops.map fun o => (o, g.siteIn f o)) := by
      refine mapM_eq_ok fun o ho => ?_
      obtain ⟨b, hb⟩ := h o ho
      rw [hb.site]
      rfl
    obtain ⟨hperm, hsorted⟩ := @Sorting.sort_spec _ (fun x y : OpId × Site => x.2.le y.2)
      (fun x y z => x.2.le_trans y.2 z.2) (fun x y => x.2.le_total y.2)
      (ops.map fun o => (o, g.siteIn f o))
    have hops := hperm.map (·.1)
    rw [List.map_map, Function.comp_def, List.map_id'] at hops
    refine ⟨_, by rw [hsites]; rfl, hops, ?_⟩
    have hdiffer := List.pairwise_map.1 (hops.symm.nodup hn)
    rw [List.pairwise_map]
    refine (hdiffer.and hsorted).imp_of_mem fun {x y} hx hy hxy => ?_
    obtain ⟨o, ho, rfl⟩ := List.mem_map.1 (hperm.mem_iff.1 hx)
    obtain ⟨u, hu, rfl⟩ := List.mem_map.1 (hperm.mem_iff.1 hy)
    obtain ⟨b, hb⟩ := h o ho
    obtain ⟨c, hc⟩ := h u hu
    exact hb.comesBefore hc hxy.1 hxy.2

/-- Ops are in order in one way only. -/
theorem eq_of_comesBefore {l l' : List OpId} (hl : l.Pairwise (g.ComesBefore f))
    (hl' : l'.Pairwise (g.ComesBefore f)) (hperm : l.Perm l') : l = l' :=
  hperm.eq_of_pairwise (fun _ _ _ _ hlt hgt => absurd hgt hlt.asymm) hl hl'

theorem Consistent.mem_usesOf (h : g.Consistent) (hv : v.Tracked) :
    o ∈ (g.usesOf v).users ↔ (g.op o).block.isSome ∧ some v ∈ (g.op o).args := by
  have hcount : (g.usesOf v).count o = g.recorded v o := by cases v <;> rfl
  rw [UseSet.mem_users, hcount, h v hv o]
  split
  · rename_i hblock
    simp [hblock, slots, List.count_pos_iff]
  · rename_i hblock
    simp [hblock]

theorem standsIn_of_used (hplaced : g.AllPlaced) (hin : g.UsedWithin f v)
    (hblock : (g.op o).block.isSome) (harg : some v ∈ (g.op o).args) : ∃ b, g.StandsIn f b o := by
  obtain ⟨b, hb⟩ := Option.isSome_iff_exists.1 hblock
  obtain ⟨hfunc, hlisted⟩ := hin o b hb harg
  exact ⟨b, hb, hfunc, hlisted, hplaced o b hb⟩

/-- In an exact graph no op waits but those in editors. -/
theorem Exact.allPlaced (h : g.Exact fun _ => []) : g.AllPlaced := fun _ _ hb =>
  (h.block_iff.1 hb).resolve_right List.not_mem_nil

/-- Three ops that use a param, the last one of them made first. -/
theorem exists_scattered : ∃ g : Graph, g.Exact (fun _ => []) ∧ g.blocks.size = 2 ∧
    (∀ i < 2, (g.block ⟨i⟩).owner = some ⟨0⟩ ∧ ⟨i⟩ ∈ (g.func ⟨0⟩).blocks) ∧
    (g.block ⟨0⟩).ops = [⟨1⟩, ⟨2⟩] ∧ (g.block ⟨1⟩).ops = [⟨0⟩] ∧
    (g.usesOf (.param ⟨0⟩)).users = [⟨0⟩, ⟨1⟩, ⟨2⟩] ∧
    g.usersInOrder (g.usesOf (.param ⟨0⟩)) = .ok [⟨1⟩, ⟨2⟩, ⟨0⟩] := by
  let x := some (Operand.param ⟨0⟩)
  have laid := Session.Leads.here (s := {})
    |>.step (.newParam (text "x") 8 (some ⟨0⟩)) trivial rfl (by decide)
    |>.step (.addBlock ⟨0⟩ (text "entry")) trivial rfl (by decide)
    |>.step (.addBlock ⟨0⟩ (text "exit")) trivial rfl (by decide)
    |>.step (.newOp .ret 8 [x] []) trivial rfl (by decide)
    |>.step (.newOp .add 8 [x, x] []) trivial rfl (by decide)
    |>.step (.newOp .mul 8 [some (.result ⟨1⟩), x] []) trivial rfl (by decide)
    |>.step (.append ⟨1⟩ [⟨0⟩]) ⟨by decide, by decide⟩ rfl (by decide)
    |>.step (.append ⟨0⟩ [⟨1⟩, ⟨2⟩]) ⟨by decide, by decide⟩ rfl (by decide)
  obtain ⟨hexact, -⟩ :=
    Session.exact_of_leads ⟨exact_empty, by simp⟩ (by simp [Session.Anchored]) laid
  exact ⟨_, hexact.graph, by decide, by decide, by decide, by decide, by decide,
    by decide +kernel⟩

/-- The users of a value are listed in program order, each of them once, and no other op is. In
whatever order the record is gone through, the list is the same. -/
theorem users_in_program_order (hcons : g.Consistent) (hplaced : g.AllPlaced) (hv : v.Tracked)
    (hin : g.UsedWithin f v) :
    ∃ users, g.usersInOrder (g.usesOf v) = .ok users ∧
      (∀ visited, visited.Perm (g.usesOf v).users → g.inProgramOrder visited = .ok users) ∧
      (∀ o, users.count o = if (g.op o).block.isSome ∧ some v ∈ (g.op o).args then 1 else 0) ∧
      users.Pairwise (g.ComesBefore f) := by
  have hstand : ∀ o ∈ (g.usesOf v).users, ∃ b, g.StandsIn f b o := fun o ho =>
    standsIn_of_used hplaced hin ((hcons.mem_usesOf hv).1 ho).1 ((hcons.mem_usesOf hv).1 ho).2
  have hn := (g.usesOf v).nodup_users
  obtain ⟨users, hok, hperm, hsorted⟩ := inProgramOrder_spec hn hstand
  refine ⟨users, hok, fun visited hvisited => ?_, fun o => ?_, hsorted⟩
  · obtain ⟨users', hok', hperm', hsorted'⟩ := inProgramOrder_spec (hvisited.symm.nodup hn)
      fun o ho => hstand o (hvisited.subset ho)
    rw [hok', eq_of_comesBefore hsorted' hsorted (hperm'.trans (hvisited.trans hperm.symm))]
  · rw [(hperm.symm.nodup hn).count]
    exact if_congr (hperm.mem_iff.trans (hcons.mem_usesOf hv)) rfl rfl

/-- The users of a param in two blocks, visited neither in the order of the record nor in that of
the program. -/
theorem users_in_program_order_scattered : ∃ g : Graph,
    (g.block ⟨0⟩).ops = [⟨1⟩, ⟨2⟩] ∧ (g.block ⟨1⟩).ops = [⟨0⟩] ∧
    (g.usesOf (.param ⟨0⟩)).users = [⟨0⟩, ⟨1⟩, ⟨2⟩] ∧
    g.inProgramOrder [⟨2⟩, ⟨0⟩, ⟨1⟩] = .ok [⟨1⟩, ⟨2⟩, ⟨0⟩] := by
  obtain ⟨g, hexact, hsize, hblocks, hfirst, hsecond, hrecord, hrun⟩ := exists_scattered
  have hplaced := hexact.allPlaced
  obtain ⟨users, hok, hany, -, -⟩ := users_in_program_order (f := ⟨0⟩) (v := .param ⟨0⟩)
    hexact.consistent hplaced trivial fun o b hb _ =>
      hblocks b.idx (hsize ▸ g.lt_size_of_ops b (List.ne_nil_of_mem (hplaced o b hb)))
  refine ⟨g, hfirst, hsecond, hrecord, ?_⟩
  rw [hany _ (hrecord ▸ by decide), ← hok, hrun]

end Graph
end Disguise
