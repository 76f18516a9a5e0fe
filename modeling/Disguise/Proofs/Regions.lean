import Disguise.Proofs.Editing
import Disguise.Graph.Editor

/-!
What work on a part of a graph leaves alone. A region is closed if what is in it refers to nothing
else. Edits in such a region and calls of an engine on its functions stay in it, whatever shape the
functions are in: all other entries keep what they hold, use sets included.
-/
namespace Disguise
open Results

/-- Some of the numbers of each kind. -/
structure Region where
  ops : Nat → Prop
  params : Nat → Prop
  blocks : Nat → Prop
  funcs : Nat → Prop
  modules : Nat → Prop

/-- From table `t` to table `t'` only entries with the given numbers have changed. They have the
property that is asked for, and all numbers that are still free are among them. -/
structure Table.Confined {α : Type} [Inhabited α] (mine : Nat → Prop) (P : α → Prop)
    (t t' : Table α) : Prop where
  holds : ∀ i, mine i → P (t'.get i)
  free : ∀ i, t'.size ≤ i → mine i
  same : ∀ i, ¬ mine i → t'.get i = t.get i
  size : t.size ≤ t'.size

namespace Table.Confined
variable {α : Type} [Inhabited α] {mine : Nat → Prop} {P : α → Prop} {t t' : Table α}
  (h : Table.Confined mine P t t')
include h

theorem modify {i : Nat} (hi : mine i) {k : α → α} (hk : P (k (t'.get i))) :
    Table.Confined mine P t (t'.modify i k) where
  holds j hj := by
    rw [Table.get_modify]
    split
    · exact hk
    · exact h.holds j hj
  free j hj := by
    rw [Table.size_modify] at hj
    exact h.free j (Nat.le_trans (Nat.le_max_left _ _) hj)
  same j hj := by
    have hne : j ≠ i := by
      rintro rfl
      exact hj hi
    rw [Table.get_modify, if_neg hne, h.same j hj]
  size := by
    rw [Table.size_modify]
    exact Nat.le_trans h.size (Nat.le_max_left _ _)

theorem push {a : α} (ha : P a) : Table.Confined mine P t (t'.push a) where
  holds j hj := by
    rw [Table.get_push]
    split
    · exact ha
    · exact h.holds j hj
  free j hj := by
    rw [Table.size_push] at hj
    exact h.free j (Nat.le_of_succ_le hj)
  same j hj := by
    have hne : j ≠ t'.size := by
      rintro rfl
      exact hj (h.free _ (Nat.le_refl _))
    rw [Table.get_push, if_neg hne, h.same j hj]
  size := by
    rw [Table.size_push]
    exact Nat.le_succ_of_le h.size

end Table.Confined

namespace Region
variable (T : Region)

/-- An operand that is no value from outside of the region. -/
def Has : Operand → Prop
  | .const _ => True
  | .param p => T.params p.idx
  | .result o => T.ops o.idx

/-- An op that refers to the region only. -/
structure ForOp (op : Op) : Prop where
  args : ∀ v, some v ∈ op.args → T.Has v
  block : ∀ b, op.block = some b → T.blocks b.idx
  users : ∀ u ∈ op.uses.users, T.ops u.idx

structure ForFunc (fn : Func) : Prop where
  params : ∀ p ∈ fn.params, T.params p.idx
  blocks : ∀ b ∈ fn.blocks, T.blocks b.idx

structure ForEditor (e : Editor) : Prop where
  block : T.blocks e.block.idx
  queued : ∀ entry ∈ e.queue, ∀ o ∈ entry.2, T.ops o.idx

/-- Graph `y` has been made from graph `x` by work in a region. What is in the region refers to
nothing else, and what is not is as it was. -/
structure Confined (x y : Graph) : Prop where
  ops : Table.Confined T.ops T.ForOp x.ops y.ops
  params : Table.Confined T.params (fun pr => ∀ u ∈ pr.uses.users, T.ops u.idx) x.params y.params
  blocks : Table.Confined T.blocks (fun bl => ∀ o ∈ bl.ops, T.ops o.idx) x.blocks y.blocks
  funcs : Table.Confined T.funcs T.ForFunc x.funcs y.funcs
  modules : Table.Confined T.modules (fun md => ∀ f ∈ md.funcs, T.funcs f.idx) x.modules y.modules

end Region

theorem UseSet.mem_users_add {s : UseSet} {user u : OpId} (h : u ∈ (s.add user).users) :
    u = user ∨ u ∈ s.users := by
  rw [mem_users, count_add] at h
  rw [mem_users]
  split at h
  · exact .inl ‹_›
  · exact .inr h

theorem UseSet.mem_users_remove {s : UseSet} {user u : OpId} (h : u ∈ (s.remove user).users) :
    u ∈ s.users := by
  rw [mem_users, count_remove] at h
  rw [mem_users]
  split at h <;> omega

theorem Region.ForOp.newUses {T : Region} {op : Op} (h : T.ForOp op) {s : UseSet}
    (hs : ∀ u ∈ s.users, T.ops u.idx) : T.ForOp { op with uses := s } :=
  ⟨h.args, h.block, hs⟩

namespace Region.Confined
variable {T : Region} {x y z : Graph} {o : OpId} {b : BlockId} {ops : List OpId}
  (h : T.Confined x y)
include h

theorem op (ho : T.ops o.idx) : T.ForOp (y.op o) := h.ops.holds _ ho

theorem modifyOp (ho : T.ops o.idx) {k : Op → Op} (hk : T.ForOp (k (y.op o))) :
    T.Confined x (y.modifyOp o k) :=
  { h with ops := h.ops.modify ho hk }

theorem modifyParam {p : ParamId} (hp : T.params p.idx) {k : Param → Param}
    (hk : ∀ u ∈ (k (y.param p)).uses.users, T.ops u.idx) : T.Confined x (y.modifyParam p k) :=
  { h with params := h.params.modify hp hk }

theorem modifyBlock (hb : T.blocks b.idx) {k : Block → Block}
    (hk : ∀ o ∈ (k (y.block b)).ops, T.ops o.idx) : T.Confined x (y.modifyBlock b k) :=
  { h with blocks := h.blocks.modify hb hk }

theorem modifyFunc {f : FuncId} (hf : T.funcs f.idx) {k : Func → Func}
    (hk : T.ForFunc (k (y.func f))) : T.Confined x (y.modifyFunc f k) :=
  { h with funcs := h.funcs.modify hf hk }

theorem modifyModule {m : ModuleId} (hm : T.modules m.idx) {k : Module → Module}
    (hk : ∀ f ∈ (k (y.module m)).funcs, T.funcs f.idx) : T.Confined x (y.modifyModule m k) :=
  { h with modules := h.modules.modify hm hk }

theorem addUse {v : Option Operand} (hv : ∀ w, v = some w → T.Has w) {user : OpId}
    (hu : T.ops user.idx) : T.Confined x (y.addUse v user) := by
  have hadd : ∀ s : UseSet, (∀ u ∈ s.users, T.ops u.idx) →
      ∀ u ∈ (s.add user).users, T.ops u.idx := by
    intro s hs u hmem
    rcases UseSet.mem_users_add hmem with rfl | hmem
    · exact hu
    · exact hs u hmem
  unfold Graph.addUse
  split
  · rename_i d
    have hd : T.ops d.idx := hv _ rfl
    exact h.modifyOp hd ((h.op hd).newUses (hadd _ (h.op hd).users))
  · rename_i p
    have hp : T.params p.idx := hv _ rfl
    exact h.modifyParam hp (hadd _ (h.params.holds _ hp))
  · exact h

theorem removeUse {v : Option Operand} (hv : ∀ w, v = some w → T.Has w) {user : OpId}
    (hok : y.removeUse v user = .ok z) : T.Confined x z := by
  unfold Graph.removeUse at hok
  split at hok
  · rename_i d
    have hd : T.ops d.idx := hv _ rfl
    rw [ite_error_eq_ok] at hok
    obtain rfl := Except.ok.inj hok.2
    exact h.modifyOp hd ((h.op hd).newUses fun u hu =>
      (h.op hd).users u (UseSet.mem_users_remove hu))
  · rename_i p
    have hp : T.params p.idx := hv _ rfl
    rw [ite_error_eq_ok] at hok
    obtain rfl := Except.ok.inj hok.2
    exact h.modifyParam hp fun u hu => h.params.holds _ hp u (UseSet.mem_users_remove hu)
  · obtain rfl := Except.ok.inj hok
    exact h

theorem addUses {args : List (Option Operand)} (hargs : ∀ v, some v ∈ args → T.Has v)
    {user : OpId} (hu : T.ops user.idx) : T.Confined x (y.addUses args user) :=
  List.foldlRecOn args _ (motive := fun y => T.Confined x y) h fun _ hy _ hv =>
    hy.addUse (fun w hw => hargs w (hw ▸ hv)) hu

theorem removeUses {args : List (Option Operand)} (hargs : ∀ v, some v ∈ args → T.Has v)
    {user : OpId} (hok : y.removeUses args user = .ok z) : T.Confined x z :=
  foldlM_keeps (P := fun y => T.Confined x y) h (fun _ hv _ _ hy hstep =>
    hy.removeUse (fun w hw => hargs w (hw ▸ hv)) hstep) hok

theorem setArg (ho : T.ops o.idx) {i : Nat} {v : Option Operand} (hv : ∀ w, v = some w → T.Has w)
    (hok : y.setArg o i v = .ok z) : T.Confined x z := by
  have hslot : ∀ {y' : Graph}, T.Confined x y' →
      T.Confined x (y'.modifyOp o fun op => { op with args := op.args.set i v }) := by
    intro y' hy'
    refine hy'.modifyOp ho ⟨fun w hw => ?_, (hy'.op ho).block, (hy'.op ho).users⟩
    rcases List.mem_or_eq_of_mem_set hw with hw | hw
    · exact (hy'.op ho).args w hw
    · exact hv w hw.symm
  unfold Graph.setArg at hok
  dsimp only at hok
  split at hok
  · cases hok
  · rename_i old hold
    have hmem := List.mem_of_getElem? hold
    split at hok
    · rw [bind_eq_ok] at hok
      obtain ⟨y', hrecords, hok⟩ := hok
      obtain rfl := pure_eq_ok.1 hok
      obtain ⟨y₁, hremove, rfl⟩ := map_eq_ok.1 hrecords
      have hold : ∀ w, old = some w → T.Has w := fun w hw => (h.op ho).args w (hw ▸ hmem)
      have hremoved := h.removeUse hold hremove
      exact hslot (hremoved.addUse hv ho)
    · obtain rfl := pure_eq_ok.1 hok
      exact hslot h

theorem redirectFrom {v : Option Operand} (hv : ∀ w, v = some w → T.Has w) {user : OpId}
    (hu : T.ops user.idx) {n i : Nat} (hok : Graph.redirectFrom o v user n i y = .ok z) :
    T.Confined x z := by
  induction n generalizing i y with
  | zero =>
    obtain rfl := Except.ok.inj hok
    exact h
  | succ n ih =>
    unfold Graph.redirectFrom at hok
    dsimp only at hok
    split at hok
    · rw [bind_eq_ok] at hok
      obtain ⟨y', hslot, hok⟩ := hok
      exact ih (h.setArg hu hv hslot) hok
    · exact ih h hok

theorem replaceAllUses (ho : T.ops o.idx) {v : Option Operand} (hv : ∀ w, v = some w → T.Has w)
    (hok : y.replaceAllUses o v = .ok z) : T.Confined x z := by
  unfold Graph.replaceAllUses at hok
  split at hok
  · obtain rfl := Except.ok.inj hok
    exact h
  · exact foldlM_keeps (P := fun y => T.Confined x y) h (fun user hu _ _ hy hstep =>
      hy.redirectFrom hv ((h.op ho).users user hu) hstep) hok

theorem detach (ho : T.ops o.idx) :
    T.Confined x (y.modifyOp o fun op => { op with block := none }) :=
  h.modifyOp ho ⟨(h.op ho).args, by simp, (h.op ho).users⟩

theorem remove (ho : T.ops o.idx) (hok : y.remove o = .ok (.ok z)) : T.Confined x z := by
  unfold Graph.remove at hok
  dsimp only at hok
  split at hok
  · cases hok
  · rename_i b hb
    split at hok
    · cases hok
    · simp only [bind_eq_ok, pure_eq_ok] at hok
      obtain ⟨-, -, y', hrecords, hok⟩ := hok
      obtain rfl := Except.ok.inj hok
      have hmine := (h.op ho).block b hb
      have hlist := h.modifyBlock hmine (k := fun bl => { bl with ops := bl.ops.erase o })
        fun u hu => h.blocks.holds _ hmine u (List.mem_of_mem_erase hu)
      exact (hlist.removeUses (h.op ho).args hrecords).detach ho

theorem dropOps (hb : T.blocks b.idx) {removed : List OpId} :
    T.Confined x (Graph.dropOps removed y b) := by
  have hlist := h.blocks.holds _ hb
  unfold Graph.dropOps
  rw [List.partition_eq_filter_filter]
  dsimp only
  have hgone := List.foldlRecOn ((y.block b).ops.filter (· ∈ removed))
    (fun y o => Graph.modifyOp y o fun op => { op with block := none })
    (motive := fun y => T.Confined x y) h fun y hy o ho =>
      hy.detach (hlist o (List.mem_of_mem_filter ho))
  exact hgone.modifyBlock hb fun o ho => hlist o (List.mem_of_mem_filter ho)

theorem removeDead (hops : ∀ o ∈ ops, T.ops o.idx) {n : Nat} (hok : y.removeDead ops = .ok (z, n)) :
    T.Confined x z := by
  unfold Graph.removeDead at hok
  simp only [bind_eq_ok, pure_eq_ok, Prod.mk.injEq] at hok
  obtain ⟨s, hsweep, rfl, -⟩ := hok
  have hs := foldlM_keeps (s := { graph := y }) (P := fun s : Graph.Sweep =>
    T.Confined x s.graph ∧ ∀ b ∈ s.blocks, T.blocks b.idx) ⟨h, by simp⟩ (by
      rintro o ho s s' ⟨hgraph, hblocks⟩ hvisit
      have hmine := hops o (List.mem_reverse.1 ho)
      rcases s.visit_cases o with ⟨hsame, -⟩ | ⟨b, hb, -, -, hdead⟩
      · rw [hsame] at hvisit
        obtain rfl := Except.ok.inj hvisit
        exact ⟨hgraph, hblocks⟩
      · rw [hdead] at hvisit
        obtain ⟨y', hrecords, rfl⟩ := map_eq_ok.1 hvisit
        refine ⟨hgraph.removeUses (hgraph.op hmine).args hrecords, fun c hc => ?_⟩
        rcases mem_noted.1 hc with hc | rfl
        · exact hblocks c hc
        · exact (hgraph.op hmine).block c hb) hsweep
  exact List.foldlRecOn s.blocks _ (motive := fun y => T.Confined x y) hs.1 fun y hy b hb =>
    hy.dropOps (hs.2 b hb)

theorem attach (hb : T.blocks b.idx) (hops : ∀ o ∈ ops, T.ops o.idx)
    (hok : y.attach b ops = .ok z) : T.Confined x z := by
  refine foldlM_keeps (P := fun y => T.Confined x y) h (fun o ho y₁ y₂ hy hstep => ?_) hok
  unfold Graph.attachOp at hstep
  split at hstep
  · cases hstep
  · obtain rfl := Except.ok.inj hstep
    have hmine := hops o ho
    have hplaced := hy.modifyOp hmine (k := fun op => { op with block := some b })
      ⟨(hy.op hmine).args, fun c hc => Option.some.inj hc ▸ hb, (hy.op hmine).users⟩
    exact hplaced.addUses (hy.op hmine).args hmine

theorem insertAt (hb : T.blocks b.idx) (hops : ∀ o ∈ ops, T.ops o.idx) {i : Nat}
    (hok : y.insertAt b i ops = .ok z) : T.Confined x z := by
  unfold Graph.insertAt at hok
  rw [bind_eq_ok] at hok
  obtain ⟨y', hattach, hok⟩ := hok
  obtain rfl := pure_eq_ok.1 hok
  have hy' := h.attach hb hops hattach
  refine hy'.modifyBlock hb fun o ho => ?_
  simp only [List.mem_append] at ho
  rcases ho with (ho | ho) | ho
  · exact hy'.blocks.holds _ hb o (List.mem_of_mem_take ho)
  · exact hops o ho
  · exact hy'.blocks.holds _ hb o (List.mem_of_mem_drop ho)

theorem insertBefore (hb : T.blocks b.idx) (hops : ∀ o ∈ ops, T.ops o.idx) {ref : OpId}
    (hok : y.insertBefore b ref ops = .ok z) : T.Confined x z := by
  unfold Graph.insertBefore at hok
  rw [bind_eq_ok] at hok
  obtain ⟨i, -, hok⟩ := hok
  exact h.insertAt hb hops hok

theorem insertAfter (hb : T.blocks b.idx) (hops : ∀ o ∈ ops, T.ops o.idx) {ref : OpId}
    (hok : y.insertAfter b ref ops = .ok z) : T.Confined x z := by
  unfold Graph.insertAfter at hok
  rw [bind_eq_ok] at hok
  obtain ⟨i, -, hok⟩ := hok
  exact h.insertAt hb hops hok

theorem newOp {code : Opcode} {bits : Int} {args : List (Option Operand)}
    {targets : List (Option BlockId)} (hargs : ∀ v, some v ∈ args → T.Has v) :
    T.Confined x (y.newOp code bits args targets).1 :=
  { h with ops := h.ops.push ⟨hargs, by simp, by simp [UseSet.users, UseSet.empty]⟩ }

theorem newParam (name : Bytes) (bits : Int) (func : Option FuncId) :
    T.Confined x (y.newParam name bits func).1 :=
  { h with params := h.params.push (by simp [UseSet.users, UseSet.empty]) }

theorem addBlock {f : FuncId} (hf : T.funcs f.idx) (name : Bytes) :
    T.Confined x (y.addBlock f name).1 := by
  have hnew : T.Confined x (y.newBlock f name).1 := { h with blocks := h.blocks.push (by simp) }
  have hfn : T.ForFunc ((y.newBlock f name).1.func f) := hnew.funcs.holds _ hf
  refine hnew.modifyFunc hf ⟨hfn.params, fun b hb => ?_⟩
  rcases List.mem_append.1 hb with hb | hb
  · exact hfn.blocks b hb
  · rw [List.mem_singleton.1 hb]
    exact h.blocks.free _ (Nat.le_refl _)

theorem newFunc {fn : Func} (hfn : T.ForFunc fn) : T.Confined x (y.newFunc fn).1 :=
  { h with funcs := h.funcs.push hfn }

theorem newModule : T.Confined x y.newModule.1 :=
  { h with modules := h.modules.push (by simp) }

theorem addFunc {m : ModuleId} {f : FuncId} (hm : T.modules m.idx) (hf : T.funcs f.idx) :
    T.Confined x (y.addFunc m f) := by
  have hfn : T.ForFunc (y.func f) := h.funcs.holds _ hf
  have howned := h.modifyFunc hf (k := fun fn => { fn with owner := some m })
    ⟨hfn.params, hfn.blocks⟩
  have hparams := List.foldlRecOn (y.func f).params
    (fun y p => Graph.modifyParam y p fun pr => { pr with func := some f })
    (motive := fun y => T.Confined x y) howned fun y hy p hp =>
      hy.modifyParam (hfn.params p hp) (hy.params.holds _ (hfn.params p hp))
  unfold Graph.addFunc
  simp only [Graph.func_modifyFunc, if_true]
  refine hparams.modifyModule hm fun k hk => ?_
  rcases List.mem_append.1 hk with hk | hk
  · exact hparams.modules.holds _ hm k hk
  · rwa [List.mem_singleton.1 hk]

end Region.Confined
end Disguise
