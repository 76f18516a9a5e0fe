import Disguise.Proofs.WellFormed

/-!
What the edits of a graph do to operand slots and use sets. An edit that changes the slots of placed
ops changes the records by as much, so records that were exact stay exact; nothing but the edited
ops and the values they refer to is written.
-/
namespace Disguise
open Results

/-- A value that keeps a record of its users. -/
def Operand.Tracked : Operand → Prop
  | .const _ => False
  | _ => True

theorem Operand.Tracked.ne_const {v : Operand} (h : v.Tracked) (c : Const) : v ≠ .const c := by
  rintro rfl
  exact h

/-- The values of a function are no constants. -/
theorem Graph.IsValue.tracked {g : Graph} {f : FuncId} {v : Operand} (h : g.IsValue f v) :
    v.Tracked := by
  cases v with
  | const c => exact h.elim
  | param p => trivial
  | result d => trivial

/-- An op without the record of its users. -/
def Op.bare (op : Op) : Op := { op with uses := .empty }

def Param.bare (p : Param) : Param := { p with uses := .empty }

/-- Ops that differ in their block and their users hold the same apart from them. -/
theorem Op.same_of_moved {α : Type} {k : Op → α}
    (hk : ∀ (op : Op) block, k { op.bare with block } = k op) {op op' : Op} {block : Option BlockId}
    (h : op'.bare = { op.bare with block }) : k op' = k op :=
  calc k op' = k op'.bare := (hk op' op'.block).symm
    _ = k { op.bare with block } := by rw [h]
    _ = k op := hk op block

theorem Op.eq_of_bare {op op' : Op} (h : op.bare = op'.bare)
    (hu : ∀ u, op.uses.count u = op'.uses.count u) : op = op' := by
  have huses := UseSet.eq_of_count hu
  cases op
  cases op'
  simp only [bare, Op.mk.injEq] at h
  simp_all

theorem Param.eq_of_bare {p p' : Param} (h : p.bare = p'.bare)
    (hu : ∀ u, p.uses.count u = p'.uses.count u) : p = p' := by
  have huses := UseSet.eq_of_count hu
  cases p
  cases p'
  simp only [bare, Param.mk.injEq] at h
  simp_all

namespace Graph

theorem size_modifyOp (g : Graph) (o : OpId) (f : Op → Op) :
    g.ops.size ≤ (g.modifyOp o f).ops.size := by
  rw [modifyOp, Table.size_modify]
  exact Nat.le_max_left _ _

/-- Two graphs that differ in use sets only. -/
structure SameShape (g g' : Graph) : Prop where
  size : g.ops.size ≤ g'.ops.size
  op : ∀ u, (g'.op u).bare = (g.op u).bare
  param : ∀ p, (g'.param p).bare = (g.param p).bare
  blocks : g'.blocks = g.blocks
  funcs : g'.funcs = g.funcs
  modules : g'.modules = g.modules

namespace SameShape

theorem refl (g : Graph) : SameShape g g :=
  ⟨Nat.le_refl _, fun _ => rfl, fun _ => rfl, rfl, rfl, rfl⟩

theorem trans {g g' g'' : Graph} (h : SameShape g g') (h' : SameShape g' g'') :
    SameShape g g'' where
  size := Nat.le_trans h.size h'.size
  op u := (h'.op u).trans (h.op u)
  param p := (h'.param p).trans (h.param p)
  blocks := h'.blocks.trans h.blocks
  funcs := h'.funcs.trans h.funcs
  modules := h'.modules.trans h.modules

variable {g g' : Graph} (h : SameShape g g')
include h

theorem args (u : OpId) : (g'.op u).args = (g.op u).args := by
  change (g'.op u).bare.args = (g.op u).bare.args
  rw [h.op]

theorem block (u : OpId) : (g'.op u).block = (g.op u).block := by
  change (g'.op u).bare.block = (g.op u).bare.block
  rw [h.op]

end SameShape

theorem slots_congr {g g' : Graph} {u : OpId} (h : (g'.op u).args = (g.op u).args) (v : Operand) :
    g'.slots u v = g.slots u v := by
  rw [slots, slots, h]

/-- Nothing that keeps the use set of an op touches a record. -/
theorem recorded_modifyOp {g : Graph} {o : OpId} {k : Op → Op} (hk : ∀ op, (k op).uses = op.uses)
    (v : Operand) (u : OpId) : (g.modifyOp o k).recorded v u = g.recorded v u := by
  cases v with
  | const c => rfl
  | param p => rfl
  | result d =>
    rw [recorded, recorded, op_modifyOp]
    split
    · rename_i hd
      rw [hd, hk]
    · rfl

/-- What becomes of a use set is the record of its own value. -/
theorem recorded_modifyOp_uses (g : Graph) (o : OpId) (k : UseSet → UseSet) (v : Operand)
    (u : OpId) : (g.modifyOp o fun op => { op with uses := k op.uses }).recorded v u =
      if v = .result o then (k (g.op o).uses).count u else g.recorded v u := by
  cases v with
  | const c => rfl
  | param p => rfl
  | result d =>
    simp only [recorded, op_modifyOp, Operand.result.injEq]
    split <;> rfl

theorem recorded_modifyParam_uses (g : Graph) (p : ParamId) (k : UseSet → UseSet) (v : Operand)
    (u : OpId) : (g.modifyParam p fun pr => { pr with uses := k pr.uses }).recorded v u =
      if v = .param p then (k (g.param p).uses).count u else g.recorded v u := by
  cases v with
  | const c => rfl
  | result o => rfl
  | param q =>
    simp only [recorded, param_modifyParam, Operand.param.injEq]
    split <;> rfl

theorem sameShape_modifyOp_uses (g : Graph) (o : OpId) (k : UseSet → UseSet) :
    SameShape g (g.modifyOp o fun op => { op with uses := k op.uses }) := by
  refine ⟨size_modifyOp g _ _, fun u => ?_, fun _ => rfl, rfl, rfl, rfl⟩
  rw [op_modifyOp]
  split
  · rename_i hu
    rw [hu]
    rfl
  · rfl

theorem sameShape_modifyParam_uses (g : Graph) (p : ParamId) (k : UseSet → UseSet) :
    SameShape g (g.modifyParam p fun pr => { pr with uses := k pr.uses }) := by
  refine ⟨Nat.le_refl _, fun _ => rfl, fun q => ?_, rfl, rfl, rfl⟩
  rw [param_modifyParam]
  split
  · rename_i hq
    rw [hq]
    rfl
  · rfl

/-- An operand that is no result and no param keeps no record. -/
theorem ne_some_of_untracked {w : Option Operand} {v : Operand}
    (hop : ∀ o, w = some (.result o) → False) (hparam : ∀ p, w = some (.param p) → False)
    (hv : v.Tracked) : w ≠ some v := by
  rintro rfl
  cases v with
  | const c => exact hv
  | param p => exact hparam p rfl
  | result o => exact hop o rfl

theorem sameShape_addUse (g : Graph) (w : Option Operand) (user : OpId) :
    SameShape g (g.addUse w user) := by
  unfold addUse
  split
  · exact sameShape_modifyOp_uses g _ (·.add user)
  · exact sameShape_modifyParam_uses g _ (·.add user)
  · exact .refl g

theorem recorded_addUse (g : Graph) (w : Option Operand) (user : OpId) {v : Operand}
    (hv : v.Tracked) (u : OpId) : (g.addUse w user).recorded v u =
      g.recorded v u + if w = some v ∧ u = user then 1 else 0 := by
  unfold addUse
  split
  · rename_i o
    rw [recorded_modifyOp_uses g o (·.add user)]
    by_cases ho : v = .result o
    · subst ho
      simp [recorded, UseSet.count_add]
    · simp [ho, Ne.symm ho]
  · rename_i p
    rw [recorded_modifyParam_uses g p (·.add user)]
    by_cases hp : v = .param p
    · subst hp
      simp [recorded, UseSet.count_add]
    · simp [hp, Ne.symm hp]
  · rename_i hop hparam
    simp [ne_some_of_untracked hop hparam hv]

/-- A record that is there can be withdrawn. -/
theorem removeUse_eq_ok {g : Graph} {w : Option Operand} {user : OpId}
    (h : ∀ v, w = some v → v.Tracked → 0 < g.recorded v user) :
    ∃ g', g.removeUse w user = .ok g' ∧ SameShape g g' ∧ ∀ v, v.Tracked → ∀ u,
      g.recorded v u = g'.recorded v u + if w = some v ∧ u = user then 1 else 0 := by
  have hcount : ∀ {s : UseSet} (u : OpId), 0 < s.count user →
      s.count u = (s.remove user).count u + if u = user then 1 else 0 := by
    intro s u hpos
    rw [UseSet.count_remove]
    split
    · subst u
      omega
    · rfl
  unfold removeUse
  split
  · rename_i o
    have hpos : 0 < (g.op o).uses.count user := h (.result o) rfl trivial
    rw [if_neg (Nat.ne_of_gt hpos)]
    refine ⟨_, rfl, sameShape_modifyOp_uses g o (·.remove user), fun v _ u => ?_⟩
    rw [recorded_modifyOp_uses g o (·.remove user)]
    by_cases ho : v = .result o
    · subst ho
      simpa [recorded] using hcount u hpos
    · simp [ho, Ne.symm ho]
  · rename_i p
    have hpos : 0 < (g.param p).uses.count user := h (.param p) rfl trivial
    rw [if_neg (Nat.ne_of_gt hpos)]
    refine ⟨_, rfl, sameShape_modifyParam_uses g p (·.remove user), fun v _ u => ?_⟩
    rw [recorded_modifyParam_uses g p (·.remove user)]
    by_cases hp : v = .param p
    · subst hp
      simpa [recorded] using hcount u hpos
    · simp [hp, Ne.symm hp]
  · rename_i hop hparam
    refine ⟨g, rfl, .refl g, fun v hv u => ?_⟩
    simp [ne_some_of_untracked hop hparam hv]

theorem addUses_spec (g : Graph) (args : List (Option Operand)) (user : OpId) :
    SameShape g (g.addUses args user) ∧ ∀ v, v.Tracked → ∀ u,
      (g.addUses args user).recorded v u =
        g.recorded v u + if u = user then args.count (some v) else 0 := by
  induction args generalizing g with
  | nil => exact ⟨.refl g, fun v _ u => by simp [addUses]⟩
  | cons w args ih =>
    obtain ⟨hshape, hrec⟩ := ih (g.addUse w user)
    refine ⟨(sameShape_addUse g w user).trans hshape, fun v hv u => ?_⟩
    change ((g.addUse w user).addUses args user).recorded v u = _
    rw [hrec v hv u, recorded_addUse g w user hv u]
    by_cases hu : u = user
    · by_cases hw : w = some v
      · simp [hu, hw]
        omega
      · simp [hu, hw]
    · simp [hu]

theorem removeUses_eq_ok {g : Graph} {args : List (Option Operand)} {user : OpId}
    (h : ∀ v, v.Tracked → args.count (some v) ≤ g.recorded v user) :
    ∃ g', g.removeUses args user = .ok g' ∧ SameShape g g' ∧ ∀ v, v.Tracked → ∀ u,
      g.recorded v u = g'.recorded v u + if u = user then args.count (some v) else 0 := by
  induction args generalizing g with
  | nil => exact ⟨g, rfl, .refl g, fun v _ u => by simp⟩
  | cons w args ih =>
    obtain ⟨g₁, h₁, hshape₁, hrec₁⟩ := @removeUse_eq_ok g w user (by
      rintro v rfl hv
      have := h v hv
      simp only [List.count_cons_self] at this
      omega)
    obtain ⟨g₂, h₂, hshape₂, hrec₂⟩ := @ih g₁ (by
      intro v hv
      have hcount := h v hv
      have hrec := hrec₁ v hv user
      rw [List.count_cons] at hcount
      by_cases hw : w = some v
      · simp [hw] at hcount hrec
        omega
      · simp [hw] at hcount hrec
        omega)
    refine ⟨g₂, ?_, hshape₁.trans hshape₂, fun v hv u => ?_⟩
    · simp only [removeUses, List.foldlM_cons, h₁]
      exact h₂
    · rw [hrec₁ v hv u, hrec₂ v hv u]
      by_cases hu : u = user
      · by_cases hw : w = some v
        · simp [hu, hw]
          omega
        · simp [hu, hw]
      · simp [hu]

/-- Some ops belong to block `b` and are users of their operands. The block does not list them
yet. -/
structure Enlisted (g g' : Graph) (b : BlockId) (ops : List OpId) : Prop where
  size : g.ops.size ≤ g'.ops.size
  op : ∀ u, (g'.op u).bare =
    if u ∈ ops then { (g.op u).bare with block := some b } else (g.op u).bare
  param : ∀ p, (g'.param p).bare = (g.param p).bare
  blocks : g'.blocks = g.blocks
  funcs : g'.funcs = g.funcs
  modules : g'.modules = g.modules
  records : ∀ v, v.Tracked → ∀ u,
    g'.recorded v u = g.recorded v u + if u ∈ ops then g.slots u v else 0

namespace Enlisted

theorem nil (g : Graph) (b : BlockId) : Enlisted g g b [] :=
  ⟨Nat.le_refl _, by simp, fun _ => rfl, rfl, rfl, rfl, by simp⟩

theorem single (g : Graph) (b : BlockId) (o : OpId) : Enlisted g (g.enlist b o) b [o] := by
  obtain ⟨hshape, hrec⟩ := addUses_spec (g.modifyOp o fun op => { op with block := some b })
    (g.op o).args o
  constructor
  case size => exact Nat.le_trans (size_modifyOp g o _) hshape.size
  case param => exact hshape.param
  case blocks => exact hshape.blocks
  case funcs => exact hshape.funcs
  case modules => exact hshape.modules
  case op =>
    intro u
    rw [enlist, hshape.op u, op_modifyOp]
    by_cases hu : u = o
    · subst hu
      simp [Op.bare]
    · simp [hu]
  case records =>
    intro v hv u
    rw [enlist, hrec v hv u, recorded_modifyOp (by simp)]
    by_cases hu : u = o
    · simp [hu, slots]
    · simp [hu]

variable {g g' : Graph} {b : BlockId} {ops : List OpId} (h : Enlisted g g' b ops)
include h

/-- What an op holds, its block and its users apart. -/
theorem same {α : Type} (k : Op → α) (hk : ∀ (op : Op) block, k { op.bare with block } = k op)
    (u : OpId) : k (g'.op u) = k (g.op u) := by
  have hop := h.op u
  split at hop
  · exact Op.same_of_moved hk hop
  · exact Op.same_of_moved hk hop

theorem args (u : OpId) : (g'.op u).args = (g.op u).args :=
  h.same Op.args (fun _ _ => rfl) u

theorem owner (u : OpId) : (g'.op u).block = if u ∈ ops then some b else (g.op u).block := by
  change (g'.op u).bare.block = _
  rw [h.op u]
  split <;> rfl

theorem block (c : BlockId) : g'.block c = g.block c := by
  rw [Graph.block, Graph.block, h.blocks]

theorem slots (u : OpId) (v : Operand) : g'.slots u v = g.slots u v :=
  slots_congr (h.args u) v

theorem append {g'' : Graph} {ops' : List OpId} (h' : Enlisted g' g'' b ops')
    (hapart : ∀ o ∈ ops, o ∉ ops') : Enlisted g g'' b (ops ++ ops') where
  size := Nat.le_trans h.size h'.size
  op u := by
    rw [h'.op u, h.op u]
    by_cases hu : u ∈ ops
    · simp [hu, hapart u hu]
    · simp [hu]
  param p := (h'.param p).trans (h.param p)
  blocks := h'.blocks.trans h.blocks
  funcs := h'.funcs.trans h.funcs
  modules := h'.modules.trans h.modules
  records v hv u := by
    rw [h'.records v hv u, h.records v hv u, h.slots]
    by_cases hu : u ∈ ops
    · simp [hu, hapart u hu]
    · simp [hu]

end Enlisted

/-- Ops that are not placed yet can be attached to a block, each once. -/
theorem attach_eq_ok {g : Graph} {b : BlockId} {ops : List OpId} (hn : ops.Nodup)
    (hfree : ∀ o ∈ ops, (g.op o).block = none) :
    ∃ g', g.attach b ops = .ok g' ∧ Enlisted g g' b ops := by
  induction ops generalizing g with
  | nil => exact ⟨g, rfl, .nil g b⟩
  | cons o ops ih =>
    obtain ⟨ho, hn⟩ := List.nodup_cons.1 hn
    have hfirst := Enlisted.single g b o
    obtain ⟨g', hrest, h'⟩ := @ih (g.enlist b o) hn (by
      intro q hq
      have hne : q ≠ o := fun heq => ho (heq ▸ hq)
      rw [hfirst.owner q, if_neg (by simpa using hne)]
      exact hfree q (by simp [hq]))
    refine ⟨g', ?_, hfirst.append h' (by simpa using ho)⟩
    have hattach : g.attachOp b o = .ok (g.enlist b o) := by
      simp [attachOp, hfree o (by simp)]
    simp only [attach, List.foldlM_cons, hattach]
    exact hrest

/-- The ops of a graph get the operands that `args` says, and the records follow. -/
structure Retuned (g g' : Graph) (args : OpId → List (Option Operand)) : Prop where
  size : g.ops.size ≤ g'.ops.size
  op : ∀ u, (g'.op u).bare = { (g.op u).bare with args := args u }
  param : ∀ p, (g'.param p).bare = (g.param p).bare
  blocks : g'.blocks = g.blocks
  funcs : g'.funcs = g.funcs
  modules : g'.modules = g.modules
  balance : ∀ v, v.Tracked → ∀ u,
    g'.recorded v u + g.slots u v = g.recorded v u + (args u).count (some v)

namespace Retuned

theorem refl (g : Graph) : Retuned g g fun u => (g.op u).args :=
  ⟨Nat.le_refl _, fun _ => rfl, fun _ => rfl, rfl, rfl, rfl, fun _ _ _ => rfl⟩

variable {g g' : Graph} {args : OpId → List (Option Operand)} (h : Retuned g g' args)
include h

theorem args_eq (u : OpId) : (g'.op u).args = args u := by
  change (g'.op u).bare.args = args u
  rw [h.op]

theorem trans {g'' : Graph} {args' : OpId → List (Option Operand)} (h' : Retuned g' g'' args') :
    Retuned g g'' args' where
  size := Nat.le_trans h.size h'.size
  op u := by rw [h'.op u, h.op u]
  param p := (h'.param p).trans (h.param p)
  blocks := h'.blocks.trans h.blocks
  funcs := h'.funcs.trans h.funcs
  modules := h'.modules.trans h.modules
  balance v hv u := by
    have h₁ := h.balance v hv u
    have h₂ := h'.balance v hv u
    rw [slots, h.args_eq] at h₂
    omega

end Retuned

/-- An operand of a placed op can be replaced if it is on record. -/
theorem setArg_eq_ok {g : Graph} {o : OpId} {i : Nat} {old : Option Operand} (v : Option Operand)
    (hold : (g.op o).args[i]? = some old) (hb : (g.op o).block.isSome)
    (hrec : ∀ w, old = some w → w.Tracked → 0 < g.recorded w o) :
    ∃ g', g.setArg o i v = .ok g' ∧
      Retuned g g' fun u => if u = o then (g.op o).args.set i v else (g.op u).args := by
  obtain ⟨g₁, h₁, hshape₁, hrec₁⟩ := removeUse_eq_ok hrec
  have hshape := hshape₁.trans (sameShape_addUse g₁ v o)
  refine ⟨(g₁.addUse v o).modifyOp o fun op => { op with args := op.args.set i v }, ?_, ?_⟩
  · simp only [setArg, hold, hb, if_true, h₁]
    rfl
  constructor
  case size => exact Nat.le_trans hshape.size (size_modifyOp _ _ _)
  case param => exact hshape.param
  case blocks => exact hshape.blocks
  case funcs => exact hshape.funcs
  case modules => exact hshape.modules
  case op =>
    intro u
    rw [op_modifyOp]
    split
    · rename_i hu
      subst hu
      have hop := hshape.op u
      have hargs := hshape.args u
      simp only [Op.bare, Op.mk.injEq] at hop ⊢
      simp [hargs, hop]
    · exact hshape.op u
  case balance =>
    intro w hw u
    rw [recorded_modifyOp (by simp), recorded_addUse g₁ v o hw u, hrec₁ w hw u]
    by_cases hu : u = o
    · subst hu
      obtain ⟨hi, hget⟩ := List.getElem?_eq_some_iff.1 hold
      have hcount := List.count_set (a := v) (b := some w) hi
      have hpos : (if (g.op u).args[i] == some w then 1 else 0) ≤ (g.op u).args.count (some w) := by
        split
        · rename_i heq
          exact List.count_pos_iff.2 (by rw [← eq_of_beq heq]; exact List.getElem_mem hi)
        · omega
      simp only [and_true, if_true, slots, hcount, hget, beq_iff_eq] at hpos ⊢
      omega
    · simp [hu, slots]

/-- A slot that holds the result of `o` is turned to `v`. -/
def turn (o : OpId) (v : Option Operand) (a : Option Operand) : Option Operand :=
  if a = some (.result o) then v else a

theorem map_turn_of_count {o : OpId} {v : Option Operand} {args : List (Option Operand)}
    (h : args.count (some (.result o)) = 0) : args.map (turn o v) = args := by
  refine (List.map_congr_left fun a ha => ?_).trans (List.map_id args)
  have hne : a ≠ some (.result o) := fun heq => List.count_eq_zero.1 h (heq ▸ ha)
  simp [turn, hne]

section
variable {α : Type} {f : α → α} {l : List α} {i : Nat} (hi : i < l.length)
include hi

/-- A list whose first `i` entries have been mapped still has its old entry at `i`. -/
theorem getElem?_mapped : ((l.take i).map f ++ l.drop i)[i]? = some l[i] := by
  have hlen : ((l.take i).map f).length = i := by
    simp
    omega
  rw [List.getElem?_append_right (by omega), hlen, Nat.sub_self, List.drop_eq_getElem_cons hi]
  rfl

theorem set_mapped : ((l.take i).map f ++ l.drop i).set i (f l[i]) =
    (l.take (i + 1)).map f ++ l.drop (i + 1) := by
  have hlen : ((l.take i).map f).length = i := by
    simp
    omega
  rw [List.set_append_right _ _ (by omega), hlen, Nat.sub_self, List.drop_eq_getElem_cons hi,
    List.set_cons_zero, ← List.take_append_getElem hi, List.map_append, List.append_assoc]
  rfl

end

theorem redirectFrom_succ (o : OpId) (v : Option Operand) (user : OpId) (n i : Nat) (g : Graph) :
    redirectFrom o v user (n + 1) i g =
      (if (g.op user).args[i]? = some (some (.result o)) then g.setArg user i v else .ok g) >>=
        redirectFrom o v user n (i + 1) := by
  rw [redirectFrom]
  split <;> rfl

/-- The operands of the ops after the first `i` slots of `user` have been turned. -/
def turnedTo (g : Graph) (o : OpId) (v : Option Operand) (user : OpId) (i : Nat) (u : OpId) :
    List (Option Operand) :=
  if u = user then ((g.op user).args.take i).map (turn o v) ++ (g.op user).args.drop i
  else (g.op u).args

section
variable {g : Graph} {o user : OpId} {v : Option Operand} {i : Nat}

theorem turnedTo_zero : g.turnedTo o v user 0 = fun u => (g.op u).args := by
  funext u
  by_cases hu : u = user <;> simp [turnedTo, hu]

theorem turnedTo_length : g.turnedTo o v user (g.op user).args.length = fun u =>
    if u = user then (g.op user).args.map (turn o v) else (g.op u).args := by
  funext u
  by_cases hu : u = user <;> simp [turnedTo, hu]

theorem turnedTo_succ (hi : i < (g.op user).args.length) : g.turnedTo o v user (i + 1) = fun u =>
    if u = user then (g.turnedTo o v user i user).set i (turn o v (g.op user).args[i])
    else g.turnedTo o v user i u := by
  funext u
  by_cases hu : u = user
  · rw [if_pos hu, turnedTo, if_pos hu, turnedTo, if_pos rfl, set_mapped hi]
  · rw [if_neg hu, turnedTo, if_neg hu, turnedTo, if_neg hu]

theorem getElem?_turnedTo (hi : i < (g.op user).args.length) :
    (g.turnedTo o v user i user)[i]? = some (g.op user).args[i] := by
  rw [turnedTo, if_pos rfl, getElem?_mapped hi]

variable (hb : (g.op user).block.isSome)
  (hrec : g.recorded (.result o) user = g.slots user (.result o))
include hb hrec

/-- The next slot is turned if it holds the op, which is on record for it then. -/
theorem redirectFrom_step {g₁ : Graph} (hi : i < (g.op user).args.length)
    (h : Retuned g g₁ (g.turnedTo o v user i)) :
    ∃ g₂, (if (g₁.op user).args[i]? = some (some (.result o)) then g₁.setArg user i v
        else .ok g₁) = .ok g₂ ∧ Retuned g g₂ (g.turnedTo o v user (i + 1)) := by
  have hget : (g₁.op user).args[i]? = some (g.op user).args[i] := by
    rw [h.args_eq, getElem?_turnedTo hi]
  rw [turnedTo_succ hi]
  by_cases hslot : (g.op user).args[i] = some (.result o)
  · have hpos : 0 < g₁.recorded (.result o) user := by
      have hbal := h.balance (.result o) trivial user
      rw [← h.args_eq] at hbal
      have : 0 < (g₁.op user).args.count (some (.result o)) :=
        List.count_pos_iff.2 (List.mem_of_getElem? (hget.trans (by rw [hslot])))
      omega
    have hb₁ : (g₁.op user).block.isSome := by
      change ((g₁.op user).bare.block).isSome
      rw [h.op]
      exact hb
    obtain ⟨g₂, hset, hre⟩ := setArg_eq_ok v hget hb₁ (by
      rintro w hw -
      rw [hslot] at hw
      cases hw
      exact hpos)
    refine ⟨g₂, by rw [if_pos (hget.trans (by rw [hslot])), hset], ?_⟩
    refine cast (congrArg _ (funext fun u => ?_)) (h.trans hre)
    rw [turn, if_pos hslot, h.args_eq, h.args_eq]
  · refine ⟨g₁, by rw [if_neg (by rw [hget]; exact fun heq => hslot (Option.some.inj heq))], ?_⟩
    refine cast (congrArg _ (funext fun u => ?_)) h
    split
    · rename_i hu
      obtain ⟨hlt, hsame⟩ := List.getElem?_eq_some_iff.1 (getElem?_turnedTo (o := o) (v := v) hi)
      rw [turn, if_neg hslot, hu, ← hsame, List.set_getElem_self]
    · rfl

theorem redirectFrom_eq_ok (n : Nat) {g₁ : Graph} (hlen : i + n = (g.op user).args.length)
    (h : Retuned g g₁ (g.turnedTo o v user i)) :
    ∃ g', redirectFrom o v user n i g₁ = .ok g' ∧ Retuned g g' fun u =>
      if u = user then (g.op user).args.map (turn o v) else (g.op u).args := by
  induction n generalizing i g₁ with
  | zero =>
    obtain rfl : i = (g.op user).args.length := by omega
    exact ⟨g₁, rfl, turnedTo_length ▸ h⟩
  | succ n ih =>
    obtain ⟨g₂, hslot, h₂⟩ := redirectFrom_step hb hrec (by omega) h
    obtain ⟨g', hrest, h'⟩ := ih (by omega) h₂
    exact ⟨g', by rw [redirectFrom_succ, hslot]; exact hrest, h'⟩

theorem redirect_eq_ok : ∃ g', g.redirect o v user = .ok g' ∧ Retuned g g' fun u =>
    if u = user then (g.op user).args.map (turn o v) else (g.op u).args :=
  redirectFrom_eq_ok hb hrec _ (by simp) (turnedTo_zero ▸ Retuned.refl g)

end

/-- Different users are turned one after the other when their slots are on record. -/
theorem redirects_eq_ok {g : Graph} {o : OpId} (v : Option Operand) {users : List OpId}
    (hn : users.Nodup) (huser : ∀ u ∈ users, (g.op u).block.isSome ∧
      g.recorded (.result o) u = g.slots u (.result o)) :
    ∃ g', users.foldlM (fun g user => g.redirect o v user) g = .ok g' ∧ Retuned g g' fun u =>
      if u ∈ users then (g.op u).args.map (turn o v) else (g.op u).args := by
  refine foldlM_done (P := fun done g₁ => Retuned g g₁ fun u =>
    if u ∈ done then (g.op u).args.map (turn o v) else (g.op u).args) ?_ ?_
  · simpa using Retuned.refl g
  · rintro done user rest g₁ hsplit h₁
    have hnot : user ∉ done := (not_mem_of_nodup hn hsplit).1
    obtain ⟨hb, hexact⟩ := huser user (by simp [hsplit])
    have hargs : (g₁.op user).args = (g.op user).args := by
      rw [h₁.args_eq, if_neg hnot]
    have hbal := h₁.balance (.result o) trivial user
    rw [if_neg hnot] at hbal
    have hb₁ : (g₁.op user).block.isSome := by
      change ((g₁.op user).bare.block).isSome
      rw [h₁.op]
      exact hb
    have hexact₁ : g₁.recorded (.result o) user = g₁.slots user (.result o) := by
      simp only [slots, hargs] at hbal hexact ⊢
      omega
    obtain ⟨g₂, h₂, hre⟩ := redirect_eq_ok (v := v) hb₁ hexact₁
    refine ⟨g₂, h₂, cast (congrArg _ (funext fun u => ?_)) (h₁.trans hre)⟩
    by_cases hu : u = user
    · subst hu
      simp [hargs]
    · rw [if_neg hu, h₁.args_eq]
      simp [hu]

/-- If the slots of some attached ops are on record and no others, all of them follow when the users
are turned, in whatever order. -/
theorem redirects_of_recorded {g : Graph} {o : OpId} (v : Option Operand) {placed : OpId → Prop}
    [DecidablePred placed] (hb : ∀ u, placed u → (g.op u).block.isSome)
    (hrec : ∀ u, g.recorded (.result o) u = if placed u then g.slots u (.result o) else 0)
    {order : List OpId} (hperm : order.Perm (g.op o).uses.users) :
    ∃ g', order.foldlM (fun g user => g.redirect o v user) g = .ok g' ∧ Retuned g g' fun u =>
      if placed u then (g.op u).args.map (turn o v) else (g.op u).args := by
  have huser : ∀ u ∈ order, placed u ∧ g.recorded (.result o) u = g.slots u (.result o) := by
    intro u hu
    have hpos : 0 < g.recorded (.result o) u := UseSet.mem_users.1 (hperm.subset hu)
    have hu := hrec u
    split at hu
    · exact ⟨‹_›, hu⟩
    · omega
  obtain ⟨g', hok, hre⟩ := redirects_eq_ok v (hperm.symm.nodup (g.op o).uses.nodup_users)
    fun u hu => ⟨hb u (huser u hu).1, (huser u hu).2⟩
  refine ⟨g', hok, cast (congrArg _ (funext fun u => ?_)) hre⟩
  by_cases hu : u ∈ order
  · rw [if_pos hu, if_pos (huser u hu).1]
  · rw [if_neg hu]
    split
    · -- an op that is no user has no slot to be turned
      have hzero : g.recorded (.result o) u = 0 :=
        Nat.eq_zero_of_not_pos fun hpos => hu (hperm.symm.subset (UseSet.mem_users.2 hpos))
      rw [hrec u, if_pos ‹_›] at hzero
      exact (map_turn_of_count hzero).symm
    · rfl

/-- All slots that hold the result of an op can be turned when they are on record. -/
theorem replaceAllUses_eq_ok {g : Graph} {o : OpId} {v : Option Operand} {placed : List OpId}
    (hv : v ≠ some (.result o)) (hb : ∀ u ∈ placed, (g.op u).block.isSome)
    (hrec : ∀ u, g.recorded (.result o) u = if u ∈ placed then g.slots u (.result o) else 0) :
    ∃ g', g.replaceAllUses o v = .ok g' ∧ Retuned g g' fun u =>
      if u ∈ placed then (g.op u).args.map (turn o v) else (g.op u).args := by
  obtain ⟨g', hok, hre⟩ := redirects_of_recorded v hb hrec (.refl _)
  exact ⟨g', by rw [replaceAllUses, if_neg hv, hok], hre⟩

/-- What a sweep does at an op: nothing, or the op is dead and its uses are withdrawn. -/
theorem Sweep.visit_cases (s : Sweep) (o : OpId) :
    (s.visit o = .ok s ∧ ((s.graph.op o).block = none ∨ o ∈ s.removed ∨
      (s.graph.op o).uses.size ≠ 0)) ∨
    ∃ b, (s.graph.op o).block = some b ∧ o ∉ s.removed ∧ (s.graph.op o).uses.size = 0 ∧
      s.visit o = (s.graph.removeUses (s.graph.op o).args o).map fun g =>
        ⟨g, o :: s.removed, if b ∈ s.blocks then s.blocks else s.blocks ++ [b]⟩ := by
  unfold Sweep.visit
  cases hb : (s.graph.op o).block with
  | none => exact .inl ⟨by simp only [hb], .inl rfl⟩
  | some b =>
    simp only [hb]
    by_cases hskip : o ∈ s.removed ∨ (s.graph.op o).uses.size ≠ 0
    · rw [if_pos (by simpa using hskip)]
      exact .inl ⟨rfl, .inr hskip⟩
    · rw [if_neg (by simpa using hskip)]
      rw [not_or, Decidable.not_not] at hskip
      exact .inr ⟨b, rfl, hskip.1, hskip.2, rfl⟩

end Graph
end Disguise
