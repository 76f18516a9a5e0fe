import Disguise.Graph.Edit

/-!
What each part of a graph is after a single write. Reading at one kind of number never sees a
write at another kind, and two writes to use sets alone leave everything else as it was.
-/
namespace Disguise

theorem OpId.idx_inj {a b : OpId} : a.idx = b.idx ↔ a = b := by
  cases a; cases b; simp

theorem ParamId.idx_inj {a b : ParamId} : a.idx = b.idx ↔ a = b := by
  cases a; cases b; simp

theorem BlockId.idx_inj {a b : BlockId} : a.idx = b.idx ↔ a = b := by
  cases a; cases b; simp

theorem FuncId.idx_inj {a b : FuncId} : a.idx = b.idx ↔ a = b := by
  cases a; cases b; simp

theorem ModuleId.idx_inj {a b : ModuleId} : a.idx = b.idx ↔ a = b := by
  cases a; cases b; simp

theorem Table.size_modify {α : Type} [Inhabited α] (t : Table α) (i : Nat) (f : α → α) :
    (t.modify i f).size = max t.size (i + 1) :=
  t.size_set i _

theorem Table.size_modify_of_lt {α : Type} [Inhabited α] {t : Table α} {i : Nat} (hi : i < t.size)
    (f : α → α) : (t.modify i f).size = t.size :=
  (t.size_modify i f).trans (Nat.max_eq_left hi)

/-- Tables of one size with the same entries are equal. -/
theorem Table.eq_of_get {α : Type} [Inhabited α] {s t : Table α} (hs : s.size = t.size)
    (h : ∀ i < s.size, s.get i = t.get i) : s = t := by
  obtain ⟨a⟩ := s
  obtain ⟨b⟩ := t
  simp only [Table.size, Table.get] at hs h
  congr 1
  apply Array.ext hs
  intro i hi hi'
  simpa [hi, hi'] using h i hi

theorem Table.lt_size_of_ne {α : Type} [Inhabited α] {t : Table α} {i : Nat}
    (h : t.get i ≠ default) : i < t.size :=
  Nat.lt_of_not_le fun hle => h (t.get_of_size_le hle)

theorem Table.set_get {α : Type} [Inhabited α] {t : Table α} {i : Nat} (hi : i < t.size) :
    t.set i (t.get i) = t := by
  apply Table.eq_of_get
  · rw [Table.size_set]
    exact Nat.max_eq_left hi
  · intro j _
    rw [Table.get_set]
    split
    · rename_i hj
      rw [hj]
    · rfl

theorem Table.set_set {α : Type} [Inhabited α] (t : Table α) (i : Nat) (a b : α) :
    (t.set i a).set i b = t.set i b := by
  apply Table.eq_of_get
  · simp only [Table.size_set]
    omega
  · intro j _
    simp only [Table.get_set]
    split <;> rfl

theorem Table.set_comm {α : Type} [Inhabited α] (t : Table α) {i j : Nat} (h : i ≠ j) (a b : α) :
    (t.set i a).set j b = (t.set j b).set i a := by
  apply Table.eq_of_get
  · simp only [Table.size_set]
    omega
  · intro k _
    simp only [Table.get_set]
    split
    · rename_i hk
      rw [if_neg (fun heq => h (heq.symm.trans hk))]
    · rfl

/-- A list without repetitions has each of its entries at one place. -/
theorem not_mem_of_nodup {α : Type} {l pre post : List α} {a : α} (hn : l.Nodup)
    (h : l = pre ++ a :: post) : a ∉ pre ∧ a ∉ post := by
  subst h
  obtain ⟨-, hpost, happart⟩ := List.nodup_append.1 hn
  exact ⟨fun hmem => happart a hmem a (by simp) rfl, (List.nodup_cons.1 hpost).1⟩

/-- What comes before an entry that a list has once. -/
theorem mem_of_pair_sublist {α : Type} {l pre post : List α} {a d : α} (hn : l.Nodup)
    (hl : l = pre ++ a :: post) (h : [d, a].Sublist l) : d ∈ pre := by
  subst hl
  obtain ⟨l₁, l₂, hsplit, h₁, h₂⟩ := List.sublist_append_iff.1 h
  have hpost : a ∉ post := (not_mem_of_nodup hn rfl).2
  cases l₁ with
  | nil =>
    simp only [List.nil_append] at hsplit
    subst hsplit
    exfalso
    cases h₂ with
    | cons _ h => exact hpost (h.subset (by simp))
    | cons_cons _ h => exact hpost (h.subset (by simp))
  | cons x l₁ =>
    simp only [List.cons_append, List.cons.injEq] at hsplit
    exact h₁.subset (by simp [hsplit.1])

/-- What a list has after an entry has been noted that it may have already. -/
theorem mem_noted {α : Type} [DecidableEq α] {l : List α} {a c : α} :
    c ∈ (if a ∈ l then l else l ++ [a]) ↔ c ∈ l ∨ c = a := by
  split
  · rename_i ha
    refine ⟨.inl, fun h => h.elim id ?_⟩
    rintro rfl
    exact ha
  · simp

theorem nodup_noted {α : Type} [DecidableEq α] {l : List α} (hn : l.Nodup) (a : α) :
    (if a ∈ l then l else l ++ [a]).Nodup := by
  split
  · exact hn
  · rename_i ha
    rw [List.nodup_append]
    refine ⟨hn, by simp, ?_⟩
    rintro c hc d hd rfl
    exact ha (List.mem_singleton.1 hd ▸ hc)

theorem idxOf?_append_self {α : Type} [DecidableEq α] {l r : List α} {a : α} (h : a ∉ l) :
    (l ++ a :: r).idxOf? a = some l.length := by
  induction l with
  | nil => simp [List.idxOf?_cons]
  | cons b l ih =>
    rw [List.mem_cons, not_or] at h
    simp [List.idxOf?_cons, ih h.2, Ne.symm h.1]

namespace Graph

theorem eq_of_tables {x y : Graph} (hops : x.ops = y.ops) (hparams : x.params = y.params)
    (hblocks : x.blocks = y.blocks) (hfuncs : x.funcs = y.funcs)
    (hmodules : x.modules = y.modules) :
    x = y := by
  cases x
  cases y
  simp_all

variable (g : Graph)

section Ops
variable (o : OpId) (h : Op → Op)

theorem op_modifyOp (u : OpId) :
    (g.modifyOp o h).op u = if u = o then h (g.op o) else g.op u := by
  simp [op, modifyOp, Table.get_modify, OpId.idx_inj]

@[simp] theorem param_modifyOp (p : ParamId) : (g.modifyOp o h).param p = g.param p := rfl
@[simp] theorem block_modifyOp (b : BlockId) : (g.modifyOp o h).block b = g.block b := rfl
@[simp] theorem func_modifyOp (f : FuncId) : (g.modifyOp o h).func f = g.func f := rfl
@[simp] theorem module_modifyOp (m : ModuleId) : (g.modifyOp o h).module m = g.module m := rfl

end Ops

section Params
variable (p : ParamId) (h : Param → Param)

theorem param_modifyParam (q : ParamId) :
    (g.modifyParam p h).param q = if q = p then h (g.param p) else g.param q := by
  simp [param, modifyParam, Table.get_modify, ParamId.idx_inj]

@[simp] theorem op_modifyParam (o : OpId) : (g.modifyParam p h).op o = g.op o := rfl
@[simp] theorem block_modifyParam (b : BlockId) : (g.modifyParam p h).block b = g.block b := rfl
@[simp] theorem func_modifyParam (f : FuncId) : (g.modifyParam p h).func f = g.func f := rfl
@[simp] theorem module_modifyParam (m : ModuleId) :
    (g.modifyParam p h).module m = g.module m := rfl

end Params

section Blocks
variable (b : BlockId) (h : Block → Block)

theorem block_modifyBlock (c : BlockId) :
    (g.modifyBlock b h).block c = if c = b then h (g.block b) else g.block c := by
  simp [block, modifyBlock, Table.get_modify, BlockId.idx_inj]

@[simp] theorem op_modifyBlock (o : OpId) : (g.modifyBlock b h).op o = g.op o := rfl
@[simp] theorem param_modifyBlock (p : ParamId) : (g.modifyBlock b h).param p = g.param p := rfl
@[simp] theorem func_modifyBlock (f : FuncId) : (g.modifyBlock b h).func f = g.func f := rfl
@[simp] theorem module_modifyBlock (m : ModuleId) :
    (g.modifyBlock b h).module m = g.module m := rfl

theorem modifyBlock_congr {h k : Block → Block} (heq : h (g.block b) = k (g.block b)) :
    g.modifyBlock b h = g.modifyBlock b k := by
  unfold block at heq
  simp only [modifyBlock, Table.modify, heq]

theorem modifyBlock_modifyBlock (k : Block → Block) :
    (g.modifyBlock b h).modifyBlock b k = g.modifyBlock b (k ∘ h) := by
  simp only [modifyBlock, Table.modify, Table.get_set, Table.set_set, if_true]
  rfl

theorem modifyBlock_comm {c : BlockId} (hne : b ≠ c) (k : Block → Block) :
    (g.modifyBlock b h).modifyBlock c k = (g.modifyBlock c k).modifyBlock b h := by
  have hidx : b.idx ≠ c.idx := fun heq => hne (BlockId.idx_inj.1 heq)
  simp only [modifyBlock, Table.modify, Table.get_set, if_neg hidx, if_neg hidx.symm,
    g.blocks.set_comm hidx]

/-- Writing a block as it is changes nothing. -/
theorem modifyBlock_self (hb : b.idx < g.blocks.size) (heq : h (g.block b) = g.block b) :
    g.modifyBlock b h = g := by
  unfold block at heq
  simp only [modifyBlock, Table.modify, heq, Table.set_get hb]

/-- A block that lists ops is there. -/
theorem lt_size_of_ops (hops : (g.block b).ops ≠ []) : b.idx < g.blocks.size := by
  apply Table.lt_size_of_ne
  intro heq
  apply hops
  rw [block, heq]
  rfl

/-- A block that belongs to a function is one of the graph. -/
theorem lt_size_of_owner {f : FuncId} (howner : (g.block b).owner = some f) :
    b.idx < g.blocks.size := by
  apply Table.lt_size_of_ne
  intro heq
  rw [block, heq] at howner
  cases howner

end Blocks

section Funcs
variable (f : FuncId) (h : Func → Func)

theorem func_modifyFunc (k : FuncId) :
    (g.modifyFunc f h).func k = if k = f then h (g.func f) else g.func k := by
  simp [func, modifyFunc, Table.get_modify, FuncId.idx_inj]

/-- Writing a function as it is changes nothing. -/
theorem modifyFunc_self (hf : f.idx < g.funcs.size) (heq : h (g.func f) = g.func f) :
    g.modifyFunc f h = g := by
  unfold func at heq
  simp only [modifyFunc, Table.modify, heq, Table.set_get hf]

@[simp] theorem op_modifyFunc (o : OpId) : (g.modifyFunc f h).op o = g.op o := rfl
@[simp] theorem param_modifyFunc (p : ParamId) : (g.modifyFunc f h).param p = g.param p := rfl
@[simp] theorem block_modifyFunc (b : BlockId) : (g.modifyFunc f h).block b = g.block b := rfl
@[simp] theorem module_modifyFunc (m : ModuleId) :
    (g.modifyFunc f h).module m = g.module m := rfl

end Funcs

section Modules
variable (m : ModuleId) (h : Module → Module)

theorem module_modifyModule (k : ModuleId) :
    (g.modifyModule m h).module k = if k = m then h (g.module m) else g.module k := by
  simp [module, modifyModule, Table.get_modify, ModuleId.idx_inj]

@[simp] theorem op_modifyModule (o : OpId) : (g.modifyModule m h).op o = g.op o := rfl
@[simp] theorem param_modifyModule (p : ParamId) : (g.modifyModule m h).param p = g.param p := rfl
@[simp] theorem block_modifyModule (b : BlockId) : (g.modifyModule m h).block b = g.block b := rfl
@[simp] theorem func_modifyModule (f : FuncId) : (g.modifyModule m h).func f = g.func f := rfl

end Modules

section New

theorem op_newOp (code : Opcode) (bits : Int) (args : List (Option Operand))
    (targets : List (Option BlockId)) (u : OpId) :
    (g.newOp code bits args targets).1.op u =
      if u = ⟨g.ops.size⟩ then { code, bits, args, targets } else g.op u := by
  obtain ⟨i⟩ := u
  simp [op, newOp, Table.get_push]

end New

/-- The place of an op is the number of ops before it. -/
theorem placeIn_eq {g : Graph} {b : BlockId} {o : OpId} {pre post : List OpId}
    (hblock : (g.op o).block = some b) (hsplit : (g.block b).ops = pre ++ o :: post)
    (hnot : o ∉ pre) : g.placeIn b o = .ok pre.length := by
  have hplace : (g.block b).ops.idxOf? o = some pre.length := by
    rw [hsplit]
    exact idxOf?_append_self hnot
  simp only [placeIn, position, hblock, hplace, ne_eq, not_true_eq_false, if_false]
  rfl

/-- An op that is in use has a code, so its number is below the size of the table. -/
theorem lt_size_of_code {g : Graph} {o : OpId} (h : (g.op o).code ≠ .invalid) :
    o.idx < g.ops.size := by
  rcases Nat.lt_or_ge o.idx g.ops.size with hlt | hge
  · exact hlt
  · exact absurd (by rw [op, g.ops.get_of_size_le hge]; rfl) h

/-- So has an op that is attached. -/
theorem lt_size_of_block {g : Graph} {o : OpId} {b : BlockId} (h : (g.op o).block = some b) :
    o.idx < g.ops.size := by
  apply Table.lt_size_of_ne
  intro heq
  rw [op, heq] at h
  cases h

end Graph
end Disguise
