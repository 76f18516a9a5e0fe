import Disguise.Proofs.Building
import Disguise.Proofs.Cloning

/-!
What a draft becomes in a graph. All its parts are new: params, blocks and ops stand one after the
other behind those that are there, and each block lists the ops that follow those of the blocks
before it.
-/
namespace Disguise
open Results

namespace Table
variable {α : Type} [Inhabited α] (t : Table α) (l : List α)

theorem extends_pushAll : t.Extends (t.pushAll l) :=
  List.foldlRecOn l Table.push (motive := fun t' => t.Extends t') (.refl t)
    fun _ h a _ => h.push a

theorem get_pushAll (i : Nat) : (t.pushAll l).get (t.size + i) = l[i]?.getD default := by
  induction l generalizing t i with
  | nil => exact t.get_of_size_le (Nat.le_add_right _ _)
  | cons a l ih =>
    rw [pushAll, List.foldl_cons, ← pushAll]
    cases i with
    | zero =>
      have hlt : t.size < (t.push a).size := by
        rw [size_push]
        exact Nat.lt_succ_self _
      rw [Nat.add_zero, ((t.push a).extends_pushAll l).get _ hlt, get_push, if_pos rfl]
      rfl
    | succ i =>
      have hsize : t.size + (i + 1) = (t.push a).size + i := by
        rw [size_push]
        omega
      rw [hsize, ih]
      rfl

end Table

namespace Graph
variable {g : Graph}

/-- What filling a block changes. -/
theorem Filled.fill_parts {blocks ops : Nat} (h : g.Filled blocks ops) (count : Nat) :
    let new := opsFrom ops count
    let g' := (new.foldl (fun g o => g.enlist ⟨blocks⟩ o) g).modifyBlock ⟨blocks⟩ fun bl =>
      { bl with ops := new }
    g.insertAt ⟨blocks⟩ 0 new = .ok g' ∧
      (∀ u, (g'.op u).bare = { (g.op u).bare with block := (g'.op u).block }) ∧
      (∀ p, (g'.param p).bare = (g.param p).bare) ∧ g'.funcs = g.funcs ∧
      ∀ b, g'.block b = if b = ⟨blocks⟩ then { g.block b with ops := new } else g.block b := by
  intro new g'
  have hloose := h.loose count
  obtain ⟨g₁, hok, hen⟩ := attach_eq_ok (b := ⟨blocks⟩) hloose.nodup hloose.detached
  have hfold : g' = g₁.modifyBlock ⟨blocks⟩ fun bl => { bl with ops := new } :=
    congrArg (·.modifyBlock ⟨blocks⟩ fun bl => { bl with ops := new }) (foldl_enlist hok)
  refine ⟨?_, fun u => ?_, fun p => ?_, ?_, fun b => ?_⟩
  · rw [hfold, insertAt, hok, ok_bind]
    refine congrArg Except.ok (modifyBlock_congr _ _ ?_)
    have hempty : (g₁.block ⟨blocks⟩).ops = [] := by rw [hen.block, h.empty _ (Nat.le_refl _)]
    simp [hempty, new]
  · rw [hfold, op_modifyBlock, hen.owner u, hen.op u]
    split <;> rfl
  · rw [hfold, param_modifyBlock, hen.param]
  · rw [hfold]
    exact hen.funcs
  · rw [hfold, block_modifyBlock]
    split
    · rename_i hb
      rw [hen.block, hb]
    · exact hen.block b

end Graph

namespace Syntax
open Disguise.Graph

namespace Draft
variable {d : Draft} {x : Graph} {m : ModuleId}

theorem link_resolves {op : DraftOp} {v : Operand} (h : some v ∈ (d.link x op).args) :
    x.Outside v := by
  obtain ⟨a, -, ha⟩ := List.mem_map.1 h
  cases a with
  | const c =>
    obtain rfl := Option.some.inj ha
    trivial
  | named name =>
    obtain ⟨origin, -, rfl⟩ := Option.map_eq_some_iff.1 ha
    cases origin with
    | param i => exact Nat.le_add_right _ _
    | op i => exact Nat.le_add_right _ _

/-- The parts of a function stand behind those that were there. -/
theorem copying_laid : Copying x ⟨x.funcs.size⟩ (d.laid x m) {} where
  extended := ⟨x.ops.extends_pushAll _, x.params.extends_pushAll _, x.blocks.extends_pushAll _,
    (Table.Extends.refl _).push _, .refl _⟩
  copy := Nat.le_refl _
  head p hp := by
    have hfunc : (d.laid x m).func ⟨x.funcs.size⟩ = d.head x m := by
      simp [Graph.func, laid, Table.get_push]
    rw [hfunc] at hp
    obtain ⟨i, -, rfl⟩ := List.mem_map.1 hp
    exact Nat.le_add_right _ _
  args o ho v hv := by
    obtain ⟨i, hi⟩ := Nat.exists_eq_add_of_le ho
    have hop : (d.laid x m).op o = (d.ops.map (d.link x))[i]?.getD default := by
      rw [Graph.op, hi]
      exact x.ops.get_pushAll _ i
    rw [hop, List.getElem?_map] at hv
    cases hget : d.ops[i]? with
    | none =>
      rw [hget] at hv
      cases hv
    | some op =>
      rw [hget] at hv
      exact link_resolves hv
  params := by simp
  blocks := by simp
  ops := by simp

/-- Some blocks of a function have their ops. -/
structure Filling (x : Graph) (m : ModuleId) (d : Draft) (done : List (Bytes × List DraftOp))
    (s : Graph × Nat × Nat) : Prop where
  filled : s.1.Filled s.2.1 s.2.2
  copying : Copying x ⟨x.funcs.size⟩ s.1 {}
  nextBlock : s.2.1 = x.blocks.size + done.length
  nextOp : s.2.2 = x.ops.size + (done.flatMap (·.2)).length
  funcs : s.1.funcs = (d.laid x m).funcs
  param : ∀ p, (s.1.param p).bare = ((d.laid x m).param p).bare
  block : ∀ b, s.1.block b = { (d.laid x m).block b with ops := (s.1.block b).ops }
  op : ∀ u, (s.1.op u).bare = { ((d.laid x m).op u).bare with block := (s.1.op u).block }
  listed : ∀ pre b post, done = pre ++ b :: post →
    (s.1.block ⟨x.blocks.size + pre.length⟩).ops =
      opsFrom (x.ops.size + (pre.flatMap (·.2)).length) b.2.length

theorem Filling.next {done : List (Bytes × List DraftOp)} {s : Graph × Nat × Nat}
    (h : Filling x m d done s) (b : Bytes × List DraftOp) :
    Filling x m d (done ++ [b]) (fillNext s b) := by
  obtain ⟨g, bi, oi⟩ := s
  obtain ⟨hok, hop, hparam, hfuncs, hblock⟩ := h.filled.fill_parts b.2.length
  have hbi := h.nextBlock
  have hoi := h.nextOp
  dsimp only at hok hop hparam hfuncs hblock hbi hoi
  constructor
  case filled => exact h.filled.fill b.2.length
  case funcs => exact hfuncs.trans h.funcs
  case param => exact fun p => (hparam p).trans (h.param p)
  case copying =>
    refine h.copying.insertAt ?_ (fun o ho => ?_) hok
    · rw [hbi]
      exact Nat.le_add_right _ _
    · have := (mem_opsFrom ho).1
      omega
  case nextBlock =>
    rw [List.length_append, List.length_singleton, ← Nat.add_assoc, ← hbi]
    rfl
  case nextOp =>
    rw [List.flatMap_append, List.length_append, ← Nat.add_assoc, ← hoi]
    simp [fillNext]
  case block =>
    intro c
    have hold := h.block c
    have hnew : (fillNext (g, bi, oi) b).1.block c = _ := hblock c
    rw [hnew]
    split
    · rw [hold]
    · exact hold
  case op =>
    intro u
    have hnew : ((fillNext (g, bi, oi) b).1.op u).bare = _ := hop u
    have hold := h.op u
    rw [hnew, hold]
    rfl
  case listed =>
    intro pre c post hsplit
    have hnew : ∀ e, (fillNext (g, bi, oi) b).1.block e = _ := hblock
    rw [hnew]
    rcases List.eq_nil_or_concat post with rfl | ⟨post', last, rfl⟩
    · obtain ⟨rfl, hlast⟩ := List.append_inj' hsplit rfl
      obtain rfl : b = c := by simpa using hlast
      rw [if_pos (congrArg BlockId.mk hbi.symm), hoi]
    · rw [List.concat_eq_append, ← List.cons_append, ← List.append_assoc] at hsplit
      obtain ⟨hdone, -⟩ := List.append_inj' hsplit rfl
      have hne : (⟨x.blocks.size + pre.length⟩ : BlockId) ≠ ⟨bi⟩ := by
        intro heq
        have hidx := BlockId.idx_inj.2 heq
        rw [hdone] at hbi
        simp only [List.length_append, List.length_cons] at hidx hbi
        omega
      rw [if_neg hne]
      exact h.listed pre c post' hdone

/-- What is in the graph when a function has been built, and where. -/
structure Built (x : Graph) (m : ModuleId) (d : Draft) (y : Graph) (k : FuncId) : Prop where
  apart : Copying x k y {}
  exact : y.Exact fun _ => []
  func : y.func k = d.head x m
  param : ∀ i p, d.header.params[i]? = some p →
    (y.param ⟨x.params.size + i⟩).bare = { func := some k, name := p.1, bits := p.2 }
  block : ∀ pre b post, d.body = pre ++ b :: post →
    y.block ⟨x.blocks.size + pre.length⟩ =
      ⟨k, b.1, opsFrom (x.ops.size + (pre.flatMap (·.2)).length) b.2.length⟩
  op : ∀ i op, d.ops[i]? = some op →
    { (y.op ⟨x.ops.size + i⟩).bare with block := none } = d.link x op
  home : ∀ u b, x.ops.size ≤ u.idx → (y.op u).block = some b → b ∈ (y.func k).blocks

theorem built (d : Draft) (m : ModuleId) (h : x.Exact fun _ => []) :
    Built x m d (d.build x m).1 (d.build x m).2 := by
  have hfill : Filling x m d d.body
      (d.body.foldl fillNext (d.laid x m, x.blocks.size, x.ops.size)) := by
    refine foldl_done (P := Filling x m d) ?_ fun done b rest s _ hs => hs.next b
    exact ⟨filled_laid d m h, copying_laid, rfl, rfl, rfl, fun _ => rfl, fun _ => rfl,
      fun _ => rfl, by simp⟩
  rw [build_eq]
  generalize d.body.foldl fillNext (d.laid x m, x.blocks.size, x.ops.size) = s at hfill
  obtain ⟨y, bi, oi⟩ := s
  have hfunc : y.func ⟨x.funcs.size⟩ = d.head x m := by
    have hfuncs : y.funcs = (d.laid x m).funcs := hfill.funcs
    rw [Graph.func, hfuncs]
    simp [laid, Table.get_push]
  constructor
  case apart => exact hfill.copying
  case exact => exact hfill.filled.exact
  case func => exact hfunc
  case param =>
    intro i p hp
    refine (hfill.param _).trans ?_
    have hget : (d.laid x m).param ⟨x.params.size + i⟩ = _ := x.params.get_pushAll _ i
    rw [hget, List.getElem?_map, hp]
    rfl
  case block =>
    intro pre b post hsplit
    refine (hfill.block _).trans ?_
    have hget : (d.laid x m).block ⟨x.blocks.size + pre.length⟩ = _ :=
      x.blocks.get_pushAll _ pre.length
    rw [hget, hfill.listed pre b post hsplit, List.getElem?_map, hsplit,
      List.getElem?_append_right (Nat.le_refl _), Nat.sub_self]
    rfl
  case op =>
    intro i op hop
    have hget : (d.laid x m).op ⟨x.ops.size + i⟩ = _ := x.ops.get_pushAll _ i
    have hbare := hfill.op ⟨x.ops.size + i⟩
    dsimp only at hbare
    rw [hbare, hget, List.getElem?_map, hop]
    rfl
  case home =>
    intro u b hu hb
    rw [hfunc]
    have hmem := (hfill.filled.exact.block_iff.1 hb).resolve_right (by simp)
    have hlt : b.idx < bi := by
      by_contra hge
      rw [hfill.filled.empty b (Nat.le_of_not_lt hge)] at hmem
      cases hmem
    have hge : x.blocks.size ≤ b.idx := by
      by_contra hlt
      -- an old block lists old ops only
      have hold : y.block b = x.block b :=
        hfill.copying.extended.blocks.get b.idx (Nat.lt_of_not_le hlt)
      rw [hold] at hmem
      exact absurd (h.lt_size hmem) (Nat.not_lt.2 hu)
    obtain ⟨i, hi⟩ := Nat.exists_eq_add_of_le hge
    have hbi := hfill.nextBlock
    dsimp only at hbi
    exact List.mem_map.2 ⟨i, List.mem_range.2 (by omega), (congrArg BlockId.mk hi).symm⟩

end Draft
end Syntax
end Disguise
