import Disguise.Proofs.Cloning
import Disguise.Proofs.Confining
import Disguise.Proofs.Preservation
import Disguise.Text.Printable

/-!
What copies are good for. A copy of a module is accepted like the module, and its functions have the
text, the use counts and the runs of the functions that they were made from. The two live side by
side: work on one of them does not show in the other.
-/
namespace Disguise
open Execution Disguise.Graph

/-- The use set of a value. -/
def Graph.record (g : Graph) : Operand → UseSet
  | .const _ => .empty
  | .param p => (g.param p).uses
  | .result o => (g.op o).uses

theorem Graph.recorded_eq (g : Graph) (v : Operand) (u : OpId) :
    g.recorded v u = (g.record v).count u := by
  cases v <;> rfl

theorem Graph.WellFormed.mem_of_recorded {g : Graph} {f : FuncId} (wf : g.WellFormed f)
    {v : Operand} (hv : g.IsValue f v) {u : OpId} (hu : 0 < g.recorded v u) : u ∈ g.opsOf f := by
  rw [wf.uses v hv u] at hu
  split at hu
  · assumption
  · omega

theorem UseSet.size_eq (s : UseSet) : s.size = s.users.length := by
  simp [size, users]

namespace Relabeling.Carries
variable {ρ : Relabeling} {g g' : Graph} {f f' : FuncId} (h : ρ.Carries g g' f f')
include h

theorem isValue {v : Operand} (hv : g.IsValue f v) : g'.IsValue f' (ρ.operand v) := by
  cases v with
  | const c => exact hv
  | param p =>
    rw [operand, IsValue, h.params]
    exact List.mem_map_of_mem hv
  | result o =>
    rw [operand, IsValue, h.opsOf]
    exact List.mem_map_of_mem hv

theorem operand_inj {v w : Operand} (hv : g.IsValue f v) (hw : (∃ c, w = .const c) ∨ g.IsValue f w)
    (heq : ρ.operand w = ρ.operand v) : w = v := by
  rcases hw with ⟨c, rfl⟩ | hw
  · cases v with
    | const d => exact hv.elim
    | param p => cases heq
    | result o => cases heq
  · cases v with
    | const d => exact hv.elim
    | param p =>
      cases w with
      | param q => rw [h.paramInj q hw p hv (Operand.param.inj heq)]
      | const c => exact hw.elim
      | result u => cases heq
    | result o =>
      cases w with
      | result u => rw [h.opInj u hw o hv (Operand.result.inj heq)]
      | const c => exact hw.elim
      | param q => cases heq

variable (wf : g.WellFormed f) (wf' : g'.WellFormed f')
include wf wf'

/-- An op uses a value as often as it does under the new numbers. -/
theorem recorded {v : Operand} (hv : g.IsValue f v) {u : OpId} (hu : u ∈ g.opsOf f) :
    g'.recorded (ρ.operand v) (ρ.op u) = g.recorded v u := by
  have hu' : ρ.op u ∈ g'.opsOf f' := by
    rw [h.opsOf]
    exact List.mem_map_of_mem hu
  rw [wf'.uses _ (h.isValue hv), if_pos hu', wf.uses v hv, if_pos hu, slots, slots, h.args u hu,
    List.count_eq_countP, List.count_eq_countP, List.countP_map]
  refine List.countP_congr fun a ha => ?_
  obtain ⟨w, bits, rfl, -, -⟩ := wf.exists_operandOk hu ha
  have hinj := h.operand_inj hv (wf.isValue_of_arg hu ha)
  simp only [Function.comp_apply, Option.map_some, beq_iff_eq, Option.some.injEq]
  exact ⟨hinj, congrArg ρ.operand⟩

theorem users_perm {v : Operand} (hv : g.IsValue f v) :
    (g'.record (ρ.operand v)).users.Perm ((g.record v).users.map ρ.op) := by
  have hmem : ∀ u ∈ (g.record v).users, u ∈ g.opsOf f := by
    intro u hu
    rw [UseSet.mem_users, ← recorded_eq] at hu
    exact wf.mem_of_recorded hv hu
  have hv' := h.isValue hv
  refine (List.perm_ext_iff_of_nodup (UseSet.nodup_users _) ?_).2 fun w => ?_
  · exact (UseSet.nodup_users _).map_on fun u hu d hd => h.opInj u (hmem u hu) d (hmem d hd)
  · rw [UseSet.mem_users, ← recorded_eq, List.mem_map]
    constructor
    · intro hw
      have hw' := wf'.mem_of_recorded hv' hw
      rw [h.opsOf] at hw'
      obtain ⟨u, hu, rfl⟩ := List.mem_map.1 hw'
      rw [h.recorded wf wf' hv hu, recorded_eq, ← UseSet.mem_users] at hw
      exact ⟨u, hw, rfl⟩
    · rintro ⟨u, hu, rfl⟩
      rw [h.recorded wf wf' hv (hmem u hu), recorded_eq, ← UseSet.mem_users]
      exact hu

end Relabeling.Carries

/-- Runs do not see the numbers, with a limit or without one. The fuel of a run without a limit
depends on the whole graph, so the relabeled function has to be in one that is as large. -/
theorem Relabeling.Carries.run_eq [FloatUnit] {ρ : Relabeling} {g g' : Graph} {f f' : FuncId}
    (h : ρ.Carries g g' f f') (wf : g.WellFormed f) (ht : g.TargetsListed f)
    (hsize : g.blocks.size ≤ g'.blocks.size) (args : List UInt64) (limit : Int) :
    g'.run f' args limit = g.run f args limit := by
  rcases Int.lt_or_le 0 limit with hpos | hle
  · exact h.run wf ht args hpos
  cases hd : (g.func f).isDeclaration with
  | true =>
    have hblocks : (g.func f).blocks = [] := by simpa [Func.isDeclaration] using hd
    simp [Graph.run, h.blocks, hblocks, h.name]
  | false =>
    by_cases hargs : args.length = (g.func f).params.length
    · obtain ⟨entry, env, hentry, hbind, hops, hp, -⟩ := exists_start wf hd hargs
      obtain ⟨rest, hblocks⟩ := List.head?_eq_some_iff.1 hentry
      have halike : ρ.Aligned g f {} {} := by constructor <;> intros <;> rfl
      obtain ⟨env', hbind', ha⟩ := h.bindParams (fun _ hp => hp) args halike hbind
      have hblocks' : (g'.func f').blocks = ρ.block entry :: rest.map ρ.block := by
        rw [h.blocks, hblocks, List.map_cons]
      have hargs' : args.length = (g'.func f').params.length := by
        rw [h.params, List.length_map, hargs]
      rw [← h.params] at hbind'
      rw [run_of_entry hblocks hargs hbind hle, run_of_entry hblocks' hargs' hbind' hle,
        h.runBlocks wf ht _ (by simp [hblocks]) ha none]
      exact runBlocks_eq_of_long wf ht hp (sound_enter wf hentry hops none) (Nat.lt_succ_self _)
        (Nat.succ_le_succ hsize)
    · have hargs' : args.length ≠ (g'.func f').params.length := by
        rwa [h.params, List.length_map]
      cases hblocks : (g.func f).blocks with
      | nil => simp [Func.isDeclaration, hblocks] at hd
      | cons entry rest => simp [Graph.run, h.blocks, hblocks, hargs, h.params, h.name]

namespace Graph
variable {g x y : Graph} {m c : ModuleId} {f k : FuncId}

/-- Function `k` of `x` has the parts, the use counts and the runs of function `f` of `g`. -/
structure Twin [FloatUnit] (g x : Graph) (f k : FuncId) : Prop where
  parts : ∃ ρ : Relabeling, ρ.Maps g x f k ∧ ∀ v, g.IsValue f v →
    (x.record (ρ.operand v)).size = (g.record v).size ∧
      ∀ u ∈ g.opsOf f, (x.record (ρ.operand v)).count (ρ.op u) = (g.record v).count u
  runs : ∀ args limit, x.run k args limit = g.run f args limit

theorem Copied.twin [FloatUnit] (h : g.Copied x f k) (ht : g.TargetsListed f)
    (hsize : g.blocks.size ≤ x.blocks.size) : g.Twin x f k := by
  obtain ⟨ρ, hmaps⟩ := h.maps
  have hcarries := hmaps.toCarries
  refine ⟨⟨ρ, hmaps, fun v hv => ⟨?_, fun u hu => ?_⟩⟩, hcarries.run_eq h.source ht hsize⟩
  · rw [UseSet.size_eq, (hcarries.users_perm h.source h.wellFormed hv).length_eq, List.length_map,
      UseSet.size_eq]
  · rw [← recorded_eq, hcarries.recorded h.source h.wellFormed hv hu, recorded_eq]

/-- Module `m` is in `g'` what it is in `g`, down to its use sets. -/
structure Unchanged [FloatUnit] [Unicode] (g g' : Graph) (m : ModuleId) : Prop where
  module : g'.module m = g.module m
  funcs : ∀ f ∈ (g.module m).funcs, g'.func f = g.func f ∧ g'.opsOf f = g.opsOf f
  text : Syntax.printModule g' m = Syntax.printModule g m
  uses : ∀ f ∈ (g.module m).funcs, ∀ v, g.IsValue f v → g'.record v = g.record v
  runs : ∀ f ∈ (g.module m).funcs, ∀ args limit, g'.run f args limit = g.run f args limit

theorem Unchanged.trans [FloatUnit] [Unicode] (h : g.Unchanged x m) (h' : x.Unchanged y m) :
    g.Unchanged y m := by
  have hfuncs : (x.module m).funcs = (g.module m).funcs := by rw [h.module]
  have hvalue : ∀ f ∈ (g.module m).funcs, ∀ v, g.IsValue f v → x.IsValue f v := by
    intro f hf v hv
    obtain ⟨hfunc, hops⟩ := h.funcs f hf
    cases v with
    | const c => exact hv
    | param p => rwa [IsValue, hfunc]
    | result o => rwa [IsValue, hops]
  refine ⟨h'.module.trans h.module, fun f hf => ?_, h'.text.trans h.text, fun f hf v hv => ?_,
    fun f hf args limit => ?_⟩ <;> have hf' := hfuncs ▸ hf
  · obtain ⟨hfunc, hops⟩ := h.funcs f hf
    obtain ⟨hfunc', hops'⟩ := h'.funcs f hf'
    exact ⟨hfunc'.trans hfunc, hops'.trans hops⟩
  · exact (h'.uses f hf' v (hvalue f hf v hv)).trans (h.uses f hf v hv)
  · exact (h'.runs f hf' args limit).trans (h.runs f hf args limit)

theorem unchanged_of_agree [FloatUnit] [Unicode] (wf : x.ModuleWellFormed m)
    (ht : ∀ f ∈ (x.module m).funcs, x.TargetsListed f) (hm : y.module m = x.module m)
    (ha : ∀ f ∈ (x.module m).funcs, Agree x y f)
    (hfunc : ∀ f ∈ (x.module m).funcs, y.func f = x.func f)
    (hsize : x.blocks.size ≤ y.blocks.size) : x.Unchanged y m := by
  have hmaps : ∀ f ∈ (x.module m).funcs, Relabeling.same.Maps x y f f :=
    fun f hf => (ha f hf).maps (wf.funcs f hf) (hfunc f hf)
  have hprint : ∀ f ∈ (x.module m).funcs, Syntax.Printable x f :=
    fun f hf => Syntax.printable_of_wellFormed (wf.funcs f hf)
  refine ⟨hm, fun f hf => ⟨hfunc f hf, (ha f hf).opsOf⟩, ?_, ?_, ?_⟩
  · rw [Syntax.printModule_eq hprint]
    refine Syntax.printModule_forall₂ hprint ht ?_
    rw [hm, List.forall₂_same]
    exact fun f hf => ⟨_, hmaps f hf⟩
  · intro f hf v hv
    cases v with
    | const c => rfl
    | param p => rw [record, record, (ha f hf).param p hv]
    | result o => rw [record, record, (ha f hf).op o hv]
  · exact fun f hf => (hmaps f hf).toCarries.run_eq (wf.funcs f hf) (ht f hf) hsize

theorem Extends.unchanged [FloatUnit] [Unicode] (h : g.Extends x) (wf : g.ModuleWellFormed m)
    (ht : ∀ f ∈ (g.module m).funcs, g.TargetsListed f) (hm : m.idx < g.modules.size) :
    g.Unchanged x m :=
  unchanged_of_agree wf ht (h.modules.get m.idx hm) (wf.agree h)
    (fun f hf => h.funcs.get f.idx (wf.lt_size hf)) h.blocks.size

/-- What belongs to a module: its parts, and all that will be created. -/
def territory (x : Graph) (m : ModuleId) : Region where
  ops i := (∃ f ∈ (x.module m).funcs, ⟨i⟩ ∈ x.opsOf f) ∨ x.ops.size ≤ i
  params i := (∃ f ∈ (x.module m).funcs, ⟨i⟩ ∈ (x.func f).params) ∨ x.params.size ≤ i
  blocks i := (∃ f ∈ (x.module m).funcs, ⟨i⟩ ∈ (x.func f).blocks) ∨ x.blocks.size ≤ i
  funcs i := ⟨i⟩ ∈ (x.module m).funcs ∨ x.funcs.size ≤ i
  modules i := ⟨i⟩ = m ∨ x.modules.size ≤ i

/-- The ops and params of a well-formed module are used by its own ops only. -/
theorem WellFormed.users_mine {f : FuncId} (wf : x.WellFormed f)
    (hf : f ∈ (x.module m).funcs) {v : Operand} (hv : x.IsValue f v) :
    ∀ u ∈ (x.record v).users, (x.territory m).ops u.idx := by
  intro u hu
  rw [UseSet.mem_users, ← recorded_eq] at hu
  exact .inl ⟨f, hf, wf.mem_of_recorded hv hu⟩

theorem WellFormed.forOp {f : FuncId} (wf : x.WellFormed f) (hf : f ∈ (x.module m).funcs) {o : OpId}
    (ho : o ∈ x.opsOf f) : (x.territory m).ForOp (x.op o) where
  args v hv := by
    rcases wf.isValue_of_arg ho hv with ⟨c, rfl⟩ | hv
    · trivial
    · cases v with
      | const c => trivial
      | param p => exact .inl ⟨f, hf, hv⟩
      | result d => exact .inl ⟨f, hf, hv⟩
  block b hb := by
    obtain ⟨c, hc, hoc⟩ := mem_opsOf.1 ho
    rw [wf.opOwner c hc o hoc] at hb
    exact .inl ⟨f, hf, Option.some.inj hb ▸ hc⟩
  users := wf.users_mine (v := .result o) hf ho

/-- A well-formed module can be worked on in its territory. -/
theorem ModuleWellFormed.confined (wf : x.ModuleWellFormed m) : (x.territory m).Confined x x where
  ops := by
    refine ⟨fun i hi => ?_, fun i hi => .inr hi, fun _ _ => rfl, Nat.le_refl _⟩
    rcases hi with ⟨f, hf, ho⟩ | hfree
    · exact (wf.funcs f hf).forOp hf ho
    · rw [x.ops.get_of_size_le hfree]
      exact ⟨nofun, nofun, nofun⟩
  params := by
    refine ⟨fun i hi => ?_, fun i hi => .inr hi, fun _ _ => rfl, Nat.le_refl _⟩
    rcases hi with ⟨f, hf, hp⟩ | hfree
    · exact (wf.funcs f hf).users_mine (v := .param ⟨i⟩) hf hp
    · rw [x.params.get_of_size_le hfree]
      exact nofun
  blocks := by
    refine ⟨fun i hi => ?_, fun i hi => .inr hi, fun _ _ => rfl, Nat.le_refl _⟩
    rcases hi with ⟨f, hf, hb⟩ | hfree
    · exact fun o ho => .inl ⟨f, hf, mem_opsOf.2 ⟨_, hb, ho⟩⟩
    · rw [x.blocks.get_of_size_le hfree]
      exact nofun
  funcs := by
    refine ⟨fun i hi => ?_, fun i hi => .inr hi, fun _ _ => rfl, Nat.le_refl _⟩
    rcases hi with hf | hfree
    · exact ⟨fun p hp => .inl ⟨_, hf, hp⟩, fun b hb => .inl ⟨_, hf, hb⟩⟩
    · rw [x.funcs.get_of_size_le hfree]
      exact ⟨nofun, nofun⟩
  modules := by
    refine ⟨fun i hi => ?_, fun i hi => .inr hi, fun _ _ => rfl, Nat.le_refl _⟩
    rcases hi with rfl | hfree
    · exact fun f hf => .inl hf
    · rw [x.modules.get_of_size_le hfree]
      exact nofun

/-- Two modules that share no part. -/
structure Separate (x : Graph) (m c : ModuleId) : Prop where
  module : c ≠ m
  func : ∀ f ∈ (x.module m).funcs, ∀ k ∈ (x.module c).funcs, k ≠ f
  apart : ∀ f ∈ (x.module m).funcs, ∀ k ∈ (x.module c).funcs, x.Apart f k

theorem Apart.symm (h : x.Apart f k) : x.Apart k f :=
  ⟨fun p hp hk => h.params p hk hp, fun b hb hk => h.blocks b hk hb, fun o ho hk => h.ops o hk ho⟩

theorem Separate.symm (h : x.Separate m c) : x.Separate c m :=
  ⟨h.module.symm, fun k hk f hf => (h.func f hf k hk).symm,
    fun k hk f hf => (h.apart f hf k hk).symm⟩

/-- What is done in the territory of one module does not show in another one. -/
theorem Separate.unchanged [FloatUnit] [Unicode] (h : x.Separate m c)
    (hy : (x.territory m).Confined x y)
    (wf : x.ModuleWellFormed c) (ht : ∀ k ∈ (x.module c).funcs, x.TargetsListed k)
    (hc : c.idx < x.modules.size) : x.Unchanged y c := by
  have hblock : ∀ k ∈ (x.module c).funcs, ∀ b ∈ (x.func k).blocks, y.block b = x.block b := by
    intro k hk b hb
    apply hy.blocks.same
    rintro (⟨f, hf, hmem⟩ | hfree)
    · exact (h.apart f hf k hk).blocks b hb hmem
    · exact Nat.not_lt.2 hfree ((wf.funcs k hk).block_lt_size hb)
  have hfunc : ∀ k ∈ (x.module c).funcs, y.func k = x.func k := by
    intro k hk
    apply hy.funcs.same
    rintro (hmem | hfree)
    · exact h.func k hmem k hk rfl
    · exact Nat.not_lt.2 hfree (wf.lt_size hk)
  refine unchanged_of_agree wf ht ?_ (fun k hk => ?_) hfunc hy.blocks.size
  · apply hy.modules.same
    rintro (heq | hfree)
    · exact h.module heq
    · exact Nat.not_lt.2 hfree hc
  · constructor
    case retBits => rw [hfunc k hk]
    case params => rw [hfunc k hk]
    case blocks => rw [hfunc k hk]
    case block => exact hblock k hk
    case param =>
      intro p hp
      apply hy.params.same
      rintro (⟨f, hf, hmem⟩ | hfree)
      · exact (h.apart f hf k hk).params p hp hmem
      · exact Nat.not_lt.2 hfree ((wf.funcs k hk).param_lt_size hp)
    case owner =>
      intro b hb howner
      have hlisted : b ∈ (x.func k).blocks := by
        rcases hb with hb | ⟨o, ho, htarget⟩
        · exact hb
        · exact ht k hk o ho b htarget
      rw [hblock k hk b hlisted, howner]
    case op =>
      intro o ho
      apply hy.ops.same
      rintro (⟨f, hf, hmem⟩ | hfree)
      · exact (h.apart f hf k hk).ops o ho hmem
      · exact Nat.not_lt.2 hfree ((wf.funcs k hk).lt_size ho)

namespace Collected
variable (h : g.Collected c (g.module m).funcs x)
include h

theorem moduleWellFormed (wf : g.ModuleWellFormed m) : x.ModuleWellFormed c where
  owner := h.owner
  names := by
    rw [map_of_forall₂ (p := fun f => (g.func f).name) h.copies fun f k hk => ?_]
    · exact wf.names
    · obtain ⟨ρ, hmaps⟩ := hk.maps
      exact hmaps.name
  funcs := forall_of_forall₂ h.copies fun _ _ hk => hk.wellFormed

theorem listed : ∀ k ∈ (x.module c).funcs, x.TargetsListed k :=
  forall_of_forall₂ h.copies fun _ _ hk => hk.listed

/-- The copies are new, so they have nothing in common with the module. -/
theorem separate (wf : g.ModuleWellFormed m) (ht : ∀ f ∈ (g.module m).funcs, g.TargetsListed f)
    (hm : m.idx < g.modules.size) : x.Separate m c := by
  have hmodule : x.module m = g.module m := h.extended.modules.get m.idx hm
  have hbeyond : ∀ k ∈ (x.module c).funcs, g.Beyond x k :=
    forall_of_forall₂ h.copies fun _ _ hk => hk.beyond
  refine ⟨?_, ?_, ?_⟩
  · rintro rfl
    exact Nat.not_lt.2 h.new hm
  · rintro f hf k hk rfl
    rw [hmodule] at hf
    exact Nat.not_lt.2 (hbeyond k hk).func (wf.lt_size hf)
  · intro f hf k hk
    rw [hmodule] at hf
    exact (hbeyond k hk).apart (wf.funcs f hf) (wf.agree h.extended f hf)

end Collected

/-- Copies are faithful and independent. An accepted module of a graph can be copied; the copy is
accepted, too, and has the same text, and its functions have the same use counts and runs. Whatever
edits and calls of engines there are on one of the two afterwards, the other one keeps its text, its
use sets and its runs. -/
theorem cloneModule_faithful [FloatUnit] [Unicode] (hv : g.validate m = .ok ())
    (hm : m.idx < g.modules.size) (ht : ∀ f ∈ (g.module m).funcs, g.TargetsListed f) :
    ∃ x c, g.cloneModule m = .ok (x, c) ∧ x.validate c = .ok () ∧
      (∃ text, Syntax.printModule g m = .ok text ∧ Syntax.printModule x c = .ok text) ∧
      List.Forall₂ (g.Twin x) (g.module m).funcs (x.module c).funcs ∧
      (∀ s, Session.Works (x.territory c) { graph := x } s → g.Unchanged s.graph m) ∧
      ∀ s, Session.Works (x.territory m) { graph := x } s → x.Unchanged s.graph c := by
  have wf := validate_eq_ok.1 hv
  obtain ⟨x, c, hclone, hx⟩ := cloneModule_eq_ok wf ht
  have wfc := hx.moduleWellFormed wf
  have hkept := hx.extended.unchanged wf ht hm
  have hmodule : x.module m = g.module m := hkept.module
  have hagree := wf.agree hx.extended
  have wfm : x.ModuleWellFormed m := wf.cloneModule hclone
  have htm : ∀ f ∈ (x.module m).funcs, x.TargetsListed f := by
    rw [hmodule]
    exact fun f hf => (hagree f hf).listed (ht f hf)
  have hprint : ∀ f ∈ (g.module m).funcs, Syntax.Printable g f :=
    fun f hf => Syntax.printable_of_wellFormed (wf.funcs f hf)
  have hseparate := hx.separate wf ht hm
  have hworks : ∀ {k : ModuleId} {s : Session}, x.ModuleWellFormed k →
      Session.Works (x.territory k) { graph := x } s → (x.territory k).Confined x s.graph :=
    fun wfk hs => (Session.Confined.works ⟨wfk.confined, by simp⟩ hs).graph
  refine ⟨x, c, hclone, validate_eq_ok.2 wfc, ⟨_, Syntax.printModule_eq hprint,
    Syntax.printModule_forall₂ hprint ht (hx.copies.imp fun _ _ hk => hk.maps)⟩, ?_, ?_, ?_⟩
  · have hmem := (List.forall₂_and_left _ _).2
      ⟨fun f (hf : f ∈ (g.module m).funcs) => hf, hx.copies⟩
    exact hmem.imp fun f k ⟨hf, hk⟩ => hk.twin (ht f hf) hx.extended.blocks.size
  · exact fun s hs => hkept.trans (hseparate.symm.unchanged (hworks wfc hs) wfm htm
      (Nat.lt_of_lt_of_le hm hx.extended.modules.size))
  · exact fun s hs => hseparate.unchanged (hworks wfm hs) wfc hx.listed hx.stored

/-- The sample is copied, and then an operand of the copied addition is replaced by a constant. -/
theorem sampleGraph_cloneModule_faithful :
    ∃ x y, sampleGraph.cloneModule ⟨0⟩ = .ok (x, ⟨1⟩) ∧
      x.setArg ⟨3⟩ 0 (some (.const ⟨1, 8⟩)) = .ok y ∧ x.validate ⟨1⟩ = .ok () ∧
      sampleGraph.Twin x ⟨0⟩ ⟨1⟩ ∧ sampleGraph.Unchanged y ⟨0⟩ := by
  have hlisted : ∀ f ∈ (sampleGraph.module ⟨0⟩).funcs, sampleGraph.TargetsListed f := by
    intro f hf
    obtain rfl : f = ⟨0⟩ := List.mem_singleton.1 hf
    exact sampleGraph_targetsListed
  obtain ⟨x, y, hcopy, hfuncs, hops, hset⟩ : ∃ x y, sampleGraph.cloneModule ⟨0⟩ = .ok (x, ⟨1⟩) ∧
      (x.module ⟨1⟩).funcs = [⟨1⟩] ∧ x.opsOf ⟨1⟩ = [⟨3⟩, ⟨4⟩, ⟨5⟩] ∧
      x.setArg ⟨3⟩ 0 (some (.const ⟨1, 8⟩)) = .ok y := ⟨_, _, rfl, rfl, rfl, rfl⟩
  obtain ⟨x', c, hclone, hvalid, -, htwins, hkept, -⟩ :=
    cloneModule_faithful sampleGraph_validate (by decide) hlisted
  obtain ⟨rfl, rfl⟩ := Prod.mk.inj (Except.ok.inj (hcopy.symm.trans hclone))
  have hmine : (x.territory ⟨1⟩).ops 3 := by
    refine .inl ⟨⟨1⟩, ?_, ?_⟩
    · rw [hfuncs]
      exact List.mem_singleton_self _
    · rw [hops]
      exact List.mem_cons_self
  let e : Session.Edit := .setArg ⟨3⟩ 0 (some (.const ⟨1, 8⟩))
  have he : e.In (x.territory ⟨1⟩) := by
    refine ⟨hmine, fun w hw => ?_⟩
    cases hw
    trivial
  have hedit : Session.perform { graph := x } e = .ok { graph := y } := by
    simp only [e, Session.perform, hset]
    rfl
  rw [hfuncs] at htwins
  exact ⟨x, y, hcopy, hset, hvalid, (List.forall₂_cons.1 htwins).1,
    hkept _ (.edit .here e he hedit)⟩

end Graph
end Disguise
