import Disguise.Proofs.Cloning
import Disguise.Proofs.Emission
import Disguise.Proofs.Outlining

/-!
Random programs. The blocks of a new function are filled one after the other; what comes out is
well-formed, branches forward only and has guarded ops, so it returns a value on all arguments. A
module is made of such functions, and none of them spoils another one (`always_funcs`).
-/
namespace Disguise
open Disguise.Graph Word Results

namespace Graph

/-- A function that is well-formed, branches forward only, reaches all its blocks and cannot
fail. -/
structure Steady (g : Graph) (f : FuncId) (most : Nat) : Prop where
  wellFormed : g.WellFormed f
  forward : g.Forward f
  guarded : g.AllGuarded f
  paths : ∀ i < (g.func f).blocks.length, ∃ p, (g.flow f).Path p i
  nonempty : (g.func f).blocks ≠ []
  numOps : g.numOps f ≤ most

end Graph

namespace Generation
variable {g₀ : Graph} {bits size : Int}

/-- The sizes of the blocks add up to the size of the function. -/
theorem sum_sizes {size : Int} (h0 : 0 ≤ size) {count : Nat} (hc : 0 < count) :
    ((List.range count).map fun i => (if i = 0 then size.tdiv count + size.tmod count
      else size.tdiv count).toNat).sum = size.toNat := by
  obtain ⟨k, rfl⟩ := Nat.exists_eq_add_one_of_ne_zero (Nat.ne_of_gt hc)
  obtain ⟨n, rfl⟩ := Int.eq_ofNat_of_zero_le h0
  have hdiv : (n : Int).tdiv ((k + 1 : Nat) : Int) = ((n / (k + 1) : Nat) : Int) := rfl
  have hmod : (n : Int).tmod ((k + 1 : Nat) : Int) = ((n % (k + 1) : Nat) : Int) := rfl
  rw [hdiv, hmod, List.range_succ_eq_map]
  have hrest : (List.range k).map ((fun i => (if i = 0 then
      ((n / (k + 1) : Nat) : Int) + ((n % (k + 1) : Nat) : Int)
      else ((n / (k + 1) : Nat) : Int)).toNat) ∘ Nat.succ) = List.replicate k (n / (k + 1)) := by
    rw [List.eq_replicate_iff]
    refine ⟨by simp, ?_⟩
    simp only [List.mem_map, forall_exists_index, and_imp]
    rintro _ i - rfl
    rfl
  rw [List.map_cons, List.map_map, hrest, List.sum_cons, List.sum_replicate, if_pos rfl,
    ← Int.natCast_add, Int.toNat_natCast, Int.toNat_natCast, Nat.nsmul_eq_mul]
  have := Nat.div_add_mod n (k + 1)
  rw [Nat.add_mul, Nat.one_mul] at this
  omega

/-- What is known of a function that has been generated. -/
structure Made (g₀ : Graph) (name : Bytes) (size : Int) (r : Graph × FuncId) : Prop where
  exact : r.1.Exact fun _ => []
  extended : g₀.Extends r.1
  new : g₀.funcs.size ≤ r.2.idx
  name : (r.1.func r.2).name = name
  steady : r.1.Steady r.2 (3 * size.toNat + 6)

theorem mem_of_first_pool {count j : Nat} {pool : List Operand} {v : Operand}
    (h : v ∈ ((List.replicate count []).set 0 pool).getD j []) : v ∈ pool := by
  rw [List.getD_eq_getElem?_getD, List.getElem?_set] at h
  split at h
  · split at h
    · exact h
    · simp at h
  · rw [List.getElem?_replicate] at h
    split at h <;> simp at h

/-- The state of a generator whose function has its branches and no other ops. -/
theorem ready_of_branched {x₁ x₂ x : Graph} {f : FuncId} {name : Bytes} {ps : List ParamId}
    {names : List Bytes} {count k : Nat} (hg : goodWidth bits)
    (hhead : Headed g₀ x₁ f name bits ps (paramSpecs count bits))
    (hout : Outline g₀ x₂ f (x₁.func f) x₁.params names)
    (hx : Branched g₀ x₂ x f (x₂.func f).blocks.length) :
    Ready g₀ f bits (x₂.func f) 0 (x₂.func f).blocks.length
      { graph := x, func := f, bits, dominators := x.dominators f
        values := (List.replicate k []).set 0 ((ps.take count).map .param)
        conditions := (List.replicate k []).set 0 ((ps.drop count).map .param) } := by
  have hfunc : x.func f = x₂.func f := hx.rework.func f
  have hps : (x₂.func f).params = ps := by rw [hout.func_eq, hhead.func_eq]
  have hret : (x₂.func f).retBits = bits := by rw [hout.func_eq, hhead.func_eq]
  obtain ⟨hsketch, hops⟩ := hx.sketch (by rw [hfunc])
  have hpool : ∀ w, ∀ pool : List ParamId, (∀ p ∈ pool, p ∈ ps ∧ (x₁.param p).bits = w) → ∀ j,
      ∀ v ∈ ((List.replicate k []).set 0 (pool.map .param)).getD j [], x.Defines f w j v := by
    intro w pool hall j v hv
    obtain ⟨p, hp, rfl⟩ := List.mem_map.1 (mem_of_first_pool hv)
    obtain ⟨hmem, hbits⟩ := hall p hp
    refine ⟨by rw [hfunc, hps]; exact hmem, ?_⟩
    rw [hx.rework.paramBits, param, hout.params_eq, ← param, hbits]
  obtain ⟨hvalues, hconditions⟩ := hhead.widths
  constructor
  case func_eq => rfl
  case bits_eq => rfl
  case width => exact hg
  case sketch => exact hsketch
  case graph_eq => exact hfunc
  case ret_eq => exact hret
  case dominators_eq => rfl
  case values =>
    refine hpool bits _ fun p hp => ?_
    exact ⟨List.mem_of_mem_take hp, hvalues p hp⟩
  case conditions =>
    refine hpool 1 _ fun p hp => ?_
    exact ⟨List.mem_of_mem_drop hp, hconditions p hp⟩
  case numOps =>
    rw [← hfunc]
    exact Nat.le_of_eq hops

/-- A function whose blocks are filled is made. -/
theorem Ready.made {f : FuncId} {fn : Func} {s : State}
    (h : Ready g₀ f bits fn fn.blocks.length (6 + 3 * size.toNat) s) (h₀ : g₀.Exact fun _ => [])
    (hne : fn.blocks ≠ []) : Made g₀ fn.name size (s.graph, f) where
  exact := h.sketch.exact
  extended := h.sketch.apart.extended
  new := h.sketch.apart.copy
  name := by rw [h.graph_eq]
  steady :=
    { wellFormed := h.sketch.wellFormed h₀ (by rw [h.graph_eq])
      forward := h.sketch.forward
      guarded := h.sketch.guarded
      paths := fun i hi => h.sketch.exists_path hi
      nonempty := by rwa [h.graph_eq]
      numOps := Nat.le_trans h.numOps (by omega) }

/-- Whatever is chosen, a function is made. -/
theorem always_func (h₀ : g₀.Exact fun _ => []) (name : Bytes) (hg : goodWidth bits)
    (hsize : 0 ≤ size) : Always (Generation.func g₀ name bits size) (Made g₀ name size) := by
  unfold Generation.func
  refine (Always.below (by decide)).bind fun c hc => ?_
  have hhead := headed h₀ name bits (2 + c)
  have hcount : 2 + c = 2 ∨ 2 + c = 3 := by omega
  obtain ⟨hn, hw⟩ := paramSpecs_good hcount hg
  have heighth : 0 ≤ size.tdiv 8 := Int.tdiv_nonneg hsize (by decide)
  dsimp only at hhead ⊢
  generalize (⟨g₀.funcs.size⟩ : FuncId) = f at hhead ⊢
  generalize addParams _ f (2 + c) bits = made at hhead ⊢
  obtain ⟨x₁, ps⟩ := made
  refine (Always.below (by omega)).bind fun d hd => ?_
  have hout := (hhead.outline hg hn hw).addBlocks (1 + d)
  dsimp only at hhead hout ⊢
  generalize (List.range (1 + d)).foldl _ x₁ = x₂ at hout ⊢
  have hlen : (x₂.func f).blocks.length = 1 + d := by
    have hnames := congrArg List.length hout.names
    simpa using hnames
  have hbranch := hout.always_branch
  rw [hlen] at hbranch
  refine hbranch.bind fun x hx => ?_
  rw [← hlen] at hx
  have hready := ready_of_branched (k := 1 + d) hg hhead hout hx
  have hsix : (x₂.func f).blocks.length ≤ 6 := by omega
  refine ((hready.mono hsix).always_fillBlocks h₀ (by simp [hlen])).bind fun s hs => .pure ?_
  rw [sum_sizes hsize (by omega)] at hs
  have hmade := hs.made h₀ fun hnil => by
    rw [hnil, List.length_nil] at hlen
    omega
  rwa [hout.func_eq, hhead.func_eq] at hmade

end Generation

namespace Graph
variable {g g' : Graph} {f : FuncId} {m : ModuleId} {most : Nat}

/-- A function keeps its properties where it and all ops stay the same. -/
theorem Steady.agree (h : g.Steady f most) (ha : Agree g g' f)
    (hops : ∀ d, d.idx < g.ops.size → g'.op d = g.op d) : g'.Steady f most where
  wellFormed := ha.wellFormed h.wellFormed
  forward := by
    intro i b hi u hu t ht
    rw [ha.blocks] at hi ⊢
    have hb := List.mem_of_getElem? hi
    rw [ha.block b hb] at hu
    rw [ha.op u (mem_opsOf.2 ⟨b, hb, hu⟩)] at ht
    exact h.forward i b hi u hu t ht
  guarded := by
    intro u hu
    rw [ha.opsOf] at hu
    rw [ha.op u hu]
    refine (h.guarded u hu).mono ?_
    rintro k code v hbinary ⟨d, x, rfl, rfl, hbits, hargs⟩
    have hd : d.idx < g.ops.size := lt_size_of_code fun hinv => by
      rw [hinv] at hbinary
      cases hbinary
    exact ⟨d, x, rfl, by rw [hops d hd], by rw [hops d hd, hbits], by rw [hops d hd, hargs]⟩
  paths := by
    rw [ha.flow h.wellFormed, ha.blocks]
    exact h.paths
  nonempty := by
    rw [ha.blocks]
    exact h.nonempty
  numOps := by
    rw [Graph.numOps, ha.opsOf]
    exact h.numOps

theorem Steady.lt_size (h : g.Steady f most) : f.idx < g.funcs.size := by
  apply Table.lt_size_of_ne
  intro heq
  have hnonempty := h.nonempty
  rw [func, heq] at hnonempty
  exact hnonempty rfl

theorem Steady.extends (h : g.Steady f most) (hext : g.Extends g') : g'.Steady f most := by
  have hagree := hext.agree h.wellFormed h.lt_size
  exact h.agree hagree fun d hd => hext.ops.get d.idx hd

theorem Steady.addFunc {k : FuncId} {most' : Nat} (h : g.Steady k most) (hf : g.Steady f most')
    (m : ModuleId) : (g.addFunc m f).Steady k most := by
  obtain ⟨-, -, -, hops, -, -⟩ := addFunc_parts g m f
  exact h.agree (agree_addFunc hf.wellFormed m k) fun d _ => by rw [op, hops, ← op]

/-- On all arguments it returns a value. -/
theorem Steady.returns [FloatUnit] (h : g.Steady f most) {args : List UInt64} {limit : Int}
    (hargs : args.length = (g.func f).params.length) (hlimit : limit ≤ 0 ∨ g.numOps f ≤ limit) :
    ∃ v, g.run f args limit = .returned v :=
  run_returned h.wellFormed h.forward h.guarded (by simpa [Func.isDeclaration] using h.nonempty)
    hargs hlimit

end Graph

namespace Generation
variable {g : Graph} {m : ModuleId} {size : Int} {count : Nat}

/-- A module of `count` generated functions. -/
structure Program (size : Int) (m : ModuleId) (count : Nat) (g : Graph) : Prop where
  exact : g.Exact fun _ => []
  there : m.idx < g.modules.size
  names : ((g.module m).funcs.map fun f => (g.func f).name) =
    (List.range count).map fun i => text "f" ++ Bytes.decimalNat i
  owner : ∀ f ∈ (g.module m).funcs, (g.func f).owner = some m
  steady : ∀ f ∈ (g.module m).funcs, g.Steady f (3 * size.toNat + 6)

theorem Program.wellFormed (h : Program size m count g) : g.ModuleWellFormed m where
  owner := h.owner
  names := by
    rw [h.names]
    refine List.nodup_range.map fun i j hij => ?_
    exact Numeral.decimalNat_injective (List.append_cancel_left hij)
  funcs f hf := (h.steady f hf).wellFormed

/-- One more function is put into the module. -/
theorem Program.addFunc (h : Program size m count g) {r : Graph × FuncId}
    (hr : Made g (text "f" ++ Bytes.decimalNat count) size r) :
    Program size m (count + 1) (r.1.addFunc m r.2) := by
  obtain ⟨x, k⟩ := r
  obtain ⟨hfunc, -, -, -, hlist, hsize⟩ := addFunc_parts x m k
  have hmodule : x.module m = g.module m := hr.extended.modules.get m.idx h.there
  have hold : ∀ f ∈ (g.module m).funcs, (x.addFunc m k).func f = g.func f := by
    intro f hf
    have hlt := (h.steady f hf).lt_size
    have hnew := hr.new
    rw [hfunc, if_neg, Graph.func, hr.extended.funcs.get f.idx hlt, ← Graph.func]
    rintro rfl
    exact Nat.not_lt.2 hnew hlt
  have hnew : (x.addFunc m k).func k = { x.func k with owner := some m } := by
    rw [hfunc, if_pos rfl]
  rw [hmodule] at hlist
  refine ⟨hr.exact.addFunc m k, ?_, ?_, ?_, ?_⟩
  · exact Nat.lt_of_lt_of_le h.there (Nat.le_trans hr.extended.modules.size hsize)
  · rw [hlist, List.map_append, List.map_congr_left fun f hf => congrArg Func.name (hold f hf),
      h.names, List.range_succ, List.map_append, List.map_singleton, hnew]
    exact congrArg _ (congrArg (fun name => [name]) hr.name)
  · rw [hlist]
    intro f hf
    rcases List.mem_append.1 hf with hf | hf
    · rw [hold f hf]
      exact h.owner f hf
    · rw [List.mem_singleton.1 hf, hnew]
  · rw [hlist]
    intro f hf
    rcases List.mem_append.1 hf with hf | hf
    · exact ((h.steady f hf).extends hr.extended).addFunc hr.steady m
    · rw [List.mem_singleton.1 hf]
      exact hr.steady.addFunc hr.steady m

theorem always_funcs (hsize : 0 ≤ size) {left : Nat} (h : Program size m count g) :
    Always (funcs m size left count g) (Program size m (count + left)) := by
  induction left generalizing g count with
  | zero => exact .pure h
  | succ left ih =>
    have hwidths : ∀ i, goodWidth (widths.getD i 1) := by
      intro i
      rcases i with _ | _ | _ | _ | _ | _ | i <;> rfl
    refine (Always.below (by decide)).bind fun i _ =>
      (always_func h.exact _ (hwidths i) hsize).bind fun r hr => ?_
    rw [Nat.add_comm left, ← Nat.add_assoc]
    exact ih (h.addFunc hr)

theorem program_newModule (h : g.Exact fun _ => []) :
    Program size g.newModule.2 0 g.newModule.1 := by
  have hnone : (g.newModule.1.module g.newModule.2).funcs = [] := by
    simp [newModule, Graph.module, Table.get_push]
  refine ⟨h.withFuncs _ _, ?_, ?_, ?_, ?_⟩
  · exact Nat.lt_of_lt_of_eq (Nat.lt_succ_self _) (g.modules.size_push _).symm
  · simp [hnone]
  · simp [hnone]
  · simp [hnone]

/-- What generated functions are good for: they are accepted, branch to blocks further down only and
reach all their blocks, have a bounded number of ops, and return a value on all arguments. -/
structure Sound [FloatUnit] (g : Graph) (f : FuncId) (size : Int) : Prop where
  accepted : g.validateFunc f = .ok ()
  forward : g.Forward f
  reached : ∀ i < (g.func f).blocks.length, ∃ p, (g.flow f).Path p i
  numOps : g.numOps f ≤ 3 * size + 6
  returns : ∀ (args : List UInt64) (limit : Int), args.length = (g.func f).params.length →
    limit ≤ 0 ∨ g.numOps f ≤ limit → ∃ v, g.run f args limit = .returned v

theorem sound_of_steady [FloatUnit] {f : FuncId} (hsize : 0 ≤ size)
    (h : g.Steady f (3 * size.toNat + 6)) : Sound g f size where
  accepted := validateFunc_eq_ok.2 h.wellFormed
  forward := h.forward
  reached := h.paths
  numOps := by
    have := h.numOps
    omega
  returns _ _ hargs hlimit := h.returns hargs hlimit

/-- Whatever is chosen, functions of every width and all functions of a module are generated sound,
and the module is accepted. -/
theorem generated_sound [FloatUnit] (hg : g.Exact fun _ => []) (hsize : 0 ≤ size) :
    (∀ name bits, 1 ≤ bits → bits ≤ 64 →
      Always (Generation.func g name bits size) fun r => Sound r.1 r.2 size) ∧
    Always (Generation.module g size) fun r => r.1.validate r.2 = .ok () ∧
      (r.1.module r.2).funcs ≠ [] ∧ ∀ f ∈ (r.1.module r.2).funcs, Sound r.1 f size := by
  constructor
  · intro name bits hpos hle
    have hwidth : goodWidth bits := goodWidth_iff.2 ⟨bits.toNat, by omega, by omega, by omega⟩
    exact (always_func hg name hwidth hsize).mono fun r hr => sound_of_steady hsize hr.steady
  · refine (Always.below (by decide)).bind fun c _ =>
      (always_funcs hsize (program_newModule hg)).bind fun x hx => .pure ?_
    refine ⟨validate_eq_ok.2 hx.wellFormed, fun hnil => ?_, fun f hf =>
      sound_of_steady hsize (hx.steady f hf)⟩
    have hnames := congrArg List.length hx.names
    rw [List.length_map, List.length_map, List.length_range] at hnames
    have hlen := congrArg List.length hnil
    simp only [newModule, List.length_nil] at hnames hlen
    omega

/-- Functions on bytes with about thirty ops, which may branch and divide. -/
theorem generated_sound_bytes :
    (Always (Generation.func {} (text "f") 8 30) fun r => Sound r.1 r.2 30) ∧
      Always (Generation.module {} 30) fun r => r.1.validate r.2 = .ok () ∧
        (r.1.module r.2).funcs ≠ [] ∧ ∀ f ∈ (r.1.module r.2).funcs, Sound r.1 f 30 :=
  ⟨(generated_sound exact_empty (by decide)).1 _ 8 (by decide) (by decide),
    (generated_sound exact_empty (by decide)).2⟩

end Generation
end Disguise
