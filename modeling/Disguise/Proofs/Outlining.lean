import Disguise.Generation
import Disguise.Proofs.Choices
import Disguise.Proofs.Numerals
import Disguise.Proofs.Sketches

/-!
How random functions begin. A function gets its params, then its blocks, then a terminator for each
block that branches forward; that makes it a sketch.
-/
namespace Disguise
open Disguise.Graph Word Results

namespace Generation

theorem blockName_injective {i j : Nat} (h : blockName i = blockName j) : i = j := by
  have hne : ∀ n : Nat, text "entry" ≠ text "bb" ++ Bytes.decimalNat n := by
    intro n heq
    have hhead := congrArg List.head? heq
    have hentry : (text "entry").head? = some 101 := by decide
    have hbb : text "bb" = [98, 98] := by decide
    simp [hentry, hbb] at hhead
  unfold blockName at h
  split at h
  · split at h
    · omega
    · exact absurd h (hne j)
  · split at h
    · exact absurd h.symm (hne i)
    · exact Numeral.decimalNat_injective (List.append_cancel_left h)

end Generation

namespace Graph
variable {g₀ g x : Graph} {f : FuncId}

/-- `ps` are new params with the given names and widths that `f` may list. -/
structure Params (g₀ g x : Graph) (f : FuncId) (ps : List ParamId) (specs : List (Bytes × Int)) :
    Prop where
  exact : x.Exact fun _ => []
  apart : Copying g₀ f x {}
  ops : x.ops = g.ops
  funcs : x.funcs = g.funcs
  specs : ps.map (fun p => ((x.param p).name, (x.param p).bits)) = specs
  owner : ∀ p ∈ ps, (x.param p).func = some f
  new : ∀ p ∈ ps, g₀.params.size ≤ p.idx
  there : ∀ p ∈ ps, p.idx < x.params.size

theorem Params.newParam {ps : List ParamId} {specs : List (Bytes × Int)}
    (h : Params g₀ g x f ps specs) (name : Bytes) (bits : Int) :
    Params g₀ g (x.newParam name bits (some f)).1 f (ps ++ [⟨x.params.size⟩])
      (specs ++ [(name, bits)]) := by
  have hget : ∀ p, (x.newParam name bits (some f)).1.param p =
      if p.idx = x.params.size then { func := some f, name, bits } else x.param p :=
    fun p => x.params.get_push _ _
  have hold : ∀ p ∈ ps, (x.newParam name bits (some f)).1.param p = x.param p := by
    intro p hp
    rw [hget p, if_neg (Nat.ne_of_lt (h.there p hp))]
  have hsize : (x.newParam name bits (some f)).1.params.size = x.params.size + 1 :=
    x.params.size_push _
  constructor
  case exact => exact h.exact.newParam name bits (some f)
  case apart =>
    exact { h.apart with
      extended := { h.apart.extended with params := h.apart.extended.params.push _ } }
  case ops => exact h.ops
  case funcs => exact h.funcs
  case specs =>
    rw [List.map_append, List.map_congr_left fun p hp => by rw [hold p hp], h.specs]
    simp [hget]
  case owner =>
    intro p hp
    rcases List.mem_append.1 hp with hp | hp
    · rw [hold p hp]
      exact h.owner p hp
    · rw [List.mem_singleton.1 hp, hget, if_pos rfl]
  case new =>
    intro p hp
    rcases List.mem_append.1 hp with hp | hp
    · exact h.new p hp
    · rw [List.mem_singleton.1 hp]
      exact h.apart.extended.params.size
  case there =>
    intro p hp
    rw [hsize]
    rcases List.mem_append.1 hp with hp | hp
    · exact Nat.lt_succ_of_lt (h.there p hp)
    · rw [List.mem_singleton.1 hp]
      exact Nat.lt_succ_self _

/-- What the params of a generated function are called and how wide they are. -/
def paramSpecs (count : Nat) (bits : Int) : List (Bytes × Int) :=
  (List.range count).map (fun i => ([(97 + i).toUInt8], bits)) ++ [(text "cond", 1)]

theorem paramSpecs_good {count : Nat} (hc : count = 2 ∨ count = 3) {bits : Int}
    (hg : goodWidth bits) : ((paramSpecs count bits).map (·.1)).Nodup ∧
      ∀ spec ∈ paramSpecs count bits, goodWidth spec.2 := by
  refine ⟨?_, fun spec hspec => ?_⟩
  · rcases hc with rfl | rfl <;> simp [paramSpecs, List.range_succ] <;> decide
  · rcases List.mem_append.1 hspec with hmem | hmem
    · obtain ⟨i, -, rfl⟩ := List.mem_map.1 hmem
      exact hg
    · rw [List.mem_singleton.1 hmem]
      rfl

/-- The params that a function gets, before it lists them. -/
def newParams (g : Graph) (f : FuncId) (specs : List (Bytes × Int)) : Graph × List ParamId :=
  specs.foldl (fun s spec =>
    ((s.1.newParam spec.1 spec.2 (some f)).1, s.2 ++ [⟨s.1.params.size⟩])) (g, [])

theorem addParams_eq (g : Graph) (f : FuncId) (count : Nat) (bits : Int) :
    Generation.addParams g f count bits =
      let (x, ps) := g.newParams f (paramSpecs count bits)
      (x.modifyFunc f fun fn => { fn with params := ps }, ps) := rfl

/-- A function of the given width with new params, in which nothing stands yet. -/
structure Headed (g₀ x : Graph) (f : FuncId) (name : Bytes) (bits : Int) (ps : List ParamId)
    (specs : List (Bytes × Int)) : Prop where
  exact : x.Exact fun _ => []
  apart : Copying g₀ f x {}
  func_eq : x.func f = { name, retBits := bits, params := ps }
  specs : ps.map (fun p => ((x.param p).name, (x.param p).bits)) = specs
  owner : ∀ p ∈ ps, (x.param p).func = some f
  unplaced : ∀ u b, g₀.ops.size ≤ u.idx → (x.op u).block ≠ some b

/-- A new function gets its params. -/
theorem headed (h₀ : g₀.Exact fun _ => []) (name : Bytes) (bits : Int) (count : Nat) :
    let r := Generation.addParams { g₀ with funcs := g₀.funcs.push { name, retBits := bits } }
      ⟨g₀.funcs.size⟩ count bits
    Headed g₀ r.1 ⟨g₀.funcs.size⟩ name bits r.2 (paramSpecs count bits) := by
  rw [addParams_eq]
  generalize hg : ({ g₀ with funcs := g₀.funcs.push { name, retBits := bits } } : Graph) = g
  generalize hf : (⟨g₀.funcs.size⟩ : FuncId) = f
  have hfunc : g.func f = { name, retBits := bits } := by
    simp [← hg, ← hf, func, Table.get_push]
  have hstart : Params g₀ g g f [] [] := by
    subst hg hf
    refine ⟨h₀.withFuncs _ _, ⟨?_, Nat.le_refl _, ?_, ?_, by simp, by simp, by simp⟩, rfl, rfl,
      rfl, by simp, by simp, by simp⟩
    · exact { Extends.refl g₀ with funcs := (Table.Extends.refl _).push _ }
    · intro p hp
      simp [func, Table.get_push] at hp
    · intro o ho v hv
      simp only [op, g₀.ops.get_of_size_le ho] at hv
      cases hv
  have hall : Params g₀ g (g.newParams f (paramSpecs count bits)).1 f
      (g.newParams f (paramSpecs count bits)).2 (paramSpecs count bits) :=
    foldl_done (P := fun done (s : Graph × List ParamId) => Params g₀ g s.1 f s.2 done) hstart
      fun done spec rest s _ hs => hs.newParam spec.1 spec.2
  generalize g.newParams f (paramSpecs count bits) = made at hall
  obtain ⟨x, ps⟩ := made
  dsimp only at hall ⊢
  have hx : x.func f = { name, retBits := bits } := by rw [func, hall.funcs, ← func, hfunc]
  refine ⟨hall.exact.withFuncs _ _, { hall.apart with extended := ?_, head := ?_ }, ?_, hall.specs,
    hall.owner, fun u b hu => ?_⟩
  · exact { hall.apart.extended with
      funcs := hall.apart.extended.funcs.modify hall.apart.copy fun fn => { fn with params := ps } }
  · intro p hp
    rw [func_modifyFunc, if_pos rfl] at hp
    exact hall.new p hp
  · rw [func_modifyFunc, if_pos rfl, hx]
  · rw [op_modifyFunc, op, hall.ops, ← hg, g₀.ops.get_of_size_le hu]
    intro h
    cases h

/-- The first params of a new function are of its width, and the last one is a condition. -/
theorem Headed.widths {name : Bytes} {bits : Int} {ps : List ParamId} {count : Nat}
    (h : Headed g₀ x f name bits ps (paramSpecs count bits)) :
    (∀ p ∈ ps.take count, (x.param p).bits = bits) ∧ ∀ p ∈ ps.drop count, (x.param p).bits = 1 := by
  have hlen : ((List.range count).map fun i => ([(97 + i).toUInt8], bits)).length = count := by simp
  constructor
  · intro p hp
    have hmem := List.mem_map_of_mem (f := fun p => ((x.param p).name, (x.param p).bits)) hp
    rw [List.map_take, h.specs, paramSpecs, List.take_left' hlen] at hmem
    obtain ⟨i, -, hi⟩ := List.mem_map.1 hmem
    exact (congrArg Prod.snd hi).symm
  · intro p hp
    have hmem := List.mem_map_of_mem (f := fun p => ((x.param p).name, (x.param p).bits)) hp
    rw [List.map_drop, h.specs, paramSpecs, List.drop_left' hlen] at hmem
    exact congrArg Prod.snd (List.mem_singleton.1 hmem)

/-- A new function whose blocks have the given names, and of which block number `n` and those after
it are empty. -/
structure Outline (g₀ x : Graph) (f : FuncId) (fn : Func) (ps : Table Param) (names : List Bytes) :
    Prop
    extends Fresh g₀ x f where
  func_eq : x.func f = { fn with blocks := (x.func f).blocks }
  params_eq : x.params = ps
  names : (x.func f).blocks.map (fun b => (x.block b).name) = names
  there : ∀ b ∈ (x.func f).blocks, b.idx < x.blocks.size
  empty : ∀ b ∈ (x.func f).blocks, (x.block b).ops = []

theorem Headed.outline {name : Bytes} {bits : Int} {ps : List ParamId} {specs : List (Bytes × Int)}
    (h : Headed g₀ x f name bits ps specs) (hg : goodWidth bits) (hn : (specs.map (·.1)).Nodup)
    (hw : ∀ spec ∈ specs, goodWidth spec.2) : Outline g₀ x f (x.func f) x.params [] := by
  have hnone : (x.func f).blocks = [] := by rw [h.func_eq]
  have hps : (x.func f).params = ps := by rw [h.func_eq]
  constructor
  case func_eq => rfl
  case params_eq => rfl
  case' toFresh => constructor
  case apart => exact h.apart
  case exact => exact h.exact
  case retWidth =>
    rw [h.func_eq]
    exact hg
  case paramOwner =>
    rw [hps]
    exact h.owner
  case paramWidth =>
    rw [hps]
    intro p hp
    exact hw _ (h.specs ▸ List.mem_map_of_mem hp)
  case paramNames =>
    rw [← h.specs, List.map_map] at hn
    rw [hps]
    exact hn
  case blockNew => simp [hnone]
  case blockOwner => simp [hnone]
  case blockNames => simp [hnone]
  case home => exact fun u b hu hb => absurd hb (h.unplaced u b hu)
  case names => simp [hnone]
  case there => simp [hnone]
  case empty => simp [hnone]

/-- A function gets one more block, which is empty. -/
theorem Outline.addBlock {fn : Func} {ps : Table Param} {names : List Bytes}
    (h : Outline g₀ x f fn ps names) {name : Bytes} (hname : (names ++ [name]).Nodup) :
    Outline g₀ (x.addBlock f name).1 f fn ps (names ++ [name]) := by
  have hfunc : (x.addBlock f name).1.func f =
      { x.func f with blocks := (x.func f).blocks ++ [⟨x.blocks.size⟩] } := by
    change (modifyFunc _ f _).func f = _
    rw [func_modifyFunc, if_pos rfl]
    rfl
  have hblock : ∀ b, (x.addBlock f name).1.block b =
      if b.idx = x.blocks.size then { owner := some f, name } else x.block b :=
    fun b => x.blocks.get_push _ _
  have hold : ∀ b ∈ (x.func f).blocks, (x.addBlock f name).1.block b = x.block b := by
    intro b hb
    rw [hblock b, if_neg (Nat.ne_of_lt (h.there b hb))]
  have hnew : (x.addBlock f name).1.block ⟨x.blocks.size⟩ = { owner := some f, name } := by
    rw [hblock, if_pos rfl]
  have hsize : (x.addBlock f name).1.blocks.size = x.blocks.size + 1 := x.blocks.size_push _
  have hnames : ((x.func f).blocks ++ [(⟨x.blocks.size⟩ : BlockId)]).map
      (fun b => ((x.addBlock f name).1.block b).name) = names ++ [name] := by
    rw [List.map_append, List.map_congr_left fun b hb => by rw [hold b hb], h.names]
    simp [hnew]
  -- what is true of the old blocks and of the new one
  have hboth {P : BlockId → Prop} (hP : ∀ b ∈ (x.func f).blocks, P b) (hP' : P ⟨x.blocks.size⟩) :
      ∀ b ∈ (x.func f).blocks ++ [⟨x.blocks.size⟩], P b := by
    intro b hb
    rcases List.mem_append.1 hb with hb | hb
    · exact hP b hb
    · rw [List.mem_singleton.1 hb]
      exact hP'
  have hext : g₀.Extends (x.addBlock f name).1 :=
    { h.apart.extended with
      blocks := h.apart.extended.blocks.push _
      funcs := h.apart.extended.funcs.modify h.apart.copy fun fn =>
        { fn with blocks := fn.blocks ++ [⟨x.blocks.size⟩] } }
  constructor
  case params_eq => exact h.params_eq
  case' toFresh => constructor
  case apart => exact { h.apart with extended := hext, head := by rw [hfunc]; exact h.apart.head }
  case exact => exact (h.exact.newBlock f name).withFuncs _ _
  all_goals rw [hfunc]
  case retWidth => exact h.retWidth
  case paramOwner => exact h.paramOwner
  case paramWidth => exact h.paramWidth
  case paramNames => exact h.paramNames
  case blockNew => exact hboth h.blockNew h.apart.extended.blocks.size
  case blockOwner =>
    exact hboth (fun b hb => by rw [hold b hb]; exact h.blockOwner b hb) (by rw [hnew])
  case blockNames =>
    rw [hnames]
    exact hname
  case home => exact fun u b hu hb => List.mem_append_left _ (h.home u b hu hb)
  case func_eq => rw [h.func_eq]
  case names => exact hnames
  case there =>
    rw [hsize]
    exact hboth (fun b hb => Nat.lt_succ_of_lt (h.there b hb)) (Nat.lt_succ_self _)
  case empty => exact hboth (fun b hb => by rw [hold b hb]; exact h.empty b hb) (by rw [hnew])

theorem Outline.addBlocks {fn : Func} {ps : Table Param} (h : Outline g₀ x f fn ps []) (n : Nat) :
    Outline g₀ ((List.range n).foldl (fun g i => (g.addBlock f (Generation.blockName i)).1) x) f fn
      ps ((List.range n).map Generation.blockName) := by
  have hnames : ((List.range n).map Generation.blockName).Nodup :=
    List.nodup_range.map fun _ _ => Generation.blockName_injective
  refine foldl_done (P := fun done y => Outline g₀ y f fn ps (done.map Generation.blockName)) h ?_
  intro done i rest y hl hy
  have hsub : ((done ++ [i]).map Generation.blockName).Nodup := by
    rw [hl, List.append_cons, List.map_append, List.nodup_append] at hnames
    exact hnames.1
  rw [List.map_append] at hsub ⊢
  exact hy.addBlock hsub

/-- The only op of block number `i` is a terminator without an operand, which branches to blocks
further down and to the next one in any case. -/
structure Branches (x : Graph) (blocks : List BlockId) (i : Nat) (u : OpId) : Prop where
  blank : x.Blank u
  forward : ∀ t, some t ∈ (x.op u).targets → ∃ k : Nat, i < k ∧ blocks[k]? = some t
  next : ∀ c, blocks[i + 1]? = some c → some c ∈ (x.op u).targets

/-- A new function whose first `n` blocks have their terminators; the others are empty. -/
structure Branched (g₀ x₀ x : Graph) (f : FuncId) (n : Nat) : Prop extends Fresh g₀ x f where
  rework : Reworked x₀ x
  done : ∀ i b, (x.func f).blocks[i]? = some b → i < n →
    ∃ u, (x.block b).ops = [u] ∧ x.Branches (x.func f).blocks i u
  empty : ∀ i b, (x.func f).blocks[i]? = some b → n ≤ i → (x.block b).ops = []

theorem Outline.branched {fn : Func} {ps : Table Param} {names : List Bytes}
    (h : Outline g₀ x f fn ps names) : Branched g₀ x x f 0 where
  toFresh := h.toFresh
  rework := .refl x
  done _ _ _ hlt := absurd hlt (Nat.not_lt_zero _)
  empty _ b hi _ := h.empty b (List.mem_of_getElem? hi)

theorem always_forward {count i : Nat} : Always (Generation.forward count i) fun ks =>
    (ks = [] ∧ count ≤ i + 1) ∨ (ks = [i + 1] ∧ i + 1 < count) ∨
      ∃ j, ks = [i + 1, j] ∧ i + 1 < j ∧ j < count := by
  refine .ite (fun hlast => .pure (.inl ⟨rfl, hlast⟩)) fun hmore => ?_
  have hnext : i + 1 < count := by omega
  refine .ite (fun _ => .pure (.inr (.inl ⟨rfl, hnext⟩))) fun htwo => ?_
  refine Always.coin.bind fun _ _ => .ite (fun _ => ?_) fun _ => .pure (.inr (.inl ⟨rfl, hnext⟩))
  refine (Always.below (by omega)).bind fun j hj => .pure (.inr (.inr ⟨_, rfl, ?_, ?_⟩))
  · omega
  · omega

/-- The next block gets its terminator. -/
theorem Branched.place {x₀ : Graph} {n : Nat} (h : Branched g₀ x₀ x f n) {b : BlockId}
    (hi : (x.func f).blocks[n]? = some b) (code : Opcode) (args : List (Option Operand))
    (targets : List (Option BlockId)) (hargs : ∀ v, some v ∉ args)
    (hbranches : ∀ (y : Graph) (u : OpId), (y.op u).code = code → (y.op u).args = args →
      (y.op u).targets = targets → y.Branches (x.func f).blocks n u) :
    ∃ y, (x.newOp code 0 args targets).1.append b [⟨x.ops.size⟩] = .ok y ∧
      Branched g₀ x₀ y f (n + 1) := by
  have hb := List.mem_of_getElem? hi
  have hempty := h.empty n b hi (Nat.le_refl n)
  have hsplit : (x.block b).ops = [] ++ [] := hempty
  obtain ⟨y, hok, hex, hap, hp⟩ := exists_placing h.exact h.apart (h.blockNew b hb)
    (fun v hv => absurd hv (hargs v)) hsplit code 0 targets
  have hfunc : y.func f = x.func f := hp.reworked.func f
  have hother : ∀ (i : Nat) c, (x.func f).blocks[i]? = some c → i ≠ n → c ≠ b := by
    rintro i c hc hin rfl
    exact hin ((List.getElem?_inj (List.getElem?_eq_some_iff.1 hc).1 h.blocksNodup).1
      (hc.trans hi.symm))
  refine ⟨y, ?_, h.toFresh.rework hp.reworked hap hex (hp.home h.home hb), ?_, ?_, ?_⟩
  · have hlist : ((x.newOp code 0 args targets).1.block b).ops = [] := hempty
    rw [Graph.append, hlist]
    exact hok
  · exact h.rework.trans hp.reworked
  · rw [hfunc]
    intro i c hc hin
    by_cases hin' : i = n
    · subst hin'
      obtain rfl := Option.some.inj (hi.symm.trans hc)
      refine ⟨⟨x.ops.size⟩, by rw [hp.block, if_pos rfl]; rfl, ?_⟩
      exact hbranches y _ hp.new_code hp.new_args hp.new_targets
    · obtain ⟨u, hops, hu⟩ := h.done i c hc (by omega)
      have hlt : u.idx < x.ops.size := h.exact.lt_size (b := c) (by simp [hops])
      have htargets := hp.targets_eq hlt
      refine ⟨u, by rw [hp.block, if_neg (hother i c hc hin'), hops], ?_, ?_, ?_⟩
      · exact hu.blank.congr (hp.code_eq hlt) (hp.args_eq hlt) htargets
      · rw [htargets]
        exact hu.forward
      · rw [htargets]
        exact hu.next
  · rw [hfunc]
    intro i c hc hin
    rw [hp.block, if_neg (hother i c hc (by omega))]
    exact h.empty i c hc (by omega)

theorem Branched.always_addTerminator {x₀ : Graph} {n : Nat} (h : Branched g₀ x₀ x f n)
    (hn : n < (x.func f).blocks.length) :
    Always (Generation.addTerminator (x.func f).blocks x n) (Branched g₀ x₀ · f (n + 1)) := by
  have hi := List.getElem?_eq_getElem hn
  have hget : (x.func f).blocks.getD n default = (x.func f).blocks[n] := by
    rw [List.getD_eq_getElem?_getD, hi]
    rfl
  have hlater : ∀ k, n < k → k < (x.func f).blocks.length →
      ∃ t, (x.func f).blocks[k]? = some t :=
    fun k _ hk => ⟨_, List.getElem?_eq_getElem hk⟩
  unfold Generation.addTerminator
  refine always_forward.bind fun ks hks => ?_
  rw [hget]
  rcases hks with ⟨rfl, hlast⟩ | ⟨rfl, hlt⟩ | ⟨j, rfl, hj, hlt⟩
  · obtain ⟨y, hok, hy⟩ := h.place hi .ret [none] [] (by simp) (by
      intro y u hcode hargs htargets
      refine ⟨.ret hcode hargs htargets, by simp [htargets], fun c hc => ?_⟩
      have := (List.getElem?_eq_some_iff.1 hc).1
      omega)
    exact Always.lift hok hy
  · obtain ⟨t, ht⟩ := hlater (n + 1) (by omega) hlt
    obtain ⟨y, hok, hy⟩ := h.place hi .br [] [some t] (by simp) (by
      intro y u hcode hargs htargets
      refine ⟨.br t hcode hargs htargets, fun t' ht' => ?_, fun c hc => ?_⟩
      · simp only [htargets, List.mem_cons, Option.some.injEq, List.not_mem_nil, or_false] at ht'
        exact ⟨n + 1, by omega, ht' ▸ ht⟩
      · simp [htargets, ← ht, hc])
    simp only [List.map_cons, List.map_nil, ht]
    exact Always.lift hok hy
  · obtain ⟨t, ht⟩ := hlater (n + 1) (by omega) (by omega)
    obtain ⟨e, he⟩ := hlater j (by omega) hlt
    obtain ⟨y, hok, hy⟩ := h.place hi .brif [none] [some t, some e] (by simp) (by
        intro y u hcode hargs htargets
        refine ⟨.brif t e hcode hargs htargets, fun t' ht' => ?_, fun c hc => ?_⟩
        · simp only [htargets, List.mem_cons, Option.some.injEq, List.not_mem_nil, or_false] at ht'
          rcases ht' with rfl | rfl
          · exact ⟨n + 1, by omega, ht⟩
          · exact ⟨j, by omega, he⟩
        · simp [htargets, ← ht, hc])
    simp only [List.map_cons, List.map_nil, ht, he]
    exact Always.lift hok hy

/-- A function in which all branches are made is a sketch. -/
theorem Branched.sketch {x₀ : Graph} {n : Nat} (h : Branched g₀ x₀ x f n)
    (hn : (x.func f).blocks.length ≤ n) :
    Sketch g₀ x f 0 ∧ x.numOps f = (x.func f).blocks.length := by
  have hdone : ∀ i b, (x.func f).blocks[i]? = some b →
      ∃ u, (x.block b).ops = [u] ∧ x.Branches (x.func f).blocks i u ∧ x.terminator? b = some u ∧
        (x.op u).code.isTerminator := by
    intro i b hi
    obtain ⟨u, hops, hu⟩ := h.done i b hi (by have := (List.getElem?_eq_some_iff.1 hi).1; omega)
    have hterm : (x.op u).code.isTerminator := hu.blank.isTerminator
    exact ⟨u, hops, hu, by simp [terminator?, hops, Option.filter, hterm], hterm⟩
  refine ⟨?sketch, ?count⟩
  case' sketch => constructor
  case toFresh => exact h.toFresh
  case ended =>
    intro b hb
    obtain ⟨i, hi⟩ := List.getElem?_of_mem hb
    obtain ⟨u, hops, -, -, hterm⟩ := hdone i b hi
    exact ⟨[], u, hops, hterm, by simp⟩
  case form =>
    intro i b hi u hu hor
    obtain ⟨u', hops, -, -, hterm⟩ := hdone i b hi
    rw [hops, List.mem_singleton] at hu
    simp [hu, hterm] at hor
  case blank =>
    intro i b u hi hu _
    obtain ⟨u', -, hbranches, hterm, -⟩ := hdone i b hi
    obtain rfl := Option.some.inj (hu.symm.trans hterm)
    exact hbranches.blank
  case guarded =>
    intro u hu
    obtain ⟨b, hb, hub⟩ := mem_opsOf.1 hu
    obtain ⟨i, hi⟩ := List.getElem?_of_mem hb
    obtain ⟨u', hops, -, -, hterm⟩ := hdone i b hi
    rw [hops, List.mem_singleton] at hub
    rw [← hub] at hterm
    exact .of_terminator hterm
  case forward =>
    intro i b hi u hu t ht
    obtain ⟨u', hops, hbranches, -, -⟩ := hdone i b hi
    rw [hops, List.mem_singleton] at hu
    exact hbranches.forward t (hu ▸ ht)
  case next =>
    intro i b c hi hc
    obtain ⟨u', -, hbranches, hterm, -⟩ := hdone i b hi
    exact ⟨u', hterm, hbranches.next c hc⟩
  case count =>
    have hone : ∀ b ∈ (x.func f).blocks, (x.block b).ops.length = 1 := by
      intro b hb
      obtain ⟨i, hi⟩ := List.getElem?_of_mem hb
      obtain ⟨u, hops, -⟩ := hdone i b hi
      rw [hops]
      rfl
    rw [Graph.numOps, opsOf, List.length_flatMap, List.map_congr_left hone]
    simp

/-- All blocks get their terminators. -/
theorem Outline.always_branch {fn : Func} {ps : Table Param} {names : List Bytes}
    (h : Outline g₀ x f fn ps names) :
    Always ((List.range (x.func f).blocks.length).foldlM
      (Generation.addTerminator (x.func f).blocks) x)
      (Branched g₀ x · f (x.func f).blocks.length) := by
  refine (Always.foldlM (I := fun rest y => ∃ done : List Nat,
    List.range (x.func f).blocks.length = done ++ rest ∧ Branched g₀ x y f done.length)
    ⟨[], rfl, h.branched⟩ ?_).mono ?_
  · rintro i rest y - ⟨done, hl, hy⟩
    have hlen : done.length < (x.func f).blocks.length := by
      have := congrArg List.length hl
      simp at this
      omega
    obtain rfl : i = done.length := by
      have hget := congrArg (·[done.length]?) hl
      simp only [List.getElem?_range hlen, List.getElem?_append_right
        (Nat.le_refl _), Nat.sub_self, List.getElem?_cons_zero, Option.some.injEq] at hget
      exact hget.symm
    have hblocks : (x.func f).blocks = (y.func f).blocks := by rw [hy.rework.func]
    rw [hblocks] at hlen ⊢
    refine (hy.always_addTerminator hlen).mono fun y' hy' => ⟨done ++ [done.length], ?_, ?_⟩
    · rw [← hblocks, hl]
      simp
    · rw [List.length_append]
      exact hy'
  · rintro y ⟨done, hl, hy⟩
    rw [List.append_nil] at hl
    rw [← hl, List.length_range] at hy
    exact hy

end Graph
end Disguise
