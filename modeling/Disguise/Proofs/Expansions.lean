import Disguise.Proofs.Visits
import Disguise.Proofs.Replacing

/-!
Rules as local rewrites. Applying a rule puts a chain right before an op and turns the users of the
op to the last op of the chain; nothing else is written. Run by itself, wherever the operands have
words of its width for values, the chain ends with what the op would have computed.
-/
namespace Disguise
open Results Execution Arithmetic Word

namespace Execution

theorem get?_setOp (env : Env) (o : OpId) (x : UInt64) (v : Operand) :
    (env.setOp o x).get? v = if v = .result o then some x else env.get? v := by
  cases v with
  | const c => rfl
  | param p => rfl
  | result u => simp only [Env.get?, Env.setOp, Table.get_set, OpId.idx_inj, Operand.result.injEq]

/-- A list of ops that is run to its end goes on with what follows it. -/
theorem runOps_append [FloatUnit] {g : Graph} {name : Bytes} {l : List OpId} {env env' : Env}
    {next next' : Option BlockId} {budget budget' : Budget}
    (h : runOps g name l env next budget = .leave env' next' budget') (more : List OpId) :
    runOps g name (l ++ more) env next budget = runOps g name more env' next' budget' := by
  induction l generalizing env next budget with
  | nil =>
    cases h
    rfl
  | cons o l ih =>
    simp only [List.cons_append, runOps] at h ⊢
    cases hspend : spend budget with
    | none => simp [hspend] at h
    | some left =>
      simp only [hspend] at h ⊢
      cases heffect : effect g name env o with
      | stop out => simp [heffect] at h
      | define v =>
        simp only [heffect] at h ⊢
        exact ih h
      | branch target =>
        simp only [heffect] at h ⊢
        exact ih h

end Execution

section
variable {g : Graph} {w : Nat} {x y : Operand} {first : Nat} {steps : List Step}
  {vals : List (Reading w)} {env : Env} {a b : BitVec w}

/-- The value of a term where the earlier steps have theirs. -/
theorem Term.Reads.get? {t : Term} {r : Reading w} (h : t.Reads vals r)
    (hx : env.get? x = some (ofBits a)) (hy : env.get? y = some (ofBits b))
    (hvals : ∀ i r, vals[i]? = some r → env.get? (.result ⟨first + i⟩) = some (ofBits (r a b))) :
    env.get? (t.operand x y first) = some (ofBits (r a b)) := by
  cases h with
  | left => exact hx
  | right => exact hy
  | const c => rfl
  | step h => exact hvals _ _ h

/-- An op that realizes a step defines what the step reads. -/
theorem Step.Reads.effect [FloatUnit] {s : Step} {r : Reading w} {o : OpId}
    (hw : goodWidth (w : Int))
    (h : s.Reads vals r) (hcode : (g.op o).code = s.code) (hbits : (g.op o).bits = w)
    (hargs : (g.op o).args = s.args.map fun t => some (t.operand x y first))
    (hget : ∀ t z, Term.Reads vals t z → env.get? (t.operand x y first) = some (ofBits (z a b)))
    (name : Bytes) : effect g name env o = .define (ofBits (r a b)) := by
  obtain ⟨w', heq, h1, h2⟩ := goodWidth_iff.1 hw
  obtain rfl : w = w' := by omega
  have harg : ∀ i t z, s.args[i]? = some t → t.Reads vals z →
      arg g env (g.op o) i = .ok (ofBits (z a b)) := by
    intro i t z hi ht
    simp [arg, hargs, hi, value, hget t z ht]
  cases h with
  | @binary code s t x' y' pure fst snd =>
    have hbinary := Rule.isBinary_of_replaceable pure
    have hunary : code.isUnary = false := Opcode.not_isUnary_of_isBinary hbinary
    have hterm : (g.op o).code.isTerminator = false := by
      rw [hcode]
      exact Opcode.not_isTerminator_of_isBinary hbinary
    apply (effect_of_compute name hterm).1
    simp only [compute, harg 0 s x' rfl fst, harg 1 t y' rfl snd, hcode, hbits, hunary,
      mapError_ok, ok_bind, Bool.false_eq_true, if_false]
    exact evalBinary_ofBits h1 h2 pure _ _
  | @not t x' ht =>
    apply (effect_of_compute name (by rw [hcode]; rfl)).1
    simp only [compute, harg 0 t x' rfl ht, hcode, hbits, mapError_ok, ok_bind]
    exact evalUnary_not_ofBits h1 h2 _
  | @neg t x' ht =>
    apply (effect_of_compute name (by rw [hcode]; rfl)).1
    simp only [compute, harg 0 t x' rfl ht, hcode, hbits, mapError_ok, ok_bind]
    exact evalUnary_neg_ofBits h1 h2 _

/-- Running the ops of a chain in order gives each of them what its step reads. -/
theorem Graph.Realizes.runOps [FloatUnit] (hw : goodWidth (w : Int))
    (hreads : Chain.Reads steps vals)
    (h : g.Realizes w x y first steps) (hx : env.get? x = some (ofBits a))
    (hy : env.get? y = some (ofBits b))
    (hold : ∀ i < steps.length, x ≠ .result ⟨first + i⟩ ∧ y ≠ .result ⟨first + i⟩)
    (name : Bytes) (next : Option BlockId) :
    ∃ env', runOps g name ((List.range steps.length).map fun i => ⟨first + i⟩) env next none =
        .leave env' next none ∧
      env'.get? x = some (ofBits a) ∧ env'.get? y = some (ofBits b) ∧
      ∀ i r, vals[i]? = some r → env'.get? (.result ⟨first + i⟩) = some (ofBits (r a b)) := by
  induction hreads with
  | nil => exact ⟨env, rfl, hx, hy, by simp⟩
  | @snoc steps vals s r before last ih =>
    obtain ⟨env', hrun, hx', hy', hvals⟩ := ih (fun i s hs => h i s (by
      rw [List.getElem?_append_left (List.getElem?_eq_some_iff.1 hs).1, hs]))
      fun i hi => hold i (by simp; omega)
    obtain ⟨hcode, hbits, hargs⟩ := h steps.length s (by simp)
    have hdefine := last.effect hw hcode hbits hargs (fun t z ht => ht.get? hx' hy' hvals) name
    obtain ⟨hxn, hyn⟩ := hold steps.length (by simp)
    have hlen := before.length_eq
    refine ⟨env'.setOp ⟨first + steps.length⟩ (ofBits (r a b)), ?_, ?_, ?_, fun i z hz => ?_⟩
    · rw [List.length_append, List.length_singleton, List.range_succ, List.map_append,
        runOps_append hrun]
      simp only [List.map_cons, List.map_nil, Execution.runOps, spend, hdefine]
    · rw [get?_setOp, if_neg hxn, hx']
    · rw [get?_setOp, if_neg hyn, hy']
    · rw [get?_setOp]
      by_cases hi : i < vals.length
      · rw [List.getElem?_append_left hi] at hz
        rw [if_neg, hvals i z hz]
        simp only [Operand.result.injEq, OpId.mk.injEq]
        omega
      · obtain rfl : i = steps.length := by
          have := (List.getElem?_eq_some_iff.1 hz).1
          simp at this
          omega
        obtain rfl : r = z := by simpa [← hlen] using hz
        rw [if_pos rfl]

end

namespace Graph

/-- `g'` is `g` with the ops `new` of width `w` in block `b`, right before `o`. In the operand slots
of attached ops `turned` has been applied, and nothing else that was there has changed. -/
structure Expanded (g g' : Graph) (b : BlockId) (o : OpId) (w : Nat) (new : List OpId)
    (last : OpId) (turned : Option Operand → Option Operand) : Prop where
  ends : new.getLast? = some last
  fresh : ∀ n ∈ new, g.ops.size ≤ n.idx
  width : ∀ n ∈ new, (g'.op n).bits = w
  owner : ∀ n ∈ new, (g'.op n).block = some b
  placed : ∃ pre post, (g.block b).ops = pre ++ o :: post ∧
    g'.block b = { g.block b with ops := pre ++ new ++ o :: post }
  others : ∀ c, c ≠ b → g'.block c = g.block c
  old : ∀ u, u.idx < g.ops.size → (g'.op u).bare = { (g.op u).bare with
    args := if (g.op u).block.isSome then (g.op u).args.map turned else (g.op u).args }
  param : ∀ p, (g'.param p).bare = (g.param p).bare
  funcs : g'.funcs = g.funcs
  modules : g'.modules = g.modules

/-- Running the ops `new`, wherever `x` and `y` have words of width `w` for values, gives the last
one the value of `f` for these. -/
def Leaves [FloatUnit] (g : Graph) (new : List OpId) (last : OpId) (w : Nat) (x y : Operand)
    (f : UInt64 → UInt64 → Except Fault UInt64) : Prop :=
  ∀ env m n, env.get? x = some m → env.get? y = some n → m.toNat < 2 ^ w → n.toNat < 2 ^ w →
    ∀ name next, ∃ env' z, runOps g name new env next none = .leave env' next none ∧
      env'.get? (.result last) = some z ∧ f m n = .ok z

variable {g g' : Graph} {waiting : BlockId → List OpId} {b : BlockId} {o : OpId} {w : Nat}
  {x y : Operand} {c : Chain} {vals : List (Reading w)} {z : Reading w}

/-- Detached ops at the end of the table are no part of what is exact. -/
theorem Exact.extended {bits : Int} {steps : List Step} (h : g.Exact waiting)
    (hext : Extended g g' bits x y steps) : g'.Exact waiting := by
  have hnone : ∀ u ∈ g.fresh steps.length, g.op u = default := fun u hu =>
    g.ops.get_of_size_le (mem_fresh.1 hu).1
  refine h.congr (fun v _ u => ?_) (fun u => ?_) (fun u hu v => ?_) fun b => ?_
  · cases v with
    | const c => rfl
    | param p => rw [recorded, recorded, Graph.param, Graph.param, hext.params]
    | result q =>
      rw [recorded, recorded]
      by_cases hq : q ∈ g.fresh steps.length
      · obtain ⟨s, hs⟩ := hext.exists_step hq
        rw [hs, hnone q hq]
        rfl
      · rw [hext.old q hq]
  · by_cases hu : u ∈ g.fresh steps.length
    · obtain ⟨s, hs⟩ := hext.exists_step hu
      rw [hs, hnone u hu]
      rfl
    · rw [hext.old u hu]
  · have hnot : u ∉ g.fresh steps.length := by
      intro hmem
      rw [hnone u hmem] at hu
      cases hu
    rw [slots, slots, hext.old u hnot]
  · rw [Graph.block, Graph.block, hext.blocks]

theorem Extended.loose {bits : Int} {steps : List Step} (h : Extended g g' bits x y steps) :
    g'.Loose (g.fresh steps.length) := by
  refine ⟨nodup_fresh g _, fun u hu => ?_⟩
  obtain ⟨s, hs⟩ := h.exists_step hu
  rw [hs]

theorem not_mem_fresh {n : Nat} {u : OpId} (hu : u.idx < g.ops.size) : u ∉ g.fresh n := by
  intro hmem
  have hle := (mem_fresh.1 hmem).1
  omega

/-- A block that gets the ops of a chain which belong to it. -/
theorem Attached.expanded {steps : List Step} {n : Nat} {pre post : List OpId}
    (h : Attached g g' b w x y steps) (hsplit : (g.block b).ops = pre ++ o :: post)
    (hlen : steps.length = n + 1) :
    g.Expanded (g'.modifyBlock b fun bl => { bl with
      ops := bl.ops.take pre.length ++ g.fresh steps.length ++ bl.ops.drop pre.length })
      b o w (g.fresh steps.length) ⟨g.ops.size + n⟩ id := by
  have hblock : ∀ d, g'.block d = g.block d := fun d => congrArg (·.get d.idx) h.blocks
  constructor
  · rw [hlen, fresh, List.range_succ]
    simp
  · exact fun u hu => (mem_fresh.1 hu).1
  · intro u hu
    obtain ⟨hle, hlt⟩ := mem_fresh.1 hu
    have hget := List.getElem?_eq_getElem (l := steps) (i := u.idx - g.ops.size) (by omega)
    have hbits := (h.realizes _ _ hget).2.1
    rwa [show g.ops.size + (u.idx - g.ops.size) = u.idx by omega] at hbits
  · exact h.owner
  · refine ⟨pre, post, hsplit, ?_⟩
    rw [block_modifyBlock, if_pos rfl, hblock, hsplit]
    simp
  · intro d hd
    rw [block_modifyBlock, if_neg hd, hblock]
  · intro u hu
    rw [op_modifyBlock, h.old u (not_mem_fresh hu), List.map_id]
    split <;> rfl
  · exact h.param
  · exact h.funcs
  · exact h.modules

/-- The ops of a chain may be placed before an op. -/
theorem Exact.exists_expanded (h : g.Exact waiting) (ho : o ∈ (g.block b).ops)
    (hreads : Chain.Reads c.steps (vals ++ [z])) (hresult : c.result = .step vals.length)
    (x y : Operand) : ∃ g₁ g₂ new,
      Substitution.create g w (some x) (some y) c =
        (g₁, new, some (.result ⟨g.ops.size + vals.length⟩)) ∧
      g₁.insertBefore b o new = .ok g₂ ∧ g₂.Exact waiting ∧ new = g.fresh c.steps.length ∧
      g.Expanded g₂ b o w new ⟨g.ops.size + vals.length⟩ id ∧
      g₂.Realizes w x y g.ops.size c.steps := by
  obtain ⟨g₁, hcreate, hext⟩ := Substitution.create_eq g w x y c
  obtain ⟨gₐ, hattach, hatt⟩ := hext.attach b
  have hlen : c.steps.length = vals.length + 1 := by simpa using hreads.length_eq.symm
  have hlist : (g₁.block b).ops = (g.block b).ops := by
    rw [Graph.block, Graph.block, hext.blocks]
  obtain ⟨pre, post, hsplit⟩ := List.append_of_mem ho
  have hplace : g₁.placeIn b o = .ok pre.length := by
    refine placeIn_eq ?_ (hlist.trans hsplit) (not_mem_of_nodup (h.nodup b) hsplit).1
    rw [hext.old o (not_mem_fresh (h.lt_size ho))]
    exact h.block_of_mem ho
  obtain ⟨g₂, hinsert, hexact⟩ := (h.extended hext).insertBefore hext.loose (hlist ▸ ho)
  have hg₂ : gₐ.modifyBlock b (fun bl => { bl with
      ops := bl.ops.take pre.length ++ g.fresh c.steps.length ++ bl.ops.drop pre.length }) =
      g₂ := by
    simp only [Graph.insertBefore, Graph.insertAt, hplace, hattach, ok_bind] at hinsert
    exact Except.ok.inj hinsert
  refine ⟨g₁, g₂, _, ?_, hinsert, hexact, rfl, ?_, ?_⟩
  · rw [hcreate, hresult]
    rfl
  · rw [← hg₂]
    exact hatt.expanded hsplit hlen
  · rw [← hg₂]
    exact hatt.realizes

theorem count_turn {v : Option Operand} (hv : v ≠ some (.result o))
    (args : List (Option Operand)) :
    (args.map (turn o v)).count (some (.result o)) = 0 := by
  rw [List.count_eq_zero]
  intro hmem
  obtain ⟨a, -, ha⟩ := List.mem_map.1 hmem
  unfold turn at ha
  split at ha
  · exact hv ha
  · rename_i hne
    exact hne ha

/-- Turning operands writes operands and use sets only. -/
theorem Expanded.retuned {g₂ g₃ : Graph} {new : List OpId} {last : OpId} {v : Option Operand}
    (h : g.Expanded g₂ b o w new last id)
    (hre : g₂.Retuned g₃ fun u =>
      if (g₂.op u).block.isSome then (g₂.op u).args.map (turn o v) else (g₂.op u).args) :
    g.Expanded g₃ b o w new last (turn o v) := by
  have hblock : ∀ d, g₃.block d = g₂.block d := fun d => congrArg (·.get d.idx) hre.blocks
  constructor
  · exact h.ends
  · exact h.fresh
  · exact fun n hn => (congrArg Op.bits (hre.op n)).trans (h.width n hn)
  · exact fun n hn => (congrArg Op.block (hre.op n) :).trans (h.owner n hn)
  · rw [hblock]
    exact h.placed
  · exact fun d hd => (hblock d).trans (h.others d hd)
  · intro u hu
    have hold := h.old u hu
    have hargs : (g₂.op u).args = (g.op u).args := by
      have := congrArg Op.args hold
      simpa [Op.bare] using this
    have hplace : (g₂.op u).block = (g.op u).block := (congrArg Op.block hold :)
    rw [hre.op u, hold, hargs, hplace]
  · exact fun p => (hre.param p).trans (h.param p)
  · exact hre.funcs.trans h.funcs
  · exact hre.modules.trans h.modules

/-- After a chain has been placed the users of the op can be turned to its last op. The chain itself
reads on what it did, as long as the op is none of its operands. -/
theorem Expanded.exists_turned {g₂ : Graph} {steps : List Step} {last : OpId}
    (hexp : g.Expanded g₂ b o w (g.fresh steps.length) last id) (hex : g₂.Exact waiting)
    (hr : g₂.Realizes w x y g.ops.size steps) (ho : o.idx < g.ops.size) (hxo : x ≠ .result o)
    (hyo : y ≠ .result o) : ∃ g₃, g₂.replaceAllUses o (some (.result last)) = .ok g₃ ∧
      g₃.Exact waiting ∧
      g.Expanded g₃ b o w (g.fresh steps.length) last (turn o (some (.result last))) ∧
      g₃.Realizes w x y g.ops.size steps ∧ (g₃.op o).uses = .empty := by
  have hne : some (Operand.result last) ≠ some (.result o) := by
    intro heq
    have := hexp.fresh last (List.mem_of_getLast? hexp.ends)
    rw [Operand.result.inj (Option.some.inj heq)] at this
    omega
  obtain ⟨g₃, hok, hre⟩ := hex.exists_retuned hne
  have hex₃ : g₃.Exact waiting := by
    refine hex.retuned hre fun u hu => ?_
    rw [hu]
    rfl
  have howner : ∀ u, (g₃.op u).block = (g₂.op u).block :=
    fun u => (congrArg Op.block (hre.op u) :)
  have hsame : ∀ u, (g₃.op u).code = (g₂.op u).code ∧ (g₃.op u).bits = (g₂.op u).bits :=
    fun u => ⟨(congrArg Op.code (hre.op u) :), (congrArg Op.bits (hre.op u) :)⟩
  refine ⟨g₃, hok, hex₃, hexp.retuned hre, fun i s hs => ?_, UseSet.eq_of_count fun u => ?_⟩
  · obtain ⟨hcode, hbits, hargs⟩ := hr i s hs
    refine ⟨(hsame _).1.trans hcode, (hsame _).2.trans hbits, ?_⟩
    have hzero := List.count_eq_zero.2 (hr.not_mem_args ho hxo hyo hs)
    rw [hre.args_eq, map_turn_of_count hzero, ite_self, hargs]
  · show g₃.recorded (.result o) u = 0
    rw [hex₃.uses (.result o) trivial u]
    split
    · rename_i hu
      rw [slots, hre.args_eq, if_pos (howner u ▸ hu), count_turn hne]
    · rfl

/-- Operands of a proper width are there already. -/
theorem ne_of_width {v : Operand} {u : OpId} (hw : 0 < w) (hv : g.width v = w)
    (hu : g.ops.size ≤ u.idx) : v ≠ .result u := by
  rintro rfl
  have hnone : g.op u = default := g.ops.get_of_size_le hu
  rw [width, hnone] at hv
  have hbits : (default : Op).bits = 0 := rfl
  omega

theorem Realizes.leaves [FloatUnit] {steps : List Step} {f : UInt64 → UInt64 → Except Fault UInt64}
    (h1 : 0 < w) (h2 : w ≤ 64) (hx : g.width x = w) (hy : g.width y = w)
    (hr : g'.Realizes w x y g.ops.size steps) (hreads : Chain.Reads steps (vals ++ [z]))
    (hf : ∀ a b : BitVec w, f (ofBits a) (ofBits b) = .ok (ofBits (z a b))) :
    g'.Leaves (g.fresh steps.length) ⟨g.ops.size + vals.length⟩ w x y f := by
  intro env m n hm hn hmlt hnlt name next
  have hw : goodWidth (w : Int) := goodWidth_iff.2 ⟨w, rfl, h1, h2⟩
  have hback : ∀ v : UInt64, v.toNat < 2 ^ w → ofBits (toBits w v) = v := fun v hv =>
    ofBits_toBits h2 ((fits_iff hw).2 (by simpa using hv))
  have hold : ∀ i < steps.length, x ≠ .result ⟨g.ops.size + i⟩ ∧ y ≠ .result ⟨g.ops.size + i⟩ :=
    fun i _ => ⟨ne_of_width h1 hx (Nat.le_add_right _ _), ne_of_width h1 hy (Nat.le_add_right _ _)⟩
  have hx' : env.get? x = some (ofBits (toBits w m)) := by rw [hm, hback m hmlt]
  have hy' : env.get? y = some (ofBits (toBits w n)) := by rw [hn, hback n hnlt]
  obtain ⟨env', hrun, -, -, hvals⟩ := hr.runOps hw hreads hx' hy' hold name next
  refine ⟨env', _, hrun, hvals vals.length z (by simp), ?_⟩
  rw [← hf, hback m hmlt, hback n hnlt]

end Graph

namespace Substitution
open Disguise.Graph

/-- Op `o` of block `b`, which has the code `code` and the operands `x` and `y`, has been replaced
by a chain of `n` ops. -/
def Rewritten [FloatUnit] (g g' : Graph) (waiting : BlockId → List OpId) (b : BlockId) (o : OpId)
    (w : Nat) (x y : Operand) (code : Opcode) (n : Nat) : Prop :=
  ∃ new last, new.length = n ∧ g'.Exact waiting ∧
    g.Expanded g' b o w new last (turn o (some (.result last))) ∧ (g'.op o).uses = .empty ∧
    g'.Leaves new last w x y (evalBinary code w)

/-- A gate that computes `f` of `x` and `y` has been placed before op `o` of block `b`. -/
def Gated [FloatUnit] (g g' : Graph) (waiting : BlockId → List OpId) (b : BlockId) (o : OpId)
    (w : Nat) (x y : Operand) (f : UInt64 → UInt64 → UInt64) (result : Option Operand) : Prop :=
  ∃ new last, result = some (.result last) ∧ g'.Exact waiting ∧ g.Expanded g' b o w new last id ∧
    g'.Leaves new last w x y fun m n => .ok (f m n)

section
variable {g : Graph} {waiting : BlockId → List OpId} {b : BlockId} {o : OpId} {w : Nat}
  {x y : Operand} {rule : Rule} (h : g.Exact waiting) (ho : o ∈ (g.block b).ops) (h1 : 0 < w)
  (h2 : w ≤ 64) (hx : g.width x = w) (hy : g.width y = w)
include h ho h1 h2 hx hy

variable [FloatUnit]

theorem always_applyAt (hrule : rule ∈ Rule.catalog) (hcode : (g.op o).code = rule.code)
    (hbits : (g.op o).bits = w) (hargs : (g.op o).args = [some x, some y]) (hxo : x ≠ .result o)
    (hyo : y ≠ .result o) (expand : Bool) : Always (applyAt rule g b o expand) fun r =>
      ∃ g' n, r = some (g', n) ∧ Rewritten g g' waiting b o w x y rule.code n := by
  obtain ⟨code, -, htable⟩ := List.mem_flatMap.1 hrule
  obtain rfl : rule.code = code := Rule.code_of_table htable
  have hw : goodWidth (w : Int) := goodWidth_iff.2 ⟨w, rfl, h1, h2⟩
  have hfits : fits rule (g.op o) = true := by
    simp [fits, hcode, hargs, h.block_of_mem ho]
  unfold applyAt prepare
  rw [if_neg (by simp [hfits])]
  simp only [hbits, hargs, List.getD_cons_zero, List.getD_cons_succ, bind_assoc]
  apply (Chain.always_ends (Chain.Gives.of_table hw expand htable)).bind
  rintro c ⟨vals, hreads, hresult⟩
  obtain ⟨g₁, g₂, _, hcreate, hinsert, hex₂, rfl, hexp, hr⟩ :=
    h.exists_expanded ho hreads hresult x y
  obtain ⟨g₃, hreplace, hex₃, hexp₃, hr₃, huses⟩ :=
    hexp.exists_turned hex₂ hr (h.lt_size ho) hxo hyo
  simp only [pure_bind, hcreate]
  apply (Always.lift hinsert (P := fun r => r = g₂) rfl).bind
  rintro _ rfl
  apply (Always.lift hreplace (P := fun r => r = g₃) rfl).bind
  rintro _ rfl
  have hleaves := hr₃.leaves h1 h2 hx hy hreads
    fun a b => evalBinary_ofBits h1 h2 (Rule.mem_replaceable htable) a b
  exact .pure ⟨_, _, rfl, _, _, rfl, hex₃, hexp₃, huses, hleaves⟩

theorem always_buildGate {build : Term → Term → Chain.Build Term} {z : Reading w}
    {f : UInt64 → UInt64 → UInt64}
    (hgives : Chain.Gives false true (Chain.operands w) (build .left .right) z)
    (hf : ∀ a b : BitVec w, f (ofBits a) (ofBits b) = ofBits (z a b)) :
    Always (buildGate build g (some x) (some y) o) fun r =>
      Gated g r.1 waiting b o w x y f r.2 := by
  unfold buildGate
  simp only [h.block_of_mem ho, hx]
  apply (Chain.always_ends hgives).bind
  rintro c ⟨vals, hreads, hresult⟩
  obtain ⟨g₁, g₂, _, hcreate, hinsert, hex₂, rfl, hexp, hr⟩ :=
    h.exists_expanded ho hreads hresult x y
  simp only [hcreate]
  apply (Always.lift hinsert (P := fun r => r = g₂) rfl).bind
  rintro _ rfl
  exact .pure ⟨_, _, rfl, hex₂, hexp,
    hr.leaves h1 h2 hx hy hreads fun a b => congrArg Except.ok (hf a b)⟩

/-- Every rule of the catalog is a local rewrite that computes the same word at every width,
whatever is chosen, on the spot or through an editor, with and without the operations for complement
and negation. The gates compute the complements of `x | y` and `x & y` in both forms. -/
theorem rewrites_locally :
    (∀ rule ∈ Rule.catalog, (g.op o).code = rule.code → (g.op o).bits = w →
      (g.op o).args = [some x, some y] → x ≠ .result o → y ≠ .result o →
        (Always (apply rule g o) fun r => ∃ g' n, r = some g' ∧
          Rewritten g g' waiting b o w x y rule.code n) ∧
        ∀ expand,
          (Always (applyAt rule g b o expand) fun r => ∃ g' n, r = some (g', n) ∧
            Rewritten g g' waiting b o w x y rule.code n) ∧
          ∀ e s, Editor.AtWork e s → e.block = b → o ∈ (s.block b).ops → e.settle s = g →
            Always (applyQueued rule e s o expand) fun r => ∃ e' s' n, r = some (e', s', n) ∧
              Rewritten g (e'.settle s') waiting b o w x y rule.code n) ∧
    (Always (buildNor g (some x) (some y) o) fun r =>
      Gated g r.1 waiting b o w x y (fun m n => Word.low (~~~ (m ||| n)) w) r.2) ∧
    Always (buildNand g (some x) (some y) o) fun r =>
      Gated g r.1 waiting b o w x y (fun m n => Word.low (~~~ (m &&& n)) w) r.2 := by
  have hw : goodWidth (w : Int) := goodWidth_iff.2 ⟨w, rfl, h1, h2⟩
  refine ⟨fun rule hrule hcode hbits hargs hxo hyo => ?_, ?_, ?_⟩
  · have hat := always_applyAt h ho h1 h2 hx hy hrule hcode hbits hargs hxo hyo
    refine ⟨?_, fun expand => ⟨hat expand, ?_⟩⟩
    · unfold apply
      simp only [h.block_of_mem ho]
      apply (hat false).bind
      rintro _ ⟨g', n, rfl, hr⟩
      exact .pure ⟨g', n, rfl, hr⟩
    · rintro e s hwork rfl hos rfl
      apply ((together_applied hwork hos rule expand).always (hat expand)).mono
      rintro _ ⟨_, happlied, g', n, rfl, hr⟩
      cases happlied with
      | done _ block work blocks => exact ⟨_, _, _, rfl, hr⟩
  · apply always_buildGate h ho h1 h2 hx hy (Chain.Gives.nor hw)
    intro a b
    rw [low_eq_ofBits _ h2]
    simp [toBits, ofBits, BitVec.setWidth_not h2, BitVec.setWidth_setWidth_of_le, h2]
  · apply always_buildGate h ho h1 h2 hx hy (Chain.Gives.nand hw)
    intro a b
    rw [low_eq_ofBits _ h2]
    simp [toBits, ofBits, BitVec.setWidth_not h2, BitVec.setWidth_setWidth_of_le, h2]

end

/-- The sum of a byte with itself is rewritten by every rule for sums, and a gate is placed before
it. -/
theorem rewrites_locally_double : ∃ g : Graph,
    (∀ rule ∈ Rule.table .add, Always (apply rule g ⟨1⟩) fun r => ∃ g' n, r = some g' ∧
      Rewritten g g' (fun _ => []) ⟨0⟩ ⟨1⟩ 8 (.result ⟨0⟩) (.result ⟨0⟩) .add n) ∧
    Always (buildNor g (some (.result ⟨0⟩)) (some (.result ⟨0⟩)) ⟨1⟩) fun r =>
      Gated g r.1 (fun _ => []) ⟨0⟩ ⟨1⟩ 8 (.result ⟨0⟩) (.result ⟨0⟩)
        (fun m n => Word.low (~~~ (m ||| n)) 8) r.2 := by
  obtain ⟨g, hexact, hlist, -, -, hwidth, hcode, hbits, hargs⟩ := exists_laid
  obtain ⟨hrules, hnor, -⟩ := rewrites_locally hexact (b := ⟨0⟩) (o := ⟨1⟩) (w := 8)
    (by simp [hlist]) (by decide) (by decide) (x := .result ⟨0⟩) (y := .result ⟨0⟩) hwidth hwidth
  refine ⟨g, fun rule hrule => ?_, hnor⟩
  have hmem : rule ∈ Rule.catalog := List.mem_flatMap.2 ⟨.add, by decide, hrule⟩
  have hadd : rule.code = .add := Rule.code_of_table hrule
  obtain ⟨hsum, -⟩ := hrules rule hmem (hcode.trans hadd.symm) hbits hargs (by decide) (by decide)
  rw [hadd] at hsum
  exact hsum

example : Rule.catalog.length = 33 := by decide

end Substitution
end Disguise
