import Disguise.Proofs.Queues
import Disguise.Proofs.Rewriting
import Disguise.Proofs.Simulation
import Disguise.Proofs.Weaving
import Disguise.Substitution.Apply

/-!
Replacing one op. The chain of a rule is created, queued before the op and given its users. In the
settled graph these are an insertion and a redirection, so the function stays well-formed and runs
as it did.
-/
namespace Disguise
open Arithmetic Execution Word

namespace Graph
variable {g g' g'' : Graph} {f : FuncId} {b : BlockId} {o n : OpId} {new pre post gone : List OpId}

/-- Function `f` of `g` became that of `g'`, which is well-formed and runs in the same way, and
nothing else was written. -/
structure Transformed [FloatUnit] (g g' : Graph) (f : FuncId) : Prop where
  wellFormed : g'.WellFormed f
  frame : Frame g g' f
  listed : g.TargetsListed f → g'.TargetsListed f
  simulates : ∀ env, g.ParamsFit f env → Simulates g g' f env

theorem ParamsFit.frame {env : Env} (h : g.ParamsFit f env) (hf : Frame g g' f) :
    g'.ParamsFit f env := by
  intro p hp
  rw [hf.func] at hp
  obtain ⟨x, hx, hfit⟩ := h p hp
  exact ⟨x, hx, by rwa [(hf.heads f).paramBits p hp]⟩

theorem Transformed.refl [FloatUnit] (wf : g.WellFormed f) : Transformed g g f :=
  ⟨wf, .refl g f, fun h => h, fun env _ => .refl g f env⟩

theorem Transformed.trans [FloatUnit] (h : Transformed g g' f) (h' : Transformed g' g'' f) :
    Transformed g g'' f where
  wellFormed := h'.wellFormed
  frame := h.frame.trans h'.frame
  listed ht := h'.listed (h.listed ht)
  simulates env hp :=
    (h.simulates env hp).trans (h'.simulates env (hp.frame h.frame)) (h.frame.func f)

/-- Every op of function `f` is still there, with its code. -/
def Keeps (g g' : Graph) (f : FuncId) : Prop :=
  ∀ u ∈ g.opsOf f, u ∈ g'.opsOf f ∧ (g'.op u).code = (g.op u).code

theorem Keeps.trans (h : Keeps g g' f) (h' : Keeps g' g'' f) : Keeps g g'' f := by
  intro u hu
  obtain ⟨hmem, hcode⟩ := h u hu
  obtain ⟨hmem', hcode'⟩ := h' u hmem
  exact ⟨hmem', hcode'.trans hcode⟩

theorem Inserted.keeps (h : Inserted g g' f b o new pre post) (wf : g.WellFormed f) :
    Keeps g g' f :=
  fun _ hu => ⟨h.mem_opsOf.2 (.inl hu), h.code_eq (h.not_mem_new wf hu)⟩

theorem Redirected.keeps (h : Redirected g g' f o n) : Keeps g g' f :=
  fun u hu => ⟨by rwa [h.opsOf_eq], h.code_eq u⟩

/-- New ops do not read an op that nothing reads unless they say so. -/
theorem Inserted.unused {p : OpId} (h : Inserted g g' f b o new pre post) (wf : g.WellFormed f)
    (hnew : ∀ n ∈ new, some (.result p) ∉ (g'.op n).args) (hp : g.Unused f p) : g'.Unused f p := by
  intro u hu
  rcases h.mem_opsOf.1 hu with hold | hn
  · rw [slots, h.args_eq (h.not_mem_new wf hold)]
    exact hp u hold
  · exact List.count_eq_zero.2 (hnew u hn)

/-- Nothing reads an op whose users have been turned away. -/
theorem Redirected.unused {p : OpId} (h : Redirected g g' f o n) (hne : p ≠ n)
    (hp : p = o ∨ g.Unused f p) : g'.Unused f p := by
  intro u hu
  rw [h.opsOf_eq] at hu
  rw [slots, h.args_eq hu, List.count_eq_zero]
  intro hmem
  obtain ⟨v, hv, hturned⟩ := List.mem_map.1 hmem
  obtain ⟨v, rfl, heq⟩ := Option.map_eq_some_iff.1 hturned
  by_cases hvo : v = .result o
  · rw [redirect₁, if_pos hvo] at heq
    cases heq
    exact hne rfl
  · rw [redirect₁, if_neg hvo] at heq
    subst heq
    have hun := hp.resolve_left fun heq => hvo (by rw [heq])
    exact List.count_eq_zero.1 (hun u hu) hv

variable [FloatUnit]

theorem Inserted.transformed (h : Inserted g g' f b o new pre post) (wf : g.WellFormed f)
    (hnew : ∀ env, g'.ParamsFit f env → ∀ z, Denotes g' env (.result o) z →
      ∀ n ∈ new, ∃ z, Denotes g' env (.result n) z) : Transformed g g' f where
  wellFormed := h.wellFormed wf
  frame := h.frame wf
  listed ht := by
    intro u hu t hmem
    rw [h.func]
    rcases h.mem_opsOf.1 hu with hold | hn
    · rw [h.targets_eq (h.not_mem_new wf hold)] at hmem
      exact ht u hold t hmem
    · obtain ⟨done, rest, hsplit⟩ := List.append_of_mem hn
      cases h.form done u rest hsplit with
      | binary _ _ _ _ targets => simp [targets] at hmem
      | unary _ _ _ targets => simp [targets] at hmem
  simulates env hp := h.simulates wf hp (hnew env (hp.frame (h.frame wf)))

theorem Redirected.transformed (h : Redirected g g' f o n) (wf : g.WellFormed f)
    (hn : ∀ env, g'.ParamsFit f env → ∀ z, Denotes g' env (.result o) z →
      Denotes g' env (.result n) z) : Transformed g g' f where
  wellFormed := h.wellFormed wf
  frame := h.frame wf
  listed ht := by
    intro u hu t hmem
    rw [h.func]
    rw [h.opsOf_eq] at hu
    rw [h.targets_eq] at hmem
    exact ht u hu t hmem
  simulates env hp := h.simulates (hn env (hp.frame (h.frame wf)))

theorem Swept.transformed (h : Swept g g' f gone) (wf : g.WellFormed f) : Transformed g g' f where
  wellFormed := h.wellFormed wf
  frame := h.frame wf
  listed ht := by
    intro u hu t hmem
    rw [h.func]
    rw [h.targets_eq] at hmem
    exact ht u (h.mem_opsOf.1 hu).1 t hmem
  simulates env hp := h.simulates wf hp

end Graph

/-- A chain whose operands are redirected is a chain on the redirected operands. -/
theorem Graph.Realizes.redirected {g g' : Graph} {f : FuncId} {o n : OpId} {bits : Int}
    {x y : Operand} {first : Nat} {steps : List Step} (hr : g.Realizes bits x y first steps)
    (h : Graph.Redirected g g' f o n) (hlt : o.idx < first)
    (hmem : ∀ i s, steps[i]? = some s → ⟨first + i⟩ ∈ g.opsOf f) :
    g'.Realizes bits (Graph.redirect₁ o n x) (Graph.redirect₁ o n y) first steps := by
  intro i s hs
  obtain ⟨hcode, hbits, hargs⟩ := hr i s hs
  refine ⟨(h.code_eq _).trans hcode, (h.bits_eq _).trans hbits, ?_⟩
  rw [h.args_eq (hmem i s hs), hargs, List.map_map]
  apply List.map_congr_left
  intro t _
  cases t with
  | left => rfl
  | right => rfl
  | const c => simp [Term.operand, Graph.redirect₁]
  | step j =>
    have hne : (⟨first + j⟩ : OpId) ≠ o := by
      rintro rfl
      dsimp only at hlt
      omega
    simp [Term.operand, Graph.redirect₁, hne]

/-- A chain reads nothing but the operands it is for and itself. -/
theorem Graph.Realizes.not_mem_args {g : Graph} {bits : Int} {x y : Operand} {first : Nat}
    {steps : List Step} (hr : g.Realizes bits x y first steps) {p : OpId} (hp : p.idx < first)
    (hx : x ≠ .result p) (hy : y ≠ .result p) {i : Nat} {s : Step} (hs : steps[i]? = some s) :
    some (.result p) ∉ (g.op ⟨first + i⟩).args := by
  obtain ⟨-, -, hargs⟩ := hr i s hs
  rw [hargs]
  intro hmem
  obtain ⟨t, -, ht⟩ := List.mem_map.1 hmem
  have ht := Option.some.inj ht
  cases t with
  | left => exact hx ht
  | right => exact hy ht
  | const c => cases ht
  | step j =>
    cases ht
    dsimp only at hp
    omega

section
variable {w : Nat} {steps : List Step} {vals : List (Reading w)}

/-- Each step of a chain reads what comes before it. -/
theorem Chain.Reads.step_at (h : Chain.Reads steps vals) {i : Nat} {s : Step}
    (hs : steps[i]? = some s) : ∃ x, s.Reads (vals.take i) x := by
  induction h with
  | nil => simp at hs
  | @snoc steps vals s' x before last ih =>
    have hlen := before.length_eq
    by_cases hi : i < steps.length
    · rw [List.getElem?_append_left hi] at hs
      rw [List.take_append_of_le_length (by omega)]
      exact ih hs
    · obtain rfl : i = steps.length := by
        have := (List.getElem?_eq_some_iff.1 hs).1
        simp at this
        omega
      obtain rfl : s' = s := by simpa using hs
      rw [List.take_append_of_le_length (by omega), ← hlen, List.take_length]
      exact ⟨x, last⟩

/-- What a step of a chain reads of the chain stands before it. -/
theorem Chain.Reads.lt_of_step (h : Chain.Reads steps vals) {i j : Nat} {s : Step}
    (hs : steps[i]? = some s) (hj : .step j ∈ s.args) : j < i := by
  obtain ⟨x, hx⟩ := h.step_at hs
  have hterm : ∀ {y : Reading w}, Term.Reads (vals.take i) (.step j) y → j < i := by
    rintro y (_ | _ | _ | hget)
    have hlt := (List.getElem?_eq_some_iff.1 hget).1
    rw [List.length_take] at hlt
    omega
  cases hx with
  | binary pure fst snd =>
    simp only [List.mem_cons, List.not_mem_nil, or_false] at hj
    rcases hj with rfl | rfl
    · exact hterm fst
    · exact hterm snd
  | not arg =>
    cases List.mem_singleton.1 hj
    exact hterm arg
  | neg arg =>
    cases List.mem_singleton.1 hj
    exact hterm arg

/-- A step has a replaceable code, or it is a complement or a negation that is not written out. -/
theorem Chain.Woven.code_of_step {expand : Bool} {c : Chain} (h : Chain.Woven expand c)
    (hreads : Chain.Reads c.steps vals) {i : Nat} {s : Step} (hs : c.steps[i]? = some s) :
    s.code ∈ Rule.replaceable ∨ expand = false ∧ s.code ∈ [Opcode.not, .neg] := by
  obtain ⟨z, hz⟩ := hreads.step_at hs
  cases expand with
  | true => exact .inl (h.plain rfl s (List.mem_of_getElem? hs))
  | false =>
    cases hz with
    | binary pure _ _ => exact .inl pure
    | not _ => exact .inr ⟨rfl, by simp⟩
    | neg _ => exact .inr ⟨rfl, by simp⟩

end

namespace Graph

/-- The ops that a chain of the given length gets in a graph. -/
def fresh (g : Graph) (n : Nat) : List OpId := (List.range n).map fun i => ⟨g.ops.size + i⟩

theorem mem_fresh {g : Graph} {n : Nat} {u : OpId} :
    u ∈ g.fresh n ↔ g.ops.size ≤ u.idx ∧ u.idx < g.ops.size + n := by
  simp only [fresh, List.mem_map, List.mem_range]
  constructor
  · rintro ⟨i, hi, rfl⟩
    dsimp only
    omega
  · rintro ⟨hle, hlt⟩
    refine ⟨u.idx - g.ops.size, by omega, ?_⟩
    rw [← OpId.idx_inj]
    dsimp only
    omega

theorem fresh_mem (g : Graph) {i n : Nat} (h : i < n) : ⟨g.ops.size + i⟩ ∈ g.fresh n :=
  List.mem_map_of_mem (List.mem_range.2 h)

theorem nodup_fresh (g : Graph) (n : Nat) : (g.fresh n).Nodup := by
  refine List.Nodup.map (fun i j hij => ?_) List.nodup_range
  simpa using hij

/-- What stands before a new op are the new ops with smaller numbers. -/
theorem fresh_split {g : Graph} {n : Nat} {done rest : List OpId} {u : OpId}
    (h : g.fresh n = done ++ u :: rest) :
    done.length < n ∧ u = ⟨g.ops.size + done.length⟩ ∧ done = g.fresh done.length := by
  have hlen : done.length < n := by
    have := congrArg List.length h
    simp [fresh] at this
    omega
  have hget : (g.fresh n)[done.length]? = some u := by simp [h]
  have htake : (g.fresh n).take done.length = done := by simp [h]
  refine ⟨hlen, ?_, ?_⟩
  · simpa [fresh, hlen] using hget.symm
  · rw [← htake]
    simp [fresh, ← List.map_take, List.take_range, Nat.min_eq_left (Nat.le_of_lt hlen)]

/-- A graph with a chain of new ops at its end, which are not placed. -/
structure Extended (g g' : Graph) (bits : Int) (x y : Operand) (steps : List Step) : Prop where
  size : g'.ops.size = g.ops.size + steps.length
  old : ∀ u, u ∉ g.fresh steps.length → g'.op u = g.op u
  new : ∀ i s, steps[i]? = some s → g'.op ⟨g.ops.size + i⟩ =
    { code := s.code, bits, args := s.args.map fun t => some (t.operand x y g.ops.size) }
  params : g'.params = g.params
  blocks : g'.blocks = g.blocks
  funcs : g'.funcs = g.funcs
  modules : g'.modules = g.modules

/-- A graph with a chain of new ops that belong to a block, which does not list them yet. -/
structure Attached (g g' : Graph) (b : BlockId) (bits : Int) (x y : Operand) (steps : List Step) :
    Prop where
  size : g.ops.size ≤ g'.ops.size
  old : ∀ u, u ∉ g.fresh steps.length → (g'.op u).bare = (g.op u).bare
  realizes : g'.Realizes bits x y g.ops.size steps
  targets : ∀ u ∈ g.fresh steps.length, (g'.op u).targets = []
  owner : ∀ u ∈ g.fresh steps.length, (g'.op u).block = some b
  param : ∀ p, (g'.param p).bare = (g.param p).bare
  blocks : g'.blocks = g.blocks
  funcs : g'.funcs = g.funcs
  modules : g'.modules = g.modules
  records : ∀ v, v.Tracked → ∀ u, g'.recorded v u =
    g.recorded v u + if u ∈ g.fresh steps.length then g'.slots u v else 0

theorem Extended.exists_step {g g' : Graph} {bits : Int} {x y : Operand} {steps : List Step}
    (h : Extended g g' bits x y steps) {u : OpId} (hu : u ∈ g.fresh steps.length) :
    ∃ s : Step, g'.op u =
      { code := s.code, bits, args := s.args.map fun t => some (t.operand x y g.ops.size) } := by
  obtain ⟨hle, hlt⟩ := mem_fresh.1 hu
  have hget : steps[u.idx - g.ops.size]? = some steps[u.idx - g.ops.size] :=
    List.getElem?_eq_getElem (by omega)
  have hidx : (⟨g.ops.size + (u.idx - g.ops.size)⟩ : OpId) = u := by
    rw [← OpId.idx_inj]
    dsimp only
    omega
  have hop := h.new _ _ hget
  rw [hidx] at hop
  exact ⟨_, hop⟩

/-- The new ops have no records yet, as they had none when they were not there. -/
theorem Extended.recorded {g g' : Graph} {bits : Int} {x y : Operand} {steps : List Step}
    (h : Extended g g' bits x y steps) {v : Operand} (hv : v.Tracked) (u : OpId) :
    g'.recorded v u = g.recorded v u := by
  cases v with
  | const c => exact hv.elim
  | param p => rw [Graph.recorded, Graph.recorded, Graph.param, Graph.param, h.params]
  | result d =>
    rw [Graph.recorded, Graph.recorded]
    by_cases hd : d ∈ g.fresh steps.length
    · obtain ⟨s, hs⟩ := h.exists_step hd
      rw [hs, Graph.op, g.ops.get_of_size_le (mem_fresh.1 hd).1]
      rfl
    · rw [h.old d hd]

theorem Extended.attach {g g₁ : Graph} {bits : Int} {x y : Operand} {steps : List Step}
    (h : Extended g g₁ bits x y steps) (b : BlockId) :
    ∃ g₂, g₁.attach b (g.fresh steps.length) = .ok g₂ ∧ Attached g g₂ b bits x y steps := by
  obtain ⟨g₂, hattach, hen⟩ := @attach_eq_ok g₁ b (g.fresh steps.length) (nodup_fresh g _) (by
    intro u hu
    obtain ⟨s, hs⟩ := h.exists_step hu
    rw [hs])
  refine ⟨g₂, hattach, ?_⟩
  constructor
  case size =>
    have := h.size
    have := hen.size
    omega
  case old =>
    intro u hu
    rw [hen.op u, if_neg hu, h.old u hu]
  case realizes =>
    intro i s hs
    have hcode := hen.same Op.code (fun _ _ => rfl) ⟨g.ops.size + i⟩
    have hbits := hen.same Op.bits (fun _ _ => rfl) ⟨g.ops.size + i⟩
    rw [hcode, hbits, hen.args, h.new i s hs]
    exact ⟨rfl, rfl, rfl⟩
  case targets =>
    intro u hu
    obtain ⟨s, hs⟩ := h.exists_step hu
    rw [hen.same Op.targets (fun _ _ => rfl), hs]
  case owner =>
    intro u hu
    rw [hen.owner u, if_pos hu]
  case param =>
    intro p
    rw [hen.param p, Graph.param, Graph.param, h.params]
  case blocks => exact hen.blocks.trans h.blocks
  case funcs => exact hen.funcs.trans h.funcs
  case modules => exact hen.modules.trans h.modules
  case records =>
    intro v hv u
    rw [hen.records v hv u, hen.slots, h.recorded hv]

end Graph

namespace Graph
variable {g g' : Graph} {f : FuncId} {b : BlockId} {o : OpId} {pre post : List OpId} {w : Nat}
  {x y : Operand} {steps : List Step} {vals : List (Reading w)}

/-- A chain on the operands of an op may be inserted before it. -/
theorem Inserted.transformed_chain [FloatUnit]
    (h : Inserted g g' f b o (g.fresh steps.length) pre post)
    (wf : g.WellFormed f) (hargs : (g.op o).args = [some x, some y]) (hbits : (g.op o).bits = w)
    (hreads : Chain.Reads steps vals) (hr : g'.Realizes w x y g.ops.size steps) :
    Transformed g g' f := by
  have hnot := h.not_mem_new wf h.o_mem
  apply h.transformed wf
  intro env hp z hz n hn
  obtain ⟨a, b, -, hchain⟩ := hr.denotes_of_op (h.wellFormed wf) hp (h.mem_opsOf.2 (.inl h.o_mem))
    (by rw [h.code_eq hnot]; exact h.code)
    (by rw [h.bits_eq hnot, hbits])
    (by rw [h.args_eq hnot, hargs]) hreads hz
  have hlen := hreads.length_eq
  obtain ⟨hle, hlt⟩ := mem_fresh.1 hn
  have hdenotes := hchain (n.idx - g.ops.size) _ (List.getElem?_eq_getElem (by omega))
  rw [show g.ops.size + (n.idx - g.ops.size) = n.idx by omega] at hdenotes
  exact ⟨_, hdenotes⟩

/-- A chain on the operands of an op reads nothing that nothing reads. -/
theorem Inserted.unused_chain (h : Inserted g g' f b o (g.fresh steps.length) pre post)
    (wf : g.WellFormed f) (hargs : (g.op o).args = [some x, some y])
    (hr : g'.Realizes w x y g.ops.size steps) {p : OpId} (hp : p ∈ g.opsOf f)
    (hun : g.Unused f p) : g'.Unused f p := by
  refine h.unused wf (fun n hn => ?_) hun
  have hslot := List.count_eq_zero.1 (hun o h.o_mem)
  rw [hargs] at hslot
  simp only [List.mem_cons, Option.some.injEq, List.not_mem_nil, or_false, not_or] at hslot
  obtain ⟨hle, hlt⟩ := mem_fresh.1 hn
  have hread := hr.not_mem_args (wf.lt_size hp) (Ne.symm hslot.1) (Ne.symm hslot.2)
    (List.getElem?_eq_getElem (i := n.idx - g.ops.size) (by omega))
  rwa [show g.ops.size + (n.idx - g.ops.size) = n.idx by omega] at hread

/-- The users of an op may be turned to the result of a chain that computes the same. -/
theorem Redirected.transformed_chain [FloatUnit] {first i : Nat}
    (h : Redirected g g' f o ⟨first + i⟩)
    (wf : g.WellFormed f) (ho : o ∈ g.opsOf f) (hcode : (g.op o).code ∈ Rule.replaceable)
    (hargs : (g.op o).args = [some x, some y]) (hbits : (g.op o).bits = w)
    (hreads : Chain.Reads steps vals) (hr : g.Realizes w x y first steps) (hlt : o.idx < first)
    (hmem : ∀ j s, steps[j]? = some s → ⟨first + j⟩ ∈ g.opsOf f)
    (hvalue : vals[i]? = some (onBits (g.op o).code)) : Transformed g g' f := by
  apply h.transformed wf
  intro env hp z hz
  have hsame := h.code_eq o
  obtain ⟨a, b, rfl, hchain⟩ := (hr.redirected h hlt hmem).denotes_of_op (h.wellFormed wf) hp
    (by rwa [h.opsOf_eq]) (by rwa [hsame]) (by rw [h.bits_eq, hbits])
    (by rw [h.args_eq ho, hargs]; rfl) hreads hz
  rw [hsame]
  exact hchain i _ hvalue

/-- What the steps of a chain read stands in the slots of its ops. -/
theorem Realizes.exists_read {x y : Operand} {first : Nat} (hr : g.Realizes w x y first steps)
    {t : Term} (ht : Chain.ReadIn steps t) :
    ∃ i < steps.length, some (t.operand x y first) ∈ (g.op ⟨first + i⟩).args := by
  obtain ⟨s, hs, ht⟩ := ht
  obtain ⟨i, hi⟩ := List.getElem?_of_mem hs
  refine ⟨i, (List.getElem?_eq_some_iff.1 hi).1, ?_⟩
  rw [(hr i s hi).2.2]
  exact List.mem_map.2 ⟨t, ht, rfl⟩

/-- An op of a chain uses earlier ops of it and the operands that the chain is for. -/
theorem Realizes.reads {x y : Operand} {first : Nat} (hr : g.Realizes w x y first steps)
    (hreads : Chain.Reads steps vals) {i : Nat} {s : Step} (hs : steps[i]? = some s) {d : OpId}
    (hd : some (.result d) ∈ (g.op ⟨first + i⟩).args) :
    (∃ j < i, d = ⟨first + j⟩) ∨ x = .result d ∨ y = .result d := by
  rw [(hr i s hs).2.2] at hd
  obtain ⟨t, ht, hd⟩ := List.mem_map.1 hd
  have hd := Option.some.inj hd
  cases t with
  | left => exact .inr (.inl hd)
  | right => exact .inr (.inr hd)
  | const c => cases hd
  | step j =>
    cases hd
    exact .inl ⟨j, hreads.lt_of_step hs ht, rfl⟩

/-- The rewrite that places `k + 1` new ops, numbered from `first` on. -/
def rewriteAt (o : OpId) (first k : Nat) : Rewrite :=
  ⟨o, (List.range k).map fun i => ⟨first + i⟩, ⟨first + k⟩⟩

theorem chain_rewriteAt (o : OpId) (first k : Nat) :
    (rewriteAt o first k).chain = (List.range (k + 1)).map fun i => ⟨first + i⟩ := by
  simp [Rewrite.chain, rewriteAt, List.range_succ]

theorem turned_rewriteAt (o : OpId) (first k : Nat) :
    (rewriteAt o first k).turned = Option.map (redirect₁ o ⟨first + k⟩) :=
  turn_eq_map o _

/-- What the steps of a chain read is read by an op of the rewrite. -/
theorem Realizes.exists_reader {x y : Operand} {first k : Nat} (hr : g.Realizes w x y first steps)
    (hlen : steps.length = k + 1) (o : OpId) {t : Term} (ht : Chain.ReadIn steps t) :
    ∃ n ∈ (rewriteAt o first k).chain, some (t.operand x y first) ∈ (g.op n).args := by
  obtain ⟨i, hi, hread⟩ := hr.exists_read ht
  refine ⟨_, ?_, hread⟩
  rw [chain_rewriteAt]
  exact List.mem_map.2 ⟨i, List.mem_range.2 (by omega), rfl⟩

/-- Inserting ops and turning users leave all of an old op but its operands. -/
theorem Inserted.same_redirected {mid : Graph} {new : List OpId} {n u : OpId}
    (hins : Inserted g mid f b o new pre post) (hred : Redirected mid g' f o n) (hu : u ∉ new) :
    (g'.op u).code = (g.op u).code ∧ (g'.op u).bits = (g.op u).bits ∧
      (g'.op u).targets = (g.op u).targets ∧ (g'.op u).block = (g.op u).block :=
  ⟨(hred.code_eq u).trans (hins.code_eq hu), (hred.bits_eq u).trans (hins.bits_eq hu),
    (hred.targets_eq u).trans (hins.targets_eq hu), (hred.place_eq u).trans (hins.place_eq hu)⟩

/-- A chain without loose ends that is inserted and given the users of an op is a rewrite. -/
theorem Rewritten.of_woven {expand : Bool} {k : Nat} {mid : Graph} {c : Chain}
    (hins : Inserted g mid f b o (g.fresh (k + 1)) pre post) (wf : g.WellFormed f)
    (hred : Redirected mid g' f o ⟨g.ops.size + k⟩) (hargs : (g.op o).args = [some x, some y])
    (hr : mid.Realizes w x y g.ops.size c.steps) (hlen : c.steps.length = k + 1)
    (hreads : Chain.Reads c.steps vals) (hwoven : Chain.Woven expand c) :
    Rewritten expand f g (rewriteAt o g.ops.size k) g' := by
  have hchain : (rewriteAt o g.ops.size k).chain = g.fresh (k + 1) := chain_rewriteAt o _ k
  have hturn := turned_rewriteAt o g.ops.size k
  have hold : (rewriteAt o g.ops.size k).op = o := rfl
  have hstep : ∀ n ∈ g.fresh (k + 1), ∃ i s, i < k + 1 ∧ c.steps[i]? = some s ∧
      n = ⟨g.ops.size + i⟩ := by
    intro n hn
    obtain ⟨i, hi, rfl⟩ := List.mem_map.1 hn
    have hlt := List.mem_range.1 hi
    exact ⟨i, _, hlt, List.getElem?_eq_getElem (by omega), rfl⟩
  -- the chain, with the users of the op already turned
  have hr' := hr.redirected hred (wf.lt_size hins.o_mem) fun i s hs =>
    hins.mem_opsOf.2 (.inr (fresh_mem g (hlen ▸ (List.getElem?_eq_some_iff.1 hs).1)))
  refine {
    func := (hred.func f).trans (hins.func f)
    wellFormed := hred.wellFormed (hins.wellFormed wf)
    code := hins.code
    placed := ⟨b, hins.mem, pre, post, hins.before, ?after, fun d hd => ?block⟩
    size := Nat.le_trans hins.size hred.retuned.size
    fresh := fun n hn => (mem_fresh.1 (hchain ▸ hn)).1
    nodup := hchain ▸ nodup_fresh g _
    same := fun u hu => hins.same_redirected hred (hchain ▸ hu)
    slots := ?slots
    others := ?others
    made := ?made
    reads := ?reads
    operands := ?operands
    inner := ?inner }
  case after =>
    rw [hred.block, hins.after, hchain]
    rfl
  case block => rw [hred.block, hins.block d hd]
  case slots =>
    intro u hu
    have hnew := hins.not_mem_new wf hu
    rw [hred.args_eq (hins.mem_opsOf.2 (.inl hu)), hins.args_eq hnew, hturn]
  case others =>
    intro u hu hn
    rw [hchain] at hn
    rw [hred.retuned.args_eq, if_neg, hins.args_eq hn]
    exact fun hmem => (hins.mem_opsOf.1 hmem).elim hu hn
  case made =>
    intro n hn
    rw [hchain] at hn
    obtain ⟨i, s, -, hs, rfl⟩ := hstep n hn
    have hbits := (hred.bits_eq _).trans (hins.new_code hn).2.2
    rw [(hr' i s hs).1]
    exact ⟨hbits, hwoven.code_of_step hreads hs⟩
  case reads =>
    intro n hn d hd
    obtain ⟨i, s, hi, hs, rfl⟩ := hstep n (hchain ▸ hn)
    rw [hold, hargs, hturn]
    rcases hr'.reads hreads hs hd with ⟨j, hj, rfl⟩ | hx | hy
    · exact .inl (List.mem_map.2 ⟨j, List.mem_range.2 (by omega), rfl⟩)
    · exact .inr (by simp [hx])
    · exact .inr (by simp [hy])
  case operands =>
    intro v hv
    simp only [hold, hargs, List.mem_cons, List.not_mem_nil, or_false] at hv
    rw [hturn]
    rcases hv with rfl | rfl
    · exact hr'.exists_reader hlen o hwoven.left
    · exact hr'.exists_reader hlen o hwoven.right
  case inner =>
    intro n hn
    obtain ⟨i, hi, rfl⟩ := List.mem_map.1 hn
    have hlt := List.mem_range.1 hi
    exact hr'.exists_reader hlen o (hwoven.inner i (by omega))

end Graph

namespace Substitution
open Disguise.Graph

/-- The ops made for the steps of a chain. -/
theorem extended_foldl (g : Graph) (bits : Int) (x y : Operand) (steps : List Step) :
    Extended g (steps.foldl (fun h s => (h.newOp s.code bits
      (s.args.map fun t => some (t.operand x y g.ops.size)) []).1) g) bits x y steps := by
  induction steps using List.reverseRecOn with
  | nil => exact ⟨rfl, fun _ _ => rfl, by simp, rfl, rfl, rfl, rfl⟩
  | append_singleton steps s ih =>
    rw [List.foldl_append, List.foldl_cons, List.foldl_nil]
    refine ⟨?_, fun u hu => ?_, fun i t ht => ?_, ih.params, ih.blocks, ih.funcs, ih.modules⟩
    · rw [List.length_append, List.length_singleton, ← Nat.add_assoc, ← ih.size]
      exact Table.size_push _ _
    · rw [mem_fresh, List.length_append, List.length_singleton] at hu
      rw [op_newOp, if_neg, ih.old u (by rw [mem_fresh]; omega)]
      rw [← OpId.idx_inj, ih.size]
      dsimp only
      omega
    · rw [op_newOp]
      by_cases hi : i < steps.length
      · rw [List.getElem?_append_left hi] at ht
        rw [if_neg, ih.new i t ht]
        rw [← OpId.idx_inj, ih.size]
        dsimp only
        omega
      · obtain rfl : i = steps.length := by
          have := (List.getElem?_eq_some_iff.1 ht).1
          simp at this
          omega
        obtain rfl : s = t := by simpa using ht
        rw [if_pos (by rw [ih.size])]

theorem create_eq (g : Graph) (bits : Int) (x y : Operand) (c : Chain) :
    ∃ g', create g bits (some x) (some y) c =
      (g', g.fresh c.steps.length, some (c.result.operand x y g.ops.size)) ∧
        Extended g g' bits x y c.steps := by
  refine ⟨_, Prod.ext ?_ (Prod.ext rfl ?_), extended_foldl g bits x y c.steps⟩
  · unfold create
    dsimp only
    congr
    funext h s
    congr
    funext t
    cases t <;> rfl
  · unfold create
    dsimp only
    cases c.result <;> rfl

end Substitution

/-- An editor is at work on a block of a function that is well-formed when settled. -/
structure Editor.Open (e : Editor) (g : Graph) (f : FuncId) : Prop where
  wellFormed : (e.settle g).WellFormed f
  mem : e.block ∈ (g.func f).blocks
  balanced : e.Balanced (g.block e.block).ops

/-- Op `o` has been replaced: a chain of `n` ops waits before it, and nothing reads it any more. -/
structure Editor.Replacement [FloatUnit] (expand : Bool) (e : Editor) (g : Graph) (f : FuncId)
    (o : OpId) (e' : Editor) (g' : Graph) (n : Nat) : Prop where
  block : e'.block = e.block
  opened : e'.Open g' f
  blocks : g'.blocks = g.blocks
  transformed : Graph.Transformed (e.settle g) (e'.settle g') f
  keeps : Graph.Keeps (e.settle g) (e'.settle g') f
  numOps : (e'.settle g').numOps f = (e.settle g).numOps f + n
  unused : ∀ p ∈ (e.settle g).opsOf f, p = o ∨ (e.settle g).Unused f p →
    (e'.settle g').Unused f p
  rewritten : ∃ r : Rewrite, r.op = o ∧ Graph.Rewritten expand f (e.settle g) r (e'.settle g')

namespace Editor
open Disguise.Graph
variable {e : Editor} {g g₁ g₂ : Graph} {f : FuncId} {o : OpId} {w : Nat} {x y : Operand}
  {steps : List Step} {vals : List (Reading w)}

theorem mem_settle {u : OpId} (hb : e.block ∈ (g.func f).blocks)
    (hu : u ∈ (g.block e.block).ops) : u ∈ (e.settle g).opsOf f := by
  apply Graph.mem_opsOf.2
  refine ⟨e.block, hb, ?_⟩
  rw [block_settle, if_pos rfl]
  exact (e.sublist_merged _).subset hu

theorem Open.nodup (h : e.Open g f) : (g.block e.block).ops.Nodup := by
  have hn := h.wellFormed.opsNodup e.block h.mem
  rw [block_settle, if_pos rfl] at hn
  exact hn.sublist (e.sublist_merged _)

theorem Open.owner (h : e.Open g f) (ho : o ∈ (g.block e.block).ops) :
    (g.op o).block = some e.block := by
  apply h.wellFormed.opOwner e.block h.mem o
  rw [block_settle, if_pos rfl]
  exact (e.sublist_merged _).subset ho

section
variable (h : e.Open g f) (ho : o ∈ (g.block e.block).ops)
  (hcode : (g.op o).code ∈ Rule.replaceable) (hargs : (g.op o).args = [some x, some y])
  (hbits : (g.op o).bits = w)
include h ho hcode hargs hbits

/-- The terms of a chain become operands that are usable where they stand. -/
theorem usable_of_reads {i : Nat} {t : Term} {r : Reading w} (ht : t.Reads (vals.take i) r) :
    (e.settle g).Usable f o (g.fresh i) (t.operand x y g.ops.size) := by
  obtain ⟨x', y', hargs', hwidth, hx, hy⟩ :=
    h.wellFormed.exists_operands (mem_settle h.mem ho) hcode
  rw [op_settle, hargs] at hargs'
  simp only [List.cons.injEq, Option.some.injEq, and_true] at hargs'
  obtain ⟨rfl, rfl⟩ := hargs'
  rw [op_settle, hbits] at hwidth
  cases ht with
  | left => exact .inl hx
  | right => exact .inl hy
  | const c =>
    left
    constructor
    · rw [op_settle, hbits]
    · have hw := Chain.le_of_goodWidth hwidth
      have hlow := fits_low hwidth (ofBits c)
      rwa [Int.toNat_natCast, low_eq_ofBits _ hw, toBits_ofBits hw] at hlow
  | @step j _ hj =>
    right
    refine ⟨⟨g.ops.size + j⟩, fresh_mem g ?_, rfl⟩
    have hlt := (List.getElem?_eq_some_iff.1 hj).1
    rw [List.length_take] at hlt
    omega

/-- The ops of a chain are of the form that new ops before `o` must have. -/
theorem additional_of_reads (hreads : Chain.Reads steps vals)
    (hatt : Attached g g₂ e.block w x y steps) {done rest : List OpId} {n : OpId}
    (hsplit : g.fresh steps.length = done ++ n :: rest) (e' : Editor) :
    Additional (e.settle g) (e'.settle g₂) f o done n := by
  obtain ⟨hlen, hn, hdone⟩ := fresh_split hsplit
  have hget : steps[done.length]? = some steps[done.length] := List.getElem?_eq_getElem hlen
  obtain ⟨r, hr⟩ := hreads.step_at hget
  obtain ⟨hcode', hbits', hargs'⟩ := hatt.realizes _ _ hget
  have htargets := hatt.targets n (by simp [hsplit])
  have usable := @usable_of_reads e g f o w x y vals h ho hcode hargs hbits done.length
  rw [← hdone] at usable
  rw [← hn] at hcode' hbits' hargs'
  generalize steps[done.length] = s at hr hcode' hargs'
  cases hr with
  | binary pure fst snd =>
    refine .binary _ _ ?_ hargs' htargets (hbits'.trans hbits.symm) (usable fst) (usable snd)
    rw [op_settle, hcode']
    exact pure
  | not arg =>
    refine .unary _ ?_ hargs' htargets (hbits'.trans hbits.symm) (usable arg)
    rw [op_settle, hcode']
    rfl
  | neg arg =>
    refine .unary _ ?_ hargs' htargets (hbits'.trans hbits.symm) (usable arg)
    rw [op_settle, hcode']
    rfl

/-- A chain that is queued before an op is inserted into the settled graph. -/
theorem inserted_queued (hreads : Chain.Reads steps vals)
    (hatt : Attached g g₂ e.block w x y steps) : ∃ pre post,
      Inserted (e.settle g) ((e.queued o (g.fresh steps.length)).settle g₂) f e.block o
        (g.fresh steps.length) pre post := by
  obtain ⟨A, B, hsplit⟩ := List.append_of_mem ho
  have hn := h.nodup
  rw [hsplit] at hn
  have hblock : ∀ b, g₂.block b = g.block b := by
    intro b
    rw [Graph.block, Graph.block, hatt.blocks]
  refine ⟨e.merged A ++ e.waiting o, e.merged B, ?_⟩
  constructor
  case code => exact hcode
  case mem => exact h.mem
  case before =>
    rw [block_settle, if_pos rfl]
    simp only [hsplit, merged_append, merged_cons, List.append_assoc]
  case after =>
    rw [block_settle, block_queued, if_pos rfl]
    simp only [hblock, hsplit, merged_queued hn]
  case name => rw [block_settle, block_settle, block_queued, if_pos rfl, if_pos rfl, hblock]
  case owner => rw [block_settle, block_settle, block_queued, if_pos rfl, if_pos rfl, hblock]
  case block =>
    intro c hc
    rw [block_settle, block_settle, block_queued, if_neg hc, if_neg hc, hblock]
  case size => exact hatt.size
  case fresh => exact fun u hu => (mem_fresh.1 hu).1
  case nodup => exact nodup_fresh g _
  case op => exact hatt.old
  case param => exact hatt.param
  case funcs => exact hatt.funcs
  case modules => exact hatt.modules
  case placed => exact hatt.owner
  case form =>
    exact fun done u rest hfresh =>
      additional_of_reads h ho hcode hargs hbits hreads hatt hfresh _
  case records => exact hatt.records

end

/-- The users of an op can be turned to another one of the same width that stands before it. -/
theorem exists_redirected {n : OpId} (wf : (e.settle g).WellFormed f)
    (ho : o ∈ (e.settle g).opsOf f) (hne : n ≠ o)
    (horder : ∃ b ∈ (g.func f).blocks, [n, o].Sublist ((e.settle g).block b).ops)
    (hbits : (g.op n).bits = (g.op o).bits) (hcode : (g.op n).code.isTerminator = false) :
    ∃ g', g.replaceAllUses o (some (.result n)) = .ok g' ∧
      Redirected (e.settle g) (e.settle g') f o n ∧ g'.blocks = g.blocks := by
  obtain ⟨g', hok, hre⟩ := @replaceAllUses_eq_ok g o (some (.result n)) ((e.settle g).opsOf f)
    (by simpa using hne)
    (by
      intro u hu
      obtain ⟨b, hb, hub⟩ := Graph.mem_opsOf.1 hu
      have howner := wf.opOwner b hb u hub
      rw [op_settle] at howner
      rw [howner]
      rfl)
    (wf.uses (.result o) ho)
  exact ⟨g', hok, ⟨settle_retuned hre, horder, hbits, hcode⟩, hre.blocks⟩

/-- An editor stays at work on its block when ops are queued. -/
theorem Open.queued (h : e.Open g f) (ho : o ∈ (g.block e.block).ops) {g' : Graph} {new : List OpId}
    (wf : ((e.queued o new).settle g').WellFormed f) (hfunc : g'.func f = g.func f)
    (hblocks : g'.blocks = g.blocks) : (e.queued o new).Open g' f := by
  have hblock : g'.block e.block = g.block e.block := by
    rw [Graph.block, Graph.block, hblocks]
  refine ⟨wf, ?_, ?_⟩
  · rw [hfunc]
    exact h.mem
  · obtain ⟨A, B, hsplit⟩ := List.append_of_mem ho
    have hn := h.nodup
    have hbal := h.balanced
    rw [block_queued, hblock]
    rw [hsplit] at hn hbal ⊢
    exact hbal.queued hn

/-- An op is replaced by a chain that ends with the same word. -/
theorem Open.replace [FloatUnit] {expand : Bool} {c : Chain} (h : e.Open g f)
    (ho : o ∈ (g.block e.block).ops)
    (hcode : (g.op o).code ∈ Rule.replaceable) (hargs : (g.op o).args = [some x, some y])
    (hbits : (g.op o).bits = w) (hc : Chain.Ends w (onBits (g.op o).code) c)
    (hwoven : Chain.Woven expand c) :
    ∃ g₁ new v g₂ g₃, Substitution.create g w (some x) (some y) c = (g₁, new, v) ∧
      e.insertBefore g₁ o new = .ok (e.queued o new, g₂) ∧ g₂.replaceAllUses o v = .ok g₃ ∧
      Replacement expand e g f o (e.queued o new) g₃ new.length := by
  obtain ⟨vals, hreads, hresult⟩ := hc
  have hvalue : (vals ++ [onBits (g.op o).code])[vals.length]? = some (onBits (g.op o).code) := by
    simp
  obtain ⟨g₁, hcreate, hext⟩ := Substitution.create_eq g w x y c
  obtain ⟨g₂, hattach, hatt⟩ := hext.attach e.block
  -- the chain stands before the op
  obtain ⟨pre, post, hins⟩ := inserted_queued h ho hcode hargs hbits hreads hatt
  have hinsert := hins.transformed_chain h.wellFormed hargs hbits hreads hatt.realizes
  have hlen : vals.length + 1 = c.steps.length := by simpa using hreads.length_eq
  have hnot := hins.not_mem_new h.wellFormed hins.o_mem
  have ho' := hins.mem_opsOf.2 (.inl hins.o_mem)
  have hlast : ⟨g.ops.size + vals.length⟩ ∈ g.fresh c.steps.length := fresh_mem g (by omega)
  obtain ⟨hterm, -, hbits'⟩ := hins.new_code hlast
  have hbo := hins.bits_eq hnot
  have hco := hins.code_eq hnot
  have hfunc : g₂.func f = g.func f := hins.func f
  -- its users are turned to the end of the chain
  obtain ⟨g₃, hreplace, hred, hblocks⟩ := exists_redirected hinsert.wellFormed ho'
    (fun heq => hnot (heq ▸ hlast))
    ⟨e.block, by rw [hfunc]; exact h.mem, by
      rw [hins.after]
      exact pair_sublist_append (by simp [hlast]) (by simp)⟩
    (hbits'.trans hbo.symm) hterm
  have hredirect := hred.transformed_chain hinsert.wellFormed ho' (by rw [hco]; exact hcode)
    ((hins.args_eq hnot).trans hargs) (hbo.trans hbits) hreads hatt.realizes
    (h.wellFormed.lt_size hins.o_mem)
    (fun j s hs => hins.mem_opsOf.2 (.inr (fresh_mem g (List.getElem?_eq_some_iff.1 hs).1)))
    (by rw [hco]; exact hvalue)
  have hall : g₃.blocks = g.blocks := hblocks.trans hatt.blocks
  refine ⟨g₁, _, _, g₂, g₃, hcreate, ?_, by rw [hresult]; exact hreplace, ?_⟩
  · have hold : g₁.op o = g.op o := hext.old o hnot
    rw [insertBefore, hold, if_neg (by simp [h.owner ho]), hattach]
    rfl
  · constructor
    case block => rfl
    case opened => exact h.queued ho hredirect.wellFormed ((hred.func f).trans hfunc) hall
    case blocks => exact hall
    case transformed => exact hinsert.trans hredirect
    case keeps => exact (hins.keeps h.wellFormed).trans hred.keeps
    case numOps =>
      rw [numOps, hred.opsOf_eq]
      exact hins.numOps h.wellFormed.blocksNodup
    case unused =>
      intro p hp hor
      have hpn := hins.not_mem_new h.wellFormed hp
      refine hred.unused (fun heq => hpn (heq ▸ hlast)) (hor.imp_right fun hun => ?_)
      exact hins.unused_chain h.wellFormed (by rw [op_settle, hargs]) hatt.realizes hp hun
    case rewritten =>
      rw [← hlen] at hins hred ⊢
      exact ⟨_, rfl, .of_woven hins h.wellFormed hred hargs hatt.realizes hlen.symm hreads hwoven⟩

end Editor
end Disguise
