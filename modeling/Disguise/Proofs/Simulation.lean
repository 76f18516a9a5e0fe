import Disguise.Proofs.Chains
import Disguise.Proofs.Fates
import Disguise.Proofs.Sweeping

/-!
Replacing ops keeps what runs do. After each half of a replacement and after a sweep every operand
still denotes what it did and every block has the fate that it had.
-/
namespace Disguise
open Arithmetic Execution Word

variable [FloatUnit]

/-- What the operands and blocks of function `f` come to in `g` they come to in `g'`. -/
structure Simulates (g g' : Graph) (f : FuncId) (env : Env) : Prop where
  denotes : ∀ v x, Denotes g env v x → Denotes g' env v x
  fate : ∀ b ∈ (g.func f).blocks, ∀ a, Fate g env (g.block b).ops a → Fate g' env (g'.block b).ops a

theorem Simulates.refl (g : Graph) (f : FuncId) (env : Env) : Simulates g g f env :=
  ⟨fun _ _ h => h, fun _ _ _ h => h⟩

theorem Simulates.trans {g g' g'' : Graph} {f : FuncId} {env : Env} (h : Simulates g g' f env)
    (h' : Simulates g' g'' f env) (hf : g'.func f = g.func f) : Simulates g g'' f env :=
  ⟨fun v x hv => h'.denotes v x (h.denotes v x hv),
    fun b hb a ha => h'.fate b (by rwa [hf]) a (h.fate b hb a ha)⟩

namespace Execution
variable {g g' : Graph} {f : FuncId} {env : Env}

/-- Operands come to what they came to as long as the ops with values are there. The operands of
these may be turned to others that come to the same. -/
theorem Denotes.carry (ρ : OpId → Operand → Operand)
    (hcode : ∀ u z, Denotes g env (.result u) z → (g'.op u).code = (g.op u).code)
    (hbits : ∀ u z, Denotes g env (.result u) z → (g'.op u).bits = (g.op u).bits)
    (hargs : ∀ u z, Denotes g env (.result u) z →
      (g'.op u).args = (g.op u).args.map (Option.map (ρ u)))
    (hturn : ∀ u v x, Denotes g' env v x → Denotes g' env (ρ u v) x) (v : Operand) (x : UInt64)
    (h : Denotes g env v x) : Denotes g' env v x := by
  induction h with
  | const c => exact .const c
  | param value => exact .param value
  | unary code args arg value ih =>
    have hu := Denotes.unary code args arg value
    refine .unary (by rw [hcode _ _ hu]; exact code) (by rw [hargs _ _ hu, args]; rfl)
      (hturn _ _ _ ih) ?_
    rw [hcode _ _ hu, hbits _ _ hu]
    exact value
  | binary code args left right value ihl ihr =>
    have hu := Denotes.binary code args left right value
    refine .binary (by rw [hcode _ _ hu]; exact code) (by rw [hargs _ _ hu, args]; rfl)
      (hturn _ _ _ ihl) (hturn _ _ _ ihr) ?_
    rw [hcode _ _ hu, hbits _ _ hu]
    exact value

/-- An op acts in the same way if its operands denote the same. -/
theorem Acts.map {u : OpId} {a : Action} (ρ : Operand → Operand) (h : Acts g env u a)
    (hcode : (g'.op u).code = (g.op u).code) (hbits : (g'.op u).bits = (g.op u).bits)
    (htargets : (g'.op u).targets = (g.op u).targets)
    (hargs : (g'.op u).args = (g.op u).args.map (Option.map ρ))
    (hden : ∀ v x, Denotes g env v x → Denotes g' env (ρ v) x)
    (hres : ∀ z, Denotes g env (.result u) z → Denotes g' env (.result u) z) :
    Acts g' env u a := by
  cases h with
  | define value => exact .define (hres _ value)
  | fail code args left right fault =>
    refine .fail (by rw [hcode]; exact code) (by rw [hargs, args]; rfl) (hden _ _ left)
      (hden _ _ right) ?_
    rw [hcode, hbits]
    exact fault
  | ret code args arg =>
    exact .ret (hcode.trans code) (by rw [hargs, args]; rfl) (hden _ _ arg)
  | br code targets => exact .br (hcode.trans code) (htargets.trans targets)
  | brif code args targets arg =>
    exact .brif (hcode.trans code) (by rw [hargs, args]; rfl) (htargets.trans targets)
      (hden _ _ arg)

theorem Fate.map {ops : List OpId} {a : Action}
    (h : ∀ u ∈ ops, ∀ a, Acts g env u a → Acts g' env u a) (hf : Fate g env ops a) :
    Fate g' env ops a := by
  induction hf with
  | skip acts _ ih =>
    exact .skip (h _ (by simp) _ acts) (ih fun u hu => h u (by simp [hu]))
  | stop acts final => exact .stop (h _ (by simp) _ acts) final

/-- Ops that come to values may be put in front. -/
theorem Fate.insert {new ops : List OpId} {a : Action}
    (h : ∀ n ∈ new, ∃ z, Acts g env n (.define z)) (hf : Fate g env ops a) :
    Fate g env (new ++ ops) a := by
  induction new with
  | nil => exact hf
  | cons n new ih =>
    obtain ⟨z, hz⟩ := h n (by simp)
    exact .skip hz (ih fun u hu => h u (by simp [hu]))

/-- New ops before `o` change nothing if they come to values whenever `o` does. -/
theorem Fate.splice {o : OpId} {pre new post : List OpId} {a : Action}
    (hacts : ∀ u ∈ pre ++ o :: post, ∀ a, Acts g env u a → Acts g' env u a)
    (hdef : ∀ a, Acts g env o a → ∃ z, a = .define z)
    (hnew : ∀ z, Acts g' env o (.define z) → ∀ n ∈ new, ∃ z, Acts g' env n (.define z))
    (h : Fate g env (pre ++ o :: post) a) : Fate g' env (pre ++ new ++ o :: post) a := by
  induction pre with
  | nil =>
    have ho := hacts o (by simp)
    have hfate := h.map hacts
    refine Fate.insert ?_ hfate
    cases h with
    | skip acts _ => exact hnew _ (ho _ acts)
    | stop acts final =>
      obtain ⟨z, hz⟩ := hdef _ acts
      exact absurd hz (final z)
  | cons u pre ih =>
    have hu := hacts u (by simp)
    cases h with
    | skip acts later => exact .skip (hu _ acts) (ih (fun v hv => hacts v (by simp [hv])) later)
    | stop acts final => exact .stop (hu _ acts) final

/-- Ops that only come to values may be taken out. -/
theorem Fate.filter {ops gone : List OpId} {a : Action}
    (hacts : ∀ u ∈ ops, ∀ a, Acts g env u a → Acts g' env u a)
    (hdef : ∀ u ∈ ops, u ∈ gone → ∀ a, Acts g env u a → ∃ z, a = .define z)
    (h : Fate g env ops a) : Fate g' env (ops.filter (· ∉ gone)) a := by
  induction h with
  | @skip u rest z a acts later ih =>
    have hrest := ih (fun v hv => hacts v (by simp [hv])) fun v hv => hdef v (by simp [hv])
    by_cases hu : u ∈ gone
    · rwa [List.filter_cons_of_neg (by simpa using hu)]
    · rw [List.filter_cons_of_pos (by simpa using hu)]
      exact .skip (hacts u (by simp) _ acts) hrest
  | @stop u rest a acts final =>
    have hu : u ∉ gone := by
      intro hgone
      obtain ⟨z, hz⟩ := hdef u (by simp) hgone a acts
      exact final z hz
    rw [List.filter_cons_of_pos (by simpa using hu)]
    exact .stop (hacts u (by simp) _ acts) final

/-- What an op that cannot fail computes from operands that it may hold. -/
theorem evalBinary_replaceable (wf : g.WellFormed f) (hp : g.ParamsFit f env) {u : OpId} {w : Nat}
    {code : Opcode} {x y : Operand} {a b : UInt64} (hw : goodWidth (w : Int))
    (hcode : code ∈ Rule.replaceable) (hx : g.OperandOk f u w x) (hy : g.OperandOk f u w y)
    (ha : Denotes g env x a) (hb : Denotes g env y b) :
    ofBits (toBits w a) = a ∧ ofBits (toBits w b) = b ∧
      evalBinary code w a b = .ok (ofBits (onBits code (toBits w a) (toBits w b))) := by
  obtain ⟨w', heq, h1, h2⟩ := goodWidth_iff.1 hw
  obtain rfl : w = w' := by omega
  have ha' := ofBits_toBits h2 (wf.fits_of_denotes hp hx ha)
  have hb' := ofBits_toBits h2 (wf.fits_of_denotes hp hy hb)
  have heval := evalBinary_ofBits h1 h2 hcode (toBits w a) (toBits w b)
  rw [ha', hb'] at heval
  exact ⟨ha', hb', heval⟩

/-- An op that cannot fail acts in no other way than by coming to a value. -/
theorem Acts.exists_define (wf : g.WellFormed f) (hp : g.ParamsFit f env) {u : OpId}
    (hu : u ∈ g.opsOf f) (hcode : (g.op u).code ∈ Rule.replaceable) {a : Action}
    (h : Acts g env u a) : ∃ z, a = .define z := by
  have hcases := hcode
  simp only [Rule.replaceable, List.mem_cons, List.not_mem_nil, or_false] at hcases
  cases h with
  | define value => exact ⟨_, rfl⟩
  | fail code args left right fault =>
    obtain ⟨width, -, hx, hy⟩ := (wf.form u hu).of_binary code args
    obtain ⟨w, hbits, -, -⟩ := goodWidth_iff.1 width
    rw [hbits] at width hx hy fault
    obtain ⟨-, -, heval⟩ := evalBinary_replaceable wf hp width hcode hx hy left right
    rw [fault] at heval
    cases heval
  | ret code => simp [code] at hcases
  | br code => simp [code] at hcases
  | brif code => simp [code] at hcases

end Execution

/-- The operand that a term of a chain stands for, when the chain starts at op number `first`. -/
def Term.operand (x y : Operand) (first : Nat) : Term → Operand
  | .left => x
  | .right => y
  | .const c => .const c
  | .step i => .result ⟨first + i⟩

/-- The ops of a graph from number `first` on are the steps of a chain on `x` and `y`. -/
def Graph.Realizes (g : Graph) (bits : Int) (x y : Operand) (first : Nat) (steps : List Step) :
    Prop :=
  ∀ i s, steps[i]? = some s → (g.op ⟨first + i⟩).code = s.code ∧ (g.op ⟨first + i⟩).bits = bits ∧
    (g.op ⟨first + i⟩).args = s.args.map fun t => some (t.operand x y first)

section
variable {g : Graph} {env : Env} {w : Nat} {x y : Operand} {first : Nat} {steps : List Step}
  {vals : List (Reading w)}

theorem Term.Reads.denotes {t : Term} {r : Reading w} (h : t.Reads vals r) {a b : BitVec w}
    (ha : Denotes g env x (ofBits a)) (hb : Denotes g env y (ofBits b))
    (hvals : ∀ i r, vals[i]? = some r → Denotes g env (.result ⟨first + i⟩) (ofBits (r a b))) :
    Denotes g env (t.operand x y first) (ofBits (r a b)) := by
  cases h with
  | left => exact ha
  | right => exact hb
  | const c => exact .const ⟨ofBits c, w⟩
  | step h => exact hvals _ _ h

/-- The ops of a chain denote what its steps read. -/
theorem Graph.Realizes.denotes (hw : goodWidth (w : Int)) (hreads : Chain.Reads steps vals)
    (h : g.Realizes w x y first steps) {a b : BitVec w} (ha : Denotes g env x (ofBits a))
    (hb : Denotes g env y (ofBits b)) :
    ∀ i r, vals[i]? = some r → Denotes g env (.result ⟨first + i⟩) (ofBits (r a b)) := by
  obtain ⟨w', heq, h1, h2⟩ := goodWidth_iff.1 hw
  obtain rfl : w = w' := by omega
  induction hreads with
  | nil => simp
  | @snoc steps vals s z before last ih =>
    have hvals := ih fun i s hs => h i s (by
      rw [List.getElem?_append_left (List.getElem?_eq_some_iff.1 hs).1, hs])
    obtain ⟨hcode, hbits, hargs⟩ := h steps.length s (by simp)
    intro i r hr
    by_cases hi : i < vals.length
    · rw [List.getElem?_append_left hi] at hr
      exact hvals i r hr
    · -- the last step: its terms denote by what is known of the earlier ones
      have hlen := before.length_eq
      obtain rfl : i = steps.length := by
        have := (List.getElem?_eq_some_iff.1 hr).1
        simp at this
        omega
      obtain rfl : z = r := by simpa [hlen] using hr
      cases last with
      | binary pure fst snd =>
        refine .binary ?_ hargs (fst.denotes ha hb hvals) (snd.denotes ha hb hvals) ?_
        · rw [hcode]
          exact Rule.isBinary_of_replaceable pure
        · rw [hcode, hbits]
          exact evalBinary_ofBits h1 h2 pure _ _
      | not arg =>
        refine .unary (by rw [hcode]; rfl) hargs (arg.denotes ha hb hvals) ?_
        rw [hcode, hbits]
        exact evalUnary_not_ofBits h1 h2 _
      | neg arg =>
        refine .unary (by rw [hcode]; rfl) hargs (arg.denotes ha hb hvals) ?_
        rw [hcode, hbits]
        exact evalUnary_neg_ofBits h1 h2 _

/-- Where an op has a value, a chain on its operands has values too. -/
theorem Graph.Realizes.denotes_of_op {f : FuncId} {o : OpId} {z : UInt64} (wf : g.WellFormed f)
    (hp : g.ParamsFit f env) (ho : o ∈ g.opsOf f) (hcode : (g.op o).code ∈ Rule.replaceable)
    (hbits : (g.op o).bits = w) (hargs : (g.op o).args = [some x, some y])
    (hreads : Chain.Reads steps vals) (h : g.Realizes w x y first steps)
    (hz : Denotes g env (.result o) z) : ∃ a b : BitVec w, z = ofBits (onBits (g.op o).code a b) ∧
      ∀ i r, vals[i]? = some r → Denotes g env (.result ⟨first + i⟩) (ofBits (r a b)) := by
  have hbinary := Rule.isBinary_of_replaceable hcode
  obtain ⟨a, b, left, right, value⟩ := hz.of_binary hbinary hargs
  obtain ⟨width, -, hx, hy⟩ := (wf.form o ho).of_binary hbinary hargs
  rw [hbits] at width hx hy value
  obtain ⟨ha, hb, heval⟩ := evalBinary_replaceable wf hp width hcode hx hy left right
  rw [value] at heval
  rw [← ha] at left
  rw [← hb] at right
  exact ⟨_, _, Except.ok.inj heval, h.denotes width hreads left right⟩

end

namespace Graph
variable {g g' : Graph} {f : FuncId} {env : Env} {b : BlockId} {o n : OpId}
  {new pre post gone : List OpId}

theorem lt_size_of_denotes {u : OpId} {z : UInt64} (h : Denotes g env (.result u) z) :
    u.idx < g.ops.size := by
  refine lt_size_of_code fun hcode => ?_
  cases h with
  | unary code => simp [hcode, Opcode.isUnary] at code
  | binary code => simp [hcode, Opcode.isBinary] at code

/-- New ops that have values where `o` has one change nothing. -/
theorem Inserted.simulates (h : Inserted g g' f b o new pre post) (wf : g.WellFormed f)
    (hp : g.ParamsFit f env)
    (hnew : ∀ z, Denotes g' env (.result o) z → ∀ n ∈ new, ∃ z, Denotes g' env (.result n) z) :
    Simulates g g' f env := by
  have hold : ∀ u z, Denotes g env (.result u) z → u ∉ new := by
    intro u z hz hmem
    have := h.fresh u hmem
    have := lt_size_of_denotes hz
    omega
  have hden := Denotes.carry (fun _ => id) (fun u z hz => h.code_eq (hold u z hz))
    (fun u z hz => h.bits_eq (hold u z hz)) (fun u z hz => by simp [h.args_eq (hold u z hz)])
    fun _ _ _ hv => hv
  have hacts : ∀ u ∈ g.opsOf f, ∀ a, Acts g env u a → Acts g' env u a := by
    intro u hu a ha
    have hnot := h.not_mem_new wf hu
    have hargs : (g'.op u).args = (g.op u).args.map (Option.map id) := by simp [h.args_eq hnot]
    exact ha.map id (h.code_eq hnot) (h.bits_eq hnot) (h.targets_eq hnot) hargs hden (hden _)
  refine ⟨hden, fun c hc a ha => ?_⟩
  by_cases hcb : c = b
  · subst hcb
    rw [h.before] at ha
    rw [h.after]
    refine Fate.splice ?_ (fun a ha => ha.exists_define wf hp h.o_mem h.code) ?_ ha
    · intro u hu
      exact hacts u (Graph.mem_opsOf.2 ⟨c, hc, by rwa [h.before]⟩)
    · intro z hz m hm
      have hvalue : Denotes g' env (.result o) z := by
        cases hz with
        | define value => exact value
      obtain ⟨z', hz'⟩ := hnew z hvalue m hm
      exact ⟨z', .define hz'⟩
  · rw [h.block c hcb]
    exact ha.map fun u hu => hacts u (Graph.mem_opsOf.2 ⟨c, hc, hu⟩)

/-- Users may be turned to an op that has the value of the one they used. -/
theorem Redirected.simulates (h : Redirected g g' f o n)
    (hn : ∀ z, Denotes g' env (.result o) z → Denotes g' env (.result n) z) :
    Simulates g g' f env := by
  have hturn : ∀ v x, Denotes g' env v x → Denotes g' env (redirect₁ o n v) x := by
    intro v x hv
    by_cases hvo : v = .result o
    · subst hvo
      rw [redirect₁, if_pos rfl]
      exact hn x hv
    · rwa [redirect₁, if_neg hvo]
  have hden : ∀ v x, Denotes g env v x → Denotes g' env v x := by
    refine Denotes.carry (fun u v => if u ∈ g.opsOf f then redirect₁ o n v else v)
      (fun u _ _ => h.code_eq u) (fun u _ _ => h.bits_eq u) (fun u _ _ => ?_) fun u v x hv => ?_
    · by_cases hu : u ∈ g.opsOf f
      · simp only [hu, if_true]
        exact h.args_eq hu
      · simp only [hu, if_false]
        rw [h.retuned.args_eq, if_neg hu]
        simp
    · split
      · exact hturn v x hv
      · exact hv
  refine ⟨hden, fun c hc a ha => ?_⟩
  rw [h.block c]
  refine ha.map fun u hu a ha => ?_
  have hu := Graph.mem_opsOf.2 ⟨c, hc, hu⟩
  have hturned : ∀ v x, Denotes g env v x → Denotes g' env (redirect₁ o n v) x :=
    fun v x hv => hturn v x (hden v x hv)
  exact ha.map (redirect₁ o n) (h.code_eq u) (h.bits_eq u) (h.targets_eq u) (h.args_eq hu)
    hturned (hden _)

/-- Ops that nothing uses and that cannot fail may be removed. -/
theorem Swept.simulates (h : Swept g g' f gone) (wf : g.WellFormed f) (hp : g.ParamsFit f env) :
    Simulates g g' f env := by
  have hargs : ∀ u, (g'.op u).args = (g.op u).args.map (Option.map id) := by
    intro u
    simp [h.args_eq u]
  have hden : ∀ v x, Denotes g env v x → Denotes g' env v x :=
    Denotes.carry (fun _ => id) (fun u _ _ => h.code_eq u) (fun u _ _ => h.bits_eq u)
      (fun u _ _ => hargs u) fun _ _ _ hv => hv
  refine ⟨hden, fun c hc a ha => ?_⟩
  rw [h.ops c hc]
  refine ha.filter (fun u _ a ha => ?_) fun u hu hgone a ha => ?_
  · exact ha.map id (h.code_eq u) (h.bits_eq u) (h.targets_eq u) (hargs u) hden (hden _)
  · exact ha.exists_define wf hp (h.mem u hgone) (h.code u hgone)

end Graph
end Disguise
