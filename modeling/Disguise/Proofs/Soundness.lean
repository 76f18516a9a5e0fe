import Disguise.Proofs.Checking
import Disguise.Proofs.Points

/-!
Runs of well-formed functions. At every point of a run the values of all ops on the way are known,
each op finds its operands, and so a run can only go on, return a value of the right width, use up
its budget or fail through the operands of a division or a shift.
-/
namespace Disguise
open Arithmetic Execution

/-- All branches of a function go to blocks that it lists. -/
def Graph.TargetsListed (g : Graph) (f : FuncId) : Prop :=
  ∀ o ∈ g.opsOf f, ∀ b, some b ∈ (g.op o).targets → b ∈ (g.func f).blocks

/-- In a block that is ended properly, the op that ends it is the last one. -/
theorem Graph.Ended.isTerminator_iff {g : Graph} {ops done rest : List OpId} {o : OpId}
    (h : g.Ended ops) (hops : ops = done ++ o :: rest) :
    (g.op o).code.isTerminator ↔ rest = [] := by
  obtain ⟨body, last, heq, hlast, hbody⟩ := h
  rw [hops] at heq
  rcases List.eq_nil_or_concat rest with rfl | ⟨init, a, rfl⟩
  · have : o = last := by simpa using (List.append_inj' heq (by simp)).2
    simp [this, hlast]
  · have hcons : (done ++ o :: init) ++ [a] = body ++ [last] := by simpa using heq
    have hbo := (List.append_inj' hcons (by simp)).1
    have := hbody o (by simp [← hbo])
    simp [this]

namespace Execution

/-- The ways in which a run may end: a value of the return width, a budget that is used up, or a
failure through the operands of an op. -/
inductive Proper (g : Graph) (f : FuncId) (limited : Prop) : Outcome → Prop
  | returned {v : UInt64} (h : v.toNat < 2 ^ (g.func f).retBits.toNat) :
      Proper g f limited (.returned v)
  | stepLimit (h : limited) : Proper g f limited (.failed .stepLimit)
  | fault {block : Bytes} {index : Int} {code : Opcode} {c : Fault} (h : c.FromOperands) :
      Proper g f limited (.failed (.fault block index code c))

/-- A listed op has a place in its block. -/
theorem exists_position {g : Graph} {b : BlockId} {o : OpId} (hb : (g.op o).block = some b)
    (ho : o ∈ (g.block b).ops) : ∃ i, g.position o = .ok (some i) := by
  obtain ⟨i, hi⟩ := Option.isSome_iff_exists.1 (List.isSome_idxOf?.2 ho)
  exact ⟨i, by simp [Graph.position, hb, hi]⟩

theorem stopAt_eq {g : Graph} {b : BlockId} {o : OpId} (block : Bytes) {c : Fault}
    (hc : c.FromOperands) (hb : (g.op o).block = some b) (ho : o ∈ (g.block b).ops) :
    ∃ i, stopAt g block o c = .failed (.fault block i (g.op o).code c) := by
  obtain ⟨i, hi⟩ := exists_position hb ho
  rcases hc with rfl | rfl | rfl <;> simp [stopAt, hi]

/-- Params of proper widths get values that fit, and nothing else is noted. -/
theorem bindParams_eq_ok {g : Graph} {ps : List ParamId} {vs : List UInt64} (env : Env)
    (hlen : vs.length = ps.length) (hw : ∀ p ∈ ps, Word.goodWidth (g.param p).bits) :
    ∃ env', bindParams g ps vs env = .ok env' ∧ env'.ops = env.ops ∧ ∀ p,
      (p ∈ ps ∧ ∃ x, env'.params.get p.idx = some x ∧ Word.fits x (g.param p).bits) ∨
        (p ∉ ps ∧ env'.params.get p.idx = env.params.get p.idx) := by
  induction ps generalizing vs env with
  | nil =>
    refine ⟨env, ?_, rfl, fun p => .inr ⟨by simp, rfl⟩⟩
    cases vs <;> rfl
  | cons q ps ih =>
    cases vs with
    | nil => simp at hlen
    | cons v vs =>
      have hq := hw q (by simp)
      obtain ⟨env', hbind, hops, hget⟩ :=
        @ih vs (env.setParam q (Word.low v (g.param q).bits.toNat))
        (by simpa using hlen) fun p hp => hw p (by simp [hp])
      refine ⟨env', ?_, hops, fun p => ?_⟩
      · simpa [bindParams, Word.truncate_of_good hq] using hbind
      · rcases hget p with ⟨hmem, hx⟩ | ⟨hmem, hsame⟩
        · exact .inl ⟨by simp [hmem], hx⟩
        · simp only [Env.setParam, Table.get_set] at hsame
          split at hsame
          · rename_i heq
            have heq := ParamId.idx_inj.1 heq
            subst heq
            exact .inl ⟨by simp, _, hsame, Word.fits_low hq v⟩
          · rename_i hne
            refine .inr ⟨?_, hsame⟩
            simp only [List.mem_cons, not_or]
            exact ⟨fun heq => hne (by rw [heq]), hmem⟩

end Execution

variable [FloatUnit]

/-- An op of the function fails through its operands only. -/
theorem Graph.WellFormed.fromOperands_of_acts {g : Graph} {f : FuncId} {start : Env} {o : OpId}
    {c : Fault} (wf : g.WellFormed f) (ho : o ∈ g.opsOf f) (h : Acts g start o (.fail c)) :
    c.FromOperands := by
  cases h with
  | @fail v w x y _ code args left right fault =>
    obtain ⟨width, float, -⟩ := (wf.form o ho).of_binary code args
    rcases evalBinary_cases code width float x y with ⟨z, hz, -⟩ | ⟨c', hc', hfrom⟩
    · rw [fault] at hz
      cases hz
    · rw [fault] at hc'
      rwa [Except.error.inj hc']

/-- What a function returns has its return width. -/
theorem Graph.WellFormed.lt_of_acts_ret {g : Graph} {f : FuncId} {start : Env} {o : OpId}
    {v : UInt64} (wf : g.WellFormed f) (hp : g.ParamsFit f start) (ho : o ∈ g.opsOf f)
    (h : Acts g start o (.ret v)) : v.toNat < 2 ^ (g.func f).retBits.toNat := by
  cases h with
  | ret code args arg =>
    cases wf.form o ho with
    | ret v' code' args' targets operand =>
      rw [args] at args'
      simp only [List.cons.injEq, Option.some.injEq, and_true] at args'
      subst args'
      exact (Word.fits_iff wf.retWidth).1 (wf.fits_of_denotes hp operand arg)
    | binary _ _ code' => simp [code, Opcode.isBinary] at code'
    | unary _ code' => simp [code, Opcode.isUnary] at code'
    | br _ code' => simp [code] at code'
    | brif _ _ _ code' => simp [code] at code'

namespace Execution

/-- What holds at every point of a run that started with the params of `start`. The run came to
block number `i` through the blocks on `way`, and has run the ops `done` of it. -/
structure Sound (g : Graph) (f : FuncId) (start : Env) (way : List Nat) (i : Nat)
    (done : List OpId) (p : Point) : Prop where
  path : (g.flow f).Path (i :: way) i
  block : (g.func f).blocks[i]? = some p.block
  split : (g.block p.block).ops = done ++ p.rest
  params : p.env.params = start.params
  known : ∀ o x, p.env.ops.get o.idx = some x → o ∈ g.opsOf f ∧ Denotes g start (.result o) x
  earlier : ∀ j ∈ way, ∀ b, (g.func f).blocks[j]? = some b → ∀ o ∈ (g.block b).ops,
    (g.op o).code.isTerminator = false → ∃ x, p.env.ops.get o.idx = some x
  here : ∀ o ∈ done, (g.op o).code.isTerminator = false → ∃ x, p.env.ops.get o.idx = some x
  next : (p.next = none ∧ p.rest ≠ []) ∨ (p.rest = [] ∧ ∃ b k, p.next = some b ∧
    (g.func f).blocks[k]? = some b ∧ k ∈ (g.flow f).successors i)

namespace Sound
variable {g : Graph} {f : FuncId} {start : Env} {way : List Nat} {i : Nat} {done : List OpId}
  {p : Point} (h : Sound g f start way i done p)
include h

theorem block_mem : p.block ∈ (g.func f).blocks := List.mem_of_getElem? h.block

variable (wf : g.WellFormed f) (hp : g.ParamsFit f start)
include wf hp

/-- An operand of the next op has a value, and it is the one it denotes. -/
theorem operand_known {o : OpId} {rest : List OpId} (hrest : p.rest = o :: rest) {bits : Int}
    {v : Operand} (hv : g.OperandOk f o bits v) :
    ∃ x, p.env.get? v = some x ∧ Denotes g start v x := by
  have hne : (g.func f).blocks ≠ [] := List.ne_nil_of_mem h.block_mem
  have hclosed := Graph.closed_flow hne
  cases v with
  | const c => exact ⟨c.val, rfl, .const c⟩
  | param q =>
    obtain ⟨x, hx, -⟩ := hp q hv.1
    exact ⟨x, by rw [Env.get?, h.params]; exact hx, .param hx⟩
  | result d =>
    obtain ⟨hd, -, hterm, havail⟩ := hv
    obtain ⟨b, hb, hdb⟩ := Graph.mem_opsOf.1 hd
    obtain ⟨j, hj⟩ := List.getElem?_of_mem hb
    obtain ⟨above, habove⟩ := Flow.exists_dominators hclosed h.path
    have ho : o ∈ (g.block p.block).ops := by simp [h.split, hrest]
    have hkey := havail j i b p.block above hj hdb h.block ho habove
    have hdef : ∃ x, p.env.ops.get d.idx = some x := by
      by_cases hji : j = i
      · -- in the same block: the op comes before this one, so it is among those that have been run
        subst hji
        have hbc : b = p.block := Option.some.inj (hj.symm.trans h.block)
        subst hbc
        rw [if_pos rfl, h.split, hrest] at hkey
        have hn := wf.opsNodup p.block hb
        rw [h.split, hrest] at hn
        exact h.here d (mem_of_pair_sublist hn rfl hkey) hterm
      · -- in another block: it lies on the path by which the run has come
        rw [if_neg hji] at hkey
        have hmem := Flow.mem_path_of_dominators hclosed h.path habove hkey
        rcases List.mem_cons.1 hmem with heq | hmem
        · exact absurd heq hji
        · exact h.earlier j hmem b hj d hdb hterm
    obtain ⟨x, hx⟩ := hdef
    exact ⟨x, hx, (h.known d x hx).2⟩

/-- The next op acts in some way, and this is the effect it has. -/
theorem exists_acts {o : OpId} {rest : List OpId} (hrest : p.rest = o :: rest) :
    ∃ a, Acts g start o a ∧ effect g (g.block p.block).name p.env o =
      a.effect g (g.block p.block).name o := by
  have ho : o ∈ g.opsOf f :=
    Graph.mem_opsOf.2 ⟨p.block, h.block_mem, by simp [h.split, hrest]⟩
  suffices ∃ a, Acts g start o a ∧ Informed g start p.env o by
    obtain ⟨a, ha, hi⟩ := this
    exact ⟨a, ha, effect_of_acts _ hi ha⟩
  cases wf.form o ho with
  | binary x y code args targets width float left right =>
    obtain ⟨a, ha, hda⟩ := h.operand_known wf hp hrest left
    obtain ⟨b, hb, hdb⟩ := h.operand_known wf hp hrest right
    have hi : Informed g start p.env o := by
      rw [Informed, args]
      simp only [List.mem_cons, Option.some.injEq, List.not_mem_nil, or_false, forall_eq_or_imp,
        forall_eq]
      exact ⟨hda.known ha, hdb.known hb⟩
    cases hev : evalBinary (g.op o).code (g.op o).bits a b with
    | ok z => exact ⟨_, .define (.binary code args hda hdb hev), hi⟩
    | error c => exact ⟨_, .fail code args hda hdb hev, hi⟩
  | unary x code args targets width operand =>
    obtain ⟨a, ha, hda⟩ := h.operand_known wf hp hrest operand
    obtain ⟨z, hz, -⟩ := evalUnary_eq_ok width (g.op o).code a
    exact ⟨_, .define (.unary code args hda hz), informed_of_args args (hda.known ha)⟩
  | ret x code args targets operand =>
    obtain ⟨a, ha, hda⟩ := h.operand_known wf hp hrest operand
    exact ⟨_, .ret code args hda, informed_of_args args (hda.known ha)⟩
  | br t code args targets owner =>
    refine ⟨_, .br code targets, ?_⟩
    intro v hv
    simp [args] at hv
  | brif x t e code args targets yes no operand =>
    obtain ⟨a, ha, hda⟩ := h.operand_known wf hp hrest operand
    exact ⟨_, .brif code args targets hda, informed_of_args args (hda.known ha)⟩

end Sound

namespace Sound
variable {g : Graph} {f : FuncId} {start : Env} {way : List Nat} {i : Nat} {done rest : List OpId}
  {p : Point} {o : OpId} (h : Sound g f start way i done p) (wf : g.WellFormed f)
include h

theorem mem_of_rest (hrest : p.rest = o :: rest) : o ∈ (g.block p.block).ops := by
  simp [h.split, hrest]

include wf

/-- The next block is entered. -/
theorem enter (hrest : p.rest = []) : ∃ b k, p.next = some b ∧
    Sound g f start (i :: way) k [] (.enter g b p.env p.budget) := by
  obtain ⟨b, k, hnext, hk, hsucc⟩ : ∃ b k, p.next = some b ∧ (g.func f).blocks[k]? = some b ∧
      k ∈ (g.flow f).successors i := by
    rcases h.next with ⟨-, hne⟩ | ⟨-, hb⟩
    · exact absurd hrest hne
    · exact hb
  obtain ⟨body, last, hops, -, -⟩ := wf.ended b (List.mem_of_getElem? hk)
  refine ⟨b, k, hnext, ?_⟩
  constructor
  case path => exact h.path.step hsucc
  case block => exact hk
  case split => rfl
  case params => exact h.params
  case known => exact h.known
  case here => simp
  case next => exact .inl ⟨rfl, by simp [Point.enter, hops]⟩
  case earlier =>
    intro j hj c hc o ho hterm
    rcases List.mem_cons.1 hj with rfl | hj
    · have hcb : c = p.block := Option.some.inj (hc.symm.trans h.block)
      subst hcb
      rw [h.split, hrest, List.append_nil] at ho
      exact h.here o ho hterm
    · exact h.earlier j hj c hc o ho hterm

/-- The value of the next op is noted. -/
theorem define (hrest : p.rest = o :: rest) {z : UInt64} (value : Denotes g start (.result o) z)
    (budget : Budget) :
    Sound g f start way i (done ++ [o]) ⟨p.block, rest, p.env.setOp o z, p.next, budget⟩ := by
  have hof := Graph.mem_opsOf.2 ⟨p.block, h.block_mem, h.mem_of_rest hrest⟩
  have hnone : p.next = none := by
    rcases h.next with ⟨hn, -⟩ | ⟨hnil, -⟩
    · exact hn
    · rw [hrest] at hnil
      cases hnil
  have hne : rest ≠ [] := by
    intro hnil
    have hterm := ((wf.ended p.block h.block_mem).isTerminator_iff
      (by rw [h.split, hrest])).2 hnil
    simp [value.not_isTerminator] at hterm
  constructor
  case path => exact h.path
  case block => exact h.block
  case split => simp [h.split, hrest]
  case params => exact h.params
  case next => exact .inl ⟨hnone, hne⟩
  case known =>
    intro u x hx
    simp only [Env.setOp, Table.get_set] at hx
    split at hx
    · rename_i hu
      rw [OpId.idx_inj.1 hu]
      exact ⟨hof, Option.some.inj hx ▸ value⟩
    · exact h.known u x hx
  case earlier =>
    intro j hj b hb u hu huterm
    simp only [Env.setOp, Table.get_set]
    split
    · exact ⟨z, rfl⟩
    · exact h.earlier j hj b hb u hu huterm
  case here =>
    intro u hu huterm
    simp only [Env.setOp, Table.get_set]
    split
    · exact ⟨z, rfl⟩
    · rename_i hne
      rcases List.mem_append.1 hu with hu | hu
      · exact h.here u hu huterm
      · simp only [List.mem_cons, List.not_mem_nil, or_false] at hu
        rw [hu] at hne
        exact absurd rfl hne

/-- A branch ends its block and leads to one of the function. -/
theorem branch (ht : g.TargetsListed f) (hrest : p.rest = o :: rest) {t : BlockId}
    (hterm : (g.op o).code.isTerminator) (htarget : some t ∈ (g.op o).targets) (budget : Budget) :
    Sound g f start way i (done ++ [o]) ⟨p.block, rest, p.env, some t, budget⟩ := by
  have hof := Graph.mem_opsOf.2 ⟨p.block, h.block_mem, h.mem_of_rest hrest⟩
  have hnil : rest = [] :=
    ((wf.ended p.block h.block_mem).isTerminator_iff (by rw [h.split, hrest])).1 hterm
  have hsplit : (g.block p.block).ops = (done ++ [o]) ++ rest := by simp [h.split, hrest]
  obtain ⟨k, hk⟩ := List.getElem?_of_mem (ht o hof t htarget)
  have hend : g.terminator? p.block = some o := by
    simp [Graph.terminator?, hsplit, hnil, hterm]
  have hsucc := Graph.mem_successors_flow wf.blocksNodup h.block hk hend htarget
  refine ⟨h.path, h.block, hsplit, h.params, h.known, h.earlier, ?_,
    .inr ⟨hnil, t, k, rfl, hk, hsucc⟩⟩
  intro u hu huterm
  rcases List.mem_append.1 hu with hu | hu
  · exact h.here u hu huterm
  · simp only [List.mem_cons, List.not_mem_nil, or_false] at hu
    rw [hu, hterm] at huterm
    cases huterm

end Sound

section
variable {g : Graph} {f : FuncId} {start : Env} (wf : g.WellFormed f) (ht : g.TargetsListed f)
  (hp : g.ParamsFit f start)
include wf ht hp

/-- One step keeps a run sound or ends it properly. -/
theorem advance_sound {way : List Nat} {i : Nat} {done : List OpId} {p : Point}
    (h : Sound g f start way i done p) :
    (∃ out, advance g p = .inl out ∧ Proper g f (p.budget = some 0) out) ∨
      ∃ q way' i' done', advance g p = .inr q ∧ Sound g f start way' i' done' q := by
  cases hrest : p.rest with
  | nil =>
    obtain ⟨b, k, hnext, hsound⟩ := h.enter wf hrest
    exact .inr ⟨_, _, _, _, by simp [advance, hrest, hnext], hsound⟩
  | cons o rest =>
    have ho := h.mem_of_rest hrest
    have hof : o ∈ g.opsOf f := Graph.mem_opsOf.2 ⟨p.block, h.block_mem, ho⟩
    cases hs : spend p.budget with
    | none =>
      refine .inl ⟨_, by simp [advance, hrest, hs], .stepLimit ?_⟩
      cases hb : p.budget with
      | none => simp [hb, spend] at hs
      | some n =>
        cases n with
        | zero => rfl
        | succ n => simp [hb, spend] at hs
    | some budget =>
      obtain ⟨a, ha, heff⟩ := h.exists_acts wf hp hrest
      cases ha with
      | @define z value =>
        exact .inr ⟨_, _, _, _, by simp [advance, hrest, hs, heff, Action.effect],
          h.define wf hrest value budget⟩
      | @fail v w x y c code args left right fault =>
        have hfrom := wf.fromOperands_of_acts hof (.fail code args left right fault)
        obtain ⟨k, hk⟩ := stopAt_eq (g.block p.block).name hfrom
          (wf.opOwner p.block h.block_mem o ho) ho
        refine .inl ⟨.failed (.fault (g.block p.block).name k (g.op o).code c), ?_, .fault hfrom⟩
        simp [advance, hrest, hs, heff, Action.effect, hk]
      | @ret v x code args arg =>
        have hlt := wf.lt_of_acts_ret hp hof (.ret code args arg)
        refine .inl ⟨.returned x, ?_, .returned hlt⟩
        simp [advance, hrest, hs, heff, Action.effect]
      | @br t code targets =>
        have hterm : (g.op o).code.isTerminator := by simp [code, Opcode.isTerminator]
        have hsound := h.branch wf ht hrest hterm (t := t) (by simp [targets]) budget
        exact .inr ⟨_, _, _, _, by simp [advance, hrest, hs, heff, Action.effect], hsound⟩
      | @brif v x t e code args targets arg =>
        have hterm : (g.op o).code.isTerminator := by simp [code, Opcode.isTerminator]
        have htarget : some (if x = 0 then e else t) ∈ (g.op o).targets := by
          split <;> simp [targets]
        have hsound := h.branch wf ht hrest hterm htarget budget
        exact .inr ⟨_, _, _, _, by simp [advance, hrest, hs, heff, Action.effect], hsound⟩

/-- All points of a run that starts soundly are sound. -/
theorem sound_of_reaches {p q : Point} (hr : Reaches g p q) {way : List Nat} {i : Nat}
    {done : List OpId} (h : Sound g f start way i done p) :
    ∃ way' i' done', Sound g f start way' i' done' q := by
  induction hr with
  | here => exact ⟨way, i, done, h⟩
  | step _ now ih =>
    obtain ⟨way', i', done', h'⟩ := ih
    rcases advance_sound wf ht hp h' with ⟨out, hout, -⟩ | ⟨q, w, j, d, hq, hs⟩
    · rw [now] at hout
      cases hout
    · rw [now] at hq
      cases hq
      exact ⟨w, j, d, hs⟩

end

/-- The values on record at a sound point fit their widths. -/
theorem Sound.op_lt {g : Graph} {f : FuncId} {start : Env} {way : List Nat} {i : Nat}
    {done : List OpId} {p : Point} (h : Sound g f start way i done p) (wf : g.WellFormed f)
    {o : OpId} {x : UInt64} (hx : p.env.ops.get o.idx = some x) :
    x.toNat < 2 ^ (g.op o).bits.toNat := by
  obtain ⟨ho, hden⟩ := h.known o x hx
  obtain ⟨hwidth, hfit⟩ := wf.fits_result ho hden
  exact (Word.fits_iff hwidth).1 hfit

/-- The beginning of a function is a sound point. -/
theorem sound_enter {g : Graph} {f : FuncId} {start : Env} {entry : BlockId} (wf : g.WellFormed f)
    (hentry : (g.func f).blocks.head? = some entry) (hops : start.ops = .empty) (budget : Budget) :
    Sound g f start [] 0 [] (.enter g entry start budget) := by
  have hmem := List.mem_of_head? hentry
  obtain ⟨body, last, heq, -, -⟩ := wf.ended entry hmem
  have hknown : ∀ o x, start.ops.get (OpId.idx o) = some x →
      o ∈ g.opsOf f ∧ Denotes g start (.result o) x := by
    intro o x hx
    rw [hops, Table.get_empty] at hx
    cases hx
  have hblock : (g.func f).blocks[0]? = some entry := by
    rw [← List.head?_eq_getElem?, hentry]
  have hrest : (g.block entry).ops ≠ [] := by simp [heq]
  exact ⟨.entry, hblock, rfl, rfl, hknown, by simp, by simp, .inl ⟨rfl, hrest⟩⟩

/-- A pass through some ops spends a step for each. -/
theorem budget_of_runOps {g : Graph} {block : Bytes} {ops : List OpId} {env env' : Env}
    {next next' : Option BlockId} {n : Nat} {left : Budget}
    (h : runOps g block ops env next (some n) = .leave env' next' left) :
    ∃ n', left = some n' ∧ n = n' + ops.length := by
  induction ops generalizing env next n with
  | nil =>
    simp only [runOps, Pass.leave.injEq] at h
    exact ⟨n, h.2.2.symm, rfl⟩
  | cons o ops ih =>
    cases n with
    | zero => simp [runOps, spend] at h
    | succ n =>
      simp only [runOps, spend] at h
      split at h
      · cases h
      · obtain ⟨n', hn', hlen⟩ := ih h
        exact ⟨n', hn', by simp [hlen]; omega⟩
      · obtain ⟨n', hn', hlen⟩ := ih h
        exact ⟨n', hn', by simp [hlen]; omega⟩

end Execution
end Disguise
