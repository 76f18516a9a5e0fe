import Disguise.Generation
import Disguise.Proofs.Choices
import Disguise.Proofs.Sketches

/-!
Random ops. The pools of a generator hold values of the blocks they belong to, so what it picks for
a block is at hand there; each op it places keeps the sketch one, with the guards that the op needs,
and a block that gets its last operand is done.
-/
namespace Disguise.Generation
open Disguise.Graph Word Results

/-- The values and conditions of a generator are where it says, in a sketch of at most `count` ops
whose first `n` blocks are done. -/
structure Ready (g₀ : Graph) (f : FuncId) (bits : Int) (fn : Func) (n count : Nat) (s : State) :
    Prop where
  func_eq : s.func = f
  bits_eq : s.bits = bits
  width : goodWidth bits
  sketch : Sketch g₀ s.graph f n
  graph_eq : s.graph.func f = fn
  ret_eq : fn.retBits = bits
  dominators_eq : s.dominators = s.graph.dominators f
  values : ∀ j, ∀ v ∈ s.values.getD j [], s.graph.Defines f bits j v
  conditions : ∀ j, ∀ v ∈ s.conditions.getD j [], s.graph.Defines f 1 j v
  numOps : s.graph.numOps f ≤ count

theorem fits_one {bits : Int} (hg : goodWidth bits) : fits 1 bits := by
  rw [fits_iff hg]
  obtain ⟨w, rfl, h1, -⟩ := goodWidth_iff.1 hg
  exact Nat.one_lt_two_pow (by simp; omega)

/-- Every width is a word of that width. -/
theorem fits_width {bits : Int} (hg : goodWidth bits) : fits (UInt64.ofInt bits) bits := by
  rw [fits_iff hg]
  have hval := Arithmetic.toNat_ofInt hg
  obtain ⟨w, rfl, -, -⟩ := goodWidth_iff.1 hg
  have := Nat.lt_two_pow_self (n := w)
  simp only [Int.toNat_natCast]
  omega

theorem offers_const {g : Graph} {f : FuncId} {i : Nat} {w : Int} {v : UInt64} (hv : fits v w) :
    g.Offers f w i (.const ⟨v, w⟩) := .inl ⟨_, rfl, rfl, hv⟩

/-- A constant that fits is made as it is. -/
theorem always_constant {bits : Int} (hg : goodWidth bits) (v : UInt64) (hv : fits v bits) :
    Always (State.constant bits v) fun x => x = .const ⟨v, bits⟩ := by
  have hlow : low v bits.toNat = v := by simpa [fits] using hv
  refine (Always.lift (P := fun c => c = ⟨v, bits⟩) ?_ rfl).bind fun c hc => ?_
  · rw [Graph.constant, truncate_of_good hg, hlow]
    rfl
  · rw [hc]
    exact .pure rfl

/-- The codes that need a guard take two operands of any width. -/
theorem binary_of_fails {code : Opcode} (bits : Int)
    (h : code ∈ [Opcode.udiv, .urem, .sdiv, .srem, .shl, .lshr, .ashr]) :
    code.isBinary ∧ (code.isFloat → bits = 32 ∨ bits = 64) := by
  have hall : ∀ c ∈ [Opcode.udiv, .urem, .sdiv, .srem, .shl, .lshr, .ashr],
      c.isBinary ∧ c.isFloat = false := by decide
  obtain ⟨hbinary, hfloat⟩ := hall code h
  exact ⟨hbinary, by simp [hfloat]⟩

theorem mem_visible {s : State} {bi : Nat} {pools : List (List Operand)} {v : Operand}
    (h : v ∈ s.visible bi pools) : ∃ j, v ∈ pools.getD j [] ∧
      ((s.dominators.getD bi none).getD default).contains j := by
  obtain ⟨j, -, hj⟩ := List.mem_flatMap.1 h
  split at hj
  · rename_i hcontains
    exact ⟨j, hj, hcontains⟩
  · cases hj

theorem pick_mem {vals : List Operand} {i : Nat} (hi : i < vals.length) :
    State.pick vals i ∈ vals := by
  rw [State.pick, List.getD_eq_getElem?_getD, List.getElem?_eq_getElem hi]
  exact List.getElem_mem hi

/-- What is on the menu for a width. -/
theorem mem_codes {bits : Int} {code : Opcode} (h : code ∈ codes bits) :
    (code.isBinary ∨ code.isUnary) ∧ (code.isFloat → bits = 32 ∨ bits = 64) ∧
      (code = .sdiv ∨ code = .srem → bits ≠ 1) := by
  have hkind : ∀ c ∈ Opcode.all, c.isTerminator = false → c.isBinary ∨ c.isUnary := by decide
  obtain ⟨c, hall, hc⟩ := List.mem_flatMap.1 h
  split at hc
  · cases hc
  · rename_i hterm
    split at hc
    · cases hc
    · rename_i hfloat
      split at hc
      · cases hc
      · rename_i hsigned
        obtain rfl : code = c := by
          split at hc
          · simpa using hc
          · simpa using hc
        refine ⟨hkind code hall (by simpa using hterm), fun hf => ?_, fun hs hb => ?_⟩
        · by_contra hne
          exact hfloat (by simp [hf]; tauto)
        · exact hsigned (by simp [hb]; tauto)

namespace Ready
variable {g₀ : Graph} {f : FuncId} {bits : Int} {fn : Func} {n count : Nat} {s : State}
  (h : Ready g₀ f bits fn n count s)
include h

theorem offers_of_visible {bi : Nat} {w : Int} {pools : List (List Operand)} {v : Operand}
    (hp : ∀ j, ∀ v ∈ pools.getD j [], s.graph.Defines f w j v) (hv : v ∈ s.visible bi pools) :
    s.graph.Offers f w bi v := by
  obtain ⟨j, hj, hcontains⟩ := mem_visible hv
  refine .inr ⟨j, hp j v hj, .inr fun above habove => ?_⟩
  rw [h.dominators_eq, List.getD_eq_getElem?_getD, habove] at hcontains
  exact hcontains

omit h in
theorem always_random (bi : Nat) {w : Int} (hg : goodWidth w) :
    Always (do State.constant w (← Choice.biased w)) fun v => s.graph.Offers f w bi v :=
  (Always.biased hg).bind fun v hv =>
    (always_constant hg v hv).mono fun _ hx => hx ▸ offers_const hv

omit h in
/-- Where nothing is on offer there is still a random constant. -/
theorem always_random_or (bi : Nat) {w : Int} (hg : goodWidth w) {vals : List Operand} {n : Int}
    (hn : 0 < n) {pick : Choice Operand}
    (hpick : vals ≠ [] → Always pick fun v => s.graph.Offers f w bi v) :
    Always (do
      if ← (if vals.isEmpty then pure true else Choice.oneIn n) then
        State.constant w (← Choice.biased w)
      else pick) fun v => s.graph.Offers f w bi v := by
  have hrandom := always_random (s := s) (f := f) bi hg
  cases vals with
  | nil =>
    exact (Always.pure (P := fun b => b = true) rfl).bind fun b hb =>
      .ite (fun _ => hrandom) fun hne => absurd hb hne
  | cons x xs =>
    exact (Always.oneIn hn).bind fun _ _ =>
      .ite (fun _ => hrandom) fun _ => hpick (List.cons_ne_nil x xs)

theorem always_operand (bi : Nat) :
    Always (s.operand bi) fun v => s.graph.Offers f bits bi v := by
  unfold State.operand
  dsimp only
  have hpick : ∀ i < (s.visible bi s.values).length,
      s.graph.Offers f bits bi (State.pick (s.visible bi s.values) i) :=
    fun i hi => h.offers_of_visible h.values (pick_mem hi)
  generalize s.visible bi s.values = vals at hpick
  rw [h.bits_eq]
  refine always_random_or bi h.width (by decide) fun hne => ?_
  have hpos := List.length_pos_iff.2 hne
  refine Always.coin.bind fun _ _ => .ite (fun _ => ?_) fun _ => ?_
  · refine (Always.below (by omega)).bind fun i hi => .pure (hpick _ ?_)
    omega
  · exact (Always.below (by omega)).bind fun i hi => .pure (hpick _ (by simpa using hi))

theorem always_condition (bi : Nat) :
    Always (s.condition bi) fun v => s.graph.Offers f 1 bi v := by
  unfold State.condition
  dsimp only
  have hpick : ∀ i < (s.visible bi s.conditions).length,
      s.graph.Offers f 1 bi (State.pick (s.visible bi s.conditions) i) :=
    fun i hi => h.offers_of_visible h.conditions (pick_mem hi)
  generalize s.visible bi s.conditions = vals at hpick
  refine always_random_or bi rfl (by decide) fun hne => ?_
  have hpos := List.length_pos_iff.2 hne
  exact (Always.below (by omega)).bind fun i hi => .pure (hpick _ (by simpa using hi))

/-- What the last op of block number `n` is. -/
theorem exists_last (hn : n < fn.blocks.length) : ∃ b body last,
    (s.graph.func f).blocks[n]? = some b ∧
    (s.graph.func s.func).blocks.getD n default = b ∧ (s.graph.block b).ops = body ++ [last] ∧
    s.graph.terminator? b = some last := by
  have hget : (s.graph.func f).blocks[n]? = some fn.blocks[n] := by
    rw [h.graph_eq, List.getElem?_eq_getElem hn]
  obtain ⟨body, last, hops, hterm⟩ := h.sketch.exists_last (List.mem_of_getElem? hget)
  refine ⟨_, body, last, hget, ?_, hops, hterm⟩
  rw [h.func_eq, List.getD_eq_getElem?_getD, hget]
  rfl

/-- A grown graph of a generator that has not forgotten anything. -/
theorem regrow {g' : Graph} {n' count' : Nat} (hgrow : Growth s.graph g' f)
    (hsketch : Sketch g₀ g' f n') (hops : g'.numOps f ≤ count') :
    Ready g₀ f bits fn n' count' { s with graph := g' } where
  func_eq := h.func_eq
  bits_eq := h.bits_eq
  width := h.width
  sketch := hsketch
  graph_eq := (hgrow.func f).trans h.graph_eq
  ret_eq := h.ret_eq
  dominators_eq := h.dominators_eq.trans hgrow.dominators.symm
  values j v hv := hgrow.defines h.sketch.exact (h.values j v hv)
  conditions j v hv := hgrow.defines h.sketch.exact (h.conditions j v hv)
  numOps := hops

end Ready

/-- An op with the given contents has been placed in block number `n`, and its result is `v`. -/
structure Emitted (g g' : Graph) (f : FuncId) (n : Nat) (code : Opcode) (w : Int)
    (args : List Operand) (v : Operand) : Prop where
  growth : Growth g g' f
  binaries : g.SameBinaries g'
  defines : g'.Defines f w n v
  result : ∃ d, v = .result d ∧ (g'.op d).code = code ∧ (g'.op d).bits = w ∧
    (g'.op d).args = args.map some

namespace Emitted
variable {g g' : Graph} {f : FuncId} {n : Nat} {code : Opcode} {w : Int} {args : List Operand}
  {v : Operand} (h : Emitted g g' f n code w args v)
include h

theorem offers : g'.Offers f w n v := .inr ⟨n, h.defines, .inl rfl⟩

theorem combines {x : Operand} {k : UInt64} (hargs : args = [x, .const ⟨k, w⟩]) :
    g'.Combines w code k v := by
  obtain ⟨d, hd, hcode, hbits, hlist⟩ := h.result
  exact ⟨d, x, hd, hcode, hbits, by rw [hlist, hargs]; rfl⟩

end Emitted

theorem mem_modify_append {pools : List (List Operand)} {n j : Nat} {v w : Operand}
    (h : w ∈ (pools.modify n (· ++ [v])).getD j []) : w ∈ pools.getD j [] ∨ j = n ∧ w = v := by
  rw [List.getD_eq_getElem?_getD, List.getElem?_modify] at h
  rw [List.getD_eq_getElem?_getD]
  cases hget : pools[j]? with
  | none => simp [hget] at h
  | some pool =>
    by_cases hj : n = j
    · simpa [hget, hj] using h
    · left
      simpa [hget, hj] using h

namespace Ready
variable {g₀ : Graph} {f : FuncId} {bits : Int} {fn : Func} {n count : Nat} {s : State}
  (h₀ : g₀.Exact fun _ => []) (h : Ready g₀ f bits fn n count s) (hn : n < fn.blocks.length)
include h₀ h hn

/-- An op is placed at the end of the block that is being filled. -/
theorem place {code : Opcode} {w : Int} {args : List Operand} (hw : goodWidth w)
    (hs : s.graph.Suits f n code w args) (hguard : s.graph.Guarded code w (args.map some)) :
    ∃ g' v, s.place n code w args = .ok ({ s with graph := g' }, v) ∧
      Ready g₀ f bits fn n (count + 1) { s with graph := g' } ∧
      Emitted s.graph g' f n code w args v := by
  obtain ⟨b, body, last, hi, hget, hops, hterm⟩ := h.exists_last hn
  have hb := List.mem_of_getElem? hi
  have hout : ∀ v, some v ∈ args.map some → g₀.Outside v := by
    intro v hv
    have hmem : v ∈ args := by simpa using hv
    exact h.sketch.outside_of_offers h₀ (hs.offers hmem)
  obtain ⟨g', hok, hex, hap, hp⟩ := exists_placing_before h.sketch.exact h.sketch.apart
    (h.sketch.blockNew b hb) hout hops code w
  have hgrow : Growth s.graph g' f := hp.growth h.sketch.exact (by simp)
  have hsketch := h.sketch.place hi hp hex hap hw hs hguard
  have hcount := hp.numOps h.sketch.blocksNodup hb
  refine ⟨g', .result ⟨s.graph.ops.size⟩, ?_, h.regrow hgrow hsketch ?_, hgrow, hp.sameBinaries,
    ⟨?_, ?_, b, ?_, ?_⟩, ⟨_, rfl, ?_, ?_, ?_⟩⟩
  · simp only [State.place, hget, hterm]
    simp only [newOp] at hok ⊢
    rw [hok]
    rfl
  · have := h.numOps
    omega
  · exact hp.new_bits
  · rw [hp.new_code]
    exact hs.isTerminator
  · rw [hgrow.func]
    exact hi
  · exact hp.mem_ops.2 (.inr ⟨rfl, rfl⟩)
  · exact hp.new_code
  · exact hp.new_bits
  · exact hp.new_args

/-- The result of the placed op is offered as a value. -/
theorem always_emit {code : Opcode} {args : List Operand} (hs : s.graph.Suits f n code bits args)
    (hguard : s.graph.Guarded code bits (args.map some)) :
    Always (s.emit n code args) fun p => Ready g₀ f bits fn n (count + 1) p.1 ∧
      Emitted s.graph p.1.graph f n code bits args p.2 := by
  obtain ⟨g', v, hok, hready, hemit⟩ := h.place h₀ hn h.width hs hguard
  unfold State.emit
  rw [h.bits_eq]
  refine (Always.lift (P := fun p => p = ({ s with graph := g' }, v)) hok rfl).bind ?_
  rintro _ rfl
  refine .pure ⟨{ hready with values := fun j w hw => ?_ }, hemit⟩
  rcases mem_modify_append hw with hw | ⟨rfl, rfl⟩
  · exact hready.values j w hw
  · exact hemit.defines

theorem always_addCondition :
    Always (s.addCondition n) (Ready g₀ f bits fn n (count + 1)) := by
  refine (Always.below (by decide)).bind fun k _ => ?_
  have hcode : ∀ k, ([Opcode.and, .or, .xor, .add].getD k .and).isBinary ∧
      ([Opcode.and, .or, .xor, .add].getD k .and).isFloat = false ∧
      [Opcode.and, .or, .xor, .add].getD k .and ∉
        [Opcode.udiv, .urem, .sdiv, .srem, .shl, .lshr, .ashr] := by
    intro k
    rcases k with _ | _ | _ | _ | k <;> simp [Opcode.isBinary, Opcode.isFloat]
  obtain ⟨hbinary, hfloat, hfree⟩ := hcode k
  refine (h.always_condition n).bind fun x hx => ?_
  refine (h.always_condition n).bind fun y hy => ?_
  have hwidths : ([Opcode.and, .or, .xor, .add].getD k .and).isFloat →
      (1 : Int) = 32 ∨ (1 : Int) = 64 := by
    intro hf
    rw [hfloat] at hf
    cases hf
  obtain ⟨g', v, hok, hready, hemit⟩ :=
    h.place h₀ hn rfl (.binary hbinary hwidths hx hy) (.free hfree)
  refine (Always.lift (P := fun p => p = ({ s with graph := g' }, v)) hok rfl).bind ?_
  rintro _ rfl
  refine .pure { hready with conditions := fun j w hw => ?_ }
  rcases mem_modify_append hw with hw | ⟨rfl, rfl⟩
  · exact hready.conditions j w hw
  · exact hemit.defines

omit h₀ hn in
theorem mono {count' : Nat} (hle : count ≤ count') : Ready g₀ f bits fn n count' s :=
  { h with numOps := Nat.le_trans h.numOps hle }

theorem always_unary {code : Opcode} (hcode : code.isUnary) :
    Always (do
      let (s, _) ← s.emit n code [← s.operand n]
      pure s) (Ready g₀ f bits fn n (count + 3)) := by
  have hfree : code ∉ [Opcode.udiv, .urem, .sdiv, .srem, .shl, .lshr, .ashr] := by
    cases code <;> simp_all [Opcode.isUnary]
  refine (h.always_operand n).bind fun x hx => ?_
  refine (h.always_emit h₀ hn (.unary hcode hx) (.free hfree)).bind ?_
  rintro ⟨s₁, v⟩ ⟨h₁, -⟩
  exact .pure (h₁.mono (by omega))

theorem always_plain {code : Opcode} (hcode : code.isBinary)
    (hfloat : code.isFloat → bits = 32 ∨ bits = 64)
    (hfree : code ∉ [Opcode.udiv, .urem, .sdiv, .srem, .shl, .lshr, .ashr]) :
    Always (do
      let x ← s.operand n
      let (s, _) ← s.emit n code [x, ← s.operand n]
      pure s) (Ready g₀ f bits fn n (count + 3)) := by
  refine (h.always_operand n).bind fun x hx => ?_
  refine (h.always_operand n).bind fun y hy => ?_
  refine (h.always_emit h₀ hn (.binary hcode hfloat hx hy) (.free hfree)).bind ?_
  rintro ⟨s₁, v⟩ ⟨h₁, -⟩
  exact .pure (h₁.mono (by omega))

/-- A divisor is made odd. -/
theorem always_quotient {code : Opcode} (hcode : code = .udiv ∨ code = .urem) :
    Always (do
      let d ← s.operand n
      let (s, y) ← s.emit n .or [d, ← State.constant s.bits 1]
      let (s, _) ← s.emit n code [← s.operand n, y]
      pure s) (Ready g₀ f bits fn n (count + 3)) := by
  have hone := offers_const (g := s.graph) (f := f) (i := n) (fits_one h.width)
  have hfails : code ∈ [Opcode.udiv, .urem, .sdiv, .srem, .shl, .lshr, .ashr] := by
    rcases hcode with rfl | rfl <;> decide
  obtain ⟨hbinary, hfloat⟩ := binary_of_fails bits hfails
  rw [h.bits_eq]
  refine (h.always_operand n).bind fun d hd => ?_
  refine (always_constant h.width 1 (fits_one h.width)).bind ?_
  rintro _ rfl
  have hor : s.graph.Suits f n .or bits _ := .binary rfl (by simp [Opcode.isFloat]) hd hone
  refine (h.always_emit h₀ hn hor (.free (by decide))).bind ?_
  rintro ⟨s₁, y⟩ ⟨h₁, hy⟩
  have hodd := hy.combines rfl
  refine (h₁.always_operand n).bind fun x hx => ?_
  refine (h₁.always_emit h₀ hn (.binary hbinary hfloat hx hy.offers)
    (.quotient hcode rfl hodd)).bind ?_
  rintro ⟨s₂, v⟩ ⟨h₂, -⟩
  exact .pure (h₂.mono (by omega))

/-- A signed dividend is halved, too. There is no such op at width one. -/
theorem always_signed {code : Opcode} (hcode : code = .sdiv ∨ code = .srem) (hwide : bits ≠ 1) :
    Always (do
      let n' ← s.operand n
      let (s, x) ← s.emit n .lshr [n', ← State.constant s.bits 1]
      let d ← s.operand n
      let (s, y) ← s.emit n .or [d, ← State.constant s.bits 1]
      let (s, _) ← s.emit n code [x, y]
      pure s) (Ready g₀ f bits fn n (count + 3)) := by
  have hone := fun (g : Graph) => offers_const (g := g) (f := f) (i := n) (fits_one h.width)
  have hbits : 1 < bits := by
    obtain ⟨w, rfl, hpos, -⟩ := goodWidth_iff.1 h.width
    omega
  have hfails : code ∈ [Opcode.udiv, .urem, .sdiv, .srem, .shl, .lshr, .ashr] := by
    rcases hcode with rfl | rfl <;> decide
  obtain ⟨hbinary, hfloat⟩ := binary_of_fails bits hfails
  rw [h.bits_eq]
  refine (h.always_operand n).bind fun m hm => ?_
  refine (always_constant h.width 1 (fits_one h.width)).bind ?_
  rintro _ rfl
  have hshift : s.graph.Suits f n .lshr bits _ :=
    .binary rfl (by simp [Opcode.isFloat]) hm (hone _)
  refine (h.always_emit h₀ hn hshift (.half rfl hbits rfl)).bind ?_
  rintro ⟨s₁, x⟩ ⟨h₁, hx⟩
  refine (h₁.always_operand n).bind fun d hd => ?_
  dsimp only
  rw [h₁.bits_eq]
  refine (always_constant h.width 1 (fits_one h.width)).bind ?_
  rintro _ rfl
  have hor : s₁.graph.Suits f n .or bits _ := .binary rfl (by simp [Opcode.isFloat]) hd (hone _)
  refine (h₁.always_emit h₀ hn hor (.free (by decide))).bind ?_
  rintro ⟨s₂, y⟩ ⟨h₂, hy⟩
  -- the halved dividend is still at hand, and still halved, after the op for the divisor
  have hdividend := hy.growth.offers h₁.sketch.exact hx.offers
  have hhalf := (hx.combines rfl).mono hy.growth hy.binaries rfl
  have hodd := hy.combines rfl
  refine (h₂.always_emit h₀ hn (.binary hbinary hfloat hdividend hy.offers)
    (.signed hcode rfl hhalf hodd)).bind ?_
  rintro ⟨s₃, v⟩ ⟨h₃, -⟩
  exact .pure h₃

/-- A shift amount is reduced modulo the width. -/
theorem always_shift {code : Opcode} (hcode : code = .shl ∨ code = .lshr ∨ code = .ashr) :
    Always (do
      let a ← s.operand n
      let (s, y) ← s.emit n .urem [a, ← State.constant s.bits (UInt64.ofInt s.bits)]
      let (s, _) ← s.emit n code [← s.operand n, y]
      pure s) (Ready g₀ f bits fn n (count + 3)) := by
  have hwidth := offers_const (g := s.graph) (f := f) (i := n) (fits_width h.width)
  have hfails : code ∈ [Opcode.udiv, .urem, .sdiv, .srem, .shl, .lshr, .ashr] := by
    rcases hcode with rfl | rfl | rfl <;> decide
  obtain ⟨hbinary, hfloat⟩ := binary_of_fails bits hfails
  rw [h.bits_eq]
  refine (h.always_operand n).bind fun a ha => ?_
  refine (always_constant h.width _ (fits_width h.width)).bind ?_
  rintro _ rfl
  have hurem : s.graph.Suits f n .urem bits _ :=
    .binary rfl (by simp [Opcode.isFloat]) ha hwidth
  refine (h.always_emit h₀ hn hurem (.remainder rfl rfl)).bind ?_
  rintro ⟨s₁, y⟩ ⟨h₁, hy⟩
  have hshort := hy.combines rfl
  refine (h₁.always_operand n).bind fun x hx => ?_
  refine (h₁.always_emit h₀ hn (.binary hbinary hfloat hx hy.offers)
    (.shift hcode rfl hshort)).bind ?_
  rintro ⟨s₂, v⟩ ⟨h₂, -⟩
  exact .pure (h₂.mono (by omega))

theorem always_addValue : Always (s.addValue n) (Ready g₀ f bits fn n (count + 3)) := by
  have hlen : 0 < (codes s.bits).length :=
    List.length_pos_of_mem (a := Opcode.add) (by simp [codes, Opcode.all, Opcode.isTerminator,
      Opcode.isFloat])
  refine (Always.below (by omega)).bind fun k hk => ?_
  dsimp only
  have hmem : (codes s.bits).getD k .add ∈ codes bits := by
    rw [List.getD_eq_getElem?_getD, List.getElem?_eq_getElem (by omega), ← h.bits_eq]
    exact List.getElem_mem _
  generalize (codes s.bits).getD k .add = code at hmem
  obtain ⟨hkind, hfloat, hsigned⟩ := mem_codes hmem
  split
  · exact h.always_unary h₀ hn rfl
  · exact h.always_unary h₀ hn rfl
  · exact h.always_quotient h₀ hn (.inl rfl)
  · exact h.always_quotient h₀ hn (.inr rfl)
  · exact h.always_signed h₀ hn (.inl rfl) (hsigned (.inl rfl))
  · exact h.always_signed h₀ hn (.inr rfl) (hsigned (.inr rfl))
  · exact h.always_shift h₀ hn (.inl rfl)
  · exact h.always_shift h₀ hn (.inr (.inl rfl))
  · exact h.always_shift h₀ hn (.inr (.inr rfl))
  · refine h.always_plain h₀ hn (hkind.resolve_right ?_) hfloat ?_
    · cases code <;> simp_all [Opcode.isUnary]
    · cases code <;> simp_all

theorem always_addOp : Always (s.addOp n) (Ready g₀ f bits fn n (count + 3)) :=
  (Always.oneIn (by decide)).bind fun _ _ => .ite
    (fun _ => (h.always_addCondition h₀ hn).mono fun _ h' => h'.mono (by omega))
    fun _ => h.always_addValue h₀ hn

theorem always_addOps (k : Nat) : Always (s.addOps n k) (Ready g₀ f bits fn n (count + 3 * k)) := by
  induction k generalizing s count with
  | zero => exact .pure h
  | succ k ih =>
    refine (h.always_addOp h₀ hn).bind fun s' h' => (ih h').mono fun s'' h'' => h''.mono ?_
    omega

omit hn in
theorem always_fill {b : BlockId} {body : List OpId} {last : OpId}
    (hi : (s.graph.func f).blocks[n]? = some b) (hops : (s.graph.block b).ops = body ++ [last])
    (hargs : (s.graph.op last).args = [none]) {w : Int} {v : Operand}
    (hv : s.graph.Offers f w n v)
    (hform : ∀ g', Filling s.graph g' f last → (g'.op last).args = [some v] →
      g'.OperandOk f last w v → g'.OpForm f last) :
    Always (do pure { s with graph := ← (s.graph.setArg last 0 (some v) : Except Violation _) })
      (Ready g₀ f bits fn (n + 1) count) := by
  have hlast : last ∈ (s.graph.block b).ops := by simp [hops]
  have hnew := h.sketch.op_new h₀ (List.mem_of_getElem? hi) hlast
  obtain ⟨g', hok, hfill, hargs', hex, hap⟩ := exists_filling h.sketch.exact h.sketch.apart hlast
    hnew hargs (h.sketch.outside_of_offers h₀ hv)
  have hoperand := h.sketch.operandOk_last hi hops hfill hex hv
  have hsketch := h.sketch.fill hi hops hfill hex hap (hform g' hfill hargs' hoperand)
  refine (Always.lift (P := fun x => x = g') hok rfl).bind ?_
  rintro _ rfl
  exact .pure (h.regrow hfill.toGrowth hsketch (hfill.numOps ▸ h.numOps))

/-- The next block is finished. -/
theorem always_finishBlock : Always (s.finishBlock n) (Ready g₀ f bits fn (n + 1) count) := by
  obtain ⟨b, body, last, hi, hget, hops, hterm⟩ := h.exists_last hn
  have hlast : last ∈ (s.graph.block b).ops := by simp [hops]
  have hlt := h.sketch.exact.lt_size hlast
  have howner : ∀ t, some t ∈ (s.graph.op last).targets → (s.graph.block t).owner = some f := by
    intro t ht
    obtain ⟨k, -, hk⟩ := h.sketch.forward n b hi last hlast t ht
    exact h.sketch.blockOwner t (List.mem_of_getElem? hk)
  unfold State.finishBlock
  simp only [hget, hterm]
  cases h.sketch.blank n b last hi hterm (Nat.le_refl n) with
  | ret code args targets =>
    simp only [code]
    refine (h.always_operand n).bind fun v hv => h.always_fill h₀ hi hops args hv ?_
    intro g' hfill hargs hoperand
    have hcode := (hfill.code last hlt).trans code
    have htargets := (hfill.targets last hlt).trans targets
    refine .ret v hcode hargs htargets ?_
    rwa [hfill.func, h.graph_eq, h.ret_eq]
  | br t code args targets =>
    simp only [code]
    have hsketch := h.sketch.fill hi hops (.refl _ _ _) h.sketch.exact h.sketch.apart
      (.br t code args targets (howner t (by simp [targets])))
    exact .pure { h with sketch := hsketch }
  | brif t e code args targets =>
    simp only [code]
    refine (h.always_condition n).bind fun v hv => h.always_fill h₀ hi hops args hv ?_
    intro g' hfill hargs hoperand
    have hcode := (hfill.code last hlt).trans code
    have htargets := (hfill.targets last hlt).trans targets
    have hthen := (hfill.owner t).trans (howner t (by simp [targets]))
    have helse := (hfill.owner e).trans (howner e (by simp [targets]))
    exact .brif v t e hcode hargs htargets hthen helse hoperand

omit hn in
/-- The remaining blocks are filled one after the other. -/
theorem always_fillBlocks {sizes : List Nat} (hlen : n + sizes.length = fn.blocks.length) :
    Always (s.fillBlocks n sizes)
      (Ready g₀ f bits fn fn.blocks.length (count + 3 * sizes.sum)) := by
  induction sizes generalizing s n count with
  | nil =>
    obtain rfl : n = fn.blocks.length := by simpa using hlen
    exact .pure h
  | cons k sizes ih =>
    simp only [List.length_cons] at hlen
    have hsum : count + 3 * k + 3 * sizes.sum = count + 3 * (k :: sizes).sum := by
      rw [List.sum_cons]
      omega
    refine (h.always_addOps h₀ (by omega) k).bind fun s₁ h₁ => ?_
    refine (h₁.always_finishBlock h₀ (by omega)).bind fun s₂ h₂ => ?_
    exact (ih h₂ (by omega)).mono fun s₃ h₃ => h₃.mono hsum.le

end Ready
end Disguise.Generation
