import Disguise.Proofs.Checking
import Disguise.Proofs.Denotation
import Disguise.Proofs.Paths

/-!
Lawful functions, said in terms of paths. A use in a block that some path leads to has its
definition earlier in the block or in another one that lies on every such path; nothing here speaks
of dominator sets or of the order of the checks. The functions that are accepted are the lawful
ones.
-/
namespace Disguise

/-- How many operands and targets a code takes, if it is one. -/
def Opcode.shape? (c : Opcode) : Option (Nat × Nat) :=
  if c.isBinary then some (2, 0)
  else if c.isUnary then some (1, 0)
  else match c with
    | .ret => some (1, 0)
    | .br => some (0, 1)
    | .brif => some (1, 2)
    | _ => none

namespace Graph

/-- A path of branches through the blocks of a function, from its first block to the given one. The
last block comes first. -/
inductive Path (g : Graph) (f : FuncId) : List BlockId → BlockId → Prop
  | entry {b : BlockId} (first : (g.func f).blocks.head? = some b) : Path g f [b] b
  | step {p : List BlockId} {b c : BlockId} {t : OpId} (path : Path g f p b)
      (last : g.terminator? b = some t) (target : some c ∈ (g.op t).targets)
      (listed : c ∈ (g.func f).blocks) : Path g f (c :: p) c

/-- If a path leads to the block of `u`, then `d` comes earlier in that block or is in another block
that lies on every path to it. -/
def Precedes (g : Graph) (f : FuncId) (d u : OpId) : Prop :=
  ∀ c ∈ (g.func f).blocks, u ∈ (g.block c).ops → (∃ p, g.Path f p c) →
    [d, u].Sublist (g.block c).ops ∨
      ∃ b ∈ (g.func f).blocks, b ≠ c ∧ d ∈ (g.block b).ops ∧ ∀ p, g.Path f p c → b ∈ p

/-- The width of the operands of an op. -/
def slotWidth (g : Graph) (f : FuncId) (u : OpId) : Int :=
  match (g.op u).code with
  | .ret => (g.func f).retBits
  | .brif => 1
  | _ => (g.op u).bits

/-- The values that an op may use: constants that fit their width, params and results of the
function. -/
def Admits (g : Graph) (f : FuncId) (u : OpId) : Operand → Prop
  | .const c => c.val.toNat < 2 ^ c.bits.toNat
  | .param p => p ∈ (g.func f).params
  | .result d => d ∈ g.opsOf f ∧ (g.op d).code.isTerminator = false ∧ g.Precedes f d u

structure LawfulOp (g : Graph) (f : FuncId) (u : OpId) : Prop where
  shape : (g.op u).code.shape? = some ((g.op u).args.length, (g.op u).targets.length)
  width : (g.op u).code.isTerminator = false → 0 < (g.op u).bits ∧ (g.op u).bits ≤ 64
  float : (g.op u).code.isFloat → (g.op u).bits = 32 ∨ (g.op u).bits = 64
  targets : ∀ t ∈ (g.op u).targets, ∃ b, t = some b ∧ (g.block b).owner = some f
  operands : ∀ v ∈ (g.op u).args, ∃ w, v = some w ∧ g.width w = g.slotWidth f u ∧ g.Admits f u w

structure Lawful (g : Graph) (f : FuncId) : Prop where
  retWidth : 0 < (g.func f).retBits ∧ (g.func f).retBits ≤ 64
  paramWidth : ∀ p ∈ (g.func f).params, 0 < (g.param p).bits ∧ (g.param p).bits ≤ 64
  paramOwner : ∀ p ∈ (g.func f).params, (g.param p).func = some f
  paramNames : ((g.func f).params.map fun p => (g.param p).name).Nodup
  blockOwner : ∀ b ∈ (g.func f).blocks, (g.block b).owner = some f
  blockNames : ((g.func f).blocks.map fun b => (g.block b).name).Nodup
  filled : ∀ b ∈ (g.func f).blocks, (g.block b).ops ≠ []
  opOwner : ∀ b ∈ (g.func f).blocks, ∀ o ∈ (g.block b).ops, (g.op o).block = some b
  once : (g.opsOf f).Nodup
  last : ∀ b ∈ (g.func f).blocks, ∀ o ∈ (g.block b).ops,
    (g.op o).code.isTerminator ↔ (g.block b).ops.getLast? = some o
  ops : ∀ u ∈ g.opsOf f, g.LawfulOp f u
  /-- The record of a value says of every op in how many slots it holds the value. -/
  uses : ∀ v, g.IsValue f v → ∀ u, g.recorded v u = if u ∈ g.opsOf f then g.slots u v else 0

variable {g : Graph} {f : FuncId}

/-- A path of places as a path of blocks. -/
theorem path_of_places {p : List Nat} {i : Nat} (h : (g.flow f).Path p i)
    (hne : (g.func f).blocks ≠ []) :
    ∃ q b, (g.func f).blocks[i]? = some b ∧ g.Path f q b ∧
      List.Forall₂ (fun j c => (g.func f).blocks[j]? = some c) p q := by
  induction h with
  | entry =>
    obtain ⟨b, rest, hblocks⟩ := List.exists_cons_of_ne_nil hne
    exact ⟨[b], b, by simp [hblocks], .entry (by simp [hblocks]), .cons (by simp [hblocks]) .nil⟩
  | @step p i k _ edge ih =>
    obtain ⟨q, b, hb, path, hall⟩ := ih
    rw [successors_flow, hb] at edge
    dsimp only at edge
    cases hterm : g.terminator? b with
    | none =>
      rw [hterm] at edge
      cases edge
    | some t =>
      rw [hterm] at edge
      obtain ⟨target, hmem, hplace⟩ := List.mem_filterMap.1 edge
      obtain ⟨c, rfl, hc⟩ := Option.bind_eq_some_iff.1 hplace
      have hk := getElem?_of_placesOf hc
      exact ⟨c :: q, c, hk, path.step hterm hmem (List.mem_of_getElem? hk), .cons hk hall⟩

/-- A path of blocks as a path of places. -/
theorem places_of_path (hn : (g.func f).blocks.Nodup) {q : List BlockId} {b : BlockId}
    (h : g.Path f q b) :
    ∃ p i, (g.func f).blocks[i]? = some b ∧ (g.flow f).Path p i ∧
      List.Forall₂ (fun j c => (g.func f).blocks[j]? = some c) p q := by
  induction h with
  | entry first =>
    rw [List.head?_eq_getElem?] at first
    exact ⟨[0], 0, first, .entry, .cons first .nil⟩
  | step path last target listed ih =>
    obtain ⟨p, i, hb, hp, hall⟩ := ih
    obtain ⟨k, hk⟩ := List.getElem?_of_mem listed
    exact ⟨k :: p, k, hk, hp.step (mem_successors_flow hn hb hk last target), .cons hk hall⟩

/-- The same blocks lie on both. -/
theorem mem_path_iff (hn : (g.func f).blocks.Nodup) {p : List Nat} {q : List BlockId}
    (h : List.Forall₂ (fun j c => (g.func f).blocks[j]? = some c) p q) {i : Nat} {b : BlockId}
    (hb : (g.func f).blocks[i]? = some b) : i ∈ p ↔ b ∈ q := by
  have hplace : ∀ j c, (g.func f).blocks[j]? = some c → (i = j ↔ b = c) := by
    intro j c hc
    obtain ⟨hi, rfl⟩ := List.getElem?_eq_some_iff.1 hb
    obtain ⟨hj, rfl⟩ := List.getElem?_eq_some_iff.1 hc
    exact (List.getElem_inj hn).symm
  induction h with
  | nil => simp
  | cons hc _ ih =>
    rw [List.mem_cons, List.mem_cons]
    exact or_congr (hplace _ _ hc) ih

/-- What the dominator sets say of a function, in terms of its blocks. -/
theorem dominators_eq_some (hn : (g.func f).blocks.Nodup) {j : Nat} {c : BlockId}
    (hc : (g.func f).blocks[j]? = some c) :
    ((∃ q, g.Path f q c) → ∃ above, (g.dominators f)[j]? = some (some above)) ∧
    ∀ above, (g.dominators f)[j]? = some (some above) → (∃ q, g.Path f q c) ∧
      ∀ i b, (g.func f).blocks[i]? = some b → (above.contains i ↔ ∀ q, g.Path f q c → b ∈ q) := by
  have hne : (g.func f).blocks ≠ [] := List.ne_nil_of_mem (List.mem_of_getElem? hc)
  have hclosed := closed_flow hne
  -- paths of blocks to `c` are the paths of places to `j`
  have hto : ∀ q, g.Path f q c → ∃ p, (g.flow f).Path p j ∧
      List.Forall₂ (fun j c => (g.func f).blocks[j]? = some c) p q := by
    intro q hq
    obtain ⟨p, k, hk, hp, hall⟩ := places_of_path hn hq
    obtain ⟨hlt, rfl⟩ := List.getElem?_eq_some_iff.1 hc
    obtain ⟨hlt', heq⟩ := List.getElem?_eq_some_iff.1 hk
    rw [← (List.getElem_inj hn).1 heq]
    exact ⟨p, hp, hall⟩
  have hof : ∀ p, (g.flow f).Path p j → ∃ q, g.Path f q c ∧
      List.Forall₂ (fun j c => (g.func f).blocks[j]? = some c) p q := by
    intro p hp
    obtain ⟨q, b, hb, hq, hall⟩ := path_of_places hp hne
    rw [hc] at hb
    obtain rfl := Option.some.inj hb
    exact ⟨q, hq, hall⟩
  refine ⟨fun ⟨q, hq⟩ => ?_, fun above habove => ?_⟩
  · obtain ⟨p, hp, -⟩ := hto q hq
    exact Flow.exists_dominators hclosed hp
  · obtain ⟨⟨p, hp⟩, hcovers⟩ := Flow.exists_path_of_dominators hclosed habove
    obtain ⟨q, hq, -⟩ := hof p hp
    refine ⟨⟨q, hq⟩, fun i b hb => ⟨fun hi q hq => ?_, fun hall => hcovers i fun p hp => ?_⟩⟩
    · obtain ⟨p, hp, hpq⟩ := hto q hq
      exact (mem_path_iff hn hpq hb).1 (Flow.mem_path_of_dominators hclosed hp habove hi)
    · obtain ⟨q, hq, hpq⟩ := hof p hp
      exact (mem_path_iff hn hpq hb).2 (hall q hq)

/-- What dominator sets make available is what comes before on every path. -/
theorem available_iff (hn : (g.func f).blocks.Nodup)
    (ho : ∀ b ∈ (g.func f).blocks, ∀ o ∈ (g.block b).ops, (g.op o).block = some b) {d u : OpId}
    (hd : d ∈ g.opsOf f) : g.Available f d u ↔ g.Precedes f d u := by
  have hhome : ∀ {o : OpId} {b c : BlockId}, b ∈ (g.func f).blocks → c ∈ (g.func f).blocks →
      o ∈ (g.block b).ops → o ∈ (g.block c).ops → b = c := by
    intro o b c hb hc hob hoc
    exact Option.some.inj ((ho b hb o hob).symm.trans (ho c hc o hoc))
  constructor
  · intro hav c hc huc hpath
    obtain ⟨j, hj⟩ := List.getElem?_of_mem hc
    obtain ⟨hsome, hsets⟩ := dominators_eq_some hn hj
    obtain ⟨above, habove⟩ := hsome hpath
    obtain ⟨b, hb, hdb⟩ := mem_opsOf.1 hd
    obtain ⟨i, hi⟩ := List.getElem?_of_mem hb
    have hkey := hav i j b c above hi hdb hj huc habove
    split at hkey
    · rename_i hij
      subst hij
      obtain rfl := Option.some.inj (hi.symm.trans hj)
      exact .inl hkey
    · rename_i hij
      refine .inr ⟨b, hb, ?_, hdb, ((hsets above habove).2 i b hi).1 hkey⟩
      rintro rfl
      obtain ⟨hlt, rfl⟩ := List.getElem?_eq_some_iff.1 hi
      obtain ⟨hlt', heq⟩ := List.getElem?_eq_some_iff.1 hj
      exact hij ((List.getElem_inj hn).1 heq).symm
  · intro hpre i j b c above hi hdb hj huc habove
    have hb := List.mem_of_getElem? hi
    have hc := List.mem_of_getElem? hj
    obtain ⟨hpath, hsets⟩ := (dominators_eq_some hn hj).2 above habove
    rcases hpre c hc huc hpath with hsub | ⟨b', hb', hne, hdb', hall⟩
    · obtain rfl := hhome hb hc hdb (hsub.subset (by simp))
      obtain ⟨hlt, rfl⟩ := List.getElem?_eq_some_iff.1 hi
      obtain ⟨hlt', heq⟩ := List.getElem?_eq_some_iff.1 hj
      rw [if_pos ((List.getElem_inj hn).1 heq).symm]
      exact hsub
    · obtain rfl := hhome hb hb' hdb hdb'
      rw [if_neg]
      · exact (hsets i b hi).2 hall
      · rintro rfl
        exact hne (Option.some.inj (hi.symm.trans hj))

/-- A value has operands of its own width. -/
theorem slotWidth_of_value {u : OpId} (h : (g.op u).code.isTerminator = false) :
    g.slotWidth f u = (g.op u).bits := by
  unfold slotWidth
  split
  · rename_i code
    simp [code, Opcode.isTerminator] at h
  · rename_i code
    simp [code, Opcode.isTerminator] at h
  · rfl

theorem goodWidth_iff_le {bits : Int} : Word.goodWidth bits ↔ 0 < bits ∧ bits ≤ 64 := by
  simp [Word.goodWidth]

/-- An operand in a slot of a proper width. -/
theorem operandOk_iff (hn : (g.func f).blocks.Nodup)
    (ho : ∀ b ∈ (g.func f).blocks, ∀ o ∈ (g.block b).ops, (g.op o).block = some b) {u : OpId}
    {bits : Int} (hbits : Word.goodWidth bits) {v : Operand} :
    g.OperandOk f u bits v ↔ g.width v = bits ∧ g.Admits f u v := by
  cases v with
  | const c =>
    refine and_congr_right fun heq => ?_
    subst heq
    exact Word.fits_iff hbits
  | param p => exact and_comm
  | result d =>
    simp only [OperandOk, Admits, width]
    constructor
    · rintro ⟨hd, hwidth, hterm, hav⟩
      exact ⟨hwidth, hd, hterm, (available_iff hn ho hd).1 hav⟩
    · rintro ⟨hwidth, hd, hterm, hpre⟩
      exact ⟨hd, hwidth, hterm, (available_iff hn ho hd).2 hpre⟩

section
variable (hn : (g.func f).blocks.Nodup)
  (ho : ∀ b ∈ (g.func f).blocks, ∀ o ∈ (g.block b).ops, (g.op o).block = some b)
  (hret : Word.goodWidth (g.func f).retBits) {u : OpId}
include hn ho hret

theorem lawfulOp_of_opForm (h : g.OpForm f u) : g.LawfulOp f u := by
  have hok : ∀ {bits : Int}, Word.goodWidth bits → ∀ {v : Operand},
      g.OperandOk f u bits v ↔ g.width v = bits ∧ g.Admits f u v := operandOk_iff hn ho
  cases h with
  | binary x y code args targets width float left right =>
    have hslot := @slotWidth_of_value g f u (Opcode.not_isTerminator_of_isBinary code)
    refine ⟨by simp [Opcode.shape?, code, args, targets], fun _ => goodWidth_iff_le.1 width, float,
      by simp [targets], ?_⟩
    rw [hslot, args]
    simp [← hok width, left, right]
  | unary x code args targets width operand =>
    have hslot := @slotWidth_of_value g f u (Opcode.not_isTerminator_of_isUnary code)
    have hbinary : (g.op u).code.isBinary = false := by
      cases hc : (g.op u).code <;> simp_all [Opcode.isBinary, Opcode.isUnary]
    have hfloat : (g.op u).code.isFloat = false := by
      cases hc : (g.op u).code <;> simp_all [Opcode.isFloat, Opcode.isUnary]
    refine ⟨by simp [Opcode.shape?, hbinary, code, args, targets],
      fun _ => goodWidth_iff_le.1 width, by simp [hfloat], by simp [targets], ?_⟩
    rw [hslot, args]
    simp [← hok width, operand]
  | ret x code args targets operand =>
    refine ⟨by simp [code, args, targets]; rfl, by simp [code, Opcode.isTerminator],
      by simp [code, Opcode.isFloat], by simp [targets], ?_⟩
    simp [slotWidth, code, args, ← hok hret, operand]
  | br t code args targets owner =>
    refine ⟨by simp [code, args, targets]; rfl, by simp [code, Opcode.isTerminator],
      by simp [code, Opcode.isFloat], by simp [targets, owner], by simp [args]⟩
  | brif x t e code args targets yes no operand =>
    refine ⟨by simp [code, args, targets]; rfl, by simp [code, Opcode.isTerminator],
      by simp [code, Opcode.isFloat], by simp [targets, yes, no], ?_⟩
    simp [slotWidth, code, args, ← @hok 1 rfl, operand]

/-- The numbers of operands and targets leave one form for each code. -/
theorem opForm_of_lawfulOp (h : g.LawfulOp f u) : g.OpForm f u := by
  have hok : ∀ {bits : Int}, Word.goodWidth bits → ∀ {v : Operand},
      g.width v = bits ∧ g.Admits f u v → g.OperandOk f u bits v :=
    fun hbits => (operandOk_iff hn ho hbits).2
  obtain ⟨hshape, hwidth, hfloat, htargets, hoperands⟩ := h
  unfold Opcode.shape? at hshape
  split at hshape
  · rename_i code
    obtain ⟨hargs, htars⟩ := Prod.mk.inj (Option.some.inj hshape)
    have hterm := Opcode.not_isTerminator_of_isBinary code
    have hgood := goodWidth_iff_le.2 (hwidth hterm)
    rw [slotWidth_of_value hterm] at hoperands
    obtain ⟨v, w, hvw, hv, hw⟩ := Validity.exists_two hargs.symm hoperands
    exact .binary v w code hvw (List.length_eq_zero_iff.1 htars.symm) hgood hfloat
      (hok hgood hv) (hok hgood hw)
  · split at hshape
    · rename_i code
      obtain ⟨hargs, htars⟩ := Prod.mk.inj (Option.some.inj hshape)
      have hterm := Opcode.not_isTerminator_of_isUnary code
      have hgood := goodWidth_iff_le.2 (hwidth hterm)
      rw [slotWidth_of_value hterm] at hoperands
      obtain ⟨v, hx, hv⟩ := Validity.exists_one hargs.symm hoperands
      exact .unary v code hx (List.length_eq_zero_iff.1 htars.symm) hgood (hok hgood hv)
    · split at hshape
      · rename_i code
        obtain ⟨hargs, htars⟩ := Prod.mk.inj (Option.some.inj hshape)
        have hslot : g.slotWidth f u = (g.func f).retBits := by simp [slotWidth, code]
        rw [hslot] at hoperands
        obtain ⟨v, hx, hv⟩ := Validity.exists_one hargs.symm hoperands
        exact .ret v code hx (List.length_eq_zero_iff.1 htars.symm) (hok hret hv)
      · rename_i code
        obtain ⟨hargs, htars⟩ := Prod.mk.inj (Option.some.inj hshape)
        obtain ⟨b, ht, hb⟩ := Validity.exists_one htars.symm htargets
        exact .br b code (List.length_eq_zero_iff.1 hargs.symm) ht hb
      · rename_i code
        obtain ⟨hargs, htars⟩ := Prod.mk.inj (Option.some.inj hshape)
        have hslot : g.slotWidth f u = 1 := by simp [slotWidth, code]
        rw [hslot] at hoperands
        obtain ⟨v, hx, hv⟩ := Validity.exists_one hargs.symm hoperands
        obtain ⟨b, c, hte, hb, hc⟩ := Validity.exists_two htars.symm htargets
        exact .brif v b c code hx hte hb hc (hok rfl hv)
      · cases hshape

theorem opForm_iff : g.OpForm f u ↔ g.LawfulOp f u :=
  ⟨lawfulOp_of_opForm hn ho hret, opForm_of_lawfulOp hn ho hret⟩

end

/-- A block ends with its terminator if it has ops and the last one alone is a terminator. -/
theorem ended_iff {ops : List OpId} (hn : ops.Nodup) : g.Ended ops ↔
    ops ≠ [] ∧ ∀ o ∈ ops, (g.op o).code.isTerminator ↔ ops.getLast? = some o := by
  constructor
  · rintro ⟨body, last, rfl, hlast, hbody⟩
    refine ⟨by simp, fun o ho => ?_⟩
    rw [List.getLast?_concat, Option.some.injEq]
    constructor
    · intro hterm
      rcases List.mem_append.1 ho with ho | ho
      · rw [hbody o ho] at hterm
        cases hterm
      · exact (List.mem_singleton.1 ho).symm
    · rintro rfl
      exact hlast
  · rintro ⟨hne, hlast⟩
    obtain ⟨body, last, rfl⟩ := (List.eq_nil_or_concat ops).resolve_left hne
    rw [List.concat_eq_append] at hn hlast ⊢
    refine ⟨body, last, rfl, (hlast last (by simp)).2 (by simp), fun o ho => ?_⟩
    rw [← Bool.not_eq_true]
    intro hterm
    have heq := (hlast o (by simp [ho])).1 hterm
    rw [List.getLast?_concat, Option.some.injEq] at heq
    rw [heq] at hn
    exact (not_mem_of_nodup hn rfl).1 ho

theorem wellFormed_iff_lawful : g.WellFormed f ↔ g.Lawful f := by
  constructor
  · intro wf
    have hended : ∀ b ∈ (g.func f).blocks, _ := fun b hb =>
      (ended_iff (wf.opsNodup b hb)).1 (wf.ended b hb)
    exact {
      retWidth := goodWidth_iff_le.1 wf.retWidth
      paramWidth := fun p hp => goodWidth_iff_le.1 (wf.paramWidth p hp)
      paramOwner := wf.paramOwner
      paramNames := wf.paramNames
      blockOwner := wf.blockOwner
      blockNames := wf.blockNames
      filled := fun b hb => (hended b hb).1
      opOwner := wf.opOwner
      once := wf.opsOf_nodup
      last := fun b hb => (hended b hb).2
      ops := fun u hu => (opForm_iff wf.blocksNodup wf.opOwner wf.retWidth).1 (wf.form u hu)
      uses := wf.uses }
  · intro h
    have hblocks : (g.func f).blocks.Nodup := h.blockNames.of_map
    have hret := goodWidth_iff_le.2 h.retWidth
    have hops : ∀ b ∈ (g.func f).blocks, (g.block b).ops.Nodup :=
      (List.nodup_flatMap.1 h.once).1
    exact {
      retWidth := hret
      paramOwner := h.paramOwner
      paramWidth := fun p hp => goodWidth_iff_le.2 (h.paramWidth p hp)
      paramNames := h.paramNames
      blockOwner := h.blockOwner
      blockNames := h.blockNames
      opOwner := h.opOwner
      opsNodup := hops
      ended := fun b hb => (ended_iff (hops b hb)).2 ⟨h.filled b hb, h.last b hb⟩
      form := fun u hu => (opForm_iff hblocks h.opOwner hret).2 (h.ops u hu)
      uses := h.uses }

/-- Validation accepts exactly the lawful functions. -/
theorem validateFunc_iff_lawful (g : Graph) (f : FuncId) :
    g.validateFunc f = .ok () ↔ g.Lawful f :=
  validateFunc_eq_ok.trans wellFormed_iff_lawful

end Graph
end Disguise
