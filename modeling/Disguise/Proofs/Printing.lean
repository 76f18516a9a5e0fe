import Disguise.Proofs.Relabeling
import Disguise.Syntax.Printer

/-!
What is printed. The text of a well-formed function is a list of lines that can be told without
failures: a result is written as the number of value-producing ops before it. So the text does not
depend on the numbers under which the parts of the function are stored.
-/
namespace Disguise.Syntax
open Bytes Results
variable {g : Graph} {f : FuncId} {m : ModuleId}

/-- The value-producing ops of a function in program order. -/
def resultsOf (g : Graph) (f : FuncId) : List OpId :=
  (g.opsOf f).filter fun o => !(g.op o).code.isTerminator

/-- Results are numbered by their place among the value-producing ops. -/
theorem get_numbering (hn : (g.opsOf f).Nodup) (o : OpId) : (numbering g f).get o.idx =
    if o ∈ resultsOf g f then some ((resultsOf g f).idxOf o) else none := by
  have hfold := foldl_done (l := g.opsOf f)
    (k := fun (s : Table (Option Nat) × Nat) o =>
      if (g.op o).code.isTerminator then s else (s.1.set o.idx (some s.2), s.2 + 1))
    (s := (.empty, 0))
    (P := fun done s =>
      let results := done.filter fun o => !(g.op o).code.isTerminator
      s.2 = results.length ∧ ∀ o : OpId, s.1.get o.idx =
        if o ∈ results then some (results.idxOf o) else none)
    ⟨rfl, fun o => by simp [default]⟩ (by
      rintro done a rest ⟨t, n⟩ hsplit ⟨hlen, hget⟩
      dsimp only at hlen hget ⊢
      cases hterm : (g.op a).code.isTerminator with
      | true =>
        simp only [if_true, List.filter_append, List.filter_cons, hterm, Bool.not_true,
          Bool.false_eq_true, if_false, List.filter_nil, List.append_nil]
        exact ⟨hlen, hget⟩
      | false =>
        have hfresh : a ∉ done.filter fun o => !(g.op o).code.isTerminator := by
          intro hmem
          exact (not_mem_of_nodup hn hsplit).1 (List.mem_of_mem_filter hmem)
        simp only [Bool.false_eq_true, if_false, List.filter_append, List.filter_cons, hterm,
          Bool.not_false, if_true, List.filter_nil, List.length_append, List.length_singleton,
          hlen, true_and]
        intro o
        rw [Table.get_set]
        by_cases ho : o = a
        · rw [if_pos (by rw [ho]), if_pos (by simp [ho]), ho, List.idxOf_append_of_notMem hfresh,
            List.idxOf_cons_self, Nat.add_zero]
        · rw [if_neg fun heq => ho (OpId.idx_inj.1 heq), hget]
          by_cases hmem : o ∈ done.filter fun o => !(g.op o).code.isTerminator
          · rw [if_pos hmem, if_pos (List.mem_append_left _ hmem), List.idxOf_append_of_mem hmem]
          · rw [if_neg hmem, if_neg fun h => ?_]
            rcases List.mem_append.1 h with h | h
            · exact hmem h
            · exact ho (List.mem_singleton.1 h))
  exact hfold.2 o

/-- The lines of a text, each with its end. -/
def unlines (lines : List Bytes) : Bytes := (lines.map (· ++ text "\n")).flatten

def operandText (g : Graph) (f : FuncId) : Operand → Bytes
  | .const c => text "0x" ++ hex c.val.toNat
  | .param p => text "%" ++ (g.param p).name
  | .result o => resultName ((resultsOf g f).idxOf o)

/-- What an op is written as in front of its operands. -/
def opStart (g : Graph) (f : FuncId) (o : OpId) : Bytes :=
  if (g.op o).code.isTerminator then (g.op o).code.name ++ text " "
  else resultName ((resultsOf g f).idxOf o) ++ text " = " ++ (g.op o).code.name ++ text " i" ++
    decimal (g.op o).bits ++ text " "

def opText (g : Graph) (f : FuncId) (o : OpId) : Bytes :=
  opStart g f o ++ join comma ((g.op o).args.map (fun v => v.elim [] (operandText g f)) ++
    (g.op o).targets.map fun t => t.elim [] fun b => (g.block b).name)

def blockLines (g : Graph) (f : FuncId) (b : BlockId) : List Bytes :=
  ((g.block b).name ++ text ":") :: (g.block b).ops.map fun o => text "  " ++ opText g f o

def funcLines [Unicode] (g : Graph) (f : FuncId) : List Bytes :=
  if (g.func f).isDeclaration then [printHeader g (g.func f)]
  else (printHeader g (g.func f) ++ text " \x7b") ::
    (g.func f).blocks.flatMap (blockLines g f) ++ [text "\x7d"]

/-- The functions of a module with an empty line between neighbours. -/
def moduleLines [Unicode] (g : Graph) (m : ModuleId) : List Bytes :=
  (((g.module m).funcs.map (funcLines g)).intersperse [[]]).flatten

theorem unlines_append (l l' : List Bytes) : unlines (l ++ l') = unlines l ++ unlines l' := by
  simp [unlines]

theorem unlines_cons (s : Bytes) (l : List Bytes) :
    unlines (s :: l) = s ++ text "\n" ++ unlines l := by
  simp [unlines]

theorem unlines_flatMap {α : Type} (l : List α) (k : α → List Bytes) :
    unlines (l.flatMap k) = (l.map fun a => unlines (k a)).flatten := by
  induction l with
  | nil => rfl
  | cons a l ih => rw [List.flatMap_cons, unlines_append, ih, List.map_cons, List.flatten_cons]

/-- Texts joined by line ends are the text of their lines, with an empty line between neighbours. -/
theorem join_unlines (l : List (List Bytes)) :
    join (text "\n") (l.map unlines) = unlines ((l.intersperse [[]]).flatten) := by
  induction l with
  | nil => rfl
  | cons a l ih =>
    cases l with
    | nil => simp [join]
    | cons b l =>
      have hempty : unlines [[]] = text "\n" := rfl
      simp only [join, List.map_cons, List.intersperse_cons_cons, List.flatten_cons,
        unlines_append] at ih ⊢
      rw [hempty, ih]

/-- What a function has to have to be printed: its ops are listed once and refer to values of the
function and to blocks, and no op that ends a block stands alone. -/
structure Printable (g : Graph) (f : FuncId) : Prop where
  nodup : (g.opsOf f).Nodup
  operand : ∀ o ∈ g.opsOf f, ∀ v ∈ (g.op o).args, ∃ w, v = some w ∧
    (∀ p, w = .param p → p ∈ (g.func f).params) ∧ ∀ u, w = .result u → u ∈ resultsOf g f
  target : ∀ o ∈ g.opsOf f, ∀ t ∈ (g.op o).targets, ∃ b, t = some b
  slots : ∀ o ∈ g.opsOf f, (g.op o).code.isTerminator → (g.op o).args ≠ [] ∨ (g.op o).targets ≠ []

theorem printable_of_wellFormed (wf : g.WellFormed f) : Printable g f where
  nodup := wf.opsOf_nodup
  operand := by
    intro o ho v hv
    obtain ⟨w, bits, rfl, -, hok⟩ := wf.exists_operandOk ho hv
    refine ⟨w, rfl, ?_, ?_⟩
    · rintro p rfl
      exact hok.1
    · rintro u rfl
      obtain ⟨hu, -, hterm, -⟩ := hok
      exact List.mem_filter.2 ⟨hu, by simp [hterm]⟩
  target := fun o ho t => wf.exists_target ho
  slots := by
    intro o ho hterm
    cases wf.form o ho with
    | binary x y code => simp [Opcode.not_isTerminator_of_isBinary code] at hterm
    | unary x code => simp [Opcode.not_isTerminator_of_isUnary code] at hterm
    | ret x code args => simp [args]
    | br t code args targets => simp [targets]
    | brif x t e code args => simp [args]

section
variable (hp : Printable g f)
include hp

theorem printOperand_eq {u : OpId} (hu : u ∈ g.opsOf f) {v : Option Operand}
    (hv : v ∈ (g.op u).args) :
    printOperand g (g.func f) (numbering g f) v = .ok (v.elim [] (operandText g f)) := by
  obtain ⟨w, rfl, hparam, hresult⟩ := hp.operand u hu v hv
  cases w with
  | const c => rfl
  | param p => simp [printOperand, hparam p rfl, operandText]
  | result o => simp [printOperand, get_numbering hp.nodup, hresult o rfl, operandText]

theorem printOp_eq {o : OpId} (ho : o ∈ g.opsOf f) :
    printOp g (g.func f) (numbering g f) o = .ok (opText g f o) := by
  have hargs := mapM_eq_ok fun v (hv : v ∈ (g.op o).args) => printOperand_eq hp ho hv
  have htargets : (g.op o).targets.mapM (printTarget g) =
      .ok ((g.op o).targets.map fun t => t.elim [] fun b => (g.block b).name) := by
    refine mapM_eq_ok fun t ht => ?_
    obtain ⟨b, rfl⟩ := hp.target o ho t ht
    rfl
  simp only [printOp, hargs, htargets, ok_bind, opText, opStart, pure_eq_ok]
  congr 1
  cases hterm : (g.op o).code.isTerminator with
  | true =>
    have hsome : ((g.op o).args.isEmpty && (g.op o).targets.isEmpty) = false := by
      rcases hp.slots o ho hterm with hne | hne <;> simp [hne]
    simp [hsome]
  | false =>
    have hmem : o ∈ resultsOf g f := List.mem_filter.2 ⟨ho, by simp [hterm]⟩
    simp [get_numbering hp.nodup, hmem]

theorem printBlock_eq {b : BlockId} (hb : b ∈ (g.func f).blocks) :
    printBlock g (g.func f) (numbering g f) b = .ok (unlines (blockLines g f b)) := by
  have hops : ((g.block b).ops.mapM fun o => do
      pure (text "  " ++ (← printOp g (g.func f) (numbering g f) o) ++ text "\n")) =
      .ok ((g.block b).ops.map fun o => text "  " ++ opText g f o ++ text "\n") := by
    refine mapM_eq_ok fun o ho => ?_
    rw [printOp_eq hp (Graph.mem_opsOf.2 ⟨b, hb, ho⟩)]
    rfl
  have hend : text ":\n" = text ":" ++ text "\n" := rfl
  simp only [printBlock, hops, ok_bind, blockLines, unlines_cons, pure_eq_ok, hend]
  simp only [unlines, List.map_map, Function.comp_def, List.append_assoc]

/-- The text of a function. -/
theorem printFunc_eq [Unicode] : printFunc g f = .ok (unlines (funcLines g f)) := by
  unfold printFunc funcLines
  dsimp only
  split
  · simp [unlines, pure, Except.pure]
  · have hblocks := mapM_eq_ok fun b (hb : b ∈ (g.func f).blocks) => printBlock_eq hp hb
    have hopen : text " \x7b\n" = text " \x7b" ++ text "\n" := rfl
    have hclose : text "\x7d\n" = unlines [text "\x7d"] := rfl
    simp only [hblocks, ok_bind, pure_eq_ok, List.cons_append, unlines_cons, unlines_append,
      unlines_flatMap, hopen, hclose, List.append_assoc]

end

theorem printModule_eq [Unicode] (hp : ∀ f ∈ (g.module m).funcs, Printable g f) :
    printModule g m = .ok (unlines (moduleLines g m)) := by
  have hfuncs := mapM_eq_ok fun f (hf : f ∈ (g.module m).funcs) => printFunc_eq (hp f hf)
  simp only [printModule, hfuncs, ok_bind, pure_eq_ok, moduleLines]
  rw [← join_unlines, List.map_map]
  rfl

section
variable {ρ : Relabeling} {g' : Graph} {m' : ModuleId} {f' : FuncId}

theorem resultsOf_carries (h : ρ.Carries g g' f f') :
    resultsOf g' f' = (resultsOf g f).map ρ.op := by
  rw [resultsOf, h.opsOf, List.filter_map, resultsOf]
  congr 1
  refine List.filter_congr fun o ho => ?_
  rw [Function.comp_apply, h.code o ho]

theorem Printable.carries (hp : Printable g f) (h : ρ.Carries g g' f f') : Printable g' f' := by
  have hops : ∀ u ∈ g'.opsOf f', ∃ o ∈ g.opsOf f, ρ.op o = u := by
    intro u hu
    rw [h.opsOf] at hu
    exact List.mem_map.1 hu
  constructor
  · rw [h.opsOf]
    exact hp.nodup.map_on fun o ho u hu heq => h.opInj o ho u hu heq
  · intro u hu v hv
    obtain ⟨o, ho, rfl⟩ := hops u hu
    rw [h.args o ho] at hv
    obtain ⟨w, hw, rfl⟩ := List.mem_map.1 hv
    obtain ⟨w, rfl, hparam, hresult⟩ := hp.operand o ho w hw
    refine ⟨ρ.operand w, rfl, fun p heq => ?_, fun u heq => ?_⟩
    · cases w with
      | param q =>
        cases heq
        rw [h.params]
        exact List.mem_map_of_mem (hparam q rfl)
      | const c => cases heq
      | result q => cases heq
    · cases w with
      | result q =>
        cases heq
        rw [resultsOf_carries h]
        exact List.mem_map_of_mem (hresult q rfl)
      | const c => cases heq
      | param q => cases heq
  · intro u hu t ht
    obtain ⟨o, ho, rfl⟩ := hops u hu
    rw [h.targets o ho] at ht
    obtain ⟨s, hs, rfl⟩ := List.mem_map.1 ht
    obtain ⟨b, rfl⟩ := hp.target o ho s hs
    exact ⟨ρ.block b, rfl⟩
  · intro u hu hterm
    obtain ⟨o, ho, rfl⟩ := hops u hu
    rw [h.code o ho] at hterm
    simpa [h.args o ho, h.targets o ho] using hp.slots o ho hterm

theorem idxOf_resultsOf (h : ρ.Carries g g' f f') {o : OpId} (ho : o ∈ g.opsOf f) :
    (resultsOf g' f').idxOf (ρ.op o) = (resultsOf g f).idxOf o := by
  have hinj : ∀ u ∈ resultsOf g f, ρ.op u = ρ.op o → u = o :=
    fun u hu => h.opInj u (List.mem_of_mem_filter hu) o ho
  rw [resultsOf_carries h, List.idxOf_eq_getD_idxOf?, List.idxOf_eq_getD_idxOf?, List.length_map,
    idxOf?_map_of_inj hinj]

theorem opText_carries (hp : Printable g f) (ht : g.TargetsListed f) (h : ρ.Carries g g' f f')
    {o : OpId} (ho : o ∈ g.opsOf f) : opText g' f' (ρ.op o) = opText g f o := by
  have hstart : opStart g' f' (ρ.op o) = opStart g f o := by
    unfold opStart
    rw [h.code o ho, idxOf_resultsOf h ho]
    split
    · rfl
    · rename_i hterm
      rw [h.bits o ho (by simpa using hterm)]
  unfold opText
  rw [hstart, h.args o ho, h.targets o ho, List.map_map, List.map_map]
  congr 3
  · refine List.map_congr_left fun v hv => ?_
    obtain ⟨w, rfl, hparam, hresult⟩ := hp.operand o ho v hv
    cases w with
    | const c => rfl
    | param p =>
      simp [Relabeling.operand, operandText, h.paramName p (hparam p rfl)]
    | result u =>
      have hu := List.mem_of_mem_filter (hresult u rfl)
      simp [Relabeling.operand, operandText, idxOf_resultsOf h hu]
  · refine List.map_congr_left fun t hmem => ?_
    obtain ⟨b, rfl⟩ := hp.target o ho t hmem
    exact h.blockName b (ht o ho b hmem)

variable [Unicode]

theorem printHeader_maps (h : ρ.Maps g g' f f') :
    printHeader g' (g'.func f') = printHeader g (g.func f) := by
  have hparams : ((g'.func f').params.map fun p =>
      text "i" ++ decimal (g'.param p).bits ++ text " %" ++ (g'.param p).name) =
      (g.func f).params.map fun p =>
        text "i" ++ decimal (g.param p).bits ++ text " %" ++ (g.param p).name := by
    rw [h.params, List.map_map]
    refine List.map_congr_left fun p hmem => ?_
    rw [Function.comp_apply, h.paramBits p hmem, h.paramName p hmem]
  simp only [printHeader, hparams, h.external, h.isDeclaration, h.name, h.retBits, h.note,
    h.metadata]

/-- A relabeled function is printed like the one it was made from. -/
theorem funcLines_maps (hp : Printable g f) (ht : g.TargetsListed f) (h : ρ.Maps g g' f f') :
    funcLines g' f' = funcLines g f := by
  have hblocks : (g'.func f').blocks.flatMap (blockLines g' f') =
      (g.func f).blocks.flatMap (blockLines g f) := by
    rw [h.blocks, List.flatMap_map]
    refine List.flatMap_congr fun b hb => ?_
    unfold blockLines
    rw [h.blockName b hb, h.ops b hb, List.map_map]
    congr 1
    refine List.map_congr_left fun o ho => ?_
    rw [Function.comp_apply, opText_carries hp ht h.toCarries (Graph.mem_opsOf.2 ⟨b, hb, ho⟩)]
  simp only [funcLines, h.isDeclaration, printHeader_maps h, hblocks]

/-- So are the functions of a module. -/
theorem printModule_forall₂ (hp : ∀ f ∈ (g.module m).funcs, Printable g f)
    (ht : ∀ f ∈ (g.module m).funcs, g.TargetsListed f)
    (h : List.Forall₂ (fun f f' => ∃ ρ : Relabeling, ρ.Maps g g' f f') (g.module m).funcs
      (g'.module m').funcs) : printModule g' m' = .ok (unlines (moduleLines g m)) := by
  have hboth : (∀ f' ∈ (g'.module m').funcs, Printable g' f') ∧
      (g'.module m').funcs.map (funcLines g') = (g.module m).funcs.map (funcLines g) := by
    generalize (g.module m).funcs = fs at hp ht h
    generalize (g'.module m').funcs = fs' at h
    induction h with
    | nil => simp
    | @cons f f' fs fs' hmap _ ih =>
      obtain ⟨ρ, hmap⟩ := hmap
      obtain ⟨hrest, hlines⟩ := ih (fun k hk => hp k (by simp [hk])) fun k hk => ht k (by simp [hk])
      have hf := hp f (by simp)
      refine ⟨List.forall_mem_cons.2 ⟨hf.carries hmap.toCarries, hrest⟩, ?_⟩
      rw [List.map_cons, List.map_cons, hlines, funcLines_maps hf (ht f (by simp)) hmap]
  rw [printModule_eq hboth.1, moduleLines, hboth.2, moduleLines]

end
end Disguise.Syntax
