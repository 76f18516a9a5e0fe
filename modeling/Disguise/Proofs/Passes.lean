import Disguise.Proofs.Replacing
import Disguise.Substitution.Engine

/-!
What the engine does to a graph. Whatever is chosen, every visit, every pass and every call succeeds
and transforms the function it is for: the function stays well-formed and runs as it did, and
nothing else is written.
-/
namespace Disguise
open Disguise.Graph

namespace Substitution
variable {e : Editor} {g : Graph} {f : FuncId} {o : OpId} {rule : Rule}

theorem always_applyQueued [FloatUnit] (h : e.Open g f) (ho : o ∈ (g.block e.block).ops)
    (hrule : rule ∈ Rule.table (g.op o).code) (expand : Bool) :
    Always (applyQueued rule e g o expand) fun r => ∃ e' g' n, r = some (e', g', n) ∧
      Editor.Replacement expand e g f o e' g' n := by
  have hcode := Rule.mem_replaceable hrule
  obtain ⟨x, y, hargs, hwidth, -, -⟩ :=
    h.wellFormed.exists_operands (Editor.mem_settle h.mem ho) hcode
  rw [Editor.op_settle] at hargs hwidth
  obtain ⟨w, hbits, -, -⟩ := Word.goodWidth_iff.1 hwidth
  have hfits : fits rule (g.op o) = true := by
    simp [fits, Rule.code_of_table hrule, hargs, h.owner ho]
  unfold applyQueued prepare
  rw [if_neg (by simp [hfits])]
  rw [hbits] at hwidth
  simp only [hbits, hargs, List.getD_cons_zero, List.getD_cons_succ, bind_assoc]
  apply ((Chain.always_ends (Chain.Gives.of_table hwidth expand hrule)).and
    (Chain.always_woven hwidth expand hrule)).bind
  rintro c ⟨hc, hwoven⟩
  obtain ⟨g₁, new, v, g₂, g₃, hcreate, hinsert, hreplace, hdone⟩ :=
    h.replace ho hcode hargs hbits hc hwoven
  simp only [pure_bind, hcreate]
  apply (Always.lift hinsert (P := fun r => r = (e.queued o new, g₂)) rfl).bind
  rintro _ rfl
  apply (Always.lift hreplace (P := fun r => r = g₃) rfl).bind
  rintro _ rfl
  exact .pure ⟨_, _, _, rfl, hdone⟩

end Substitution

namespace Stats
variable {c : Opcode} (hc : c ∈ Rule.replaceable) (s : Stats)
include hc

theorem count_bump (d : Opcode) : (s.bump c).count d = s.count d + if c = d then 1 else 0 := by
  simp only [Rule.replaceable, List.mem_cons, List.not_mem_nil, or_false] at hc
  rcases hc with rfl | rfl | rfl | rfl | rfl | rfl <;> cases d <;> rfl

theorem total_bump : (s.bump c).total = s.total + 1 := by
  simp only [Rule.replaceable, List.mem_cons, List.not_mem_nil, or_false] at hc
  rcases hc with rfl | rfl | rfl | rfl | rfl | rfl <;> simp only [bump, total] <;> omega

end Stats

namespace Engine
variable {opts : Options} {g x : Graph} {f : FuncId}

/-- The ops of a list that a pass over `g` replaces: those whose code has a rule. -/
def due (opts : Options) (g : Graph) (ops : List OpId) : List OpId :=
  ops.filter fun o => !(opts.rules (g.op o).code).isEmpty

/-- A pass over function `f` of `g` that has `rest` left to visit; `x` is the graph with all queued
ops in their places. -/
structure Underway [FloatUnit] (opts : Options) (g : Graph) (f : FuncId) (rest : List OpId)
    (x : Graph) (p : Progress) : Prop where
  transformed : Transformed g x f
  keeps : Keeps g x f
  replaced : p.replaced.reverse ++ due opts g rest = due opts g (g.opsOf f)
  unused : ∀ o ∈ p.replaced, x.Unused f o
  stats : ∀ c, p.stats.count c = p.replaced.countP fun o => (g.op o).code = c
  total : p.stats.total = p.replaced.length
  lengths : p.lengths.length = p.replaced.length
  numOps : x.numOps f = g.numOps f + p.lengths.sum
  history : ∃ es, Rewriting opts.expandUnary f g es x ∧ es.map Rewrite.op = p.replaced.reverse

theorem mem_replaceable_of_rules {c : Opcode} (h : opts.rules c ≠ []) : c ∈ Rule.replaceable := by
  obtain ⟨rule, hrule⟩ := List.exists_mem_of_ne_nil _ h
  exact Rule.mem_replaceable (List.mem_of_mem_filter hrule)

namespace Underway
variable [FloatUnit] {rest : List OpId} {p : Progress} {o : OpId}

theorem start (opts : Options) (wf : g.WellFormed f) :
    Underway opts g f (g.opsOf f) g { graph := g } where
  transformed := .refl wf
  keeps _ hu := ⟨hu, rfl⟩
  replaced := rfl
  unused := by simp
  stats := by intro c; cases c <;> rfl
  total := rfl
  lengths := rfl
  numOps := rfl
  history := ⟨[], .nil, rfl⟩

/-- What has been replaced are ops that the function still has and that cannot fail. -/
theorem mem (h : Underway opts g f rest x p) (ho : o ∈ p.replaced) :
    o ∈ x.opsOf f ∧ (x.op o).code ∈ Rule.replaceable := by
  have hdue : o ∈ due opts g (g.opsOf f) := by
    rw [← h.replaced]
    exact List.mem_append_left _ (List.mem_reverse.2 ho)
  obtain ⟨hmem, hrules⟩ := List.mem_filter.1 hdue
  obtain ⟨hmem', hcode⟩ := h.keeps o hmem
  rw [hcode]
  exact ⟨hmem', mem_replaceable_of_rules (by simpa using hrules)⟩

theorem nodup (h : Underway opts g f rest x p) (wf : g.WellFormed f) : p.replaced.Nodup := by
  have hdue : (due opts g (g.opsOf f)).Nodup := wf.opsOf_nodup.filter _
  rw [← h.replaced] at hdue
  exact List.nodup_reverse.1 (List.nodup_append.1 hdue).1

/-- An op without rules is passed by. -/
theorem skip (h : Underway opts g f (o :: rest) x p) (hrules : opts.rules (g.op o).code = []) :
    Underway opts g f rest x p := by
  refine { h with replaced := ?_ }
  rw [← h.replaced, due, due, List.filter_cons_of_neg (by simp [hrules])]

/-- An op with rules is replaced and counted. -/
theorem replace {e e' : Editor} {g' : Graph} {n : Nat}
    (h : Underway opts g f (o :: rest) (e.settle p.graph) p)
    (hrules : opts.rules (g.op o).code ≠ []) (ho : o ∈ g.opsOf f)
    (hr : Editor.Replacement opts.expandUnary e p.graph f o e' g' n) :
    Underway opts g f rest (e'.settle g')
      { graph := g', stats := p.stats.bump (g.op o).code, replaced := o :: p.replaced
        lengths := n :: p.lengths } := by
  have hcode := mem_replaceable_of_rules hrules
  constructor
  case transformed => exact h.transformed.trans hr.transformed
  case keeps => exact h.keeps.trans hr.keeps
  case replaced =>
    rw [← h.replaced, due, due, List.filter_cons_of_pos (by simpa using hrules)]
    simp
  case unused =>
    intro u hu
    rcases List.mem_cons.1 hu with rfl | hu
    · exact hr.unused u (h.keeps u ho).1 (.inl rfl)
    · exact hr.unused u (h.mem hu).1 (.inr (h.unused u hu))
  case stats =>
    intro c
    rw [Stats.count_bump hcode, h.stats c, List.countP_cons]
    simp
  case total => rw [Stats.total_bump hcode, h.total, List.length_cons]
  case lengths => rw [List.length_cons, List.length_cons, h.lengths]
  case numOps =>
    rw [hr.numOps, h.numOps, List.sum_cons]
    omega
  case history =>
    obtain ⟨es, hes, hops⟩ := h.history
    obtain ⟨r, rfl, hnow⟩ := hr.rewritten
    exact ⟨es ++ [r], .snoc hes hnow, by simp [hops]⟩

end Underway

/-- What holds in the middle of block `b`, when the blocks `ahead` are still as they were. -/
structure Visiting [FloatUnit] (opts : Options) (g : Graph) (f : FuncId) (b : BlockId)
    (ahead : List BlockId) (rest : List OpId) (s : Editor × Progress) : Prop extends
    Underway opts g f rest (s.1.settle s.2.graph) s.2 where
  opened : s.1.Open s.2.graph f
  block : s.1.block = b
  lists : ∀ c ∈ b :: ahead, (s.2.graph.block c).ops = (g.block c).ops

theorem always_visit [FloatUnit] {b : BlockId} {ahead : List BlockId} {rest : List OpId} {o : OpId}
    {s : Editor × Progress} (h : Visiting opts g f b ahead (o :: rest) s)
    (hb : b ∈ (g.func f).blocks) (ho : o ∈ (g.block b).ops) :
    Always (visit opts s o) (Visiting opts g f b ahead rest) := by
  obtain ⟨e, p⟩ := s
  have hmem : o ∈ (p.graph.block e.block).ops := by
    rw [h.block, h.lists b (by simp)]
    exact ho
  have hof : o ∈ g.opsOf f := mem_opsOf.2 ⟨b, hb, ho⟩
  have hcode : (p.graph.op o).code = (g.op o).code := (h.keeps o hof).2
  unfold visit
  dsimp only
  rw [hcode]
  split
  · rename_i hrules
    exact .pure { h with toUnderway := h.skip hrules }
  · rename_i first rest hrules
    apply (Always.below (by simp)).bind
    intro i hi
    have hrule : (first :: rest).getD i first ∈ Rule.table (p.graph.op o).code := by
      have hin : (first :: rest).getD i first ∈ opts.rules (g.op o).code := by
        have hlt : i < (first :: rest).length := by simpa using hi
        rw [hrules, List.getD_eq_getElem?_getD, List.getElem?_eq_getElem hlt, Option.getD_some]
        exact List.getElem_mem hlt
      rw [hcode]
      exact List.mem_of_mem_filter hin
    apply (Substitution.always_applyQueued h.opened hmem hrule opts.expandUnary).bind
    rintro _ ⟨e', g', n, rfl, hr⟩
    apply Always.pure
    refine ⟨h.replace (by rw [hrules]; simp) hof hr, hr.opened, hr.block.trans h.block, ?_⟩
    intro c hc
    rw [← h.lists c hc, Graph.block, hr.blocks]
    rfl

/-- What holds when the blocks `ahead` are left. -/
def Between [FloatUnit] (opts : Options) (g : Graph) (f : FuncId) (ahead : List BlockId)
    (p : Progress) : Prop :=
  Underway opts g f (ahead.flatMap fun b => (g.block b).ops) p.graph p ∧
    ∀ c ∈ ahead, (p.graph.block c).ops = (g.block c).ops

theorem always_visitBlock [FloatUnit] {p : Progress} {b : BlockId} {ahead : List BlockId}
    (h : Between opts g f (b :: ahead) p) (wf : g.WellFormed f) (hb : b ∈ (g.func f).blocks)
    (hnot : b ∉ ahead) : Always (visitBlock opts p b) (Between opts g f ahead) := by
  obtain ⟨hunder, hlists⟩ := h
  have hlist := hlists b (by simp)
  have hops : (g.block b).ops ≠ [] := by
    obtain ⟨body, last, heq, -, -⟩ := wf.ended b hb
    simp [heq]
  have hnone : (p.graph.block b).ops.flatMap (Editor.waiting { block := b }) = [] := by
    simp [Editor.waiting]
  have hsettle : Editor.settle { block := b } p.graph = p.graph :=
    Editor.settle_of_nil (p.graph.lt_size_of_ops b (by rwa [hlist])) hnone
  have hstart : Visiting opts g f b ahead
      ((g.block b).ops ++ ahead.flatMap fun b => (g.block b).ops) ({ block := b }, p) := by
    refine ⟨?_, ⟨?_, ?_, ?_⟩, rfl, hlists⟩
    · dsimp only
      rw [hsettle]
      exact hunder
    · rw [hsettle]
      exact hunder.transformed.wellFormed
    · rw [hunder.transformed.frame.func]
      exact hb
    · simp [Editor.Balanced, Editor.waiting]
  unfold visitBlock
  rw [hlist]
  have hfold := @Always.foldlM _ _ (g.block b).ops (visit opts)
    (fun rest s => Visiting opts g f b ahead (rest ++ ahead.flatMap fun b => (g.block b).ops) s)
    ({ block := b }, p) hstart (by
      rintro o rest s ⟨done, hsplit⟩ hs
      exact always_visit hs hb (by simp [hsplit]))
  apply hfold.bind
  rintro ⟨e, p'⟩ hs
  have hblock : e.block = b := hs.block
  obtain ⟨e', hcommit⟩ := @Editor.commit_eq_ok e p'.graph
    (p'.graph.lt_size_of_ops _ (by rwa [hblock, hs.lists b (by simp)])) hs.opened.balanced
  apply (Always.lift hcommit (P := fun r => r = (e', e.settle p'.graph)) rfl).bind
  rintro _ rfl
  refine .pure ⟨{ hs.toUnderway with }, fun c hc => ?_⟩
  have hne : c ≠ e.block := by
    rintro rfl
    exact hnot (hblock ▸ hc)
  rw [Editor.block_settle, if_neg hne]
  exact hs.lists c (List.mem_cons_of_mem b hc)

/-- A pass over function `f` that turns `g` into `g'` counts every op whose code has a rule, with
the function as it is at the start; by so many ops the function grows as the chains have and no op
that was replaced is there any more if dead ops are to be erased. -/
structure Counted (opts : Options) (g : Graph) (f : FuncId) (g' : Graph) (t : Tally) : Prop where
  stats : ∀ c, t.stats.count c = if opts.rules c = [] then 0 else g.countCode f c
  lengths : t.lengths.length = t.stats.total
  erased : t.erased = if opts.eraseDead then t.stats.total else 0
  numOps : g'.numOps f + t.erased = g.numOps f + t.lengths.sum

/-- What a pass over function `f` that turns `g` into `g'` did: it rewrote the ops whose code has a
rule, one after the other, and if dead ops are to be erased it then took out all of them. -/
structure Performed (opts : Options) (f : FuncId) (g : Graph) (es : List Rewrite) (g' : Graph) :
    Prop where
  due : es.map Rewrite.op = due opts g (g.opsOf f)
  made : ∃ x, Rewriting opts.expandUnary f g es x ∧
    if opts.eraseDead then Swept x g' f (es.map Rewrite.op) else g' = x

/-- Of each code the ops with rules are counted. -/
theorem countP_due (c : Opcode) : (due opts g (g.opsOf f)).countP (fun o => (g.op o).code = c) =
    if opts.rules c = [] then 0 else g.countCode f c := by
  rw [due, List.countP_filter, countCode]
  split
  · rename_i hrules
    rw [List.countP_eq_zero]
    intro o _
    simp only [Bool.and_eq_true, decide_eq_true_eq, not_and]
    rintro rfl
    simp [hrules]
  · rename_i hrules
    refine List.countP_congr fun o _ => ?_
    simp only [Bool.and_eq_true, decide_eq_true_eq, and_iff_left_iff_imp]
    rintro rfl
    simpa using hrules

variable [FloatUnit]

theorem Underway.replaced_eq {p : Progress} (h : Underway opts g f [] x p) :
    p.replaced.reverse = due opts g (g.opsOf f) := by
  rw [← h.replaced]
  exact (List.append_nil _).symm

theorem Underway.stats_eq {p : Progress} (h : Underway opts g f [] x p) (c : Opcode) :
    p.stats.count c = if opts.rules c = [] then 0 else g.countCode f c := by
  rw [h.stats c, ← countP_due, ← h.replaced_eq, List.countP_reverse]

theorem always_pass (opts : Options) (wf : g.WellFormed f) :
    Always (pass opts g f) fun r => Transformed g r.1 f ∧ Counted opts g f r.1 r.2 ∧
      ∃ es, Performed opts f g es r.1 := by
  unfold pass
  have hfold := @Always.foldlM _ _ (g.func f).blocks (visitBlock opts)
    (fun ahead p => Between opts g f ahead p) { graph := g } ⟨.start opts wf, fun _ _ => rfl⟩ (by
      rintro b rest p ⟨done, hsplit⟩ hp
      exact always_visitBlock hp wf (by simp [hsplit])
        (not_mem_of_nodup wf.blocksNodup hsplit).2)
  apply hfold.bind
  rintro p ⟨h, -⟩
  obtain ⟨es, hes, hops⟩ := h.history
  dsimp only
  apply Always.ite
  · intro herase
    obtain ⟨g', gone, hdead, hswept, hn, hfrom, hgone⟩ :=
      @removeDead_eq_ok p.graph f h.transformed.wellFormed p.replaced.reverse
        fun o ho => h.mem (List.mem_reverse.1 ho)
    -- nothing reads an op that was replaced, so all of them go
    have hperm : gone.Perm p.replaced := by
      refine (List.perm_ext_iff_of_nodup hn (h.nodup wf)).2 fun o => ⟨fun ho => ?_, fun ho => ?_⟩
      · exact List.mem_reverse.1 (hfrom o ho)
      · exact hgone o (List.mem_reverse.2 ho) (h.unused o ho)
    apply (Always.lift hdead (P := fun r => r = (g', gone.length)) rfl).bind
    rintro _ rfl
    have hswept' := hswept.perm (hperm.trans (hops ▸ List.reverse_perm _).symm)
    refine .pure ⟨h.transformed.trans (hswept.transformed h.transformed.wellFormed),
      ⟨h.stats_eq, ?_, ?_, ?_⟩, es, hops.trans h.replaced_eq, p.graph, hes,
      by rwa [if_pos herase]⟩
    · rw [List.length_reverse, h.lengths, h.total]
    · rw [if_pos herase, hperm.length_eq, h.total]
    · rw [hswept.numOps h.transformed.wellFormed hn, h.numOps, List.sum_reverse]
  · intro herase
    refine .pure ⟨h.transformed, ⟨h.stats_eq, ?_, (if_neg herase).symm, ?_⟩, es,
      hops.trans h.replaced_eq, p.graph, hes, by rw [if_neg herase]⟩
    · rw [List.length_reverse, h.lengths, h.total]
    · rw [Nat.add_zero, h.numOps, List.sum_reverse]

theorem always_passes (opts : Options) (n : Nat) (t : Tally) (wf : g.WellFormed f) :
    Always (passes opts f n g t) fun r => Transformed g r.1 f := by
  induction n generalizing g t with
  | zero => exact .pure (.refl wf)
  | succ n ih =>
    unfold passes
    apply Always.ite
    · exact fun _ => .pure (.refl wf)
    · intro _
      apply (always_pass opts wf).bind
      rintro ⟨g', new⟩ ⟨htrans, -⟩
      apply (ih (t ++ new) htrans.wellFormed).mono
      exact fun r htrans' => htrans.trans htrans'

theorem always_work (e : Engine) (count : Nat) (wf : g.WellFormed f) :
    Always (e.work g f count) fun r => Transformed g r.2.1 f := by
  unfold work
  apply (always_passes e.options count {} wf).bind
  rintro ⟨g', t⟩ htrans
  exact .pure htrans

theorem always_substitute (e : Engine) (wf : g.WellFormed f) :
    Always (e.substitute g f) fun r => Transformed g r.2.1 f := by
  unfold substitute
  apply Always.ite
  · exact fun _ => .pure (.refl wf)
  · exact fun _ => always_work e _ wf

theorem always_run (e : Engine) (sel : Selector) (wf : g.WellFormed f) :
    Always (e.run g f sel) fun r => Transformed g r.2.1 f := by
  unfold run
  dsimp only
  apply Always.ite
  · exact fun _ => .pure (.refl wf)
  · intro _
    apply Always.ite
    · exact fun _ => .pure (.refl wf)
    · intro _
      apply (always_work _ _ wf).bind
      rintro ⟨e', g', stats⟩ htrans
      exact .pure htrans

end Engine
end Disguise
