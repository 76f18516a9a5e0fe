import Disguise.Proofs.Batches
import Disguise.Proofs.Choices
import Disguise.Substitution.Engine

/-!
Visits of a block. The engine queues the chains it makes and places them by a single commit; a visit
is the same as applying each chosen rule on the spot, in order, to the ops that the block had when
the visit began.
-/
namespace Disguise
open Results

namespace Substitution
variable {e : Editor} {g : Graph} {o : OpId}

theorem create_settle (e : Editor) (g : Graph) (bits : Int) (x y : Option Operand) (c : Chain) :
    create (e.settle g) bits x y c =
      (e.settle (create g bits x y c).1, (create g bits x y c).2) :=
  Prod.ext (List.foldl_hom e.settle fun _ _ => rfl) rfl

/-- New ops are detached. -/
theorem create_keeps (g : Graph) (bits : Int) (x y : Option Operand) (c : Chain) :
    (create g bits x y c).1.blocks = g.blocks ∧
      ∀ u, ((create g bits x y c).1.op u).block = (g.op u).block := by
  unfold create
  dsimp only
  refine List.foldlRecOn c.steps _ (motive := fun g' : Graph => g'.blocks = g.blocks ∧
    ∀ u, (g'.op u).block = (g.op u).block) ⟨rfl, fun _ => rfl⟩ fun g' hg' s _ => ?_
  refine ⟨hg'.1, fun u => ?_⟩
  rw [Graph.op_newOp]
  split
  · rename_i hu
    have hnone : (g'.op u).block = none := by
      rw [hu, Graph.op, g'.ops.get_of_size_le (Nat.le_refl _)]
      rfl
    rw [← hg'.2 u, hnone]
  · exact hg'.2 u

/-- The outcomes of applying a rule to an op through an editor and on the spot. -/
inductive Applied (e : Editor) (g : Graph) :
    Option (Editor × Graph × Nat) → Option (Graph × Nat) → Prop where
  | unfit : Applied e g none none
  | done {e' : Editor} {g' : Graph} (n : Nat) (block : e'.block = e.block) (work : e'.AtWork g')
      (blocks : g'.blocks = g.blocks) : Applied e g (some (e', g', n)) (some (e'.settle g', n))

/-- A rule may be applied through an editor or on the spot. -/
theorem together_applied (h : e.AtWork g) (ho : o ∈ (g.block e.block).ops) (rule : Rule)
    (expand : Bool) : Together (applyQueued rule e g o expand)
      (applyAt rule (e.settle g) e.block o expand) (Applied e g) := by
  unfold applyQueued applyAt prepare
  rw [Editor.op_settle]
  by_cases hfits : fits rule (g.op o) = true
  · rw [if_neg (by simp [hfits]), if_neg (by simp [hfits])]
    simp only [bind_assoc, pure_bind]
    apply (Together.refl _).bind
    rintro c _ rfl
    rw [create_settle]
    obtain ⟨hblocks, howner⟩ := create_keeps g (g.op o).bits ((g.op o).args.getD 0 none)
      ((g.op o).args.getD 1 none) c
    generalize create g (g.op o).bits ((g.op o).args.getD 0 none)
      ((g.op o).args.getD 1 none) c = made at hblocks howner ⊢
    obtain ⟨g₁, ops, result⟩ := made
    dsimp only at hblocks howner ⊢
    have hlist : g₁.block e.block = g.block e.block := by rw [Graph.block, Graph.block, hblocks]
    have hwork : e.AtWork g₁ := h.congr hblocks fun u _ => howner u
    have ho₁ : o ∈ (g₁.block e.block).ops := by rwa [hlist]
    rw [hwork.insert ho₁]
    refine Together.bind (R := fun s x => x = s.1.settle s.2 ∧ s.1.block = e.block ∧
      s.1.AtWork s.2 ∧ s.2.blocks = g.blocks) (Together.lift fun s hs => ?_) ?_
    · obtain ⟨hqueued, hwork', hblocks'⟩ := hwork.queued ho₁ hs
      exact ⟨rfl, by rw [hqueued]; rfl, hwork', hblocks'.trans hblocks⟩
    · rintro ⟨e', g₂⟩ _ ⟨rfl, hblock, hwork', hblocks'⟩
      dsimp only at hblock hwork' hblocks' ⊢
      rw [Editor.settle, Graph.replaceAllUses_modifyBlock]
      apply (Together.lift (R := fun x y => y = e'.settle x ∧ g₂.SamePlaces x) fun x hx =>
        ⟨rfl, Graph.SamePlaces.of_replaceAllUses hx⟩).bind
      rintro g₃ _ ⟨rfl, hsame⟩
      exact .pure (.done _ hblock (hwork'.congr hsame.blocks fun u _ => hsame.owner u)
        (hsame.blocks.trans hblocks'))
  · rw [if_pos (by simp [hfits]), if_pos (by simp [hfits])]
    exact .pure .unfit

end Substitution

namespace Engine
open Substitution

/-- Visits one op of block `b` and places its chain at once. -/
def visitAtOnce (opts : Options) (b : BlockId) (p : Progress) (o : OpId) : Choice Progress := do
  let code := (p.graph.op o).code
  match opts.rules code with
  | [] => pure p
  | first :: rest =>
    let rules := first :: rest
    let rule := rules.getD (← Choice.below rules.length) first
    match ← applyAt rule p.graph b o opts.expandUnary with
    | none => pure p
    | some (g, length) =>
      pure { graph := g, stats := p.stats.bump code, replaced := o :: p.replaced
             lengths := length :: p.lengths }

/-- What an editor holds back and what has been placed at once in the visit of block `b`, whose own
list is still `ops`. -/
structure Abreast (b : BlockId) (ops : List OpId) (s : Editor × Progress) (p : Progress) :
    Prop where
  block : s.1.block = b
  work : s.1.AtWork s.2.graph
  list : (s.2.graph.block b).ops = ops
  same : p = { s.2 with graph := s.1.settle s.2.graph }

theorem together_visit (opts : Options) {b : BlockId} {ops : List OpId} {s : Editor × Progress}
    {p : Progress} (h : Abreast b ops s p) {o : OpId} (ho : o ∈ ops) :
    Together (visit opts s o) (visitAtOnce opts b p o) (Abreast b ops) := by
  obtain ⟨e, q⟩ := s
  obtain ⟨hblock, hwork, hlist, rfl⟩ := h
  dsimp only at hblock hwork hlist
  subst hblock
  have ho' : o ∈ (q.graph.block e.block).ops := by rwa [hlist]
  unfold visit visitAtOnce
  dsimp only
  rw [Editor.op_settle]
  cases opts.rules (q.graph.op o).code with
  | nil => exact .pure ⟨rfl, hwork, hlist, rfl⟩
  | cons first rest =>
    apply (Together.refl _).bind
    rintro i _ rfl
    apply (together_applied hwork ho' _ opts.expandUnary).bind
    rintro _ _ (_ | ⟨n, hblock, hwork', hblocks⟩)
    · exact .pure ⟨rfl, hwork, hlist, rfl⟩
    · refine .pure ⟨hblock, hwork', ?_, rfl⟩
      show (Graph.block _ e.block).ops = ops
      rw [Graph.block, hblocks]
      exact hlist

/-- A visit of a block applies each chosen rule on the spot to the ops that the block had. -/
theorem visitBlock_eq (opts : Options) {p : Progress} {b : BlockId}
    (h : Editor.AtWork { block := b } p.graph) :
    visitBlock opts p b = (p.graph.block b).ops.foldlM (visitAtOnce opts b) p := by
  have hsettle : Editor.settle { block := b } p.graph = p.graph :=
    Editor.settle_of_nil h.there (by simp [Editor.waiting])
  have hstart : Abreast b (p.graph.block b).ops ({ block := b }, p) p := by
    refine ⟨rfl, h, rfl, ?_⟩
    dsimp only
    rw [hsettle]
  have hfold : Together ((p.graph.block b).ops.foldlM (visit opts) ({ block := b }, p))
      ((p.graph.block b).ops.foldlM (visitAtOnce opts b) p) (Abreast b (p.graph.block b).ops) :=
    .foldlM (fun o ho s q hs => together_visit opts hs ho) hstart
  apply Together.eq
  unfold visitBlock
  rw [← bind_pure ((p.graph.block b).ops.foldlM (visitAtOnce opts b) p)]
  apply hfold.bind
  rintro ⟨e, q⟩ _ ⟨-, hwork, -, rfl⟩
  obtain ⟨e', hcommit⟩ := hwork.commit
  dsimp only at hcommit ⊢
  rw [hcommit]
  exact .pure rfl

end Engine

namespace Graph
open Editor

/-- Editing a block through an editor is editing it at once. For every script, whatever use sets
hold, the outcomes are equal; with exact use sets a proper script breaks off nowhere, the commit
included. A visit of the block by the engine is no different. -/
theorem editBatched_eq_editAtOnce {g : Graph} {b : BlockId} (hb : b.idx < g.blocks.size)
    (hn : (g.block b).ops.Nodup) (howner : ∀ o ∈ (g.block b).ops, (g.op o).block = some b) :
    (∀ moves, Script g b moves → editBatched g b moves = editAtOnce g b moves ∧
      ∀ waiting, g.Exact waiting → Proper g waiting moves →
        ∃ g', editBatched g b moves = .ok g' ∧ g'.Exact waiting) ∧
    ∀ opts (p : Engine.Progress), p.graph = g → Engine.visitBlock opts p b =
      (g.block b).ops.foldlM (Engine.visitAtOnce opts b) p := by
  have hwork : AtWork { block := b } g := .opened hb hn howner
  constructor
  · intro moves hscript
    have heq := editBatched_eq hwork hscript
    refine ⟨heq, fun waiting hex hproper => ?_⟩
    obtain ⟨g', hok, hex'⟩ := exists_edited hex hscript hproper
    exact ⟨g', heq.trans hok, hex'⟩
  · rintro opts p rfl
    exact Engine.visitBlock_eq opts hwork

/-- A block with a byte and an op that adds it to itself, and three ops that are not placed. -/
theorem exists_laid : ∃ g : Graph, g.Exact (fun _ => []) ∧ (g.block ⟨0⟩).ops = [⟨0⟩, ⟨1⟩] ∧
    (∀ o ∈ [⟨2⟩, ⟨3⟩, ⟨4⟩], (g.op o).block = none) ∧ (g.op ⟨3⟩).args.length = 1 ∧
    (g.op ⟨0⟩).bits = 8 ∧ (g.op ⟨1⟩).code = .add ∧ (g.op ⟨1⟩).bits = 8 ∧
    (g.op ⟨1⟩).args = [some (.result ⟨0⟩), some (.result ⟨0⟩)] := by
  have laid := Session.Leads.here (s := {})
    |>.step (.addBlock ⟨0⟩ (text "entry")) trivial rfl (by decide)
    |>.step (.newOp .not 8 [some (.const ⟨1, 8⟩)] []) trivial rfl (by decide)
    |>.step (.newOp .add 8 [some (.result ⟨0⟩), some (.result ⟨0⟩)] []) trivial rfl (by decide)
    |>.step (.newOp .neg 8 [some (.result ⟨0⟩)] []) trivial rfl (by decide)
    |>.step (.newOp .not 8 [some (.const ⟨3, 8⟩)] []) trivial rfl (by decide)
    |>.step (.newOp .mul 8 [some (.result ⟨2⟩), some (.result ⟨3⟩)] []) trivial rfl (by decide)
    |>.step (.append ⟨0⟩ [⟨0⟩, ⟨1⟩]) ⟨by decide, by decide⟩ rfl (by decide)
  obtain ⟨hexact, -⟩ :=
    Session.exact_of_leads ⟨exact_empty, by simp⟩ (by simp [Session.Anchored]) laid
  exact ⟨_, hexact.graph, by decide, by decide, by decide, by decide, by decide, by decide,
    by decide⟩

/-- Two batches before one op and one before another, which loses its users to an op held back. -/
def crossing : List Move :=
  [.insert ⟨1⟩ [⟨2⟩], .change (.replaceAllUses ⟨0⟩ (some (.result ⟨2⟩))), .insert ⟨0⟩ [⟨3⟩],
    .insert ⟨1⟩ [⟨4⟩], .change (.setArg ⟨3⟩ 0 (some (.const ⟨2, 8⟩)))]

theorem crossing_editBatched_eq : ∃ g : Graph,
    editBatched g ⟨0⟩ crossing = editAtOnce g ⟨0⟩ crossing ∧
    (∃ g', editBatched g ⟨0⟩ crossing = .ok g' ∧ g'.Exact fun _ => []) ∧
    Engine.visitBlock {} { graph := g } ⟨0⟩ =
      (g.block ⟨0⟩).ops.foldlM (Engine.visitAtOnce {} ⟨0⟩) { graph := g } := by
  obtain ⟨g, hexact, hlist, hdetached, hslot, -⟩ := exists_laid
  have hthere : (⟨0⟩ : BlockId).idx < g.blocks.size := g.lt_size_of_ops ⟨0⟩ (by simp [hlist])
  obtain ⟨hscripts, hvisits⟩ := editBatched_eq_editAtOnce hthere (hexact.nodup ⟨0⟩)
    fun o => hexact.block_of_mem
  have hscript : Script g ⟨0⟩ crossing := ⟨by rw [hlist]; decide, by decide, by decide⟩
  have hproper : Proper g (fun _ => []) crossing := by
    refine ⟨by decide, hdetached, fun o i v hmem => ?_, by simp⟩
    simp only [crossing, List.mem_cons, reduceCtorEq, Move.change.injEq, Change.setArg.injEq,
      false_or, List.not_mem_nil, or_false] at hmem
    obtain ⟨rfl, rfl, rfl⟩ := hmem
    rw [hslot]
    exact Nat.zero_lt_one
  obtain ⟨heq, hcarried⟩ := hscripts crossing hscript
  exact ⟨g, heq, hcarried _ hexact hproper, hvisits {} _ rfl⟩

end Graph
end Disguise
