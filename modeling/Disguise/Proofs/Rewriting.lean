import Disguise.Proofs.Splicing

/-!
The history of a pass. One rewrite places a chain right before an op and turns the users of the op
to the last op of the chain. What that does to the blocks, the ops and the operand slots of a
function is told as a whole; a sequence of rewrites is a history.
-/
namespace Disguise
open Disguise.Graph

/-- An op that is rewritten, with the inner ops of its chain and the one that takes over its
users. -/
structure Rewrite where
  op : OpId
  inner : List OpId
  last : OpId

namespace Rewrite
variable (e : Rewrite)

/-- The ops that are placed, in their order. -/
def chain : List OpId := e.inner ++ [e.last]

/-- What an operand slot holds afterwards. -/
def turned : Option Operand → Option Operand := turn e.op (some (.result e.last))

theorem last_mem : e.last ∈ e.chain := by simp [chain]

theorem mem_chain {n : OpId} : n ∈ e.chain ↔ n ∈ e.inner ∨ n = e.last := by simp [chain]

/-- The op whose result stands for that of `d` afterwards. -/
def heir (d : OpId) : OpId := if d = e.op then e.last else d

/-- A slot reads the heir of an op if it read that op before. -/
theorem turned_eq_heir {a : Option Operand} {d : OpId} (ha : a ≠ some (.result e.last))
    (hd : d ≠ e.last) : e.turned a = some (.result (e.heir d)) ↔ a = some (.result d) := by
  unfold turned turn heir
  by_cases hop : d = e.op
  · subst hop
    rw [if_pos rfl]
    split
    · exact iff_of_true rfl ‹_›
    · exact iff_of_false ha ‹_›
  · rw [if_neg hop]
    split
    · rename_i heq
      subst heq
      refine iff_of_false (fun h => ?_) fun h => ?_
      · cases h
        exact hd rfl
      · cases h
        exact hop rfl
    · rfl

end Rewrite

namespace Graph
variable {g g' g'' : Graph} {f : FuncId} {expand : Bool} {e : Rewrite} {es : List Rewrite}
  {u : OpId}

/-- One rewrite in function `f`: a chain of new ops is placed right before the op, the slots that
held the result of the op come to hold that of the end of the chain, and nothing else changes. The
chain uses both operands of the op and all its inner ops; with complement and negation written out
it has neither. -/
structure Rewritten (expand : Bool) (f : FuncId) (g : Graph) (e : Rewrite) (g' : Graph) : Prop where
  func : g'.func f = g.func f
  wellFormed : g'.WellFormed f
  code : (g.op e.op).code ∈ Rule.replaceable
  placed : ∃ b ∈ (g.func f).blocks, ∃ pre post, (g.block b).ops = pre ++ e.op :: post ∧
    (g'.block b).ops = pre ++ e.chain ++ e.op :: post ∧
    ∀ c, c ≠ b → (g'.block c).ops = (g.block c).ops
  size : g.ops.size ≤ g'.ops.size
  fresh : ∀ n ∈ e.chain, g.ops.size ≤ n.idx
  nodup : e.chain.Nodup
  same : ∀ u, u ∉ e.chain → (g'.op u).code = (g.op u).code ∧ (g'.op u).bits = (g.op u).bits ∧
    (g'.op u).targets = (g.op u).targets ∧ (g'.op u).block = (g.op u).block
  slots : ∀ u ∈ g.opsOf f, (g'.op u).args = (g.op u).args.map e.turned
  others : ∀ u, u ∉ g.opsOf f → u ∉ e.chain → (g'.op u).args = (g.op u).args
  made : ∀ n ∈ e.chain, (g'.op n).bits = (g.op e.op).bits ∧
    ((g'.op n).code ∈ Rule.replaceable ∨ expand = false ∧ (g'.op n).code ∈ [Opcode.not, .neg])
  reads : ∀ n ∈ e.chain, ∀ d, some (.result d) ∈ (g'.op n).args →
    d ∈ e.inner ∨ some (.result d) ∈ (g.op e.op).args.map e.turned
  operands : ∀ v ∈ (g.op e.op).args, ∃ n ∈ e.chain, e.turned v ∈ (g'.op n).args
  inner : ∀ n ∈ e.inner, ∃ n' ∈ e.chain, some (.result n) ∈ (g'.op n').args

/-- Rewrites one after the other. -/
inductive Rewriting (expand : Bool) (f : FuncId) (g : Graph) : List Rewrite → Graph → Prop
  | nil : Rewriting expand f g [] g
  | snoc {es : List Rewrite} {x y : Graph} {e : Rewrite} (before : Rewriting expand f g es x)
      (now : Rewritten expand f x e y) : Rewriting expand f g (es ++ [e]) y

namespace Rewritten
variable (h : Rewritten expand f g e g')
include h

theorem op_mem : e.op ∈ g.opsOf f := by
  obtain ⟨b, hb, pre, post, hops, -, -⟩ := h.placed
  exact mem_opsOf.2 ⟨b, hb, by simp [hops]⟩

theorem mem_opsOf : u ∈ g'.opsOf f ↔ u ∈ g.opsOf f ∨ u ∈ e.chain := by
  obtain ⟨b, hb, pre, post, hops, hops', hblock⟩ := h.placed
  have hmem : ∀ c, u ∈ (g'.block c).ops ↔ u ∈ (g.block c).ops ∨ c = b ∧ u ∈ e.chain := by
    intro c
    by_cases hc : c = b
    · subst hc
      simp only [hops, hops', List.mem_append, List.mem_cons]
      tauto
    · simp [hblock c hc, hc]
  simp only [Graph.mem_opsOf, h.func, hmem]
  constructor
  · rintro ⟨c, hc, hu | ⟨-, hu⟩⟩
    · exact .inl ⟨c, hc, hu⟩
    · exact .inr hu
  · rintro (⟨c, hc, hu⟩ | hu)
    · exact ⟨c, hc, .inl hu⟩
    · exact ⟨b, hb, .inr ⟨rfl, hu⟩⟩

/-- New ops are behind all that were there. -/
theorem not_mem_chain (hu : u.idx < g.ops.size) : u ∉ e.chain := fun hmem => by
  have := h.fresh u hmem
  omega

theorem sublist (b : BlockId) : (g.block b).ops.Sublist (g'.block b).ops := by
  obtain ⟨c, -, pre, post, hops, hops', hblock⟩ := h.placed
  by_cases hb : b = c
  · subst hb
    rw [hops, hops']
    exact (List.sublist_append_left pre e.chain).append (List.Sublist.refl _)
  · rw [hblock b hb]

end Rewritten
end Graph
end Disguise
