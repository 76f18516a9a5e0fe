import Disguise.Proofs.Erasing

/-!
The skeleton of a function. Whatever passes are made, the ops that were there keep their blocks,
their order, their codes, widths and branch targets; ops are added in chains and taken out only when
they have been rewritten, and an operand slot changes only from the result of a rewritten op to that
of the end of its chain.
-/
namespace Disguise
open Disguise.Graph Engine Relation

namespace Graph
variable {g g' x y : Graph} {f : FuncId} {opts : Options} {e : Rewrite} {es es' : List Rewrite}
  {gone gone' : List OpId} {u : OpId}

/-- A slot that held the result of a rewritten op holds that of the end of its chain. -/
def Handed (es : List Rewrite) (v v' : Option Operand) : Prop :=
  ∃ e ∈ es, v = some (.result e.op) ∧ v' = some (.result e.last)

/-- What is left of function `f` of `g` in `g'` when the ops of `es` have been rewritten and those
in `gone` have been taken out. -/
structure Skeleton (opts : Options) (f : FuncId) (g : Graph) (es : List Rewrite)
    (gone : List OpId) (g' : Graph) : Prop where
  func : g'.func f = g.func f
  size : g.ops.size ≤ g'.ops.size
  order : ∀ b ∈ (g.func f).blocks, (g'.block b).ops.filter (· ∈ g.opsOf f) =
    (g.block b).ops.filter (· ∉ gone)
  same : ∀ u : OpId, u.idx < g.ops.size → (g'.op u).code = (g.op u).code ∧
    (g'.op u).bits = (g.op u).bits ∧ (g'.op u).targets = (g.op u).targets
  slots : ∀ u : OpId, u.idx < g.ops.size →
    List.Forall₂ (ReflTransGen (Handed es)) (g.op u).args (g'.op u).args
  members : ∀ u, u ∈ g'.opsOf f ↔ (u ∈ g.opsOf f ∨ ∃ e ∈ es, u ∈ e.chain) ∧ u ∉ gone
  left : ∀ o ∈ gone, o.idx < g'.ops.size
  rewrote : ∀ e ∈ es, e.op.idx < g'.ops.size ∧ opts.rules (g'.op e.op).code ≠ []
  chains : ∀ e ∈ es, ∀ n ∈ e.chain, g.ops.size ≤ n.idx ∧ n.idx < g'.ops.size ∧
    (g'.op n).bits = (g'.op e.op).bits ∧ ((g'.op n).code ∈ Rule.replaceable ∨
      opts.expandUnary = false ∧ (g'.op n).code ∈ [Opcode.not, .neg])

theorem forall₂_trans {α : Type} {R : α → α → Prop} (ht : ∀ a b c, R a b → R b c → R a c)
    {l m n : List α} (h : List.Forall₂ R l m) (h' : List.Forall₂ R m n) : List.Forall₂ R l n := by
  induction h generalizing n with
  | nil => exact h'
  | cons hab _ ih =>
    cases h' with
    | cons hbc h' => exact .cons (ht _ _ _ hab hbc) (ih h')

theorem Handed.mono (h : ∀ e ∈ es, e ∈ es') {v v' : Option Operand} (hv : Handed es v v') :
    Handed es' v v' := by
  obtain ⟨e, he, hv⟩ := hv
  exact ⟨e, h e he, hv⟩

namespace Skeleton

theorem refl (opts : Options) (f : FuncId) (g : Graph) : Skeleton opts f g [] [] g where
  func := rfl
  size := Nat.le_refl _
  order b hb := by
    rw [List.filter_eq_self.2, List.filter_eq_self.2]
    · simp
    · exact fun u hu => decide_eq_true (mem_opsOf.2 ⟨b, hb, hu⟩)
  same _ _ := ⟨rfl, rfl, rfl⟩
  slots _ _ := List.forall₂_refl _
  members := by simp
  left := by simp
  rewrote := by simp
  chains := by simp

section
variable (wf : g.WellFormed f) (h : Skeleton opts f g es gone x)
  (h' : Skeleton opts f x es' gone' y)
include h h'

theorem members_trans (u : OpId) : u ∈ y.opsOf f ↔
    (u ∈ g.opsOf f ∨ ∃ e ∈ es ++ es', u ∈ e.chain) ∧ u ∉ gone ++ gone' := by
  rw [h'.members, h.members]
  simp only [List.mem_append, not_or]
  constructor
  · rintro ⟨⟨hu | ⟨e, he, hn⟩, hgone⟩ | ⟨e, he, hn⟩, hgone'⟩
    · exact ⟨.inl hu, hgone, hgone'⟩
    · exact ⟨.inr ⟨e, .inl he, hn⟩, hgone, hgone'⟩
    · refine ⟨.inr ⟨e, .inr he, hn⟩, fun hgone => ?_, hgone'⟩
      have := h.left u hgone
      have := (h'.chains e he u hn).1
      omega
  · rintro ⟨hu | ⟨e, he | he, hn⟩, hgone, hgone'⟩
    · exact ⟨.inl ⟨.inl hu, hgone⟩, hgone'⟩
    · exact ⟨.inl ⟨.inr ⟨e, he, hn⟩, hgone⟩, hgone'⟩
    · exact ⟨.inr ⟨e, he, hn⟩, hgone'⟩

include wf

theorem order_trans {b : BlockId} (hb : b ∈ (g.func f).blocks) :
    (y.block b).ops.filter (· ∈ g.opsOf f) = (g.block b).ops.filter (· ∉ gone ++ gone') := by
  have hb' : b ∈ (x.func f).blocks := by rwa [h.func]
  have hby : b ∈ (y.func f).blocks := by rwa [h'.func]
  -- what was there at first is in no later chain
  have hold : ∀ u ∈ g.opsOf f, u ∈ y.opsOf f → u ∈ x.opsOf f := by
    intro u hu hmem
    rcases ((h'.members u).1 hmem).1 with hmem | ⟨e, he, hn⟩
    · exact hmem
    · have := (h'.chains e he u hn).1
      have := wf.lt_size hu
      have := h.size
      omega
  have hsplit : (y.block b).ops.filter (· ∈ g.opsOf f) =
      ((y.block b).ops.filter (· ∈ x.opsOf f)).filter (· ∈ g.opsOf f) := by
    rw [List.filter_filter]
    refine List.filter_congr fun u hu => ?_
    have := hold u
    have hmem := mem_opsOf.2 ⟨b, hby, hu⟩
    by_cases hug : u ∈ g.opsOf f <;> simp [hug, this, hmem]
  have hcomm : ((x.block b).ops.filter (· ∉ gone')).filter (· ∈ g.opsOf f) =
      ((x.block b).ops.filter (· ∈ g.opsOf f)).filter (· ∉ gone') := by
    rw [List.filter_filter, List.filter_filter]
    exact List.filter_congr fun u _ => Bool.and_comm _ _
  rw [hsplit, h'.order b hb', hcomm, h.order b hb, List.filter_filter]
  refine List.filter_congr fun u _ => ?_
  simp [Bool.and_comm]

theorem trans : Skeleton opts f g (es ++ es') (gone ++ gone') y where
  func := h'.func.trans h.func
  size := Nat.le_trans h.size h'.size
  order _ hb := order_trans wf h h' hb
  same u hu := by
    obtain ⟨hcode, hbits, htargets⟩ := h.same u hu
    obtain ⟨hcode', hbits', htargets'⟩ := h'.same u (Nat.lt_of_lt_of_le hu h.size)
    exact ⟨hcode'.trans hcode, hbits'.trans hbits, htargets'.trans htargets⟩
  slots u hu := by
    have hslots := h.slots u hu
    have hslots' := h'.slots u (Nat.lt_of_lt_of_le hu h.size)
    refine forall₂_trans (fun _ _ _ => .trans) (hslots.imp fun _ _ hr => ?_)
      (hslots'.imp fun _ _ hr => ?_)
    · exact ReflTransGen.mono (fun _ _ => Handed.mono fun e he => List.mem_append_left _ he) _ _ hr
    · exact ReflTransGen.mono (fun _ _ => Handed.mono fun e he => List.mem_append_right _ he) _ _ hr
  members := members_trans h h'
  left o ho := by
    rcases List.mem_append.1 ho with ho | ho
    · exact Nat.lt_of_lt_of_le (h.left o ho) h'.size
    · exact h'.left o ho
  rewrote e he := by
    rcases List.mem_append.1 he with he | he
    · obtain ⟨hlt, hrules⟩ := h.rewrote e he
      exact ⟨Nat.lt_of_lt_of_le hlt h'.size, by rwa [(h'.same e.op hlt).1]⟩
    · exact h'.rewrote e he
  chains e he n hn := by
    rcases List.mem_append.1 he with he | he
    · obtain ⟨hle, hlt, hbits, hcode⟩ := h.chains e he n hn
      obtain ⟨hcode', hbits', -⟩ := h'.same n hlt
      refine ⟨hle, Nat.lt_of_lt_of_le hlt h'.size, ?_, by rwa [hcode']⟩
      rw [hbits', hbits, (h'.same e.op (h.rewrote e he).1).2.1]
    · obtain ⟨hle, hrest⟩ := h'.chains e he n hn
      exact ⟨Nat.le_trans h.size hle, hrest⟩

end

end Skeleton

/-- One rewrite. -/
theorem Rewritten.skeleton (h : Rewritten opts.expandUnary f g e g') (wf : g.WellFormed f)
    (hrules : opts.rules (g.op e.op).code ≠ []) : Skeleton opts f g [e] [] g' := by
  have hop : e.op.idx < g.ops.size := wf.lt_size h.op_mem
  obtain ⟨hcode, hbits, -⟩ := h.same e.op (h.not_mem_chain hop)
  constructor
  · exact h.func
  · exact h.size
  · intro b hb
    obtain ⟨c, -, pre, post, hops, hops', hblock⟩ := h.placed
    have hall : (g.block b).ops.filter (· ∈ g.opsOf f) = (g.block b).ops :=
      List.filter_eq_self.2 fun u hu => decide_eq_true (Graph.mem_opsOf.2 ⟨b, hb, hu⟩)
    have hnone : (g.block b).ops.filter (· ∉ ([] : List OpId)) = (g.block b).ops := by simp
    rw [hnone]
    by_cases hbc : b = c
    · subst hbc
      have hnew : e.chain.filter (· ∈ g.opsOf f) = [] :=
        List.filter_eq_nil_iff.2 fun n hn => by simpa using fun hmem => h.not_mem_new wf hmem hn
      rw [hops', List.append_assoc, List.filter_append, List.filter_append, hnew, List.nil_append,
        ← List.filter_append, ← hops, hall]
    · rw [hblock b hbc, hall]
  · intro u hu
    obtain ⟨hcode, hbits, htargets, -⟩ := h.same u (h.not_mem_chain hu)
    exact ⟨hcode, hbits, htargets⟩
  · intro u hu
    by_cases hmem : u ∈ g.opsOf f
    · rw [h.slots u hmem, List.forall₂_map_right_iff]
      refine List.forall₂_same.2 fun a _ => ?_
      by_cases ha : a = some (.result e.op)
      · refine .single ⟨e, by simp, ha, ?_⟩
        rw [Rewrite.turned, turn, if_pos ha]
      · rw [Rewrite.turned, turn, if_neg ha]
    · rw [h.others u hmem (h.not_mem_chain hu)]
      exact List.forall₂_refl _
  · intro u
    simp [h.mem_opsOf]
  · simp
  · intro d hd
    rw [List.mem_singleton.1 hd, hcode]
    exact ⟨Nat.lt_of_lt_of_le hop h.size, hrules⟩
  · intro d hd n hn
    rw [List.mem_singleton.1 hd] at hn ⊢
    obtain ⟨hwidth, hnew⟩ := h.made n hn
    exact ⟨h.fresh n hn, h.wellFormed.lt_size (h.mem_opsOf.2 (.inr hn)), hwidth.trans hbits.symm,
      hnew⟩

/-- Taking ops out. -/
theorem Swept.skeleton (h : Swept g g' f gone) (wf : g.WellFormed f) :
    Skeleton opts f g [] gone g' := by
  constructor
  · exact h.func f
  · exact h.size
  · intro b hb
    rw [h.ops b hb, List.filter_filter]
    refine List.filter_congr fun u hu => ?_
    simp [Graph.mem_opsOf.2 ⟨b, hb, hu⟩]
  · exact fun u _ => ⟨h.code_eq u, h.bits_eq u, h.targets_eq u⟩
  · intro u _
    rw [h.args_eq u]
    exact List.forall₂_refl _
  · intro u
    simp [h.mem_opsOf]
  · exact fun o ho => Nat.lt_of_lt_of_le (wf.lt_size (h.mem o ho)) h.size
  · simp
  · simp

/-- A sequence of rewrites. -/
theorem Rewriting.skeleton (h : Rewriting opts.expandUnary f g es x) (wf : g.WellFormed f)
    (hrules : ∀ o ∈ es.map Rewrite.op, o ∈ g.opsOf f ∧ opts.rules (g.op o).code ≠ []) :
    Skeleton opts f g es [] x := by
  induction h with
  | nil => exact .refl opts f g
  | @snoc es x y e before now ih =>
    have hskel := ih fun o ho => hrules o (by simp_all)
    obtain ⟨hmem, hrule⟩ := hrules e.op (by simp)
    refine hskel.trans wf (now.skeleton (before.wellFormed wf) ?_)
    rwa [(hskel.same _ (wf.lt_size hmem)).1]

end Graph

namespace Engine
variable {opts : Options} {g g' : Graph} {f : FuncId} {es : List Rewrite}

/-- What passes that rewrote the ops of `es` have taken out. -/
def erased (opts : Options) (es : List Rewrite) : List OpId :=
  if opts.eraseDead then es.map Rewrite.op else []

theorem erased_append (opts : Options) (es es' : List Rewrite) :
    erased opts (es ++ es') = erased opts es ++ erased opts es' := by
  unfold erased
  split <;> simp

theorem Performed.skeleton (h : Performed opts f g es g') (wf : g.WellFormed f) :
    Skeleton opts f g es (erased opts es) g' := by
  obtain ⟨x, hes, hlast⟩ := h.made
  have hskel := hes.skeleton wf fun o ho => by
    rw [h.due] at ho
    exact ⟨List.mem_of_mem_filter ho, by simpa using (List.mem_filter.1 ho).2⟩
  unfold erased
  split at hlast
  · rw [if_pos ‹_›]
    simpa using hskel.trans wf (hlast.skeleton (hes.wellFormed wf))
  · rw [if_neg ‹_›, hlast]
    exact hskel

/-- The passes of a call together. -/
theorem Rounds.skeleton {ess : List (List Rewrite)} {r r' : Rand}
    (h : Rounds opts f (fun g es g' => g.WellFormed f ∧ Performed opts f g es g') g r ess g' r') :
    Skeleton opts f g ess.flatten (erased opts ess.flatten) g' := by
  induction h with
  | nil g r =>
    have hnone : erased opts [] = [] := by simp [erased]
    rw [List.flatten_nil, hnone]
    exact .refl opts f g
  | cons now did later ih =>
    rw [List.flatten_cons, erased_append]
    exact (did.2.skeleton did.1).trans did.1 ih

/-- Codes without a rule in the catalog. -/
theorem rules_eq_nil {c : Opcode} (hc : c ∉ Rule.replaceable) : opts.rules c = [] := by
  by_contra hne
  exact hc (mem_replaceable_of_rules hne)

/-- Rewriting keeps the skeleton of an accepted function. Whatever the options, the number of passes
and the choices, each pass is a sequence of rewrites, in which a slot changes only from the result
of the op to that of the end of its chain. All in all every block has, in the same order and with
the same codes, widths and branch targets, the ops it had, apart from those that were rewritten if
dead ops are erased; an op whose code has no enabled rule stays, be it an old or a new one; and what
is added are chains of replaceable codes, `not` and `neg`, without the last two if they are to be
written out, in the width of the op they are for. -/
theorem keeps_skeleton (hv : g.validateFunc f = .ok ()) (e : Engine) (n : Nat) (r : Rand) :
    ∃ ess e' g' stats r', (e.work g f n).run r = (.ok (e', g', stats), r') ∧ ess.length = n ∧
      Rounds e.options f (Performed e.options f) g r ess g' r' ∧
      Skeleton e.options f g ess.flatten (erased e.options ess.flatten) g' ∧
      (∀ u, u ∈ g.opsOf f ∨ (∃ d ∈ ess.flatten, u ∈ d.chain) →
        (g'.op u).code ∉ Rule.replaceable ∨ e.options.rules (g'.op u).code = [] →
        u ∈ g'.opsOf f) := by
  obtain ⟨ess, e', g', stats, r', hrun, hlen, hrounds⟩ :=
    exists_rounds_of_work e (validateFunc_eq_ok.1 hv) n r
  have hskel := hrounds.skeleton
  refine ⟨ess, e', g', stats, r', hrun, hlen, hrounds.mono fun _ _ _ h => h.2, hskel, ?_⟩
  intro u hu hcode
  have hrules : e.options.rules (g'.op u).code = [] := hcode.elim rules_eq_nil id
  refine (hskel.members u).2 ⟨hu, fun hgone => ?_⟩
  unfold erased at hgone
  split at hgone
  · obtain ⟨d, hd, rfl⟩ := List.mem_map.1 hgone
    exact (hskel.rewrote d hd).2 hrules
  · cases hgone

end Engine

theorem sampleGraph_keeps_skeleton :
    sampleGraph.validateFunc ⟨0⟩ = .ok () ∧ ∀ (e : Engine) n r, ∃ ess e' g' stats r',
      (e.work sampleGraph ⟨0⟩ n).run r = (.ok (e', g', stats), r') ∧ ess.length = n ∧
      Rounds e.options ⟨0⟩ (Performed e.options ⟨0⟩) sampleGraph r ess g' r' ∧
      Skeleton e.options ⟨0⟩ sampleGraph ess.flatten (erased e.options ess.flatten) g' := by
  refine ⟨sampleGraph_validateFunc, fun e n r => ?_⟩
  obtain ⟨ess, e', g', stats, r', hrun, hlen, hrounds, hskel, -⟩ :=
    keeps_skeleton sampleGraph_validateFunc e n r
  exact ⟨ess, e', g', stats, r', hrun, hlen, hrounds, hskel⟩

end Disguise
