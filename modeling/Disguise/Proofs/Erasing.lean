import Disguise.Proofs.Statistics

/-!
Erasing what has been rewritten. An op that is not read hands that on to the end of its chain, all
other new ops are read and no old op loses or gains its last reader; so a pass that erases the ops
it rewrote leaves as many results without a user as there were.
-/
namespace Disguise
open Engine

section
variable {α : Type} {l : List α} {a : α}

theorem countP_eq_erase [DecidableEq α] (ha : a ∈ l) (p : α → Bool) :
    l.countP p = (l.erase a).countP p + if p a then 1 else 0 := by
  rw [(List.perm_cons_erase ha).countP_eq p, List.countP_cons]

end

namespace Graph
variable {g g' x : Graph} {f : FuncId} {expand : Bool} {e : Rewrite} {es : List Rewrite}
  {gone : List OpId} {d u : OpId}

/-- No op of function `f` reads the result of `d`, those in `gone` apart. -/
def UnreadBut (g : Graph) (f : FuncId) (gone : List OpId) (d : OpId) : Prop :=
  ∀ u ∈ g.opsOf f, u ∉ gone → some (.result d) ∉ (g.op u).args

/-- An op whose result comes to nothing once the ops in `gone` are left out. -/
structure Idle (g : Graph) (f : FuncId) (gone : List OpId) (d : OpId) : Prop where
  stays : d ∉ gone
  value : (g.op d).code.isTerminator = false
  unread : g.UnreadBut f gone d

open Classical in
/-- The number of such ops. -/
noncomputable def numIdle (g : Graph) (f : FuncId) (gone : List OpId) : Nat :=
  (g.opsOf f).countP fun d => g.Idle f gone d

/-- The number of ops of a function that have a result but no user on record. -/
def numUnused (g : Graph) (f : FuncId) : Nat :=
  (g.opsOf f).countP fun o => !(g.op o).code.isTerminator && (g.op o).uses.size = 0

namespace Rewritten
variable (h : Rewritten expand f g e g') (wf : g.WellFormed f)
include h wf

theorem not_mem_new (hu : u ∈ g.opsOf f) : u ∉ e.chain := h.not_mem_chain (wf.lt_size hu)

theorem op_ne_last : e.op ≠ e.last := fun heq =>
  h.not_mem_new wf h.op_mem (heq ▸ e.last_mem)

/-- The op and its chain, side by side. -/
theorem perm : (g'.opsOf f).Perm (g.opsOf f ++ e.chain) := by
  refine (List.perm_ext_iff_of_nodup h.wellFormed.opsOf_nodup ?_).2 fun u => ?_
  · refine List.nodup_append.2 ⟨wf.opsOf_nodup, h.nodup, ?_⟩
    rintro u hu v hv rfl
    exact h.not_mem_new wf hu hv
  · rw [h.mem_opsOf, List.mem_append]

/-- What was there does not read the chain. -/
theorem last_not_mem_args (hu : u ∈ g.opsOf f) : some (.result e.last) ∉ (g.op u).args := by
  intro hmem
  obtain ⟨v, bits, heq, -, hok⟩ := wf.exists_operandOk hu hmem
  cases heq
  exact h.not_mem_new wf hok.1 e.last_mem

/-- An op, or the end of the chain in its place, is read as it was: the chain reads what the op
read. -/
theorem unreadBut_heir (hop : e.op ∉ gone) (hold : ∀ u ∈ gone, u ∈ g.opsOf f) (hd : d ∈ g.opsOf f) :
    g'.UnreadBut f (gone ++ [e.op]) (e.heir d) ↔ g.UnreadBut f gone d := by
  have hdl : d ≠ e.last := fun heq => h.not_mem_new wf hd (heq ▸ e.last_mem)
  have hturned : ∀ u ∈ g.opsOf f, ∀ a ∈ (g.op u).args,
      e.turned a = some (.result (e.heir d)) ↔ a = some (.result d) := fun u hu a ha =>
    e.turned_eq_heir (fun heq => h.last_not_mem_args wf hu (heq ▸ ha)) hdl
  constructor
  · intro hun u hu hgone hread
    by_cases huo : u = e.op
    · subst huo
      obtain ⟨n, hn, hmem⟩ := h.operands _ hread
      rw [(hturned _ hu _ hread).2 rfl] at hmem
      refine hun n (h.mem_opsOf.2 (.inr hn)) (fun hgone' => ?_) hmem
      rcases List.mem_append.1 hgone' with hgone' | hgone'
      · exact h.not_mem_new wf (hold n hgone') hn
      · rw [List.mem_singleton.1 hgone'] at hn
        exact h.not_mem_new wf h.op_mem hn
    · refine hun u (h.mem_opsOf.2 (.inl hu)) (by simp [hgone, huo]) ?_
      rw [h.slots u hu]
      exact List.mem_map.2 ⟨_, hread, (hturned u hu _ hread).2 rfl⟩
  · intro hun u hu hgone hread
    obtain ⟨hgone, huo⟩ : u ∉ gone ∧ u ≠ e.op := by simpa using hgone
    rcases h.mem_opsOf.1 hu with hu | hu
    · rw [h.slots u hu] at hread
      obtain ⟨a, ha, heq⟩ := List.mem_map.1 hread
      rw [(hturned u hu a ha).1 heq] at ha
      exact hun u hu hgone ha
    · rcases h.reads u hu _ hread with hinner | hread
      · -- neither the end of the chain nor an old op is an inner one
        unfold Rewrite.heir at hinner
        split at hinner
        · have hn := h.nodup
          rw [Rewrite.chain, List.nodup_append] at hn
          exact hn.2.2 _ hinner _ (List.mem_singleton_self _) rfl
        · exact h.not_mem_new wf hd (e.mem_chain.2 (.inl hinner))
      · obtain ⟨a, ha, heq⟩ := List.mem_map.1 hread
        rw [(hturned _ h.op_mem a ha).1 heq] at ha
        exact hun _ h.op_mem hop ha

omit wf in
theorem value_new (hn : d ∈ e.chain) : (g'.op d).code.isTerminator = false := by
  rcases (h.made d hn).2 with hcode | ⟨-, hcode⟩
  · exact Opcode.not_isTerminator_of_isBinary (Rule.isBinary_of_replaceable hcode)
  · simp only [List.mem_cons, List.not_mem_nil, or_false] at hcode
    rcases hcode with hcode | hcode <;> rw [hcode] <;> rfl

/-- An op is idle after the rewrite as its heir is. -/
theorem idle_heir (hop : e.op ∉ gone) (hold : ∀ u ∈ gone, u ∈ g.opsOf f) (hd : d ∈ g.opsOf f) :
    g'.Idle f (gone ++ [e.op]) (e.heir d) ↔ g.Idle f gone d := by
  have hun := h.unreadBut_heir wf hop hold hd
  by_cases hdo : d = e.op
  · subst hdo
    have hvalue := h.value_new e.last_mem
    have hlast : e.last ∉ gone ++ [e.op] := by
      intro hmem
      rcases List.mem_append.1 hmem with hmem | hmem
      · exact h.not_mem_new wf (hold _ hmem) e.last_mem
      · exact h.op_ne_last wf (List.mem_singleton.1 hmem).symm
    have hop' : (g.op e.op).code.isTerminator = false :=
      Opcode.not_isTerminator_of_isBinary (Rule.isBinary_of_replaceable h.code)
    rw [Rewrite.heir, if_pos rfl] at hun ⊢
    exact ⟨fun hl => ⟨hop, hop', hun.1 hl.unread⟩, fun hl => ⟨hlast, hvalue, hun.2 hl.unread⟩⟩
  · have hcode := (h.same d (h.not_mem_new wf hd)).1
    rw [Rewrite.heir, if_neg hdo] at hun ⊢
    constructor
    · exact fun hl => ⟨fun hmem => hl.stays (by simp [hmem]), by rw [← hcode, hl.value],
        hun.1 hl.unread⟩
    · exact fun hl => ⟨by simp [hl.stays, hdo], by rw [hcode, hl.value], hun.2 hl.unread⟩

theorem not_idle_inner (hold : ∀ u ∈ gone, u ∈ g.opsOf f) (hn : d ∈ e.inner) :
    ¬ g'.Idle f (gone ++ [e.op]) d := by
  intro hl
  obtain ⟨n, hn, hread⟩ := h.inner d hn
  refine hl.unread n (h.mem_opsOf.2 (.inr hn)) (fun hmem => ?_) hread
  rcases List.mem_append.1 hmem with hmem | hmem
  · exact h.not_mem_new wf (hold n hmem) hn
  · rw [List.mem_singleton.1 hmem] at hn
    exact h.not_mem_new wf h.op_mem hn

/-- With the op left out, as many results come to nothing as did before. -/
theorem numIdle_eq (hop : e.op ∉ gone) (hold : ∀ u ∈ gone, u ∈ g.opsOf f) :
    g'.numIdle f (gone ++ [e.op]) = g.numIdle f gone := by
  classical
  have hself : ¬ g'.Idle f (gone ++ [e.op]) e.op := fun hl => hl.stays (by simp)
  have hrest : ((g.opsOf f).erase e.op).countP (fun d => g'.Idle f (gone ++ [e.op]) d) =
      ((g.opsOf f).erase e.op).countP fun d => g.Idle f gone d := by
    refine List.countP_congr fun d hd => ?_
    obtain ⟨hne, hd⟩ := wf.opsOf_nodup.mem_erase_iff.1 hd
    have := h.idle_heir wf hop hold hd
    rw [Rewrite.heir, if_neg hne] at this
    simpa using this
  have hinner : e.inner.countP (fun d => g'.Idle f (gone ++ [e.op]) d) = 0 :=
    List.countP_eq_zero.2 fun d hd => by simpa using h.not_idle_inner wf hold hd
  have hlast := h.idle_heir wf hop hold h.op_mem
  rw [Rewrite.heir, if_pos rfl] at hlast
  unfold numIdle
  rw [(h.perm wf).countP_eq, List.countP_append, countP_eq_erase h.op_mem, hrest,
    countP_eq_erase (l := g.opsOf f) h.op_mem, Rewrite.chain, List.countP_append, hinner]
  simp [hself, hlast]

end Rewritten

namespace Rewriting
variable (h : Rewriting expand f g es x) (wf : g.WellFormed f)
include h wf

theorem wellFormed : x.WellFormed f := by
  cases h with
  | nil => exact wf
  | snoc _ now => exact now.wellFormed

omit wf in
theorem func : x.func f = g.func f := by
  induction h with
  | nil => rfl
  | snoc _ now ih => exact now.func.trans ih

omit wf in
theorem sublist (b : BlockId) : (g.block b).ops.Sublist (x.block b).ops := by
  induction h with
  | nil => exact .refl _
  | snoc _ now ih => exact ih.trans (now.sublist b)

omit wf in
theorem op_mem : ∀ o ∈ es.map Rewrite.op, o ∈ x.opsOf f := by
  induction h with
  | nil => simp
  | snoc before now ih =>
    intro o ho
    rw [List.map_append] at ho
    rcases List.mem_append.1 ho with ho | ho
    · exact now.mem_opsOf.2 (.inl (ih o ho))
    · rw [List.map_singleton, List.mem_singleton] at ho
      exact ho ▸ now.mem_opsOf.2 (.inl now.op_mem)

theorem numIdle_eq (hn : (es.map Rewrite.op).Nodup) :
    x.numIdle f (es.map Rewrite.op) = g.numIdle f [] := by
  induction h with
  | nil => rfl
  | snoc before now ih =>
    rw [List.map_append, List.map_singleton] at hn ⊢
    obtain ⟨hn, -, hdisjoint⟩ := List.nodup_append.1 hn
    rw [now.numIdle_eq (before.wellFormed wf) (fun hmem => hdisjoint _ hmem _ (by simp) rfl)
      before.op_mem, ih hn]

end Rewriting

/-- A result without a user on record is one that no op reads. -/
theorem WellFormed.uses_size_eq_zero_iff (wf : g.WellFormed f) (hd : d ∈ g.opsOf f) :
    (g.op d).uses.size = 0 ↔ g.UnreadBut f [] d := by
  rw [UseSet.size_eq_zero_iff]
  constructor
  · intro hnone u hu _ hread
    have hrec : g.recorded (.result d) u = 0 := hnone u
    rw [wf.uses (.result d) hd u, if_pos hu] at hrec
    exact List.count_eq_zero.1 hrec hread
  · intro hun u
    refine (wf.uses (.result d) hd u).trans ?_
    split
    · exact List.count_eq_zero.2 (hun u ‹_› (by simp))
    · rfl

theorem WellFormed.numUnused_eq (wf : g.WellFormed f) : g.numUnused f = g.numIdle f [] := by
  classical
  refine List.countP_congr fun d hd => ?_
  simp only [Bool.and_eq_true, Bool.not_eq_true', decide_eq_true_eq, wf.uses_size_eq_zero_iff hd]
  exact ⟨fun h => ⟨by simp, h.1, h.2⟩, fun h => ⟨h.value, h.unread⟩⟩

namespace Swept
variable (h : Swept g g' f gone) (wf : g.WellFormed f)
include h

theorem unreadBut : g'.UnreadBut f [] d ↔ g.UnreadBut f gone d := by
  constructor
  · intro hun u hu hgone
    rw [← h.args_eq]
    exact hun u (h.mem_opsOf.2 ⟨hu, hgone⟩) (by simp)
  · intro hun u hu _
    obtain ⟨hu, hgone⟩ := h.mem_opsOf.1 hu
    rw [h.args_eq]
    exact hun u hu hgone

theorem numIdle_eq : g'.numIdle f [] = g.numIdle f gone := by
  classical
  unfold numIdle
  rw [h.opsOf_eq, List.countP_filter]
  refine List.countP_congr fun d _ => ?_
  simp only [Bool.and_eq_true, decide_eq_true_eq]
  have hcode := h.code_eq d
  constructor
  · exact fun ⟨hl, hgone⟩ => ⟨hgone, by rw [← hcode, hl.value], h.unreadBut.1 hl.unread⟩
  · exact fun hl => ⟨⟨by simp, by rw [hcode, hl.value], h.unreadBut.2 hl.unread⟩, hl.stays⟩

include wf

/-- No use of an op that was taken out is on record. -/
theorem uses_size_eq_zero (hd : d ∈ gone) : (g'.op d).uses.size = 0 := by
  refine UseSet.size_eq_zero_iff.2 fun u => ?_
  have hrec := h.records (.result d) trivial u
  rw [wf.uses (.result d) (h.mem d hd) u] at hrec
  change g'.recorded (.result d) u = 0
  by_cases hgone : u ∈ gone
  · rw [if_pos (h.mem u hgone), if_pos hgone] at hrec
    omega
  · have hzero := h.unused d hd u
    split at hrec
    · rw [hzero ‹_› hgone] at hrec
      omega
    · omega

end Swept
end Graph

namespace Engine
open Disguise.Graph
variable {opts : Options} {g g' : Graph} {f : FuncId} {es : List Rewrite}

/-- What is left of the ops that a pass has rewritten, and what is left of the others. -/
structure Cleared (f : FuncId) (g : Graph) (es : List Rewrite) (g' : Graph) : Prop where
  gone : ∀ e ∈ es, (g'.op e.op).uses.size = 0 ∧ (g'.op e.op).block = none ∧
    ∀ b ∈ (g'.func f).blocks, e.op ∉ (g'.block b).ops
  stay : ∀ b ∈ (g.func f).blocks, ∀ o ∈ (g.block b).ops, o ∉ es.map Rewrite.op →
    o ∈ (g'.block b).ops ∧ (g'.op o).block = some b
  unused : g'.numUnused f = g.numUnused f
  used : (∀ o ∈ g.opsOf f, (g.op o).code.isTerminator = false → (g.op o).uses.size ≠ 0) →
    ∀ o ∈ g'.opsOf f, (g'.op o).code.isTerminator = false → (g'.op o).uses.size ≠ 0

theorem numUnused_eq_zero {g : Graph} : g.numUnused f = 0 ↔
    ∀ o ∈ g.opsOf f, (g.op o).code.isTerminator = false → (g.op o).uses.size ≠ 0 := by
  simp [numUnused, List.countP_eq_zero]

theorem Performed.cleared (h : Performed opts f g es g') (wf : g.WellFormed f)
    (herase : opts.eraseDead = true) : Cleared f g es g' := by
  obtain ⟨x, hes, hswept⟩ := h.made
  rw [if_pos herase] at hswept
  have hwf := hes.wellFormed wf
  have hn : (es.map Rewrite.op).Nodup := h.due ▸ wf.opsOf_nodup.filter _
  have hunused : g'.numUnused f = g.numUnused f := by
    rw [(hswept.wellFormed hwf).numUnused_eq, wf.numUnused_eq, hswept.numIdle_eq,
      hes.numIdle_eq wf hn]
  refine ⟨fun e he => ⟨?_, ?_, ?_⟩, ?_, hunused, fun hused => ?_⟩
  · exact hswept.uses_size_eq_zero hwf (List.mem_map_of_mem he)
  · change (g'.op e.op).bare.block = none
    rw [hswept.op, if_pos (List.mem_map_of_mem he)]
  · intro b hb hmem
    rw [hswept.func] at hb
    exact ((hswept.mem_ops hb).1 hmem).2 (List.mem_map_of_mem he)
  · intro b hb o ho hnot
    have hbx : b ∈ (x.func f).blocks := by rwa [hes.func]
    have ho' := (hswept.mem_ops hbx).2 ⟨(hes.sublist b).subset ho, hnot⟩
    exact ⟨ho', (hswept.wellFormed hwf).opOwner b (by rwa [hswept.func]) o ho'⟩
  · rw [← numUnused_eq_zero, hunused]
    exact numUnused_eq_zero.2 hused

/-- The passes of a call, one after the other, with what each of them did. -/
inductive Rounds {α : Type} (opts : Options) (f : FuncId) (Did : Graph → α → Graph → Prop) :
    Graph → Rand → List α → Graph → Rand → Prop
  | nil (g : Graph) (r : Rand) : Rounds opts f Did g r [] g r
  | cons {g g₁ g' : Graph} {r r₁ r' : Rand} {t : Tally} {a : α} {as : List α}
      (now : (pass opts g f).run r = (.ok (g₁, t), r₁)) (did : Did g a g₁)
      (later : Rounds opts f Did g₁ r₁ as g' r') : Rounds opts f Did g r (a :: as) g' r'

/-- Every pass of a call on a well-formed function leaves it well-formed and does its rewrites. -/
theorem Passing.exists_rounds {r r' : Rand} {ts : List Tally} (h : Passing opts f g r ts g' r')
    (wf : g.WellFormed f) : ∃ ess, ess.length = ts.length ∧
      Rounds opts f (fun g es g' => g.WellFormed f ∧ Performed opts f g es g') g r ess g' r' := by
  obtain ⟨_⟩ : Nonempty FloatUnit := inferInstance
  induction h with
  | nil g r => exact ⟨[], rfl, .nil g r⟩
  | @cons g g₁ g' r r₁ r' t ts now _ _ ih =>
    obtain ⟨_, _, hrun, htrans, -, es, hdid⟩ := always_pass opts wf r
    rw [now] at hrun
    cases hrun
    obtain ⟨ess, hlen, hlater⟩ := ih htrans.wellFormed
    exact ⟨es :: ess, by rw [List.length_cons, List.length_cons, hlen], .cons now ⟨wf, hdid⟩ hlater⟩

theorem Rounds.mono {α : Type} {Did Did' : Graph → α → Graph → Prop} {r r' : Rand} {as : List α}
    (h : Rounds opts f Did g r as g' r') (himp : ∀ x a y, Did x a y → Did' x a y) :
    Rounds opts f Did' g r as g' r' := by
  induction h with
  | nil g r => exact .nil g r
  | cons now did _ ih => exact .cons now (himp _ _ _ did) ih

/-- A call makes its passes, and each does its rewrites. -/
theorem exists_rounds_of_work (e : Engine) (wf : g.WellFormed f) (n : Nat) (r : Rand) :
    ∃ ess e' g' stats r', (e.work g f n).run r = (.ok (e', g', stats), r') ∧ ess.length = n ∧
      Rounds e.options f (fun g es g' => g.WellFormed f ∧ Performed e.options f g es g')
        g r ess g' r' := by
  obtain ⟨ts, g', r', hlen, hpassing, hrun⟩ := exists_passing_of_work e wf n r
  obtain ⟨ess, hlen', hrounds⟩ := hpassing.exists_rounds wf
  exact ⟨ess, _, g', _, r', hrun, hlen'.trans hlen, hrounds⟩

/-- Erasing takes out what was rewritten and nothing else. On an accepted function, whatever the
rules, the number of passes and the choices, every pass that erases dead ops rewrites the ops whose
code has a rule as it finds them; at its end none of them has a user or a block, every other op is
still in its block, and as many results have no user as had none at its start, so none if there were
none. -/
theorem erases_what_is_rewritten {e : Engine} (hv : g.validateFunc f = .ok ())
    (herase : e.options.eraseDead = true) (n : Nat) (r : Rand) :
    ∃ ess e' g' stats r', (e.work g f n).run r = (.ok (e', g', stats), r') ∧ ess.length = n ∧
      Rounds e.options f (fun g es g' => Performed e.options f g es g' ∧ Cleared f g es g')
        g r ess g' r' := by
  obtain ⟨ess, e', g', stats, r', hrun, hlen, hrounds⟩ :=
    exists_rounds_of_work e (validateFunc_eq_ok.1 hv) n r
  refine ⟨ess, e', g', stats, r', hrun, hlen, hrounds.mono ?_⟩
  rintro x es y ⟨wf, hdid⟩
  exact ⟨hdid, hdid.cleared wf herase⟩

end Engine

theorem sampleGraph_erases_what_is_rewritten :
    let e : Engine := { options := { eraseDead := true, expandUnary := true } }
    sampleGraph.validateFunc ⟨0⟩ = .ok () ∧ e.options.eraseDead = true ∧
    ∀ n r, ∃ ess e' g' stats r', (e.work sampleGraph ⟨0⟩ n).run r = (.ok (e', g', stats), r') ∧
      ess.length = n ∧ Engine.Rounds e.options ⟨0⟩ (fun g es g' =>
        Engine.Performed e.options ⟨0⟩ g es g' ∧ Engine.Cleared ⟨0⟩ g es g')
        sampleGraph r ess g' r' :=
  ⟨sampleGraph_validateFunc, rfl, fun n r =>
    Engine.erases_what_is_rewritten sampleGraph_validateFunc rfl n r⟩

end Disguise
