import Disguise.Equivalence
import Disguise.Proofs.Choices
import Disguise.Proofs.Limits
import Disguise.Proofs.Relabeling

/-!
Checks of pairs of functions. A check runs the first function of each pair on random arguments and
counts the calls that return; it finds nothing to complain about as long as the second function
returns the same values, and a function that does so without a limit can only run out of steps.
-/
namespace Disguise
open Execution

def Outcome.isReturned : Outcome → Bool
  | .returned _ => true
  | _ => false

variable [FloatUnit]

namespace Graph
variable {g g' : Graph} {f f' : FuncId} {args : List UInt64}

section
variable (wf : g.WellFormed f) (ht : g.TargetsListed f)
  (hd : (g.func f).isDeclaration = false) (hargs : args.length = (g.func f).params.length)
include wf ht hd hargs

/-- A run with a limit ends with a value or with a failure. -/
theorem run_cases {limit : Int} (hpos : 0 < limit) :
    (∃ v, g.run f args limit = .returned v) ∨ ∃ e, g.run f args limit = .failed e := by
  by_cases hstep : g.run f args limit = .failed .stepLimit
  · exact .inr ⟨_, hstep⟩
  · obtain ⟨hrun, hend⟩ := run_eq_of_ne_stepLimit wf ht hd hargs hpos hstep
    obtain ⟨entry, env, hp, hstart, -, -, hfree, -⟩ := exists_entry wf hd hargs
    rw [hrun]
    rw [hfree] at hend ⊢
    rcases exists_walk wf ht hp (g.blocks.size + 1) hstart with ⟨_, _, -, -, hdiv⟩ |
      ⟨_, _, _, -, -, -, hout⟩
    · exact absurd hdiv hend
    · generalize runBlocks g (g.blocks.size + 1) entry env none = out at hout
      cases hout with
      | fail h => exact .inr ⟨_, rfl⟩
      | ret h => exact .inl ⟨_, rfl⟩

/-- What is returned within a limit is returned without one. -/
theorem returned_of_limit {limit : Int} (hpos : 0 < limit) {v : UInt64}
    (h : g.run f args limit = .returned v) : g.run f args 0 = .returned v := by
  rw [← (run_eq_of_ne_stepLimit wf ht hd hargs hpos (by simp [h])).1, h]

/-- What is returned without a limit is returned within one, or there are more ops than steps. -/
theorem returned_or_stepLimit {limit : Int} (hpos : 0 < limit) {v : UInt64}
    (h : g.run f args 0 = .returned v) : g.run f args limit = .returned v ∨
      g.run f args limit = .failed .stepLimit ∧ limit < g.numOps f := by
  by_cases hstep : g.run f args limit = .failed .stepLimit
  · refine .inr ⟨hstep, ?_⟩
    by_contra hle
    have hrun := run_eq_of_numOps_le wf ht hd hargs hpos (Int.not_lt.1 hle) (by simp [h])
    rw [hstep, h] at hrun
    cases hrun
  · left
    rw [(run_eq_of_ne_stepLimit wf ht hd hargs hpos hstep).1, h]

/-- Relabeled functions return the same without a limit, too. -/
theorem returned_of_carries {ρ : Relabeling} (h : ρ.Carries g g' f f') (wf' : g'.WellFormed f')
    (ht' : g'.TargetsListed f') (v : UInt64) :
    g'.run f' args 0 = .returned v ↔ g.run f args 0 = .returned v := by
  have hd' : (g'.func f').isDeclaration = false := by rw [h.isDeclaration, hd]
  have hargs' : args.length = (g'.func f').params.length := by
    rw [h.params, List.length_map, hargs]
  -- a limit that both functions keep to
  have hpos : (0 : Int) < g.numOps f + 1 := by omega
  have hsame := h.run wf ht args hpos
  constructor
  · intro hv
    have hrun := run_eq_of_numOps_le wf' ht' hd' hargs' hpos (by rw [h.numOps]; omega)
      (by simp [hv])
    exact returned_of_limit wf ht hd hargs hpos (by rw [← hsame, hrun, hv])
  · intro hv
    have hrun := run_eq_of_numOps_le wf ht hd hargs hpos (by omega) (by simp [hv])
    exact returned_of_limit wf' ht' hd' hargs' hpos (by rw [hsame, hrun, hv])

end
end Graph

namespace Equivalence

/-- The calls that a check makes: for each function with a body, as many as there are runs. -/
def calls (g : Graph) (runs : Nat) (funcs : List FuncId) : Choice (List (FuncId × List UInt64)) :=
  ((funcs.filter fun f => !(g.func f).isDeclaration).flatMap (List.replicate runs)).mapM fun f => do
    pure (f, ← arguments g f)

/-- The number of calls that return a value. -/
def returning (g : Graph) (calls : List (FuncId × List UInt64)) : Nat :=
  calls.countP fun c => (g.eval c.1 c.2).isReturned

/-- The functions `k` and `f` of `g'` are as function `f` of `g`: the first one behaves like it, the
second one returns what it returns, unless it has too many ops. -/
structure Faithful (g g' : Graph) (f k : FuncId) : Prop where
  isDeclaration : (g'.func k).isDeclaration = (g.func f).isDeclaration
  name : (g'.func k).name = (g.func f).name
  arguments : arguments g' k = arguments g f
  draws : Always (Equivalence.arguments g f) fun args => args.length = (g.func f).params.length
  first : ∀ args, g'.eval k args = g.eval f args
  second : (g.func f).isDeclaration = false → ∀ args, args.length = (g.func f).params.length →
    (∃ e, g.eval f args = .failed e) ∨ ∃ v, g.eval f args = .returned v ∧
      (g'.eval f args = .returned v ∨
        g'.eval f args = .failed .stepLimit ∧ defaultLimit < g'.numOps f)

/-- How a check that was begun with count `n` ends: it counts the calls that return, or it stops at
a function with too many ops. -/
def Ends (g g' : Graph) (funcs : List FuncId) (n : Nat) (cs : List (FuncId × List UInt64))
    (r₂ : Rand) (done : Except Violation Check × Rand) : Prop :=
  done = (.ok { agreed := n + returning g cs }, r₂) ∨
    ∃ f ∈ funcs, defaultLimit < g'.numOps f ∧ ∃ n' args r', done =
      (.ok { agreed := n', discrepancy := some (.failed (g.func f).name args .stepLimit) }, r')

variable {g g' : Graph} {f k : FuncId}

/-- One call. -/
theorem Faithful.checkOn (h : Faithful g g' f k) (hd : (g.func f).isDeclaration = false)
    {args : List UInt64} (hargs : args.length = (g.func f).params.length) (n : Nat) :
    checkOn g' k f args { agreed := n } = .ok { agreed := n + returning g [(f, args)] } ∨
      defaultLimit < g'.numOps f ∧ checkOn g' k f args { agreed := n } = .ok
        { agreed := n, discrepancy := some (.failed (g.func f).name args .stepLimit) } := by
  have hcount : ∀ out, g.eval f args = out →
      returning g [(f, args)] = if out.isReturned then 1 else 0 := by
    rintro out rfl
    simp [returning, List.countP_cons]
  rcases h.second hd args hargs with ⟨e, he⟩ | ⟨v, hv, hv' | ⟨hstep, hlt⟩⟩
  · left
    simp [Equivalence.checkOn, h.first, he, result, hcount _ he, Outcome.isReturned]
  · left
    simp [Equivalence.checkOn, h.first, hv, hv', result, hcount _ hv, Outcome.isReturned]
  · right
    refine ⟨hlt, ?_⟩
    simp [Equivalence.checkOn, h.first, hv, hstep, result, h.name]

theorem returning_append (g : Graph) (cs cs' : List (FuncId × List UInt64)) :
    returning g (cs ++ cs') = returning g cs + returning g cs' := List.countP_append

/-- All runs of one pair. -/
theorem Faithful.checkPair (h : Faithful g g' f k) (hd : (g.func f).isDeclaration = false)
    (runs n : Nat) (r : Rand) : ∃ cs r₂,
      Choice.run ((List.replicate runs f).mapM fun f => do
        pure (f, ← Equivalence.arguments g f)) r = (.ok cs, r₂) ∧
      Ends g g' [f] n cs r₂ ((Equivalence.checkPair g' k f runs { agreed := n }).run r) := by
  induction runs generalizing n r with
  | zero => exact ⟨[], r, rfl, .inl rfl⟩
  | succ runs ih =>
    obtain ⟨args, r₁, hdraw, hlen⟩ := h.draws r
    have hcalls : ∀ cs r₂, Choice.run ((List.replicate runs f).mapM fun f => do
        pure (f, ← Equivalence.arguments g f)) r₁ = (.ok cs, r₂) →
        Choice.run ((List.replicate (runs + 1) f).mapM fun f => do
          pure (f, ← Equivalence.arguments g f)) r = (.ok ((f, args) :: cs), r₂) := by
      intro cs r₂ hrest
      simp only [List.replicate_succ, List.mapM_cons, Choice.run_bind, hdraw, Choice.run_pure,
        hrest]
    have hstep : ∀ c, Equivalence.checkOn g' k f args { agreed := n } = .ok c →
        (Equivalence.checkPair g' k f (runs + 1) { agreed := n }).run r =
          Choice.run (if c.discrepancy.isSome then pure c
            else Equivalence.checkPair g' k f runs c) r₁ := by
      intro c hc
      rw [Equivalence.checkPair, Choice.run_bind, h.arguments, hdraw]
      dsimp only
      rw [Choice.run_bind, Choice.run_lift, hc]
    rcases h.checkOn hd hlen n with hok | ⟨hlt, hstop⟩
    · obtain ⟨cs, r₂, hrest, hend⟩ := ih (n + returning g [(f, args)]) r₁
      refine ⟨_, r₂, hcalls cs r₂ hrest, ?_⟩
      have hcount := returning_append g [(f, args)] cs
      rw [List.singleton_append] at hcount
      rw [hstep _ hok, Ends, hcount, ← Nat.add_assoc]
      exact hend
    · obtain ⟨cs, r₂, hrest, -⟩ := ih n r₁
      refine ⟨_, r₂, hcalls cs r₂ hrest, .inr ⟨f, by simp, hlt, n, args, r₁, ?_⟩⟩
      rw [hstep _ hstop]
      rfl

/-- All pairs of functions. -/
theorem checkFuncs_ends {fs ks : List FuncId} (h : List.Forall₂ (Faithful g g') fs ks)
    (runs n : Nat) (r : Rand) : ∃ cs r₂, (calls g runs fs).run r = (.ok cs, r₂) ∧
      Ends g g' fs n cs r₂ ((checkFuncs g' runs ks fs { agreed := n }).run r) := by
  induction h generalizing n r with
  | nil => exact ⟨[], r, rfl, .inl rfl⟩
  | @cons f k fs ks hf _ ih =>
    unfold checkFuncs
    cases hd : (g.func f).isDeclaration with
    | true =>
      obtain ⟨cs, r₂, hcalls, hend⟩ := ih n r
      refine ⟨cs, r₂, ?_, ?_⟩
      · simpa [calls, hd] using hcalls
      · rw [hf.isDeclaration, hd, if_pos rfl, List.tail_cons]
        rcases hend with hend | ⟨f', hmem, hrest⟩
        · exact .inl hend
        · exact .inr ⟨f', by simp [hmem], hrest⟩
    | false =>
      obtain ⟨cs₁, r₁, hfirst, hend₁⟩ := hf.checkPair hd runs n r
      obtain ⟨cs₂, r₂, hlater, hend₂⟩ := ih (n + returning g cs₁) r₁
      refine ⟨cs₁ ++ cs₂, r₂, ?_, ?_⟩
      · simp only [calls, List.filter_cons, hd, Bool.not_false, if_true, List.flatMap_cons,
          List.mapM_append, Choice.run_bind, hfirst, Choice.run_pure] at hlater ⊢
        rw [hlater]
      · rw [hf.isDeclaration, hd, if_neg (by simp)]
        dsimp only
        rw [Choice.run_bind]
        rcases hend₁ with hend₁ | ⟨f', hmem, hlt, n', args, r', hend₁⟩
        · rw [hend₁]
          dsimp only [Option.isSome_none]
          rw [if_neg (by simp)]
          rcases hend₂ with hend₂ | ⟨f', hmem, hrest⟩
          · left
            rw [hend₂, returning_append, Nat.add_assoc]
          · exact .inr ⟨f', by simp [hmem], hrest⟩
        · rw [List.mem_singleton] at hmem
          subst hmem
          refine .inr ⟨f', by simp, hlt, n', args, r', ?_⟩
          rw [hend₁]
          dsimp only [Option.isSome_some]
          rw [if_pos rfl, Choice.run_pure]

end Equivalence
end Disguise
