import Disguise.Proofs.Preservation

/-!
Runs with a limit. A limit of `n` steps cuts a run off before its op number `n + 1` and changes
nothing else. A run that ends enters no block twice, so it meets no more ops than the function has,
and one that is cut off later than that never ends.
-/
namespace Disguise
namespace Execution

/-- A pass with the budget that is left over from `n` steps. -/
def Pass.spent (n : Nat) : Pass → Pass
  | .stop out => .stop out
  | .leave env next _ => .leave env next (some n)

variable [FloatUnit]

/-- The ops that a pass through some ops meets, with the one that stops it. -/
def met (g : Graph) (block : Bytes) : List OpId → Env → List OpId
  | [], _ => []
  | o :: rest, env =>
    o :: match effect g block env o with
      | .stop _ => []
      | .define v => met g block rest (env.setOp o v)
      | .branch _ => met g block rest env

/-- The ops met in the first `n` blocks that a run without a limit enters. -/
def executed (g : Graph) : (n : Nat) → BlockId → Env → List OpId
  | 0, _, _ => []
  | n + 1, b, env =>
    let bl := g.block b
    met g bl.name bl.ops env ++
      match runOps g bl.name bl.ops env none none with
      | .leave env (some next) _ => executed g n next env
      | _ => []

section
variable {g : Graph} {block : Bytes}

theorem met_sublist (ops : List OpId) (env : Env) : (met g block ops env).Sublist ops := by
  induction ops generalizing env with
  | nil => exact List.Sublist.slnil
  | cons o rest ih =>
    unfold met
    refine List.Sublist.cons_cons o ?_
    split
    · exact List.nil_sublist rest
    · exact ih _
    · exact ih _

/-- A pass that gets through meets all ops. -/
theorem met_of_leave {ops : List OpId} {env env' : Env} {next next' : Option BlockId}
    {budget budget' : Budget}
    (h : runOps g block ops env next budget = .leave env' next' budget') :
    met g block ops env = ops := by
  induction ops generalizing env next budget with
  | nil => rfl
  | cons o rest ih =>
    unfold runOps at h
    unfold met
    cases hs : spend budget with
    | none =>
      rw [hs] at h
      cases h
    | some left =>
      rw [hs] at h
      cases heff : effect g block env o with
      | stop out =>
        rw [heff] at h
        cases h
      | define v =>
        rw [heff] at h
        exact congrArg (o :: ·) (ih h)
      | branch b =>
        rw [heff] at h
        exact congrArg (o :: ·) (ih h)

/-- A pass without a limit leaves none. -/
theorem budget_of_unlimited {ops : List OpId} {env env' : Env} {next next' : Option BlockId}
    {left : Budget} (h : runOps g block ops env next none = .leave env' next' left) :
    left = none := by
  induction ops generalizing env next with
  | nil =>
    cases h
    rfl
  | cons o rest ih =>
    unfold runOps at h
    simp only [spend] at h
    split at h
    · cases h
    · exact ih h
    · exact ih h

/-- A pass with a limit: as without one, if it does not meet more ops. -/
theorem runOps_some (ops : List OpId) (env : Env) (next : Option BlockId) (n : Nat) :
    runOps g block ops env next (some n) =
      if (met g block ops env).length ≤ n then
        (runOps g block ops env next none).spent (n - (met g block ops env).length)
      else .stop (.failed .stepLimit) := by
  induction ops generalizing env next n with
  | nil => simp [met, runOps, Pass.spent]
  | cons o rest ih =>
    cases n with
    | zero => simp [met, runOps, spend]
    | succ n =>
      unfold met runOps
      simp only [spend, List.length_cons, Nat.add_le_add_iff_right, Nat.add_sub_add_right]
      cases effect g block env o with
      | stop out => simp [Pass.spent]
      | define v => exact ih _ _ _
      | branch b => exact ih _ _ _

/-- A run with a limit: as without one, if it does not execute more ops. -/
theorem runBlocks_some (fuel : Nat) (b : BlockId) (env : Env) (n : Nat) :
    runBlocks g fuel b env (some n) =
      if (executed g fuel b env).length ≤ n then runBlocks g fuel b env none
      else .failed .stepLimit := by
  induction fuel generalizing b env n with
  | zero => simp [executed, runBlocks]
  | succ fuel ih =>
    unfold executed runBlocks
    simp only [runOps_some, List.length_append]
    generalize (met g (g.block b).name (g.block b).ops env).length = k
    by_cases hk : k ≤ n
    · rw [if_pos hk]
      cases hpass : runOps g (g.block b).name (g.block b).ops env none none with
      | stop out => simp [Pass.spent, hk]
      | leave env' next left =>
        obtain rfl := budget_of_unlimited hpass
        cases next with
        | none => simp [Pass.spent, hk]
        | some next =>
          simp only [Pass.spent, ih]
          exact if_congr (by omega) rfl rfl
    · rw [if_neg hk, if_neg (by omega)]

/-- More blocks do not take away what was executed. -/
theorem executed_le {n n' : Nat} (h : n ≤ n') (b : BlockId) (env : Env) :
    (executed g n b env).length ≤ (executed g n' b env).length := by
  induction n generalizing n' b env with
  | zero => simp [executed]
  | succ n ih =>
    obtain ⟨k, rfl⟩ : ∃ k, n' = k + 1 := ⟨n' - 1, by omega⟩
    unfold executed
    simp only [List.length_append]
    split
    · exact Nat.add_le_add_left (ih (by omega) _ _) _
    · simp

/-- A run that ends executes nothing when it may go on. -/
theorem executed_add {fuel : Nat} {b : BlockId} {env : Env}
    (h : runBlocks g fuel b env none ≠ .diverged) (k : Nat) :
    executed g (fuel + k) b env = executed g fuel b env := by
  induction fuel generalizing b env with
  | zero => exact absurd rfl h
  | succ fuel ih =>
    rw [Nat.add_right_comm]
    unfold executed
    unfold runBlocks at h
    dsimp only at h ⊢
    split
    · rename_i hpass
      obtain rfl := budget_of_unlimited hpass
      rw [hpass] at h
      rw [ih h]
    · rfl

/-- The ops executed in some blocks are ops of these blocks. -/
theorem executed_sublist (n : Nat) (b : BlockId) (env : Env) :
    (executed g n b env).Sublist ((trail g n b env).flatMap fun c => (g.block c).ops) := by
  induction n generalizing b env with
  | zero => exact List.Sublist.slnil
  | succ n ih =>
    unfold executed trail
    dsimp only
    cases runOps g (g.block b).name (g.block b).ops env none none with
    | stop out => simpa using met_sublist _ _
    | leave env' next left =>
      cases next with
      | none => simpa using met_sublist _ _
      | some next =>
        dsimp only
        rw [List.flatMap_cons]
        exact (met_sublist _ _).append (ih _ _)

end

section
variable {g : Graph} {f : FuncId} {start : Env} (wf : g.WellFormed f) (ht : g.TargetsListed f)
  (hp : g.ParamsFit f start)
include wf ht hp

/-- A run that is cut off has executed an op in every block it left. -/
theorem le_executed_of_diverged {fuel : Nat} {b : BlockId} {env : Env} {way : List Nat} {i : Nat}
    (h : Sound g f start way i [] (.enter g b env none))
    (hdiv : runBlocks g fuel b env none = .diverged) : fuel ≤ (executed g fuel b env).length := by
  induction fuel generalizing b env way i with
  | zero => omega
  | succ fuel ih =>
    obtain ⟨a, -, htold⟩ := exists_fate wf ht hp h
    unfold runBlocks at hdiv
    unfold executed
    dsimp only at hdiv ⊢
    cases a with
    | define z => exact htold.elim
    | fail c =>
      obtain ⟨-, k, code, hpass⟩ := htold
      simp [hpass] at hdiv
    | ret v =>
      obtain ⟨-, hpass⟩ := htold
      simp [hpass] at hdiv
    | goto t =>
      obtain ⟨env', _, _, hpass, hs⟩ := htold
      rw [hpass] at hdiv
      obtain ⟨body, last, hops, -, -⟩ := wf.ended b h.block_mem
      have hlater := ih hs hdiv
      have hpos : 0 < (g.block b).ops.length := by simp [hops]
      simp only [hpass, met_of_leave hpass, List.length_append]
      omega

/-- The blocks entered are those that a walk leaves, and the one in which the run ends. -/
theorem exists_walk_of_trail (n : Nat) {b : BlockId} {env : Env} {way : List Nat} {i : Nat}
    (h : Sound g f start way i [] (.enter g b env none)) :
    ∃ left c, Walk g start left b c ∧ (trail g n b env = left ∨ trail g n b env = left ++ [c] ∧
      ∃ a, Fate g start (g.block c).ops a ∧ ∀ t, a ≠ .goto t) := by
  induction n generalizing b env way i with
  | zero => exact ⟨[], b, .here, .inl rfl⟩
  | succ n ih =>
    obtain ⟨a, hfate, htold⟩ := exists_fate wf ht hp h
    unfold trail
    cases a with
    | define z => exact htold.elim
    | fail c =>
      obtain ⟨-, k, code, hpass⟩ := htold
      exact ⟨[], b, .here, .inr ⟨by simp [hpass], _, hfate, by simp⟩⟩
    | ret v =>
      obtain ⟨-, hpass⟩ := htold
      exact ⟨[], b, .here, .inr ⟨by simp [hpass], _, hfate, by simp⟩⟩
    | goto t =>
      obtain ⟨env', _, _, hpass, hs⟩ := htold
      obtain ⟨left, c, hw, htrail⟩ := ih hs
      refine ⟨b :: left, c, .step hfate hw, ?_⟩
      rw [hpass]
      rcases htrail with htrail | ⟨htrail, hlast⟩
      · exact .inl (congrArg (b :: ·) htrail)
      · exact .inr ⟨congrArg (b :: ·) htrail, hlast⟩

/-- A run that ends enters no block twice. -/
theorem trail_nodup {fuel : Nat} {b : BlockId} {env : Env} {way : List Nat} {i : Nat}
    (h : Sound g f start way i [] (.enter g b env none))
    (hend : runBlocks g fuel b env none ≠ .diverged) (n : Nat) : (trail g n b env).Nodup := by
  rcases exists_walk wf ht hp fuel h with ⟨_, _, -, -, hdiv⟩ | ⟨_, d, a, hw, -, hfate, hout⟩
  · exact absurd hdiv hend
  · obtain ⟨left, c, hleft, htrail⟩ := exists_walk_of_trail wf ht hp n h
    have hnodup := hw.nodup_of_final hfate hout.final hleft
    rcases htrail with htrail | ⟨htrail, a', hlast, hfinal⟩
    · rw [htrail]
      exact hnodup
    · -- the last block goes nowhere, so the run has not left it before
      have hnew : c ∉ left := by
        intro hmem
        obtain ⟨l₁, l₂, rfl⟩ := List.append_of_mem hmem
        obtain ⟨e, -, h₂⟩ := hleft.split
        obtain rfl := h₂.head_eq
        cases h₂ with
        | step first _ => exact hfinal _ (hlast.unique first)
      rw [htrail]
      refine List.nodup_append.2 ⟨hnodup, List.nodup_singleton c, ?_⟩
      intro x hx y hy heq
      rw [heq, List.mem_singleton.1 hy] at hx
      exact hnew hx

/-- A run enters blocks of its function only. -/
theorem trail_subset (n : Nat) {b : BlockId} {env : Env} {way : List Nat} {i : Nat}
    (h : Sound g f start way i [] (.enter g b env none)) :
    trail g n b env ⊆ (g.func f).blocks := by
  induction n generalizing b env way i with
  | zero => exact List.nil_subset _
  | succ n ih =>
    have hb : b ∈ (g.func f).blocks := h.block_mem
    obtain ⟨a, -, htold⟩ := exists_fate wf ht hp h
    unfold trail
    cases a with
    | define z => exact htold.elim
    | fail c =>
      obtain ⟨-, k, code, hpass⟩ := htold
      simpa [hpass] using hb
    | ret v =>
      obtain ⟨-, hpass⟩ := htold
      simpa [hpass] using hb
    | goto t =>
      obtain ⟨env', _, _, hpass, hs⟩ := htold
      rw [hpass]
      exact List.cons_subset.2 ⟨hb, ih hs⟩

/-- A run that ends executes no more ops than the function has. -/
theorem executed_le_numOps {fuel : Nat} {b : BlockId} {env : Env} {way : List Nat} {i : Nat}
    (h : Sound g f start way i [] (.enter g b env none))
    (hend : runBlocks g fuel b env none ≠ .diverged) (n : Nat) :
    (executed g n b env).length ≤ g.numOps f := by
  have hsub : (trail g n b env).Subperm (g.func f).blocks :=
    (trail_nodup wf ht hp h hend n).subperm (trail_subset wf ht hp n h)
  obtain ⟨blocks, hperm, hblocks⟩ := hsub
  calc (executed g n b env).length
      ≤ ((trail g n b env).flatMap fun c => (g.block c).ops).length :=
        (executed_sublist n b env).length_le
    _ = (blocks.flatMap fun c => (g.block c).ops).length := (hperm.flatMap_right _).length_eq.symm
    _ ≤ g.numOps f := (hblocks.flatMap _).length_le

/-- A run without a limit is not cut off. -/
theorem runBlocks_ne_stepLimit {fuel : Nat} {b : BlockId} {env : Env} {way : List Nat} {i : Nat}
    (h : Sound g f start way i [] (.enter g b env none)) :
    runBlocks g fuel b env none ≠ .failed .stepLimit := by
  rcases exists_walk wf ht hp fuel h with ⟨_, _, -, -, hdiv⟩ | ⟨_, _, _, -, -, -, hout⟩
  · rw [hdiv]
    simp
  · intro hstep
    rw [hstep] at hout
    cases hout

/-- A run that ends is the same with any two amounts of fuel, if one of them is more than the
number of blocks. -/
theorem runBlocks_eq_of_ends {fuel : Nat} {b : BlockId} {env : Env} {way : List Nat} {i : Nat}
    (h : Sound g f start way i [] (.enter g b env none))
    (hend : runBlocks g fuel b env none ≠ .diverged) :
    runBlocks g fuel b env none = runBlocks g (g.blocks.size + 1) b env none := by
  rcases Nat.le_total fuel (g.blocks.size + 1) with hle | hle
  · obtain ⟨k, hk⟩ := Nat.exists_eq_add_of_le hle
    rw [hk]
    exact (runBlocks_add hend k).symm
  · exact runBlocks_eq_of_long wf ht hp h (Nat.lt_succ_self _) hle

/-- Whether more than `n` ops are executed shows in the first `n + 1` blocks. -/
theorem lt_executed_iff {b : BlockId} {env : Env} {way : List Nat} {i : Nat}
    (h : Sound g f start way i [] (.enter g b env none)) (n : Nat) :
    (∃ k, n < (executed g k b env).length) ↔ n < (executed g (n + 1) b env).length := by
  refine ⟨?_, fun hlt => ⟨n + 1, hlt⟩⟩
  rintro ⟨k, hk⟩
  by_cases hdiv : runBlocks g (n + 1) b env none = .diverged
  · exact le_executed_of_diverged wf ht hp h hdiv
  · rcases Nat.le_total k (n + 1) with hle | hle
    · exact Nat.lt_of_lt_of_le hk (executed_le hle b env)
    · obtain ⟨d, rfl⟩ := Nat.exists_eq_add_of_le hle
      rwa [executed_add hdiv] at hk

end
end Execution

open Execution

namespace Graph

variable [FloatUnit]

/-- The ops executed in the first `n` blocks that a run of a function without a limit enters, with
the op that ends the run. -/
def executes (g : Graph) (f : FuncId) (args : List UInt64) (n : Nat) : List OpId :=
  match (g.func f).blocks, bindParams g (g.func f).params args {} with
  | entry :: _, .ok env => executed g n entry env
  | _, _ => []

section
variable {g : Graph} {f : FuncId} {args : List UInt64} (wf : g.WellFormed f)
  (ht : g.TargetsListed f) (hd : (g.func f).isDeclaration = false)
  (hargs : args.length = (g.func f).params.length)
include wf ht hd hargs

omit ht in
/-- Runs on given arguments, told by the blocks from the entry on. -/
theorem exists_entry : ∃ entry env, g.ParamsFit f env ∧
    Sound g f env [] 0 [] (.enter g entry env none) ∧
    (∀ n, g.visits f args n = trail g n entry env) ∧
    (∀ n, g.executes f args n = executed g n entry env) ∧
    g.run f args 0 = runBlocks g (g.blocks.size + 1) entry env none ∧
    ∀ n : Nat, 0 < n → g.run f args n =
      if (executed g (n + 1) entry env).length ≤ n then runBlocks g (n + 1) entry env none
      else .failed .stepLimit := by
  obtain ⟨entry, env, hentry, hbind, hops, hp, -⟩ := exists_start wf hd hargs
  obtain ⟨rest, hblocks⟩ := List.head?_eq_some_iff.1 hentry
  refine ⟨entry, env, hp, sound_enter wf hentry hops none, fun n => ?_, fun n => ?_,
    run_of_entry hblocks hargs hbind (Int.le_refl 0), fun n hn => ?_⟩
  · simp only [visits, hblocks, hbind]
  · simp only [executes, hblocks, hbind]
  · have hbudget : budgetOf n = some n := by simp [budgetOf, hn]
    rw [← runBlocks_some]
    simp [run, hblocks, hargs, hbind, hbudget, fuelOf]

/-- A limit ends a run just if the run would execute more ops. -/
theorem run_eq_stepLimit_iff {limit : Int} (hpos : 0 < limit) :
    g.run f args limit = .failed .stepLimit ↔ ∃ n, limit < (g.executes f args n).length := by
  obtain ⟨entry, env, hp, hstart, -, hexec, -, hlimited⟩ := exists_entry wf hd hargs
  obtain ⟨n, rfl⟩ := Int.eq_ofNat_of_zero_le (show 0 ≤ limit by omega)
  simp only [hexec, Int.ofNat_lt, lt_executed_iff wf ht hp hstart n, hlimited n (by omega)]
  split
  · rename_i hle
    exact iff_of_false (runBlocks_ne_stepLimit wf ht hp hstart) (Nat.not_lt.2 hle)
  · rename_i hlt
    exact iff_of_true rfl (Nat.lt_of_not_le hlt)

/-- A limit that does not end a run changes nothing, and the run ends by itself. -/
theorem run_eq_of_ne_stepLimit {limit : Int} (hpos : 0 < limit)
    (hne : g.run f args limit ≠ .failed .stepLimit) :
    g.run f args limit = g.run f args 0 ∧ g.run f args 0 ≠ .diverged := by
  obtain ⟨entry, env, hp, hstart, -, -, hfree, hlimited⟩ := exists_entry wf hd hargs
  obtain ⟨n, rfl⟩ := Int.eq_ofNat_of_zero_le (show 0 ≤ limit by omega)
  have hrun := hlimited n (by omega)
  split at hrun
  · rename_i hle
    have hend : runBlocks g (n + 1) entry env none ≠ .diverged := by
      intro hdiv
      have := le_executed_of_diverged wf ht hp hstart hdiv
      omega
    have hsame := runBlocks_eq_of_ends wf ht hp hstart hend
    exact ⟨by rw [hrun, hfree, hsame], by rwa [hfree, ← hsame]⟩
  · exact absurd hrun hne

/-- A run that ends enters no block twice and executes no more ops than the function has. -/
theorem bounded_of_ends (hend : g.run f args 0 ≠ .diverged) (n : Nat) :
    (g.visits f args n).Nodup ∧ (g.executes f args n).length ≤ g.numOps f := by
  obtain ⟨entry, env, hp, hstart, hvisits, hexec, hfree, -⟩ := exists_entry wf hd hargs
  rw [hfree] at hend
  rw [hvisits, hexec]
  exact ⟨trail_nodup wf ht hp hstart hend n, executed_le_numOps wf ht hp hstart hend n⟩

/-- A run that ends does so within every limit that is not below the number of ops. -/
theorem run_eq_of_numOps_le {limit : Int} (hpos : 0 < limit) (hle : g.numOps f ≤ limit)
    (hend : g.run f args 0 ≠ .diverged) : g.run f args limit = g.run f args 0 := by
  apply (run_eq_of_ne_stepLimit wf ht hd hargs hpos _).1
  rw [ne_eq, run_eq_stepLimit_iff wf ht hd hargs hpos]
  rintro ⟨n, hn⟩
  have := (bounded_of_ends wf ht hd hargs hend n).2
  omega

end

/-- An accepted function stops within its number of ops or never stops. A run that ends enters no
block twice; a limit ends a run exactly if the run would execute more ops, and changes nothing
otherwise; so a run that is cut off by a limit of at least the number of ops goes on forever. -/
theorem run_stops_or_loops {g : Graph} {f : FuncId} {args : List UInt64}
    (hv : g.validateFunc f = .ok ()) (ht : g.TargetsListed f)
    (hd : (g.func f).isDeclaration = false) (hargs : args.length = (g.func f).params.length) :
    (∀ limit : Int, limit ≤ 0 → (g.run f args limit = .diverged ↔ g.RunsForever f args)) ∧
      (¬ g.RunsForever f args → ∀ n, (g.visits f args n).Nodup ∧
        (g.executes f args n).length ≤ g.numOps f) ∧
      (∀ limit : Int, 0 < limit →
        (g.run f args limit = .failed .stepLimit ↔
          ∃ n, limit < (g.executes f args n).length) ∧
        (g.run f args limit ≠ .failed .stepLimit → g.run f args limit = g.run f args 0)) ∧
      ∀ limit : Int, 0 < limit → g.numOps f ≤ limit → g.run f args limit = .failed .stepLimit →
        g.RunsForever f args := by
  have wf := validateFunc_eq_ok.1 hv
  have hforever : ∀ limit ≤ 0, g.run f args limit = .diverged ↔ g.RunsForever f args :=
    fun _ hlimit => run_eq_diverged_iff wf ht hargs hlimit
  have hends : ¬ g.RunsForever f args → g.run f args 0 ≠ .diverged := by
    intro hnot
    rw [ne_eq, hforever 0 (Int.le_refl 0)]
    exact hnot
  refine ⟨hforever, fun hnot => bounded_of_ends wf ht hd hargs (hends hnot), ?_, ?_⟩
  · intro limit hpos
    refine ⟨run_eq_stepLimit_iff wf ht hd hargs hpos, fun hne => ?_⟩
    exact (run_eq_of_ne_stepLimit wf ht hd hargs hpos hne).1
  · intro limit hpos hle hstop
    by_contra hnot
    obtain ⟨n, hn⟩ := (run_eq_stepLimit_iff wf ht hd hargs hpos).1 hstop
    have := (bounded_of_ends wf ht hd hargs (hends hnot) n).2
    omega

end Graph

theorem sampleGraph_run_stops_or_loops :
    (∃ n, (2 : Int) < (sampleGraph.executes ⟨0⟩ [1] n).length) ∧
      ∀ n, (sampleGraph.executes ⟨0⟩ [1] n).length ≤ sampleGraph.numOps ⟨0⟩ := by
  have hargs : ([1] : List UInt64).length = (sampleGraph.func ⟨0⟩).params.length := rfl
  obtain ⟨hforever, hbound, hlimit, -⟩ := Graph.run_stops_or_loops sampleGraph_validateFunc
    sampleGraph_targetsListed rfl hargs
  have hcut : sampleGraph.run ⟨0⟩ [1] 2 = .failed .stepLimit := by decide +kernel
  have hends : sampleGraph.run ⟨0⟩ [1] 0 ≠ .diverged := by decide +kernel
  rw [ne_eq, hforever 0 (Int.le_refl 0)] at hends
  exact ⟨(hlimit 2 (by decide)).1.1 hcut, fun n => (hbound hends n).2⟩

end Disguise
