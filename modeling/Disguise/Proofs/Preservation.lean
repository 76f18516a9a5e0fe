import Disguise.Proofs.Passes

/-!
Transformed functions run as before. Without a limit they enter the same blocks in the same order,
return the same value, fail for the same reason in the same block, and go on forever if they did.
Only the place and code of a failing op may change, as there may be other ops in its block.
-/
namespace Disguise
open Arithmetic
namespace Execution

/-- The first `n` blocks that a run without a limit enters. -/
def trail [FloatUnit] (g : Graph) : (n : Nat) → BlockId → Env → List BlockId
  | 0, _, _ => []
  | n + 1, b, env =>
    match runOps g (g.block b).name (g.block b).ops env none none with
    | .leave env (some next) _ => b :: trail g n next env
    | _ => [b]

/-- Two runs end in the same way, but for the place and code of a failing op. -/
inductive SameEnd : Outcome → Outcome → Prop
  | returned (v : UInt64) : SameEnd (.returned v) (.returned v)
  | fault {block : Bytes} {i i' : Int} {code code' : Opcode} {c : Fault} :
      SameEnd (.failed (.fault block i code c)) (.failed (.fault block i' code' c))
  | diverged : SameEnd .diverged .diverged

variable [FloatUnit]

section
variable {g g' : Graph} {f : FuncId} {start : Env}

/-- Runs of two graphs go side by side if each block has the fate that it had. -/
theorem trail_eq_of_simulates (wf : g.WellFormed f) (ht : g.TargetsListed f)
    (hp : g.ParamsFit f start) (wf' : g'.WellFormed f) (ht' : g'.TargetsListed f)
    (hp' : g'.ParamsFit f start) (hs : Simulates g g' f start)
    (hname : ∀ b, (g'.block b).name = (g.block b).name) (n : Nat) {b : BlockId} {env env' : Env}
    {way way' : List Nat} {i i' : Nat} (h : Sound g f start way i [] (.enter g b env none))
    (h' : Sound g' f start way' i' [] (.enter g' b env' none)) :
    trail g' n b env' = trail g n b env ∧
      SameEnd (runBlocks g n b env none) (runBlocks g' n b env' none) := by
  induction n generalizing b env env' way way' i i' with
  | zero => exact ⟨rfl, .diverged⟩
  | succ n ih =>
    obtain ⟨a, hfate, htold⟩ := exists_fate wf ht hp h
    obtain ⟨a', hfate', htold'⟩ := exists_fate wf' ht' hp' h'
    obtain rfl : a = a' := (hs.fate b h.block_mem a hfate).unique hfate'
    rw [hname] at htold'
    unfold trail runBlocks
    dsimp only
    rw [hname]
    cases a with
    | define z => exact htold.elim
    | fail c =>
      obtain ⟨-, k, code, hpass⟩ := htold
      obtain ⟨-, k', code', hpass'⟩ := htold'
      rw [hpass, hpass']
      exact ⟨rfl, .fault⟩
    | ret v =>
      obtain ⟨-, hpass⟩ := htold
      obtain ⟨-, hpass'⟩ := htold'
      rw [hpass, hpass']
      exact ⟨rfl, .returned v⟩
    | goto t =>
      obtain ⟨env₁, _, _, hpass, hs₁⟩ := htold
      obtain ⟨env₂, _, _, hpass', hs₂⟩ := htold'
      rw [hpass, hpass']
      obtain ⟨htrail, hend⟩ := ih hs₁ hs₂
      exact ⟨by dsimp only; rw [htrail], hend⟩

/-- A run that ends goes no further when it may. -/
theorem runBlocks_add {fuel : Nat} {b : BlockId} {env : Env} {budget : Budget}
    (h : runBlocks g fuel b env budget ≠ .diverged) (k : Nat) :
    runBlocks g (fuel + k) b env budget = runBlocks g fuel b env budget := by
  induction fuel generalizing b env budget with
  | zero => exact absurd rfl h
  | succ fuel ih =>
    rw [Nat.add_right_comm]
    unfold runBlocks at h ⊢
    dsimp only at h ⊢
    split
    · rfl
    · rfl
    · rename_i hpass
      rw [hpass] at h
      exact ih h

variable (wf : g.WellFormed f) (ht : g.TargetsListed f) (hp : g.ParamsFit f start)
include wf ht hp

/-- More fuel than there are blocks makes no difference. -/
theorem runBlocks_eq_of_long {fuel fuel' : Nat} {b : BlockId} {env : Env} {way : List Nat} {i : Nat}
    (h : Sound g f start way i [] (.enter g b env none)) (hfuel : g.blocks.size < fuel)
    (hle : fuel ≤ fuel') : runBlocks g fuel' b env none = runBlocks g fuel b env none := by
  by_cases hdiv : runBlocks g fuel b env none = .diverged
  · rw [hdiv]
    exact diverged_of_long wf ht hp h hfuel hdiv fuel'
  · obtain ⟨k, rfl⟩ := Nat.exists_eq_add_of_le hle
    exact runBlocks_add hdiv k

/-- A run is cut off when it has left as many blocks as it may and enters one more. -/
theorem runBlocks_eq_diverged_iff (n : Nat) {b : BlockId} {env : Env} {way : List Nat} {i : Nat}
    (h : Sound g f start way i [] (.enter g b env none)) :
    runBlocks g n b env none = .diverged ↔ (trail g (n + 1) b env).length = n + 1 := by
  induction n generalizing b env way i with
  | zero =>
    have hone : (trail g 1 b env).length = 1 := by
      unfold trail
      split <;> rfl
    simp [runBlocks, hone]
  | succ n ih =>
    obtain ⟨a, -, htold⟩ := exists_fate wf ht hp h
    unfold trail runBlocks
    dsimp only
    cases a with
    | define z => exact htold.elim
    | fail c =>
      obtain ⟨-, k, code, hpass⟩ := htold
      simp [hpass]
    | ret v =>
      obtain ⟨-, hpass⟩ := htold
      simp [hpass]
    | goto t =>
      obtain ⟨env', _, _, hpass, hs⟩ := htold
      simp only [hpass, ih hs, List.length_cons, Nat.add_right_cancel_iff]

end
end Execution

open Execution

/-- The first `n` blocks that a run of a function without a limit enters. -/
def Graph.visits [FloatUnit] (g : Graph) (f : FuncId) (args : List UInt64) (n : Nat) :
    List BlockId :=
  match (g.func f).blocks, bindParams g (g.func f).params args {} with
  | entry :: _, .ok env => trail g n entry env
  | _, _ => []

/-- A run without a limit enters one block after the other and never ends. -/
def Graph.RunsForever [FloatUnit] (g : Graph) (f : FuncId) (args : List UInt64) : Prop :=
  ∀ n, (g.visits f args n).length = n

/-- A run stops in the block with the given name because of an op that fails. -/
def Outcome.FailsIn (out : Outcome) (block : Bytes) (cause : Fault) : Prop :=
  ∃ index code, out = .failed (.fault block index code cause)

/-- Function `f` does the same in both graphs when it is run without a limit. -/
structure SameRuns [FloatUnit] (g g' : Graph) (f : FuncId) (args : List UInt64) : Prop where
  visits : ∀ n, g'.visits f args n = g.visits f args n
  returns : ∀ limit ≤ 0, ∀ v, g'.run f args limit = .returned v ↔ g.run f args limit = .returned v
  fails : ∀ limit ≤ 0, ∀ block cause,
    (g'.run f args limit).FailsIn block cause ↔ (g.run f args limit).FailsIn block cause
  forever : g'.RunsForever f args ↔ g.RunsForever f args
  diverges : ∀ limit ≤ 0, (g.run f args limit = .diverged ↔ g.RunsForever f args) ∧
    (g'.run f args limit = .diverged ↔ g'.RunsForever f args)

namespace Graph
variable {g g' : Graph} {f : FuncId} {args : List UInt64}

theorem bindParams_congr {ps : List ParamId} {vs : List UInt64} {env : Env}
    (h : ∀ p ∈ ps, (g'.param p).bits = (g.param p).bits) :
    bindParams g' ps vs env = bindParams g ps vs env := by
  induction ps generalizing vs env with
  | nil => cases vs <;> rfl
  | cons p ps ih =>
    cases vs with
    | nil => rfl
    | cons v vs =>
      unfold bindParams
      rw [h p (by simp)]
      congr
      funext x
      exact ih fun q hq => h q (by simp [hq])

variable [FloatUnit]

theorem run_of_entry {entry : BlockId} {rest : List BlockId} {env : Env} {limit : Int}
    (hblocks : (g.func f).blocks = entry :: rest)
    (hargs : args.length = (g.func f).params.length)
    (hbind : bindParams g (g.func f).params args {} = .ok env) (hlimit : limit ≤ 0) :
    g.run f args limit = runBlocks g (g.blocks.size + 1) entry env none := by
  have hbudget : budgetOf limit = none := by simp [budgetOf, Int.not_lt.2 hlimit]
  simp [run, hblocks, hargs, hbind, hbudget, fuelOf]

/-- A run without a limit says that it never ends just when it does not. -/
theorem run_eq_diverged_iff {limit : Int} (wf : g.WellFormed f) (ht : g.TargetsListed f)
    (hargs : args.length = (g.func f).params.length) (hlimit : limit ≤ 0) :
    g.run f args limit = .diverged ↔ g.RunsForever f args := by
  cases hd : (g.func f).isDeclaration with
  | true =>
    have hblocks : (g.func f).blocks = [] := by simpa [Func.isDeclaration] using hd
    have hvisits : ¬ g.RunsForever f args := by
      intro h
      have := h 1
      simp [visits, hblocks] at this
    simp [run, hblocks, hvisits]
  | false =>
    obtain ⟨entry, env, hentry, hbind, hops, hp, -⟩ := exists_start wf hd hargs
    obtain ⟨rest, hblocks⟩ := List.head?_eq_some_iff.1 hentry
    have hstart := sound_enter wf hentry hops none
    have hvisits : ∀ n, g.visits f args n = trail g n entry env := by
      intro n
      simp only [visits, hblocks, hbind]
    rw [run_of_entry hblocks hargs hbind hlimit]
    unfold RunsForever
    constructor
    · intro hdiv n
      rw [hvisits]
      cases n with
      | zero => rfl
      | succ n =>
        rw [← runBlocks_eq_diverged_iff wf ht hp n hstart]
        exact diverged_of_long wf ht hp hstart (by omega) hdiv n
    · intro h
      rw [runBlocks_eq_diverged_iff wf ht hp _ hstart, ← hvisits]
      exact h _

/-- Runs are the same if they pass the same blocks and end alike. -/
theorem sameRuns_of_sameEnd (hvisits : ∀ n, g'.visits f args n = g.visits f args n)
    (hend : ∀ limit ≤ 0, SameEnd (g.run f args limit) (g'.run f args limit) ∨
      g'.run f args limit = g.run f args limit)
    (hdiv : ∀ limit ≤ 0, (g.run f args limit = .diverged ↔ g.RunsForever f args) ∧
      (g'.run f args limit = .diverged ↔ g'.RunsForever f args)) : SameRuns g g' f args := by
  refine ⟨hvisits, ?_, ?_, by simp only [RunsForever, hvisits], hdiv⟩
  · intro limit hlimit v
    rcases hend limit hlimit with hsame | heq
    · generalize g.run f args limit = out at hsame
      generalize g'.run f args limit = out' at hsame
      cases hsame <;> simp
    · rw [heq]
  · intro limit hlimit block cause
    rcases hend limit hlimit with hsame | heq
    · generalize g.run f args limit = out at hsame
      generalize g'.run f args limit = out' at hsame
      cases hsame <;> simp [Outcome.FailsIn]
    · rw [heq]

/-- What is transformed runs as it did. -/
theorem Transformed.sameRuns (h : Transformed g g' f) (wf : g.WellFormed f)
    (ht : g.TargetsListed f) (hargs : args.length = (g.func f).params.length) :
    SameRuns g g' f args := by
  have hfunc := h.frame.func f
  have hbits := (h.frame.heads f).paramBits
  have hargs' : args.length = (g'.func f).params.length := by rw [hfunc]; exact hargs
  suffices hkey : (∀ n, g'.visits f args n = g.visits f args n) ∧ ∀ limit ≤ 0,
      SameEnd (g.run f args limit) (g'.run f args limit) ∨
        g'.run f args limit = g.run f args limit by
    refine sameRuns_of_sameEnd hkey.1 hkey.2 fun limit hlimit => ⟨?_, ?_⟩
    · exact run_eq_diverged_iff wf ht hargs hlimit
    · exact run_eq_diverged_iff h.wellFormed (h.listed ht) hargs' hlimit
  cases hd : (g.func f).isDeclaration with
  | true =>
    have hblocks : (g.func f).blocks = [] := by simpa [Func.isDeclaration] using hd
    refine ⟨fun n => by simp [visits, hfunc, hblocks], fun limit _ => .inr ?_⟩
    simp [run, hfunc, hblocks]
  | false =>
    obtain ⟨entry, env, hentry, hbind, hops, hp, -⟩ := exists_start wf hd hargs
    obtain ⟨rest, hblocks⟩ := List.head?_eq_some_iff.1 hentry
    have hblocks' : (g'.func f).blocks = entry :: rest := by rw [hfunc, hblocks]
    have hbind' : bindParams g' (g'.func f).params args {} = .ok env := by
      rw [hfunc, bindParams_congr hbits, hbind]
    have hp' := hp.frame h.frame
    have hstart := sound_enter wf hentry hops none
    have hstart' := sound_enter h.wellFormed (by rw [hfunc]; exact hentry) hops none
    have hside := fun n => trail_eq_of_simulates wf ht hp h.wellFormed (h.listed ht) hp'
      (h.simulates env hp) h.frame.name n hstart hstart'
    constructor
    · intro n
      simp only [visits, hblocks, hblocks', hbind, hbind']
      exact (hside n).1
    · intro limit hlimit
      left
      -- the tables may differ in size, so both runs are given the fuel of the larger one
      have hsame := (hside (g.blocks.size + g'.blocks.size + 1)).2
      rw [runBlocks_eq_of_long wf ht hp hstart (Nat.lt_succ_self _) (by omega),
        runBlocks_eq_of_long h.wellFormed (h.listed ht) hp' hstart' (Nat.lt_succ_self _)
          (by omega)] at hsame
      rw [run_of_entry hblocks hargs hbind hlimit, run_of_entry hblocks' hargs' hbind' hlimit]
      exact hsame

end Graph

/-- The engine keeps what functions do: whatever its options, the number of passes and the choices
it makes, an accepted function runs afterwards as it did before. -/
theorem Engine.work_sameRuns [FloatUnit] {g : Graph} {f : FuncId} {args : List UInt64} (e : Engine)
    (count : Nat) (hv : g.validateFunc f = .ok ()) (ht : g.TargetsListed f)
    (hargs : args.length = (g.func f).params.length) :
    Always (e.work g f count) fun r => SameRuns g r.2.1 f args := by
  have wf := Graph.validateFunc_eq_ok.1 hv
  apply (always_work e count wf).mono
  intro r htrans
  exact htrans.sameRuns wf ht hargs

theorem sampleGraph_work_sameRuns :
    Always (Engine.work { options := { eraseDead := true } } sampleGraph ⟨0⟩ 3) fun r =>
      ∀ c, (r.2.1.run ⟨0⟩ [0] 0).FailsIn (text "entry") c ↔ c = .divisionByZero := by
  have hargs : ([0] : List UInt64).length = (sampleGraph.func ⟨0⟩).params.length := rfl
  apply (Engine.work_sameRuns { options := { eraseDead := true } } 3 sampleGraph_validateFunc
    sampleGraph_targetsListed hargs).mono
  intro r hr c
  have hrun : sampleGraph.run ⟨0⟩ [0] 0 =
      .failed (.fault (text "entry") 1 .udiv .divisionByZero) := by decide +kernel
  rw [hr.fails 0 (Int.le_refl 0), hrun]
  simp [Outcome.FailsIn, eq_comm]

end Disguise
