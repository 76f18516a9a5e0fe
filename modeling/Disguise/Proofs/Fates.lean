import Disguise.Ieee
import Disguise.Proofs.Soundness
import Mathlib.Data.List.Perm.Subperm

/-!
What becomes of a block. Its ops act in the same way each time it is entered, so a run without a
limit is a walk through the blocks that is known from the entry, and one that comes back to a block
never ends.
-/
namespace Disguise
open Arithmetic
namespace Execution

/-- How a run without a limit ends in the block with the given name. -/
inductive Concluded (g : Graph) (f : FuncId) (name : Bytes) : Action → Outcome → Prop
  | fail {c : Fault} {i : Int} {code : Opcode} (h : c.FromOperands) :
      Concluded g f name (.fail c) (.failed (.fault name i code c))
  | ret {v : UInt64} (h : v.toNat < 2 ^ (g.func f).retBits.toNat) :
      Concluded g f name (.ret v) (.returned v)

theorem Concluded.final {g : Graph} {f : FuncId} {name : Bytes} {a : Action} {out : Outcome}
    (h : Concluded g f name a out) (t : BlockId) : a ≠ .goto t := by
  cases h <;> simp

/-- A function that is no declaration can be started on arguments of the right number. -/
theorem exists_start {g : Graph} {f : FuncId} {args : List UInt64} (wf : g.WellFormed f)
    (hd : (g.func f).isDeclaration = false) (hargs : args.length = (g.func f).params.length) :
    ∃ entry env, (g.func f).blocks.head? = some entry ∧
      bindParams g (g.func f).params args {} = .ok env ∧ env.ops = .empty ∧ g.ParamsFit f env ∧
      ∀ (p : ParamId) (x : UInt64), env.params.get p.idx = some x →
        x.toNat < 2 ^ (g.param p).bits.toNat := by
  obtain ⟨env, hbind, hops, hget⟩ := bindParams_eq_ok {} hargs wf.paramWidth
  obtain ⟨entry, rest, hblocks⟩ : ∃ entry rest, (g.func f).blocks = entry :: rest := by
    cases hb : (g.func f).blocks with
    | nil => simp [Func.isDeclaration, hb] at hd
    | cons entry rest => exact ⟨entry, rest, rfl⟩
  refine ⟨entry, env, by simp [hblocks], hbind, hops, ?_, ?_⟩
  · intro p hp
    rcases hget p with ⟨-, hx⟩ | ⟨hnot, -⟩
    · exact hx
    · exact absurd hp hnot
  · intro p x hx
    rcases hget p with ⟨hp, y, hy, hfit⟩ | ⟨-, hsame⟩
    · rw [hx] at hy
      rw [Option.some.inj hy]
      exact (Word.fits_iff (wf.paramWidth p hp)).1 hfit
    · rw [hx] at hsame
      simp at hsame

variable [FloatUnit]

/-- How a pass through some ops of a block ends: with the first action that is no value. -/
inductive Fate (g : Graph) (start : Env) : List OpId → Action → Prop
  | skip {o : OpId} {rest : List OpId} {z : UInt64} {a : Action} (acts : Acts g start o (.define z))
      (later : Fate g start rest a) : Fate g start (o :: rest) a
  | stop {o : OpId} {rest : List OpId} {a : Action} (acts : Acts g start o a)
      (final : ∀ z, a ≠ .define z) : Fate g start (o :: rest) a

theorem Fate.unique {g : Graph} {start : Env} {ops : List OpId} {a b : Action}
    (ha : Fate g start ops a) (hb : Fate g start ops b) : a = b := by
  induction ha with
  | skip acts _ ih =>
    cases hb with
    | skip _ later => exact ih later
    | stop acts' final => exact absurd (acts'.unique acts) (final _)
  | stop acts final =>
    cases hb with
    | skip acts' _ => exact absurd (acts.unique acts') (final _)
    | stop acts' _ => exact acts.unique acts'

/-- What a pass without a limit comes to, by its fate. -/
def Foretold (g : Graph) (f : FuncId) (start : Env) (name : Bytes) (pass : Pass) : Action → Prop
  | .define _ => False
  | .fail c => c.FromOperands ∧ ∃ i code, pass = .stop (.failed (.fault name i code c))
  | .ret v => v.toNat < 2 ^ (g.func f).retBits.toNat ∧ pass = .stop (.returned v)
  | .goto t => ∃ env way i, pass = .leave env (some t) none ∧
      Sound g f start way i [] (.enter g t env none)

section
variable {g : Graph} {f : FuncId} {start : Env} (wf : g.WellFormed f) (ht : g.TargetsListed f)
  (hp : g.ParamsFit f start)
include wf ht hp

/-- A branch is the last op of its block, and the block it leads to is entered next. -/
theorem exists_enter {rest : List OpId} {way : List Nat} {i : Nat} {done : List OpId}
    {b t : BlockId}
    {env : Env} (h : Sound g f start way i done ⟨b, rest, env, some t, none⟩) :
    rest = [] ∧ ∃ way' i', Sound g f start way' i' [] (.enter g t env none) := by
  have hnil : rest = [] := by
    rcases h.next with ⟨hnone, -⟩ | ⟨hnil, -⟩
    · cases hnone
    · exact hnil
  subst hnil
  have henter := advance_sound wf ht hp h
  simp only [advance] at henter
  obtain ⟨way', i', done', henter⟩ : ∃ way' i' done',
      Sound g f start way' i' done' (.enter g t env none) := by
    simpa using henter
  have hdone : done' = [] := by
    have := henter.split
    simpa [Point.enter] using this
  exact ⟨rfl, way', i', hdone ▸ henter⟩

/-- From every point of a run the rest of the block has a fate, and it comes true. -/
theorem exists_fate {rest : List OpId} {way : List Nat} {i : Nat} {done : List OpId} {b : BlockId}
    {env : Env} (h : Sound g f start way i done ⟨b, rest, env, none, none⟩) :
    ∃ a, Fate g start rest a ∧
      Foretold g f start (g.block b).name (runOps g (g.block b).name rest env none none) a := by
  induction rest generalizing env way i done with
  | nil =>
    rcases h.next with ⟨-, hne⟩ | ⟨-, c, k, hc, -⟩
    · exact absurd rfl hne
    · cases hc
  | cons o rest ih =>
    have hob : o ∈ (g.block b).ops := by simp [h.split]
    have ho : o ∈ g.opsOf f := Graph.mem_opsOf.2 ⟨b, h.block_mem, hob⟩
    obtain ⟨a, ha, heff⟩ := h.exists_acts wf hp rfl
    dsimp only at heff
    have hadv := advance_sound wf ht hp h
    simp only [advance, spend, heff] at hadv
    cases a with
    | define z =>
      -- the step leads to a sound point, which has the fate of the block by induction
      obtain ⟨way', i', done', hs⟩ : ∃ way' i' done',
          Sound g f start way' i' done' ⟨b, rest, env.setOp o z, none, none⟩ := by
        simpa [Action.effect] using hadv
      obtain ⟨a, hfate, htold⟩ := ih hs
      refine ⟨a, .skip ha hfate, ?_⟩
      simpa [runOps, spend, heff, Action.effect] using htold
    | fail c =>
      have hfrom := wf.fromOperands_of_acts ho ha
      obtain ⟨k, hk⟩ := stopAt_eq (g.block b).name hfrom (wf.opOwner b h.block_mem o hob) hob
      refine ⟨_, .stop ha (by simp), hfrom, k, (g.op o).code, ?_⟩
      simp [runOps, spend, heff, Action.effect, hk]
    | ret v =>
      refine ⟨_, .stop ha (by simp), wf.lt_of_acts_ret hp ho ha, ?_⟩
      simp [runOps, spend, heff, Action.effect]
    | goto t =>
      obtain ⟨way', i', done', hs⟩ : ∃ way' i' done',
          Sound g f start way' i' done' ⟨b, rest, env, some t, none⟩ := by
        simpa [Action.effect] using hadv
      obtain ⟨rfl, way', i', henter⟩ := exists_enter wf ht hp hs
      refine ⟨_, .stop ha (by simp), env, way', i', ?_, henter⟩
      simp [runOps, spend, heff, Action.effect]

end

/-- A run that leaves the blocks on `way` one after the other gets from `b` to `c`. -/
inductive Walk (g : Graph) (start : Env) : (way : List BlockId) → (b c : BlockId) → Prop
  | here {b : BlockId} : Walk g start [] b b
  | step {way : List BlockId} {b c d : BlockId} (first : Fate g start (g.block b).ops (.goto c))
      (later : Walk g start way c d) : Walk g start (b :: way) b d

namespace Walk
variable {g : Graph} {start : Env} {way way' : List BlockId} {b c d : BlockId}

theorem append (h : Walk g start way b c) (h' : Walk g start way' c d) :
    Walk g start (way ++ way') b d := by
  induction h with
  | here => exact h'
  | step first _ ih => exact .step first (ih h')

theorem split (h : Walk g start (way ++ way') b d) :
    ∃ c, Walk g start way b c ∧ Walk g start way' c d := by
  induction way generalizing b with
  | nil => exact ⟨b, .here, h⟩
  | cons x way ih =>
    cases h with
    | step first later =>
      obtain ⟨c, h₁, h₂⟩ := ih later
      exact ⟨c, .step first h₁, h₂⟩

theorem head_eq (h : Walk g start (c :: way) b d) : c = b := by
  cases h
  rfl

/-- Two walks of the same length from one block are the same. -/
theorem unique (h : Walk g start way b c) (h' : Walk g start way' b d)
    (hlen : way.length = way'.length) : way = way' ∧ c = d := by
  induction h generalizing way' with
  | here =>
    cases h' with
    | here => exact ⟨rfl, rfl⟩
    | step => simp at hlen
  | step first _ ih =>
    cases h' with
    | here => simp at hlen
    | step first' later' =>
      have := first.unique first'
      simp only [Action.goto.injEq] at this
      subst this
      obtain ⟨rfl, rfl⟩ := ih later' (by simpa using hlen)
      exact ⟨rfl, rfl⟩

/-- A walk that comes back to where it started can be made as long as one likes. -/
theorem repeated (h : Walk g start way b b) (hne : way ≠ []) (n : Nat) :
    ∃ way', Walk g start way' b b ∧ n ≤ way'.length := by
  induction n with
  | zero => exact ⟨[], .here, by simp⟩
  | succ n ih =>
    obtain ⟨way', h', hlen⟩ := ih
    have := List.length_pos_iff.2 hne
    exact ⟨way ++ way', h.append h', by simp; omega⟩

/-- From a walk that leaves a block twice there are walks of every length. -/
theorem exists_of_not_nodup (h : Walk g start way b c) (hdup : ¬ way.Nodup) (n : Nat) :
    ∃ way' d, Walk g start way' b d ∧ way'.length = n := by
  suffices ∃ way' d, Walk g start way' b d ∧ n ≤ way'.length by
    obtain ⟨way', d, h', hlen⟩ := this
    rw [← List.take_append_drop n way'] at h'
    obtain ⟨e, h', -⟩ := h'.split
    exact ⟨_, e, h', by simp [hlen]⟩
  induction h with
  | here => simp at hdup
  | @step way b c d first later ih =>
    rw [List.nodup_cons, not_and_or, not_not] at hdup
    rcases hdup with hmem | hdup
    · obtain ⟨l₁, l₂, rfl⟩ := List.append_of_mem hmem
      obtain ⟨e, h₁, h₂⟩ := later.split
      rw [← h₂.head_eq] at h₁
      obtain ⟨way', h', hlen⟩ := (Walk.step first h₁).repeated (by simp) n
      exact ⟨way', b, h', hlen⟩
    · obtain ⟨way', e, h', hlen⟩ := ih hdup
      exact ⟨b :: way', e, .step first h', by simp; omega⟩

/-- The blocks that a walk leaves are blocks of the graph. -/
theorem lt_size (h : Walk g start way b c) (hd : d ∈ way) : d.idx < g.blocks.size := by
  induction h with
  | here => cases hd
  | step first _ ih =>
    rcases List.mem_cons.1 hd with rfl | hd
    · by_contra hle
      have hempty : (g.block d).ops = [] := by
        rw [Graph.block, Table.get_of_size_le _ (Nat.le_of_not_lt hle)]
        rfl
      rw [hempty] at first
      cases first
    · exact ih hd

/-- A walk that leaves more blocks than there are leaves one of them twice. -/
theorem not_nodup_of_long (h : Walk g start way b c) (hlen : g.blocks.size < way.length) :
    ¬ way.Nodup := by
  intro hnodup
  have hmap : (way.map BlockId.idx).Nodup :=
    hnodup.map fun _ _ heq => BlockId.idx_inj.1 heq
  have hsub : way.map BlockId.idx ⊆ List.range g.blocks.size := by
    intro i hi
    obtain ⟨d, hd, rfl⟩ := List.mem_map.1 hi
    exact List.mem_range.2 (h.lt_size hd)
  have := (hmap.subperm hsub).length_le
  simp at this
  omega

/-- Where some walk comes to a block that goes nowhere, none leaves a block twice. -/
theorem nodup_of_final {a : Action} (h : Walk g start way b c)
    (hend : Fate g start (g.block c).ops a) (hfinal : ∀ t, a ≠ .goto t)
    (h' : Walk g start way' b d) : way'.Nodup := by
  by_contra hdup
  -- a longer walk leaves the block in which the first one is said to end
  obtain ⟨long, e, hl, hlong⟩ := h'.exists_of_not_nodup hdup (way.length + 1)
  obtain ⟨l, x, rfl⟩ := List.eq_nil_or_concat long |>.resolve_left (by
    rintro rfl
    simp at hlong)
  rw [List.concat_eq_append] at hl
  obtain ⟨y, h₁, h₂⟩ := hl.split
  have hy := (h.unique h₁ (by simpa using hlong.symm)).2
  cases h₂ with
  | step first _ =>
    rw [hy] at hend
    exact hfinal _ (hend.unique first)

end Walk

section
variable {g : Graph} {f : FuncId} {start : Env} (wf : g.WellFormed f) (ht : g.TargetsListed f)
  (hp : g.ParamsFit f start)
include wf ht hp

/-- A run without a limit is a walk that is cut off or ends in the fate of its last block. -/
theorem exists_walk (fuel : Nat) {b : BlockId} {env : Env} {path : List Nat} {i : Nat}
    (h : Sound g f start path i [] (.enter g b env none)) :
    (∃ way c, Walk g start way b c ∧ way.length = fuel ∧
        runBlocks g fuel b env none = .diverged) ∨
      ∃ way c a, Walk g start way b c ∧ way.length < fuel ∧ Fate g start (g.block c).ops a ∧
        Concluded g f (g.block c).name a (runBlocks g fuel b env none) := by
  induction fuel generalizing b env path i with
  | zero => exact .inl ⟨[], b, .here, rfl, rfl⟩
  | succ fuel ih =>
    obtain ⟨a, hfate, htold⟩ := exists_fate wf ht hp h
    cases a with
    | define z => exact htold.elim
    | fail c =>
      obtain ⟨hfrom, k, code, hpass⟩ := htold
      refine .inr ⟨[], b, _, .here, by simp, hfate, ?_⟩
      simp only [runBlocks, hpass]
      exact .fail hfrom
    | ret v =>
      obtain ⟨hlt, hpass⟩ := htold
      refine .inr ⟨[], b, _, .here, by simp, hfate, ?_⟩
      simp only [runBlocks, hpass]
      exact .ret hlt
    | goto t =>
      obtain ⟨env', path', k, hpass, hs⟩ := htold
      have hrun : runBlocks g (fuel + 1) b env none = runBlocks g fuel t env' none := by
        simp only [runBlocks, hpass]
      rw [hrun]
      rcases ih hs with ⟨way, c, hw, hlen, hdiv⟩ | ⟨way, c, a, hw, hlen, hend, hout⟩
      · exact .inl ⟨b :: way, c, .step hfate hw, by simp [hlen], hdiv⟩
      · exact .inr ⟨b :: way, c, a, .step hfate hw, by simp [hlen], hend, hout⟩

/-- A run that enters more blocks than there are goes on forever. -/
theorem diverged_of_long {fuel : Nat} {b : BlockId} {env : Env} {path : List Nat} {i : Nat}
    (h : Sound g f start path i [] (.enter g b env none)) (hfuel : g.blocks.size < fuel)
    (hdiv : runBlocks g fuel b env none = .diverged) (n : Nat) :
    runBlocks g n b env none = .diverged := by
  rcases exists_walk wf ht hp fuel h with ⟨way, c, hw, hlen, -⟩ | ⟨_, _, _, -, -, -, hout⟩
  · rcases exists_walk wf ht hp n h with ⟨_, _, -, -, hn⟩ | ⟨short, d, a, hs, -, hend, hout⟩
    · exact hn
    · exact absurd (hs.nodup_of_final hend hout.final hw) (hw.not_nodup_of_long (by omega))
  · rw [hdiv] at hout
    cases hout

/-- A run with a limit ends before it has entered that many blocks. -/
theorem not_diverged_of_limit {fuel n : Nat} {b : BlockId} {env : Env} {path : List Nat} {i : Nat}
    (h : Sound g f start path i [] (.enter g b env (some n))) (hfuel : n < fuel) :
    runBlocks g fuel b env (some n) ≠ .diverged := by
  induction fuel generalizing b env path i n with
  | zero => omega
  | succ fuel ih =>
    have hblock := @reaches_of_runOps _ g b (g.block b).ops env none (some n)
    unfold runBlocks
    dsimp only
    cases hr : runOps g (g.block b).name (g.block b).ops env none (some n) with
    | stop out =>
      rw [hr] at hblock
      obtain ⟨q, hq, hout⟩ := hblock
      obtain ⟨_, _, _, hs⟩ := sound_of_reaches wf ht hp hq h
      rcases advance_sound wf ht hp hs with ⟨out', hout', hproper⟩ | ⟨_, _, _, _, hr', -⟩
      · rw [hout] at hout'
        cases hout'
        rintro rfl
        cases hproper
      · rw [hout] at hr'
        cases hr'
    | leave env' next' left =>
      rw [hr] at hblock
      cases next' with
      | none => simp
      | some c =>
        obtain ⟨n', rfl, hn⟩ := budget_of_runOps hr
        obtain ⟨body, last, hops, -, -⟩ := wf.ended b h.block_mem
        have hstep : advance g ⟨b, [], env', some c, some n'⟩ =
            .inr (.enter g c env' (some n')) := by simp [advance]
        obtain ⟨path', k, done, hs⟩ := sound_of_reaches wf ht hp (.step hblock hstep) h
        have hdone : done = [] := by
          have := hs.split
          simpa [Point.enter] using this
        subst hdone
        refine ih hs ?_
        have : 0 < (g.block b).ops.length := by simp [hops]
        omega

end

/-- Every value on record is a word of the width of what it belongs to. -/
def StoredFit (g : Graph) (env : Env) : Prop :=
  (∀ (o : OpId) (x : UInt64), env.ops.get o.idx = some x → x.toNat < 2 ^ (g.op o).bits.toNat) ∧
    ∀ (p : ParamId) (x : UInt64), env.params.get p.idx = some x →
      x.toNat < 2 ^ (g.param p).bits.toNat

/-- A step without a limit leaves none. -/
theorem budget_of_reaches {g : Graph} {p q : Point} (h : Reaches g p q) (hp : p.budget = none) :
    q.budget = none := by
  induction h with
  | here => exact hp
  | @step q r _ now ih =>
    unfold advance at now
    simp only [ih, spend] at now
    split at now
    · split at now
      · cases now
      · cases now
        rfl
    · split at now <;> cases now <;> rfl

end Execution

open Execution

/-- Accepted functions run safely. Whatever the limit, a run of an accepted function on arguments of
the right number has only values of proper widths on record, ends only in one of the proper ways,
and does end unless it has no limit and would go through blocks forever. -/
theorem Graph.run_safe [FloatUnit] {g : Graph} {f : FuncId} {args : List UInt64} (limit : Int)
    (hv : g.validateFunc f = .ok ()) (ht : g.TargetsListed f)
    (hd : (g.func f).isDeclaration = false) (hargs : args.length = (g.func f).params.length) :
    ∃ entry env, (g.func f).blocks.head? = some entry ∧
      bindParams g (g.func f).params args {} = .ok env ∧
      (∀ p, Reaches g (.enter g entry env (budgetOf limit)) p →
        StoredFit g p.env ∧ ∀ out, advance g p = .inl out → Proper g f (0 < limit) out) ∧
      ((∃ p, Reaches g (.enter g entry env (budgetOf limit)) p ∧
          advance g p = .inl (g.run f args limit) ∧ Proper g f (0 < limit) (g.run f args limit)) ∨
        (limit ≤ 0 ∧ g.run f args limit = .diverged ∧
          ∀ n, runBlocks g n entry env none = .diverged)) := by
  have wf := validateFunc_eq_ok.1 hv
  obtain ⟨entry, env, hentry, hbind, hops, hp, hparam⟩ := exists_start wf hd hargs
  have hstart := sound_enter wf hentry hops (budgetOf limit)
  have hrun : g.run f args limit =
      runBlocks g (fuelOf g (budgetOf limit)) entry env (budgetOf limit) := by
    obtain ⟨rest, hblocks⟩ := List.head?_eq_some_iff.1 hentry
    simp [Graph.run, hblocks, hargs, hbind]
  have safe : ∀ p, Reaches g (.enter g entry env (budgetOf limit)) p →
      StoredFit g p.env ∧ ∀ out, advance g p = .inl out → Proper g f (0 < limit) out := by
    intro p hreach
    obtain ⟨way, i, done, hs⟩ := sound_of_reaches wf ht hp hreach hstart
    refine ⟨⟨fun o x hx => hs.op_lt wf hx, fun q x hx => hparam q x (hs.params ▸ hx)⟩, ?_⟩
    intro out hout
    rcases advance_sound wf ht hp hs with ⟨out', hout', hproper⟩ | ⟨_, _, _, _, hnext, -⟩
    · rw [hout] at hout'
      cases hout'
      cases hproper with
      | returned h => exact .returned h
      | fault h => exact .fault h
      | stepLimit h =>
        refine .stepLimit ?_
        by_contra hle
        have := budget_of_reaches hreach (by simp [Point.enter, budgetOf, hle])
        rw [h] at this
        cases this
    · rw [hout] at hnext
      cases hnext
  refine ⟨entry, env, hentry, hbind, safe, ?_⟩
  rcases @reaches_of_runBlocks _ g (fuelOf g (budgetOf limit)) entry env (budgetOf limit) with
    hdiv | ⟨p, hreach, hout⟩
  · right
    rcases Int.lt_or_le 0 limit with hpos | hle
    · exfalso
      have hbudget : budgetOf limit = some limit.toNat := by simp [budgetOf, hpos]
      rw [hbudget] at hdiv hstart
      exact not_diverged_of_limit wf ht hp hstart (by simp [fuelOf]) hdiv
    · have hbudget : budgetOf limit = none := by simp [budgetOf, Int.not_lt.2 hle]
      rw [hrun]
      rw [hbudget] at hdiv hstart ⊢
      exact ⟨hle, hdiv, diverged_of_long wf ht hp hstart (by simp [fuelOf]) hdiv⟩
  · left
    rw [hrun]
    exact ⟨p, hreach, hout, (safe p hreach).2 _ hout⟩

/-- A module with a function of one byte `a`, which returns `(a + 1) / a`. -/
def sampleGraph : Graph :=
  { ops := ⟨#[
      { code := .add, bits := 8, args := [some (.param ⟨0⟩), some (.const ⟨1, 8⟩)]
        block := some ⟨0⟩, uses := UseSet.empty.add ⟨1⟩ },
      { code := .udiv, bits := 8, args := [some (.result ⟨0⟩), some (.param ⟨0⟩)]
        block := some ⟨0⟩, uses := UseSet.empty.add ⟨2⟩ },
      { code := .ret, args := [some (.result ⟨1⟩)], block := some ⟨0⟩ }]⟩
    params := ⟨#[
      { func := some ⟨0⟩, name := text "a", bits := 8, uses := (UseSet.empty.add ⟨0⟩).add ⟨1⟩ }]⟩
    blocks := ⟨#[{ owner := some ⟨0⟩, name := text "entry", ops := [⟨0⟩, ⟨1⟩, ⟨2⟩] }]⟩
    funcs := ⟨#[
      { owner := some ⟨0⟩, name := text "f", params := [⟨0⟩], retBits := 8, blocks := [⟨0⟩] }]⟩
    modules := ⟨#[{ funcs := [⟨0⟩] }]⟩ }

theorem sampleGraph_validateFunc : sampleGraph.validateFunc ⟨0⟩ = .ok () := by
  have hreach : (sampleGraph.flow ⟨0⟩).reachable = [0] := by
    have hnext : (sampleGraph.flow ⟨0⟩).successors 0 = [] := by decide
    have hsize : (sampleGraph.flow ⟨0⟩).size = 1 := by decide
    simp [Flow.reachable, Flow.explore, hnext, hsize]
  have hdom : sampleGraph.dominators ⟨0⟩ = [some (.singleton 0)] := by
    simp only [Graph.dominators, Flow.dominators, hreach]
    decide
  simp only [Graph.validateFunc, Validity.checkFunc, hdom]
  decide +kernel

theorem sampleGraph_targetsListed : sampleGraph.TargetsListed ⟨0⟩ := by
  have htargets : ∀ o ∈ sampleGraph.opsOf ⟨0⟩, (sampleGraph.op o).targets = [] := by decide
  intro o ho b hb
  rw [htargets o ho] at hb
  cases hb

theorem sampleGraph_run_safe :
    Proper sampleGraph ⟨0⟩ (0 < (0 : Int)) (sampleGraph.run ⟨0⟩ [0] 0) := by
  have hargs : ([0] : List UInt64).length = (sampleGraph.func ⟨0⟩).params.length := rfl
  obtain ⟨entry, env, -, -, -, ⟨p, -, -, hproper⟩ | ⟨-, hdiv, -⟩⟩ :=
    Graph.run_safe 0 sampleGraph_validateFunc sampleGraph_targetsListed rfl hargs
  · exact hproper
  · have hrun : sampleGraph.run ⟨0⟩ [0] 0 ≠ .diverged := by decide +kernel
    exact absurd hdiv hrun

end Disguise
