import Disguise.Config.Load
import Disguise.Proofs.Calls
import Disguise.Proofs.Cloning
import Disguise.Proofs.Marking
import Disguise.Proofs.Preservation
import Disguise.Proofs.Printing
import Disguise.Proofs.Verifying
import Disguise.Text.Printable

/-!
Processing from end to end. The copy that is made first is out of reach of the engine and runs as
the module did, and the transformed module returns what the copy returns. So the check at the end
counts all calls that return, unless a transformed function has more ops than a run has steps.
-/
namespace Disguise
open Disguise.Graph

theorem Always.mapM {α β : Type} {l : List α} {k : α → Choice β}
    (h : ∀ a ∈ l, Always (k a) fun _ => True) :
    Always (l.mapM k) fun bs => bs.length = l.length := by
  induction l with
  | nil => exact .pure rfl
  | cons a l ih =>
    rw [List.mapM_cons]
    apply (h a (by simp)).bind
    intro b _
    apply (ih fun c hc => h c (by simp [hc])).bind
    intro bs hbs
    exact .pure (by simp [hbs])

theorem always_arguments {g : Graph} {f : FuncId} (wf : g.WellFormed f) :
    Always (Equivalence.arguments g f) fun args => args.length = (g.func f).params.length :=
  .mapM fun p hp => (Always.value (wf.paramWidth p hp)).mono fun _ _ => trivial

theorem Relabeling.Carries.arguments {ρ : Relabeling} {g g' : Graph} {f f' : FuncId}
    (h : ρ.Carries g g' f f') : Equivalence.arguments g' f' = Equivalence.arguments g f := by
  unfold Equivalence.arguments
  rw [h.params]
  have hbits := h.paramBits
  generalize (g.func f).params = ps at hbits
  induction ps with
  | nil => rfl
  | cons p ps ih =>
    rw [List.map_cons, List.mapM_cons, List.mapM_cons, hbits p (by simp),
      ih fun q hq => hbits q (by simp [hq])]

namespace Graph
variable {g x y : Graph} {m c : ModuleId} {f k : FuncId}

/-- Work on one function keeps a function that shares no part with it. -/
theorem Frame.opsOf_of_apart (h : Frame x y f) (ha : x.Apart f k) : y.opsOf k = x.opsOf k := by
  rw [Graph.opsOf, Graph.opsOf, h.func]
  exact List.flatMap_congr fun b hb => by rw [h.block b (ha.blocks b hb)]

theorem Frame.maps {ρ : Relabeling} {f₀ : FuncId} (h : Frame x y f) (ha : x.Apart f k)
    (hs : x.Stored k) (hm : ρ.Maps g x f₀ k) : ρ.Maps g y f₀ k := by
  apply hm.keep
  · rw [h.func]
  · intro p hp
    rw [h.otherParam p (ha.params p hp)]
    exact ⟨rfl, rfl⟩
  · exact fun b hb => h.block b (ha.blocks b hb)
  · intro o ho
    rw [h.op o (hs.ops o ho) (ha.ops o ho)]

theorem Frame.apart (h : Frame x y f) (ha : x.Apart f k) (hs : x.Stored k) : y.Apart f k where
  params := by
    rw [h.func, h.func]
    exact ha.params
  blocks := by
    rw [h.func, h.func]
    exact ha.blocks
  ops o ho hmem := by
    rw [h.opsOf_of_apart ha] at ho
    rcases h.opsOf o hmem with hold | hnew
    · exact ha.ops o ho hold
    · exact absurd (hs.ops o ho) (Nat.not_lt.2 hnew)

theorem Apart.agree (h : x.Apart f k) (ha : Agree x y f) (hops : y.opsOf k = x.opsOf k)
    (hfunc : y.func k = x.func k) : y.Apart f k where
  params := by
    rw [hfunc, ha.params]
    exact h.params
  blocks := by
    rw [hfunc, ha.blocks]
    exact h.blocks
  ops := by
    rw [hops, ha.opsOf]
    exact h.ops

/-- Function `k` of `x` is function `f` of `g` under other numbers, and it shares no part with the
functions of module `m`. -/
structure Aside (g : Graph) (m : ModuleId) (x : Graph) (f k : FuncId) : Prop where
  source : g.WellFormed f
  maps : ∃ ρ : Relabeling, ρ.Maps g x f k
  apart : ∀ f ∈ (g.module m).funcs, x.Apart f k

variable [FloatUnit]

/-- A function that nothing was written to returns the same. -/
theorem Agree.returned (h : Agree x y f) (wf : x.WellFormed f) (ht : x.TargetsListed f)
    (hname : (y.func f).name = (x.func f).name) (hd : (x.func f).isDeclaration = false)
    {args : List UInt64} (hargs : args.length = (x.func f).params.length) (v : UInt64) :
    y.run f args 0 = .returned v ↔ x.run f args 0 = .returned v :=
  returned_of_carries wf ht hd hargs (h.carries wf hname) (h.wellFormed wf) (h.listed ht) v

/-- What a run of the engine over module `m` of `g` keeps, in a graph that has a copy `c` of it. -/
structure Kept (g : Graph) (m c : ModuleId) (x : Graph) : Prop where
  func : ∀ f ∈ (g.module m).funcs, x.func f = g.func f
  listed : ∀ f ∈ (g.module m).funcs, x.TargetsListed f
  returned : ∀ f ∈ (g.module m).funcs, (g.func f).isDeclaration = false →
    ∀ args, args.length = (g.func f).params.length →
      ∀ v, x.run f args 0 = .returned v ↔ g.run f args 0 = .returned v
  copies : List.Forall₂ (Aside g m x) (g.module m).funcs (x.module c).funcs

/-- Every transformation of a function of the module keeps it. -/
theorem Kept.transformed (h : Kept g m c x) (wf : x.ModuleWellFormed m)
    (hm : x.module m = g.module m) (ht : Transformed x y f) (hf : f ∈ (g.module m).funcs) :
    Kept g m c y := by
  have wff : ∀ k ∈ (g.module m).funcs, x.WellFormed k := by
    rw [← hm]
    exact wf.funcs
  have hagree : ∀ k ∈ (g.module m).funcs, k ≠ f → Agree x y k :=
    fun k hk hne => ht.frame.agree hne (wff f hf) (wff k hk)
  constructor
  · intro k hk
    rw [ht.frame.func]
    exact h.func k hk
  · intro k hk
    by_cases hkf : k = f
    · rw [hkf]
      exact ht.listed (h.listed f hf)
    · exact (hagree k hk hkf).listed (h.listed k hk)
  · intro k hk hd args hargs v
    rw [← h.func k hk] at hd hargs
    rw [← h.returned k hk (by rwa [← h.func k hk]) args (by rwa [← h.func k hk]) v]
    by_cases hkf : k = f
    · subst hkf
      exact (ht.sameRuns (wff k hk) (h.listed k hk) hargs).returns 0 (Int.le_refl 0) v
    · have ha := hagree k hk hkf
      exact ha.returned (wff k hk) (h.listed k hk) (by rw [ht.frame.func]) hd hargs v
  · rw [ht.frame.module]
    refine h.copies.imp fun f₀ k hk => ?_
    obtain ⟨ρ, hmaps⟩ := hk.maps
    have hstored := hmaps.stored hk.source
    refine ⟨hk.source, ⟨ρ, ht.frame.maps (hk.apart f hf) hstored hmaps⟩, fun f' hf' => ?_⟩
    by_cases hff : f' = f
    · rw [hff]
      exact ht.frame.apart (hk.apart f hf) hstored
    · have hops := ht.frame.opsOf_of_apart (hk.apart f hf)
      exact (hk.apart f' hf').agree (hagree f' hf' hff) hops (ht.frame.func k)

/-- It holds when the copy has been made. -/
theorem kept_of_collected (h : g.Collected c (g.module m).funcs x) (wf : g.ModuleWellFormed m)
    (ht : ∀ f ∈ (g.module m).funcs, g.TargetsListed f) : Kept g m c x := by
  have hfunc : ∀ f ∈ (g.module m).funcs, x.func f = g.func f :=
    fun f hf => h.extended.funcs.get f.idx (wf.lt_size hf)
  have hagree := wf.agree h.extended
  refine ⟨hfunc, fun f hf => (hagree f hf).listed (ht f hf), ?_, ?_⟩
  · intro f hf hd args hargs v
    exact (hagree f hf).returned (wf.funcs f hf) (ht f hf) (by rw [hfunc f hf]) hd hargs v
  · refine h.copies.imp fun f k hk => ⟨hk.source, hk.maps, fun f' hf' => ?_⟩
    exact hk.beyond.apart (wf.funcs f' hf') (hagree f' hf')

/-- Where the engine has kept all this, the copy and the module pass for the module as it was. -/
theorem Kept.faithful (h : Kept g m c x) (wf : x.ModuleWellFormed m)
    (hm : x.module m = g.module m) (ht : ∀ f ∈ (g.module m).funcs, g.TargetsListed f) :
    List.Forall₂ (Equivalence.Faithful g x) (g.module m).funcs (x.module c).funcs := by
  have hmem := (List.forall₂_and_left _ _).2 ⟨fun f (hf : f ∈ (g.module m).funcs) => hf, h.copies⟩
  refine hmem.imp fun f k ⟨hf, hk⟩ => ?_
  obtain ⟨ρ, hmaps⟩ := hk.maps
  have hpos : (0 : Int) < Execution.defaultLimit := by decide
  constructor
  case isDeclaration => exact hmaps.isDeclaration
  case name => exact hmaps.name
  case arguments => exact hmaps.arguments
  case draws => exact always_arguments hk.source
  case first => exact fun args => hmaps.run hk.source (ht f hf) args hpos
  case second =>
    intro hd args hargs
    rcases run_cases hk.source (ht f hf) hd hargs hpos with ⟨v, hv⟩ | hfailed
    · right
      have hfree := returned_of_limit hk.source (ht f hf) hd hargs hpos hv
      have hfree' := (h.returned f hf hd args hargs v).2 hfree
      have wf' : x.WellFormed f := wf.funcs f (by rwa [hm])
      refine ⟨v, hv, ?_⟩
      rw [← h.func f hf] at hd hargs
      exact returned_or_stepLimit wf' (h.listed f hf) hd hargs hpos hfree'
    · exact .inl hfailed

end Graph

/-- What passes for a function passes for one that it was made like. -/
theorem Equivalence.Faithful.of_carries [FloatUnit] {ρ : Relabeling} {g g₀ x : Graph} {f k : FuncId}
    (h : Faithful g₀ x f k) (hc : ρ.Carries g g₀ f f) (wf : g.WellFormed f)
    (ht : g.TargetsListed f) : Faithful g x f k := by
  have heval : ∀ args, g₀.eval f args = g.eval f args :=
    fun args => hc.run wf ht args (by decide)
  have hparams : (g₀.func f).params.length = (g.func f).params.length := by
    rw [hc.params, List.length_map]
  constructor
  case isDeclaration => exact h.isDeclaration.trans hc.isDeclaration
  case name => exact h.name.trans hc.name
  case arguments => exact h.arguments.trans hc.arguments
  case draws => exact always_arguments wf
  case first =>
    intro args
    rw [h.first, heval]
  case second =>
    intro hd args hargs
    rw [← heval]
    exact h.second (by rw [hc.isDeclaration, hd]) args (by rw [hparams, hargs])

namespace Processing
open Disguise.Equivalence
variable {s : Settings} {g : Graph} {m : ModuleId}

/-- The module that is worked on, with its tags. -/
def Settings.start (s : Settings) (g : Graph) (m : ModuleId) : Graph :=
  if s.tagFirst then g.tagModule m else g

/-- How a module is worked on before it is checked: it is copied and transformed. -/
structure Stage (s : Settings) (g : Graph) (m : ModuleId) (r : Rand) where
  copied : Graph
  first : ModuleId
  engine : Engine
  graph : Graph
  stats : Stats
  rand : Rand
  clone : (s.start g m).cloneModule m = .ok (copied, first)
  run : (Engine.runModule { options := s.config.options } copied m s.config.policy.selector).run r =
    (.ok (engine, graph, stats), rand)

/-- The function that is worked on is made like the one that was given. -/
theorem Settings.exists_start (s : Settings) (wf : g.ModuleWellFormed m)
    (ht : ∀ f ∈ (g.module m).funcs, g.TargetsListed f) :
    (s.start g m).ModuleWellFormed m ∧ (s.start g m).module m = g.module m ∧
      ∀ f ∈ (g.module m).funcs, (s.start g m).TargetsListed f ∧
        ∃ ρ : Relabeling, ρ.Carries g (s.start g m) f f := by
  unfold start
  split
  · refine ⟨wf.tagModule, ?_, fun f hf => ?_⟩
    · obtain ⟨-, -, -, -, -, hmodules⟩ := agree_tagModule g m default
      exact congrArg (fun t => t.get m.idx) hmodules
    · obtain ⟨hagree, -, hname, -⟩ := agree_tagModule g m f
      exact ⟨hagree.listed (ht f hf), _, hagree.carries (wf.funcs f hf) hname⟩
  · refine ⟨wf, rfl, fun f hf => ⟨ht f hf, .same, ?_⟩⟩
    exact Relabeling.carries_same rfl rfl rfl rfl (fun _ _ => ⟨rfl, rfl⟩) (fun _ _ => rfl)
      (fun _ _ => rfl) (wf.funcs f hf).opOwner

/-- What a result shows of the difference between two texts. -/
def Settings.Shows [Differ] (s : Settings) (input output diff : Bytes) : Prop :=
  if s.wantDiff then Differ.lineDiff input output = .ok diff else diff = []

/-- A differ that returns when it is asked lets every result show what it has to. -/
theorem shown_eq_ok [Unicode] [Differ] {first : ModuleId} {input : Bytes} (output : Bytes)
    (hdiff : s.wantDiff → Differ.Returns) (hin : Syntax.printModule g first = .ok input) :
    ∃ diff, shown s g first output = .ok diff ∧ s.Shows input output diff := by
  unfold shown Settings.Shows
  by_cases hwant : s.wantDiff
  · obtain ⟨segments, hsegments⟩ := hdiff hwant input output
    have hline : Differ.lineDiff input output = .ok (Diff.render segments) := by
      rw [Differ.lineDiff, hsegments, Results.ok_bind]
      rfl
    exact ⟨_, by rw [if_pos hwant, hin, Results.ok_bind, hline], by rw [if_pos hwant, hline]⟩
  · exact ⟨[], by rw [if_neg hwant]; rfl, by rw [if_neg hwant]⟩

/-- How processing ends, where `calls` are the calls of the check and `input` is the text at first:
with a result that counts the calls that return, or at a function of the transformed module with
more ops than a run has steps. -/
def Ending [FloatUnit] [Unicode] [Differ] (s : Settings) (g : Graph) (m : ModuleId) (y : Graph)
    (input : Bytes) (calls : List (FuncId × List UInt64)) (out : Except Failure Result) : Prop :=
  (∃ result, out = .ok result ∧ Syntax.printModule y m = .ok result.output ∧
    result.report.verified = returning g calls ∧ s.Shows input result.output result.diff) ∨
  0 < s.config.verifyIters ∧ ∃ f ∈ (y.module m).funcs, 2 ^ 20 < y.numOps f ∧ ∃ args,
    out = .error (.discrepancy (.failed (g.func f).name args .stepLimit))

/-- The check and what is put together at the end. -/
theorem finish_ending [FloatUnit] [Unicode] [Differ] {y : Graph} {first : ModuleId}
    {input output : Bytes} (file : Bytes) (stats : Stats) (r : Rand)
    (hm : y.module m = g.module m)
    (hf : List.Forall₂ (Faithful g y) (g.module m).funcs (y.module first).funcs)
    (hdiff : s.wantDiff → Differ.Returns) (hout : Syntax.printModule y m = .ok output)
    (hin : Syntax.printModule y first = .ok input) :
    ∃ cs r₂, (calls g s.config.verifyIters.toNat (g.module m).funcs).run r = (.ok cs, r₂) ∧
      ∃ out r', (finish s y first m file stats).run r = (.ok out, r') ∧
        Ending s g m y input cs out := by
  obtain ⟨cs, r₂, hcalls, hends⟩ := checkFuncs_ends hf s.config.verifyIters.toNat 0 r
  obtain ⟨diff, hshown, hshows⟩ := shown_eq_ok output hdiff hin
  refine ⟨cs, r₂, hcalls, ?_⟩
  unfold finish
  rw [Choice.run_bind, hout, Choice.run_lift]
  dsimp only
  by_cases hruns : 0 < s.config.verifyIters
  · rw [if_pos hruns, Choice.run_bind, check, hm]
    rcases hends with hends | ⟨f, hmem, hlt, n, args, r', hends⟩
    · rw [hends]
      simp only [Choice.run_bind, hshown, Choice.run_lift, Choice.run_pure]
      exact ⟨_, r₂, rfl, .inl ⟨_, rfl, hout, Nat.zero_add _, hshows⟩⟩
    · rw [hends]
      refine ⟨_, r', rfl, .inr ⟨hruns, f, by rwa [hm], ?_, args, rfl⟩⟩
      have hlimit : Execution.defaultLimit = (2 ^ 20 : Nat) := by decide
      rw [hlimit] at hlt
      exact Int.ofNat_lt.1 hlt
  · -- no run is asked for, so there are no calls either
    have hzero : s.config.verifyIters.toNat = 0 := Int.toNat_of_nonpos (Int.not_lt.1 hruns)
    have hnone : cs = [] := by
      have hlist : ((g.module m).funcs.filter fun f => !(g.func f).isDeclaration).flatMap
          (List.replicate 0) = [] := by simp
      rw [calls, hzero, hlist, List.mapM_nil, Choice.run_pure] at hcalls
      cases hcalls
      rfl
    have hcount : returning g cs = 0 := by rw [hnone]; rfl
    rw [if_neg hruns, Choice.run_bind, Choice.run_pure]
    simp only [Choice.run_bind, hshown, Choice.run_lift, Choice.run_pure]
    exact ⟨_, r, rfl, .inl ⟨_, rfl, hout, hcount.symm, hshows⟩⟩

/-- A complete configuration names no rule that there is not. -/
theorem unknownRule?_of_complete {c d : Config} (h : c.complete = .ok d) :
    d.options.unknownRule? = none := by
  unfold Config.complete at h
  split at h
  · cases h
  · rename_i hdefect
    obtain rfl := Except.ok.inj h
    unfold Config.defect? at hdefect
    split at hdefect
    · cases hdefect
    · assumption

/-- Processing an accepted module with a complete configuration never stops at a violation, provided
the differ returns if it is asked. It ends with the text of a transformed module that is accepted
and with the number of calls of the check that return a value; the one thing that can be wrong is
that a transformed function runs out of steps, and then it has more than `2 ^ 20` ops and there is a
check at all. -/
theorem process_ends [FloatUnit] [Unicode] [Differ] {s : Settings} {g : Graph} {m : ModuleId}
    {c : Config} (file : Bytes) (r : Rand) (hv : g.validate m = .ok ())
    (ht : ∀ f ∈ (g.module m).funcs, g.TargetsListed f) (hc : c.complete = .ok s.config)
    (hdiff : s.wantDiff → Differ.Returns) :
    ∃ stage : Stage s g m r, stage.graph.validate m = .ok () ∧ ∃ input cs r₂,
      Syntax.printModule (s.start g m) m = .ok input ∧
      (calls g s.config.verifyIters.toNat (g.module m).funcs).run stage.rand = (.ok cs, r₂) ∧
      ∃ out record r', (process s g m file).run r = (.ok (out, record), r') ∧
        Ending s g m stage.graph input cs out := by
  have wf := validate_eq_ok.1 hv
  obtain ⟨wf₀, hmodule, hstart⟩ := s.exists_start wf ht
  have ht₀ : ∀ f ∈ ((s.start g m).module m).funcs, (s.start g m).TargetsListed f := by
    rw [hmodule]
    exact fun f hf => (hstart f hf).1
  -- the copy, and what is true of it until the end
  obtain ⟨x, first, hclone, hcollected⟩ := cloneModule_eq_ok wf₀ ht₀
  have hkept := kept_of_collected hcollected wf₀ ht₀
  have wfx := wf₀.cloneModule hclone
  have hmx : x.module m = (s.start g m).module m := (wf₀.extends_clone hclone).2
  obtain ⟨⟨engine, y, stats⟩, r₁, hrun, ⟨wfy, hmy⟩, hkepty⟩ :=
    Engine.always_runModule_keeps (g := s.start g m) { options := s.config.options }
      s.config.policy.selector (P := Kept (s.start g m) m first)
      (fun f hf x y hx hk htrans => hk.transformed hx.1 hx.2 htrans hf) ⟨wfx, hmx⟩ hkept r
  dsimp only at wfy hmy hkepty hrun
  have hvalid := validate_eq_ok.2 wfy
  -- the two texts and the check
  have hout := Syntax.printModule_eq fun f hf => Syntax.printable_of_wellFormed (wfy.funcs f hf)
  have hfirst := Syntax.printModule_eq fun f hf => Syntax.printable_of_wellFormed (wf₀.funcs f hf)
  have hin := Syntax.printModule_forall₂
    (fun f hf => Syntax.printable_of_wellFormed (wf₀.funcs f hf)) ht₀
    (hkepty.copies.imp fun _ _ h => h.maps)
  have hfaithful : List.Forall₂ (Faithful g y) (g.module m).funcs (y.module first).funcs := by
    have hall := hkepty.faithful wfy hmy ht₀
    rw [hmodule] at hall
    have hmem := (List.forall₂_and_left _ _).2 ⟨fun f (hf : f ∈ (g.module m).funcs) => hf, hall⟩
    refine hmem.imp fun f k ⟨hf, hk⟩ => ?_
    obtain ⟨-, ρ, hcarries⟩ := hstart f hf
    exact hk.of_carries hcarries (wf.funcs f hf) (ht f hf)
  obtain ⟨cs, r₂, hcalls, out, r', hfinish, hending⟩ := finish_ending (s := s) file stats r₁
    (hmy.trans hmodule) hfaithful hdiff hout hin
  let stage : Stage s g m r := ⟨x, first, engine, y, stats, r₁, hclone, hrun⟩
  refine ⟨stage, hvalid, _, cs, r₂, hfirst, hcalls, out,
    { log := engine.notices.map Notice.entry ++ [summary file stats], tally := engine.tally }, r',
    ?_, hending⟩
  unfold process
  change Choice.run ((liftM ((s.start g m).cloneModule m) : Choice _) >>= _) r = _
  rw [Choice.run_bind, hclone, Choice.run_lift]
  dsimp only
  rw [unknownRule?_of_complete hc]
  dsimp only
  rw [Choice.run_bind, hrun]
  dsimp only
  rw [hvalid]
  dsimp only
  rw [Choice.run_bind, hfinish]
  rfl

theorem process_ends_sampleGraph :
    let s : Settings := { config := { sub := true, verifyIters := 2 }, wantDiff := true }
    let r : Rand := ⟨.scripted [3, 250, 7] 0, []⟩
    ∃ stage : Stage s sampleGraph ⟨0⟩ r, stage.graph.validate ⟨0⟩ = .ok () ∧ ∃ input cs r₂,
      Syntax.printModule sampleGraph ⟨0⟩ = .ok input ∧
      (calls sampleGraph 2 [⟨0⟩]).run stage.rand = (.ok cs, r₂) ∧
      ∃ out record r', (process s sampleGraph ⟨0⟩ (text "a.ir")).run r = (.ok (out, record), r') ∧
        Ending s sampleGraph ⟨0⟩ stage.graph input cs out := by
  have hfuncs : (sampleGraph.module ⟨0⟩).funcs = [⟨0⟩] := rfl
  have hlisted : ∀ f ∈ (sampleGraph.module ⟨0⟩).funcs, sampleGraph.TargetsListed f := by
    intro f hf
    rw [hfuncs, List.mem_singleton] at hf
    rw [hf]
    exact sampleGraph_targetsListed
  have hcomplete : Config.complete { sub := true, verifyIters := 2 } =
      .ok { sub := true, verifyIters := 2 } := rfl
  exact process_ends (text "a.ir") _ sampleGraph_validate hlisted hcomplete fun _ =>
    Diff.returns_lineSegments

end Processing
end Disguise
