import Disguise.Proofs.Calls

/-!
Statistics. A call is made of as many passes as it was asked for, and each of them counts the ops
that have a rule when it starts. What a call returns is the sum over its passes, what a run over a
module returns is the sum over its functions, and what an engine has on record is the sum over all
its calls.
-/
namespace Disguise
open Disguise.Graph

attribute [ext] Stats

namespace Stats

instance : Zero Stats := ⟨{}⟩

instance : AddCommMonoid Stats where
  add_assoc a b c := by ext <;> exact Nat.add_assoc ..
  zero_add a := by ext <;> exact Nat.zero_add _
  add_zero a := by ext <;> exact Nat.add_zero _
  add_comm a b := by ext <;> exact Nat.add_comm ..
  nsmul := nsmulRec

end Stats

namespace Engine

namespace Tally

theorem append_def (a b : Tally) :
    a ++ b = ⟨a.stats + b.stats, a.lengths ++ b.lengths, a.erased + b.erased⟩ := rfl

theorem append_assoc (a b c : Tally) : a ++ b ++ c = a ++ (b ++ c) := by
  simp only [append_def, add_assoc, List.append_assoc]

theorem empty_append (t : Tally) : ({} : Tally) ++ t = t := by
  simp only [append_def, List.nil_append, Nat.zero_add]
  rw [show ({} : Stats) = 0 from rfl, zero_add]

theorem append_empty (t : Tally) : t ++ {} = t := by
  simp only [append_def, List.append_nil, Nat.add_zero]
  rw [show ({} : Stats) = 0 from rfl, add_zero]

/-- What some passes did together. -/
def sum (ts : List Tally) : Tally := ts.foldr (· ++ ·) {}

end Tally

variable {opts : Options} {g : Graph} {f : FuncId}

theorem foldlM_pure {α σ : Type} {step : σ → α → Choice σ} {l : List α} {s : σ}
    (h : ∀ a ∈ l, step s a = pure s) : l.foldlM step s = pure s := by
  induction l with
  | nil => rfl
  | cons a l ih =>
    rw [List.foldlM_cons, h a (by simp), pure_bind]
    exact ih fun b hb => h b (by simp [hb])

/-- A pass that has nothing to visit does nothing, and so it may be left out. -/
theorem pass_of_idle (h : idle opts g f = true) : pass opts g f = pure (g, {}) := by
  have hrules : ∀ o ∈ g.opsOf f, opts.rules (g.op o).code = [] := by
    simpa [idle, List.all_eq_true, List.isEmpty_iff] using h
  have hblocks : (g.func f).blocks.foldlM (visitBlock opts) { graph := g } =
      pure { graph := g } := by
    refine foldlM_pure fun b hb => ?_
    have hops : (g.block b).ops.foldlM (visit opts) ({ block := b }, { graph := g }) =
        pure ({ block := b }, { graph := g }) := by
      refine foldlM_pure fun o ho => ?_
      simp only [visit, hrules o (mem_opsOf.2 ⟨b, hb, ho⟩)]
    simp only [visitBlock, hops, pure_bind]
    rfl
  simp only [pass, hblocks, pure_bind, List.reverse_nil]
  split <;> rfl

theorem passes_succ (n : Nat) (g : Graph) (t : Tally) : passes opts f (n + 1) g t =
    if idle opts g f then pure (g, t)
    else (do
      let (g, new) ← pass opts g f
      passes opts f n g (t ++ new)) := rfl

theorem passes_of_idle (h : idle opts g f = true) (n : Nat) (t : Tally) :
    passes opts f n g t = pure (g, t) := by
  cases n with
  | zero => rfl
  | succ n => rw [passes_succ, if_pos h]

/-- Passes add to what was done before them. -/
theorem passes_append (n : Nat) (g : Graph) (t t' : Tally) :
    passes opts f n g (t ++ t') = (do
      let (g, new) ← passes opts f n g t'
      pure (g, t ++ new)) := by
  induction n generalizing g t' with
  | zero => rfl
  | succ n ih =>
    rw [passes_succ, passes_succ]
    split
    · rfl
    · simp only [bind_assoc, Tally.append_assoc, ih]

theorem passes_from (n : Nat) (g : Graph) (t : Tally) : passes opts f n g t = (do
    let (g, new) ← passes opts f n g {}
    pure (g, t ++ new)) := by
  rw [← passes_append, Tally.append_empty]

/-- Some passes and then some more are all of them at once. -/
theorem passes_add (a b : Nat) (g : Graph) (t : Tally) :
    passes opts f (a + b) g t = (do
      let (g, t) ← passes opts f a g t
      passes opts f b g t) := by
  induction a generalizing g t with
  | zero => simp [passes]
  | succ a ih =>
    rw [Nat.add_right_comm, passes_succ, passes_succ]
    split
    · rename_i hidle
      rw [pure_bind]
      exact (passes_of_idle hidle b t).symm
    · simp only [bind_assoc, ih]

/-- The passes of a call, one after the other, with what each of them counts. -/
inductive Passing (opts : Options) (f : FuncId) : Graph → Rand → List Tally → Graph → Rand → Prop
  | nil (g : Graph) (r : Rand) : Passing opts f g r [] g r
  | cons {g g₁ g' : Graph} {r r₁ r' : Rand} {t : Tally} {ts : List Tally}
      (now : (pass opts g f).run r = (.ok (g₁, t), r₁)) (counted : Counted opts g f g₁ t)
      (later : Passing opts f g₁ r₁ ts g' r') : Passing opts f g r (t :: ts) g' r'

theorem exists_passing (opts : Options) (wf : g.WellFormed f) (n : Nat) (r : Rand) :
    ∃ ts g' r', ts.length = n ∧ Passing opts f g r ts g' r' ∧
      (passes opts f n g {}).run r = (.ok (g', Tally.sum ts), r') := by
  obtain ⟨_⟩ : Nonempty FloatUnit := inferInstance
  induction n generalizing g r with
  | zero => exact ⟨[], g, r, rfl, .nil g r, rfl⟩
  | succ n ih =>
    obtain ⟨⟨g₁, t⟩, r₁, hnow, htrans, hcounted, -⟩ := always_pass opts wf r
    obtain ⟨ts, g', r', hlen, hlater, hrun⟩ := ih htrans.wellFormed r₁
    refine ⟨t :: ts, g', r', by rw [List.length_cons, hlen], .cons hnow hcounted hlater, ?_⟩
    rw [passes_succ]
    split
    · -- the passes that are left out would have done nothing
      rename_i hidle
      rw [pass_of_idle hidle] at hnow
      cases hnow
      rw [passes_of_idle hidle, Choice.run_pure, Prod.mk.injEq, Except.ok.injEq, Prod.mk.injEq]
        at hrun
      obtain ⟨⟨rfl, hsum⟩, rfl⟩ := hrun
      rw [Tally.sum, List.foldr_cons, Tally.empty_append, ← Tally.sum, ← hsum, Choice.run_pure]
    · rw [Choice.run_bind, hnow]
      dsimp only
      rw [Tally.empty_append, passes_from, Choice.run_bind, hrun]
      rfl

theorem run_work {e : Engine} {n : Nat} {g' : Graph} {t : Tally} {r r' : Rand}
    (h : (passes e.options f n g {}).run r = (.ok (g', t), r')) :
    (e.work g f n).run r = (.ok ({ e with tally := e.tally ++ t }, g', t.stats), r') := by
  rw [work, Choice.run_bind, h]
  rfl

/-- A call makes its passes and returns what they count together. -/
theorem exists_passing_of_work (e : Engine) (wf : g.WellFormed f) (n : Nat) (r : Rand) :
    ∃ ts g' r', ts.length = n ∧ Passing e.options f g r ts g' r' ∧
      (e.work g f n).run r = (.ok ({ e with tally := e.tally ++ Tally.sum ts }, g',
        (ts.map (·.stats)).sum), r') := by
  obtain ⟨ts, g', r', hlen, hpassing, hrun⟩ := exists_passing e.options wf n r
  have hstats : (Tally.sum ts).stats = (ts.map (·.stats)).sum := by
    clear hlen hpassing hrun
    induction ts with
    | nil => rfl
    | cons t ts ih =>
      rw [List.map_cons, List.sum_cons, ← ih]
      rfl
  exact ⟨ts, g', r', hlen, hpassing, hstats ▸ run_work hrun⟩

/-- Two calls in a row do what one call with all their passes does. -/
theorem work_add (e : Engine) (g : Graph) (f : FuncId) (a b : Nat) :
    e.work g f (a + b) = (do
      let (e, g, stats) ← e.work g f a
      let (e, g, stats') ← e.work g f b
      pure (e, g, stats + stats')) := by
  simp only [work, passes_add, bind_assoc, pure_bind]
  refine bind_congr fun p => ?_
  rw [passes_from]
  simp only [bind_assoc, pure_bind, Tally.append_assoc]
  rfl

/-- What is said of a function before it is worked on. -/
def said (sel : Selector) (fn : Func) : List Notice :=
  if sel.passes fn ≤ 0 then [.badPassCount (sel.passes fn)] else (sel.remarks fn).map .remark

/-- Whether a function is worked on. -/
def wanted (sel : Selector) (fn : Func) : Bool := 0 < sel.passes fn && sel.selects fn

theorem foldl_note (e : Engine) (lines : List Bytes) :
    lines.foldl (fun e line => e.note (.remark line)) e =
      { e with notices := e.notices ++ lines.map .remark } := by
  induction lines generalizing e with
  | nil => simp
  | cons line lines ih =>
    rw [List.foldl_cons, ih]
    simp [note]

/-- A run in a form that shows what it depends on. -/
theorem run_eq (e : Engine) (g : Graph) (f : FuncId) (sel : Selector) :
    e.run g f sel =
      if wanted sel (g.func f) then do
        let (g', t) ← passes e.options f (sel.passes (g.func f)).toNat g {}
        pure ({ e with tally := e.tally ++ t, notices := e.notices ++ said sel (g.func f) }, g',
          some t.stats)
      else pure ({ e with notices := e.notices ++ said sel (g.func f) }, g, none) := by
  unfold run
  by_cases hpos : sel.passes (g.func f) ≤ 0
  · simp [wanted, said, hpos, note, Int.not_lt.2 hpos]
  · have hlt : 0 < sel.passes (g.func f) := by omega
    simp only [wanted, said, hpos, hlt, if_false, decide_true, Bool.true_and, foldl_note]
    cases sel.selects (g.func f)
    · rfl
    · simp only [work, Bool.not_true, if_true, bind_assoc, pure_bind]
      rfl

/-- A call with what it returns. -/
def answer (e : Engine) (g : Graph) (m : ModuleId) : Call → Choice (Engine × Graph × Stats)
  | .substitute f => e.substitute g f
  | .run f sel => do
    let (e, g, stats) ← e.run g f sel
    pure (e, g, stats.getD {})
  | .runModule sel => e.runModule g m sel

/-- Calls on the functions of several modules with what each of them returns. -/
def answerAll : List (ModuleId × Call) → Engine → Graph → Choice (Engine × Graph × List Stats)
  | [], e, g => pure (e, g, [])
  | (m, call) :: rest, e, g => do
    let (e, g, stats) ← e.answer g m call
    let (e, g, later) ← answerAll rest e g
    pure (e, g, stats :: later)

/-- The functions that a call may work on. -/
def Call.funcs (g : Graph) (m : ModuleId) : Call → List FuncId
  | .substitute f => [f]
  | .run f _ => [f]
  | .runModule _ => (g.module m).funcs

theorem yields_work (e : Engine) (g : Graph) (f : FuncId) (n : Nat) :
    Yields (e.work g f n) fun r =>
      r.1.options = e.options ∧ r.1.tally.stats = e.tally.stats + r.2.2 := by
  unfold work
  refine Yields.bind (.any _) fun p _ => ?_
  exact .pure ⟨rfl, rfl⟩

theorem yields_run (e : Engine) (g : Graph) (f : FuncId) (sel : Selector) :
    Yields (e.run g f sel) fun r => r.1.tally.stats = e.tally.stats + r.2.2.getD 0 := by
  rw [run_eq]
  refine .ite (fun _ => ?_) fun _ => ?_
  · refine Yields.bind (.any _) fun p _ => ?_
    exact .pure rfl
  · exact .pure (add_zero _).symm

theorem yields_runFuncs (sel : Selector) (fs : List FuncId) (e : Engine) (g : Graph)
    (stats : Stats) : Yields (runFuncs sel fs e g stats) fun r =>
      ∃ s, r.2.2 = stats + s ∧ r.1.tally.stats = e.tally.stats + s := by
  induction fs generalizing e g stats with
  | nil => exact .pure ⟨0, (add_zero _).symm, (add_zero _).symm⟩
  | cons f fs ih =>
    refine (yields_run e g f sel).bind fun ⟨e', g', done⟩ h => ?_
    dsimp only at h
    cases done with
    | none =>
      rw [← add_zero e.tally.stats, ← show e'.tally.stats = e.tally.stats + 0 from h]
      exact ih e' g' stats
    | some s =>
      intro r out r' hrun
      obtain ⟨later, hstats, htally⟩ := ih _ g' (stats + s) r out r' hrun
      refine ⟨s + later, by rw [hstats, add_assoc], ?_⟩
      rw [htally, ← add_assoc]
      exact congrArg (· + later) h

/-- Every call adds to the record what it returns. -/
theorem yields_answer (e : Engine) (g : Graph) (m : ModuleId) (call : Call) :
    Yields (e.answer g m call) fun r => r.1.tally.stats = e.tally.stats + r.2.2 := by
  cases call with
  | substitute f =>
    refine .ite (fun _ => .pure (add_zero _).symm) fun _ => ?_
    exact fun r out r' hrun => (yields_work e g f _ r out r' hrun).2
  | run f sel =>
    refine (yields_run e g f sel).bind fun p hp => ?_
    exact .pure hp
  | runModule sel =>
    intro r out r' hrun
    obtain ⟨s, hstats, htally⟩ := yields_runFuncs sel _ e g 0 r out r' hrun
    rw [hstats, zero_add, htally]

theorem yields_answerAll (calls : List (ModuleId × Call)) (e : Engine) (g : Graph) :
    Yields (answerAll calls e g) fun r => r.1.tally.stats = e.tally.stats + r.2.2.sum := by
  induction calls generalizing e g with
  | nil => exact .pure (add_zero _).symm
  | cons c calls ih =>
    obtain ⟨m, call⟩ := c
    refine (yields_answer e g m call).bind fun ⟨e', g', s⟩ h => ?_
    refine (ih e' g').bind fun ⟨e'', g'', ss⟩ h' => ?_
    refine .pure ?_
    dsimp only at h h' ⊢
    rw [h', h, List.sum_cons, add_assoc]

/-- The functions in `fs` are well-formed in a graph with the modules of `g`. -/
def Holds (g : Graph) (fs : List FuncId) (x : Graph) : Prop :=
  (∀ f ∈ fs, x.WellFormed f) ∧ x.modules = g.modules

theorem Holds.transformed [FloatUnit] {fs : List FuncId} {x y : Graph} (h : Holds g fs x)
    (ht : Transformed x y f) (hf : f ∈ fs) : Holds g fs y :=
  ⟨fun k hk => ht.wellFormed_of (h.1 f hf) (h.1 k hk), ht.frame.modules.trans h.2⟩

/-- Calls on well-formed functions stop at no violation. -/
theorem always_answer (e : Engine) {fs : List FuncId} {x : Graph} {m : ModuleId} {call : Call}
    (h : Holds g fs x) (hcall : ∀ f ∈ call.funcs g m, f ∈ fs) :
    Always (e.answer x m call) fun r => Holds g fs r.2.1 := by
  obtain ⟨_⟩ : Nonempty FloatUnit := inferInstance
  cases call with
  | substitute f =>
    have hf := hcall f (by simp [Call.funcs])
    exact (always_substitute e (h.1 f hf)).mono fun r ht => h.transformed ht hf
  | run f sel =>
    have hf := hcall f (by simp [Call.funcs])
    exact (always_run e sel (h.1 f hf)).bind fun r ht => .pure (h.transformed ht hf)
  | runModule sel =>
    refine always_runFuncs sel (P := Holds g fs) (fun f hf y hy => ?_) e {} h
    have hmem : f ∈ fs := by
      rw [module, h.2] at hf
      exact hcall f hf
    exact ⟨hy.1 f hmem, fun z ht => hy.transformed ht hmem⟩

theorem always_answerAll (calls : List (ModuleId × Call)) (e : Engine) {fs : List FuncId}
    {x : Graph} (h : Holds g fs x) (hcalls : ∀ c ∈ calls, ∀ f ∈ c.2.funcs g c.1, f ∈ fs) :
    Always (answerAll calls e x) fun r => Holds g fs r.2.1 ∧ r.2.2.length = calls.length := by
  induction calls generalizing e x with
  | nil => exact .pure ⟨h, rfl⟩
  | cons c calls ih =>
    obtain ⟨m, call⟩ := c
    refine (always_answer e h (hcalls (m, call) (by simp))).bind fun ⟨e', x', s⟩ h' => ?_
    refine (ih e' h' fun c hc => hcalls c (by simp [hc])).bind fun ⟨e'', x'', ss⟩ ⟨h'', hlen⟩ => ?_
    exact .pure ⟨h'', by rw [List.length_cons, List.length_cons, hlen]⟩

/-- A run over functions returns what the runs on each of them return together. -/
theorem runFuncs_eq_answerAll (sel : Selector) (m : ModuleId) (fs : List FuncId) (e e' : Engine)
    (g : Graph) (stats : Stats) (hopts : e.options = e'.options) (htally : e.tally = e'.tally) :
    (do
      let (e, g, stats) ← runFuncs sel fs e g stats
      pure (e.tally, g, stats) : Choice _) =
    (do
      let (e, g, all) ← answerAll (fs.map fun f => (m, .run f sel)) e' g
      pure (e.tally, g, stats + all.sum)) := by
  induction fs generalizing e e' g stats with
  | nil => simp [runFuncs, answerAll, htally]
  | cons f fs ih =>
    simp only [runFuncs, List.map_cons, answerAll, answer, run_eq]
    split
    · simp only [bind_assoc, pure_bind, hopts, htally]
      refine bind_congr fun p => ?_
      simp only [Option.getD_some, List.sum_cons, ← add_assoc]
      exact ih _ _ _ _ rfl rfl
    · simp only [bind_assoc, pure_bind]
      have hzero : ∀ all : List Stats, ((none : Option Stats).getD {} :: all).sum = all.sum := by
        intro all
        rw [List.sum_cons]
        exact zero_add _
      simp only [hzero]
      exact ih _ _ _ _ hopts htally

/-- Statistics count exactly what was replaced. A call on an accepted function makes the passes that
it was asked for, and each pass counts the ops whose code has an enabled rule as it finds them, be
they reached or not; the function grows by the chains that were placed and shrinks by the ops that
were replaced if dead ops are erased. After any calls the engine has on record what they returned
together, a run over a module returns what the runs over its functions return together, and passes
may be spread over calls in any way. -/
theorem counts_what_is_replaced {g : Graph} {f : FuncId} {calls : List (ModuleId × Call)}
    (hv : g.validateFunc f = .ok ())
    (hcalls : ∀ c ∈ calls, ∀ k ∈ c.2.funcs g c.1, g.validateFunc k = .ok ()) (e : Engine) :
    (∀ n r, ∃ ts g' r', ts.length = n ∧ Passing e.options f g r ts g' r' ∧
      (e.work g f n).run r = (.ok ({ e with tally := e.tally ++ Tally.sum ts }, g',
        (ts.map (·.stats)).sum), r')) ∧
    Always (answerAll calls e g) (fun r => r.2.2.length = calls.length ∧
      r.1.tally.stats = e.tally.stats + r.2.2.sum) ∧
    (∀ others x, Yields (answerAll others e x) fun r =>
      r.1.tally.stats = e.tally.stats + r.2.2.sum) ∧
    (∀ x m sel,
      (do
        let (e, x, stats) ← e.runModule x m sel
        pure (e.tally, x, stats) : Choice _) =
      (do
        let (e, x, all) ← answerAll ((x.module m).funcs.map fun k => (m, .run k sel)) e x
        pure (e.tally, x, all.sum))) ∧
    ∀ x k a b, e.work x k (a + b) = (do
      let (e, x, stats) ← e.work x k a
      let (e, x, stats') ← e.work x k b
      pure (e, x, stats + stats')) := by
  have hwf := validateFunc_eq_ok.1 hv
  refine ⟨exists_passing_of_work e hwf, fun r => ?_, fun others x => yields_answerAll others e x,
    fun x m sel => ?_, fun x k => work_add e x k⟩
  · have hholds : Holds g (calls.flatMap fun c => c.2.funcs g c.1) g := by
      refine ⟨fun k hk => ?_, rfl⟩
      obtain ⟨c, hc, hkc⟩ := List.mem_flatMap.1 hk
      exact validateFunc_eq_ok.1 (hcalls c hc k hkc)
    obtain ⟨out, r', hrun, -, hlen⟩ := always_answerAll calls e hholds
      (fun c hc k hk => List.mem_flatMap.2 ⟨c, hc, hk⟩) r
    exact ⟨out, r', hrun, hlen, yields_answerAll calls e g r out r' hrun⟩
  · have heq := runFuncs_eq_answerAll sel m (x.module m).funcs e e x 0 rfl rfl
    simp only [zero_add] at heq
    exact heq

end Engine

theorem sampleGraph_counts_what_is_replaced :
    let e : Engine := { options := { eraseDead := true } }
    let sel : Selector := { selects := fun _ => true, passes := fun _ => 2 }
    (∀ n r, ∃ ts g' r', ts.length = n ∧ Engine.Passing e.options ⟨0⟩ sampleGraph r ts g' r' ∧
      (e.work sampleGraph ⟨0⟩ n).run r =
        (.ok ({ e with tally := e.tally ++ Engine.Tally.sum ts }, g',
        (ts.map (·.stats)).sum), r')) ∧
    Always (Engine.answerAll [(⟨0⟩, .run ⟨0⟩ sel), (⟨0⟩, .runModule sel)] e sampleGraph) fun r =>
      r.2.2.length = 2 ∧ r.1.tally.stats = e.tally.stats + r.2.2.sum := by
  intro e sel
  have hfuncs : (sampleGraph.module ⟨0⟩).funcs = [⟨0⟩] := rfl
  have hcalls : ∀ c ∈ [((⟨0⟩ : ModuleId), Engine.Call.run ⟨0⟩ sel), (⟨0⟩, .runModule sel)],
      ∀ k ∈ c.2.funcs sampleGraph c.1, sampleGraph.validateFunc k = .ok () := by
    intro c hc k hk
    have hzero : k = ⟨0⟩ := by
      simp only [List.mem_cons, List.not_mem_nil, or_false] at hc
      rcases hc with rfl | rfl <;> simpa [Engine.Call.funcs, hfuncs] using hk
    rw [hzero]
    exact sampleGraph_validateFunc
  have h := Engine.counts_what_is_replaced sampleGraph_validateFunc hcalls e
  exact ⟨h.1, h.2.1⟩

end Disguise
