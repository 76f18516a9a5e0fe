import Disguise.Proofs.Calls
import Disguise.Proofs.Regions
import Disguise.Proofs.Sessions

/-!
Work that stays in a region. Whatever choices an engine makes, it rewrites the functions it is
called on and nothing else, and so does a session whose edits are given parts of the region. The
functions need not be well-formed for that.
-/
namespace Disguise
open Results

namespace Region
variable {T : Region} {x y z : Graph} {e : Editor}

theorem ForEditor.queued_insert (h : T.ForEditor e) (ref : OpId) {ops : List OpId}
    (hops : ∀ o ∈ ops, T.ops o.idx) (n : Int) :
    T.ForEditor { e with queue := e.queue ++ [(ref, ops)], pending := n } := by
  refine ⟨h.block, fun entry hentry => ?_⟩
  rcases List.mem_append.1 hentry with hentry | hentry
  · exact h.queued entry hentry
  · rw [List.mem_singleton.1 hentry]
    exact hops

namespace Confined
variable (h : T.Confined x y)
include h

theorem queue (he : T.ForEditor e) {ref : OpId} {ops : List OpId} (hops : ∀ o ∈ ops, T.ops o.idx)
    {r : Editor × Graph} (hok : e.insertBefore y ref ops = .ok r) :
    T.ForEditor r.1 ∧ T.Confined x r.2 := by
  unfold Editor.insertBefore at hok
  rw [ite_error_eq_ok, bind_eq_ok] at hok
  obtain ⟨-, y', hattach, hok⟩ := hok
  obtain rfl := pure_eq_ok.1 hok
  exact ⟨he.queued_insert ref hops _, h.attach he.block hops hattach⟩

theorem commit (he : T.ForEditor e) {r : Editor × Graph} (hok : e.commit y = .ok r) :
    T.ForEditor r.1 ∧ T.Confined x r.2 := by
  unfold Editor.commit at hok
  dsimp only at hok
  split at hok
  · obtain rfl := Except.ok.inj hok
    exact ⟨he, h⟩
  · rw [ite_error_eq_ok] at hok
    obtain rfl := Except.ok.inj hok.2
    refine ⟨⟨he.block, by simp⟩, h.modifyBlock he.block fun u hu => ?_⟩
    obtain ⟨o, ho, hu⟩ := List.mem_flatMap.1 hu
    rcases List.mem_append.1 hu with hu | hu
    · obtain ⟨entry, hentry, hu⟩ := List.mem_flatMap.1 hu
      exact he.queued entry (List.mem_of_mem_filter hentry) u hu
    · rw [List.mem_singleton.1 hu]
      exact h.blocks.holds _ he.block o ho

/-- The ops of a chain are new, and they use each other and the operands that are given. -/
theorem create (bits : Int) {v w : Option Operand} (hv : ∀ u, v = some u → T.Has u)
    (hw : ∀ u, w = some u → T.Has u) (c : Chain) :
    T.Confined x (Substitution.create y bits v w c).1 ∧
      (∀ o ∈ (Substitution.create y bits v w c).2.1, T.ops o.idx) ∧
      ∀ u, (Substitution.create y bits v w c).2.2 = some u → T.Has u := by
  have hnew : ∀ i, T.ops (y.ops.size + i) := fun i => h.ops.free _ (Nat.le_add_right _ _)
  have hsteps : ∀ operand : Term → Option Operand, (∀ t u, operand t = some u → T.Has u) →
      T.Confined x (c.steps.foldl
        (fun y s => (y.newOp s.code bits (s.args.map operand) []).1) y) ∧
      ∀ u, operand c.result = some u → T.Has u := by
    intro operand hoperand
    refine ⟨?_, hoperand c.result⟩
    refine List.foldlRecOn c.steps _ (motive := fun y => T.Confined x y) h fun y hy s _ =>
      hy.newOp fun u hu => ?_
    obtain ⟨t, -, ht⟩ := List.mem_map.1 hu
    exact hoperand t u ht
  have hown : ∀ o ∈ (Substitution.create y bits v w c).2.1, T.ops o.idx := by
    intro o ho
    obtain ⟨i, -, rfl⟩ := List.mem_map.1 ho
    exact hnew i
  refine and_left_comm.1 ⟨hown, hsteps _ ?_⟩
  rintro (_ | _ | k | i) u hu
  · exact hv u hu
  · exact hw u hu
  · cases hu
    trivial
  · cases hu
    exact hnew i

theorem yields_applyQueued (rule : Rule) (he : T.ForEditor e) {o : OpId} (ho : T.ops o.idx)
    (expand : Bool) : Yields (Substitution.applyQueued rule e y o expand) fun r =>
      ∀ e' z n, r = some (e', z, n) → T.ForEditor e' ∧ T.Confined x z := by
  have harg : ∀ i u, (y.op o).args.getD i none = some u → T.Has u := by
    intro i u hu
    refine (h.op ho).args u ?_
    rw [List.getD_eq_getElem?_getD] at hu
    cases hi : (y.op o).args[i]? with
    | none => simp [hi] at hu
    | some v =>
      rw [hi, Option.getD_some] at hu
      exact hu ▸ List.mem_of_getElem? hi
  unfold Substitution.applyQueued
  refine Yields.ite (fun _ => .pure (by simp)) fun _ => ?_
  unfold Substitution.prepare
  simp only [bind_assoc, pure_bind]
  refine Yields.bind (.any _) fun c _ => ?_
  obtain ⟨hcreated, hops, hresult⟩ := h.create (y.op o).bits (harg 0) (harg 1) c
  refine Yields.bind (.lift fun r hr => hcreated.queue he hops hr) ?_
  rintro ⟨e', y'⟩ ⟨he', hy'⟩
  refine Yields.bind (.lift fun z hz => hy'.replaceAllUses ho hresult hz) fun z hz => ?_
  refine .pure fun e₁ z₁ n heq => ?_
  cases heq
  exact ⟨he', hz⟩

end Confined

/-- A pass that is confined to a region. -/
structure ForProgress (T : Region) (x : Graph) (p : Engine.Progress) : Prop where
  graph : T.Confined x p.graph
  replaced : ∀ o ∈ p.replaced, T.ops o.idx

namespace ForProgress
variable {p : Engine.Progress} (h : T.ForProgress x p) (opts : Engine.Options)
include h

theorem yields_visit (he : T.ForEditor e) {o : OpId} (ho : T.ops o.idx) :
    Yields (Engine.visit opts (e, p) o) fun s => T.ForEditor s.1 ∧ T.ForProgress x s.2 := by
  unfold Engine.visit
  dsimp only
  split
  · exact .pure ⟨he, h⟩
  · refine Yields.bind (.any _) fun i _ => ?_
    refine Yields.bind (h.graph.yields_applyQueued _ he ho _) fun r hr => ?_
    split
    · exact .pure ⟨he, h⟩
    · obtain ⟨he', hgraph⟩ := hr _ _ _ rfl
      refine .pure ⟨he', hgraph, fun u hu => ?_⟩
      rcases List.mem_cons.1 hu with rfl | hu
      · exact ho
      · exact h.replaced u hu

theorem yields_visitBlock {b : BlockId} (hb : T.blocks b.idx) :
    Yields (Engine.visitBlock opts p b) (T.ForProgress x) := by
  have hops := h.graph.blocks.holds _ hb
  have hvisits : Yields ((p.graph.block b).ops.foldlM (Engine.visit opts) ({ block := b }, p))
      fun s => T.ForEditor s.1 ∧ T.ForProgress x s.2 :=
    .foldlM ⟨⟨hb, by simp⟩, h⟩ fun o ho s hs => hs.2.yields_visit opts hs.1 (hops o ho)
  refine Yields.bind hvisits ?_
  rintro ⟨e, p'⟩ ⟨he, hp'⟩
  refine Yields.bind (.lift fun r hr => (hp'.graph.commit he hr).2) ?_
  rintro ⟨e', z⟩ hz
  exact .pure ⟨hz, hp'.replaced⟩

end ForProgress

namespace Confined
variable (h : T.Confined x y)
include h

theorem yields_pass (opts : Engine.Options) {f : FuncId} (hf : T.funcs f.idx) :
    Yields (Engine.pass opts y f) fun r => T.Confined x r.1 := by
  have hblocks : Yields ((y.func f).blocks.foldlM (Engine.visitBlock opts) { graph := y })
      (T.ForProgress x) :=
    .foldlM ⟨h, by simp⟩ fun b hb p hp =>
      hp.yields_visitBlock opts ((h.funcs.holds _ hf).blocks b hb)
  unfold Engine.pass
  refine Yields.bind hblocks fun p hp => ?_
  refine Yields.ite (fun _ => ?_) fun _ => .pure hp.graph
  refine Yields.bind (P := fun r : Graph × Nat => T.Confined x r.1) (.lift ?_) fun r hr => .pure hr
  rintro ⟨z, n⟩ hz
  exact hp.graph.removeDead (fun o ho => hp.replaced o (List.mem_reverse.1 ho)) hz

theorem yields_passes (opts : Engine.Options) {f : FuncId} (hf : T.funcs f.idx) (n : Nat)
    (t : Engine.Tally) : Yields (Engine.passes opts f n y t) fun r => T.Confined x r.1 := by
  induction n generalizing y t with
  | zero => exact .pure h
  | succ n ih =>
    unfold Engine.passes
    refine Yields.ite (fun _ => .pure h) fun _ => ?_
    exact Yields.bind (h.yields_pass opts hf) fun r hr => ih hr _

theorem yields_work (engine : Engine) {f : FuncId} (hf : T.funcs f.idx) (count : Nat) :
    Yields (engine.work y f count) fun r => T.Confined x r.2.1 :=
  Yields.bind (h.yields_passes engine.options hf count {}) fun _ hr => .pure hr

theorem yields_run (engine : Engine) {f : FuncId} (hf : T.funcs f.idx) (sel : Selector) :
    Yields (engine.run y f sel) fun r => T.Confined x r.2.1 := by
  unfold Engine.run
  refine Yields.ite (fun _ => .pure h) fun _ => ?_
  refine Yields.ite (fun _ => .pure h) fun _ => ?_
  exact Yields.bind (h.yields_work _ hf _) fun _ hr => .pure hr

theorem yields_runFuncs (sel : Selector) {fs : List FuncId} (hfs : ∀ f ∈ fs, T.funcs f.idx)
    (engine : Engine) (stats : Stats) :
    Yields (Engine.runFuncs sel fs engine y stats) fun r => T.Confined x r.2.1 := by
  induction fs generalizing y engine stats with
  | nil => exact .pure h
  | cons f fs ih =>
    unfold Engine.runFuncs
    refine Yields.bind (h.yields_run engine (hfs f (by simp)) sel) ?_
    rintro ⟨engine', y', done⟩ hy'
    have hrest := fun k hk => hfs k (List.mem_cons_of_mem f hk)
    cases done with
    | none => exact ih hy' hrest _ _
    | some s => exact ih hy' hrest _ _

end Confined
end Region

/-- A call that is for functions of a region; it is made on module `m`. -/
def Engine.Call.In (T : Region) (m : ModuleId) : Engine.Call → Prop
  | .substitute f | .run f _ => T.funcs f.idx
  | .runModule _ => T.modules m.idx

/-- Calls for functions of a region stay in it. -/
theorem Region.Confined.yields_perform {T : Region} {x y : Graph} (h : T.Confined x y)
    (engine : Engine) {m : ModuleId} {call : Engine.Call} (hcall : call.In T m) :
    Yields (engine.perform y m call) fun r => T.Confined x r.2 := by
  cases call with
  | substitute f =>
    refine Yields.bind (P := fun r => T.Confined x r.2.1) ?_ fun _ hr => .pure hr
    exact Yields.ite (fun _ => .pure h) fun _ => h.yields_work engine hcall _
  | run f sel => exact Yields.bind (h.yields_run engine hcall sel) fun _ hr => .pure hr
  | runModule sel =>
    exact Yields.bind (h.yields_runFuncs sel (h.modules.holds _ hcall) engine {}) fun _ hr =>
      .pure hr

namespace Session
variable {T : Region} {x : Graph} {s t : Session}

/-- An edit that is given parts of a region only. Branch targets are not written to, nor are
insertion points, so they are free. -/
def Edit.In (T : Region) : Edit → Prop
  | .newFunc f => T.ForFunc f
  | .newModule => True
  | .addFunc m f => T.modules m.idx ∧ T.funcs f.idx
  | .newParam _ _ _ => True
  | .addBlock f _ => T.funcs f.idx
  | .newOp _ _ args _ => ∀ v, some v ∈ args → T.Has v
  | .append b ops | .insertBefore b _ ops | .insertAfter b _ ops =>
    T.blocks b.idx ∧ ∀ o ∈ ops, T.ops o.idx
  | .setArg o _ v | .replaceAllUses o v => T.ops o.idx ∧ ∀ w, v = some w → T.Has w
  | .remove o => T.ops o.idx
  | .removeDead ops => ∀ o ∈ ops, T.ops o.idx
  | .edit b => T.blocks b.idx
  | .queue _ _ ops => ∀ o ∈ ops, T.ops o.idx
  | .commit _ => True

/-- The states that edits in a region and calls of engines on its functions lead to, in any
order. -/
inductive Works (T : Region) (s : Session) : Session → Prop
  | here : Works T s s
  | edit {t u : Session} (before : Works T s t) (e : Edit) (mine : e.In T)
      (now : t.perform e = .ok u) : Works T s u
  | call {t : Session} {g : Graph} {r r' : Rand} (before : Works T s t) (engine engine' : Engine)
      (m : ModuleId) (c : Engine.Call) (mine : c.In T m)
      (now : (engine.perform t.graph m c).run r = (.ok (engine', g), r')) :
      Works T s (t.withGraph g)

/-- A session that has stayed in a region, with editors that are open there. -/
structure Confined (T : Region) (x : Graph) (s : Session) : Prop where
  graph : T.Confined x s.graph
  editors : ∀ e ∈ s.editors, T.ForEditor e

theorem Confined.withGraph (h : s.Confined T x) {g : Graph} (hg : T.Confined x g) :
    (s.withGraph g).Confined T x :=
  ⟨hg, h.editors⟩

theorem Confined.set (h : s.Confined T x) {g : Graph} (hg : T.Confined x g) {e : Editor}
    (he : T.ForEditor e) (k : Nat) : Confined T x ⟨g, s.editors.set k e⟩ := by
  refine ⟨hg, fun d hd => ?_⟩
  rcases List.mem_or_eq_of_mem_set hd with hd | rfl
  · exact h.editors d hd
  · exact he

/-- An edit in the region stays in it. -/
theorem Confined.perform (h : s.Confined T x) {e : Edit} (he : e.In T)
    (hok : s.perform e = .ok t) : t.Confined T x := by
  have hgraph := h.graph
  have lift : ∀ {r : Except Violation Graph}, (∀ g, r = .ok g → T.Confined x g) →
      s.withGraph <$> r = .ok t → t.Confined T x := by
    rintro r hr hok
    obtain ⟨g, hg, rfl⟩ := map_eq_ok.1 hok
    exact h.withGraph (hr g hg)
  cases e with
  | newFunc f => cases hok; exact h.withGraph (hgraph.newFunc he)
  | newModule => cases hok; exact h.withGraph hgraph.newModule
  | addFunc m f => cases hok; exact h.withGraph (hgraph.addFunc he.1 he.2)
  | newParam name bits func => cases hok; exact h.withGraph (hgraph.newParam name bits func)
  | addBlock f name => cases hok; exact h.withGraph (hgraph.addBlock he name)
  | newOp code bits args targets => cases hok; exact h.withGraph (hgraph.newOp he)
  | append b ops => exact lift (fun g hg => hgraph.insertAt he.1 he.2 hg) hok
  | insertBefore b ref ops => exact lift (fun g hg => hgraph.insertBefore he.1 he.2 hg) hok
  | insertAfter b ref ops => exact lift (fun g hg => hgraph.insertAfter he.1 he.2 hg) hok
  | setArg o i v => exact lift (fun g hg => hgraph.setArg he.1 he.2 hg) hok
  | replaceAllUses o v => exact lift (fun g hg => hgraph.replaceAllUses he.1 he.2 hg) hok
  | remove o =>
    simp only [Session.perform, bind_eq_ok] at hok
    obtain ⟨r, hr, hok⟩ := hok
    cases r with
    | error refusal =>
      cases hok
      exact h
    | ok g =>
      cases hok
      exact h.withGraph (hgraph.remove he hr)
  | removeDead ops =>
    obtain ⟨r, hr, rfl⟩ := map_eq_ok.1 hok
    exact h.withGraph (hgraph.removeDead (n := r.2) he hr)
  | edit b =>
    cases hok
    refine ⟨hgraph, fun d hd => ?_⟩
    rcases List.mem_append.1 hd with hd | hd
    · exact h.editors d hd
    · rw [List.mem_singleton.1 hd]
      exact ⟨he, by simp⟩
  | queue k ref ops =>
    simp only [Session.perform] at hok
    split at hok
    · cases hok
    · rename_i d hk
      rw [bind_eq_ok] at hok
      obtain ⟨⟨d', g⟩, hqueue, hok⟩ := hok
      obtain rfl := pure_eq_ok.1 hok
      obtain ⟨hd', hg⟩ := hgraph.queue (h.editors d (List.mem_of_getElem? hk)) he hqueue
      exact h.set hg hd' k
  | commit k =>
    simp only [Session.perform] at hok
    split at hok
    · cases hok
    · rename_i d hk
      rw [bind_eq_ok] at hok
      obtain ⟨⟨d', g⟩, hcommit, hok⟩ := hok
      obtain rfl := pure_eq_ok.1 hok
      obtain ⟨hd', hg⟩ := hgraph.commit (h.editors d (List.mem_of_getElem? hk)) hcommit
      exact h.set hg hd' k

/-- So do all of them, with calls of engines in between. -/
theorem Confined.works (h : s.Confined T x) (hw : s.Works T t) : t.Confined T x := by
  induction hw with
  | here => exact h
  | edit _ e mine now ih => exact ih.perform mine now
  | call _ engine engine' m c mine now ih =>
    exact ih.withGraph (ih.graph.yields_perform engine mine _ _ _ now)

end Session
end Disguise
