import Disguise.Proofs.Lines
import Disguise.Proofs.Sessions

/-!
Programs that are read. A function that has been read is put into the graph part by part, and what
is there before stays as it is, so a graph that holds only what has been read is exact.
-/
namespace Disguise
open Results

/-- A table with more entries at its end. -/
def Table.pushAll {α : Type} (t : Table α) (l : List α) : Table α := l.foldl Table.push t

namespace Graph
variable {g g' : Graph}

/-- An exact graph in which nothing waits and only the first `ops` ops and the first `blocks`
blocks are in use. -/
structure Filled (g : Graph) (blocks ops : Nat) : Prop where
  exact : g.Exact fun _ => []
  listed : ∀ b, ∀ o ∈ (g.block b).ops, o.idx < ops
  empty : ∀ b : BlockId, blocks ≤ b.idx → (g.block b).ops = []

theorem Exact.filled (h : g.Exact fun _ => []) : g.Filled g.blocks.size g.ops.size where
  exact := h
  listed b o ho := by
    by_contra hle
    have hblock := h.block_of_mem ho
    rw [Graph.op, g.ops.get_of_size_le (Nat.le_of_not_lt hle)] at hblock
    cases hblock
  empty b hb := by
    rw [Graph.block, g.blocks.get_of_size_le hb]
    rfl

/-- Nothing that counts changes when the lists of the blocks do not. -/
theorem Filled.congr {blocks ops : Nat} (h : g.Filled blocks ops) (he : g'.Exact fun _ => [])
    (hops : ∀ b, (g'.block b).ops = (g.block b).ops) : g'.Filled blocks ops where
  exact := he
  listed b := by
    rw [hops b]
    exact h.listed b
  empty b hb := by
    rw [hops b]
    exact h.empty b hb

theorem Filled.newOp {blocks ops : Nat} (h : g.Filled blocks ops) (code : Opcode) (bits : Int)
    (args : List (Option Operand)) (targets : List (Option BlockId)) :
    (g.newOp code bits args targets).1.Filled blocks ops :=
  h.congr (h.exact.newOp code bits args targets) fun _ => rfl

theorem Filled.newParam {blocks ops : Nat} (h : g.Filled blocks ops) (name : Bytes) (bits : Int)
    (func : Option FuncId) : (g.newParam name bits func).1.Filled blocks ops :=
  h.congr (h.exact.newParam name bits func) fun _ => rfl

theorem Filled.newBlock {blocks ops : Nat} (h : g.Filled blocks ops) (f : FuncId) (name : Bytes) :
    (g.newBlock f name).1.Filled blocks ops := by
  refine h.congr (h.exact.newBlock f name) fun b => ?_
  simp only [Graph.newBlock, Graph.block, Table.get_push]
  split
  · rename_i hb
    rw [hb, g.blocks.get_of_size_le (Nat.le_refl _)]
    rfl
  · rfl

theorem foldl_enlist {b : BlockId} {ops : List OpId} (h : g.attach b ops = .ok g') :
    ops.foldl (fun g o => g.enlist b o) g = g' := by
  induction ops generalizing g with
  | nil => exact Except.ok.inj h
  | cons o ops ih =>
    simp only [attach, List.foldlM_cons, attachOp] at h
    cases hblock : (g.op o).block with
    | some c => simp [hblock, bind, Except.bind] at h
    | none =>
      rw [hblock] at h
      exact ih h

/-- Ops that follow each other in the table. -/
def opsFrom (first count : Nat) : List OpId := (List.range count).map fun i => ⟨first + i⟩

theorem mem_opsFrom {first count : Nat} {o : OpId} (h : o ∈ opsFrom first count) :
    first ≤ o.idx ∧ o.idx < first + count := by
  obtain ⟨i, hi, rfl⟩ := List.mem_map.1 h
  have := List.mem_range.1 hi
  dsimp only
  omega

theorem Filled.loose {blocks ops : Nat} (h : g.Filled blocks ops) (count : Nat) :
    g.Loose (opsFrom ops count) := by
  refine ⟨List.nodup_range.map fun i j hij => ?_, fun o ho => ?_⟩
  · have := OpId.idx_inj.2 hij
    dsimp only at this
    omega
  · cases hblock : (g.op o).block with
    | none => rfl
    | some b =>
      have := h.listed b o ((h.exact.block_iff.1 hblock).resolve_right (by simp))
      have := (mem_opsFrom ho).1
      omega

/-- The next block gets the next ops. -/
theorem Filled.fill {blocks ops : Nat} (h : g.Filled blocks ops) (count : Nat) :
    let new := opsFrom ops count
    ((new.foldl (fun g o => g.enlist ⟨blocks⟩ o) g).modifyBlock ⟨blocks⟩ fun bl =>
      { bl with ops := new }).Filled (blocks + 1) (ops + count) := by
  intro new
  have hmem : ∀ o ∈ new, ops ≤ o.idx ∧ o.idx < ops + count := fun o => mem_opsFrom
  have hloose : g.Loose new := h.loose count
  obtain ⟨g', hok, hblocks, hexact⟩ := h.exact.attach hloose ⟨blocks⟩
  have hops : ∀ b, (g'.block b).ops = (g.block b).ops := fun b => by
    rw [Graph.block, Graph.block, hblocks]
  rw [foldl_enlist hok]
  refine ⟨hexact.relist (fun o => ?_) fun c hc o => ?_, fun b o ho => ?_, fun b hb => ?_⟩
  · simp [hops, h.empty ⟨blocks⟩ (Nat.le_refl _)]
  · simp [hc]
  · rw [block_modifyBlock] at ho
    split at ho
    · exact (hmem o ho).2
    · rw [hops] at ho
      exact Nat.lt_of_lt_of_le (h.listed b o ho) (Nat.le_add_right _ _)
  · rw [block_modifyBlock, if_neg, hops]
    · exact h.empty b (by omega)
    · rintro rfl
      dsimp only at hb
      omega

theorem foldl_newParam (f : FuncId) (l : List (Bytes × Int)) (g : Graph) :
    l.foldl (fun g p => (g.newParam p.1 p.2 (some f)).1) g =
      { g with params := g.params.pushAll (l.map fun p =>
        { func := some f, name := p.1, bits := p.2 }) } := by
  induction l generalizing g with
  | nil => rfl
  | cons p l ih => exact ih _

theorem foldl_newBlock {α : Type} (f : FuncId) (name : α → Bytes) (l : List α) (g : Graph) :
    l.foldl (fun g b => (g.newBlock f (name b)).1) g =
      { g with
        blocks := g.blocks.pushAll (l.map fun b => { owner := some f, name := name b }) } := by
  induction l generalizing g with
  | nil => rfl
  | cons b l ih => exact ih _

theorem foldl_newOp {α : Type} (code : α → Opcode) (bits : α → Int)
    (args : α → List (Option Operand)) (targets : α → List (Option BlockId)) (l : List α)
    (g : Graph) :
    l.foldl (fun g o => (g.newOp (code o) (bits o) (args o) (targets o)).1) g =
      { g with ops := g.ops.pushAll (l.map fun o =>
        { code := code o, bits := bits o, args := args o, targets := targets o }) } := by
  induction l generalizing g with
  | nil => rfl
  | cons o l ih => exact ih _

end Graph

namespace Syntax
open Disguise.Graph

namespace Draft

/-- The operand behind a name; the parts of the function get the first free numbers. -/
def resolve (x : Graph) (d : Draft) : DraftArg → Option Operand
  | .const c => some (.const c)
  | .named name => (d.values.find? name).map fun
    | .param i => .param ⟨x.params.size + i⟩
    | .op i => .result ⟨x.ops.size + i⟩

/-- The block behind a name. -/
def resolveTarget (x : Graph) (d : Draft) (name : Bytes) : Option BlockId :=
  (d.labels.find? name).map fun i => ⟨x.blocks.size + i⟩

/-- An op with its names resolved. -/
def link (x : Graph) (d : Draft) (op : DraftOp) : Op where
  code := op.code
  bits := op.bits
  args := op.args.map (d.resolve x)
  targets := op.targets.map (d.resolveTarget x)

/-- What a draft says of its function. -/
def head (x : Graph) (m : ModuleId) (d : Draft) : Func where
  owner := some m
  name := d.header.name
  retBits := d.header.retBits
  annotation := d.header.annotation
  metadata := d.header.metadata
  external := d.header.external
  params := (List.range d.header.params.length).map fun i => ⟨x.params.size + i⟩
  blocks := (List.range d.body.length).map fun i => ⟨x.blocks.size + i⟩

/-- All parts of a function are there, and its ops stand in no block yet. -/
def laid (x : Graph) (m : ModuleId) (d : Draft) : Graph where
  ops := x.ops.pushAll (d.ops.map (d.link x))
  params := x.params.pushAll (d.header.params.map fun p =>
    { func := some ⟨x.funcs.size⟩, name := p.1, bits := p.2 })
  blocks := x.blocks.pushAll (d.body.map fun b => { owner := some ⟨x.funcs.size⟩, name := b.1 })
  funcs := x.funcs.push (d.head x m)
  modules := x.modules

/-- The next block gets its ops. -/
def fillNext (s : Graph × Nat × Nat) (b : Bytes × List DraftOp) : Graph × Nat × Nat :=
  let new := opsFrom s.2.2 b.2.length
  ((new.foldl (fun g o => g.enlist ⟨s.2.1⟩ o) s.1).modifyBlock ⟨s.2.1⟩ fun bl =>
    { bl with ops := new }, s.2.1 + 1, s.2.2 + b.2.length)

/-- The parts of a function are made one kind after the other. -/
theorem laid_eq (x : Graph) (m : ModuleId) (d : Draft) :
    d.ops.foldl (fun g op => (g.newOp op.code op.bits (op.args.map (d.resolve x))
      (op.targets.map (d.resolveTarget x))).1)
      (d.body.foldl (fun g b => (g.newBlock ⟨x.funcs.size⟩ b.1).1)
        (d.header.params.foldl (fun g p => (g.newParam p.1 p.2 (some ⟨x.funcs.size⟩)).1)
          { x with funcs := x.funcs.push (d.head x m) })) = d.laid x m := by
  rw [foldl_newParam, foldl_newBlock _ (fun b : Bytes × List DraftOp => b.1),
    foldl_newOp DraftOp.code DraftOp.bits (fun op => op.args.map (d.resolve x))
      fun op => op.targets.map (d.resolveTarget x)]
  rfl

theorem build_eq (d : Draft) (x : Graph) (m : ModuleId) : d.build x m =
    ((d.body.foldl fillNext (d.laid x m, x.blocks.size, x.ops.size)).1, ⟨x.funcs.size⟩) := by
  rw [← laid_eq]
  rfl

/-- New params, blocks and ops leave a graph exact. -/
theorem filled_laid {x : Graph} (d : Draft) (m : ModuleId) (h : x.Exact fun _ => []) :
    (d.laid x m).Filled x.blocks.size x.ops.size := by
  have keep : ∀ {α : Type} (step : Graph → α → Graph) (l : List α) (g : Graph),
      (∀ g a, g.Filled x.blocks.size x.ops.size → (step g a).Filled x.blocks.size x.ops.size) →
      g.Filled x.blocks.size x.ops.size → (l.foldl step g).Filled x.blocks.size x.ops.size :=
    fun step l g hstep hg => List.foldlRecOn l step hg fun g hg a _ => hstep g a hg
  rw [← laid_eq]
  refine keep _ _ _ (fun g op hg => hg.newOp _ _ _ _) ?_
  refine keep _ _ _ (fun g b hg => hg.newBlock _ _) ?_
  refine keep _ _ _ (fun g p hg => hg.newParam _ _ _) ?_
  exact h.filled.congr (h.withFuncs _ _) fun _ => rfl

/-- A function that is put into an exact graph leaves it exact. -/
theorem build_exact {x : Graph} (d : Draft) (m : ModuleId) (h : x.Exact fun _ => []) :
    (d.build x m).1.Exact fun _ => [] := by
  rw [build_eq]
  refine List.foldlRecOn (motive := fun s : Graph × Nat × Nat => s.1.Filled s.2.1 s.2.2)
    d.body fillNext (filled_laid d m h) ?_ |>.exact
  rintro ⟨g, bi, oi⟩ hg b -
  exact hg.fill b.2.length

end Draft

/-- What a line does to a module that is being read. -/
inductive Reading.Next (s : Reading) : Reading → Prop
  | skip : Next s s
  | opened {h : Header} {rest left : Bytes} (outside : s.draft = none)
      (read : header rest = .ok (h, left)) (body : h.hasBody) :
      Next s { s with draft := some (.start h) }
  | declared {h : Header} {rest left : Bytes} (outside : s.draft = none)
      (read : header rest = .ok (h, left)) (body : h.hasBody = false) :
      Next s { s with
        graph := ((Draft.start h).build s.graph s.module).1
        funcs := ((Draft.start h).build s.graph s.module).2 :: s.funcs }
  | closed {d : Draft} (inside : s.draft = some d) (resolved : d.unresolved = none)
      (nonempty : d.blocks ≠ []) :
      Next s { s with
        graph := (d.build s.graph s.module).1
        funcs := (d.build s.graph s.module).2 :: s.funcs
        draft := none }
  | grown {d d' : Draft} {number : Nat} {line rest : Bytes} (inside : s.draft = some d)
      (read : d.addLine number line rest = .ok d') : Next s { s with draft := some d' }

theorem Draft.finish_eq_ok {d : Draft} {g : Graph} {m : ModuleId} {r : Graph × FuncId} :
    d.finish g m = .ok r ↔ d.unresolved = none ∧ d.blocks ≠ [] ∧ d.build g m = r := by
  unfold Draft.finish
  cases d.unresolved with
  | some e => simp
  | none =>
    cases d.blocks with
    | nil => simp
    | cons b blocks => simp

theorem Reading.addLine_next {s s' : Reading} {number : Nat} {raw : Bytes}
    (h : s.addLine number raw = .ok s') : s.Next s' := by
  cases hcode : isCode (content raw) with
  | false =>
    obtain rfl := Except.ok.inj ((addLine_skipped hcode).symm.trans h)
    exact .skip
  | true =>
    cases hdraft : s.draft with
    | none =>
      obtain ⟨hd, left, hread, rfl⟩ := (addLine_outside hdraft hcode).1 h
      cases hbody : hd.hasBody with
      | true => exact .opened hdraft hread hbody
      | false => exact .declared hdraft hread hbody
    | some d =>
      by_cases hclose : (content raw).head? = some closeBrace
      · obtain ⟨-, r, hr, rfl⟩ := (addLine_closing hdraft hclose).1 h
        obtain ⟨hresolved, hblocks, rfl⟩ := Draft.finish_eq_ok.1 hr
        exact .closed hdraft hresolved hblocks
      · obtain ⟨d', hd', rfl⟩ := (addLine_inside hdraft hcode hclose).1 h
        exact .grown hdraft hd'

/-- What every line keeps holds when all lines have been read. -/
theorem Reading.addLines_keeps {P : Reading → Prop} (step : ∀ s s', P s → s.Next s' → P s')
    {s s' : Reading} {number : Nat} {lines : List Bytes} (hs : P s)
    (h : s.addLines number lines = .ok s') : P s' := by
  induction lines generalizing s number with
  | nil =>
    cases h
    exact hs
  | cons raw lines ih =>
    unfold Reading.addLines at h
    split at h
    · cases h
    · obtain ⟨t, ht, h⟩ := bind_eq_ok.1 h
      exact ih (step s t hs (Reading.addLine_next ht)) h

/-- The graph of a program that has been read is exact. -/
theorem parse_exact {s : Bytes} {g : Graph} {m : ModuleId} (h : parse s = .ok (g, m)) :
    g.Exact fun _ => [] := by
  unfold parse parseInto at h
  dsimp only at h
  obtain ⟨r, hr, h⟩ := bind_eq_ok.1 h
  have hexact : r.graph.Exact fun _ => [] := by
    refine Reading.addLines_keeps (P := fun r => r.graph.Exact fun _ => []) ?_
      (Graph.exact_empty.withFuncs _ _) hr
    intro s s' hs hnext
    cases hnext with
    | skip => exact hs
    | opened => exact hs
    | @declared hd _ _ _ _ _ => exact (Draft.start hd).build_exact s.module hs
    | @closed d _ _ _ => exact d.build_exact s.module hs
    | grown => exact hs
  split at h
  · cases h
  · obtain ⟨-, -, h⟩ := bind_eq_ok.1 h
    obtain rfl := (Prod.mk.inj (pure_eq_ok.1 h)).1
    exact hexact.withFuncs _ _

end Syntax

namespace Session

/-- Use sets are exact over every editing run. From an empty graph or one that has been read,
allowed edits lead to exact states only, and none of them breaks off. -/
theorem exact_of_edits {s t : Session}
    (h₀ : s = {} ∨ ∃ text g m, Syntax.parse text = .ok (g, m) ∧ s = { graph := g })
    (hl : s.Leads t) : t.Exact ∧ ∀ e, t.Allowed e → ∃ u, t.perform e = .ok u := by
  have hstart : s.Exact ∧ s.Anchored := by
    rcases h₀ with rfl | ⟨text, g, m, hparse, rfl⟩
    · exact ⟨⟨Graph.exact_empty, by simp⟩, by simp [Anchored]⟩
    · exact ⟨⟨Syntax.parse_exact hparse, by simp⟩, by simp [Anchored]⟩
  obtain ⟨hexact, hanchored⟩ := exact_of_leads hstart.1 hstart.2 hl
  refine ⟨hexact, fun e hok => ?_⟩
  obtain ⟨u, hu, -⟩ := hexact.perform hanchored hok
  exact ⟨u, hu⟩

/-- An op that uses another one twice is appended, and the other one is queued before it. -/
theorem exact_of_edits_queued : ∃ t : Session, Leads {} t ∧
    t.graph.recorded (.result ⟨0⟩) ⟨1⟩ = 2 ∧ ∃ u, t.perform (.commit 0) = .ok u := by
  let double := [some (Operand.result ⟨0⟩), some (.result ⟨0⟩)]
  have queued := Leads.here (s := {})
    |>.step (.addBlock ⟨0⟩ (text "entry")) trivial rfl (by decide)
    |>.step (.newOp .not 8 [some (.const ⟨1, 8⟩)] []) trivial rfl (by decide)
    |>.step (.newOp .add 8 double []) trivial rfl (by decide)
    |>.step (.append ⟨0⟩ [⟨1⟩]) ⟨by decide, by decide⟩ rfl (by decide)
    |>.step (.edit ⟨0⟩) trivial rfl (by decide)
    |>.step (.queue 0 ⟨1⟩ [⟨0⟩]) ⟨_, rfl, ⟨by decide, by decide⟩, by decide⟩ rfl (by decide)
  obtain ⟨-, hcarried⟩ := exact_of_edits (.inl rfl) queued
  exact ⟨_, queued, by decide, hcarried (.commit 0) Nat.zero_lt_one⟩

end Session
end Disguise
