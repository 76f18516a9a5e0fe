import Disguise.Proofs.Calls
import Disguise.Proofs.RoundTrip
import Disguise.Text.Printable

/-!
Names in what is read. Readers give identifiers only, and an accepted line names no block that is
not there in the end; so the text of a module that has been read can be read again.
-/
namespace Disguise
open Results

namespace Syntax

/-- A constant has a width that words can have. -/
def DraftArg.Sized : DraftArg → Prop
  | .const c => Word.goodWidth c.bits
  | .named _ => True

namespace Reader
variable {α β : Type} {r : Reader α} {P Q : α → Prop}

/-- All that is read has a property. -/
def Gives (r : Reader α) (P : α → Prop) : Prop := ∀ s a t, r s = .ok (a, t) → P a

theorem Gives.any (r : Reader α) : Gives r fun _ => True := fun _ _ _ _ => trivial

theorem gives_pure {a : α} (h : P a) : Gives (pure a) P := by
  intro s b t hread
  obtain ⟨rfl, -⟩ := pure_run_eq_ok.1 hread
  exact h

theorem gives_fail (fault : LineFault) : Gives (fail fault) P := fun _ _ _ hread => nomatch hread

theorem Gives.bind {k : α → Reader β} {Q : β → Prop} (h : Gives r P)
    (hk : ∀ a, P a → Gives (k a) Q) : Gives (r >>= k) Q := by
  intro s b t hread
  obtain ⟨a, u, ha, hb⟩ := bind_run_eq_ok.1 hread
  exact hk a (h s a u ha) u b t hb

/-- A step whose result says nothing. -/
theorem Gives.after {k : α → Reader β} {Q : β → Prop} (r : Reader α)
    (hk : ∀ a, Gives (k a) Q) : Gives (r >>= k) Q :=
  (Gives.any r).bind fun a _ => hk a

theorem Gives.ite {p : Prop} [Decidable p] {r' : Reader α} (h : p → Gives r P)
    (h' : ¬ p → Gives r' P) : Gives (if p then r else r') P := by
  split
  · exact h ‹_›
  · exact h' ‹_›

theorem gives_ident : Gives ident IsIdent := by
  unfold ident
  refine .after _ fun s => ?_
  dsimp only
  rw [List.span_eq_takeWhile_dropWhile]
  refine .ite (fun _ => gives_fail _) fun hne => ?_
  refine .after _ fun _ => .after _ fun _ => gives_pure ?_
  exact isIdent_of_all (by simpa using hne) List.all_takeWhile

theorem gives_type : Gives type fun bits => Word.goodWidth bits := by
  unfold type
  refine .after _ fun name => ?_
  split
  · split
    · refine .ite (fun hgood => gives_pure ?_) fun _ => gives_fail _
      exact (Bool.and_eq_true_iff.1 hgood).2
    · exact gives_fail _
  · exact gives_fail _

theorem gives_listUntil (h : Gives r P) (close : UInt8) (fuel : Nat) :
    Gives (listUntil close r fuel) fun l => ∀ a ∈ l, P a := by
  induction fuel with
  | zero => exact gives_pure (by simp)
  | succ fuel ih =>
    unfold listUntil
    refine .after _ fun b => .ite (fun _ => gives_pure (by simp)) fun _ => ?_
    refine h.bind fun a ha => .after _ fun b => ?_
    refine .ite (fun _ => .after _ fun _ => ?_) fun _ => ?_
    · exact ih.bind fun l hl => gives_pure (List.forall_mem_cons.2 ⟨ha, hl⟩)
    · exact ih.bind fun l hl => gives_pure (List.forall_mem_cons.2 ⟨ha, hl⟩)

theorem gives_listToEnd (h : Gives r P) (fuel : Nat) :
    Gives (listToEnd r fuel) fun l => ∀ a ∈ l, P a := by
  induction fuel with
  | zero => exact gives_pure (by simp)
  | succ fuel ih =>
    unfold listToEnd
    refine .after _ fun b => .ite (fun _ => gives_pure (by simp)) fun _ => ?_
    refine h.bind fun a ha => .after _ fun b => ?_
    refine .ite (fun _ => .after _ fun _ => ?_) fun _ => ?_
    · exact ih.bind fun l hl => gives_pure (List.forall_mem_cons.2 ⟨ha, hl⟩)
    · exact ih.bind fun l hl => gives_pure (List.forall_mem_cons.2 ⟨ha, hl⟩)

theorem gives_operand {bits : Int} (h : Word.goodWidth bits) :
    Gives (operand bits) DraftArg.Sized := by
  unfold operand
  refine .after _ fun b => .ite (fun _ => ?_) fun _ => .ite (fun _ => ?_) fun _ => gives_fail _
  · exact .after _ fun _ => .after _ fun name => gives_pure trivial
  · refine .after _ fun numeral => ?_
    split
    · exact gives_fail _
    · exact .ite (fun _ => gives_pure h) fun _ => gives_fail _

theorem gives_terminatorParts {retBits : Int} (h : Word.goodWidth retBits) (code : Opcode) :
    Gives (terminatorParts retBits code) fun parts => ∀ a ∈ parts.1, a.Sized := by
  unfold terminatorParts
  split
  · refine .after _ fun b => .ite (fun _ => gives_pure (by simp)) fun _ => ?_
    exact (gives_operand h).bind fun a ha => gives_pure (by simpa using ha)
  · exact .after _ fun name => gives_pure (by simp)
  · refine (gives_operand rfl).bind fun a ha => .after _ fun _ => .after _ fun yes => ?_
    exact .after _ fun _ => .after _ fun no => gives_pure (by simpa using ha)
  · exact gives_pure (by simp)

theorem gives_param : Gives param fun p =>
    IsIdent p.1 ∧ p.1.head?.any isDigitByte = false ∧ Word.goodWidth p.2 := by
  unfold param
  refine gives_type.bind fun bits hbits => .after _ fun _ => gives_ident.bind fun name hname => ?_
  refine .ite (fun _ => (gives_fail (P := fun _ => False) _).bind nofun) fun hstart => ?_
  exact gives_pure ⟨hname, by simpa using hstart, hbits⟩

end Reader

open Reader

theorem gives_signature (external hasBody : Bool) :
    Gives (signature external hasBody) Header.Legible := by
  unfold signature
  refine gives_ident.bind fun name hname => .after _ fun _ => .after _ fun left => ?_
  refine (gives_listUntil gives_param _ _).bind fun params hparams => .after _ fun _ => ?_
  refine gives_type.bind fun retBits hret => .after _ fun left => .after _ fun a => ?_
  refine .ite (fun _ => .after _ fun _ => ?_) fun _ => ?_
  all_goals exact .after _ fun _ => gives_pure ⟨hname, hparams, hret⟩

/-- Only headers that can be read again are read. -/
theorem gives_header : Gives header Header.Legible := by
  rw [header_eq]
  refine .after _ fun first => .ite (fun _ => ?_) fun _ => ?_
  all_goals
    refine .after _ fun word => .ite (fun _ => ?_) fun _ => gives_signature _ _
    exact (gives_fail (P := fun _ => False) _).bind nofun

namespace Draft

/-- The names and constants in a draft can be read again, and what is known as a label is one of its
blocks. -/
structure Legible (d : Draft) : Prop where
  header : d.header.Legible
  blocks : ∀ b ∈ d.body, IsIdent b.1
  labels : ∀ name i, d.labels.find? name = some i → i < d.body.length
  consts : ∀ op ∈ d.ops, ∀ a ∈ op.args, a.Sized

variable {d d' : Draft}

theorem Legible.start {h : Header} (hl : h.Legible) : (start h).Legible where
  header := hl
  blocks := by simp [body, Draft.start]
  labels name i hi := by
    rw [Draft.start, Dictionary.find?_empty] at hi
    cases hi
  consts := by simp [ops, body, Draft.start]

theorem Legible.addBlock (hd : d.Legible) {name : Bytes} (hname : IsIdent name) :
    (d.addBlock name).Legible where
  header := hd.header
  blocks := by
    rw [body_addBlock]
    exact List.forall_mem_append.2 ⟨hd.blocks, by simpa using hname⟩
  labels other i hi := by
    rw [body_addBlock, List.length_append, List.length_singleton]
    rw [Draft.addBlock, Dictionary.find?_insert] at hi
    split at hi
    · obtain rfl := Option.some.inj hi
      rw [← length_body]
      exact Nat.lt_succ_self _
    · exact Nat.lt_succ_of_lt (hd.labels other i hi)
  consts := by
    have hops : (d.addBlock name).ops = d.ops := by simp [ops, body_addBlock]
    rw [hops]
    exact hd.consts

/-- An op stands in a block, whose name stays. -/
theorem Legible.addOp (hd : d.Legible) {op : DraftOp} (hop : ∀ a ∈ op.args, a.Sized)
    (h : d.addOp op = .ok d') : d'.Legible := by
  obtain ⟨init, name, ops, hbody, hbody', hheader, -, hlabels, -⟩ := exists_of_addOp h
  have hblocks := hd.blocks
  rw [hbody] at hblocks
  refine ⟨hheader ▸ hd.header, ?_, fun other i hi => ?_, ?_⟩
  · rw [hbody']
    exact List.forall_mem_append.2 ⟨(List.forall_mem_append.1 hblocks).1,
      by simpa using (List.forall_mem_append.1 hblocks).2⟩
  · rw [hlabels] at hi
    have hlt := hd.labels other i hi
    rw [hbody] at hlt
    rwa [hbody', List.length_append, List.length_singleton, ← List.length_singleton,
      ← List.length_append]
  · have hops : d'.ops = d.ops ++ [op] := by simp [Draft.ops, hbody, hbody']
    rw [hops]
    exact List.forall_mem_append.2 ⟨hd.consts, by simpa using hop⟩

theorem gives_of_reading {α : Type} {r : Reader α} {P : α → Prop} (hr : Gives r P) {number : Nat}
    {line rest left : Bytes} {a : α} (h : reading number line rest r = .ok (a, left)) : P a :=
  hr rest a left (mapError_eq_ok.1 h)

/-- Accepted lines keep names that can be read again. -/
theorem Legible.addLine (hd : d.Legible) {number : Nat} {line rest : Bytes}
    (h : d.addLine number line rest = .ok d') : d'.Legible := by
  unfold Draft.addLine at h
  split at h
  · unfold Draft.addValue at h
    obtain ⟨⟨⟨result, name⟩, left⟩, -, h⟩ := bind_eq_ok.1 h
    dsimp only at h
    split at h
    · cases h
    · obtain ⟨⟨⟨bits, args⟩, left⟩, hread, h⟩ := bind_eq_ok.1 h
      have hargs : ∀ a ∈ args, a.Sized := by
        refine gives_of_reading (P := fun parts => ∀ a ∈ parts.2, a.Sized) ?_ hread
        refine gives_type.bind fun bits hbits => .after _ fun left => ?_
        exact (gives_listToEnd (gives_operand hbits) _).bind fun l hl => gives_pure hl
      dsimp only at h
      split at h
      · cases h
      · exact hd.addOp hargs h
  · obtain ⟨⟨name, left⟩, hread, h⟩ := bind_eq_ok.1 h
    dsimp only at h
    split at h
    · split at h
      · cases h
      · split at h
        · cases h
        · obtain rfl := Except.ok.inj h
          exact hd.addBlock (gives_of_reading gives_ident hread)
    · unfold Draft.addTerminator at h
      split at h
      · cases h
      · obtain ⟨⟨⟨args, targets⟩, left⟩, hread, h⟩ := bind_eq_ok.1 h
        have hargs : ∀ a ∈ args, a.Sized := by
          refine gives_of_reading (P := fun parts => ∀ a ∈ parts.1, a.Sized) ?_ hread
          refine (gives_terminatorParts hd.header.retBits _).bind fun parts hparts => ?_
          exact .after _ fun _ => gives_pure hparts
        exact hd.addOp hargs h

end Draft

end Syntax

namespace Graph

/-- A function that is in its graph for good, with names and constants that can be read again. -/
structure Settled (y : Graph) (k : FuncId) : Prop where
  stored : y.Stored k
  named : y.Named k
  listed : y.TargetsListed k
  consts : ∀ o ∈ y.opsOf k, ∀ c, some (Operand.const c) ∈ (y.op o).args → Word.goodWidth c.bits

/-- What has been read stays as it is when more is read. -/
theorem Settled.mono {y z : Graph} {k : FuncId} (h : y.Settled k) (hext : y.Extends z) :
    z.Settled k := by
  have hfunc : z.func k = y.func k := hext.funcs.get k.idx h.stored.func
  have hparam : ∀ p ∈ (y.func k).params, z.param p = y.param p :=
    fun p hp => hext.params.get p.idx (h.stored.params p hp)
  have hblock : ∀ b ∈ (y.func k).blocks, z.block b = y.block b :=
    fun b hb => hext.blocks.get b.idx (h.stored.blocks b hb)
  have hops : z.opsOf k = y.opsOf k := by
    rw [opsOf, opsOf, hfunc]
    exact List.flatMap_congr fun b hb => congrArg Block.ops (hblock b hb)
  refine ⟨⟨?_, ?_, ?_, ?_⟩, ⟨?_, ?_, ?_, ?_⟩, ?_, ?_⟩
  all_goals try rw [hfunc]
  · exact Nat.lt_of_lt_of_le h.stored.func hext.funcs.size
  · exact fun p hp => Nat.lt_of_lt_of_le (h.stored.params p hp) hext.params.size
  · exact fun b hb => Nat.lt_of_lt_of_le (h.stored.blocks b hb) hext.blocks.size
  · rw [hops]
    exact fun o ho => Nat.lt_of_lt_of_le (h.stored.ops o ho) hext.ops.size
  · exact h.named.name
  · intro p hp
    rw [hparam p hp]
    exact h.named.params p hp
  · intro p hp
    rw [hparam p hp]
    exact h.named.paramStart p hp
  · intro b hb
    rw [hblock b hb]
    exact h.named.blocks b hb
  · rw [TargetsListed, hops, hfunc]
    intro o ho b hb
    have hop : z.op o = y.op o := hext.ops.get o.idx (h.stored.ops o ho)
    rw [hop] at hb
    exact h.listed o ho b hb
  · rw [hops]
    intro o ho c hc
    have hop : z.op o = y.op o := hext.ops.get o.idx (h.stored.ops o ho)
    rw [hop] at hc
    exact h.consts o ho c hc

end Graph

namespace Syntax
open Disguise.Graph Reader

namespace Draft
variable {x y : Graph} {m : ModuleId} {d : Draft} {k : FuncId}

theorem Built.of_param (hy : Built x m d y k) {q : ParamId} (hq : q ∈ (y.func k).params) :
    ∃ p ∈ d.header.params, (y.param q).bare = { func := some k, name := p.1, bits := p.2 } := by
  rw [hy.func] at hq
  obtain ⟨i, hi, rfl⟩ := List.mem_map.1 hq
  have hget := List.getElem?_eq_getElem (List.mem_range.1 hi)
  exact ⟨_, List.mem_of_getElem? hget, hy.param i _ hget⟩

theorem Built.of_block (hy : Built x m d y k) {b : BlockId} (hb : b ∈ (y.func k).blocks) :
    ∃ pre c post, d.body = pre ++ c :: post ∧
      y.block b = ⟨k, c.1, opsFrom (x.ops.size + (pre.flatMap (·.2)).length) c.2.length⟩ := by
  rw [hy.func] at hb
  obtain ⟨i, hi, rfl⟩ := List.mem_map.1 hb
  have hlt := List.mem_range.1 hi
  have hsplit : d.body = d.body.take i ++ d.body[i] :: d.body.drop (i + 1) := by
    rw [List.getElem_cons_drop, List.take_append_drop]
  have hget := hy.block _ _ _ hsplit
  rw [List.length_take, Nat.min_eq_left (Nat.le_of_lt hlt)] at hget
  exact ⟨_, _, _, hsplit, hget⟩

theorem Built.of_op (hy : Built x m d y k) {o : OpId} (ho : o ∈ y.opsOf k) :
    ∃ op ∈ d.ops, (y.op o).args = op.args.map (d.resolve x) ∧
      (y.op o).targets = op.targets.map (d.resolveTarget x) := by
  obtain ⟨b, hb, hmem⟩ := mem_opsOf.1 ho
  obtain ⟨pre, c, post, hsplit, hget⟩ := hy.of_block hb
  rw [hget] at hmem
  obtain ⟨j, hj, rfl⟩ := List.mem_map.1 hmem
  have hlt := List.mem_range.1 hj
  have hops : d.ops[(pre.flatMap (·.2)).length + j]? = some c.2[j] := by
    rw [Draft.ops, hsplit, List.flatMap_append, List.flatMap_cons,
      List.getElem?_append_right (Nat.le_add_right _ _), Nat.add_sub_cancel_left,
      List.getElem?_append_left hlt, List.getElem?_eq_getElem hlt]
  have hlink := hy.op _ _ hops
  rw [← Nat.add_assoc] at hlink
  exact ⟨c.2[j], List.mem_of_getElem? hops, (congrArg Op.args hlink :),
    (congrArg Op.targets hlink :)⟩

theorem Built.named (hy : Built x m d y k) (hd : d.Legible) : y.Named k where
  name := by
    rw [hy.func]
    exact hd.header.name
  params q hq := by
    obtain ⟨p, hp, hbare⟩ := hy.of_param hq
    have hsame : (y.param q).name = p.1 := (congrArg Param.name hbare :)
    rw [hsame]
    exact (hd.header.params p hp).1
  paramStart q hq := by
    obtain ⟨p, hp, hbare⟩ := hy.of_param hq
    have hsame : (y.param q).name = p.1 := (congrArg Param.name hbare :)
    rw [hsame]
    exact (hd.header.params p hp).2.1
  blocks b hb := by
    obtain ⟨pre, c, post, hsplit, hget⟩ := hy.of_block hb
    rw [hget]
    exact hd.blocks c (by simp [hsplit])

/-- What has an owner or a name is not what stands for an id that was never given out. -/
theorem Built.stored (hy : Built x m d y k) (hd : d.Legible) : y.Stored k where
  func := by
    refine Table.lt_size_of_ne fun heq => ?_
    have howner : (y.func k).owner = some m := by rw [hy.func, Draft.head]
    rw [Graph.func, heq] at howner
    cases howner
  params q hq := by
    obtain ⟨p, -, hbare⟩ := hy.of_param hq
    refine Table.lt_size_of_ne fun heq => ?_
    have hfunc : (y.param q).func = some k := (congrArg Param.func hbare :)
    rw [Graph.param, heq] at hfunc
    cases hfunc
  blocks b hb := by
    refine Table.lt_size_of_ne fun heq => ?_
    have hne := ((hy.named hd).blocks b hb).nonempty
    rw [Graph.block, heq] at hne
    exact hne rfl
  ops o ho := by
    obtain ⟨b, -, hmem⟩ := mem_opsOf.1 ho
    exact hy.exact.lt_size hmem

theorem Built.targetsListed (hy : Built x m d y k) (hd : d.Legible) : y.TargetsListed k := by
  intro o ho b hb
  obtain ⟨op, -, -, htargets⟩ := hy.of_op ho
  rw [htargets] at hb
  obtain ⟨name, -, hresolve⟩ := List.mem_map.1 hb
  obtain ⟨i, hlabel, rfl⟩ := Option.map_eq_some_iff.1 hresolve
  rw [hy.func]
  exact List.mem_map_of_mem (List.mem_range.2 (hd.labels name i hlabel))

/-- What is built from a draft that can be read again has its names, and branches to its blocks. -/
theorem Built.settled (hy : Built x m d y k) (hd : d.Legible) : y.Settled k where
  stored := hy.stored hd
  named := hy.named hd
  listed := hy.targetsListed hd
  consts o ho c hc := by
    obtain ⟨op, hmem, hargs, -⟩ := hy.of_op ho
    rw [hargs] at hc
    obtain ⟨a, ha, hresolve⟩ := List.mem_map.1 hc
    have hsized := hd.consts op hmem a ha
    cases a with
    | const e =>
      obtain rfl : e = c := by simpa [Draft.resolve] using hresolve
      exact hsized
    | named name =>
      obtain ⟨origin, -, horigin⟩ := Option.map_eq_some_iff.1 hresolve
      cases origin <;> cases horigin

end Draft

/-- What has been read so far can be read again. -/
structure Reading.Sound (s : Reading) : Prop where
  exact : s.graph.Exact fun _ => []
  funcs : ∀ k ∈ s.funcs, s.graph.Settled k
  draft : ∀ d, s.draft = some d → d.Legible

/-- A draft that is built into a function. -/
theorem Reading.Sound.build {s : Reading} (h : s.Sound) {d : Draft} (hd : d.Legible) :
    (Reading.mk (d.build s.graph s.module).1 s.module
      ((d.build s.graph s.module).2 :: s.funcs) none).Sound := by
  have hy := Draft.built d s.module h.exact
  refine ⟨hy.exact, List.forall_mem_cons.2 ⟨hy.settled hd, fun k hk => ?_⟩, by simp⟩
  exact (h.funcs k hk).mono hy.apart.extended

theorem Reading.Sound.next {s s' : Reading} (h : s.Sound) (hnext : s.Next s') : s'.Sound := by
  cases hnext with
  | skip => exact h
  | opened outside read body =>
    refine ⟨h.exact, h.funcs, fun d hd => ?_⟩
    obtain rfl := Option.some.inj hd
    exact .start (gives_header _ _ _ read)
  | declared outside read body =>
    have hbuild := h.build (.start (gives_header _ _ _ read))
    exact ⟨hbuild.exact, hbuild.funcs, fun d hd => by simp [outside] at hd⟩
  | closed inside resolved nonempty => exact h.build (h.draft _ inside)
  | grown inside read =>
    refine ⟨h.exact, h.funcs, fun d hd => ?_⟩
    obtain rfl := Option.some.inj hd
    exact (h.draft _ inside).addLine read

/-- A module that has been read is well-formed, and its text can be read again. -/
theorem Readable.of_parse {s : Bytes} {g : Graph} {m : ModuleId} (h : parse s = .ok (g, m)) :
    Readable g m := by
  unfold parse parseInto at h
  dsimp only at h
  obtain ⟨r, hr, h⟩ := bind_eq_ok.1 h
  have hsound : r.Sound := Reading.addLines_keeps (P := Reading.Sound)
    (fun _ _ hs hnext => hs.next hnext) ⟨exact_empty.withFuncs _ _, by simp, by simp⟩ hr
  split at h
  · cases h
  · obtain ⟨⟨⟩, hvalid, h⟩ := bind_eq_ok.1 h
    obtain ⟨rfl, rfl⟩ := Prod.mk.inj (pure_eq_ok.1 h)
    refine .of_validate (mapError_eq_ok.1 hvalid) fun f hf => ?_
    rw [module_modifyModule, if_pos rfl] at hf
    obtain ⟨-, hnamed, hlisted, -⟩ := hsound.funcs f (List.mem_reverse.1 hf)
    exact ⟨hlisted, ⟨hnamed.name, hnamed.params, hnamed.paramStart, hnamed.blocks⟩⟩

/-- Printing and reading give a module back. This holds of every valid module whose branches stay
within its functions and whose names are identifiers, and so of all that has been read. -/
theorem roundTrips [Unicode] {g : Graph} {m : ModuleId}
    (h : (g.validate m = .ok () ∧ ∀ f ∈ (g.module m).funcs, g.TargetsListed f ∧ g.Named f) ∨
      ∃ s, parse s = .ok (g, m)) : RoundTrips g m := by
  rcases h with ⟨hvalid, hnamed⟩ | ⟨s, hparse⟩
  · exact roundTrips_of_readable (.of_validate hvalid hnamed)
  · exact roundTrips_of_readable (.of_parse hparse)

theorem sampleGraph_named : sampleGraph.Named ⟨0⟩ := by
  have hparams : (sampleGraph.func ⟨0⟩).params = [⟨0⟩] := rfl
  have hblocks : (sampleGraph.func ⟨0⟩).blocks = [⟨0⟩] := rfl
  refine ⟨isIdent_of_all rfl (by decide), ?_, ?_, ?_⟩
  all_goals simp only [hparams, hblocks, List.mem_singleton, forall_eq]
  · exact isIdent_of_all rfl (by decide)
  · decide
  · exact isIdent_of_all rfl (by decide)

theorem sampleGraph_roundTrips : RoundTrips sampleGraph ⟨0⟩ := by
  have hfuncs : (sampleGraph.module ⟨0⟩).funcs = [⟨0⟩] := rfl
  refine roundTrips (.inl ⟨sampleGraph_validate, ?_⟩)
  simp only [hfuncs, List.mem_singleton, forall_eq]
  exact ⟨sampleGraph_targetsListed, sampleGraph_named⟩

end Syntax
end Disguise
