import Disguise.Proofs.Assembling
import Disguise.Proofs.Parsing
import Disguise.Text.Printable

/-!
Reading a whole module with a cursor. Nothing stops it but the end of the text or an error, and it
gives what `parse` gives.
-/
namespace Disguise.Syntax
open Bytes Disguise.Graph Results

namespace Draft
variable {x : Graph} {m : ModuleId}

/-- The next block gets its ops, which must not be in a block yet. -/
def appendNext (s : Graph × Nat × Nat) (b : Bytes × List DraftOp) :
    Except Violation (Graph × Nat × Nat) := do
  let g ← s.1.append ⟨s.2.1⟩ (opsFrom s.2.2 b.2.length)
  pure (g, s.2.1 + 1, s.2.2 + b.2.length)

/-- Puts a function into a graph like `build`; each block is filled by an edit that may fail. -/
def assemble (d : Draft) (x : Graph) (m : ModuleId) : Except Violation (Graph × FuncId) := do
  let s ← d.body.foldlM appendNext (d.laid x m, x.blocks.size, x.ops.size)
  pure (s.1, ⟨x.funcs.size⟩)

theorem appendNext_eq_ok {s : Graph × Nat × Nat} (h : s.1.Filled s.2.1 s.2.2)
    (b : Bytes × List DraftOp) : appendNext s b = .ok (fillNext s b) := by
  obtain ⟨g, bi, oi⟩ := s
  obtain ⟨hok, -⟩ := h.fill_parts b.2.length
  have hempty : (g.block ⟨bi⟩).ops = [] := h.empty _ (Nat.le_refl _)
  rw [appendNext, append, hempty, List.length_nil, hok]
  rfl

/-- No op is attached twice. -/
theorem assemble_eq_ok (d : Draft) (m : ModuleId) (h : x.Exact fun _ => []) :
    d.assemble x m = .ok (d.build x m) := by
  have hfold : ∀ (body : List (Bytes × List DraftOp)) (s : Graph × Nat × Nat),
      s.1.Filled s.2.1 s.2.2 → body.foldlM appendNext s = .ok (body.foldl fillNext s) := by
    intro body
    induction body with
    | nil => exact fun s _ => rfl
    | cons b body ih =>
      intro s hs
      rw [List.foldlM_cons, appendNext_eq_ok hs, ok_bind]
      exact ih _ (hs.fill b.2.length)
  rw [assemble, hfold _ _ (filled_laid d m h), build_eq]
  rfl

end Draft

namespace Scan
variable {number : Nat} {line : Bytes}

/-- A function becomes part of the module. -/
def build (s : Reading) (d : Draft) : Scan Reading := do
  let (graph, f) ← keeping (d.assemble s.graph s.module)
  pure { s with graph, funcs := f :: s.funcs, draft := none }

def finish (s : Reading) (d : Draft) : Scan (Except SyntaxError Reading) :=
  match d.unresolved with
  | some e => pure (.error e)
  | none =>
    if d.blocks.isEmpty then pure (.error (.noBlocks d.header.name))
    else return .ok (← build s d)

/-- A line between functions. -/
def headerLine (s : Reading) : Scan (Except SyntaxError Reading) := do
  match ← checked header with
  | .error e => pure (.error e)
  | .ok h =>
    if h.hasBody then pure (.ok { s with draft := some (.start h) })
    else return .ok (← build s (.start h))

/-- A line within a function. -/
def innerLine (s : Reading) (d : Draft) : Scan (Except SyntaxError Reading) := do
  if (← char) = closeBrace then
    expect closeBrace
    if !(← atEnd) then return .error (.trailing (← get).number)
    else finish s d
  else
    let d ← bodyLine d
    return d.map fun d => { s with draft := some d }

def moduleLine (s : Reading) : Scan (Except SyntaxError Reading) := do
  skipWhile Reader.isSpace
  if ← atEnd then pure (.ok s)
  else if (← char) = byte '#' then pure (.ok s)
  else
    match s.draft with
    | none => headerLine s
    | some d => innerLine s d

/-- Lines as long as there is no fault. -/
def moduleLines : Reading → List Bytes → Scan (Except SyntaxError Reading)
  | s, [] => pure (.ok s)
  | s, raw :: rest => do
    if ← faulty then pure (.ok s)
    else if lineLimit ≤ raw.length then
      modify fun c => { c with error := some .longLine }
      pure (.ok s)
    else
      modify fun c => { c with number := c.number + 1, line := trimRight raw, pos := 0 }
      match ← moduleLine s with
      | .error e => pure (.error e)
      | .ok s => moduleLines s rest

/-- Validation narrows constants to their widths; here all of a module are, in front of it. -/
def narrowAll (g : Graph) (m : ModuleId) : Except Violation Unit :=
  (g.module m).funcs.forM fun f => (g.opsOf f).forM fun o => (g.op o).args.forM fun
    | some (.const c) => (Word.truncate c.val c.bits).map fun _ => ()
    | _ => .ok ()

/-- Reads the text of a module. -/
def module (text : Bytes) : Scan (Except SyntaxError (Graph × ModuleId)) := do
  let (g, m) := ({} : Graph).newModule
  match ← moduleLines { graph := g, module := m } (linesOf text) with
  | .error e => pure (.error e)
  | .ok s =>
    match (← get).error with
    | some e => pure (.error e)
    | none =>
      match s.draft with
      | some d => pure (.error (.unterminated d.header.name))
      | none =>
        let g := s.graph.modifyModule m fun md => { md with funcs := s.funcs.reverse }
        keeping (narrowAll g m)
        pure do
          (g.validate m).mapError .defect
          pure (g, m)

theorem build_run {s : Reading} (hs : s.graph.Exact fun _ => []) (d : Draft) (c : Cursor) :
    build s d c = .ok ({ s with
      graph := (d.build s.graph s.module).1
      funcs := (d.build s.graph s.module).2 :: s.funcs
      draft := none }, c) := by
  rw [build, Draft.assemble_eq_ok d s.module hs]
  rfl

theorem finish_leaves {s : Reading} (hs : s.graph.Exact fun _ => []) (d : Draft) (t : Bytes) :
    Leaves number (do
        let (graph, f) ← d.finish s.graph s.module
        pure { s with graph, funcs := f :: s.funcs, draft := none })
      (finish s d (.before number line t)) := by
  unfold finish Draft.finish
  cases d.unresolved with
  | some e => exact leaves_error e _
  | none =>
    dsimp only
    split
    · exact leaves_error _ _
    · rw [bind_run, build_run hs]
      exact leaves_before _ t

theorem headerLine_leaves {s : Reading} (hs : s.Sound) {rest : Bytes} (hrest : rest <:+ line) :
    Leaves number (do
        let (h, _) ← Draft.reading number line rest Syntax.header
        if h.hasBody then pure { s with draft := some (.start h) }
        else
          let (graph, f) := (Draft.start h).build s.graph s.module
          pure { s with graph, funcs := f :: s.funcs, draft := none })
      (headerLine s (.before number line rest)) := by
  refine leaves_checked agrees_header hrest (fun h t _ _ => ?_) fun _ _ => rfl
  dsimp only
  split
  · exact leaves_before _ t
  · rw [bind_run, build_run hs.exact]
    exact leaves_before _ t

theorem innerLine_leaves {s : Reading} (hs : s.Sound) {d : Draft} (hd : s.draft = some d)
    {rest : Bytes} (hrest : rest <:+ line) {b : UInt8} (hb : rest.head? = some b) :
    Leaves number (do
        if b = closeBrace then
          if !(rest.drop 1).all Reader.isSpace then .error (.trailing number)
          else
            let (graph, f) ← d.finish s.graph s.module
            pure { s with graph, funcs := f :: s.funcs, draft := none }
        else pure { s with draft := some (← d.addLine number line rest) })
      (innerLine s d (.before number line rest)) := by
  obtain ⟨t, rfl⟩ := List.head?_eq_some_iff.1 hb
  unfold innerLine
  rw [bind_run, char_before hrest, ok_bind, List.drop_one, List.tail_cons]
  dsimp only
  split
  · rename_i hclose
    subst hclose
    have htail := (List.dropWhile_suffix (l := t) Reader.isSpace).trans
      ((List.suffix_cons closeBrace t).trans hrest)
    rw [bind_run, expect_before hrest, ok_bind, bind_run, atEnd_before htail, ok_bind,
      isEmpty_dropWhile_isSpace]
    dsimp only
    split
    · exact leaves_error _ _
    · exact finish_leaves hs.exact d _
  · have hret := (hs.draft d hd).header.retBits
    obtain ⟨c, hrun, hc⟩ := bodyLine_leaves number hret hrest
    rw [bind_run, hrun, ok_bind]
    cases hline : d.addLine number line (b :: t) with
    | error e => exact leaves_error e c
    | ok d' => exact ⟨c, rfl, fun _ _ => hc d' hline⟩

theorem moduleLine_leaves (number : Nat) {s : Reading} (hs : s.Sound) (raw : Bytes) :
    Leaves number (s.addLine number raw)
      (moduleLine s (.before number (trimRight raw) (trimRight raw))) := by
  have hrest : content raw <:+ trimRight raw := List.dropWhile_suffix Reader.isSpace
  have hskip : skipWhile Reader.isSpace (.before number (trimRight raw) (trimRight raw)) =
      .ok ((), .before number (trimRight raw) (content raw)) :=
    skipWhile_before _ (List.suffix_refl _)
  unfold moduleLine
  rw [bind_run, hskip, ok_bind, end_before _ _ hrest]
  cases hhead : (content raw).head? with
  | none =>
    rw [Reading.addLine_skipped (by rw [isCode, hhead]; rfl), List.head?_eq_none_iff.1 hhead]
    exact leaves_before _ _
  | some b =>
    have hchar : char (.before number (trimRight raw) (content raw)) =
        .ok (b, .before number (trimRight raw) (content raw)) := by
      obtain ⟨t, ht⟩ := List.head?_eq_some_iff.1 hhead
      rw [ht] at hrest ⊢
      exact char_before hrest
    have hne : (content raw).isEmpty = false := by
      rw [List.isEmpty_eq_false_iff]
      rintro hnil
      simp [hnil] at hhead
    rw [hne, if_neg Bool.false_ne_true, bind_run, hchar, ok_bind]
    simp only [Reading.addLine, content_eq, hhead]
    split
    · exact leaves_before _ _
    · obtain ⟨graph, module, funcs, draft⟩ := s
      cases draft with
      | none => exact headerLine_leaves hs hrest
      | some d => exact innerLine_leaves hs rfl hrest hhead

/-- The ways in which the lines of a module end. A fault that is noted at last becomes the error. -/
inductive Ends :
    Except SyntaxError Reading → Except Crash (Except SyntaxError Reading × Cursor) → Prop
  | read {s : Reading} {c : Cursor} (clear : c.error = none) : Ends (.ok s) (.ok (.ok s, c))
  | refused {e : SyntaxError} {c : Cursor} : Ends (.error e) (.ok (.error e, c))
  | noted {e : SyntaxError} {s : Reading} {c : Cursor} (fault : c.error = some e) :
      Ends (.error e) (.ok (.ok s, c))

theorem moduleLines_ends {s : Reading} (hs : s.Sound) (lines : List Bytes) {c : Cursor}
    (hc : c.error = none) : Ends (s.addLines (c.number + 1) lines) (moduleLines s lines c) := by
  induction lines generalizing s c with
  | nil => exact .read hc
  | cons raw rest ih =>
    obtain ⟨n, line, pos, error⟩ := c
    obtain rfl : error = none := hc
    unfold Reading.addLines
    show Ends _ ((if lineLimit ≤ raw.length then _ else _ : Scan (Except SyntaxError Reading))
      ⟨n, line, pos, none⟩)
    split
    · exact .noted rfl
    · have hstart : Cursor.mk (n + 1) (trimRight raw) 0 none =
          .before (n + 1) (trimRight raw) (trimRight raw) := by
        rw [Cursor.before, Nat.sub_self]
      obtain ⟨c, hrun, hc⟩ := moduleLine_leaves (n + 1) hs raw
      rw [← hstart] at hrun
      rw [modify_run, bind_run, hrun, ok_bind]
      cases hline : s.addLine (n + 1) raw with
      | error e => exact .refused
      | ok t =>
        obtain ⟨hclear, hnumber⟩ := hc t hline
        have hrest := ih (hs.next (Reading.addLine_next hline)) hclear
        rw [hnumber] at hrest
        exact hrest

theorem narrowAll_eq_ok {g : Graph} {m : ModuleId}
    (h : ∀ f ∈ (g.module m).funcs, ∀ o ∈ g.opsOf f, ∀ c,
      some (Operand.const c) ∈ (g.op o).args → Word.goodWidth c.bits) :
    narrowAll g m = .ok () := by
  refine forM_eq_ok.2 fun f hf => forM_eq_ok.2 fun o ho => forM_eq_ok.2 fun v hv => ?_
  match v with
  | some (.const c) =>
    dsimp only
    rw [truncate_eq_ok (h f hf o ho c hv)]
    rfl
  | some (.param p) => rfl
  | some (.result u) => rfl
  | none => rfl

/-- A cursor gives what the reader of whole texts gives. -/
theorem module_run (text : Bytes) : ∃ c, module text {} = .ok (parse text, c) := by
  have hstart : Reading.Sound
      { graph := (({} : Graph).newModule).1, module := (({} : Graph).newModule).2 } :=
    ⟨exact_empty.withFuncs _ _, by simp, by simp⟩
  have hends := moduleLines_ends hstart (linesOf text) (c := {}) rfl
  unfold module parse parseInto
  dsimp only
  rw [bind_run]
  cases hread : Reading.addLines _ 1 (linesOf text) with
  | error e =>
    rw [hread] at hends
    generalize moduleLines _ (linesOf text) {} = y at hends ⊢
    cases hends with
    | refused => exact ⟨_, rfl⟩
    | @noted _ s c fault =>
      rw [ok_bind]
      dsimp only
      rw [get_run, fault]
      exact ⟨c, rfl⟩
  | ok s =>
    have hsound : s.Sound := Reading.addLines_keeps (P := Reading.Sound)
      (fun _ _ hs hnext => hs.next hnext) hstart hread
    rw [hread] at hends
    generalize moduleLines _ (linesOf text) {} = y at hends ⊢
    cases hends with
    | @read _ c clear =>
      rw [ok_bind, ok_bind]
      dsimp only
      rw [get_run, clear]
      cases s.draft with
      | some d => exact ⟨c, rfl⟩
      | none =>
        have hnarrow : narrowAll (s.graph.modifyModule (({} : Graph).newModule).2 fun md =>
            { md with funcs := s.funcs.reverse }) (({} : Graph).newModule).2 = .ok () := by
          refine narrowAll_eq_ok fun f hf => ?_
          rw [module_modifyModule, if_pos rfl] at hf
          exact (hsound.funcs f (List.mem_reverse.1 hf)).consts
        dsimp only
        rw [hnarrow]
        exact ⟨c, rfl⟩

end Scan

/-- Reading with a cursor, from the first line on. -/
def scanModule (text : Bytes) : Except Crash (Except SyntaxError (Graph × ModuleId)) :=
  (Scan.module text).run' {}

/-- Reading is safe on every text. A cursor runs into no index or slice out of range, no broken
promise and no loop without end, and gives the program or the error that `parse` gives. A program
that has been read is valid, can be printed and copied, and its names are identifiers, those of
params without a digit in front. -/
theorem scanModule_safe [Unicode] (text : Bytes) : scanModule text = .ok (parse text) ∧
    ∀ g m, parse text = .ok (g, m) →
      g.validate m = .ok () ∧ (∃ s, printModule g m = .ok s) ∧
      (∃ x c, g.cloneModule m = .ok (x, c)) ∧
      ∀ f ∈ (g.module m).funcs, IsIdent (g.func f).name ∧
        (∀ p ∈ (g.func f).params, IsIdent (g.param p).name ∧
          (g.param p).name.head?.any Reader.isDigitByte = false) ∧
        ∀ b ∈ (g.func f).blocks, IsIdent (g.block b).name := by
  constructor
  · obtain ⟨c, hrun⟩ := Scan.module_run text
    show Prod.fst <$> Scan.module text {} = _
    rw [hrun]
    rfl
  · intro g m hparse
    have h := Readable.of_parse hparse
    obtain ⟨x, c, hclone, -⟩ := cloneModule_eq_ok h.wellFormed h.listed
    refine ⟨validate_eq_ok.2 h.wellFormed, ⟨_, printModule_eq h.printable⟩, ⟨x, c, hclone⟩, ?_⟩
    intro f hf
    have hnamed := h.named f hf
    exact ⟨hnamed.name, fun p hp => ⟨hnamed.params p hp, hnamed.paramStart p hp⟩, hnamed.blocks⟩

/-- A function that gives back its param is read, printed and copied. -/
theorem scanModule_safe_identity : ∃ g m,
    scanModule (text "func f(i8 %a) i8 \x7b\nentry:\n  ret %a\n\x7d\n") = .ok (.ok (g, m)) ∧
    (g.module m).funcs.length = 1 ∧ g.validate m = .ok () ∧ (∃ s, printModule g m = .ok s) ∧
    ∃ x c, g.cloneModule m = .ok (x, c) := by
  obtain ⟨hscan, hsafe⟩ :=
    scanModule_safe (text "func f(i8 %a) i8 \x7b\nentry:\n  ret %a\n\x7d\n")
  have hparse : ∃ g m, parse (text "func f(i8 %a) i8 \x7b\nentry:\n  ret %a\n\x7d\n") =
      .ok (g, m) ∧ (g.module m).funcs.length = 1 := ⟨_, _, rfl, rfl⟩
  obtain ⟨g, m, hparse, hlen⟩ := hparse
  obtain ⟨hvalid, hprint, hclone, -⟩ := hsafe g m hparse
  exact ⟨g, m, hscan.trans (congrArg Except.ok hparse), hlen, hvalid, hprint, hclone⟩

/-- A backslash at the end of a text that is not closed hides a byte that is not there. -/
example : scanModule (text "declare f() i8 annotate(\"a\\") =
    .ok (.error (.inLine 1 (text "declare f() i8 annotate(\"a\\") .openString)) := by
  rfl

end Disguise.Syntax
