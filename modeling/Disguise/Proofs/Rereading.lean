import Disguise.Proofs.Building
import Disguise.Proofs.Drafting

/-!
The lines of a function read one after the other. As long as no line is too long, they lead from
one function to the next, and the draft that is finished on the way follows the function.
-/
namespace Disguise.Syntax
open Bytes Reader Results

namespace Reading
variable {s s' : Reading} {lines lines' : List Bytes} {P Q : Reading → Prop}

/-- Takes lines of any length. -/
def takeLines (s : Reading) : Nat → List Bytes → Except SyntaxError Reading
  | _, [] => .ok s
  | number, raw :: rest => do
    let s ← s.addLine number raw
    takeLines s (number + 1) rest

theorem takeLines_append (s : Reading) (number : Nat) (lines lines' : List Bytes) :
    s.takeLines number (lines ++ lines') =
      (do (← s.takeLines number lines).takeLines (number + lines.length) lines') := by
  induction lines generalizing s number with
  | nil => rfl
  | cons raw lines ih =>
    rw [List.cons_append, takeLines, takeLines]
    cases s.addLine number raw with
    | error e => rfl
    | ok t =>
      rw [ok_bind, ok_bind, ih, List.length_cons, Nat.add_assoc, Nat.add_comm 1]

/-- Lines that can be taken are read if none of them is too long. -/
theorem addLines_of_takeLines {number : Nat} (h : s.takeLines number lines = .ok s') :
    s.addLines number lines =
      if ∀ l ∈ lines, l.length < lineLimit then .ok s' else .error .longLine := by
  induction lines generalizing s number with
  | nil =>
    cases h
    simp [addLines]
  | cons raw lines ih =>
    obtain ⟨t, ht, h⟩ := bind_eq_ok.1 h
    rw [addLines]
    by_cases hlen : lineLimit ≤ raw.length
    · rw [if_pos hlen, if_neg fun hshort => Nat.not_lt.2 hlen (hshort raw (by simp))]
    · rw [if_neg hlen, ht, ok_bind, ih h]
      simp only [List.forall_mem_cons, Nat.lt_of_not_le hlen, true_and]

/-- Lines that have been read can be taken. -/
theorem takeLines_of_addLines {number : Nat} (h : s.addLines number lines = .ok s') :
    s.takeLines number lines = .ok s' := by
  induction lines generalizing s number with
  | nil => exact h
  | cons raw lines ih =>
    rw [addLines] at h
    split at h
    · cases h
    · obtain ⟨t, ht, h⟩ := bind_eq_ok.1 h
      rw [takeLines, ht, ok_bind, ih h]

/-- The lines lead to a reading of the given kind. -/
def Leads (s : Reading) (lines : List Bytes) (Q : Reading → Prop) : Prop :=
  ∀ number, ∃ s', Q s' ∧ s.takeLines number lines = .ok s'

theorem leads_nil (h : Q s) : s.Leads [] Q := fun _ => ⟨s, h, rfl⟩

theorem leads_single {raw : Bytes} (h : ∀ number, ∃ s', s.addLine number raw = .ok s' ∧ Q s') :
    s.Leads [raw] Q := by
  intro number
  obtain ⟨s', hok, hq⟩ := h number
  exact ⟨s', hq, by rw [takeLines, hok, ok_bind, takeLines]⟩

theorem Leads.append (h : s.Leads lines P) (h' : ∀ s', P s' → s'.Leads lines' Q) :
    s.Leads (lines ++ lines') Q := by
  intro number
  obtain ⟨s₁, h₁, hfirst⟩ := h number
  obtain ⟨s₂, h₂, hsecond⟩ := h' s₁ h₁ (number + lines.length)
  exact ⟨s₂, h₂, by rw [takeLines_append, hfirst, ok_bind, hsecond]⟩

theorem Leads.mono (h : s.Leads lines P) (hmono : ∀ s', P s' → Q s') : s.Leads lines Q := by
  intro number
  obtain ⟨s', hp, hlines⟩ := h number
  exact ⟨s', hmono s' hp, hlines⟩

/-- The same lines lead to the same reading. -/
theorem Leads.and (h : s.Leads lines P) (h' : s.Leads lines Q) :
    s.Leads lines fun s' => P s' ∧ Q s' := by
  intro number
  obtain ⟨s₁, h₁, hlines⟩ := h number
  obtain ⟨s₂, h₂, hlines'⟩ := h' number
  obtain rfl : s₁ = s₂ := Except.ok.inj (hlines.symm.trans hlines')
  exact ⟨s₁, ⟨h₁, h₂⟩, hlines⟩

/-- Lines that come from the elements of a list, told by the elements that are done. -/
theorem leads_flatMap {α : Type} {l : List α} {k : α → List Bytes} {P : List α → Reading → Prop}
    (hs : P [] s)
    (h : ∀ done a rest s', l = done ++ a :: rest → P done s' → s'.Leads (k a) (P (done ++ [a]))) :
    s.Leads (l.flatMap k) (P l) := by
  suffices ∀ rest done s', l = done ++ rest → P done s' → s'.Leads (rest.flatMap k) (P l) from
    this l [] s rfl hs
  intro rest
  induction rest with
  | nil =>
    intro done s' hl hp
    rw [List.append_nil] at hl
    exact leads_nil (hl ▸ hp)
  | cons a rest ih =>
    intro done s' hl hp
    rw [List.flatMap_cons]
    exact (h done a rest s' hl hp).append fun s'' hp' => ih (done ++ [a]) s'' (by simp [hl]) hp'

end Reading

/-- All names in a draft are known. -/
theorem Draft.unresolved_eq_none {d : Draft} : d.unresolved = none ↔
    (∀ op ∈ d.ops, ∀ name, DraftArg.named name ∈ op.args → d.values.contains name) ∧
      ∀ op ∈ d.ops, ∀ name ∈ op.targets, d.labels.contains name := by
  unfold Draft.unresolved
  rw [List.head?_eq_none_iff, List.append_eq_nil_iff, List.flatMap_eq_nil_iff,
    List.flatMap_eq_nil_iff]
  refine and_congr ?_ ?_
  all_goals refine forall₂_congr fun op _ => List.filterMap_eq_nil_iff.trans ?_
  · refine ⟨fun h name hname => ?_, fun h a ha => ?_⟩
    · simpa using h _ hname
    · cases a with
      | const c => rfl
      | named name => exact if_pos (h name ha)
  · exact forall₂_congr fun name _ => by simp

/-- Ops begin with a percent sign or with a word. -/
theorem DraftOp.Legible.tidy {retBits : Int} {op : DraftOp} (h : op.Legible retBits) :
    ∃ b, Tidy (Disguise.text "  ") op.text b ∧ b ≠ closeBrace := by
  have hindent : ∀ c ∈ Disguise.text "  ", isSpace c :=
    List.all_eq_true.1 (show (Disguise.text "  ").all isSpace from rfl)
  have hends := h.inline.ends
  have terminator : op.result = none → op.code ∈ Opcode.all →
      ∃ b, Tidy (Disguise.text "  ") op.text b ∧ b ≠ closeBrace := by
    intro hnone hcode
    have hname := isIdent_name op.code hcode
    rw [DraftOp.text, hnone] at hends ⊢
    cases hcases : op.code.name with
    | nil => exact absurd hcases hname.nonempty
    | cons b rest =>
      have hb := hname.bytes b (by simp [hcases])
      have hne : ∀ c, isIdentByte c = false → b ≠ c := by
        rintro c hc rfl
        rw [hb] at hc
        cases hc
      rw [hcases] at hends
      exact ⟨b, ⟨hindent, ⟨_, rfl⟩, isSpace_of_isIdentByte hb, hends, hne _ rfl⟩, hne _ rfl⟩
  cases h with
  | value name code known width args full targets result ident =>
    rw [DraftOp.text, result] at hends ⊢
    exact ⟨byte '%', ⟨hindent, ⟨_, rfl⟩, by decide, hends, by decide⟩, by decide⟩
  | ret a code bits args targets result => exact terminator result (by rw [code]; decide)
  | br name code bits args targets result => exact terminator result (by rw [code]; decide)
  | brif a yes no code bits args targets result => exact terminator result (by rw [code]; decide)

/-- The line of an op that can be read and whose name is free. -/
theorem Draft.addLine_op {d : Draft} {op : DraftOp} (h : op.Legible d.header.retBits)
    (hfree : ∀ name, op.result = some name → d.values.contains name = false) (line : Bytes) :
    d.addLine op.line line op.text = d.addOp op := by
  cases hresult : op.result with
  | none => exact addLine_terminator h hresult line
  | some name => exact addLine_value h hresult (hfree name hresult) line

theorem tidy_label {name : Bytes} (h : IsIdent name) :
    ∃ b, Tidy [] (name ++ text ":") b ∧ b ≠ closeBrace := by
  cases name with
  | nil => exact absurd rfl h.nonempty
  | cons b rest =>
    have hb := h.bytes b (by simp)
    have hne : ∀ c, isIdentByte c = false → b ≠ c := by
      rintro c hc rfl
      rw [hb] at hc
      cases hc
    have hends : Ends (text ":") := ends_singleton (by decide)
    exact ⟨b, ⟨by simp, ⟨_, rfl⟩, isSpace_of_isIdentByte hb, hends.append _, hne _ rfl⟩, hne _ rfl⟩

section
variable {g : Graph} {f : FuncId} (hn : g.Named f) (wf : g.WellFormed f) (ht : g.TargetsListed f)
include hn wf ht

/-- The line of the next op. -/
theorem leads_op {s : Reading} {d : Draft} {init : List (BlockId × List OpId)} {b : BlockId}
    {os rest : List OpId} {o : OpId} (hs : s.draft = some d)
    (hd : Follows g f d (init ++ [(b, os)]))
    (hsplit : g.opsOf f = (init.flatMap (·.2) ++ os) ++ o :: rest) :
    s.Leads [text "  " ++ opText g f o] fun s' => ∃ d', s' = { s with draft := some d' } ∧
      Follows g f d' (init ++ [(b, os ++ [o])]) := by
  have ho : o ∈ g.opsOf f := by
    rw [hsplit]
    simp
  refine Reading.leads_single fun number => ?_
  obtain ⟨hlegible, htext⟩ := legible_draftOp hn (wf.form o ho) (ht o ho) number
  obtain ⟨d', hok, hd'⟩ := hd.addOp hn wf.opsOf_nodup hsplit number
  have hfree : ∀ name, (draftOp g f number o).result = some name →
      d.values.contains name = false := by
    intro name hname
    cases hterm : (g.op o).code.isTerminator with
    | true => simp [draftOp, hterm] at hname
    | false =>
      obtain rfl : decimalNat ((resultsOf g f).idxOf o) = name := by
        simpa [draftOp, hterm] using hname
      have hfresh : o ∉ (init ++ [(b, os)]).flatMap (·.2) := by
        intro hmem
        exact (not_mem_of_nodup wf.opsOf_nodup hsplit).1 (by simpa using hmem)
      rw [Dictionary.contains,
        hd.values.free o (List.mem_filter.2 ⟨ho, by simp [hterm]⟩) hfresh]
      rfl
  obtain ⟨c, htidy, hc⟩ := hlegible.tidy
  have hline := Draft.addLine_op (d := d)
    (by rw [hd.header]; exact hlegible) hfree (text "  " ++ opText g f o)
  rw [htext] at htidy hline
  exact ⟨_, Reading.addLine_body htidy hc hs (hline.trans hok), d', rfl, hd'⟩

/-- The lines of the next block. -/
theorem leads_block {s : Reading} {d : Draft} {pre post : List BlockId} {b : BlockId}
    (hs : s.draft = some d) (hsplit : (g.func f).blocks = pre ++ b :: post)
    (hd : Follows g f d (listing g pre)) :
    s.Leads (blockLines g f b) fun s' => ∃ d', s' = { s with draft := some d' } ∧
      Follows g f d' (listing g (pre ++ [b])) := by
  have hb : b ∈ (g.func f).blocks := by
    rw [hsplit]
    simp
  have hnames := wf.blockNames
  have hops : g.opsOf f = (listing g pre).flatMap (·.2) ++
      ((g.block b).ops ++ post.flatMap fun c => (g.block c).ops) := by
    rw [Graph.opsOf, hsplit, flatMap_listing, List.flatMap_append, List.flatMap_cons]
  have hfresh : (g.block b).name ∉ (listing g pre).map fun c => (g.block c.1).name := by
    rw [hsplit, List.map_append, List.map_cons] at hnames
    intro hmem
    rw [listing, List.map_map] at hmem
    exact (not_mem_of_nodup hnames rfl).1 hmem
  have hlabel : s.Leads [(g.block b).name ++ text ":"] fun s' =>
      ∃ d', s' = { s with draft := some d' } ∧ Follows g f d' (listing g pre ++ [(b, [])]) := by
    refine Reading.leads_single fun number => ?_
    obtain ⟨c, htidy, hc⟩ := tidy_label (hn.blocks b hb)
    have hunknown : d.labels.contains (g.block b).name = false := by
      rw [Dictionary.contains, hd.unlabeled _ hfresh]
      rfl
    have hline := Draft.addLine_label (hn.blocks b hb) hunknown number
      ([] ++ ((g.block b).name ++ text ":"))
    exact ⟨_, Reading.addLine_body htidy hc hs hline, _, rfl, hd.addBlock hfresh⟩
  have hbody : ∀ s₁ : Reading, (∃ d', s₁ = { s with draft := some d' } ∧
      Follows g f d' (listing g pre ++ [(b, [])])) →
      s₁.Leads ((g.block b).ops.flatMap fun o => [text "  " ++ opText g f o]) fun s' =>
        ∃ d', s' = { s with draft := some d' } ∧
          Follows g f d' (listing g pre ++ [(b, (g.block b).ops)]) := by
    intro s₁ h₁
    refine Reading.leads_flatMap (P := fun done s' => ∃ d', s' = { s with draft := some d' } ∧
      Follows g f d' (listing g pre ++ [(b, done)])) h₁ ?_
    rintro done o rest _ hdone ⟨d', rfl, hd'⟩
    have hnext : g.opsOf f = ((listing g pre).flatMap (·.2) ++ done) ++
        o :: (rest ++ post.flatMap fun c => (g.block c).ops) := by
      rw [hops, hdone]
      simp only [List.append_assoc, List.cons_append]
    exact leads_op hn wf ht rfl hd' hnext
  have hlast : listing g (pre ++ [b]) = listing g pre ++ [(b, (g.block b).ops)] := by
    simp [listing]
  rw [hlast, blockLines, ← List.flatMap_singleton' (List.map _ _), List.flatMap_map]
  exact hlabel.append hbody

omit hn in
/-- All names in the draft of a whole function are known. -/
theorem Follows.unresolved {d : Draft} (hd : Follows g f d (listing g (g.func f).blocks)) :
    d.unresolved = none := by
  have hvalues := hd.knows
  have hop : ∀ op ∈ d.ops, ∃ o ∈ g.opsOf f, op.args = (draftOp g f 0 o).args ∧
      op.targets = (draftOp g f 0 o).targets := by
    intro op hmem
    have hmap : op.unplaced ∈ d.ops.map DraftOp.unplaced := List.mem_map_of_mem hmem
    rw [hd.ops_eq] at hmap
    obtain ⟨o, ho, heq⟩ := List.mem_map.1 hmap
    exact ⟨o, ho, (congrArg DraftOp.args heq).symm, (congrArg DraftOp.targets heq).symm⟩
  have harg : ∀ op ∈ d.ops, ∀ name, DraftArg.named name ∈ op.args → d.values.contains name := by
    intro op hmem name hname
    obtain ⟨o, ho, hargs, -⟩ := hop op hmem
    rw [hargs] at hname
    obtain ⟨v, hv, hdraft⟩ := List.mem_filterMap.1 hname
    obtain ⟨w, bits, rfl, -, hok⟩ := wf.exists_operandOk ho hv
    cases w with
    | const c => cases hdraft
    | param p =>
      obtain rfl : (g.param p).name = name := by simpa [draftArg] using hdraft
      obtain ⟨i, hi⟩ := List.getElem?_of_mem hok.1
      rw [Dictionary.contains, hvalues.params i p hi]
      rfl
    | result u =>
      obtain rfl : decimalNat ((resultsOf g f).idxOf u) = name := by
        simpa [draftArg] using hdraft
      obtain ⟨i, hi⟩ := List.getElem?_of_mem hok.1
      have hresult : u ∈ resultsOf g f := List.mem_filter.2 ⟨hok.1, by simp [hok.2.2.1]⟩
      rw [Dictionary.contains, hvalues.results i u hi hresult]
      rfl
  have htarget : ∀ op ∈ d.ops, ∀ name ∈ op.targets, d.labels.contains name := by
    intro op hmem name hname
    obtain ⟨o, ho, -, htargets⟩ := hop op hmem
    rw [htargets] at hname
    obtain ⟨t, hmemt, hdraft⟩ := List.mem_filterMap.1 hname
    cases t with
    | none => cases hdraft
    | some b =>
      obtain rfl : (g.block b).name = name := by simpa using hdraft
      obtain ⟨i, hi⟩ := List.getElem?_of_mem (ht o ho b hmemt)
      rw [Dictionary.contains, hd.labels i b (by simpa [listing] using hi)]
      rfl
  exact Draft.unresolved_eq_none.2 ⟨harg, htarget⟩

omit hn ht in
theorem legible_headerOf (hn : g.Named f) : (headerOf g (g.func f)).Legible where
  name := hn.name
  params := by
    intro q hq
    obtain ⟨p, hp, rfl⟩ := List.mem_map.1 hq
    exact ⟨hn.params p hp, hn.paramStart p hp, wf.paramWidth p hp⟩
  retBits := wf.retWidth

variable [Unicode]

omit hn wf ht in
/-- The lines of a function behind its header. -/
theorem funcLines_eq (g : Graph) (f : FuncId) : funcLines g f = (headerOf g (g.func f)).text ::
    if (g.func f).isDeclaration then []
    else (g.func f).blocks.flatMap (blockLines g f) ++ [text "\x7d"] := by
  have hheader : printHeader g (g.func f) ++ printBrace (!(g.func f).isDeclaration) =
      (headerOf g (g.func f)).text := printHeader_eq g (g.func f)
  rw [← hheader, funcLines]
  cases (g.func f).isDeclaration with
  | true => simp [printBrace]
  | false => simp [printBrace]

/-- The lines of a function end in the draft that is built. -/
theorem leads_func {s : Reading} (hs : s.draft = none) :
    s.Leads (funcLines g f) fun s' => ∃ d, Follows g f d (listing g (g.func f).blocks) ∧
      s' = { s with
        graph := (d.build s.graph s.module).1
        funcs := (d.build s.graph s.module).2 :: s.funcs } := by
  have hlegible := legible_headerOf wf hn
  rw [funcLines_eq]
  cases hdecl : (g.func f).isDeclaration with
  | true =>
    have hblocks : (g.func f).blocks = [] := List.isEmpty_iff.1 hdecl
    rw [if_pos rfl, hblocks]
    refine Reading.leads_single fun number => ⟨_, Reading.addLine_header hs hlegible number, ?_⟩
    rw [if_neg (by simp [headerOf, hdecl])]
    exact ⟨_, .start hn wf, rfl⟩
  | false =>
    have hblocks : (g.func f).blocks ≠ [] := by simpa [Func.isDeclaration] using hdecl
    have hopen : s.Leads [(headerOf g (g.func f)).text] fun s' =>
        ∃ d, s' = { s with draft := some d } ∧ Follows g f d (listing g []) := by
      refine Reading.leads_single fun number => ⟨_, Reading.addLine_header hs hlegible number, ?_⟩
      rw [if_pos (by simp [headerOf, hdecl])]
      exact ⟨_, rfl, .start hn wf⟩
    rw [if_neg (by simp), ← List.singleton_append]
    refine hopen.append fun s₁ h₁ => ?_
    refine (Reading.leads_flatMap (P := fun done s' => ∃ d, s' = { s with draft := some d } ∧
      Follows g f d (listing g done)) h₁ ?_).append ?_
    · rintro done b rest _ hdone ⟨d, rfl, hd⟩
      exact leads_block hn wf ht rfl hdone hd
    · rintro _ ⟨d, rfl, hd⟩
      refine Reading.leads_single fun number => ?_
      have hfinish : d.finish s.graph s.module = .ok (d.build s.graph s.module) := by
        refine Draft.finish_eq_ok.2 ⟨hd.unresolved wf ht, fun hnil => hblocks ?_, rfl⟩
        have hbody := congrArg List.length hd.body
        rw [List.length_map, List.length_map, Draft.length_body, hnil, listing,
          List.length_map] at hbody
        exact List.length_eq_zero_iff.1 hbody.symm
      have hclose := @Reading.addLine_close { s with draft := some d } d rfl _ hfinish number
      exact ⟨_, hclose, d, hd, by rw [hs]⟩

/-- No line of a function holds the byte that ends lines. -/
theorem newline_not_mem_funcLines : ∀ l ∈ funcLines g f, newline ∉ l := by
  have hblock : ∀ b ∈ (g.func f).blocks, ∀ l ∈ blockLines g f b, newline ∉ l := by
    intro b hb l hl
    rcases List.mem_cons.1 hl with rfl | hl
    · have hcolon : newline ∉ text ":" := by decide
      simp [(hn.blocks b hb).inline.plain, hcolon]
    · obtain ⟨o, ho, rfl⟩ := List.mem_map.1 hl
      have hof := Graph.mem_opsOf.2 ⟨b, hb, ho⟩
      obtain ⟨hlegible, htext⟩ := legible_draftOp hn (wf.form o hof) (ht o hof) 0
      rw [← htext]
      exact (hlegible.inline.append (by decide)).plain
  intro l hl
  rw [funcLines_eq] at hl
  rcases List.mem_cons.1 hl with rfl | hl
  · exact (legible_headerOf wf hn).inline.plain
  · split at hl
    · cases hl
    · rcases List.mem_append.1 hl with hl | hl
      · obtain ⟨b, hb, hl⟩ := List.mem_flatMap.1 hl
        exact hblock b hb l hl
      · rw [List.mem_singleton.1 hl]
        decide

end
end Disguise.Syntax
