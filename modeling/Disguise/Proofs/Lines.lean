import Disguise.Proofs.Wording
import Disguise.Syntax.Parser

/-!
Texts and their lines. No printed line holds a newline, so a text is cut where its lines end; and no
printed line ends in a blank, so nothing of a line is lost.
-/
namespace Disguise.Syntax
open Bytes Reader Results

theorem split_unlines {lines : List Bytes} (h : ∀ l ∈ lines, newline ∉ l) :
    split newline (unlines lines) = lines ++ [[]] := by
  induction lines with
  | nil => rfl
  | cons l lines ih =>
    have htext : unlines (l :: lines) = l ++ newline :: unlines lines := by
      rw [unlines_cons, List.append_assoc]
      rfl
    rw [htext, split_eq_splitOn, List.splitOn_append_cons_self_of_not_mem (h l (by simp)),
      ← split_eq_splitOn, ih fun k hk => h k (by simp [hk])]
    rfl

/-- A text is cut into the lines that it was made of. -/
theorem linesOf_unlines {lines : List Bytes} (h : ∀ l ∈ lines, newline ∉ l) :
    linesOf (unlines lines) = lines := by
  unfold linesOf
  rw [split_unlines h]
  simp

/-- Blanks and carriage returns may stand behind a line. -/
def endsLine (b : UInt8) : Bool := isSpace b || b = 13

/-- A line without what may stand behind it. -/
def trimRight (raw : Bytes) : Bytes := raw.dropRightWhile endsLine

/-- The text ends in no blank. -/
def Ends (s : Bytes) : Prop := ∃ t b, s = t ++ [b] ∧ isSpace b = false ∧ b ≠ 13

theorem Ends.trimRight_eq {s : Bytes} (h : Ends s) : trimRight s = s := by
  obtain ⟨t, b, rfl, hspace, hreturn⟩ := h
  simp [trimRight, endsLine, Bytes.dropRightWhile, hspace, hreturn]

theorem Ends.append {s : Bytes} (h : Ends s) (r : Bytes) : Ends (r ++ s) := by
  obtain ⟨t, b, rfl, hb⟩ := h
  exact ⟨r ++ t, b, by rw [List.append_assoc], hb⟩

theorem Ends.cons {s : Bytes} (h : Ends s) (b : UInt8) : Ends (b :: s) := h.append [b]

theorem ends_singleton {b : UInt8} (h : isSpace b = false ∧ b ≠ 13) : Ends [b] := ⟨[], b, rfl, h⟩

/-- The text may be a part of a line. -/
structure Inline (s : Bytes) : Prop where
  plain : newline ∉ s
  ends : Ends s

theorem IsIdent.inline {name : Bytes} (h : IsIdent name) : Inline name where
  plain hmem := by
    have hb := h.bytes newline hmem
    revert hb
    decide
  ends := by
    obtain ⟨t, b, rfl⟩ := (List.eq_nil_or_concat name).resolve_left h.nonempty
    rw [List.concat_eq_append] at h ⊢
    have hb := h.bytes b (by simp)
    refine ⟨t, b, rfl, isSpace_of_isIdentByte hb, ?_⟩
    rintro rfl
    revert hb
    decide

theorem Inline.append {s : Bytes} (h : Inline s) {r : Bytes} (hr : newline ∉ r) :
    Inline (r ++ s) :=
  ⟨by simp [hr, h.plain], h.ends.append r⟩

theorem Inline.cons {s : Bytes} (h : Inline s) {b : UInt8} (hb : newline ≠ b) : Inline (b :: s) :=
  h.append (r := [b]) (by simpa using hb)

theorem Inline.append_right {s t : Bytes} (h : Inline s) (ht : t = [] ∨ Inline t) :
    Inline (s ++ t) := by
  rcases ht with rfl | ht
  · rwa [List.append_nil]
  · exact ht.append h.plain

theorem Inline.join {ps : List Bytes} (h : ∀ p ∈ ps, Inline p) (hne : ps ≠ []) :
    Inline (join comma ps) := by
  induction ps with
  | nil => exact absurd rfl hne
  | cons p ps ih =>
    cases ps with
    | nil =>
      rw [join_singleton]
      exact h p (by simp)
    | cons q ps =>
      rw [join_cons_cons]
      have hrest := ih (fun r hr => h r (by simp [hr])) (by simp)
      exact (hrest.append (by decide)).append (h p (by simp)).plain

theorem inline_text {bits : Int} {a : DraftArg} (h : a.Legible bits) : Inline a.text := by
  cases a with
  | const c => exact (isIdent_hex c.val.toNat).inline
  | named name => exact h.inline.append (by decide)

theorem inline_decimal {n : Int} (h : 0 ≤ n) : Inline (decimal n) := by
  rw [decimal, if_neg (by omega)]
  exact (isIdent_decimalNat _).inline

/-- The line of an op. -/
theorem DraftOp.Legible.inline {retBits : Int} {op : DraftOp} (h : op.Legible retBits) :
    Inline op.text := by
  -- a terminator is its code followed by its operands and targets
  have terminator : op.result = none → newline ∉ op.code.name →
      (∀ p ∈ op.args.map DraftArg.text ++ op.targets, Inline p) →
      op.args.map DraftArg.text ++ op.targets ≠ [] → Inline op.text := by
    intro hnone hcode hparts hne
    rw [DraftOp.text, hnone]
    exact ((Inline.join hparts hne).cons (b := 32) (by decide)).append hcode
  cases h with
  | value name code known width args full targets result ident =>
    have hwidth : 0 ≤ op.bits := by
      obtain ⟨w, hw, -⟩ := Word.goodWidth_iff.1 width
      omega
    have hargs : Inline (join comma (op.args.map DraftArg.text)) := by
      refine Inline.join (fun p hp => ?_) (by simp [full])
      obtain ⟨a, ha, rfl⟩ := List.mem_map.1 hp
      exact inline_text (args a ha)
    have htype := (hargs.cons (b := 32) (by decide)).append (inline_decimal hwidth).plain
    have hcode := ((htype.cons (b := byte 'i') (by decide)).cons (b := 32) (by decide)).append
      (isIdent_name op.code known).inline.plain
    have hequals := ((hcode.cons (b := 32) (by decide)).cons (b := byte '=') (by decide)).cons
      (b := 32) (by decide)
    rw [DraftOp.text, result]
    exact (hequals.append ident.inline.plain).cons (by decide)
  | ret a code bits args targets result arg =>
    refine terminator result (by rw [code]; decide) ?_ (by simp [args])
    simp [args, targets, inline_text arg]
  | br name code bits args targets result ident =>
    refine terminator result (by rw [code]; decide) ?_ (by simp [targets])
    simp [args, targets, ident.inline]
  | brif a yes no code bits args targets result arg identYes identNo =>
    refine terminator result (by rw [code]; decide) ?_ (by simp [args])
    simp [args, targets, inline_text arg, identYes.inline, identNo.inline]

theorem inline_quote [Unicode] (s : Bytes) : Inline (Quoted.quote s) where
  plain := Quoted.newline_not_mem_quote s
  ends := ⟨_, Quoted.mark, rfl, by decide⟩

/-- What a header has to say to be read. -/
structure Header.Legible (h : Header) : Prop where
  name : IsIdent h.name
  params : ∀ p ∈ h.params, IsIdent p.1 ∧ p.1.head?.any isDigitByte = false ∧ Word.goodWidth p.2
  retBits : Word.goodWidth h.retBits

def Header.text [Unicode] (h : Header) : Bytes :=
  (if h.external then Disguise.text "external" ++ [32] else []) ++
    (keyword h.hasBody ++ 32 :: printSignature h)

theorem Header.Legible.takes [Unicode] {h : Header} (hl : h.Legible) : Takes header h.text h [] :=
  takes_header hl.name hl.params hl.retBits

theorem nonneg_of_goodWidth {bits : Int} (h : Word.goodWidth bits) : 0 ≤ bits := by
  obtain ⟨w, hw, -⟩ := Word.goodWidth_iff.1 h
  omega

theorem inline_printSignature [Unicode] {h : Header} (hl : h.Legible) : Inline
    (printSignature h) := by
  have hparams : newline ∉ join comma (h.params.map printParam) := by
    by_cases hne : h.params = []
    · rw [hne]
      decide
    · refine (Inline.join (fun q hq => ?_) (by simpa using hne)).plain
      obtain ⟨p, hp, rfl⟩ := List.mem_map.1 hq
      obtain ⟨hname, -, hwidth⟩ := hl.params p hp
      have hbits := inline_decimal (nonneg_of_goodWidth hwidth)
      have hstart : newline ∉ Disguise.text "i" ++ decimal p.2 ++ Disguise.text " %" := by
        have hi : newline ∉ Disguise.text "i" := by decide
        have hpercent : newline ∉ Disguise.text " %" := by decide
        simp [hi, hpercent, hbits.plain]
      exact hname.inline.append hstart
  have hnote : printNote h.annotation = [] ∨ Inline (printNote h.annotation) := by
    unfold printNote
    split
    · exact .inl rfl
    · have hclose : Inline (Disguise.text ")") := ⟨by decide, ends_singleton (by decide)⟩
      exact .inr (hclose.append (by simp [(inline_quote _).plain]; decide))
  have hmetadata : printMetadata h.metadata = [] ∨ Inline (printMetadata h.metadata) := by
    unfold printMetadata
    split
    · exact .inl rfl
    · rename_i hne
      have hclose : Inline (Disguise.text ")") := ⟨by decide, ends_singleton (by decide)⟩
      have hquotes : Inline (join comma (h.metadata.map Quoted.quote)) := by
        refine Inline.join (fun q hq => ?_) (by simpa using hne)
        obtain ⟨p, -, rfl⟩ := List.mem_map.1 hq
        exact inline_quote p
      exact .inr (hclose.append (by simp [hquotes.plain]; decide))
  have hbrace : printBrace h.hasBody = [] ∨ Inline (printBrace h.hasBody) := by
    cases h.hasBody with
    | false => exact .inl rfl
    | true => exact .inr ⟨by decide, [32], 123, rfl, by decide⟩
  have hret := (inline_decimal (nonneg_of_goodWidth hl.retBits)).cons (b := byte 'i') (by decide)
  have htail := ((hret.append_right hnote).append_right hmetadata).append_right hbrace
  have hclose := (htail.cons (b := 32) (by decide)).cons (b := byte ')') (by decide)
  have hopen := (hclose.append hparams).cons (b := byte '(') (by decide)
  unfold printSignature
  simpa using hopen.append hl.name.inline.plain

theorem Header.Legible.inline [Unicode] {h : Header} (hl : h.Legible) : Inline h.text := by
  have hsig := (inline_printSignature hl).cons (b := 32) (by decide)
  unfold Header.text
  refine (hsig.append (isIdent_keyword h.hasBody).inline.plain).append ?_
  split <;> decide

/-- A header begins with a word. -/
theorem Header.begins [Unicode] (h : Header) : ∃ b t, h.text = b :: t ∧ isIdentByte b := by
  have word : ∀ (name s : Bytes), IsIdent name → ∃ b t, name ++ s = b :: t ∧ isIdentByte b := by
    intro name s hname
    cases name with
    | nil => exact absurd rfl hname.nonempty
    | cons b rest => exact ⟨b, rest ++ s, rfl, hname.bytes b (by simp)⟩
  unfold Header.text
  split
  · rw [List.append_assoc]
    exact word _ _ (isIdent_of_all rfl rfl)
  · rw [List.nil_append]
    exact word _ _ (isIdent_keyword _)

/-- A line without the blanks around it. -/
def content (raw : Bytes) : Bytes := (trimRight raw).dropWhile isSpace

theorem content_eq (raw : Bytes) :
    (raw.dropRightWhile fun b => isSpace b || b = 13).dropWhile isSpace = content raw := rfl

/-- The line is neither blank nor a comment. -/
def isCode (line : Bytes) : Bool := line.head?.any (· ≠ byte '#')

namespace Reading
variable {s t : Reading} {d : Draft} {raw : Bytes} {number : Nat}

theorem addLine_skipped (h : isCode (content raw) = false) : s.addLine number raw = .ok s := by
  cases hhead : (content raw).head? with
  | none =>
    simp only [addLine, content_eq, hhead]
    rfl
  | some b =>
    rw [isCode, hhead] at h
    simp only [addLine, content_eq, hhead]
    exact if_pos (by simpa using h)

/-- A line between functions is a header. -/
theorem addLine_outside (hs : s.draft = none) (h : isCode (content raw)) :
    s.addLine number raw = .ok t ↔ ∃ hd left, header (content raw) = .ok (hd, left) ∧
      (if hd.hasBody then { s with draft := some (.start hd) } else
        { s with
          graph := ((Draft.start hd).build s.graph s.module).1
          funcs := ((Draft.start hd).build s.graph s.module).2 :: s.funcs }) = t := by
  obtain ⟨graph, module, funcs, draft⟩ := s
  obtain rfl : draft = none := hs
  obtain ⟨b, hhead, hb⟩ := (Option.any_eq_true _ _).1 h
  have hmark : b ≠ byte '#' := by simpa using hb
  simp only [addLine, content_eq, hhead]
  rw [if_neg hmark, bind_eq_ok, Prod.exists]
  refine exists_congr fun hd => exists_congr fun left => and_congr mapError_eq_ok ?_
  dsimp only
  split <;> exact pure_eq_ok

/-- A line of a body is given to the draft. -/
theorem addLine_inside (hs : s.draft = some d) (h : isCode (content raw))
    (hopen : (content raw).head? ≠ some closeBrace) :
    s.addLine number raw = .ok t ↔ ∃ d',
      d.addLine number (trimRight raw) (content raw) = .ok d' ∧
        { s with draft := some d' } = t := by
  obtain ⟨graph, module, funcs, draft⟩ := s
  obtain rfl : draft = some d := hs
  obtain ⟨b, hhead, hb⟩ := (Option.any_eq_true _ _).1 h
  have hmark : b ≠ byte '#' := by simpa using hb
  have hbrace : b ≠ closeBrace := by
    rintro rfl
    exact hopen hhead
  simp only [addLine, content_eq, hhead]
  rw [if_neg hmark, if_neg hbrace, bind_eq_ok]
  exact exists_congr fun d' => and_congr_right fun _ => pure_eq_ok

/-- A brace finishes a function. -/
theorem addLine_closing (hs : s.draft = some d) (hclose : (content raw).head? = some closeBrace) :
    s.addLine number raw = .ok t ↔ ((content raw).drop 1).all isSpace ∧
      ∃ r, d.finish s.graph s.module = .ok r ∧
        { s with graph := r.1, funcs := r.2 :: s.funcs, draft := none } = t := by
  obtain ⟨graph, module, funcs, draft⟩ := s
  obtain rfl : draft = some d := hs
  simp only [addLine, content_eq, hclose]
  rw [if_neg (by decide), if_pos trivial]
  change (if (!((content raw).drop 1).all isSpace) = true then _ else _) = _ ↔ _
  cases ((content raw).drop 1).all isSpace with
  | false => simp
  | true =>
    simp only [Bool.not_true, Bool.false_eq_true, if_false, true_and, bind_eq_ok, pure_eq_ok]

end Reading

/-- A line that begins and ends with no blank, apart from its indent. -/
structure Tidy (indent rest : Bytes) (b : UInt8) : Prop where
  indent : ∀ c ∈ indent, isSpace c
  begins : ∃ t, rest = b :: t
  blank : isSpace b = false
  ends : Ends rest
  mark : b ≠ byte '#'

namespace Reading
variable {s : Reading} {indent rest : Bytes} {b : UInt8}

theorem content_of_tidy (ht : Tidy indent rest b) :
    trimRight (indent ++ rest) = indent ++ rest ∧ content (indent ++ rest) = rest ∧
      isCode rest := by
  obtain ⟨t, rfl⟩ := ht.begins
  have htrim := (ht.ends.append indent).trimRight_eq
  refine ⟨htrim, ?_, by simp [isCode, ht.mark]⟩
  rw [content, htrim, List.dropWhile_append_of_pos ht.indent, List.dropWhile_cons,
    if_neg (by simp [ht.blank])]

/-- A line of a body is given to the draft. -/
theorem addLine_body (ht : Tidy indent rest b) (hb : b ≠ closeBrace) {d d' : Draft}
    (hs : s.draft = some d) {number : Nat}
    (h : d.addLine number (indent ++ rest) rest = .ok d') :
    s.addLine number (indent ++ rest) = .ok { s with draft := some d' } := by
  obtain ⟨htrim, hcontent, hcode⟩ := content_of_tidy ht
  obtain ⟨t, rfl⟩ := ht.begins
  refine (addLine_inside hs (by rwa [hcontent]) (by rw [hcontent]; simpa using hb)).2 ⟨d', ?_, rfl⟩
  rwa [htrim, hcontent]

/-- A brace finishes a function. -/
theorem addLine_close {d : Draft} (hs : s.draft = some d) {r : Graph × FuncId}
    (h : d.finish s.graph s.module = .ok r) (number : Nat) :
    s.addLine number (text "\x7d") =
      .ok { s with graph := r.1, funcs := r.2 :: s.funcs, draft := none } :=
  (addLine_closing hs rfl).2 ⟨rfl, r, h, rfl⟩

/-- A header begins a function. -/
theorem addLine_header [Unicode] (hs : s.draft = none) {h : Header} (hl : h.Legible)
    (number : Nat) :
    s.addLine number h.text = .ok (if h.hasBody then { s with draft := some (.start h) } else
      { s with
        graph := ((Draft.start h).build s.graph s.module).1
        funcs := ((Draft.start h).build s.graph s.module).2 :: s.funcs }) := by
  obtain ⟨b, t, htext, hb⟩ := h.begins
  have ht : Tidy [] h.text b := by
    refine ⟨by simp, ⟨t, htext⟩, isSpace_of_isIdentByte hb, hl.inline.ends, ?_⟩
    rintro rfl
    revert hb
    decide
  obtain ⟨-, hcontent, hcode⟩ := content_of_tidy ht
  rw [List.nil_append] at hcontent
  refine (addLine_outside hs (by rwa [hcontent])).2 ⟨h, [], ?_, rfl⟩
  rw [hcontent]
  exact hl.takes

theorem addLine_nil (number : Nat) : s.addLine number [] = .ok s := rfl

end Reading
end Disguise.Syntax
