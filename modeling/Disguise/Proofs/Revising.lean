import Disguise.Proofs.Alike
import Disguise.Proofs.Isomorphism
import Disguise.Text.Printable

/-!
Texts that say the same. Comments, empty lines, blanks around lines and the names of results are a
matter of taste: a text that differs from an accepted one in nothing else is read as the same
module, number by number.
-/
namespace Disguise.Syntax
open Bytes Reader Results

namespace Reading
variable {s t : Reading} {Q : Reading → Prop}

/-- What a line between functions does is told by what it says. -/
theorem addLine_of_content {raw raw' : Bytes} {number : Nat} (hs : s.draft = none)
    (hcode : isCode (content raw)) (hraw : content raw' = content raw)
    (h : s.addLine number raw = .ok t) (number' : Nat) : s.addLine number' raw' = .ok t := by
  rw [addLine_outside hs hcode] at h
  rwa [addLine_outside hs (by rwa [hraw]), hraw]

section
variable {lines lines' : List Bytes} (hcode : ∀ l ∈ lines, isCode l)
  (hinside : ∀ l ∈ lines, l.head? ≠ some closeBrace)
include hcode hinside

/-- Lines of a body change the draft only. -/
theorem Reads.exists_draft {d : Draft} (h : Reads lines { s with draft := some d } t) :
    ∃ d₁, t = { s with draft := some d₁ } := by
  induction lines generalizing d with
  | nil => exact ⟨d, h.symm⟩
  | cons l lines ih =>
    obtain ⟨hl, hcodes⟩ := List.forall_mem_cons.1 hcode
    obtain ⟨hopen, hopens⟩ := List.forall_mem_cons.1 hinside
    obtain ⟨number, raw, u, rfl, hu, h⟩ := h
    obtain ⟨d₁, -, rfl⟩ := (addLine_inside rfl hl hopen).1 hu
    exact ih hcodes hopens h

/-- They lead alike drafts to alike drafts. -/
theorem Reads.reaches_body {ρ : Bytes → Bytes} {names : List Bytes}
    (hlines : List.Forall₂ (Renamed ρ) lines lines')
    (hρ : ∀ name, IsIdent name → IsIdent (ρ name))
    (hinj : ∀ a ∈ names, ∀ b ∈ names, ρ a = ρ b → a = b)
    (hresults : ∀ r ∈ lines.filterMap resultOf, r ∈ names) {d d' d₁ : Draft}
    (halike : d.Alike ρ names d')
    (h : Reads lines { s with draft := some d } { s with draft := some d₁ }) :
    Reaches (fun t => ∃ d₁', d₁.Alike ρ names d₁' ∧ t = { s with draft := some d₁' }) lines'
      { s with draft := some d' } := by
  induction hlines generalizing d d' with
  | nil =>
    obtain rfl : d = d₁ := Option.some.inj (congrArg Reading.draft h)
    exact ⟨d', halike, rfl⟩
  | @cons l l' lines lines' hl _ ih =>
    obtain ⟨hline, hcodes⟩ := List.forall_mem_cons.1 hcode
    obtain ⟨hopen, hopens⟩ := List.forall_mem_cons.1 hinside
    obtain ⟨number, raw, u, rfl, hu, h⟩ := h
    obtain ⟨d₂, hadd, rfl⟩ := (addLine_inside rfl hline hopen).1 hu
    intro number' raw' hraw
    have hname : ∀ r ∈ resultOf (content raw), r ∈ names :=
      fun r hr => hresults r (List.mem_filterMap.2 ⟨_, by simp, hr⟩)
    have hhead := hl.head?_eq
    rw [← hraw] at hl hhead
    obtain ⟨d₂', hadd', halike'⟩ :=
      halike.addLine hρ hinj hl hname hadd number' (trimRight raw')
    have hcode' : isCode (content raw') := by
      rwa [isCode, hhead, ← isCode]
    refine ⟨_, (addLine_inside rfl hcode' (by rwa [hhead])).2 ⟨d₂', hadd', rfl⟩, ?_⟩
    refine ih hcodes hopens (fun r hr => hresults r ?_) halike' h
    obtain ⟨k, hk, hr⟩ := List.mem_filterMap.1 hr
    exact List.mem_filterMap.2 ⟨k, by simp [hk], hr⟩

end

end Reading

/-- What the lines of two texts say is the same up to the names of results, which each function may
have changed in its own way. Comments, empty lines and blanks around lines are no contents to begin
with (`parse_insert_iff`, `parse_pad_iff`), and renamed lines have renamed contents
(`parse_rename`). -/
inductive Revised : List Bytes → List Bytes → Prop
  | nil : Revised [] []
  | declaration {h : Header} {line left : Bytes} {rest rest' : List Bytes}
      (read : header line = .ok (h, left)) (body : h.hasBody = false)
      (revised : Revised rest rest') : Revised (line :: rest) (line :: rest')
  | function {h : Header} {ρ : Bytes → Bytes} {line left close : Bytes}
      {lines lines' rest rest' : List Bytes} (read : header line = .ok (h, left))
      (body : h.hasBody) (inside : ∀ l ∈ lines, l.head? ≠ some closeBrace)
      (outside : close.head? = some closeBrace)
      (names : Renames ρ (h.params.map (·.1)) (lines.filterMap resultOf))
      (renamed : List.Forall₂ (Renamed ρ) lines lines') (revised : Revised rest rest') :
      Revised (line :: (lines ++ close :: rest)) (line :: (lines' ++ close :: rest'))

open Reading in
/-- Lines that say the same lead to the same reading. -/
theorem Revised.reaches {lines lines' : List Bytes} (h : Revised lines lines')
    (hcode : ∀ l ∈ lines, isCode l) {s t : Reading} (hs : s.draft = none)
    (hreads : Reads lines s t) : Reaches (· = t) lines' s := by
  induction h generalizing s with
  | nil => exact hreads
  | @declaration h line left rest rest' read body _ ih =>
    obtain ⟨hline, hcodes⟩ := List.forall_mem_cons.1 hcode
    obtain ⟨number, raw, u, rfl, hu, hreads⟩ := hreads
    intro number' raw' hraw
    refine ⟨u, addLine_of_content hs hline hraw hu number', ih hcodes ?_ hreads⟩
    obtain ⟨h', left', read', rfl⟩ := (addLine_outside hs hline).1 hu
    obtain ⟨rfl, -⟩ := Prod.mk.inj (Except.ok.inj (read'.symm.trans read))
    rw [if_neg (by simp [body])]
    exact hs
  | @function h ρ line left close lines lines' rest rest' read body inside outside names renamed _
      ih =>
    obtain ⟨hline, hcodes⟩ := List.forall_mem_cons.1 hcode
    obtain ⟨hbodies, hcodes⟩ := List.forall_mem_append.1 hcodes
    obtain ⟨-, hcodes⟩ := List.forall_mem_cons.1 hcodes
    obtain ⟨number, raw, u, rfl, hu, hreads⟩ := hreads
    intro number' raw' hraw
    refine ⟨u, addLine_of_content hs hline hraw hu number', ?_⟩
    obtain ⟨h', left', read', rfl⟩ := (addLine_outside hs hline).1 hu
    obtain ⟨rfl, -⟩ := Prod.mk.inj (Except.ok.inj (read'.symm.trans read))
    rw [if_pos body] at hreads ⊢
    obtain ⟨v, hlines, hreads⟩ := reads_append.1 hreads
    obtain ⟨d, rfl⟩ := hlines.exists_draft hbodies inside
    -- the renamed body leads to a draft that need not be the same, only alike
    have hstart := hlines.reaches_body hbodies inside renamed names.ident names.inj
      (fun r hr => List.mem_append_right _ hr) (.start names)
    refine (hstart.mono ?_).append
    rintro _ ⟨d', halike, rfl⟩ number₁ raw₁ hraw₁
    obtain ⟨number₂, raw₂, w, hraw₂, hw, hreads⟩ := hreads
    obtain ⟨hblank, r, hr, rfl⟩ := (addLine_closing rfl (by rwa [hraw₂])).1 hw
    rw [hraw₂] at hblank
    refine ⟨_, (addLine_closing rfl (by rwa [hraw₁])).2 ⟨by rwa [hraw₁], r, ?_, rfl⟩, ?_⟩
    · -- the graph keeps neither names of results nor numbers of lines
      exact halike.finish hr
    · exact ih hcodes rfl hreads

/-- A revised text is read as the same module. -/
theorem parse_of_revised {text text' : Bytes} {g : Graph} {m : ModuleId}
    (h : parse text = .ok (g, m))
    (hrevised : Revised (contents (linesOf text)) (contents (linesOf text')))
    (hshort : ∀ l ∈ linesOf text', l.length < lineLimit) : parse text' = .ok (g, m) := by
  unfold parse parseInto at h ⊢
  dsimp only at h ⊢
  obtain ⟨r, hr, h⟩ := bind_eq_ok.1 h
  have hreads := Reading.reads_contents (Reading.takeLines_of_addLines hr)
  have hcode : ∀ l ∈ contents (linesOf text), isCode l := fun l hl => (List.mem_filter.1 hl).2
  obtain ⟨_, rfl, hlines⟩ := (hrevised.reaches hcode rfl hreads).leads 1
  rw [Reading.addLines_of_takeLines hlines, if_pos hshort, ok_bind]
  exact h

/-- A body that was closed, and what was left behind it. The results were not known before. -/
theorem Reading.Reads.exists_body {lines : List Bytes} (hcode : ∀ l ∈ lines, isCode l)
    {s t : Reading} {d : Draft} (h : Reads lines { s with draft := some d } t)
    (ht : t.draft = none) : ∃ body close rest u, lines = body ++ close :: rest ∧
      (∀ l ∈ body, l.head? ≠ some closeBrace) ∧ close.head? = some closeBrace ∧
      (∀ r ∈ body.filterMap resultOf, d.values.contains r = false) ∧
      u.draft = none ∧ Reads rest u t := by
  induction lines generalizing d with
  | nil =>
    obtain rfl : { s with draft := some d } = t := h
    cases ht
  | cons l lines ih =>
    obtain ⟨hline, hcodes⟩ := List.forall_mem_cons.1 hcode
    obtain ⟨number, raw, u, rfl, hu, h⟩ := h
    by_cases hclose : (content raw).head? = some closeBrace
    · obtain ⟨-, r, -, rfl⟩ := (addLine_closing rfl hclose).1 hu
      exact ⟨[], _, lines, _, rfl, by simp, hclose, by simp, rfl, h⟩
    · obtain ⟨d₁, hadd, rfl⟩ := (addLine_inside rfl hline hclose).1 hu
      obtain ⟨hmono, hfree⟩ := Draft.values_of_addLine hadd
      obtain ⟨body, close, rest, u, rfl, hbody, hbrace, hresults, hu, h⟩ := ih hcodes h
      refine ⟨content raw :: body, close, rest, u, rfl,
        List.forall_mem_cons.2 ⟨hclose, hbody⟩, hbrace, fun r hr => ?_, hu, h⟩
      obtain ⟨k, hk, hr⟩ := List.mem_filterMap.1 hr
      rcases List.mem_cons.1 hk with rfl | hk
      · exact hfree r hr
      · have hlater := hresults r (List.mem_filterMap.2 ⟨k, hk, hr⟩)
        rw [← Bool.not_eq_true] at hlater ⊢
        exact fun hknown => hlater (hmono r hknown)

open Reading in
/-- What has been read says the same as itself. -/
theorem revised_of_reads {lines : List Bytes} (hcode : ∀ l ∈ lines, isCode l) {s t : Reading}
    (hs : s.draft = none) (ht : t.draft = none) (h : Reads lines s t) : Revised lines lines := by
  induction hn : lines.length using Nat.strong_induction_on generalizing lines s with
  | _ n ih =>
    cases lines with
    | nil => exact .nil
    | cons l lines =>
      obtain ⟨hline, hcodes⟩ := List.forall_mem_cons.1 hcode
      obtain ⟨number, raw, u, rfl, hu, h⟩ := h
      obtain ⟨hd, left, hread, rfl⟩ := (addLine_outside hs hline).1 hu
      cases hbody : hd.hasBody with
      | false =>
        rw [hbody, if_neg (by simp)] at h
        refine .declaration hread hbody (ih _ (by simp [← hn]) hcodes ?_ h rfl)
        exact hs
      | true =>
        rw [hbody, if_pos rfl] at h
        obtain ⟨body, close, rest, u, rfl, hinside, hclose, hresults, hu, h⟩ :=
          h.exists_body hcodes ht
        have hrest : ∀ l ∈ rest, isCode l := fun l hl => hcodes l (by simp [hl])
        refine .function hread hbody hinside hclose ⟨fun _ h => h, fun _ _ => rfl, ?_, ?_⟩
          (List.forall₂_same.2 fun l _ => renamed_id l)
          (ih _ (by simp [← hn]; omega) hrest hu h rfl)
        · intro r hr hparam
          have hfree := hresults r hr
          rw [Draft.contains_start.2 hparam] at hfree
          cases hfree
        · exact fun _ _ _ _ heq => heq

/-- An accepted text says the same as itself. -/
theorem revised_of_parse {text : Bytes} {g : Graph} {m : ModuleId} (h : parse text = .ok (g, m)) :
    Revised (contents (linesOf text)) (contents (linesOf text)) := by
  unfold parse parseInto at h
  dsimp only at h
  obtain ⟨r, hr, h⟩ := bind_eq_ok.1 h
  have hreads := Reading.reads_contents (Reading.takeLines_of_addLines hr)
  have hclosed : r.draft = none := by
    cases hdraft : r.draft with
    | none => rfl
    | some d =>
      rw [hdraft] at h
      cases h
  exact revised_of_reads (fun l hl => (List.mem_filter.1 hl).2) rfl hclosed hreads

/-- A text of the same contents as an accepted one is read as the same module. -/
theorem parse_of_contents {text text' : Bytes} {g : Graph} {m : ModuleId}
    (h : parse text = .ok (g, m)) (heq : contents (linesOf text') = contents (linesOf text))
    (hshort : ∀ l ∈ linesOf text', l.length < lineLimit) : parse text' = .ok (g, m) := by
  refine parse_of_revised h ?_ hshort
  rw [heq]
  exact revised_of_parse h

/-- Lines that a text can be made of. -/
def Writable (lines : List Bytes) : Prop :=
  ∀ l ∈ lines, newline ∉ l ∧ l.length < lineLimit

theorem Writable.parse_iff {lines lines' : List Bytes} (hw : Writable lines)
    (hw' : Writable lines') (heq : contents lines = contents lines') (r : Graph × ModuleId) :
    parse (unlines lines) = .ok r ↔ parse (unlines lines') = .ok r := by
  have hlines : linesOf (unlines lines) = lines := linesOf_unlines fun l hl => (hw l hl).1
  have hlines' : linesOf (unlines lines') = lines' := linesOf_unlines fun l hl => (hw' l hl).1
  obtain ⟨g, m⟩ := r
  constructor
  · intro h
    refine parse_of_contents h ?_ ?_
    · rw [hlines, hlines', heq]
    · rw [hlines']
      exact fun l hl => (hw' l hl).2
  · intro h
    refine parse_of_contents h ?_ ?_
    · rw [hlines, hlines', heq]
    · rw [hlines]
      exact fun l hl => (hw l hl).2

/-- A comment or an empty line may be put in and taken out anywhere. -/
theorem parse_insert_iff {before after : List Bytes} {line : Bytes}
    (hw : Writable (before ++ line :: after)) (hcomment : isCode (content line) = false)
    (r : Graph × ModuleId) :
    parse (unlines (before ++ line :: after)) = .ok r ↔
      parse (unlines (before ++ after)) = .ok r := by
  have hrest : Writable (before ++ after) := by
    intro l hl
    apply hw
    rcases List.mem_append.1 hl with hl | hl <;> simp [hl]
  exact hw.parse_iff hrest (contents_insert hcomment before after) r

/-- A line may be indented, and may be followed by blanks. -/
theorem parse_pad_iff {before after : List Bytes} {indent line tail : Bytes}
    (hw : Writable (before ++ (indent ++ (line ++ tail)) :: after))
    (hindent : ∀ b ∈ indent, isSpace b) (htail : ∀ b ∈ tail, endsLine b)
    (r : Graph × ModuleId) :
    parse (unlines (before ++ (indent ++ (line ++ tail)) :: after)) = .ok r ↔
      parse (unlines (before ++ line :: after)) = .ok r := by
  have hbare : Writable (before ++ line :: after) := by
    intro l hl
    obtain hl | rfl | hl : l ∈ before ∨ l = line ∨ l ∈ after := by simpa using hl
    · exact hw l (by simp [hl])
    · obtain ⟨hplain, hshort⟩ := hw (indent ++ (l ++ tail)) (by simp)
      simp only [List.mem_append, not_or, List.length_append] at hplain hshort
      exact ⟨hplain.2.1, by omega⟩
    · exact hw l (by simp [hl])
  exact hw.parse_iff hbare (contents_pad line hindent htail before after) r

theorem Revised.append {lines lines' rest rest' : List Bytes} (h : Revised lines lines')
    (h' : Revised rest rest') : Revised (lines ++ rest) (lines' ++ rest') := by
  induction h with
  | nil => exact h'
  | declaration read body _ ih => exact .declaration read body ih
  | function read body inside outside names renamed _ ih =>
    simp only [List.append_assoc, List.cons_append]
    exact .function read body inside outside names renamed ih

theorem isCode_of_renamed {ρ : Bytes → Bytes} {s s' : Bytes} (h : Renamed ρ s s') :
    isCode s' = isCode s := by
  cases h <;> rfl

/-- Lines that are renamed have renamed contents. -/
theorem renamed_contents {ρ : Bytes → Bytes} (hρ : ∀ name, IsIdent name → IsIdent (ρ name))
    {lines lines' : List Bytes} (h : List.Forall₂ (Renamed ρ) lines lines') :
    List.Forall₂ (Renamed ρ) (contents lines) (contents lines') := by
  induction h with
  | nil => exact .nil
  | @cons l l' _ _ hl _ ih =>
    have hcontent : Renamed ρ (content l) (content l') := hl.content hρ
    rw [contents_cons, contents_cons, isCode_of_renamed hcontent]
    split
    · exact .cons hcontent ih
    · exact ih

theorem isCode_of_header {line left : Bytes} {h : Header} (hread : header line = .ok (h, left)) :
    isCode line := by
  cases line with
  | nil => cases hread
  | cons b s =>
    rw [isCode, List.head?_cons, Option.any_some, decide_eq_true_eq]
    rintro rfl
    cases hread

/-- The results of a function may be renamed, where what stands before the function and what stands
behind it are texts in their own right. -/
theorem parse_rename {ρ : Bytes → Bytes} {before body body' after : List Bytes}
    {head close left : Bytes} {h : Header} {r₁ r₂ r : Graph × ModuleId}
    (hw : Writable (before ++ (head :: (body ++ close :: after))))
    (hw' : Writable (before ++ (head :: (body' ++ close :: after))))
    (hbefore : parse (unlines before) = .ok r₁) (hafter : parse (unlines after) = .ok r₂)
    (hhead : header (content head) = .ok (h, left)) (hopen : h.hasBody)
    (hinside : ∀ l ∈ contents body, l.head? ≠ some closeBrace)
    (hclose : (content close).head? = some closeBrace)
    (hnames : Renames ρ (h.params.map (·.1)) ((contents body).filterMap resultOf))
    (hrenamed : List.Forall₂ (Renamed ρ) body body')
    (hparse : parse (unlines (before ++ (head :: (body ++ close :: after)))) = .ok r) :
    parse (unlines (before ++ (head :: (body' ++ close :: after)))) = .ok r := by
  have hlines : ∀ {lines : List Bytes}, Writable lines → linesOf (unlines lines) = lines :=
    fun hw => linesOf_unlines fun l hl => (hw l hl).1
  have hcode : isCode (content head) := isCode_of_header hhead
  have hend : isCode (content close) := by
    cases hc : content close with
    | nil => simp [hc] at hclose
    | cons b c =>
      obtain rfl : b = closeBrace := by simpa [hc] using hclose
      rfl
  have hsplit : ∀ lines, contents (before ++ (head :: (lines ++ close :: after))) =
      contents before ++ (content head :: (contents lines ++ content close :: contents after)) := by
    intro lines
    rw [contents_append, contents_cons, if_pos hcode, contents_append, contents_cons, if_pos hend]
  have hfront : Revised (contents before) (contents before) := by
    have hrevised := revised_of_parse hbefore
    rwa [hlines fun l hl => hw l (by simp [hl])] at hrevised
  have hback : Revised (contents after) (contents after) := by
    have hrevised := revised_of_parse hafter
    rwa [hlines fun l hl => hw l (by simp [hl])] at hrevised
  have hrevised : Revised (contents (before ++ (head :: (body ++ close :: after))))
      (contents (before ++ (head :: (body' ++ close :: after)))) := by
    rw [hsplit, hsplit]
    exact hfront.append (.function hhead hopen hinside hclose hnames
      (renamed_contents hnames.ident hrenamed) hback)
  obtain ⟨g, m⟩ := r
  refine parse_of_revised hparse ?_ ?_
  · rwa [hlines hw, hlines hw']
  · rw [hlines hw']
    exact fun l hl => (hw' l hl).2

/-- The text of a module is a canonical form. Valid modules whose branches stay within their
functions and whose names are identifiers have the same text if and only if they are isomorphic; and
a text that says the same as an accepted one, up to the names of results, is read as the very same
module. -/
theorem canonical_form [Unicode] :
    (∀ (g : Graph) (m : ModuleId) (g' : Graph) (m' : ModuleId), g.validate m = .ok () →
      (∀ f ∈ (g.module m).funcs, g.TargetsListed f ∧ g.Named f) → g'.validate m' = .ok () →
      (∀ f ∈ (g'.module m').funcs, g'.TargetsListed f ∧ g'.Named f) →
      ∃ s s', printModule g m = .ok s ∧ printModule g' m' = .ok s' ∧
        (s = s' ↔ g.Isomorphic m g' m')) ∧
    ∀ (t t' : Bytes) (g : Graph) (m : ModuleId), parse t = .ok (g, m) →
      Revised (contents (linesOf t)) (contents (linesOf t')) →
      (∀ l ∈ linesOf t', l.length < 1048576) →
      parse t' = .ok (g, m) ∧ ∃ s, printModule g m = .ok s := by
  constructor
  · intro g m g' m' hvalid hnamed hvalid' hnamed'
    have h := Readable.of_validate hvalid hnamed
    have h' := Readable.of_validate hvalid' hnamed'
    exact ⟨_, _, printModule_eq h.printable, printModule_eq h'.printable, h.text_eq_iff h'⟩
  · intro t t' g m hparse hrevised hshort
    exact ⟨parse_of_revised hparse hrevised hshort, _,
      printModule_eq (Readable.of_parse hparse).printable⟩

theorem renamed_append {ρ : Bytes → Bytes} {p s s' : Bytes} (hp : byte '%' ∉ p)
    (h : Renamed ρ s s') : Renamed ρ (p ++ s) (p ++ s') := by
  induction p with
  | nil => exact h
  | cons b p ih =>
    rw [List.mem_cons, not_or] at hp
    exact .keep (fun heq => absurd heq.symm hp.1) (ih hp.2)

/-- The sample with comments, other blanks and other names. -/
def sampleLines : List Bytes := [
  text "# a sample", text "func f(i8 %a) i8 \x7b", text "  entry:\r", [],
  text "\t%sum = add i8 %a, 0x1", text "  # a quotient", text "  %q = udiv i8 %sum, %a",
  text "  ret %q  ", text "\x7d\r"]

def sampleNames (name : Bytes) : Bytes :=
  if name = text "0" then text "sum" else if name = text "1" then text "q" else name

theorem renames_sampleNames : Renames sampleNames [text "a"] [text "0", text "1"] where
  ident name h := by
    unfold sampleNames
    split
    · exact isIdent_of_all rfl rfl
    · split
      · exact isIdent_of_all rfl rfl
      · exact h
  stay := by decide
  apart := by decide
  distinct := by decide

theorem renamed_sampleLines : List.Forall₂ (Renamed sampleNames)
    [text "entry:", text "%0 = add i8 %a, 0x1", text "%1 = udiv i8 %0, %a", text "ret %1"]
    [text "entry:", text "%sum = add i8 %a, 0x1", text "%q = udiv i8 %sum, %a", text "ret %q"] := by
  have plain : ∀ s : Bytes, byte '%' ∉ s → Renamed sampleNames s s := fun s hs => by
    simpa using renamed_append hs .nil
  have named : ∀ name s s' : Bytes, IsIdent name → Stops s → Renamed sampleNames s s' →
      Renamed sampleNames (byte '%' :: (name ++ s)) (byte '%' :: (sampleNames name ++ s')) :=
    fun name s s' hname hs h => .name (List.forall_mem_nil _) hname hs h
  have hzero : IsIdent (text "0") := isIdent_of_all rfl rfl
  have hone : IsIdent (text "1") := isIdent_of_all rfl rfl
  have ha : IsIdent (text "a") := isIdent_of_all rfl rfl
  have hsum := named _ _ _ hzero (stops_cons (by decide)) <|
    renamed_append (p := text " = add i8 ") (by decide) <|
    named _ _ _ ha (stops_cons (by decide)) <| plain (text ", 0x1") (by decide)
  have hquotient := named _ _ _ hone (stops_cons (by decide)) <|
    renamed_append (p := text " = udiv i8 ") (by decide) <|
    named _ _ _ hzero (stops_cons (by decide)) <|
    renamed_append (p := text ", ") (by decide) <| named _ _ _ ha (by simp [Stops]) .nil
  have hret := renamed_append (p := text "ret ") (by decide) <|
    named _ _ _ hone (by simp [Stops]) .nil
  exact .cons (plain _ (by decide)) (.cons hsum (.cons hquotient (.cons hret .nil)))

theorem revised_sampleLines [Unicode] :
    Revised (contents (moduleLines sampleGraph ⟨0⟩)) (contents sampleLines) := by
  have hprinted : contents (moduleLines sampleGraph ⟨0⟩) = [
      text "func f(i8 %a) i8 \x7b", text "entry:", text "%0 = add i8 %a, 0x1",
      text "%1 = udiv i8 %0, %a", text "ret %1", text "\x7d"] := rfl
  have hwritten : contents sampleLines = [
      text "func f(i8 %a) i8 \x7b", text "entry:", text "%sum = add i8 %a, 0x1",
      text "%q = udiv i8 %sum, %a", text "ret %q", text "\x7d"] := rfl
  have hread : header (text "func f(i8 %a) i8 \x7b") = .ok (
      { name := text "f", params := [(text "a", 8)], retBits := 8, hasBody := true }, []) := rfl
  have hclose : (text "\x7d").head? = some closeBrace := rfl
  have hrevised := Revised.function hread rfl (by decide) hclose renames_sampleNames
    renamed_sampleLines .nil
  rw [hprinted, hwritten]
  exact hrevised

/-- The sample with its ops in another order and the same order in the block. -/
def turnedGraph : Graph :=
  { ops := ⟨#[
      { code := .udiv, bits := 8, args := [some (.result ⟨2⟩), some (.param ⟨0⟩)]
        block := some ⟨0⟩, uses := UseSet.empty.add ⟨1⟩ },
      { code := .ret, args := [some (.result ⟨0⟩)], block := some ⟨0⟩ },
      { code := .add, bits := 8, args := [some (.param ⟨0⟩), some (.const ⟨1, 8⟩)]
        block := some ⟨0⟩, uses := UseSet.empty.add ⟨0⟩ }]⟩
    params := ⟨#[
      { func := some ⟨0⟩, name := text "a", bits := 8, uses := (UseSet.empty.add ⟨2⟩).add ⟨0⟩ }]⟩
    blocks := ⟨#[{ owner := some ⟨0⟩, name := text "entry", ops := [⟨2⟩, ⟨0⟩, ⟨1⟩] }]⟩
    funcs := ⟨#[
      { owner := some ⟨0⟩, name := text "f", params := [⟨0⟩], retBits := 8, blocks := [⟨0⟩] }]⟩
    modules := ⟨#[{ funcs := [⟨0⟩] }]⟩ }

theorem turnedGraph_validate : turnedGraph.validate ⟨0⟩ = .ok () := by
  have hreach : (turnedGraph.flow ⟨0⟩).reachable = [0] := by
    have hnext : (turnedGraph.flow ⟨0⟩).successors 0 = [] := by decide
    have hsize : (turnedGraph.flow ⟨0⟩).size = 1 := by decide
    simp [Flow.reachable, Flow.explore, hnext, hsize]
  have hdom : turnedGraph.dominators ⟨0⟩ = [some (.singleton 0)] := by
    simp only [Graph.dominators, Flow.dominators, hreach]
    decide
  have hfunc : turnedGraph.validateFunc ⟨0⟩ = .ok () := by
    simp only [Graph.validateFunc, Validity.checkFunc, hdom]
    decide +kernel
  have hfuncs : (turnedGraph.module ⟨0⟩).funcs = [⟨0⟩] := rfl
  refine Graph.validate_eq_ok.2 ⟨by decide, by decide, ?_⟩
  simp only [hfuncs, List.mem_singleton, forall_eq]
  exact Graph.validateFunc_eq_ok.1 hfunc

theorem turnedGraph_named : turnedGraph.TargetsListed ⟨0⟩ ∧ turnedGraph.Named ⟨0⟩ := by
  have htargets : ∀ o ∈ turnedGraph.opsOf ⟨0⟩, (turnedGraph.op o).targets = [] := by decide
  have hparams : (turnedGraph.func ⟨0⟩).params = [⟨0⟩] := rfl
  have hblocks : (turnedGraph.func ⟨0⟩).blocks = [⟨0⟩] := rfl
  constructor
  · intro o ho b hb
    rw [htargets o ho] at hb
    cases hb
  · refine ⟨isIdent_of_all rfl (by decide), ?_, ?_, ?_⟩
    all_goals simp only [hparams, hblocks, List.mem_singleton, forall_eq]
    · exact isIdent_of_all rfl (by decide)
    · decide
    · exact isIdent_of_all rfl (by decide)

theorem sampleGraph_canonical_form :
    (sampleGraph ≠ turnedGraph ∧ sampleGraph.Isomorphic ⟨0⟩ turnedGraph ⟨0⟩) ∧
    ∃ g m, parse (unlines (moduleLines sampleGraph ⟨0⟩)) = .ok (g, m) ∧
      parse (unlines sampleLines) = .ok (g, m) ∧ ∃ s, printModule g m = .ok s := by
  have hnamed : ∀ f ∈ (sampleGraph.module ⟨0⟩).funcs,
      sampleGraph.TargetsListed f ∧ sampleGraph.Named f := by
    have hfuncs : (sampleGraph.module ⟨0⟩).funcs = [⟨0⟩] := rfl
    simp only [hfuncs, List.mem_singleton, forall_eq]
    exact ⟨sampleGraph_targetsListed, sampleGraph_named⟩
  have hnamed' : ∀ f ∈ (turnedGraph.module ⟨0⟩).funcs,
      turnedGraph.TargetsListed f ∧ turnedGraph.Named f := by
    have hfuncs : (turnedGraph.module ⟨0⟩).funcs = [⟨0⟩] := rfl
    simp only [hfuncs, List.mem_singleton, forall_eq]
    exact turnedGraph_named
  have hreadable := Readable.of_validate sampleGraph_validate hnamed
  have hreadable' := Readable.of_validate turnedGraph_validate hnamed'
  have hisomorphic : sampleGraph.Isomorphic ⟨0⟩ turnedGraph ⟨0⟩ := by
    obtain ⟨s, s', hs, hs', hiff⟩ :=
      canonical_form.1 _ _ _ _ sampleGraph_validate hnamed turnedGraph_validate hnamed'
    have hsame : moduleLines sampleGraph ⟨0⟩ = moduleLines turnedGraph ⟨0⟩ := rfl
    rw [printModule_eq hreadable.printable] at hs
    rw [printModule_eq hreadable'.printable, ← hsame] at hs'
    exact hiff.1 (Except.ok.inj (hs.symm.trans hs'))
  have hdiffer : sampleGraph ≠ turnedGraph := by
    intro heq
    have hcode : (sampleGraph.op ⟨0⟩).code = (turnedGraph.op ⟨0⟩).code := by rw [heq]
    cases hcode
  have hread := parse_moduleLines hreadable
  rw [if_pos (by decide)] at hread
  obtain ⟨g, m, hparse, -⟩ := hread
  have hlines : linesOf (unlines sampleLines) = sampleLines := linesOf_unlines (by decide)
  refine ⟨⟨hdiffer, hisomorphic⟩, g, m, hparse, canonical_form.2 _ _ g m hparse ?_ ?_⟩
  · rw [hreadable.linesOf, hlines]
    exact revised_sampleLines
  · rw [hlines]
    decide

end Disguise.Syntax
