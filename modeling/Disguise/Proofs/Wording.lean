import Disguise.Proofs.Headers
import Disguise.Proofs.Printing

/-!
Lines of a body read back. A label opens its block, and the line of an op gives the op with names
in place of its operands and targets.
-/
namespace Disguise.Syntax
open Bytes Reader Results

theorem isIdent_decimalNat (n : Nat) : IsIdent (decimalNat n) :=
  ⟨digits_ne_nil 10 n, isIdentByte_of_mem_digits (by omega) (by omega)⟩

theorem isIdent_hex (n : Nat) : IsIdent (text "0x" ++ hex n) := by
  refine ⟨by simp [hex, digits_ne_nil], fun b hb => ?_⟩
  rcases List.mem_append.1 hb with hb | hb
  · have hall : (text "0x").all isIdentByte := by decide
    exact List.all_eq_true.1 hall b hb
  · exact isIdentByte_of_mem_digits (by omega) (by omega) b hb

theorem isIdent_name : ∀ c ∈ Opcode.all, IsIdent c.name := by
  have hall : ∀ c ∈ Opcode.all, c.name.isEmpty = false ∧ c.name.all isIdentByte := by decide
  exact fun c hc => isIdent_of_all (hall c hc).1 (hall c hc).2

/-- A name begins with a byte of its own. -/
theorem IsIdent.head_ne {name : Bytes} (h : IsIdent name) {b : UInt8} (hb : isIdentByte b = false)
    (s : Bytes) : (name ++ s).head? ≠ some b := by
  cases name with
  | nil => exact absurd rfl h.nonempty
  | cons c rest =>
    intro heq
    obtain rfl : c = b := by simpa using heq
    have hc := h.bytes c (by simp)
    rw [hb] at hc
    cases hc

def DraftArg.text : DraftArg → Bytes
  | .const c => Disguise.text "0x" ++ hex c.val.toNat
  | .named name => Disguise.text "%" ++ name

/-- An operand that can be read where one of the given width is wanted. -/
def DraftArg.Legible (bits : Int) : DraftArg → Prop
  | .const c => c.bits = bits ∧ Word.fits c.val c.bits
  | .named name => IsIdent name

theorem takes_operand {bits : Int} {a : DraftArg} (ha : a.Legible bits) {s : Bytes}
    (hs : Behind s) : Takes (operand bits) (a.text ++ s) a s := by
  unfold operand
  cases a with
  | named name =>
    apply (takes_peek (byte '%') _).bind
    rw [if_pos rfl]
    apply (takes_expect (dropWhile_ident ha s)).bind
    exact (takes_ident ha hs.stops hs.dropWhile).bind (takes_pure _ _)
  | const c =>
    obtain ⟨rfl, hfits⟩ := ha
    apply (takes_peek (byte '0') _).bind
    rw [if_neg (by decide), if_pos (by decide)]
    apply (takes_ident (isIdent_hex c.val.toNat) hs.stops hs.dropWhile).bind
    simp only [Numeral.anyBase_hex c.val.toNat_lt, UInt64.ofNat_toNat, hfits, if_true]
    exact takes_pure _ _

/-- A byte that begins no operand and no name. -/
def Apart (b : UInt8) : Prop := b ≠ byte '%' ∧ isIdentByte b = false

theorem apart_colon : Apart (byte ':') := ⟨by decide, by decide⟩

theorem IsIdent.begins {name : Bytes} (h : IsIdent name) {close : UInt8} (hc : Apart close) :
    Begins close name := by
  cases name with
  | nil => exact absurd rfl h.nonempty
  | cons b rest =>
    have hb := h.bytes b (by simp)
    refine ⟨b, rest, rfl, ?_, isSpace_of_isIdentByte hb⟩
    rintro rfl
    rw [hc.2] at hb
    cases hb

theorem begins_text {close : UInt8} (hc : Apart close) (a : DraftArg) : Begins close a.text := by
  cases a with
  | const c => exact (isIdent_hex c.val.toNat).begins hc
  | named name => exact ⟨byte '%', _, rfl, Ne.symm hc.1, by decide⟩

def DraftOp.text (op : DraftOp) : Bytes :=
  match op.result with
  | some name => byte '%' :: (name ++ 32 :: byte '=' :: 32 :: (op.code.name ++ 32 ::
      (byte 'i' :: decimal op.bits ++ 32 :: join comma (op.args.map DraftArg.text))))
  | none => op.code.name ++ 32 :: join comma (op.args.map DraftArg.text ++ op.targets)

/-- The ops that are read from lines of a function that returns values of the given width. -/
inductive DraftOp.Legible (retBits : Int) (op : DraftOp) : Prop
  | value (name : Bytes) (code : op.code.isTerminator = false) (known : op.code ∈ Opcode.all)
      (width : Word.goodWidth op.bits) (args : ∀ a ∈ op.args, a.Legible op.bits)
      (full : op.args ≠ []) (targets : op.targets = []) (result : op.result = some name)
      (ident : IsIdent name)
  | ret (a : DraftArg) (code : op.code = .ret) (bits : op.bits = 0) (args : op.args = [a])
      (targets : op.targets = []) (result : op.result = none) (arg : a.Legible retBits)
  | br (name : Bytes) (code : op.code = .br) (bits : op.bits = 0) (args : op.args = [])
      (targets : op.targets = [name]) (result : op.result = none) (ident : IsIdent name)
  | brif (a : DraftArg) (yes no : Bytes) (code : op.code = .brif) (bits : op.bits = 0)
      (args : op.args = [a]) (targets : op.targets = [yes, no]) (result : op.result = none)
      (arg : a.Legible 1) (identYes : IsIdent yes) (identNo : IsIdent no)

/-- A reader that takes all of its part of a line. -/
theorem reading_of_takes {α : Type} {r : Reader α} {rest t : Bytes} {a : α} (h : Takes r rest a t)
    (number : Nat) (line : Bytes) : Draft.reading number line rest r = .ok (a, t) :=
  mapError_eq_ok.2 h

theorem dropWhile_space {s t : Bytes} (h : t.dropWhile isSpace = s) :
    ((32 : UInt8) :: t).dropWhile isSpace = s := by
  rw [List.dropWhile_cons, if_pos (by decide), h]

/-- Behind the code of a value stand its width and its operands. -/
theorem takes_valueParts {bits : Int} (hbits : Word.goodWidth bits) {args : List DraftArg}
    (hargs : ∀ a ∈ args, a.Legible bits) (hne : args ≠ []) :
    Takes (do
        let bits ← type
        pure (bits, ← listToEnd (operand bits) ((← get).length + 1)))
      (byte 'i' :: decimal bits ++ 32 :: join comma (args.map DraftArg.text)) (bits, args) [] := by
  have hjoin : (join comma (args.map DraftArg.text)).dropWhile isSpace =
      join comma (args.map DraftArg.text) := by
    cases args with
    | nil => exact absurd rfl hne
    | cons a args => exact ((begins_text apart_colon a).join comma _).dropWhile_self
  have hlen : (args.map DraftArg.text).length ≤ (join comma (args.map DraftArg.text)).length := by
    refine @length_le_join (byte ':') _ comma fun s hs => ?_
    obtain ⟨a, -, rfl⟩ := List.mem_map.1 hs
    exact begins_text apart_colon a
  rw [List.length_map] at hlen
  have hitem : ∀ a ∈ args, ∀ t, Behind t → Takes (operand bits) (a.text ++ t) a t :=
    fun a ha _ ht => takes_operand (hargs a ha) ht
  apply (takes_type hbits (stops_cons rfl) (dropWhile_space hjoin)).bind
  apply (takes_get _).bind
  apply (takes_listToEnd hitem (fun a _ => begins_text apart_colon a) (by omega)).bind
  exact takes_pure _ _

/-- Behind the code of a terminator stand its operands and targets. -/
theorem takes_terminatorParts {retBits : Int} {op : DraftOp} (h : op.Legible retBits)
    (hnone : op.result = none) : Takes (terminatorParts retBits op.code)
      (join comma (op.args.map DraftArg.text ++ op.targets)) (op.args, op.targets) [] := by
  cases h with
  | value name code known width args full targets result =>
    rw [hnone] at result
    cases result
  | ret a code bits args targets result arg =>
    have htake := takes_operand arg behind_nil
    obtain ⟨b, t, heq, -⟩ := begins_text apart_colon a
    rw [List.append_nil] at htake
    rw [code, args, targets, List.map_singleton, List.append_nil, join_singleton]
    unfold terminatorParts
    apply (takes_atEnd _).bind
    rw [if_neg (by simp [heq])]
    exact htake.bind (takes_pure _ _)
  | br name code bits args targets result ident =>
    have htake := takes_ident ident (s := []) (t := []) behind_nil.stops rfl
    rw [List.append_nil] at htake
    rw [code, args, targets, List.map_nil, List.nil_append, join_singleton]
    unfold terminatorParts
    exact htake.bind (takes_pure _ _)
  | brif a yes no code bits args targets result arg identYes identNo =>
    have hskip : ∀ {name : Bytes}, IsIdent name → ∀ s,
        ((32 : UInt8) :: (name ++ s)).dropWhile isSpace = name ++ s :=
      fun h s => dropWhile_space (dropWhile_ident h s)
    have hjoin : join comma ([a].map DraftArg.text ++ [yes, no]) =
        a.text ++ byte ',' :: 32 :: (yes ++ byte ',' :: 32 :: (no ++ [])) := by
      rw [List.map_singleton, List.singleton_append, join_cons_cons, join_cons_cons,
        join_singleton, List.append_nil]
      rfl
    rw [code, args, targets, hjoin]
    unfold terminatorParts
    apply (takes_operand arg (behind_cons.2 (by decide))).bind
    apply (takes_expect (hskip identYes _)).bind
    apply (takes_ident identYes (stops_cons rfl) rfl).bind
    apply (takes_expect (hskip identNo _)).bind
    exact (takes_ident identNo behind_nil.stops rfl).bind (takes_pure _ _)

/-- Operands and targets begin with no blank and no colon. -/
theorem begins_parts {retBits : Int} {op : DraftOp} (h : op.Legible retBits) :
    Begins (byte ':') (join comma (op.args.map DraftArg.text ++ op.targets)) := by
  have hargs : ∀ a as, op.args = a :: as →
      Begins (byte ':') (join comma (op.args.map DraftArg.text ++ op.targets)) := by
    intro a as heq
    rw [heq]
    exact (begins_text apart_colon a).join _ _
  cases h with
  | value name code known width args full =>
    obtain ⟨a, as, heq⟩ := List.exists_cons_of_ne_nil full
    exact hargs a as heq
  | ret a code bits args => exact hargs a [] args
  | br name code bits args targets result ident =>
    rw [args, targets]
    exact (ident.begins apart_colon).join _ _
  | brif a yes no code bits args => exact hargs a [] args

namespace Draft

/-- A label opens a block. -/
theorem addLine_label {d : Draft} {name : Bytes} (hname : IsIdent name)
    (hfree : d.labels.contains name = false) (number : Nat) (line : Bytes) :
    d.addLine number line (name ++ text ":") = .ok (d.addBlock name) := by
  have hread := reading_of_takes (takes_ident hname (s := text ":") (t := text ":")
    (stops_cons rfl) rfl) number line
  unfold addLine
  rw [if_neg (hname.head_ne rfl _), hread]
  simp only [ok_bind]
  rw [if_pos (by decide), if_neg (by decide), if_neg (by simp [hfree])]

/-- The line of a terminator. -/
theorem addLine_terminator {d : Draft} {op : DraftOp} (h : op.Legible d.header.retBits)
    (hnone : op.result = none) (line : Bytes) :
    d.addLine op.line line op.text = d.addOp op := by
  have hcode : op.code.isTerminator ∧ op.code ∈ Opcode.all ∧ op.bits = 0 := by
    cases h with
    | value name code known width args full targets result =>
      rw [hnone] at result
      cases result
    | ret a code bits => exact ⟨by rw [code]; rfl, by rw [code]; decide, bits⟩
    | br name code bits => exact ⟨by rw [code]; rfl, by rw [code]; decide, bits⟩
    | brif a yes no code bits => exact ⟨by rw [code]; rfl, by rw [code]; decide, bits⟩
  obtain ⟨hterm, hmem, hbits⟩ := hcode
  have hname := isIdent_name op.code hmem
  have htext : op.text =
      op.code.name ++ 32 :: join comma (op.args.map DraftArg.text ++ op.targets) := by
    rw [DraftOp.text, hnone]
  have hparts : Takes (do
        let parts ← terminatorParts d.header.retBits op.code
        done
        pure parts)
      (join comma (op.args.map DraftArg.text ++ op.targets)) (op.args, op.targets) [] :=
    (takes_terminatorParts h hnone).bind (takes_done.bind (takes_pure _ _))
  have hbegins := begins_parts h
  rw [htext]
  generalize join comma (op.args.map DraftArg.text ++ op.targets) = rest at hparts hbegins
  have hskip := dropWhile_space hbegins.dropWhile_self
  have hread := reading_of_takes (takes_ident hname (stops_cons rfl) hskip) op.line line
  obtain ⟨b, t, rfl, hcolon, -⟩ := hbegins
  unfold addLine
  rw [if_neg (hname.head_ne rfl _), hread]
  simp only [ok_bind]
  rw [if_neg (by simpa using hcolon)]
  unfold addTerminator
  simp only [Opcode.parse?_name op.code hmem, Option.filter_some, hterm, if_true,
    reading_of_takes hparts, ok_bind]
  cases op
  simp_all

/-- The line of a value whose name is still free. -/
theorem addLine_value {d : Draft} {op : DraftOp} (h : op.Legible d.header.retBits) {name : Bytes}
    (hresult : op.result = some name) (hfree : d.values.contains name = false) (line : Bytes) :
    d.addLine op.line line op.text = d.addOp op := by
  cases h with
  | ret a code bits args targets result =>
    rw [hresult] at result
    cases result
  | br name' code bits args targets result =>
    rw [hresult] at result
    cases result
  | brif a yes no code bits args targets result =>
    rw [hresult] at result
    cases result
  | value name' code known width args full targets result hname =>
    obtain rfl : name = name' := Option.some.inj (hresult.symm.trans result)
    have hcode := isIdent_name op.code known
    have hparts := takes_valueParts width args full
    have hstart : Takes (do
          expect (byte '%')
          let result ← ident
          expect (byte '=')
          pure (result, ← ident)) op.text (name, op.code.name)
        (byte 'i' :: decimal op.bits ++ 32 :: join comma (op.args.map DraftArg.text)) := by
      rw [DraftOp.text, result]
      apply (takes_expect (dropWhile_ident hname _)).bind
      apply (takes_ident hname (stops_cons rfl) rfl).bind
      apply (takes_expect (dropWhile_space (dropWhile_ident hcode _))).bind
      exact (takes_ident hcode (stops_cons rfl) rfl).bind (takes_pure _ _)
    unfold addLine addValue
    rw [if_pos (by rw [DraftOp.text, result]; rfl), reading_of_takes hstart]
    simp only [ok_bind, Opcode.parse?_name op.code known, Option.filter_some, code, Bool.not_false,
      if_true, reading_of_takes hparts, hfree, Bool.false_eq_true, if_false]
    cases op
    simp_all

end Draft

section
variable {g : Graph} {f : FuncId} {o : OpId}

/-- An operand as it is read. -/
def draftArg (g : Graph) (f : FuncId) : Operand → DraftArg
  | .const c => .const c
  | .param p => .named (g.param p).name
  | .result o => .named (decimalNat ((resultsOf g f).idxOf o))

/-- An op as it is read from a line with the given number. -/
def draftOp (g : Graph) (f : FuncId) (number : Nat) (o : OpId) : DraftOp where
  code := (g.op o).code
  bits := if (g.op o).code.isTerminator then 0 else (g.op o).bits
  args := (g.op o).args.filterMap (·.map (draftArg g f))
  targets := (g.op o).targets.filterMap (·.map fun b => (g.block b).name)
  result := if (g.op o).code.isTerminator then none
    else some (decimalNat ((resultsOf g f).idxOf o))
  line := number

theorem text_draftArg (v : Operand) : (draftArg g f v).text = operandText g f v := by
  cases v <;> rfl

theorem legible_draftArg (hn : g.Named f) {bits : Int} {v : Operand}
    (hv : g.OperandOk f o bits v) : (draftArg g f v).Legible bits := by
  cases v with
  | const c => exact hv
  | param p => exact hn.params p hv.1
  | result u => exact isIdent_decimalNat _

theorem args_draftOp {vs : List Operand} (h : (g.op o).args = vs.map some) (number : Nat) :
    (draftOp g f number o).args = vs.map (draftArg g f) ∧
      (draftOp g f number o).args.map DraftArg.text =
        (g.op o).args.map fun v => v.elim [] (operandText g f) := by
  have hargs : (draftOp g f number o).args = vs.map (draftArg g f) := by
    simp [draftOp, h, List.filterMap_map]
  refine ⟨hargs, ?_⟩
  rw [hargs, h, List.map_map, List.map_map]
  exact List.map_congr_left fun v _ => text_draftArg v

theorem targets_draftOp {ts : List BlockId} (h : (g.op o).targets = ts.map some) (number : Nat) :
    (draftOp g f number o).targets = ts.map (fun b => (g.block b).name) ∧
      (draftOp g f number o).targets =
        (g.op o).targets.map fun t => t.elim [] fun b => (g.block b).name := by
  have htargets : (draftOp g f number o).targets = ts.map fun b => (g.block b).name := by
    simp [draftOp, h, List.filterMap_map]
  refine ⟨htargets, ?_⟩
  rw [htargets, h, List.map_map]
  rfl

/-- The line of an op, its operands and targets given. -/
theorem text_draftOp {vs : List Operand} {ts : List BlockId} (hargs : (g.op o).args = vs.map some)
    (htargets : (g.op o).targets = ts.map some)
    (hvalue : (g.op o).code.isTerminator = false → ts = []) (number : Nat) :
    (draftOp g f number o).text = opText g f o := by
  obtain ⟨-, hvs⟩ := args_draftOp (f := f) hargs number
  obtain ⟨-, hts⟩ := targets_draftOp (f := f) htargets number
  unfold opText DraftOp.text
  rw [← hvs, ← hts]
  cases hterm : (g.op o).code.isTerminator with
  | true =>
    have hresult : (draftOp g f number o).result = none := by simp [draftOp, hterm]
    rw [hresult, opStart, if_pos hterm, List.append_assoc]
    rfl
  | false =>
    have hresult : (draftOp g f number o).result =
        some (decimalNat ((resultsOf g f).idxOf o)) := by simp [draftOp, hterm]
    have hbits : (draftOp g f number o).bits = (g.op o).bits := by simp [draftOp, hterm]
    have hnone : (draftOp g f number o).targets = [] := by
      rw [hts, htargets, hvalue hterm]
      rfl
    rw [hresult, hbits, hnone, List.append_nil, opStart, if_neg (by simp [hterm])]
    simp only [resultName, List.append_assoc]
    rfl

theorem mem_all {c : Opcode} (h : c.isBinary ∨ c.isUnary) : c ∈ Opcode.all := by
  cases c <;> simp [Opcode.isBinary, Opcode.isUnary] at h <;> decide

/-- The line of a value. -/
theorem legible_value (hn : g.Named f) (hkind : (g.op o).code.isBinary ∨ (g.op o).code.isUnary)
    {vs : List Operand} (hargs : (g.op o).args = vs.map some) (htargets : (g.op o).targets = [])
    (hwidth : Word.goodWidth (g.op o).bits) (hok : ∀ v ∈ vs, g.OperandOk f o (g.op o).bits v)
    (hne : vs ≠ []) (retBits : Int) (number : Nat) :
    (draftOp g f number o).Legible retBits ∧ (draftOp g f number o).text = opText g f o := by
  have hterm : (g.op o).code.isTerminator = false :=
    hkind.elim Opcode.not_isTerminator_of_isBinary Opcode.not_isTerminator_of_isUnary
  have htargets' : (g.op o).targets = ([] : List BlockId).map some := htargets
  obtain ⟨hvs, -⟩ := args_draftOp (f := f) hargs number
  obtain ⟨hts, -⟩ := targets_draftOp (f := f) htargets' number
  have hbits : (draftOp g f number o).bits = (g.op o).bits := by simp [draftOp, hterm]
  have hresult : (draftOp g f number o).result =
      some (decimalNat ((resultsOf g f).idxOf o)) := by simp [draftOp, hterm]
  have hwidth' : Word.goodWidth (draftOp g f number o).bits := by rwa [hbits]
  have hlegible : ∀ a ∈ (draftOp g f number o).args,
      a.Legible (draftOp g f number o).bits := by
    intro a ha
    rw [hvs] at ha
    obtain ⟨v, hv, rfl⟩ := List.mem_map.1 ha
    rw [hbits]
    exact legible_draftArg hn (hok v hv)
  have hsome : (draftOp g f number o).args ≠ [] := by simp [hvs, hne]
  exact ⟨.value _ hterm (mem_all hkind) hwidth' hlegible hsome hts hresult (isIdent_decimalNat _),
    text_draftOp hargs htargets' (fun _ => rfl) number⟩

/-- A well-formed op is read from the line that is printed for it. -/
theorem legible_draftOp (hn : g.Named f) (h : g.OpForm f o)
    (ht : ∀ b, some b ∈ (g.op o).targets → b ∈ (g.func f).blocks) (number : Nat) :
    (draftOp g f number o).Legible (g.func f).retBits ∧
      (draftOp g f number o).text = opText g f o := by
  have hname : ∀ b, some b ∈ (g.op o).targets → IsIdent (g.block b).name :=
    fun b hb => hn.blocks b (ht b hb)
  have hend : (g.op o).code.isTerminator → (draftOp g f number o).bits = 0 ∧
      (draftOp g f number o).result = none := by
    intro hterm
    simp [draftOp, hterm]
  -- operands and targets as lists of what the slots hold
  have hslots : ∀ (vs : List Operand) (ts : List BlockId), (g.op o).args = vs.map some →
      (g.op o).targets = ts.map some → (g.op o).code.isTerminator →
      (draftOp g f number o).args = vs.map (draftArg g f) ∧
        (draftOp g f number o).targets = ts.map (fun b => (g.block b).name) ∧
        (draftOp g f number o).text = opText g f o := by
    intro vs ts hargs htargets hterm
    refine ⟨(args_draftOp hargs number).1, (targets_draftOp htargets number).1, ?_⟩
    refine text_draftOp hargs htargets (fun hvalue => ?_) number
    rw [hterm] at hvalue
    cases hvalue
  cases h with
  | binary x y code args targets width float left right =>
    exact @legible_value _ _ _ hn (.inl code) [x, y] args targets width (by simp [left, right])
      (by simp) _ number
  | unary x code args targets width operand =>
    exact @legible_value _ _ _ hn (.inr code) [x] args targets width (by simp [operand])
      (by simp) _ number
  | ret x code args targets operand =>
    have hterm : (g.op o).code.isTerminator := by rw [code]; rfl
    obtain ⟨hbits, hnone⟩ := hend hterm
    obtain ⟨hvs, hts, htext⟩ := hslots [x] [] args targets hterm
    exact ⟨.ret _ code hbits hvs hts hnone (legible_draftArg hn operand), htext⟩
  | br t code args targets =>
    have hterm : (g.op o).code.isTerminator := by rw [code]; rfl
    obtain ⟨hbits, hnone⟩ := hend hterm
    obtain ⟨hvs, hts, htext⟩ := hslots [] [t] args targets hterm
    have hlegible := hname t (by simp [targets])
    exact ⟨.br _ code hbits hvs hts hnone hlegible, htext⟩
  | brif x t e code args targets yes no operand =>
    have hterm : (g.op o).code.isTerminator := by rw [code]; rfl
    obtain ⟨hbits, hnone⟩ := hend hterm
    obtain ⟨hvs, hts, htext⟩ := hslots [x] [t, e] args targets hterm
    have hthen := hname t (by simp [targets])
    have helse := hname e (by simp [targets])
    exact ⟨.brif _ _ _ code hbits hvs hts hnone (legible_draftArg hn operand) hthen helse, htext⟩

end
end Disguise.Syntax
